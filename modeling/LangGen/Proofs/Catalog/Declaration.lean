/-
What is known of an entity in the end. The entity of a name has the type of its last definition,
wherever that stands (`Catalog.entity?_readChunks`). Its attributes are those of the place where it
was met first, so a definition that comes after a mention gives the type and loses its attributes
(`Catalog.entity_of_definition`).
-/
import LangGen.Proofs.Catalog.Sighting

namespace LangGen

open Line

/-! ## Joined sightings by name -/

theorem Sighting.find?_joined (n : Text) (ss : List Sighting) :
    (joined ss).find? (·.name == n) =
      (ss.find? (·.name == n)).map fun s => { s with type := lastType n ss } := by
  have hname : ∀ s : Sighting, (s.name == n) = true ↔ s.name = n := fun _ => beq_iff_eq
  induction ss using List.reverseRecOn with
  | nil => rfl
  | append_singleton ss t ih =>
    have hjoined : joined (ss ++ [t]) = upsert name join (joined ss) t := upsertAll_concat [] ss t
    rw [hjoined, find?_upsert join_name hname, ih, List.find?_append, List.find?_singleton, lastType_append,
      lastType_singleton]
    simp only [hname]
    by_cases ht : t.name = n
    · rw [if_pos ht, if_pos ht, if_pos ht]
      cases hfound : ss.find? (·.name == n) with
      | some s => rfl
      | none =>
        -- `t` is the first sighting of the name, so no type has been declared for it before
        have hnew : n ∉ ss.map name := (find?_eq_none_iff hname).1 hfound
        rw [lastType_of_not_mem hnew, Option.or_none]
        rfl
    · rw [if_neg ht, if_neg ht, if_neg ht, Option.or_none, Option.none_or]

namespace Catalog

/-! ## What a chunk says of a name -/

/-- The lines of a template chunk below its header. Other chunks have none that are read. -/
def bodyOf (chunk : Text) : List Text :=
  match Chunk.kind? (Text.trim chunk), Text.lines (Text.trim chunk) with
  | some .template, _ :: body => body
  | _, _ => []

/-- The names that the body of a template chunk mentions. -/
def mentionedBy (chunk : Text) : List Text := (bodyOf chunk).flatMap mentionedIn

theorem mem_bodyOf {chunk line : Text} (h : line ∈ bodyOf chunk) :
    ∃ header body, Chunk.kind? (Text.trim chunk) = some .template ∧
      Text.lines (Text.trim chunk) = header :: body ∧ line ∈ body := by
  unfold bodyOf at h
  split at h
  · rename_i hkind hlines
    exact ⟨_, _, hkind, hlines, h⟩
  · cases h

theorem sightings_eq (chunk : Text) :
    sightings chunk = (mentionedBy chunk).map .mention ++ (definition? chunk).toList.map .definition := by
  unfold sightings mentionedBy bodyOf
  cases hkind : Chunk.kind? (Text.trim chunk) with
  | none => rfl
  | some kind =>
    cases kind with
    | template =>
      have hnone : definition? chunk = none := by rw [definition?, hkind]
      cases hlines : Text.lines (Text.trim chunk) with
      | nil => rfl
      | cons header body =>
        rw [hnone]
        exact (List.append_nil _).symm
    | reference => rfl
    | entity => rfl

/-- A chunk that defines an entity mentions none. -/
theorem mentionedBy_of_definition? {chunk : Text} {e : Entity} (h : definition? chunk = some e) :
    mentionedBy chunk = [] := by
  unfold mentionedBy bodyOf
  split
  · rename_i hkind _
    rw [definition?, hkind] at h
    cases h
  · rfl

/-- Where no chunk defines an entity of a name, the first sighting of the name is a mention, if
there is one. -/
theorem find?_sightings_of_undefined {chunks : List Text} {n : Text}
    (h : ∀ chunk ∈ chunks, ∀ e, definition? chunk = some e → e.name ≠ n) :
    (chunks.flatMap sightings).find? (·.name == n) =
      if ∃ chunk ∈ chunks, n ∈ mentionedBy chunk then some (.mention n) else none := by
  have hname : ∀ s : Sighting, (s.name == n) = true ↔ s.name = n := fun _ => beq_iff_eq
  have hmention : ∀ s ∈ chunks.flatMap sightings, s.name = n →
      s = .mention n ∧ ∃ chunk ∈ chunks, n ∈ mentionedBy chunk := by
    intro s hs hn
    obtain ⟨chunk, hchunk, hs⟩ := List.mem_flatMap.1 hs
    rw [sightings_eq, List.mem_append, List.mem_map, List.mem_map] at hs
    rcases hs with ⟨m, hm, rfl⟩ | ⟨e, he, rfl⟩
    · obtain rfl : m = n := hn
      exact ⟨rfl, chunk, hchunk, hm⟩
    · exact absurd hn (h chunk hchunk e (Option.mem_toList.1 he))
  cases hfound : (chunks.flatMap sightings).find? (·.name == n) with
  | some s =>
    have hn : s.name = n := by simpa using List.find?_some hfound
    obtain ⟨rfl, hmentioned⟩ := hmention s (List.mem_of_find?_eq_some hfound) hn
    rw [if_pos hmentioned]
  | none =>
    rw [if_neg]
    rintro ⟨chunk, hchunk, hm⟩
    have hsighted : Sighting.mention n ∈ chunks.flatMap sightings := by
      refine List.mem_flatMap.2 ⟨chunk, hchunk, ?_⟩
      rw [sightings_eq]
      exact List.mem_append_left _ (List.mem_map_of_mem hm)
    exact absurd (List.mem_map_of_mem hsighted) ((find?_eq_none_iff hname).1 hfound)

theorem lastDefinition?_append (chunks chunks' : List Text) (n : Text) :
    lastDefinition? (chunks ++ chunks') n = (lastDefinition? chunks' n).or (lastDefinition? chunks n) := by
  unfold lastDefinition?
  rw [List.filterMap_append, findLast?_append]

theorem lastDefinition?_of_undefined {chunks : List Text} {n : Text}
    (h : ∀ chunk ∈ chunks, ∀ e, definition? chunk = some e → e.name ≠ n) : lastDefinition? chunks n = none := by
  cases hlast : lastDefinition? chunks n with
  | none => rfl
  | some e =>
    obtain ⟨hmem, hn⟩ := findLast?_eq_some hlast
    obtain ⟨chunk, hchunk, hdef⟩ := List.mem_filterMap.1 hmem
    exact absurd (eq_of_beq hn) (h chunk hchunk e hdef)

/-! ## Runs -/

variable {strict : Bool} {source : Option Text} {chunks : List Text}

/-- The entity of a name after chunks that are read without failure: the type is that of its last
definition, and the attributes are those of its first sighting. -/
theorem entity?_readChunks (hok : (readChunks strict source {} chunks).failure = none) (n : Text) :
    (readChunks strict source {} chunks).state.entity? n =
      ((chunks.flatMap sightings).find? (·.name == n)).map fun s =>
        ⟨s.name, ((lastDefinition? chunks n).map Entity.type).getD .unresolved, s.attributes⟩ := by
  have hnames : ((·.name == n) : Entity → Bool) ∘ Sighting.entity = fun s => s.name == n := rfl
  unfold entity?
  rw [entities_readChunks hok, List.find?_map, hnames, Sighting.find?_joined, lastType_flatMap_sightings,
    Option.map_map]
  rfl

/-- The entity that is found for a name is the only one of that name. -/
theorem sole_of_entity? (hok : (readChunks strict source {} chunks).failure = none) {n : Text} {e : Entity}
    (h : (readChunks strict source {} chunks).state.entity? n = some e) :
    ((readChunks strict source {} chunks).state.entities.map Entity.name).count n = 1 ∧
      ∀ e' ∈ (readChunks strict source {} chunks).state.entities, e'.name = n → e' = e := by
  have hnodup : ((readChunks strict source {} chunks).state.entities.map Entity.name).Nodup := by
    rw [entities_readChunks hok, List.map_map]
    exact Sighting.nodup_joined _
  have hname : e.name = n := by simpa using List.find?_some h
  refine ⟨List.count_eq_one_of_mem hnodup (hname ▸ List.mem_map_of_mem (List.mem_of_find?_eq_some h)), ?_⟩
  rintro e' he' rfl
  have hfound : (readChunks strict source {} chunks).state.entity? e'.name = some e' :=
    find?_eq_some_of_mem hnodup he' fun _ => beq_iff_eq
  exact Option.some.inj (hfound.symm.trans h)

/-- An entity with exactly one definition in chunks that are read without failure has the type of
this definition in the end, and its attributes too unless a template before it mentions the name;
then it has none. It is the only one of its name, and what is mentioned after the definition changes
nothing. -/
theorem entity_of_definition {before after : List Text} {chunk : Text} {e : Entity}
    (hok : (readChunks strict source {} (before ++ chunk :: after)).failure = none)
    (hdef : definition? chunk = some e)
    (hsole : ∀ other ∈ before ++ after, ∀ e', definition? other = some e' → e'.name ≠ e.name) :
    let result := (readChunks strict source {} (before ++ chunk :: after)).state
    let final : Entity := if ∃ other ∈ before, e.name ∈ mentionedBy other then { e with attributes := [] } else e
    result.entity? e.name = some final ∧ (result.entities.map Entity.name).count e.name = 1 ∧
      ∀ e' ∈ result.entities, e'.name = e.name → e' = final := by
  intro result final
  rw [List.forall_mem_append] at hsole
  obtain ⟨hbefore, hafter⟩ := hsole
  have hself : sightings chunk = [.definition e] := by
    rw [sightings_eq, mentionedBy_of_definition? hdef, hdef]
    rfl
  have hfirst : ((before ++ chunk :: after).flatMap sightings).find? (·.name == e.name) =
      some (if ∃ other ∈ before, e.name ∈ mentionedBy other then .mention e.name else .definition e) := by
    rw [List.flatMap_append, List.find?_append, find?_sightings_of_undefined hbefore, List.flatMap_cons, hself]
    split
    · rfl
    · have hnamed : ((Sighting.definition e).name == e.name) = true := beq_self_eq_true e.name
      rw [Option.none_or, List.find?_append, List.find?_singleton, if_pos hnamed, Option.some_or]
  have hlast : lastDefinition? (before ++ chunk :: after) e.name = some e := by
    have hchunk : lastDefinition? [chunk] e.name = some e := by
      simp [lastDefinition?, findLast?, hdef]
    rw [List.append_cons, lastDefinition?_append, lastDefinition?_append, lastDefinition?_of_undefined hafter, hchunk,
      Option.none_or, Option.some_or]
  have hfinal : result.entity? e.name = some final := by
    rw [entity?_readChunks hok, hfirst, hlast]
    unfold final
    split <;> rfl
  exact ⟨hfinal, sole_of_entity? hok hfinal⟩

/-- The template mentions an entity that is defined already and one that is defined below it. -/
theorem entity_of_definition_order :
    let first := "$ x : int lo = 1".toList
    let template := "# A\n- {x} {y}".toList
    let second := "$ y : float hi = 2".toList
    let result := (readChunks true none {} [first, template, second]).state
    result.entity? "x".toList = some ⟨"x".toList, .int, [⟨"lo".toList, some "1".toList⟩]⟩ ∧
      result.entity? "y".toList = some ⟨"y".toList, .float, []⟩ := by
  intro first template second result
  have hok : (readChunks true none {} [first, template, second]).failure = none := by decide +kernel
  have hfirst : definition? first = some ⟨"x".toList, .int, [⟨"lo".toList, some "1".toList⟩]⟩ := by decide +kernel
  have hsecond : definition? second = some ⟨"y".toList, .float, [⟨"hi".toList, some "2".toList⟩]⟩ := by decide +kernel
  have htemplate : definition? template = none := by decide +kernel
  have hx := (@entity_of_definition true none [] [template, second] first _ hok hfirst (by
    simp [htemplate, hsecond])).1
  have hy := (@entity_of_definition true none [first, template] [] second _ hok hsecond (by
    simp [htemplate, hfirst])).1
  refine ⟨hx.trans (by decide +kernel), hy.trans (by decide +kernel)⟩

/-- The attributes of the only definition do not count wherever it stands. -/
theorem entity_ne_definition :
    ¬ ∀ (strict : Bool) (source : Option Text) (before after : List Text) (chunk : Text) (e : Entity),
      (readChunks strict source {} (before ++ chunk :: after)).failure = none → definition? chunk = some e →
        (∀ other ∈ before ++ after, ∀ e', definition? other = some e' → e'.name ≠ e.name) →
          (readChunks strict source {} (before ++ chunk :: after)).state.entity? e.name = some e := by
  intro h
  have htemplate : definition? "# A\n- {x}".toList = none := by decide +kernel
  have hfound := h true none ["# A\n- {x}".toList] [] "$ x : int lo = 1".toList
    ⟨"x".toList, .int, [⟨"lo".toList, some "1".toList⟩]⟩ (by decide +kernel) (by decide +kernel)
    (by simp only [List.append_nil, List.mem_singleton, forall_eq, htemplate]; intro e' he'; cases he')
  exact absurd hfound (by decide +kernel)

end Catalog

end LangGen
