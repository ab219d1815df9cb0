/-
Definitions of entities: `$ name : type key = value …`. A line defines an entity exactly if one
colon stands in the text behind its mark, with more than blanks on both sides. The words behind the
colon are the type and then groups of a key, a separator and a value, of which the last may end
early (`Catalog.readChunk_definition`).
-/
import LangGen.Proofs.Catalog.Sighting
import LangGen.Proofs.Text.Split

namespace LangGen

open Line

/-! ## Types -/

namespace EntityType

/-- The type that a name stands for: the one that is called so, whatever the case of the letters, or
a custom type if none is. -/
def Resolves (name : Text) (t : EntityType) : Prop :=
  Text.sameLetters t.text name = true ∨ t = custom ∧ ∀ t' : EntityType, Text.sameLetters t'.text name = false

theorem eq_of_sameLetters {t t' : EntityType} (h : Text.sameLetters t.text t'.text = true) : t = t' := by
  cases t <;> cases t' <;> first | rfl | exact absurd h (by decide)

theorem ofName_eq_iff {name : Text} (h : Text.trim name = name) {t : EntityType} :
    ofName name = t ↔ Resolves name t := by
  have hletters : ∀ s s' : Text, Text.sameLetters s s' = true ↔ s.map Char.toLower = s'.map Char.toLower :=
    fun _ _ => beq_iff_eq
  have hall : ∀ t : EntityType, t ∈ all := by rintro ⟨⟩ <;> decide
  unfold ofName Resolves
  rw [h]
  cases hfound : all.find? (Text.sameLetters ·.text name) with
  | none =>
    have hnone : ∀ t : EntityType, Text.sameLetters t.text name = false := fun t => by
      simpa using List.find?_eq_none.1 hfound t (hall t)
    simp only [Option.getD_none, hnone, Bool.false_eq_true, false_or, implies_true, and_true]
    exact eq_comm
  | some t' =>
    have ht' : Text.sameLetters t'.text name = true := by simpa using List.find?_some hfound
    rw [Option.getD_some]
    constructor
    · rintro rfl
      exact .inl ht'
    · rintro (ht | ⟨-, hnone⟩)
      · refine eq_of_sameLetters ((hletters _ _).2 ?_)
        rw [(hletters _ _).1 ht', (hletters _ _).1 ht]
      · rw [hnone t'] at ht'
        cases ht'

end EntityType

/-! ## Attributes -/

/-- Attributes that are spelled by words in groups of three: the first word of a group is a key, and
the third, if there is one, is its value. -/
structure SpelledBy (tokens : List Text) (attributes : List Attribute) : Prop where
  length_eq : attributes.length = (tokens.length + 2) / 3
  each : ∀ j < attributes.length,
    ∃ key, tokens[3 * j]? = some key ∧ attributes[j]? = some ⟨key, tokens[3 * j + 2]?⟩

theorem spelledBy_attributesOf (tokens : List Text) : SpelledBy tokens (Catalog.attributesOf tokens) := by
  induction tokens using Catalog.attributesOf.induct with
  | case1 key separator value rest ih =>
    constructor
    · simp only [Catalog.attributesOf, List.length_cons, ih.length_eq]
      omega
    · rintro (_ | j) hj
      · exact ⟨key, rfl, rfl⟩
      · rw [Catalog.attributesOf, List.length_cons] at hj
        exact ih.each j (by omega)
  | case2 key rest hshort =>
    have hrest : rest.length ≤ 1 := by
      match rest, hshort with
      | [], _ => simp
      | [_], _ => simp
      | a :: b :: rest, hshort => exact absurd rfl (hshort a b rest)
    have heq : Catalog.attributesOf (key :: rest) = [⟨key, none⟩] := by
      rw [Catalog.attributesOf]
      exact hshort
    rw [heq]
    constructor
    · simp only [List.length_cons, List.length_nil]
      omega
    · intro j hj
      obtain rfl : j = 0 := by simpa using hj
      have hnone : (key :: rest)[3 * 0 + 2]? = none := List.getElem?_eq_none (by rw [List.length_cons]; omega)
      rw [hnone]
      exact ⟨key, rfl, rfl⟩
  | case3 => exact ⟨rfl, by simp [Catalog.attributesOf]⟩

/-- Only the last group can end early. -/
theorem SpelledBy.after_eq_nil {tokens : List Text} {attributes before after : List Attribute} {a : Attribute}
    (h : SpelledBy tokens attributes) (hsplit : attributes = before ++ a :: after) (ha : a.value = none) :
    after = [] := by
  subst hsplit
  have hlen := h.length_eq
  obtain ⟨key, -, hget⟩ := h.each before.length (by simp)
  rw [List.getElem?_append_right le_rfl, Nat.sub_self, List.getElem?_cons_zero, Option.some.injEq] at hget
  subst hget
  -- the third word of the group is missing, so there is no word for another group
  have hend : tokens.length ≤ 3 * before.length + 2 := List.getElem?_eq_none_iff.1 ha
  rw [List.length_append, List.length_cons] at hlen
  exact List.length_eq_zero_iff.1 (by omega)

/-- The words that spell keys with their values. -/
def spelling (pairs : List (Text × Text)) : List Text := pairs.flatMap fun p => [p.1, ['='], p.2]

theorem attributesOf_spelling (pairs : List (Text × Text)) :
    Catalog.attributesOf (spelling pairs) = pairs.map fun p => ⟨p.1, some p.2⟩ := by
  induction pairs with
  | nil => rfl
  | cons p pairs ih =>
    rw [List.map_cons, ← ih]
    rfl

/-! ## Lines -/

namespace Line

/-- The parts of a text that defines an entity: what stands before the only colon and what stands
behind it. -/
structure Defines (text name definition : Text) : Prop where
  split : text = name ++ ':' :: definition
  name_colon : ':' ∉ name
  definition_colon : ':' ∉ definition
  name_solid : Text.allBlank name = false
  definition_solid : Text.allBlank definition = false

/-- A line that defines an entity of this name with a type, and keys with their values. -/
def definition (name type : Text) (pairs : List (Text × Text)) : Text :=
  entityMark :: ' ' :: (name ++ " : ".toList ++ Text.join [' '] (type :: spelling pairs))

/-- What can be written as a definition: no blanks stand around the name, the type, the keys and the
values are words, and no colon is in any of them. -/
structure Definable (name type : Text) (pairs : List (Text × Text)) : Prop where
  neat : Text.Neat name
  unbroken : Text.Unbroken name
  colon : ':' ∉ name
  type : Text.IsWord type ∧ ':' ∉ type
  pairs : ∀ p ∈ pairs, (Text.IsWord p.1 ∧ ':' ∉ p.1) ∧ Text.IsWord p.2 ∧ ':' ∉ p.2

theorem Defines.splitOn_eq {text name definition : Text} (h : Defines text name definition) :
    text.splitOn ':' = [name, definition] :=
  Text.splitOn_eq_pair_iff.2 ⟨h.split, h.name_colon, h.definition_colon⟩

theorem Defines.unique {text name definition name' definition' : Text} (h : Defines text name definition)
    (h' : Defines text name' definition') : name = name' ∧ definition = definition' := by
  have hparts := h.splitOn_eq.symm.trans h'.splitOn_eq
  simpa using hparts

variable {name type : Text} {pairs : List (Text × Text)}

theorem Definable.words (h : Definable name type pairs) :
    ∀ w ∈ type :: spelling pairs, Text.IsWord w ∧ ':' ∉ w := by
  have hequals : Text.IsWord ['='] ∧ ':' ∉ ['='] := by decide
  simp only [spelling, List.forall_mem_cons, List.forall_mem_flatMap]
  exact ⟨h.type, fun p hp => ⟨(h.pairs p hp).1, hequals, (h.pairs p hp).2, by simp⟩⟩

/-- A definition has no blanks around it and is one line. -/
theorem Definable.neat_definition (h : Definable name type pairs) :
    Text.Neat (definition name type pairs) ∧ Text.Unbroken (definition name type pairs) := by
  have hwords := h.words
  unfold definition
  generalize hws : (type :: spelling pairs) = ws at hwords
  have hne : ws ≠ [] := hws ▸ List.cons_ne_nil _ _
  have hjoined : Text.Neat (Text.join [' '] ws) := Text.neat_join hne fun w hw => (hwords w hw).1.neat
  have hunbroken : Text.Unbroken (Text.join [' '] ws) := by
    have hend : ∀ c, c ∉ [' '] → Text.isBlank c = true → c ∉ Text.join [' '] ws := by
      intro c hspace hblank hc
      obtain ⟨w, hw, hcw⟩ := (Text.mem_join hspace).1 hc
      rw [(hwords w hw).1.2 c hcw] at hblank
      cases hblank
    exact ⟨hend '\r' (by decide) (by decide), hend '\n' (by decide) (by decide)⟩
  refine ⟨(h.neat.append _ hjoined).marked (by decide), ?_⟩
  simp only [Text.unbroken_cons, Text.unbroken_append]
  exact ⟨by decide, by decide, ⟨h.unbroken, by decide⟩, hunbroken⟩

theorem Definable.defines (h : Definable name type pairs) :
    Defines (' ' :: (name ++ " : ".toList ++ Text.join [' '] (type :: spelling pairs))) (' ' :: (name ++ [' ']))
      (' ' :: Text.join [' '] (type :: spelling pairs)) where
  split := by simp
  name_colon := by simpa using h.colon
  definition_colon := by
    have hspace : ':' ∉ [' '] := by decide
    rw [List.mem_cons, Text.mem_join hspace, not_or]
    exact ⟨by decide, fun ⟨w, hw, hc⟩ => (h.words w hw).2 hc⟩
  name_solid := by
    rw [← Bool.not_eq_true, ← Text.trim_eq_nil_iff, Text.trim_between rfl rfl, h.neat.2]
    exact h.neat.1
  definition_solid := by
    rw [← Bool.not_eq_true, ← Text.words_eq_nil_iff, Text.words_cons_blank rfl,
      Text.words_join fun w hw => (h.words w hw).1]
    exact List.cons_ne_nil _ _

end Line

/-! ## Reading definitions -/

namespace Catalog

/-- A line defines an entity exactly if its text has the two parts of a definition. -/
theorem entityOf?_eq_some_iff {mark : Char} {text : Text} {e : Entity} : entityOf? (mark :: text) = some e ↔
    ∃ name definition type tokens, Line.Defines text name definition ∧
      Text.words definition = type :: tokens ∧ e = ⟨Text.trim name, .ofName type, attributesOf tokens⟩ := by
  have hsolid : ∀ s : Text, Text.allBlank s = false ↔ Text.trim s ≠ [] := fun s => by
    rw [Ne, Text.trim_eq_nil_iff, Bool.not_eq_true]
  constructor
  · intro h
    unfold entityOf? at h
    split at h
    · rename_i name definition hsplit
      obtain ⟨htext, hname, hdefinition⟩ := Text.splitOn_eq_pair_iff.1 hsplit
      split at h
      · rename_i c r type tokens htrim hwords
        cases h
        refine ⟨name, definition, type, tokens, ⟨htext, hname, hdefinition, ?_, ?_⟩, hwords, by rw [htrim]⟩
        · rw [hsolid, htrim]
          exact List.cons_ne_nil c r
        · rw [← Bool.not_eq_true, ← Text.words_eq_nil_iff, hwords]
          exact List.cons_ne_nil type tokens
      · cases h
    · cases h
  · rintro ⟨name, definition, type, tokens, hdefines, hwords, rfl⟩
    obtain ⟨c, r, htrim⟩ := List.exists_cons_of_ne_nil ((hsolid name).1 hdefines.name_solid)
    unfold entityOf?
    rw [List.drop_one, List.tail_cons, hdefines.splitOn_eq]
    dsimp only
    rw [htrim, hwords]

/-- What is written as a definition is read back. -/
theorem entityOf?_definition {name type : Text} {pairs : List (Text × Text)} (h : Line.Definable name type pairs) :
    entityOf? (Line.definition name type pairs) =
      some ⟨name, .ofName type, pairs.map fun p => ⟨p.1, some p.2⟩⟩ := by
  refine entityOf?_eq_some_iff.2 ⟨_, _, type, spelling pairs, h.defines, ?_, ?_⟩
  · rw [Text.words_cons_blank rfl]
    exact Text.words_join fun w hw => (h.words w hw).1
  · rw [attributesOf_spelling, Text.trim_between rfl rfl, h.neat.2]

/-- The first line of a chunk that starts with the mark of an entity is read as a definition. -/
theorem readChunk_eq_readEntity {chunk text : Text} {rest : List Text}
    (hlines : Text.lines (Text.trim chunk) = (entityMark :: text) :: rest) (strict : Bool) (c : Catalog) :
    c.readChunk strict chunk = c.readEntity (entityMark :: text) := by
  have hkind : Chunk.classify (Text.trim chunk) = .ok .entity := by
    obtain ⟨s, hs⟩ := List.head?_eq_some_iff.1 (Text.head?_of_lines_eq hlines)
    rw [hs]
    rfl
  unfold readChunk
  dsimp only
  rw [hkind, hlines]

theorem exists_entityOf?_iff {mark : Char} {text : Text} :
    (∃ e, entityOf? (mark :: text) = some e) ↔ ∃ name definition, Line.Defines text name definition := by
  constructor
  · rintro ⟨e, h⟩
    obtain ⟨name, definition, -, -, hdefines, -⟩ := entityOf?_eq_some_iff.1 h
    exact ⟨name, definition, hdefines⟩
  · rintro ⟨name, definition, hdefines⟩
    have hne : Text.words definition ≠ [] := by
      rw [Ne, Text.words_eq_nil_iff, hdefines.definition_solid]
      exact Bool.false_ne_true
    obtain ⟨type, tokens, hwords⟩ := List.exists_cons_of_ne_nil hne
    exact ⟨_, entityOf?_eq_some_iff.2 ⟨name, definition, type, tokens, hdefines, hwords, rfl⟩⟩

variable {c : Catalog}

theorem readEntity_of_none {line : Text} (h : entityOf? line = none) :
    c.readEntity line = ⟨c, some { fault := .invalidEntity (Text.trim line) }⟩ := by
  unfold readEntity
  rw [h]

/-- A definition of a name that is not known yet comes last. -/
theorem readEntity_of_new {line : Text} {e : Entity} (h : entityOf? line = some e)
    (hnew : e.name ∉ c.entities.map Entity.name) :
    c.readEntity line = ⟨{ c with entities := c.entities ++ [e] }, none⟩ := by
  have hany : ¬ (c.entities.any (·.name == e.name)) = true := by simpa using hnew
  unfold readEntity defineEntity
  rw [h]
  dsimp only
  rw [if_neg hany]

theorem readEntity_succeeds {line : Text} :
    (c.readEntity line).failure = none ↔ ∃ e, entityOf? line = some e := by
  unfold readEntity
  cases entityOf? line with
  | none => simp
  | some e => simp

/-- A chunk of an entity is read without failure exactly if its first line has the two parts of a
definition; otherwise the catalog stays as it is. A name that is not known yet gives one more
entity, with the name without the blanks around it, the type that the first word behind the colon
stands for, and the attributes that the other words spell, of which only the last can lack its
value. What is written as a definition is read back as it was meant. -/
theorem readChunk_definition (strict : Bool) (c : Catalog) :
    (∀ {chunk text : Text} {rest : List Text}, Text.lines (Text.trim chunk) = (entityMark :: text) :: rest →
      ((c.readChunk strict chunk).failure = none ↔ ∃ name definition, Line.Defines text name definition) ∧
      ((c.readChunk strict chunk).failure ≠ none →
        c.readChunk strict chunk = ⟨c, some { fault := .invalidEntity (Text.trim (entityMark :: text)) }⟩) ∧
      ∀ {name definition : Text}, Line.Defines text name definition → Text.trim name ∉ c.entities.map Entity.name →
        ∃ e type tokens, c.readChunk strict chunk = ⟨{ c with entities := c.entities ++ [e] }, none⟩ ∧
          e.name = Text.trim name ∧ Text.Spaced (type :: tokens) definition ∧ EntityType.Resolves type e.type ∧
          SpelledBy tokens e.attributes ∧
          ∀ before a after, e.attributes = before ++ a :: after → a.value = none → after = []) ∧
    ∀ {name type : Text} {pairs : List (Text × Text)}, Line.Definable name type pairs →
      name ∉ c.entities.map Entity.name →
        c.readChunk strict (Line.definition name type pairs) =
          ⟨{ c with entities := c.entities ++ [⟨name, .ofName type, pairs.map fun p => ⟨p.1, some p.2⟩⟩] }, none⟩ := by
  constructor
  · intro chunk text rest hlines
    rw [readChunk_eq_readEntity hlines]
    refine ⟨readEntity_succeeds.trans exists_entityOf?_iff, fun hfailed => ?_,
      fun {name definition} hdefines hnew => ?_⟩
    · cases hentity : entityOf? (entityMark :: text) with
      | none => exact readEntity_of_none hentity
      | some e => exact absurd (readEntity_succeeds.2 ⟨e, hentity⟩) hfailed
    · obtain ⟨e, hentity⟩ := exists_entityOf?_iff.2 ⟨name, definition, hdefines⟩
      obtain ⟨name', definition', type, tokens, hdefines', hwords, rfl⟩ := entityOf?_eq_some_iff.1 hentity
      obtain ⟨rfl, rfl⟩ := hdefines.unique hdefines'
      have hspaced : Text.Spaced (type :: tokens) definition := Text.words_eq_iff.1 hwords
      have hspelled := spelledBy_attributesOf tokens
      exact ⟨_, type, tokens, readEntity_of_new hentity hnew, rfl, hspaced,
        (EntityType.ofName_eq_iff (hspaced.isWord type List.mem_cons_self).neat.2).1 rfl, hspelled,
        fun _ _ _ => hspelled.after_eq_nil⟩
  · intro name type pairs h hnew
    obtain ⟨hneat, hunbroken⟩ := h.neat_definition
    have hlines : Text.lines (Text.trim (Line.definition name type pairs)) = [Line.definition name type pairs] := by
      rw [hneat.2, Text.lines_of_unbroken hunbroken]
    rw [readChunk_eq_readEntity hlines]
    exact readEntity_of_new (entityOf?_definition h) hnew

/-- A wide blank behind the colon, a key without its value and a line that is not read; and a
definition that is written out. -/
theorem readChunk_definition_dangling :
    let c : Catalog := { entities := [⟨"y".toList, .bool, []⟩] }
    let chunk := " $ x y :\u3000INT lo = 1 hi\n- z".toList
    let name := " x y ".toList
    let definition := "\u3000INT lo = 1 hi".toList
    Text.lines (Text.trim chunk) = ["$ x y :\u3000INT lo = 1 hi".toList, "- z".toList] ∧
      Line.Defines (name ++ ':' :: definition) name definition ∧
      (∃ e, c.readChunk false chunk = ⟨{ c with entities := c.entities ++ [e] }, none⟩ ∧ e.name = "x y".toList ∧
        e.type = .int ∧ e.attributes.length = 2) ∧
      Line.Definable "x".toList "Date".toList [("lo".toList, "=".toList)] ∧
      c.readChunk false "$ x : Date lo = =".toList =
        ⟨{ c with entities := c.entities ++ [⟨"x".toList, .custom, [⟨"lo".toList, some "=".toList⟩]⟩] }, none⟩ := by
  intro c chunk name definition
  have hlines : Text.lines (Text.trim chunk) = ["$ x y :\u3000INT lo = 1 hi".toList, "- z".toList] := by decide +kernel
  have hdefines : Line.Defines (name ++ ':' :: definition) name definition :=
    ⟨rfl, by decide +kernel, by decide +kernel, by decide +kernel, by decide +kernel⟩
  have hwritten : Line.Definable "x".toList "Date".toList [("lo".toList, "=".toList)] :=
    ⟨⟨by decide +kernel, by decide +kernel⟩, by decide +kernel, by decide +kernel, by decide +kernel, by decide +kernel⟩
  obtain ⟨hchunks, hdefinitions⟩ := readChunk_definition false c
  obtain ⟨-, -, hnew⟩ := hchunks hlines
  obtain ⟨e, type, tokens, hread, hname, hspaced, htype, hspelled, -⟩ := hnew hdefines (by decide +kernel)
  have hwords : type :: tokens = ["INT", "lo", "=", "1", "hi"].map String.toList :=
    hspaced.words_eq.symm.trans (by decide +kernel)
  obtain ⟨rfl, rfl⟩ := List.cons.inj hwords
  have hint : EntityType.ofName "INT".toList = e.type := (EntityType.ofName_eq_iff (by decide +kernel)).2 htype
  refine ⟨hlines, hdefines, ⟨e, hread, ?_, ?_, ?_⟩, hwritten, ?_⟩
  · exact hname.trans (by decide +kernel)
  · exact hint.symm.trans (by decide +kernel)
  · exact hspelled.length_eq
  · exact hdefinitions hwritten (by decide +kernel)

end Catalog

end LangGen
