/-
Reading again. A catalog into which chunks have been read without failure has all that they say:
their variations and branches stand where the chunks would put them, and each entity that they
define has the type of its last definition. So the same chunks are read into it again without
failure, and only the references are listed once more (`Catalog.readChunks_again`). Nothing is asked
of the catalog that the chunks were read into at first: where names, conditions or variations stand
twice in it, both readings go to the last of them.

Templates only grow while chunks are read, and what they have been filled with is in them for good
(`readEach_again`). The types of entities go back and forth instead, so that those that all chunks
declare are given at once (`Sighting.exists_foldl_put`): to give them twice comes to giving them once.
-/
import LangGen.Proofs.Catalog.Filling
import LangGen.Proofs.Catalog.Progress

namespace LangGen

open Line

/-! ## Entities -/

namespace Sighting

/-- What a sighting makes of an entity of its name: it gets the type, if one is declared. -/
def retype (s : Sighting) (e : Entity) : Entity := { e with type := s.type.getD e.type }

/-- Entities with one more sighting: it counts for the last one of its name, or makes a new one known. -/
def put (es : List Entity) (s : Sighting) : List Entity := putLast Entity.name s.name s.retype s.entity es

/-- An entity with the last type that sightings declare for its name. -/
def declared (ss : List Sighting) (e : Entity) : Entity := { e with type := (lastType e.name ss).getD e.type }

theorem declared_name (ss : List Sighting) (e : Entity) : (declared ss e).name = e.name := rfl

theorem declared_nil (e : Entity) : declared [] e = e := rfl

theorem declared_declared (ss ts : List Sighting) (e : Entity) :
    declared ts (declared ss e) = declared (ss ++ ts) e := by
  have htype : (lastType e.name ts).getD ((lastType e.name ss).getD e.type) =
      ((lastType e.name ts).or (lastType e.name ss)).getD e.type := by
    cases lastType e.name ts <;> rfl
  unfold declared
  dsimp only
  rw [lastType_append, htype]

theorem declared_self (ss : List Sighting) (e : Entity) : declared ss (declared ss e) = declared ss e := by
  unfold declared
  dsimp only
  cases lastType e.name ss <;> rfl

variable {ss : List Sighting} {es : List Entity} {s : Sighting}

theorem put_of_mem (h : s.name ∈ es.map Entity.name) : put es s = changeLasts Entity.name (declared [s]) es := by
  rw [put, putLast_of_mem h, changeLast_eq_changeLasts]
  refine changeLasts_congr fun e _ => ?_
  unfold declared retype
  rw [lastType_singleton]
  by_cases he : s.name = e.name
  · rw [if_pos he, if_pos (by simpa using he.symm)]
  · rw [if_neg he, if_neg (by simpa using Ne.symm he)]
    rfl

theorem map_name_declared (ss : List Sighting) (es : List Entity) :
    (changeLasts Entity.name (declared ss) es).map Entity.name = es.map Entity.name :=
  map_key_changeLasts (declared_name ss) es

theorem put_declared (h : s.name ∈ es.map Entity.name) :
    put (changeLasts Entity.name (declared ss) es) s = changeLasts Entity.name (declared (ss ++ [s])) es := by
  rw [put_of_mem (by rwa [map_name_declared]), changeLasts_changeLasts (declared_name ss)]
  exact changeLasts_congr fun e _ => declared_declared ss [s] e

/-- Sightings of known names change the types only: of several entities of a name, that of the last
one. -/
theorem foldl_put_of_mem (h : ∀ s ∈ ss, s.name ∈ es.map Entity.name) :
    ss.foldl put es = changeLasts Entity.name (declared ss) es := by
  induction ss using List.reverseRecOn with
  | nil => exact (changeLasts_id declared_nil es).symm
  | append_singleton ss s ih =>
    rw [List.forall_mem_append, List.forall_mem_singleton] at h
    rw [List.foldl_append, ih h.1]
    exact put_declared h.2

/-- What sightings make of entities: new ones come behind them, and then the types that are declared
are given. -/
theorem exists_foldl_put (ss : List Sighting) (es : List Entity) : ∃ es', (∀ s ∈ ss, s.name ∈ es'.map Entity.name) ∧
    ss.foldl put es = changeLasts Entity.name (declared ss) es' := by
  induction ss using List.reverseRecOn with
  | nil => exact ⟨es, fun s hs => (by cases hs), (changeLasts_id declared_nil es).symm⟩
  | append_singleton ss s ih =>
    obtain ⟨es', hnames, hfold⟩ := ih
    simp only [List.foldl_append, List.foldl_cons, List.foldl_nil, List.forall_mem_append, List.forall_mem_singleton,
      hfold]
    by_cases hs : s.name ∈ es'.map Entity.name
    · exact ⟨es', ⟨hnames, hs⟩, put_declared hs⟩
    · refine ⟨es' ++ [s.entity], ⟨fun t ht => ?_, ?_⟩, ?_⟩
      · rw [List.map_append]
        exact List.mem_append_left _ (hnames t ht)
      · rw [List.map_append]
        exact List.mem_append_right _ (List.mem_singleton_self _)
      · have hnone : lastType s.name ss = none := by
          refine lastType_of_not_mem fun hmem => hs ?_
          obtain ⟨t, ht, hname⟩ := List.mem_map.1 hmem
          exact hname ▸ hnames t ht
        have hold : ∀ e ∈ es', declared ss e = declared (ss ++ [s]) e := by
          intro e he
          have hne : s.name ≠ e.name := fun heq => hs (heq ▸ List.mem_map_of_mem he)
          unfold declared
          rw [lastType_append, lastType_singleton, if_neg hne, Option.none_or]
        have hnew : declared (ss ++ [s]) s.entity = s.entity := by
          unfold declared
          rw [lastType_append, entity_name, lastType_singleton, if_pos rfl, hnone, Option.or_none]
          cases hs : s.type <;> simp [entity, hs]
        rw [put, putLast_of_not_mem (by rwa [map_name_declared]), changeLasts_concat hs, changeLasts_congr hold, hnew]

/-- Sightings that count for the second time change nothing. -/
theorem foldl_put_again (ss : List Sighting) (es : List Entity) : ss.foldl put (ss.foldl put es) = ss.foldl put es := by
  obtain ⟨es', hnames, hfold⟩ := exists_foldl_put ss es
  rw [hfold, foldl_put_of_mem (by rwa [map_name_declared]), changeLasts_changeLasts (declared_name ss)]
  exact changeLasts_congr fun e _ => declared_self ss e

end Sighting

namespace Catalog

variable {strict : Bool} {c d : Catalog} {chunk : Text}

theorem addMention_eq_put (es : List Entity) (name : Text) :
    Body.addMention es name = Sighting.put es (.mention name) := by
  by_cases h : name ∈ es.map Entity.name
  · have hput : Sighting.put es (.mention name) = changeLast (·.name == name) id es := putLast_of_mem h
    rw [hput, changeLast_id]
    exact upsert_of_absorbed h fun _ _ _ => rfl
  · have hput : Sighting.put es (.mention name) = es ++ [{ name := name }] := putLast_of_not_mem h
    rw [hput]
    exact upsert_of_not_mem h

theorem defineEntity_eq_put (c : Catalog) (e : Entity) :
    (c.defineEntity e).entities = Sighting.put c.entities (.definition e) := by
  unfold defineEntity
  split
  · rename_i h
    exact (if_pos h).symm
  · rename_i h
    exact (if_neg h).symm

/-- A chunk that is read without failure counts for the entities by its sightings. -/
theorem entities_readChunk_put (hok : (c.readChunk strict chunk).failure = none) :
    (c.readChunk strict chunk).state.entities = (sightings chunk).foldl Sighting.put c.entities := by
  have hstep := readChunk_step hok
  generalize (c.readChunk strict chunk).state = c' at hstep ⊢
  unfold sightings definition?
  cases hstep with
  | template hkind hlines hok =>
    have haddMention : Body.addMention = fun es name => Sighting.put es (.mention name) := by
      funext es name
      exact addMention_eq_put es name
    rw [hkind, hlines, entities_readTemplate hok, List.foldl_map, haddMention]
  | reference hkind =>
    rw [hkind]
    rfl
  | entity hkind hlines hdef =>
    rw [hkind, hlines, defineEntity_eq_put]
    dsimp only
    rw [hdef]
    rfl

end Catalog

/-! ## Chunks -/

namespace Catalog

/-- What a chunk makes of templates: it fills the last one of its name, or a new one that comes
behind them. -/
def fillTemplates (chunk : Text) (ts : List Template) : List Template :=
  match Chunk.template? chunk with
  | some (name, body) =>
    let ps := body.filterMap payload?
    putLast Template.name name (·.fill ps) (({ name := name } : Template).fill ps) ts
  | none => ts

variable {strict : Bool} {c d : Catalog} {chunk name : Text} {body : List Text}

theorem covered_fillTemplates (chunk : Text) (ts : List Template) :
    Covered Template.name Template.KeptIn ts (fillTemplates chunk ts) := by
  unfold fillTemplates
  split
  · exact .putLast Template.KeptIn.refl (fun t => t.fill_name _) (fun t => t.keptIn_fill _) (Template.fill_name _ _)
  · exact .refl Template.KeptIn.refl ts

theorem readBody_fill (hok : (c.readBody strict name body).failure = none) :
    (c.readBody strict name body).state.draft.settle.template = (c.templateOr name).fill (body.filterMap payload?) := by
  obtain ⟨-, hsettle⟩ := Body.settle_readLines body 2 _ hok
  exact congrArg Draft.template hsettle

/-- A chunk that is read without failure fills a template, if it is one with a name. -/
theorem templates_readChunk_fill (hok : (c.readChunk strict chunk).failure = none) :
    (c.readChunk strict chunk).state.templates = fillTemplates chunk c.templates := by
  unfold fillTemplates
  cases htemplate : Chunk.template? chunk with
  | none =>
    obtain ⟨o, hwhole, ho⟩ := readChunk_whole (c := c) htemplate
    rw [ho]
    cases hwhole with
    | refused => rfl
    | referred => rfl
    | defined => exact defineEntity_templates ..
  | some template =>
    obtain ⟨name, body⟩ := template
    rw [readChunk_of_template? htemplate] at hok ⊢
    dsimp only at hok ⊢
    cases hbody : (c.readBody strict name body).failure with
    | some f => rw [hbody] at hok; cases hok
    | none =>
      have hname : ((c.templateOr name).fill (body.filterMap payload?)).name = name :=
        (Template.fill_name _ _).trans (c.templateOr_name name)
      dsimp only
      unfold finish
      dsimp only
      rw [readBody_fill hbody, hname]
      cases hlast : c.lastTemplate? name with
      | some t =>
        obtain ⟨hmem, htname⟩ := lastTemplate?_eq_some hlast
        have hor : c.templateOr name = t := congrArg (Option.getD · _) hlast
        rw [putLast_of_mem (htname ▸ List.mem_map_of_mem hmem)]
        dsimp only [putTemplate]
        rw [hname, hor]
        refine changeLast_congr_findLast? fun u hu => ?_
        rw [Option.some.inj (hu.symm.trans hlast)]
      | none =>
        have hor : c.templateOr name = { name := name } := congrArg (Option.getD · _) hlast
        rw [putLast_of_not_mem (findLast?_key_eq_none.1 hlast), hor]

/-- What is no template with a name is read without failure into any catalog, or into none. -/
theorem readChunk_succeeds_whole (htemplate : Chunk.template? chunk = none)
    (hok : (c.readChunk strict chunk).failure = none) : (d.readChunk strict chunk).failure = none := by
  have hstep := readChunk_step hok
  unfold readChunk Chunk.classify at hok ⊢
  dsimp only at hok ⊢
  cases hkind : Chunk.kind? (Text.trim chunk) with
  | none => rw [hkind] at hok; cases hok
  | some kind =>
    rw [hkind] at hok
    cases hlines : Text.lines (Text.trim chunk) with
    | nil => exact absurd hlines (Text.lines_ne_nil _)
    | cons line body =>
      rw [hlines] at hok
      cases kind with
      | template =>
        obtain ⟨h0, -⟩ := (readTemplate_succeeds strict c body rfl).1 hok
        rw [Chunk.template?_eq_some.2 ⟨hkind, h0, line, hlines, rfl⟩] at htemplate
        cases htemplate
      | reference =>
        dsimp only [readReference] at hok ⊢
        split at hok
        · rfl
        · cases hok
      | entity =>
        dsimp only [readEntity] at hok ⊢
        split at hok
        · rfl
        · cases hok

/-- A template that has been read without failure is read so again into a catalog with a template of
its name that keeps what it has made. -/
theorem readChunk_succeeds_kept {u : Template} (htemplate : Chunk.template? chunk = some (name, body))
    (hok : (c.readChunk strict chunk).failure = none) (hu : d.templateOr name = u)
    (hkept : ((c.templateOr name).fill (body.filterMap payload?)).KeptIn u) :
    (d.readChunk strict chunk).failure = none := by
  rw [readChunk_of_template? htemplate] at hok ⊢
  dsimp only at hok ⊢
  cases hbody : (c.readBody strict name body).failure with
  | some f => rw [hbody] at hok; cases hok
  | none =>
    have hconditions : (c.templateOr name).KeptIn (d.templateOr name) := by
      rw [hu]
      exact (Template.keptIn_fill _ _).trans hkept
    have hbody' : (d.readBody strict name body).failure = none :=
      Body.readLines_succeed body (b := ⟨c.entities, ⟨_, .template⟩⟩) (fun _ => hconditions.conditions) hbody
    rw [hbody] at hok
    rw [hbody']
    dsimp only at hok ⊢
    rw [readBody_fill hbody] at hok
    rw [readBody_fill hbody', hu, Template.fill_of_keptIn hkept, if_neg]
    intro hempty
    rw [if_pos (hkept.isEmpty hempty)] at hok
    cases hok

/-- A chunk that has been read without failure is read so again, and changes no template, into every
catalog that keeps what it has made of the templates. -/
theorem readChunk_again (hok : (c.readChunk strict chunk).failure = none)
    (h : Covered Template.name Template.KeptIn (c.readChunk strict chunk).state.templates d.templates) :
    (d.readChunk strict chunk).failure = none ∧ (d.readChunk strict chunk).state.templates = d.templates := by
  cases htemplate : Chunk.template? chunk with
  | none =>
    have hagain : (d.readChunk strict chunk).failure = none := readChunk_succeeds_whole htemplate hok
    refine ⟨hagain, ?_⟩
    rw [templates_readChunk_fill hagain, fillTemplates, htemplate]
  | some template =>
    obtain ⟨name, body⟩ := template
    -- what the chunk has made of the template of its name, and what that has become since
    obtain ⟨u, hu, hkept⟩ : ∃ u, d.lastTemplate? name = some u ∧
        ((c.templateOr name).fill (body.filterMap payload?)).KeptIn u := by
      refine h name _ ?_
      rw [templates_readChunk_fill hok, fillTemplates, htemplate]
      dsimp only
      unfold templateOr
      cases hlast : c.lastTemplate? name with
      | some t => exact findLast?_putLast_of_mem (fun t => t.fill_name _) hlast
      | none => exact findLast?_putLast_of_not_mem (Template.fill_name _ _) (findLast?_key_eq_none.1 hlast)
    have hagain : (d.readChunk strict chunk).failure = none :=
      readChunk_succeeds_kept htemplate hok (congrArg (Option.getD · _) hu) hkept
    refine ⟨hagain, ?_⟩
    rw [templates_readChunk_fill hagain, fillTemplates, htemplate]
    dsimp only
    rw [putLast_of_mem]
    · refine changeLast_of_fixed fun t ht => ?_
      rw [Option.some.inj (ht.symm.trans hu), Template.fill_of_keptIn hkept]
    · by_contra hnot
      rw [lastTemplate?, findLast?_key_eq_none.2 hnot] at hu
      cases hu

/-! ## Runs -/

variable {source source' : Option Text}

theorem entities_readEach_put : ∀ {chunks : List Text} {n : Nat} {c : Catalog},
    (readEach (readPlaced strict source) n c chunks).failure = none →
      (readEach (readPlaced strict source) n c chunks).state.entities =
        (chunks.flatMap sightings).foldl Sighting.put c.entities
  | [], _, _, _ => rfl
  | chunk :: chunks, n, c, hok => by
    obtain ⟨hchunk, hrest⟩ := (readEach_succeeds_cons ..).1 hok
    have hfirst := entities_readChunk_put ((readPlaced_succeeds n c chunk).1 hchunk)
    rw [readEach_cons_of_succeeds hchunk, List.flatMap_cons, List.foldl_append, entities_readEach_put hrest]
    exact congrArg (List.foldl Sighting.put · _) hfirst

theorem covered_readEach : ∀ {chunks : List Text} {n : Nat} {c : Catalog},
    (readEach (readPlaced strict source) n c chunks).failure = none →
      Covered Template.name Template.KeptIn c.templates (readEach (readPlaced strict source) n c chunks).state.templates
  | [], _, c, _ => .refl Template.KeptIn.refl c.templates
  | chunk :: chunks, n, c, hok => by
    obtain ⟨hchunk, hrest⟩ := (readEach_succeeds_cons ..).1 hok
    have hfirst : Covered Template.name Template.KeptIn c.templates (c.readChunk strict chunk).state.templates := by
      rw [templates_readChunk_fill ((readPlaced_succeeds n c chunk).1 hchunk)]
      exact covered_fillTemplates chunk c.templates
    rw [readEach_cons_of_succeeds hchunk]
    exact hfirst.trans (fun _ _ _ h => h.trans) (covered_readEach hrest)

/-- Chunks that have been read without failure are read so again, and change no template, into every
catalog that keeps what they have made of the templates. -/
theorem readEach_again : ∀ {chunks : List Text} {n m : Nat} {c d : Catalog},
    (readEach (readPlaced strict source) n c chunks).failure = none →
      Covered Template.name Template.KeptIn (readEach (readPlaced strict source) n c chunks).state.templates
        d.templates →
      (readEach (readPlaced strict source') m d chunks).failure = none ∧
        (readEach (readPlaced strict source') m d chunks).state.templates = d.templates
  | [], _, _, _, _, _, _ => ⟨rfl, rfl⟩
  | chunk :: chunks, n, m, c, d, hok, h => by
    obtain ⟨hchunk, hrest⟩ := (readEach_succeeds_cons ..).1 hok
    rw [readEach_cons_of_succeeds hchunk] at h
    have hkept := (covered_readEach hrest).trans (fun _ _ _ h => h.trans) h
    obtain ⟨hagain, htemplates⟩ := readChunk_again ((readPlaced_succeeds n c chunk).1 hchunk) hkept
    have hagain' : (readPlaced strict source' m d chunk).failure = none := (readPlaced_succeeds m d chunk).2 hagain
    have htemplates' : (readPlaced strict source' m d chunk).state.templates = d.templates := htemplates
    obtain ⟨hothers, hsame⟩ := readEach_again (m := m + 1) hrest (htemplates' ▸ h)
    rw [readEach_cons_of_succeeds hagain']
    exact ⟨hothers, hsame.trans htemplates'⟩

/-- Chunks that have been read without failure are so again when they are read into what they have
left, and then change nothing but the references, which are listed once more. The catalog at first
may hold names, conditions and variations twice. -/
theorem readChunks_again {base : Catalog} {chunks : List Text}
    (hok : (readChunks strict source base chunks).failure = none) (source' : Option Text) :
    let c := (readChunks strict source base chunks).state
    readChunks strict source' c chunks = ⟨{ c with references := c.references ++ chunks.filterMap target? }, none⟩ := by
  intro c
  obtain ⟨hagain, htemplates⟩ : (readChunks strict source' c chunks).failure = none ∧
      (readChunks strict source' c chunks).state.templates = c.templates :=
    readEach_again hok (.refl Template.KeptIn.refl _)
  have hentities : (readChunks strict source' c chunks).state.entities = c.entities := by
    refine (entities_readEach_put hagain).trans ?_
    have hfirst : c.entities = (chunks.flatMap sightings).foldl Sighting.put base.entities := entities_readEach_put hok
    rw [hfirst, Sighting.foldl_put_again]
  have hreferences : (readChunks strict source' c chunks).state.references = c.references ++ chunks.filterMap target? :=
    references_readEach chunks hagain
  generalize readChunks strict source' c chunks = o at *
  obtain ⟨⟨templates, entities, references⟩, failure⟩ := o
  subst htemplates hentities hreferences hagain
  rfl

/-- Read into a catalog with two templates, two branches and two entities of one name, chunks give
an entity two types and open the default branch by its condition. -/
theorem readChunks_again_twofold :
    let base : Catalog := ⟨[⟨"A".toList, ["a".toList], []⟩,
        ⟨"A".toList, ["b".toList, "b".toList], [⟨"y".toList, ["p".toList]⟩, ⟨"y".toList, []⟩]⟩],
      [⟨"x".toList, .float, []⟩, ⟨"x".toList, .unresolved, []⟩], ["r".toList]⟩
    let chunks := ["# A\n- a\n- IF: y\n- p {z}", "$ x : int", "# B\n- {x}\n- ELSE:\n- IF: ELSE:\n- c",
      "$ x : bool lo = 1", "[l](r)"].map String.toList
    let c : Catalog := ⟨[⟨"A".toList, ["a".toList], []⟩,
        ⟨"A".toList, ["b".toList, "b".toList, "a".toList],
          [⟨"y".toList, ["p".toList]⟩, ⟨"y".toList, ["p {z}".toList]⟩]⟩,
        ⟨"B".toList, ["{x}".toList], [⟨"ELSE:".toList, ["c".toList]⟩]⟩],
      [⟨"x".toList, .float, []⟩, ⟨"x".toList, .bool, []⟩, ⟨"z".toList, .unresolved, []⟩],
      ["r".toList, "r".toList]⟩
    readChunks true none base chunks = ⟨c, none⟩ ∧
      readChunks true none c chunks = ⟨{ c with references := c.references ++ ["r".toList] }, none⟩ := by
  intro base chunks c
  have hread : readChunks true none base chunks = ⟨c, none⟩ := by decide +kernel
  have hagain := readChunks_again (congrArg Outcome.failure hread) none
  rw [hread] at hagain
  have htargets : chunks.filterMap target? = ["r".toList] := by decide +kernel
  refine ⟨hread, ?_⟩
  rw [← htargets]
  exact hagain

end Catalog

end LangGen
