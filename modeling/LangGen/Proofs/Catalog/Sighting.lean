/-
Reading in parts, for entities and references. What the chunks of a file say of entities makes a
list of sightings, one for each mention and each definition, and the entities of a catalog are what
these come to when they are joined by name: the first attributes and the last declared type. Joining
is associative, so reading in parts and joining comes to the same as reading in one go.

Merging catalogs is not quite joining. It sees of the second part only the type that an entity ended
with, so that a definition as unresolved looks like a mention and leaves the type of the first part;
and it lists a reference once, however often the chunks do.
-/
import LangGen.Proofs.Catalog.Joining

namespace LangGen

open Line

/-! ## Sightings -/

/-- What a place in a file says of an entity: the type if it declares one, and attributes. -/
structure Sighting where
  name : Text
  type : Option EntityType := none
  attributes : List Attribute := []
  deriving DecidableEq, Repr

namespace Sighting

/-- The sighting of a name alone. -/
def mention (name : Text) : Sighting := { name := name }

/-- The sighting of a definition. -/
def definition (e : Entity) : Sighting := ⟨e.name, some e.type, e.attributes⟩

/-- The entity that a sighting makes known. -/
def entity (s : Sighting) : Entity := ⟨s.name, s.type.getD .unresolved, s.attributes⟩

/-- A sighting together with a later one of its name: the later type counts, and the first attributes. -/
def join (s later : Sighting) : Sighting := { s with type := later.type.or s.type }

/-- The sightings of a file, those of one name joined. -/
def joined (ss : List Sighting) : List Sighting := upsertAll name join [] ss

theorem entity_name (s : Sighting) : s.entity.name = s.name := rfl

theorem join_name (s later : Sighting) : (s.join later).name = s.name := rfl

theorem entity_join_mention (s : Sighting) (n : Text) : (s.join (mention n)).entity = s.entity := rfl

theorem entity_join_definition (s : Sighting) (e : Entity) :
    (s.join (definition e)).entity = { s.entity with type := e.type } := rfl

theorem join_assoc (s t u : Sighting) : (s.join t).join u = s.join (t.join u) := by
  simp [join, Option.or_assoc]

theorem nodup_joined (ss : List Sighting) : ((joined ss).map name).Nodup := by
  unfold joined
  rw [map_key_upsertAll join_name]
  exact nodup_unite List.nodup_nil _

theorem mem_names_joined {n : Text} {ss : List Sighting} : n ∈ (joined ss).map name ↔ n ∈ ss.map name := by
  rw [joined, map_key_upsertAll join_name, mem_unite]
  simp

theorem joined_append (ss ts : List Sighting) :
    joined (ss ++ ts) = upsertAll name join (joined ss) (joined ts) := by
  have hnil : (([] : List Sighting).map name).Nodup := List.nodup_nil
  unfold joined
  rw [upsertAll_append]
  exact upsertAll_assoc (P := fun _ => True) join_name (fun _ _ _ _ => trivial)
    (fun s t u _ => s.join_assoc t u) hnil (fun _ _ => trivial) (fun _ _ => trivial) _

/-! ### Types -/

/-- The last type that is declared for a name. -/
def lastType (n : Text) (ss : List Sighting) : Option EntityType :=
  ((ss.filter (·.name == n)).filterMap type).getLast?

theorem lastType_append (n : Text) (ss ts : List Sighting) :
    lastType n (ss ++ ts) = (lastType n ts).or (lastType n ss) := by
  simp [lastType, List.filter_append, List.filterMap_append, List.getLast?_append]

theorem lastType_singleton (n : Text) (s : Sighting) :
    lastType n [s] = if s.name = n then s.type else none := by
  by_cases h : s.name = n
  · cases ht : s.type <;> simp [lastType, h, ht]
  · simp [lastType, h]

theorem lastType_of_not_mem {n : Text} {ss : List Sighting} (h : n ∉ ss.map name) : lastType n ss = none := by
  have hfilter : ss.filter (·.name == n) = [] := by
    rw [List.filter_eq_nil_iff]
    intro s hs hn
    exact h (List.mem_map.2 ⟨s, hs, eq_of_beq hn⟩)
  rw [lastType, hfilter]
  rfl

theorem lastType_of_mem {ss : List Sighting} (hss : (ss.map name).Nodup) {s : Sighting} (h : s ∈ ss) :
    lastType s.name ss = s.type := by
  obtain ⟨before, after, rfl⟩ := List.append_of_mem h
  rw [List.map_append, List.map_cons, List.nodup_middle, List.nodup_cons, List.mem_append, not_or] at hss
  rw [lastType_append, ← List.singleton_append, lastType_append, lastType_of_not_mem hss.1.1,
    lastType_of_not_mem hss.1.2, lastType_singleton, if_pos rfl, Option.none_or, Option.or_none]

/-- Once sightings are joined, each has the last type that is declared for its name. -/
theorem type_of_mem_upsertAll {ss : List Sighting} (hss : (ss.map name).Nodup) (ts : List Sighting) :
    ∀ s ∈ upsertAll name join ss ts, s.type = lastType s.name (ss ++ ts) := by
  induction ts using List.reverseRecOn with
  | nil =>
    intro s hs
    rw [List.append_nil, lastType_of_mem hss hs]
  | append_singleton ts t ih =>
    intro s hs
    have hnames : (upsertAll name join ss ts).map name = unite (ss.map name) (ts.map name) :=
      map_key_upsertAll join_name ss ts
    have hnodup : ((upsertAll name join ss ts).map name).Nodup := hnames ▸ nodup_unite hss _
    rw [upsertAll_concat] at hs
    rw [← List.append_assoc, lastType_append, lastType_singleton]
    -- `s` has another name than `t`, or `t` has joined it, or it is `t`
    rcases mem_upsert hnodup hs with ⟨hs, hne⟩ | ⟨u, hu, hname, rfl⟩ | ⟨hnew, rfl⟩
    · rw [if_neg (Ne.symm hne), Option.none_or, ih s hs]
    · rw [join_name, if_pos hname.symm, ← ih u hu]
      rfl
    · have hnot : s.name ∉ (ss ++ ts).map name := by
        rwa [hnames, mem_unite, ← List.mem_append, ← List.map_append] at hnew
      rw [if_pos rfl, lastType_of_not_mem hnot, Option.or_none]

theorem lastType_joined (n : Text) (ss : List Sighting) : lastType n (joined ss) = lastType n ss := by
  have hnil : (([] : List Sighting).map name).Nodup := List.nodup_nil
  by_cases h : n ∈ (joined ss).map name
  · obtain ⟨s, hs, rfl⟩ := List.mem_map.1 h
    rw [lastType_of_mem (nodup_joined ss) hs]
    exact type_of_mem_upsertAll hnil ss s hs
  · rw [lastType_of_not_mem h, lastType_of_not_mem (mt mem_names_joined.2 h)]

/-! ### What merging sees -/

/-- A sighting as merging sees it: a type that is declared as unresolved is none. -/
def weak (s : Sighting) : Sighting := { s with type := s.type.filter (· ≠ .unresolved) }

theorem entity_weak (s : Sighting) : s.weak.entity = s.entity := by
  rcases s with ⟨n, _ | t, as⟩
  · rfl
  · cases t <;> rfl

theorem entity_join_weak (s t : Sighting) : (s.join t.weak).entity = s.entity.retype t.entity := by
  rcases t with ⟨n, _ | t, as⟩
  · rfl
  · cases t <;> rfl

theorem map_name_weak (ss : List Sighting) : (ss.map weak).map name = ss.map name :=
  List.map_map

theorem lastType_weak {ss : List Sighting} (hss : (ss.map name).Nodup) (n : Text) :
    lastType n (ss.map weak) = (lastType n ss).filter (· ≠ .unresolved) := by
  by_cases h : n ∈ ss.map name
  · obtain ⟨s, hs, rfl⟩ := List.mem_map.1 h
    rw [lastType_of_mem hss hs]
    exact lastType_of_mem (map_name_weak ss ▸ hss) (List.mem_map_of_mem hs)
  · rw [lastType_of_not_mem h, lastType_of_not_mem (map_name_weak ss ▸ h)]
    rfl

/-- Retyping entities one after the other is joining the sightings as merging sees them. -/
theorem map_entity_upsertAll_weak (ss ts : List Sighting) :
    (upsertAll name join ss (ts.map weak)).map entity =
      upsertAll Entity.name Entity.retype (ss.map entity) (ts.map entity) := by
  rw [map_upsertAll entity entity_name]
  · rw [List.map_map, List.map_congr_left fun t _ => show (entity ∘ weak) t = t.entity from t.entity_weak]
  · intro s t ht _
    obtain ⟨u, -, rfl⟩ := List.mem_map.1 ht
    rw [entity_join_weak, entity_weak]

/-- What later sightings of a name leave as it is. -/
def core (s : Sighting) : Text × List Attribute := (s.name, s.attributes)

/-- The entity of a name and attributes, of the type that is declared for the name. -/
def typed (declared : Text → Option EntityType) (p : Text × List Attribute) : Entity :=
  ⟨p.1, (declared p.1).getD .unresolved, p.2⟩

/-- The entities of joined sightings, with their types told by name. -/
theorem map_entity_upsertAll {ss : List Sighting} (hss : (ss.map name).Nodup) (ts : List Sighting) :
    (upsertAll name join ss ts).map entity =
      (upsertAll Prod.fst (fun p _ => p) (ss.map core) (ts.map core)).map
        (typed fun n => (lastType n ts).or (lastType n ss)) := by
  have hcore : (upsertAll name join ss ts).map core =
      upsertAll Prod.fst (fun p _ => p) (ss.map core) (ts.map core) := by
    have hname : ∀ s : Sighting, s.core.1 = s.name := fun _ => rfl
    exact map_upsertAll core hname (fun _ _ _ _ => rfl) ss
  rw [← hcore, List.map_map]
  refine List.map_congr_left fun s hs => ?_
  have htype := type_of_mem_upsertAll hss ts s hs
  rw [lastType_append] at htype
  show (⟨s.name, s.type.getD .unresolved, s.attributes⟩ : Entity) = _
  rw [htype]
  rfl

/-- An entity as unresolved if that is what is declared of its name. -/
def retract (declared : Text → Option EntityType) (e : Entity) : Entity :=
  if declared e.name = some .unresolved then { e with type := .unresolved } else e

theorem retract_typed (declared before : Text → Option EntityType) (p : Text × List Attribute) :
    retract declared (typed (fun n => ((declared n).filter (· ≠ .unresolved)).or (before n)) p) =
      typed (fun n => (declared n).or (before n)) p := by
  unfold retract typed
  dsimp only
  cases h : declared p.1 with
  | none => rfl
  | some t => cases t <;> rfl

/-- Joining comes to what retyping comes to, but for the entities that are declared as unresolved in
the end. -/
theorem map_entity_upsertAll_eq_retype {ss ts : List Sighting} (hss : (ss.map name).Nodup)
    (hts : (ts.map name).Nodup) : (upsertAll name join ss ts).map entity =
      (upsertAll Entity.name Entity.retype (ss.map entity) (ts.map entity)).map
        (retract fun n => lastType n ts) := by
  have hcore : (ts.map weak).map core = ts.map core := List.map_map
  -- both sides have the same names and attributes, and types that are told by name
  rw [← map_entity_upsertAll_weak, map_entity_upsertAll hss, map_entity_upsertAll hss, hcore, List.map_map]
  refine List.map_congr_left fun p _ => ?_
  simp only [lastType_weak hts]
  exact (retract_typed _ _ p).symm

end Sighting

/-! ## What lines and chunks say -/

/-- The names that a line of a template mentions. -/
def Line.mentionedIn (line : Text) : List Text :=
  if Text.allBlank line then [] else mentions (collapseLinks line)

namespace Body

theorem entities_readLine (strict : Bool) (b : Body) (line : Text) :
    (b.readLine strict line).state.entities = (mentionedIn line).foldl addMention b.entities := by
  have hread := readLine_lineRead strict b line
  generalize b.readLine strict line = o at hread ⊢
  unfold mentionedIn
  cases hread with
  | blank hblank => rw [if_pos hblank]; rfl
  | undecorated hblank => rw [hblank, if_neg Bool.false_ne_true]; rfl
  | payload hp =>
    rw [(payload?_eq_some hp).1, if_neg Bool.false_ne_true]
    exact (readPayload_step strict _ _).1

/-- Lines that are read without failure make known what they mention. -/
theorem entities_readLines {strict : Bool} : ∀ (lines : List Text) {n : Nat} {b : Body},
    (readEach (readNumbered strict) n b lines).failure = none →
      (readEach (readNumbered strict) n b lines).state.entities =
        (lines.flatMap mentionedIn).foldl addMention b.entities
  | [], _, _, _ => rfl
  | line :: lines, n, b, hok => by
    obtain ⟨hline, hrest⟩ := (readEach_succeeds_cons ..).1 hok
    rw [readEach_cons_of_succeeds hline, List.flatMap_cons, List.foldl_append, ← entities_readLine strict]
    exact entities_readLines lines hrest

end Body

namespace Catalog

/-- The entity that a chunk defines. -/
def definition? (chunk : Text) : Option Entity :=
  match Chunk.kind? (Text.trim chunk), Text.lines (Text.trim chunk) with
  | some .entity, line :: _ => entityOf? line
  | _, _ => none

/-- The last definition of an entity of this name. -/
def lastDefinition? (chunks : List Text) (name : Text) : Option Entity :=
  findLast? (·.name == name) (chunks.filterMap definition?)

/-- The file that a chunk refers to. -/
def target? (chunk : Text) : Option Text :=
  match Chunk.kind? (Text.trim chunk), Text.lines (Text.trim chunk) with
  | some .reference, line :: _ => (fileReference? line).map Prod.snd
  | _, _ => none

/-- The sightings of a chunk: the mentions in the body of a template, or a definition. -/
def sightings (chunk : Text) : List Sighting :=
  match Chunk.kind? (Text.trim chunk), Text.lines (Text.trim chunk) with
  | some .template, _ :: body => (body.flatMap mentionedIn).map .mention
  | _, _ => (definition? chunk).toList.map .definition

variable {strict : Bool} {c : Catalog} {ss : List Sighting}

theorem foldl_addMention (names : List Text) (ss : List Sighting) :
    names.foldl Body.addMention (ss.map Sighting.entity) =
      (upsertAll Sighting.name Sighting.join ss (names.map Sighting.mention)).map Sighting.entity := by
  induction names generalizing ss with
  | nil => rfl
  | cons name names ih =>
    have hmention : (upsert Sighting.name Sighting.join ss (.mention name)).map Sighting.entity =
        Body.addMention (ss.map Sighting.entity) name :=
      map_upsert Sighting.entity rfl Sighting.entity_name (fun s _ => s.entity_join_mention name) rfl ss
    rw [List.foldl_cons, ← hmention, ih]
    rfl

/-- Defining an entity changes the type of the one of its name, or adds it. -/
theorem entities_defineEntity (hc : (c.entities.map Entity.name).Nodup) (e : Entity) :
    (c.defineEntity e).entities =
      upsert Entity.name (fun old new => { old with type := new.type }) c.entities e := by
  unfold defineEntity
  split
  · rename_i h
    have hmem : e.name ∈ c.entities.map Entity.name := by simpa using h
    rw [upsert_eq_changeLast hc hmem fun _ => beq_iff_eq]
  · rename_i h
    have hmem : e.name ∉ c.entities.map Entity.name := by simpa using h
    rw [upsert_of_not_mem hmem]

theorem entities_readTemplate {header : Text} {body : List Text}
    (hok : (c.readTemplate strict header body).failure = none) :
    (c.readTemplate strict header body).state.entities =
      (body.flatMap mentionedIn).foldl Body.addMention c.entities := by
  obtain ⟨-, hbody, -⟩ := (readTemplate_succeeds strict c body rfl).1 hok
  have hentities := Body.entities_readLines body hbody
  rw [readTemplate_state rfl hok]
  cases c.lastTemplate? (Text.trim (header.drop 1)) <;> exact hentities

theorem references_readTemplate {header : Text} {body : List Text}
    (hok : (c.readTemplate strict header body).failure = none) :
    (c.readTemplate strict header body).state.references = c.references := by
  rw [readTemplate_state rfl hok]
  cases c.lastTemplate? (Text.trim (header.drop 1)) <;> rfl

/-- A chunk that is read without failure joins its sightings to those before. -/
theorem entities_readChunk (hss : (ss.map Sighting.name).Nodup) (hc : c.entities = ss.map Sighting.entity)
    {chunk : Text} (hok : (c.readChunk strict chunk).failure = none) :
    (c.readChunk strict chunk).state.entities =
      (upsertAll Sighting.name Sighting.join ss (sightings chunk)).map Sighting.entity := by
  have hstep := readChunk_step hok
  generalize (c.readChunk strict chunk).state = c' at hstep ⊢
  unfold sightings definition?
  cases hstep with
  | template hkind hlines hok =>
    rw [hkind, hlines, entities_readTemplate hok, hc, foldl_addMention]
  | reference hkind =>
    rw [hkind]
    exact hc
  | entity hkind hlines hdef =>
    rename_i e _
    have hnodup : (c.entities.map Entity.name).Nodup := by rw [hc, List.map_map]; exact hss
    rw [hkind, hlines, entities_defineEntity hnodup, hc]
    dsimp only
    rw [hdef]
    symm
    exact map_upsert Sighting.entity rfl Sighting.entity_name (fun s _ => s.entity_join_definition e) rfl ss

theorem references_readChunk {chunk : Text} (hok : (c.readChunk strict chunk).failure = none) :
    (c.readChunk strict chunk).state.references = c.references ++ (target? chunk).toList := by
  have hstep := readChunk_step hok
  generalize (c.readChunk strict chunk).state = c' at hstep ⊢
  unfold target?
  cases hstep with
  | template hkind hlines hok =>
    rw [hkind, references_readTemplate hok]
    exact (List.append_nil _).symm
  | reference hkind hlines href =>
    rw [hkind, hlines]
    dsimp only
    rw [href]
    rfl
  | entity hkind =>
    rename_i e _
    rw [hkind]
    unfold defineEntity
    split <;> exact (List.append_nil _).symm

/-! ## Runs -/

variable {source : Option Text}

theorem entities_readEach : ∀ (chunks : List Text) {n : Nat} {c : Catalog} {ss : List Sighting},
    (ss.map Sighting.name).Nodup → c.entities = ss.map Sighting.entity →
    (readEach (readPlaced strict source) n c chunks).failure = none →
    (readEach (readPlaced strict source) n c chunks).state.entities =
      (upsertAll Sighting.name Sighting.join ss (chunks.flatMap sightings)).map Sighting.entity
  | [], _, _, _, _, hc, _ => hc
  | chunk :: chunks, n, c, ss, hss, hc, hok => by
    obtain ⟨hchunk, hrest⟩ := (readEach_succeeds_cons ..).1 hok
    have hfirst := entities_readChunk hss hc ((readPlaced_succeeds n c chunk).1 hchunk)
    have hnodup : ((upsertAll Sighting.name Sighting.join ss (sightings chunk)).map Sighting.name).Nodup := by
      rw [map_key_upsertAll Sighting.join_name]
      exact nodup_unite hss _
    rw [readEach_cons_of_succeeds hchunk, List.flatMap_cons, upsertAll_append]
    exact entities_readEach chunks hnodup hfirst hrest

theorem references_readEach : ∀ (chunks : List Text) {n : Nat} {c : Catalog},
    (readEach (readPlaced strict source) n c chunks).failure = none →
    (readEach (readPlaced strict source) n c chunks).state.references =
      c.references ++ chunks.filterMap target?
  | [], _, _, _ => (List.append_nil _).symm
  | chunk :: chunks, n, c, hok => by
    obtain ⟨hchunk, hrest⟩ := (readEach_succeeds_cons ..).1 hok
    have hfirst := references_readChunk ((readPlaced_succeeds n c chunk).1 hchunk)
    have hothers := references_readEach chunks hrest
    rw [readEach_cons_of_succeeds hchunk]
    refine hothers.trans ?_
    show (c.readChunk strict chunk).state.references ++ _ = _
    rw [hfirst, List.append_assoc, List.filterMap_cons]
    cases target? chunk <;> rfl

/-- The entities of chunks that are read without failure are what their sightings come to. -/
theorem entities_readChunks {chunks : List Text} (hok : (readChunks strict source {} chunks).failure = none) :
    (readChunks strict source {} chunks).state.entities =
      (Sighting.joined (chunks.flatMap sightings)).map Sighting.entity :=
  @entities_readEach _ _ chunks _ _ [] List.nodup_nil rfl hok

/-- The references of chunks that are read without failure are all that they refer to. -/
theorem references_readChunks {chunks : List Text}
    (hok : (readChunks strict source {} chunks).failure = none) :
    (readChunks strict source {} chunks).state.references = chunks.filterMap target? :=
  (references_readEach chunks hok).trans (List.nil_append _)

/-! ## Parts -/

theorem lastType_sightings (name : Text) (chunk : Text) :
    Sighting.lastType name (sightings chunk) =
      (findLast? (·.name == name) (definition? chunk).toList).map Entity.type := by
  have hdefined : ∀ e? : Option Entity, Sighting.lastType name
      (e?.toList.map Sighting.definition) =
        (findLast? (·.name == name) e?.toList).map Entity.type := by
    rintro (_ | e)
    · rfl
    · rw [Option.toList_some, List.map_singleton, Sighting.lastType_singleton]
      by_cases h : e.name = name <;> simp [findLast?, Sighting.definition, h]
  have hmentioned : ∀ names : List Text,
      Sighting.lastType name (names.map Sighting.mention) = none := by
    intro names
    simp [Sighting.lastType, Sighting.mention]
  unfold sightings
  split
  · rename_i hkind _
    rw [hmentioned, definition?, hkind]
    rfl
  · exact hdefined _

/-- The last type that chunks declare for a name is that of their last definition. -/
theorem lastType_flatMap_sightings (name : Text) (chunks : List Text) :
    Sighting.lastType name (chunks.flatMap sightings) = (lastDefinition? chunks name).map Entity.type := by
  unfold lastDefinition?
  induction chunks with
  | nil => rfl
  | cons chunk chunks ih =>
    have hcons : (chunk :: chunks).filterMap definition? =
        (definition? chunk).toList ++ chunks.filterMap definition? := by
      rw [List.filterMap_cons]
      cases definition? chunk <;> rfl
    rw [List.flatMap_cons, Sighting.lastType_append, ih, lastType_sightings, hcons, findLast?_append,
      Option.map_or]

variable {chunks₁ chunks₂ : List Text}

/-- Chunks that are read in one go and the merge of their parts agree on the names, the order and
the attributes of entities, and on their types but for the entities whose last definition in the
second part says unresolved. Reading in one go lists the references of both parts one after the
other, and merging leaves out those of the second part that are listed already. -/
theorem readChunks_append_eq_merge (h₁ : (readChunks strict source {} chunks₁).failure = none)
    (h₂ : (readChunks strict source {} chunks₂).failure = none) :
    let whole := (readChunks strict source {} (chunks₁ ++ chunks₂)).state
    let first := (readChunks strict source {} chunks₁).state
    let second := (readChunks strict source {} chunks₂).state
    whole.entities = (first.merge second).entities.map (fun e =>
        if (lastDefinition? chunks₂ e.name).map Entity.type = some .unresolved then
          { e with type := .unresolved }
        else e) ∧
      whole.references = first.references ++ second.references ∧
      (first.merge second).references =
        first.references ++ news first.references second.references := by
  intro whole first second
  have hsucceeds := readChunks_append_succeeds h₁ h₂
  refine ⟨?_, ?_, unite_eq_append_news _ _⟩
  · have hentities := Sighting.map_entity_upsertAll_eq_retype
      (Sighting.nodup_joined (chunks₁.flatMap sightings)) (Sighting.nodup_joined (chunks₂.flatMap sightings))
    simp only [Sighting.lastType_joined, lastType_flatMap_sightings] at hentities
    show (readChunks strict source {} (chunks₁ ++ chunks₂)).state.entities =
      (upsertAll Entity.name Entity.retype first.entities second.entities).map
        (Sighting.retract fun n => (lastDefinition? chunks₂ n).map Entity.type)
    rw [entities_readChunks hsucceeds, entities_readChunks h₁, entities_readChunks h₂, List.flatMap_append,
      Sighting.joined_append, hentities]
  · show (readChunks strict source {} (chunks₁ ++ chunks₂)).state.references = _
    rw [references_readChunks hsucceeds, references_readChunks h₁, references_readChunks h₂,
      List.filterMap_append]

/-- An entity is taken back, another one declared, and a file is referred to in both parts and twice
in the second one. -/
theorem readChunks_append_eq_merge_retracted :
    let chunks₁ := ["$ x : int lo = 1", "# t\n- {y}\n- {z}", "[a](one)"].map String.toList
    let chunks₂ := ["$ x : unresolved hi = 2", "# t\n- {z} {w}", "$ y : bool", "[b](two)", "[c](one)",
      "[d](two)"].map String.toList
    let whole := (readChunks true none {} (chunks₁ ++ chunks₂)).state
    let first := (readChunks true none {} chunks₁).state
    let second := (readChunks true none {} chunks₂).state
    ((readChunks true none {} chunks₁).failure = none ∧ (readChunks true none {} chunks₂).failure = none) ∧
      whole.entities = (first.merge second).entities.map (fun e =>
        if (lastDefinition? chunks₂ e.name).map Entity.type = some .unresolved then
          { e with type := .unresolved }
        else e) ∧
      whole.entities = [⟨"x".toList, .unresolved, [⟨"lo".toList, some "1".toList⟩]⟩,
        ⟨"y".toList, .bool, []⟩, ⟨"z".toList, .unresolved, []⟩, ⟨"w".toList, .unresolved, []⟩] ∧
      whole.references = ["one", "two", "one", "two"].map String.toList ∧
      (first.merge second).references = ["one", "two"].map String.toList := by
  intro chunks₁ chunks₂ whole first second
  have h₁ : (readChunks true none {} chunks₁).failure = none := by decide +kernel
  have h₂ : (readChunks true none {} chunks₂).failure = none := by decide +kernel
  obtain ⟨hentities, hwhole, hmerged⟩ := readChunks_append_eq_merge h₁ h₂
  refine ⟨⟨h₁, h₂⟩, hentities, hentities.trans ?_, hwhole.trans ?_, hmerged.trans ?_⟩ <;> decide +kernel

/-- A definition as unresolved and a reference that is met again tell reading in one go from merging. -/
theorem readChunks_append_ne_merge :
    let chunks₁ := ["$ x : int", "[a](one)"].map String.toList
    let chunks₂ := ["$ x : unresolved", "[a](one)"].map String.toList
    let whole := readChunks true none {} (chunks₁ ++ chunks₂)
    let first := readChunks true none {} chunks₁
    let second := readChunks true none {} chunks₂
    (first.failure = none ∧ second.failure = none ∧ whole.failure = none) ∧
      whole.state.entities ≠ (first.state.merge second.state).entities ∧
      whole.state.references ≠ (first.state.merge second.state).references := by
  decide +kernel

end Catalog

end LangGen
