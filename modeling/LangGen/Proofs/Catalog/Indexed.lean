/-
Reading with indexes is reading without them. What an index has is what a new index of the list
would have, whatever has been read and wherever reading has stopped, so every step of the one
reading is the step of the other with the indexes built anew (`readChunk_of`). Nothing therefore
depends on how long indexes have been kept, and chunks may be read in one go or in parts.
-/
import LangGen.Catalog.Indexed
import LangGen.Proofs.Catalog.Place

namespace LangGen

/-! ## Runs -/

/-- Two readings that agree on each input, up to the way the state is seen, agree on runs. -/
theorem readEach_map {σ τ α : Type} {read : Nat → σ → α → Outcome σ} {read' : Nat → τ → α → Outcome τ}
    {f : σ → τ} (h : ∀ n s x, read' n (f s) x = (read n s x).map f) :
    ∀ (xs : List α) (n : Nat) (s : σ), readEach read' n (f s) xs = (readEach read n s xs).map f
  | [], _, _ => rfl
  | x :: xs, n, s => by
    rw [readEach_cons, readEach_cons, h]
    cases hf : (read n s x).failure with
    | none =>
      simp only [Outcome.map, hf]
      exact readEach_map h xs (n + 1) _
    | some e => simp only [Outcome.map, hf]

theorem Outcome.map_within {σ τ : Type} (f : σ → τ) (o : Outcome σ) (p : Place) :
    (o.map f).within p = (o.within p).map f := rfl

/-- Inputs in two parts are read as the first part, if it fails, and else as the second part behind it. -/
theorem readEach_append {σ α : Type} {read : Nat → σ → α → Outcome σ} :
    ∀ (xs : List α) (n : Nat) (s : σ) (ys : List α),
      readEach read n s (xs ++ ys) =
        match (readEach read n s xs).failure with
        | none => readEach read (n + xs.length) (readEach read n s xs).state ys
        | some _ => readEach read n s xs
  | [], _, _, _ => rfl
  | x :: xs, n, s, ys => by
    rw [List.cons_append, readEach_cons, readEach_cons]
    cases hf : (read n s x).failure with
    | none =>
      dsimp only
      rw [readEach_append xs, List.length_cons, Nat.add_assoc, Nat.add_comm 1]
    | some e => rw [hf]

/-- Numbers that are `m` higher change a run in its failure only, when they change each reading so. -/
theorem readEach_add {σ α : Type} {read : Nat → σ → α → Outcome σ} {m : Nat} {later : Failure → Failure}
    (h : ∀ n s x, read (n + m) s x = ⟨(read n s x).state, (read n s x).failure.map later⟩) :
    ∀ (xs : List α) (n : Nat) (s : σ),
      readEach read (n + m) s xs = ⟨(readEach read n s xs).state, (readEach read n s xs).failure.map later⟩
  | [], _, _ => rfl
  | x :: xs, n, s => by
    rw [readEach_cons, readEach_cons, h]
    cases hf : (read n s x).failure with
    | none =>
      dsimp only [Option.map_none]
      rw [Nat.add_right_comm]
      exact readEach_add h xs (n + 1) _
    | some f => simp only [Option.map_some, hf]

/-- A failure whose chunk is behind `m` further ones. -/
def Failure.behind (m : Nat) (f : Failure) : Failure :=
  { f with place := f.place.map fun p => { p with chunk := p.chunk.map (· + m) } }

theorem Failure.Inner.within_behind {f : Failure} (h : f.Inner) (source : Option Text) (n m : Nat) :
    f.within { file := source, chunk := some ((n + m : Nat) : Int) } =
      (f.within { file := source, chunk := some (n : Int) }).behind m := by
  rcases f with ⟨fault, _ | p⟩
  · simp [Failure.within, Failure.behind]
  · have hp : p.chunk = none := h.chunk
    simp [Failure.within, Failure.behind, Place.orElse, hp]

namespace Indexed

/-! ## Indexes -/

namespace Index

theorem ofNames_concat (names : List Text) (name : Text) :
    ofNames (names ++ [name]) = (name, names.length) :: ofNames names := by
  simp [ofNames, List.zipIdx_append]

theorem place?_cons (n name : Text) (i : Nat) (ix : Index) :
    place? ((n, i) :: ix) name = if name = n then some i else place? ix name := by
  unfold place?
  rw [List.lookup_cons]
  by_cases h : name = n
  · simp [h]
  · rw [if_neg h, beq_false_of_ne h]

theorem place?_eq_none {names : List Text} {name : Text} :
    (ofNames names).place? name = none ↔ name ∉ names := by
  induction names using List.reverseRecOn with
  | nil => simp [ofNames, place?]
  | append_singleton names n ih =>
    rw [ofNames_concat, place?_cons]
    by_cases h : name = n <;> simp [h, ih]

theorem mem_of_place? {names : List Text} {name : Text} {i : Nat}
    (h : (ofNames names).place? name = some i) : name ∈ names := by
  by_contra hnot
  rw [place?_eq_none.2 hnot] at h
  cases h

theorem place?_lt {names : List Text} {name : Text} {i : Nat}
    (h : (ofNames names).place? name = some i) : i < names.length := by
  induction names using List.reverseRecOn with
  | nil => simp [ofNames, place?] at h
  | append_singleton names n ih =>
    rw [ofNames_concat, place?_cons] at h
    rw [List.length_append, List.length_singleton]
    split at h
    · cases h; omega
    · have := ih h; omega

end Index

section Members

variable {α : Type} {name : α → Text} {n : Text} {i : Nat}

theorem Rows.of_concat (xs : List α) (x : α) :
    Rows.of name (xs ++ [x]) = (Rows.of name xs).add (name x) x := by
  simp [Rows.of, Rows.add, Index.ofNames_concat]

@[simp] theorem Rows.of_index (xs : List α) : (Rows.of name xs).index = .ofNames (xs.map name) := rfl

/-- The place in the index is the place of the last member of the name. -/
theorem findLast?_eq_getElem? {xs : List α}
    (h : (Index.ofNames (xs.map name)).place? n = some i) :
    findLast? (name · == n) xs = xs[i]? := by
  induction xs using List.reverseRecOn with
  | nil => simp [Index.ofNames, Index.place?] at h
  | append_singleton xs x ih =>
    rw [List.map_append, List.map_singleton, Index.ofNames_concat, Index.place?_cons, List.length_map] at h
    split at h
    · rename_i hx
      cases h
      rw [findLast?_concat (by simp [hx])]
      simp
    · rename_i hx
      have hi : i < xs.length := by simpa using Index.place?_lt h
      rw [findLast?_append, ih h, List.getElem?_append_left hi]
      simp [findLast?, Ne.symm hx]

theorem exists_place_of_findLast? {xs : List α} {x : α} (h : findLast? (name · == n) xs = some x) :
    ∃ i, (Index.ofNames (xs.map name)).place? n = some i ∧ xs[i]? = some x := by
  cases hplace : (Index.ofNames (xs.map name)).place? n with
  | some i => exact ⟨i, rfl, (findLast?_eq_getElem? hplace).symm.trans h⟩
  | none =>
    obtain ⟨hmem, hn⟩ := findLast?_eq_some h
    exact absurd (List.mem_map.2 ⟨x, hmem, eq_of_beq hn⟩) (Index.place?_eq_none.1 hplace)

theorem modify_append_of_lt {f : α → α} (ys : List α) :
    ∀ {xs : List α} {i : Nat}, i < xs.length → (xs ++ ys).modify i f = xs.modify i f ++ ys
  | [], _, h => absurd h (Nat.not_lt_zero _)
  | x :: xs, 0, _ => rfl
  | x :: xs, i + 1, h => by
    rw [List.cons_append, List.modify_succ_cons, List.modify_succ_cons,
      modify_append_of_lt ys (Nat.lt_of_succ_lt_succ h), List.cons_append]

theorem modify_concat_length (f : α → α) (x : α) :
    ∀ xs : List α, (xs ++ [x]).modify xs.length f = xs ++ [f x]
  | [] => rfl
  | y :: ys => by
    rw [List.cons_append, List.length_cons, List.modify_succ_cons, modify_concat_length f x ys]
    rfl

theorem changeLast_concat_of_not {p : α → Bool} {f : α → α} {xs : List α} {x : α} (h : p x = false) :
    changeLast p f (xs ++ [x]) = changeLast p f xs ++ [x] := by
  induction xs with
  | nil => simp [changeLast, h]
  | cons y ys ih =>
    rw [List.cons_append, changeLast, changeLast, ih]
    simp only [List.any_append, List.any_cons, List.any_nil, h, Bool.or_false]
    split <;> rfl

/-- Changing the last member of a name is changing the one at its place in the index. -/
theorem changeLast_eq_modify {f : α → α} {xs : List α}
    (h : (Index.ofNames (xs.map name)).place? n = some i) :
    changeLast (name · == n) f xs = xs.modify i f := by
  induction xs using List.reverseRecOn with
  | nil => simp [Index.ofNames, Index.place?] at h
  | append_singleton xs x ih =>
    rw [List.map_append, List.map_singleton, Index.ofNames_concat, Index.place?_cons, List.length_map] at h
    split at h
    · rename_i hx
      cases h
      rw [changeLast_concat (by simp [hx]), modify_concat_length]
    · rename_i hx
      have hi : i < xs.length := by simpa using Index.place?_lt h
      rw [changeLast_concat_of_not (by simp [Ne.symm hx]), ih h, modify_append_of_lt _ hi]

end Members

/-! ## Drafts -/

/-- Where variations go in a template whose branches have these conditions. Another condition stands
for a place behind the last branch. -/
def Target.of (conditions : List Text) : LangGen.Target → Target
  | .template => .template
  | .branch condition => .branch (((Index.ofNames conditions).place? condition).getD conditions.length)
  | .fresh b => .fresh b

namespace Draft

/-- A draft with a new index, in which a branch that is still to join has its later place. -/
def of (d : LangGen.Draft) : Draft where
  template := d.template
  conditions := .ofNames (d.settle.template.branches.map Branch.condition)
  target := .of (d.template.branches.map Branch.condition) d.target

theorem of_settle (d : LangGen.Draft) : of d.settle = (of d).settle := by
  rcases d with ⟨t, _ | condition | b⟩
  · rfl
  · rfl
  · simp [of, settle, LangGen.Draft.settle, Target.of, Index.ofNames_concat, Index.place?_cons]

theorem of_openBranch (d : LangGen.Draft) (condition : Text) (needs : Bool) :
    (of d).openBranch condition needs =
      ((of (d.openBranch condition needs).1), (d.openBranch condition needs).2) := by
  unfold openBranch LangGen.Draft.openBranch
  dsimp only
  rw [← of_settle]
  -- a settled draft has no branch outside of its template
  have hsettled : (of d.settle).conditions =
      .ofNames (d.settle.template.branches.map Branch.condition) := by
    rcases d with ⟨t, _ | c | b⟩ <;> rfl
  generalize d.settle = d at hsettled
  rw [hsettled]
  cases hplace : (Index.ofNames (d.template.branches.map Branch.condition)).place? condition with
  | some place =>
    have hmem := Index.mem_of_place? hplace
    have hany : d.template.branches.any (·.condition == condition) = true := by
      simpa [List.any_eq_true] using hmem
    rw [if_pos hany]
    simp [of, LangGen.Draft.settle, Target.of, hplace]
  | none =>
    have hany : ¬ d.template.branches.any (·.condition == condition) = true := by
      simpa [List.any_eq_true] using Index.place?_eq_none.1 hplace
    rw [if_neg hany]
    cases Condition.check condition needs with
    | error p => rfl
    | ok u => simp [of, LangGen.Draft.settle, Target.of, Index.ofNames_concat]

theorem of_addVariation (d : LangGen.Draft) (v : Text) :
    of (d.addVariation v) = (of d).addVariation v := by
  rcases d with ⟨t, _ | condition | b⟩
  · rfl
  · have hconditions : ∀ b : Branch, (b.condition == condition) = true →
        (b.addVariation v).condition = b.condition := fun _ _ => rfl
    have hchange : changeLast (·.condition == condition) (·.addVariation v) t.branches =
        t.branches.modify (((Index.ofNames (t.branches.map Branch.condition)).place? condition).getD
          (t.branches.map Branch.condition).length) (·.addVariation v) := by
      cases hplace : (Index.ofNames (t.branches.map Branch.condition)).place? condition with
      | some place => exact changeLast_eq_modify hplace
      | none =>
        have hnot := Index.place?_eq_none.1 hplace
        rw [Option.getD_none, List.length_map, List.modify_eq_self (Nat.le_refl _),
          changeLast_of_forall_not]
        intro b hb
        rw [beq_eq_false_iff_ne]
        rintro rfl
        exact hnot (List.mem_map_of_mem hb)
    simp only [of, LangGen.Draft.addVariation, LangGen.Draft.settle, Target.of,
      map_key_changeLast hconditions, addVariation]
    rw [hchange]
  · simp [of, LangGen.Draft.addVariation, LangGen.Draft.settle, Target.of, addVariation, Branch.addVariation]

end Draft

/-! ## Lines -/

namespace Body

/-- The entities and the draft with new indexes. -/
def of (b : LangGen.Body) : Body := ⟨.of Entity.name b.entities, .of b.draft⟩

theorem of_addMention (es : List Entity) (name : Text) :
    Rows.of Entity.name (LangGen.Body.addMention es name) = addMention (.of Entity.name es) name := by
  unfold addMention LangGen.Body.addMention
  rw [Rows.of_index]
  cases hplace : (Index.ofNames (es.map Entity.name)).place? name with
  | some place =>
    have hmem : name ∈ es.map Entity.name := Index.mem_of_place? hplace
    rw [upsert_of_absorbed hmem fun _ _ _ => rfl]
  | none =>
    have hnot : name ∉ es.map Entity.name := Index.place?_eq_none.1 hplace
    rw [upsert_of_not_mem hnot, Rows.of_concat]

theorem of_foldl_addMention (es : List Entity) (names : List Text) :
    Rows.of Entity.name (names.foldl LangGen.Body.addMention es) =
      names.foldl addMention (.of Entity.name es) := by
  induction names generalizing es with
  | nil => rfl
  | cons name names ih => rw [List.foldl_cons, List.foldl_cons, ih, of_addMention]

theorem of_openBranch (b : LangGen.Body) (condition : Text) (needs : Bool) :
    (of b).openBranch condition needs = (b.openBranch condition needs).map of := by
  unfold openBranch LangGen.Body.openBranch
  rw [show (of b).draft = .of b.draft from rfl, Draft.of_openBranch]
  rcases b.draft.openBranch condition needs with ⟨d, _ | p⟩ <;> rfl

theorem of_addVariation (strict : Bool) (b : LangGen.Body) (v : Text) :
    (of b).addVariation strict v = (b.addVariation strict v).map of := by
  unfold addVariation LangGen.Body.addVariation
  rw [show (of b).draft = .of b.draft from rfl, ← Draft.of_addVariation]
  rcases Variation.check strict v with p | _ | _ <;> rfl

theorem of_readPayload (strict : Bool) (b : LangGen.Body) (p : Line.Payload) :
    (of b).readPayload strict p = (b.readPayload strict p).map of := by
  cases p with
  | condition text => exact of_openBranch b text true
  | default text => exact of_openBranch b text false
  | variation text => exact of_addVariation strict b text

theorem of_readLine (strict : Bool) (b : LangGen.Body) (line : Text) :
    (of b).readLine strict line = (b.readLine strict line).map of := by
  unfold readLine LangGen.Body.readLine
  split
  · rfl
  · dsimp only
    rw [show (of b).entities = .of Entity.name b.entities from rfl, ← of_foldl_addMention]
    cases Line.item? (Line.collapseLinks line) with
    | none => rfl
    | some item => exact of_readPayload strict { b with entities := _ } (.ofText item.2)

/-- Lines that are read into a template with a new index are read as without it. -/
theorem of_readLines (strict : Bool) (es : List Entity) (t : Template) (lines : List Text) :
    readEach (readNumbered strict) 2 ⟨.of Entity.name es, .start t⟩ lines =
      (readEach (LangGen.Body.readNumbered strict) 2 ⟨es, ⟨t, .template⟩⟩ lines).map of := by
  refine readEach_map (f := of) (fun n b line => ?_) lines 2 ⟨es, ⟨t, .template⟩⟩
  unfold readNumbered LangGen.Body.readNumbered
  rw [of_readLine, Outcome.map_within]

end Body

/-! ## Chunks -/

namespace Catalog

variable (strict : Bool) (c : LangGen.Catalog)

theorem of_putTemplate {t t' : Template} {place : Nat} (hname : t'.name = t.name)
    (hplace : (of c).templates.index.place? t.name = some place) :
    (of c).putTemplate place t' = of (c.putTemplate t') := by
  have hkey : ∀ u : Template, (u.name == t.name) = true → t'.name = u.name := fun u hu => by
    rw [hname, eq_of_beq hu]
  simp only [of, putTemplate, Rows.change, LangGen.Catalog.putTemplate, Rows.of, hname,
    map_key_changeLast hkey]
  rw [changeLast_eq_modify hplace]

theorem of_extendTemplate {t : Template} {place : Nat}
    (hplace : (of c).templates.index.place? t.name = some place) (body : List Text) :
    (of c).extendTemplate strict place t body = (c.extendTemplate strict t body).map of := by
  have hname := LangGen.Body.after_name strict ⟨c.entities, ⟨t, .template⟩⟩ body
  unfold LangGen.Body.after at hname
  unfold extendTemplate LangGen.Catalog.extendTemplate
  rw [show (of c).entities = .of Entity.name c.entities from rfl, Body.of_readLines]
  generalize readEach (LangGen.Body.readNumbered strict) 2 ⟨c.entities, ⟨t, .template⟩⟩ body = o at hname
  obtain ⟨b, _ | f⟩ := o
  · have hput := of_putTemplate { c with entities := b.entities }
      ((LangGen.Draft.settle_name b.draft).trans hname) hplace
    dsimp only [Outcome.map, Body.of]
    rw [← Draft.of_settle]
    exact congrArg (Outcome.mk · _) hput
  · have hput := of_putTemplate { c with entities := b.entities } hname hplace
    exact congrArg (Outcome.mk · _) hput

theorem of_newTemplate (name : Text) (body : List Text) :
    (of c).newTemplate strict name body = (c.newTemplate strict name body).map of := by
  unfold newTemplate LangGen.Catalog.newTemplate
  rw [show (of c).entities = .of Entity.name c.entities from rfl, Body.of_readLines]
  generalize readEach (LangGen.Body.readNumbered strict) 2 ⟨c.entities, ⟨{ name := name }, .template⟩⟩ body = o
  obtain ⟨b, _ | f⟩ := o
  · dsimp only [Outcome.map, Body.of]
    rw [← Draft.of_settle]
    simp only [of, Rows.of_concat]
    rfl
  · rfl

theorem of_readTemplate (header : Text) (body : List Text) :
    (of c).readTemplate strict header body = (c.readTemplate strict header body).map of := by
  unfold readTemplate LangGen.Catalog.readTemplate
  dsimp only
  split
  · rfl
  · cases hlast : c.lastTemplate? (Text.trim (header.drop 1)) with
    | some t =>
      obtain ⟨place, hplace, hget⟩ := exists_place_of_findLast? hlast
      have hname := (LangGen.Catalog.lastTemplate?_eq_some hlast).2
      rw [show (of c).templates = .of Template.name c.templates from rfl, Rows.of_index, hplace]
      simp only [Option.bind_some]
      rw [show (Rows.of Template.name c.templates).members[place]? = some t from hget]
      exact of_extendTemplate strict c (by rw [hname]; exact hplace) body
    | none =>
      have hplace : (Index.ofNames (c.templates.map Template.name)).place? (Text.trim (header.drop 1)) = none :=
        Index.place?_eq_none.2 (LangGen.Catalog.lastTemplate?_eq_none hlast)
      rw [show (of c).templates = .of Template.name c.templates from rfl, Rows.of_index, hplace]
      exact of_newTemplate strict c _ body

theorem of_defineEntity (e : Entity) : (of c).defineEntity e = of (c.defineEntity e) := by
  unfold defineEntity LangGen.Catalog.defineEntity
  rw [show (of c).entities = .of Entity.name c.entities from rfl, Rows.of_index]
  cases hplace : (Index.ofNames (c.entities.map Entity.name)).place? e.name with
  | some place =>
    have hany : c.entities.any (·.name == e.name) = true := by
      simpa [List.any_eq_true] using Index.mem_of_place? hplace
    have hkey : ∀ old : Entity, (old.name == e.name) = true →
        ({ old with type := e.type } : Entity).name = old.name := fun _ _ => rfl
    have hnames := map_key_changeLast hkey c.entities
    rw [changeLast_eq_modify hplace] at hnames
    rw [if_pos hany, changeLast_eq_modify hplace]
    simp only [of, Rows.of, Rows.change, hnames]
  | none =>
    have hany : ¬ c.entities.any (·.name == e.name) = true := by
      simpa [List.any_eq_true] using Index.place?_eq_none.1 hplace
    rw [if_neg hany]
    simp only [of, Rows.of_concat]

theorem of_readReference (line : Text) : (of c).readReference line = (c.readReference line).map of := by
  unfold readReference LangGen.Catalog.readReference
  rcases Line.fileReference? line with _ | ⟨label, _ | ⟨ch, target⟩⟩ <;> rfl

theorem of_readEntity (line : Text) : (of c).readEntity line = (c.readEntity line).map of := by
  unfold readEntity LangGen.Catalog.readEntity
  cases LangGen.Catalog.entityOf? line with
  | none => rfl
  | some e => exact congrArg (Outcome.mk · none) (of_defineEntity c e)

/-- A chunk that is read with indexes leaves the indexes that would be built anew, failed or not. -/
theorem readChunk_of (chunk : Text) :
    (of c).readChunk strict chunk = (c.readChunk strict chunk).map of := by
  unfold readChunk LangGen.Catalog.readChunk
  dsimp only
  rcases Chunk.classify (Text.trim chunk) with f | kind
  · rfl
  rcases Text.lines (Text.trim chunk) with _ | ⟨line, body⟩
  · cases kind <;> rfl
  cases kind with
  | template => exact of_readTemplate strict c line body
  | reference => exact of_readReference c line
  | entity => exact of_readEntity c line

end Catalog

/-! ## Runs -/

/-- Reading with indexes is reading without them. -/
theorem readChunks_eq (strict : Bool) (source : Option Text) (c : LangGen.Catalog) (chunks : List Text) :
    readChunks strict source c chunks = LangGen.Catalog.readChunks strict source c chunks := by
  unfold readChunks LangGen.Catalog.readChunks
  rw [readEach_map (f := Catalog.of) fun n c chunk => by rw [Catalog.readChunk_of, Outcome.map_within]]
  rfl

/-- Reading in parts: chunks that are read behind others, with indexes built anew in between, are
read as in one go. If the first part fails, the second is not looked at; a failure of the second
tells the place of its chunk among all of them. -/
theorem readChunks_incremental (strict : Bool) (source : Option Text) (base : LangGen.Catalog)
    (chunks₁ chunks₂ : List Text) :
    let first := readChunks strict source base chunks₁
    let second := readChunks strict source first.state chunks₂
    let whole := readChunks strict source base (chunks₁ ++ chunks₂)
    (first.failure ≠ none → whole = first) ∧
      (first.failure = none → whole.state = second.state ∧
        whole.failure = second.failure.map (Failure.behind chunks₁.length)) ∧
      (∀ f, second.failure = some f →
        ∃ k < chunks₂.length, f.chunk? = some (k : Int)) ∧
      whole = LangGen.Catalog.readChunks strict source base (chunks₁ ++ chunks₂) := by
  intro first second whole
  have hwhole : whole = LangGen.Catalog.readChunks strict source base (chunks₁ ++ chunks₂) :=
    readChunks_eq ..
  have hfirst : first = LangGen.Catalog.readChunks strict source base chunks₁ := readChunks_eq ..
  have hsecond : second = LangGen.Catalog.readChunks strict source first.state chunks₂ := readChunks_eq ..
  unfold LangGen.Catalog.readChunks at hwhole hfirst hsecond
  have hcut := @readEach_append _ _ (fun n c chunk =>
    (LangGen.Catalog.readChunk strict c chunk).within { file := source, chunk := some n })
    chunks₁ 0 base chunks₂
  rw [← hwhole, ← hfirst] at hcut
  refine ⟨fun hfail => ?_, fun hfail => ?_, fun f hf => ?_, readChunks_eq ..⟩
  · obtain ⟨f, hf⟩ := Option.ne_none_iff_exists'.1 hfail
    rw [hcut, hf]
  · rw [hcut, hfail, @readEach_add _ _ _ _ (Failure.behind chunks₁.length), ← hsecond]
    · exact ⟨rfl, rfl⟩
    · intro n c chunk
      unfold Outcome.within
      cases hf : (LangGen.Catalog.readChunk strict c chunk).failure with
      | none => rfl
      | some f =>
        have hinner := LangGen.Catalog.readChunk_failure_inner hf
        simp only [Option.map_some, hinner.within_behind]
  · rw [hsecond] at hf
    obtain ⟨k, hk, c, chunk, hf⟩ := readEach_failure chunks₂ 0 first.state hf
    obtain ⟨f', hf', rfl⟩ := Option.map_eq_some_iff.1 hf
    rw [Nat.zero_add]
    refine ⟨k, hk, ?_⟩
    rw [Failure.chunk?_within, (LangGen.Catalog.readChunk_failure_inner hf').chunk]
    rfl

end Indexed

end LangGen
