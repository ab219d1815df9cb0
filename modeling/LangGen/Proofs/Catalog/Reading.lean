/-
What reading can make of its state, said once for each level. A run of readings keeps whatever a
single one keeps, failed or not; a line takes the draft one step that its payload determines; and a
chunk has one of the few effects of `Catalog.Effect`. Invariants of whole runs follow from these
three without looking into the reader again.
-/
import LangGen.Catalog.Reading
import LangGen.Proofs.Keyed

namespace LangGen

/-! ## Runs -/

section Runs

variable {σ α : Type} {read : Nat → σ → α → Outcome σ}

theorem readEach_cons (n : Nat) (s : σ) (x : α) (xs : List α) :
    readEach read n s (x :: xs) =
      match (read n s x).failure with
      | none => readEach read (n + 1) (read n s x).state xs
      | some _ => read n s x := by
  rw [readEach]
  rcases read n s x with ⟨s', _ | f⟩ <;> rfl

theorem readEach_succeeds_cons (n : Nat) (s : σ) (x : α) (xs : List α) :
    (readEach read n s (x :: xs)).failure = none ↔
      (read n s x).failure = none ∧ (readEach read (n + 1) (read n s x).state xs).failure = none := by
  rw [readEach_cons]
  cases h : (read n s x).failure <;> simp [h]

theorem readEach_cons_of_succeeds {n : Nat} {s : σ} {x : α} (h : (read n s x).failure = none)
    (xs : List α) : readEach read n s (x :: xs) = readEach read (n + 1) (read n s x).state xs := by
  rw [readEach_cons, h]

/-- Inputs in two parts are read one part after the other, unless the first one fails. -/
theorem readEach_append_of_succeeds : ∀ (xs : List α) {n : Nat} {s : σ} (ys : List α),
    (readEach read n s xs).failure = none →
      readEach read n s (xs ++ ys) = readEach read (n + xs.length) (readEach read n s xs).state ys
  | [], _, _, _, _ => rfl
  | x :: xs, n, s, ys, h => by
    obtain ⟨hx, hxs⟩ := (readEach_succeeds_cons ..).1 h
    rw [List.cons_append, readEach_cons_of_succeeds hx, readEach_cons_of_succeeds hx,
      readEach_append_of_succeeds xs ys hxs, List.length_cons, Nat.add_assoc, Nat.add_comm 1]

/-- What every reading keeps, a run keeps, up to the point where it ends. -/
theorem readEach_keeps {P : σ → Prop} (hread : ∀ n s x, P s → P (read n s x).state) :
    ∀ (xs : List α) (n : Nat) (s : σ), P s → P (readEach read n s xs).state
  | [], _, _, h => h
  | x :: xs, n, s, h => by
    rw [readEach_cons]
    split
    · exact readEach_keeps hread xs (n + 1) _ (hread n s x h)
    · exact hread n s x h

end Runs

@[simp] theorem Outcome.within_failure_eq_none {σ : Type} (o : Outcome σ) (p : Place) :
    (o.within p).failure = none ↔ o.failure = none := by
  simp [Outcome.within]

/-! ## Payloads -/

namespace Line

/-- The payload of a line of a template: links are collapsed, the mark is taken off and what follows
is trimmed. A blank line has none. -/
def payload? (line : Text) : Option Payload :=
  if Text.allBlank line then none
  else (item? (collapseLinks line)).map fun p => .ofText p.2

/-- The branch that a payload opens, and whether it needs an expression. -/
def Payload.branch? : Payload → Option (Text × Bool)
  | .condition text => some (text, true)
  | .default text => some (text, false)
  | .variation _ => none

theorem payload?_eq_some {line : Text} {p : Payload} (h : payload? line = some p) :
    Text.allBlank line = false ∧
      ∃ mark payload, item? (collapseLinks line) = some (mark, payload) ∧ Payload.ofText payload = p := by
  unfold payload? at h
  split at h
  · cases h
  · rename_i hblank
    obtain ⟨⟨mark, payload⟩, hitem, hp⟩ := Option.map_eq_some_iff.1 h
    exact ⟨by simpa using hblank, mark, payload, hitem, hp⟩

end Line

open Line

/-! ## Drafts -/

namespace Draft

/-- What a payload can make of a draft. -/
inductive Step (d : Draft) : Payload → Draft → Prop
  /-- A variation that is not well delimited changes nothing. -/
  | ignored {v : Text} : Step d (.variation v) d
  | added {v : Text} (hv : Variation.problem? v = none) : Step d (.variation v) (d.addVariation v)
  | reopened {p : Payload} {condition : Text} {needs : Bool} (hp : p.branch? = some (condition, needs))
      (hc : condition ∈ d.settle.template.branches.map Branch.condition) :
      Step d p ⟨d.settle.template, .branch condition⟩
  | opened {p : Payload} {condition : Text} {needs : Bool} (hp : p.branch? = some (condition, needs))
      (hc : condition ∉ d.settle.template.branches.map Branch.condition)
      (hok : Condition.check condition needs = .ok ()) :
      Step d p ⟨d.settle.template, .fresh ⟨condition, []⟩⟩
  /-- A new branch whose condition is refused is not opened, but the last one joins the template. -/
  | refused {p : Payload} {condition : Text} {needs : Bool} (hp : p.branch? = some (condition, needs)) :
      Step d p d.settle

theorem openBranch_step {d : Draft} {p : Payload} {condition : Text} {needs : Bool}
    (hp : p.branch? = some (condition, needs)) : Step d p (d.openBranch condition needs).1 := by
  unfold openBranch
  dsimp only
  split
  · rename_i h
    exact .reopened hp (by simpa [List.any_eq_true] using h)
  · rename_i h
    split
    · exact .refused hp
    · rename_i hok
      exact .opened hp (by simpa [List.any_eq_true] using h) hok

theorem settle_name (d : Draft) : d.settle.template.name = d.template.name := by
  rcases d with ⟨t, _ | _ | _⟩ <;> rfl

theorem addVariation_name (d : Draft) (v : Text) :
    (d.addVariation v).template.name = d.template.name := by
  rcases d with ⟨t, _ | _ | _⟩ <;> rfl

theorem Step.name {d d' : Draft} {p : Payload} (h : Step d p d') :
    d'.template.name = d.template.name := by
  cases h with
  | ignored => rfl
  | added => exact addVariation_name d _
  | reopened => exact settle_name d
  | opened => exact settle_name d
  | refused => exact settle_name d

end Draft

/-! ## Lines -/

namespace Body

/-- The entities once those mentioned in a line are known. -/
def known (es : List Entity) (line : Text) : List Entity :=
  (mentions (collapseLinks line)).foldl addMention es

theorem map_name_known (es : List Entity) (line : Text) :
    (known es line).map Entity.name = unite (es.map Entity.name) (mentions (collapseLinks line)) := by
  unfold known
  induction mentions (collapseLinks line) generalizing es with
  | nil => rfl
  | cons name names ih =>
    rw [List.foldl_cons, ih, addMention, map_key_upsert fun _ _ => rfl]
    rfl

theorem addVariation_of_none (strict : Bool) (b : Body) {v : Text} (h : Variation.problem? v = none) :
    addVariation strict b v = ⟨{ b with draft := b.draft.addVariation v }, none⟩ := by
  simp [addVariation, Variation.check, h]

theorem addVariation_of_some (strict : Bool) (b : Body) {v : Text} {q : Variation.Problem}
    (h : Variation.problem? v = some q) :
    addVariation strict b v =
      ⟨b, if strict then some { fault := .invalidVariation v q.message } else none⟩ := by
  cases strict <;> simp [addVariation, Variation.check, h]

theorem readPayload_step (strict : Bool) (b : Body) (p : Payload) :
    (b.readPayload strict p).state.entities = b.entities ∧
      Draft.Step b.draft p (b.readPayload strict p).state.draft := by
  have hopen : ∀ condition needs, p.branch? = some (condition, needs) →
      (b.openBranch condition needs).state.entities = b.entities ∧
        Draft.Step b.draft p (b.openBranch condition needs).state.draft := by
    intro condition needs hp
    have h := Draft.openBranch_step (d := b.draft) hp
    unfold openBranch
    rcases hd : b.draft.openBranch condition needs with ⟨d, _ | q⟩ <;> rw [hd] at h <;> exact ⟨rfl, h⟩
  cases p with
  | condition text => exact hopen text true rfl
  | default text => exact hopen text false rfl
  | variation text =>
    cases hv : Variation.problem? text with
    | none => rw [readPayload, addVariation_of_none strict b hv]; exact ⟨rfl, .added hv⟩
    | some q => rw [readPayload, addVariation_of_some strict b hv]; exact ⟨rfl, .ignored⟩

theorem openBranch_failure (b : Body) (condition : Text) (needs : Bool) :
    (b.openBranch condition needs).failure = (b.draft.openBranch condition needs).2.map fun p =>
      { fault := .invalidCondition condition p.message } := by
  unfold openBranch
  rcases b.draft.openBranch condition needs with ⟨d, _ | p⟩ <;> rfl

theorem readPayload_of_branch? (strict : Bool) (b : Body) {p : Payload} {condition : Text} {needs : Bool}
    (h : p.branch? = some (condition, needs)) : b.readPayload strict p = b.openBranch condition needs := by
  cases p <;> cases h <;> rfl

/-- A line with a payload is read by making known what it mentions and reading the payload. -/
theorem readLine_of_payload? (strict : Bool) (b : Body) {line : Text} {p : Payload} (h : payload? line = some p) :
    b.readLine strict line = readPayload strict { b with entities := known b.entities line } p := by
  obtain ⟨hblank, mark, payload, hitem, rfl⟩ := payload?_eq_some h
  unfold readLine
  rw [hblank, if_neg Bool.false_ne_true]
  dsimp only
  rw [hitem]
  rfl

theorem readLine_of_payload?_none (strict : Bool) (b : Body) {line : Text} (h : payload? line = none) :
    b.readLine strict line = if Text.allBlank line then ⟨b, none⟩ else
      ⟨{ b with entities := known b.entities line },
        some { fault := .undecoratedLine (Text.trim (collapseLinks line)) }⟩ := by
  unfold readLine
  split
  · rfl
  · rename_i hblank
    have hitem : item? (collapseLinks line) = none := by
      rw [payload?, if_neg hblank, Option.map_eq_none_iff] at h
      exact h
    dsimp only
    rw [hitem]
    rfl

/-- What reading a line comes to. -/
inductive LineRead (strict : Bool) (b : Body) (line : Text) : Outcome Body → Prop
  | blank (hblank : Text.allBlank line = true) : LineRead strict b line ⟨b, none⟩
  | undecorated (hblank : Text.allBlank line = false) (hp : payload? line = none) :
      LineRead strict b line ⟨{ b with entities := known b.entities line },
        some { fault := .undecoratedLine (Text.trim (collapseLinks line)) }⟩
  | payload {p : Payload} (hp : payload? line = some p) :
      LineRead strict b line (readPayload strict { b with entities := known b.entities line } p)

theorem readLine_lineRead (strict : Bool) (b : Body) (line : Text) :
    LineRead strict b line (b.readLine strict line) := by
  cases hp : payload? line with
  | some p =>
    rw [readLine_of_payload? strict b hp]
    exact .payload hp
  | none =>
    rw [readLine_of_payload?_none strict b hp]
    split
    · rename_i hblank
      exact .blank hblank
    · rename_i hblank
      exact .undecorated (by simpa using hblank) hp

/-- A line makes the entities it mentions known and takes the draft the step of its payload; a line
that is blank or no list item leaves the draft as it is. -/
theorem readLine_cases (strict : Bool) (b : Body) (line : Text) :
    (b.readLine strict line).state = b ∨
      ((b.readLine strict line).state.entities = known b.entities line ∧
        ((b.readLine strict line).state.draft = b.draft ∨
          ∃ p, payload? line = some p ∧ Draft.Step b.draft p (b.readLine strict line).state.draft)) := by
  have hread := readLine_lineRead strict b line
  generalize b.readLine strict line = o at hread ⊢
  cases hread with
  | blank => exact .inl rfl
  | undecorated => exact .inr ⟨rfl, .inl rfl⟩
  | @payload p hp =>
    obtain ⟨hes, hstep⟩ := readPayload_step strict { b with entities := known b.entities line } p
    exact .inr ⟨hes, .inr ⟨p, hp, hstep⟩⟩

/-- What the lines of a template leave behind, read to the end or to the first failure. -/
def after (strict : Bool) (b : Body) (lines : List Text) : Body :=
  (readEach (Body.readNumbered strict) 2 b lines).state

theorem after_keeps {P : Body → Prop} {strict : Bool}
    (hline : ∀ b line, P b → P (b.readLine strict line).state) {b : Body} (hb : P b)
    (lines : List Text) : P (b.after strict lines) := by
  unfold after
  refine readEach_keeps ?_ lines 2 b hb
  intro n s line hs
  exact hline s line hs

theorem after_name (strict : Bool) (b : Body) (lines : List Text) :
    (b.after strict lines).draft.template.name = b.draft.template.name := by
  refine after_keeps (P := fun b' => b'.draft.template.name = b.draft.template.name) ?_ rfl lines
  intro b' line h
  rcases readLine_cases strict b' line with hs | ⟨-, hs | ⟨p, -, hs⟩⟩
  · rw [hs, h]
  · rw [hs, h]
  · rw [hs.name, h]

end Body

/-! ## Chunks -/

namespace Catalog

/-- What reading one chunk can make of a catalog. -/
inductive Effect (strict : Bool) (c : Catalog) : Catalog → Prop
  | same : Effect strict c c
  | referred {line label target : Text} (h : fileReference? line = some (label, target))
      (h0 : target ≠ []) : Effect strict c { c with references := c.references ++ [target] }
  | defined {line : Text} {e : Entity} (h : entityOf? line = some e) :
      Effect strict c (c.defineEntity e)
  /-- The lines go to the last template of the name: what they have changed is stored, with the
  branch that was open only when they end without failure. -/
  | extended {t t' : Template} {b : Body} {lines : List Text} (ht : c.lastTemplate? t.name = some t)
      (hb : b = Body.after strict ⟨c.entities, ⟨t, .template⟩⟩ lines)
      (ht' : t' = b.draft.template ∨ t' = b.draft.settle.template) :
      Effect strict c ({ c with entities := b.entities }.putTemplate t')
  /-- A new template whose lines fail is dropped, and the entities they mention stay. -/
  | dropped {header name : Text} {b : Body} {lines : List Text} (hn : name = Text.trim header)
      (h0 : name ≠ []) (hb : b = Body.after strict ⟨c.entities, ⟨{ name := name }, .template⟩⟩ lines) :
      Effect strict c { c with entities := b.entities }
  | created {header name : Text} {b : Body} {lines : List Text} (hn : name = Text.trim header)
      (h0 : name ≠ []) (hnew : c.lastTemplate? name = none)
      (hb : b = Body.after strict ⟨c.entities, ⟨{ name := name }, .template⟩⟩ lines) :
      Effect strict c
        { c with entities := b.entities, templates := c.templates ++ [b.draft.settle.template] }

theorem lastTemplate?_eq_some {c : Catalog} {name : Text} {t : Template}
    (h : c.lastTemplate? name = some t) : t ∈ c.templates ∧ t.name = name := by
  simpa using findLast?_eq_some h

theorem lastTemplate?_eq_none {c : Catalog} {name : Text} (h : c.lastTemplate? name = none) :
    name ∉ c.templates.map Template.name := by
  simpa using findLast?_eq_none h

@[simp] theorem defineEntity_templates (c : Catalog) (e : Entity) :
    (c.defineEntity e).templates = c.templates := by
  unfold defineEntity; split <;> rfl

@[simp] theorem defineEntity_references (c : Catalog) (e : Entity) :
    (c.defineEntity e).references = c.references := by
  unfold defineEntity; split <;> rfl

/-- Defining an entity adds its name, unless it is there. -/
theorem map_name_defineEntity (c : Catalog) (e : Entity) :
    (c.defineEntity e).entities.map Entity.name = addNew (c.entities.map Entity.name) e.name := by
  unfold defineEntity addNew
  by_cases h : e.name ∈ c.entities.map Entity.name
  · have hany : c.entities.any (·.name == e.name) = true := by simpa using h
    rw [if_pos hany, if_pos h]
    refine map_key_changeLast ?_ c.entities
    intro old _; rfl
  · have hany : ¬ c.entities.any (·.name == e.name) = true := by simpa using h
    rw [if_neg hany, if_neg h]
    exact List.map_append

/-- Merging adds the names of the other's entities. -/
theorem map_name_merge (c other : Catalog) : (c.merge other).entities.map Entity.name =
    unite (c.entities.map Entity.name) (other.entities.map Entity.name) := by
  refine map_key_upsertAll ?_ c.entities other.entities
  intro e e'
  unfold Entity.retype
  split <;> rfl

theorem readTemplate_effect (strict : Bool) (c : Catalog) (header : Text) (body : List Text) :
    Effect strict c (c.readTemplate strict header body).state := by
  unfold readTemplate
  dsimp only
  split
  · exact .same
  · rename_i h0
    have h0 : Text.trim (header.drop 1) ≠ [] := by simpa using h0
    split
    · rename_i t ht
      have ht' : c.lastTemplate? t.name = some t := by rw [(lastTemplate?_eq_some ht).2]; exact ht
      unfold extendTemplate
      dsimp only
      split
      · exact .extended ht' rfl (.inl rfl)
      · exact .extended ht' rfl (.inr rfl)
    · rename_i hnew
      unfold newTemplate
      dsimp only
      split
      · exact .dropped rfl h0 rfl
      · exact .created rfl h0 hnew rfl

/-- A chunk, read to its end or failed, has one of the effects. -/
theorem readChunk_effect (strict : Bool) (c : Catalog) (chunk : Text) :
    Effect strict c (c.readChunk strict chunk).state := by
  unfold readChunk
  dsimp only
  split
  · exact .same
  · exact readTemplate_effect ..
  · rename_i line _ _ _
    unfold readReference
    split
    · rename_i label r rs h
      exact .referred h (List.cons_ne_nil r rs)
    · exact .same
  · unfold readEntity
    split
    · rename_i e h; exact .defined h
    · exact .same
  · exact .same

theorem readChunks_keeps {P : Catalog → Prop} {strict : Bool}
    (heffect : ∀ c c', P c → Effect strict c c' → P c') (source : Option Text) {c : Catalog} (hc : P c)
    (chunks : List Text) : P (readChunks strict source c chunks).state := by
  unfold readChunks
  refine readEach_keeps ?_ chunks 0 c hc
  intro n s chunk hs
  exact heffect s _ hs (readChunk_effect strict s chunk)

end Catalog

end LangGen
