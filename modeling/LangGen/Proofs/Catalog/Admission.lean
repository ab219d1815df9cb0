/-
When reading succeeds. Whether a line, a body or a chunk is read without failure depends on the
catalog only through the branches that its templates have: a condition that stands there is not
checked again. So what is read without failure into a catalog is read without failure into every
catalog whose templates hold at least as much (`readChunk_succeeds_mono`).
-/
import LangGen.Proofs.Catalog.Grouping
import LangGen.Proofs.Catalog.Merge
import LangGen.Proofs.Text.Lines

namespace LangGen

open Line

/-! ## Lines -/

/-- Whether a payload is read without failure where branches with these conditions are known. -/
def Line.Payload.Admitted (strict : Bool) (known : List Text) : Payload → Prop
  | .condition c => c ∈ known ∨ Condition.check c true = .ok ()
  | .default c => c ∈ known ∨ Condition.check c false = .ok ()
  | .variation v => strict = true → Variation.problem? v = none

theorem Line.Payload.Admitted.mono {strict : Bool} {known known' : List Text} {p : Payload}
    (h : p.Admitted strict known) (hk : ∀ c ∈ known, c ∈ known') : p.Admitted strict known' := by
  cases p with
  | condition c => exact h.imp (hk c) id
  | default c => exact h.imp (hk c) id
  | variation v => exact h

namespace Draft

/-- The conditions of the branches, the one that is not among them yet included. -/
def conditions (d : Draft) : List Text := d.settle.template.branches.map Branch.condition

theorem openBranch_succeeds (d : Draft) (condition : Text) (needs : Bool) :
    (d.openBranch condition needs).2 = none ↔
      condition ∈ d.conditions ∨ Condition.check condition needs = .ok () := by
  have hany : (d.settle.template.branches.any (·.condition == condition)) = true ↔
      condition ∈ d.conditions := by simp [conditions, List.any_eq_true]
  unfold openBranch
  dsimp only
  split
  · rename_i h
    simp [hany.1 h]
  · rename_i h
    have hnot : condition ∉ d.conditions := mt hany.2 h
    cases hcheck : Condition.check condition needs with
    | error q => simp [hnot]
    | ok u => simp

theorem conditions_absorb (d : Draft) (p : Payload) :
    (d.absorb p).template.branches.map Branch.condition =
      unite (d.template.branches.map Branch.condition) p.condition?.toList := by
  have hopen : ∀ c, p.condition? = some c →
      (d.absorb p).template.branches.map Branch.condition =
        unite (d.template.branches.map Branch.condition) p.condition?.toList := by
    intro c hp
    rw [absorb_branch d hp, hp]
    by_cases hc : c ∈ d.template.branches.map Branch.condition
    · simp only [if_pos hc]; exact (addNew_of_mem hc).symm
    · simp only [if_neg hc, List.map_append]; exact (addNew_of_not_mem hc).symm
  cases p with
  | condition c => exact hopen c rfl
  | default c => exact hopen c rfl
  | variation v =>
    rw [absorb]
    split
    · rcases d with ⟨t, _ | c | b⟩
      · rfl
      · have hkey : ∀ b : Branch, (b.condition == c) = true → (b.addVariation v).condition = b.condition :=
          fun _ _ => rfl
        exact map_key_changeLast hkey t.branches
      · rfl
    · rfl

end Draft

namespace Body

theorem readPayload_succeeds (strict : Bool) (b : Body) (p : Payload) :
    (b.readPayload strict p).failure = none ↔ p.Admitted strict b.draft.conditions := by
  have hopen : ∀ c needs, (b.openBranch c needs).failure = none ↔
      c ∈ b.draft.conditions ∨ Condition.check c needs = .ok () := by
    intro c needs
    rw [openBranch_failure, Option.map_eq_none_iff, Draft.openBranch_succeeds]
  cases p with
  | condition c => exact hopen c true
  | default c => exact hopen c false
  | variation v =>
    rw [readPayload]
    cases hv : Variation.problem? v with
    | none => simp [addVariation_of_none strict b hv, Payload.Admitted, hv]
    | some q => cases strict <;> simp [addVariation_of_some _ b hv, Payload.Admitted, hv]

/-- A line is read without failure if it is blank, or an item whose payload is admitted. -/
theorem readLine_succeeds (strict : Bool) (b : Body) (line : Text) :
    (b.readLine strict line).failure = none ↔
      Text.allBlank line = true ∨ ∃ p, payload? line = some p ∧ p.Admitted strict b.draft.conditions := by
  have hread := readLine_lineRead strict b line
  generalize b.readLine strict line = o at hread ⊢
  cases hread with
  | blank hblank => simp [hblank]
  | undecorated hblank hp => simp [hblank, hp]
  | payload hp =>
    rw [readPayload_succeeds]
    simp [(payload?_eq_some hp).1, hp]

theorem conditions_readLine {strict : Bool} {b : Body} {line : Text}
    (hok : (b.readLine strict line).failure = none) :
    (b.readLine strict line).state.draft.conditions =
      unite b.draft.conditions (opened (payload? line).toList) := by
  unfold Draft.conditions
  rw [(settle_readLine hok).2]
  cases hp : payload? line with
  | none => rfl
  | some p =>
    have hopened : opened [p] = p.condition?.toList := by
      have h := opened_concat [] p
      simpa [opened] using h
    rw [Option.toList_some, hopened]
    exact Draft.conditions_absorb b.draft.settle p

/-- Lines that are read without failure are so wherever at least the same branches are known. -/
theorem readLines_succeed {strict : Bool} : ∀ (lines : List Text) {n m : Nat} {b b' : Body},
    (∀ c ∈ b.draft.conditions, c ∈ b'.draft.conditions) →
      (readEach (readNumbered strict) n b lines).failure = none →
      (readEach (readNumbered strict) m b' lines).failure = none
  | [], _, _, _, _, _, _ => rfl
  | line :: lines, n, m, b, b', hsub, hok => by
    obtain ⟨hline, hrest⟩ := (readEach_succeeds_cons ..).1 hok
    have hline : (b.readLine strict line).failure = none :=
      (Outcome.within_failure_eq_none _ _).1 hline
    have hline' : (b'.readLine strict line).failure = none := by
      rw [readLine_succeeds] at hline ⊢
      exact hline.imp id fun ⟨p, hp, hadmitted⟩ => ⟨p, hp, hadmitted.mono hsub⟩
    refine (readEach_succeeds_cons ..).2 ⟨(Outcome.within_failure_eq_none _ _).2 hline', ?_⟩
    refine readLines_succeed lines (b := (b.readLine strict line).state) ?_ hrest
    show ∀ c ∈ (b.readLine strict line).state.draft.conditions,
      c ∈ (b'.readLine strict line).state.draft.conditions
    intro c hc
    rw [conditions_readLine hline, mem_unite] at hc
    rw [conditions_readLine hline', mem_unite]
    exact hc.imp (hsub c) id

end Body

/-! ## Templates -/

namespace Template

/-- Whether all variations and all conditions of a template are in another one too. -/
structure Within (t u : Template) : Prop where
  variations : ∀ v ∈ t.variations, v ∈ u.variations
  conditions : ∀ c ∈ t.branches.map Branch.condition, c ∈ u.branches.map Branch.condition

variable {t u : Template}

theorem Within.refl (t : Template) : t.Within t := ⟨fun _ => id, fun _ => id⟩

theorem Within.trans {w : Template} (h : t.Within u) (h' : u.Within w) : t.Within w :=
  ⟨fun v hv => h'.variations v (h.variations v hv), fun c hc => h'.conditions c (h.conditions c hc)⟩

theorem within_merge_left (t u : Template) : t.Within (t.merge u) := by
  refine ⟨fun v hv => mem_unite.2 (.inl hv), fun c hc => ?_⟩
  rw [conditions_merge, mem_unite]
  exact .inl hc

theorem within_merge_right (t u : Template) : u.Within (t.merge u) := by
  refine ⟨fun v hv => mem_unite.2 (.inr hv), fun c hc => ?_⟩
  rw [conditions_merge, mem_unite]
  exact .inr hc

theorem Within.grouped (h : t.Within u) (ps : List Payload) : (t.grouped ps).Within (u.grouped ps) := by
  constructor
  · intro v hv
    simp only [Template.grouped, ← unite_eq_append_news, mem_unite] at hv ⊢
    exact hv.imp (h.variations v) id
  · intro c hc
    rw [conditions_grouped, mem_unite] at hc ⊢
    exact hc.imp (h.conditions c) id

/-- A template that holds what another one holds is empty only if that one is. -/
theorem Within.isEmpty (h : t.Within u) (hu : u.isEmpty = true) : t.isEmpty = true := by
  have hv : u.variations = [] ∧ u.branches = [] := by simpa [Template.isEmpty] using hu
  have htv : t.variations = [] := by
    rw [List.eq_nil_iff_forall_not_mem]
    intro v hmem
    have := h.variations v hmem
    rw [hv.1] at this
    cases this
  have htb : t.branches.map Branch.condition = [] := by
    rw [List.eq_nil_iff_forall_not_mem]
    intro c hmem
    have := h.conditions c hmem
    rw [hv.2] at this
    cases this
  simp [Template.isEmpty, htv, List.map_eq_nil_iff.1 htb]

end Template

/-! ## Chunks -/

namespace Catalog

/-- The last template of this name, or an empty one. -/
def templateOr (c : Catalog) (name : Text) : Template := (c.lastTemplate? name).getD { name := name }

/-- Whether each template of a catalog is within the one of its name in another catalog. -/
def Within (c d : Catalog) : Prop := ∀ name, (c.templateOr name).Within (d.templateOr name)

/-- What reading the body of a template into the template of a name leaves behind. -/
def readBody (strict : Bool) (c : Catalog) (name : Text) (body : List Text) : Outcome Body :=
  readEach (Body.readNumbered strict) 2 ⟨c.entities, ⟨c.templateOr name, .template⟩⟩ body

variable {strict : Bool} {c d : Catalog}

theorem templateOr_distinct (hc : c.Distinct) (name : Text) : (c.templateOr name).Distinct := by
  unfold templateOr
  cases h : c.lastTemplate? name with
  | none => exact Template.Distinct.mk_name name
  | some t => exact hc.each t (lastTemplate?_eq_some h).1

/-- A template is read without failure if it has a name, its body is, and it is not empty then. -/
theorem readTemplate_succeeds (strict : Bool) (c : Catalog) (body : List Text) {header name : Text}
    (hname : Text.trim (header.drop 1) = name) :
    (c.readTemplate strict header body).failure = none ↔
      name ≠ [] ∧ (c.readBody strict name body).failure = none ∧
        (c.readBody strict name body).state.draft.settle.template.isEmpty = false := by
  unfold readTemplate
  dsimp only
  rw [hname]
  by_cases h0 : name = []
  · simp [h0]
  · rw [if_neg (by simpa using h0)]
    unfold readBody templateOr
    cases hc : c.lastTemplate? name with
    | some t =>
      dsimp only [extendTemplate, Option.getD_some]
      split
      · rename_i f hf; simp [hf]
      · rename_i hf; simp [hf, h0]
    | none =>
      dsimp only [newTemplate, Option.getD_none]
      split
      · rename_i f hf; simp [hf]
      · rename_i hf; simp [hf, h0]

/-- A template that is read without failure takes the place of the one of its name, or it comes last. -/
theorem readTemplate_state {header name : Text} {body : List Text} (hname : Text.trim (header.drop 1) = name)
    (hok : (c.readTemplate strict header body).failure = none) :
    (c.readTemplate strict header body).state =
      let b := (c.readBody strict name body).state
      match c.lastTemplate? name with
      | some _ => putTemplate { c with entities := b.entities } b.draft.settle.template
      | none => { c with entities := b.entities, templates := c.templates ++ [b.draft.settle.template] } := by
  obtain ⟨h0, hbody, -⟩ := (readTemplate_succeeds strict c body hname).1 hok
  unfold readBody templateOr at hbody ⊢
  unfold readTemplate
  dsimp only
  rw [hname, if_neg (by simpa using h0)]
  cases hfound : c.lastTemplate? name with
  | some t =>
    rw [hfound, Option.getD_some] at hbody
    dsimp only [extendTemplate, Option.getD_some]
    rw [hbody]
  | none =>
    rw [hfound, Option.getD_none] at hbody
    dsimp only [newTemplate, Option.getD_none]
    rw [hbody]

/-- What a body is made of when it is read without failure. -/
theorem settle_readBody (hc : c.Distinct) {name : Text} {body : List Text}
    (hok : (c.readBody strict name body).failure = none) :
    (c.readBody strict name body).state.draft.settle.template =
      (c.templateOr name).grouped (body.filterMap payload?) :=
  (grouped_of_readLines (templateOr_distinct hc name).conditions hok).1

theorem readTemplate_succeeds_mono (hc : c.Distinct) (hd : d.Distinct) (h : c.Within d) {header : Text}
    {body : List Text} (hok : (c.readTemplate strict header body).failure = none) :
    (d.readTemplate strict header body).failure = none := by
  rw [readTemplate_succeeds _ _ _ rfl] at hok ⊢
  obtain ⟨hname, hbody, hfull⟩ := hok
  have hwithin := h (Text.trim (header.drop 1))
  have hbody' : (d.readBody strict (Text.trim (header.drop 1)) body).failure = none :=
    Body.readLines_succeed body (b := ⟨c.entities, ⟨_, .template⟩⟩) hwithin.conditions hbody
  refine ⟨hname, hbody', ?_⟩
  rw [settle_readBody hc hbody] at hfull
  rw [settle_readBody hd hbody', ← Bool.not_eq_true]
  intro hempty
  rw [(hwithin.grouped _).isEmpty hempty] at hfull
  cases hfull

/-- What a chunk that is read without failure makes of a catalog, by its kind. -/
inductive Step (strict : Bool) (c : Catalog) (chunk : Text) : Catalog → Prop
  | template {header : Text} {body : List Text} (hkind : Chunk.kind? (Text.trim chunk) = some .template)
      (hlines : Text.lines (Text.trim chunk) = header :: body)
      (hok : (c.readTemplate strict header body).failure = none) :
      Step strict c chunk (c.readTemplate strict header body).state
  | reference {line label target : Text} {rest : List Text}
      (hkind : Chunk.kind? (Text.trim chunk) = some .reference)
      (hlines : Text.lines (Text.trim chunk) = line :: rest)
      (href : fileReference? line = some (label, target)) :
      Step strict c chunk { c with references := c.references ++ [target] }
  | entity {line : Text} {e : Entity} {rest : List Text}
      (hkind : Chunk.kind? (Text.trim chunk) = some .entity)
      (hlines : Text.lines (Text.trim chunk) = line :: rest) (hdef : entityOf? line = some e) :
      Step strict c chunk (c.defineEntity e)

theorem readChunk_step {chunk : Text} (hok : (c.readChunk strict chunk).failure = none) :
    Step strict c chunk (c.readChunk strict chunk).state := by
  unfold readChunk Chunk.classify at hok ⊢
  dsimp only at hok ⊢
  cases hkind : Chunk.kind? (Text.trim chunk) with
  | none => rw [hkind] at hok; cases hok
  | some kind =>
    rw [hkind] at hok
    cases hlines : Text.lines (Text.trim chunk) with
    | nil => exact absurd hlines (Text.lines_ne_nil _)
    | cons line body =>
      rw [hlines] at hok
      cases kind with
      | template => exact .template hkind hlines hok
      | reference =>
        dsimp only [readReference] at hok ⊢
        split at hok
        · rename_i href
          exact .reference hkind hlines href
        · cases hok
      | entity =>
        dsimp only [readEntity] at hok ⊢
        split at hok
        · rename_i hdef
          exact .entity hkind hlines hdef
        · cases hok

/-- A chunk that is read without failure is so into every catalog whose templates hold at least as
much. -/
theorem readChunk_succeeds_mono (hc : c.Distinct) (hd : d.Distinct) (h : c.Within d) {chunk : Text}
    (hok : (c.readChunk strict chunk).failure = none) : (d.readChunk strict chunk).failure = none := by
  unfold readChunk at hok ⊢
  dsimp only at hok ⊢
  split at hok
  · cases hok
  · exact readTemplate_succeeds_mono hc hd h hok
  · unfold readReference at hok ⊢
    split at hok
    · rfl
    · cases hok
  · unfold readEntity at hok ⊢
    split at hok
    · rfl
    · cases hok
  · rfl

end Catalog

end LangGen
