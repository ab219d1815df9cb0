/-
Templates and entities have names of their own, branches have conditions of their own, and no list
of variations holds one twice: after any run of readings, merges and changes, failed or not. A
branch that is still open stands outside of its template, so the draft says of it what the template
will say of it once it has joined (`Draft.Distinct`).
-/
import LangGen.Proofs.Catalog.Shelf

namespace LangGen

/-- No variation and no condition stands twice. -/
structure Template.Distinct (t : Template) : Prop where
  variations : t.variations.Nodup
  conditions : (t.branches.map Branch.condition).Nodup
  branches : ∀ b ∈ t.branches, b.variations.Nodup

/-- No name stands twice, and no template holds anything twice. -/
structure Catalog.Distinct (c : Catalog) : Prop where
  templates : (c.templates.map Template.name).Nodup
  entities : (c.entities.map Entity.name).Nodup
  each : ∀ t ∈ c.templates, t.Distinct

instance (t : Template) : Decidable t.Distinct :=
  decidable_of_iff (t.variations.Nodup ∧ (t.branches.map Branch.condition).Nodup ∧
    ∀ b ∈ t.branches, b.variations.Nodup) ⟨fun ⟨h, h', h''⟩ => ⟨h, h', h''⟩, fun ⟨h, h', h''⟩ => ⟨h, h', h''⟩⟩

instance (c : Catalog) : Decidable c.Distinct :=
  decidable_of_iff ((c.templates.map Template.name).Nodup ∧ (c.entities.map Entity.name).Nodup ∧
    ∀ t ∈ c.templates, t.Distinct) ⟨fun ⟨h, h', h''⟩ => ⟨h, h', h''⟩, fun ⟨h, h', h''⟩ => ⟨h, h', h''⟩⟩

/-! ## Changes of a template -/

namespace Template.Distinct

variable {t : Template}

theorem mk_name (name : Text) : Template.Distinct { name := name } :=
  ⟨List.nodup_nil, List.nodup_nil, fun _ h => by cases h⟩

theorem addVariation (h : t.Distinct) (v : Text) : (t.addVariation v).Distinct :=
  ⟨nodup_addNew h.variations v, h.conditions, h.branches⟩

theorem addBranchVariation (h : t.Distinct) (condition v : Text) :
    (t.onBranch condition (·.addVariation v)).Distinct := by
  refine ⟨h.variations, ?_, ?_⟩
  · have hkey : ∀ b : Branch, (b.condition == condition) = true →
        (b.addVariation v).condition = b.condition := fun _ _ => rfl
    show ((changeFirst _ _ t.branches).map Branch.condition).Nodup
    rw [map_key_changeFirst hkey]
    exact h.conditions
  · apply forall_mem_changeFirst h.branches
    intro b hb _
    exact nodup_addNew (h.branches b hb) v

theorem merge (h : t.Distinct) {other : Template} (ho : other.Distinct) : (t.merge other).Distinct := by
  refine ⟨nodup_unite h.variations other.variations, ?_, ?_⟩
  · have hkey : ∀ b b' : Branch, (b.absorb b').condition = b.condition := fun _ _ => rfl
    show ((upsertAll Branch.condition Branch.absorb t.branches other.branches).map _).Nodup
    rw [map_key_upsertAll hkey]
    exact nodup_unite h.conditions _
  · apply forall_mem_upsertAll h.branches ho.branches
    intro b b' hb _
    exact nodup_unite hb b'.variations

end Template.Distinct

/-! ## Drafts -/

/-- The template holds nothing twice, nor will it with the branch that is not in it yet. -/
structure Draft.Distinct (d : Draft) : Prop where
  template : d.template.Distinct
  fresh : ∀ b, d.target = .fresh b →
    b.variations.Nodup ∧ b.condition ∉ d.template.branches.map Branch.condition

namespace Draft.Distinct

variable {d : Draft}

theorem settle (h : d.Distinct) : d.settle.Distinct := by
  obtain ⟨t, target⟩ := d
  cases target with
  | template => exact h
  | branch condition => exact h
  | fresh b =>
    obtain ⟨hb, hc⟩ := h.fresh b rfl
    have ht := h.template
    refine ⟨⟨ht.variations, ?_, ?_⟩, fun _ h => by cases h⟩
    · show ((t.branches ++ [b]).map Branch.condition).Nodup
      rw [List.map_append, List.map_singleton, ← List.concat_eq_append]
      exact ht.conditions.concat hc
    · intro b' hb'
      rcases List.mem_append.1 hb' with hb' | hb'
      · exact ht.branches b' hb'
      · rw [List.mem_singleton.1 hb']; exact hb

theorem addVariation (h : d.Distinct) (v : Text) : (d.addVariation v).Distinct := by
  obtain ⟨t, target⟩ := d
  have ht := h.template
  cases target with
  | template => exact ⟨ht.addVariation v, fun _ h => by cases h⟩
  | branch condition =>
    refine ⟨⟨ht.variations, ?_, ?_⟩, fun _ h => by cases h⟩
    · have hkey : ∀ b : Branch, (b.condition == condition) = true →
          (b.addVariation v).condition = b.condition := fun _ _ => rfl
      show ((changeLast _ _ t.branches).map Branch.condition).Nodup
      rw [map_key_changeLast hkey]
      exact ht.conditions
    · apply forall_mem_changeLast ht.branches
      intro b hb _
      exact nodup_addNew (ht.branches b hb) v
  | fresh b =>
    refine ⟨ht, ?_⟩
    rintro _ ⟨⟩
    exact ⟨nodup_addNew (h.fresh b rfl).1 v, (h.fresh b rfl).2⟩

theorem step {d' : Draft} {p : Line.Payload} (h : d.Distinct) (hs : Draft.Step d p d') : d'.Distinct := by
  cases hs with
  | ignored => exact h
  | added => exact h.addVariation _
  | reopened => exact ⟨h.settle.template, fun _ h => by cases h⟩
  | opened _ hc =>
    refine ⟨h.settle.template, ?_⟩
    rintro _ ⟨⟩
    exact ⟨List.nodup_nil, hc⟩
  | refused => exact h.settle

end Draft.Distinct

/-! ## Bodies -/

/-- The entities and the draft hold nothing twice. -/
structure Body.Distinct (b : Body) : Prop where
  entities : (b.entities.map Entity.name).Nodup
  draft : b.draft.Distinct

theorem Body.Distinct.readLine {strict : Bool} {b : Body} (line : Text) (h : b.Distinct) :
    (b.readLine strict line).state.Distinct := by
  have hknown : ((known b.entities line).map Entity.name).Nodup := by
    rw [map_name_known]
    exact nodup_unite h.entities _
  rcases readLine_cases strict b line with hs | ⟨he, hd | ⟨p, -, hd⟩⟩
  · rw [hs]; exact h
  · exact ⟨he ▸ hknown, by rw [hd]; exact h.draft⟩
  · exact ⟨he ▸ hknown, h.draft.step hd⟩

theorem Body.Distinct.after {strict : Bool} {b : Body} (h : b.Distinct) (lines : List Text) :
    (b.after strict lines).Distinct :=
  after_keeps (fun _ line hb => hb.readLine line) h lines

/-! ## Catalogs -/

namespace Catalog.Distinct

variable {c : Catalog}

theorem empty : Catalog.Distinct {} := ⟨List.nodup_nil, List.nodup_nil, fun _ h => by cases h⟩

theorem body (h : c.Distinct) {t : Template} (ht : t.Distinct) (strict : Bool) (lines : List Text) :
    (Body.after strict ⟨c.entities, ⟨t, .template⟩⟩ lines).Distinct :=
  Body.Distinct.after ⟨h.entities, ht, fun _ h => by cases h⟩ lines

theorem putTemplate (h : c.Distinct) {t : Template} (ht : t.Distinct) : (c.putTemplate t).Distinct := by
  refine ⟨?_, h.entities, ?_⟩
  · have hkey : ∀ t' : Template, (t'.name == t.name) = true → t.name = t'.name :=
      fun t' ht' => (eq_of_beq ht').symm
    show ((changeLast _ (fun _ => t) c.templates).map Template.name).Nodup
    rw [map_key_changeLast hkey]
    exact h.templates
  · exact forall_mem_changeLast h.each fun _ _ _ => ht

theorem defineEntity (h : c.Distinct) (e : Entity) : (c.defineEntity e).Distinct := by
  constructor
  · rw [defineEntity_templates]; exact h.templates
  · rw [map_name_defineEntity]; exact nodup_addNew h.entities e.name
  · rw [defineEntity_templates]; exact h.each

/-- The effect of a chunk keeps names, conditions and variations distinct. -/
theorem effect {strict : Bool} {c' : Catalog} (h : c.Distinct) (he : Effect strict c c') :
    c'.Distinct := by
  cases he with
  | same => exact h
  | referred => exact ⟨h.templates, h.entities, h.each⟩
  | defined => exact h.defineEntity _
  | @extended t t' b lines ht hb ht' =>
    have hbody := h.body (h.each t (lastTemplate?_eq_some ht).1) strict lines
    rw [← hb] at hbody
    have hstored : Catalog.Distinct { c with entities := b.entities } :=
      ⟨h.templates, hbody.entities, h.each⟩
    rcases ht' with rfl | rfl
    · exact hstored.putTemplate hbody.draft.template
    · exact hstored.putTemplate hbody.draft.settle.template
  | @dropped header name b lines hn h0 hb =>
    have hbody := h.body (Template.Distinct.mk_name name) strict lines
    rw [← hb] at hbody
    exact ⟨h.templates, hbody.entities, h.each⟩
  | @created header name b lines hn h0 hnew hb =>
    have hbody := h.body (Template.Distinct.mk_name name) strict lines
    have hname : b.draft.settle.template.name = name := by
      rw [Draft.settle_name, hb, Body.after_name]
    rw [← hb] at hbody
    -- the header names the new template, and no template has that name yet
    refine ⟨?_, hbody.entities, ?_⟩
    · rw [List.map_append, List.map_singleton, hname, ← List.concat_eq_append]
      exact h.templates.concat (lastTemplate?_eq_none hnew)
    · intro t ht
      rcases List.mem_append.1 ht with ht | ht
      · exact h.each t ht
      · rw [List.mem_singleton.1 ht]; exact hbody.draft.settle.template

theorem merge (h : c.Distinct) {other : Catalog} (ho : other.Distinct) : (c.merge other).Distinct := by
  constructor
  · have hkey : ∀ t t' : Template, (t.merge t').name = t.name := fun _ _ => rfl
    show ((upsertAll Template.name Template.merge c.templates other.templates).map _).Nodup
    rw [map_key_upsertAll hkey]
    exact nodup_unite h.templates _
  · rw [map_name_merge]
    exact nodup_unite h.entities _
  · exact forall_mem_upsertAll h.each ho.each fun _ _ ht ht' => ht.merge ht'

theorem onTemplate (h : c.Distinct) (name : Text) {f : Template → Template}
    (hname : ∀ t, (f t).name = t.name) (hf : ∀ t, t.Distinct → (f t).Distinct) :
    (c.onTemplate name f).Distinct := by
  refine ⟨?_, h.entities, ?_⟩
  · show ((changeFirst _ f c.templates).map Template.name).Nodup
    rw [map_key_changeFirst fun t _ => hname t]
    exact h.templates
  · apply forall_mem_changeFirst h.each
    intro t ht _
    exact hf t (h.each t ht)

theorem template? (h : c.Distinct) {name : Text} {t : Template} (ht : c.template? name = some t) :
    t.Distinct :=
  h.each t (List.mem_of_find?_eq_some ht)

end Catalog.Distinct

/-! ## Runs -/

theorem Shelf.Edit.apply_distinct {s : Shelf} (hs : ∀ i, (s i).Distinct) (edit : Edit) :
    ∀ i, (edit.apply s i).Distinct := by
  cases edit with
  | onCatalogs step => exact step.apply_keeps (fun _ _ _ => .effect) (fun _ _ h => h.merge) hs
  | mergeTemplate slot name other otherName =>
    cases ht : (s other).template? otherName with
    | none => simpa [Edit.apply, ht] using hs
    | some t =>
      have hmerged : ((s slot).onTemplate name (·.merge t)).Distinct := by
        refine (hs slot).onTemplate name ?_ ?_
        · intro t'; rfl
        · intro t' ht'; exact ht'.merge ((hs other).template? ht)
      simpa [Edit.apply, ht] using put_keeps hs slot hmerged
  | addVariation slot name v =>
    exact put_keeps hs slot ((hs slot).onTemplate name (fun _ => rfl) fun t ht => ht.addVariation v)
  | addBranchVariation slot name condition v =>
    exact put_keeps hs slot
      ((hs slot).onTemplate name (fun _ => rfl) fun t ht => ht.addBranchVariation condition v)

/-- After any edits of empty catalogs no name, no condition and no variation stands twice. -/
theorem Shelf.edited_distinct (edits : List Shelf.Edit) (slot : Nat) :
    (Shelf.edited edits slot).Distinct := by
  have hedited : ∀ i, (Shelf.edited edits i).Distinct := by
    apply List.foldlRecOn (motive := fun s : Shelf => ∀ i, (s i).Distinct) edits _
      (fun _ => Catalog.Distinct.empty)
    intro s hs edit _
    exact Edit.apply_distinct hs edit
  exact hedited slot

end LangGen
