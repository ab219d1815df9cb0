/-
What catalogs tell, whatever the order in which they list it. A merge tells what either of its sides
tells (`Catalog.tells_merge`), so catalogs that are merged one after the other tell what any of them
does. In another order they come to the same names, variations, branches and references, and to the
same types of entities wherever they do not declare different ones (`Catalog.foldl_merge_perm`).
-/
import LangGen.Proofs.Catalog.Merge

namespace LangGen

/-! ## What is told -/

/-- The single things that a catalog tells. -/
inductive Fact
  | template (name : Text)
  | variation (name v : Text)
  | branch (name condition : Text)
  | branchVariation (name condition v : Text)
  | entity (name : Text)
  /-- The entity has a type other than unresolved. -/
  | declared (name : Text)
  | reference (target : Text)

/-- What a template tells of a branch with this condition. -/
def Template.HasBranch (condition : Text) (P : Branch → Prop) (t : Template) : Prop :=
  ∃ b ∈ t.branches, b.condition = condition ∧ P b

namespace Catalog

/-- What a catalog tells of a template of this name. -/
def HasTemplate (name : Text) (P : Template → Prop) (c : Catalog) : Prop := ∃ t ∈ c.templates, t.name = name ∧ P t

/-- What a catalog tells of an entity of this name. -/
def HasEntity (name : Text) (P : Entity → Prop) (c : Catalog) : Prop := ∃ e ∈ c.entities, e.name = name ∧ P e

/-- Whether a catalog tells something. -/
def Tells (c : Catalog) : Fact → Prop
  | .template name => c.HasTemplate name fun _ => True
  | .variation name v => c.HasTemplate name (v ∈ ·.variations)
  | .branch name condition => c.HasTemplate name (Template.HasBranch condition fun _ => True)
  | .branchVariation name condition v => c.HasTemplate name (Template.HasBranch condition (v ∈ ·.variations))
  | .entity name => c.HasEntity name fun _ => True
  | .declared name => c.HasEntity name (·.type ≠ .unresolved)
  | .reference target => target ∈ c.references

end Catalog

/-! ## Merging -/

theorem Template.hasBranch_merge {condition : Text} {P : Branch → Prop}
    (hP : ∀ b b' : Branch, P (b.absorb b') ↔ P b ∨ P b') (t u : Template) :
    (t.merge u).HasBranch condition P ↔ t.HasBranch condition P ∨ u.HasBranch condition P :=
  exists_key_upsertAll_iff Branch.absorb_condition hP

theorem Entity.retype_declared (e e' : Entity) :
    (e.retype e').type ≠ .unresolved ↔ e.type ≠ .unresolved ∨ e'.type ≠ .unresolved := by
  unfold retype
  split
  · rename_i h
    simp [h]
  · rename_i h
    simp [h]

theorem Entity.retype_type (e e' : Entity) : (e.retype e').type = e.type ∨ (e.retype e').type = e'.type := by
  unfold retype
  split
  · exact .inl rfl
  · exact .inr rfl

namespace Catalog

variable {name : Text}

theorem hasTemplate_merge {P : Template → Prop} (hP : ∀ t u : Template, P (t.merge u) ↔ P t ∨ P u) (a b : Catalog) :
    (a.merge b).HasTemplate name P ↔ a.HasTemplate name P ∨ b.HasTemplate name P :=
  exists_key_upsertAll_iff Template.merge_name hP

theorem hasEntity_merge {P : Entity → Prop} (hP : ∀ e e' : Entity, P (e.retype e') ↔ P e ∨ P e') (a b : Catalog) :
    (a.merge b).HasEntity name P ↔ a.HasEntity name P ∨ b.HasEntity name P :=
  exists_key_upsertAll_iff Entity.retype_name hP

/-- A merge tells what either of its sides tells. -/
theorem tells_merge (a b : Catalog) (f : Fact) : (a.merge b).Tells f ↔ a.Tells f ∨ b.Tells f := by
  have hvariation : ∀ (v : Text) (b b' : Branch), v ∈ (b.absorb b').variations ↔ v ∈ b.variations ∨ v ∈ b'.variations :=
    fun _ _ _ => mem_unite
  cases f with
  | template name => exact hasTemplate_merge (fun _ _ => by simp) a b
  | variation name v => exact hasTemplate_merge (fun _ _ => mem_unite) a b
  | branch name condition => exact hasTemplate_merge (Template.hasBranch_merge fun _ _ => by simp) a b
  | branchVariation name condition v => exact hasTemplate_merge (Template.hasBranch_merge (hvariation v)) a b
  | entity name => exact hasEntity_merge (fun _ _ => by simp) a b
  | declared name => exact hasEntity_merge Entity.retype_declared a b
  | reference target => exact mem_unite

/-- The type of an entity in a merge comes from an entity of its name on either side. -/
theorem type_of_merge {a b : Catalog} {type : EntityType} (h : (a.merge b).HasEntity name (·.type = type)) :
    a.HasEntity name (·.type = type) ∨ b.HasEntity name (·.type = type) := by
  refine exists_key_of_upsertAll Entity.retype_name ?_ h
  rintro e e' rfl
  exact (e.retype_type e').imp Eq.symm Eq.symm

/-! ## Merging one after the other -/

theorem tells_foldl_merge (cs : List Catalog) (c : Catalog) (f : Fact) :
    (cs.foldl merge c).Tells f ↔ c.Tells f ∨ ∃ d ∈ cs, d.Tells f := by
  induction cs generalizing c with
  | nil => simp
  | cons d cs ih => rw [List.foldl_cons, ih, tells_merge, or_assoc, List.exists_mem_cons_iff]

theorem not_tells_empty (f : Fact) : ¬ Tells {} f := by
  cases f <;> simp [Tells, HasTemplate, HasEntity]

theorem type_of_foldl_merge {type : EntityType} (cs : List Catalog) (c : Catalog)
    (h : (cs.foldl merge c).HasEntity name (·.type = type)) :
    c.HasEntity name (·.type = type) ∨ ∃ d ∈ cs, d.HasEntity name (·.type = type) := by
  induction cs generalizing c with
  | nil => exact .inl h
  | cons d cs ih =>
    rcases ih _ h with h | ⟨d', hd', h⟩
    · rcases type_of_merge h with h | h
      · exact .inl h
      · exact .inr ⟨d, List.mem_cons_self, h⟩
    · exact .inr ⟨d', List.mem_cons_of_mem d hd', h⟩

theorem Distinct.foldl_merge {cs : List Catalog} (hcs : ∀ c ∈ cs, c.Distinct) {c : Catalog} (hc : c.Distinct) :
    (cs.foldl Catalog.merge c).Distinct :=
  List.foldlRecOn (motive := Catalog.Distinct) cs Catalog.merge hc fun _ hb d hd => hb.merge (hcs d hd)

end Catalog

/-! ## The same content -/

/-- Templates with the same variations, and with branches of the same conditions that have the same
variations, each in any order. -/
structure Template.SameContent (t u : Template) : Prop where
  variations : ∀ v, v ∈ t.variations ↔ v ∈ u.variations
  conditions : ∀ q, q ∈ t.branches.map Branch.condition ↔ q ∈ u.branches.map Branch.condition
  branches : ∀ {q b b'}, t.branch? q = some b → u.branch? q = some b' → ∀ v, v ∈ b.variations ↔ v ∈ b'.variations

/-- Catalogs with the same names of templates and of entities, the same content of each template and
the same references, each in any order. -/
structure Catalog.SameContent (a b : Catalog) : Prop where
  names : ∀ n, n ∈ a.templates.map Template.name ↔ n ∈ b.templates.map Template.name
  templates : ∀ {n t u}, a.template? n = some t → b.template? n = some u → t.SameContent u
  entities : ∀ n, n ∈ a.entities.map Entity.name ↔ n ∈ b.entities.map Entity.name
  references : ∀ r, r ∈ a.references ↔ r ∈ b.references

theorem Template.hasBranch_iff {t : Template} (ht : t.Distinct) {q : Text} {b : Branch} (hb : t.branch? q = some b)
    {P : Branch → Prop} : t.HasBranch q P ↔ P b :=
  exists_key_iff ht.conditions (fun _ => beq_iff_eq) hb

namespace Catalog

variable {a b : Catalog} {n : Text}

theorem hasTemplate_iff (ha : a.Distinct) {t : Template} (ht : a.template? n = some t) {P : Template → Prop} :
    a.HasTemplate n P ↔ P t :=
  exists_key_iff ha.templates (fun _ => beq_iff_eq) ht

theorem hasEntity_iff (ha : a.Distinct) {e : Entity} (he : a.entity? n = some e) {P : Entity → Prop} :
    a.HasEntity n P ↔ P e :=
  exists_key_iff ha.entities (fun _ => beq_iff_eq) he

/-- Where nothing is listed twice, catalogs that tell the same have the same content. -/
theorem SameContent.of_tells (ha : a.Distinct) (hb : b.Distinct) (h : ∀ f, a.Tells f ↔ b.Tells f) :
    a.SameContent b := by
  have hname : ∀ (c : Catalog) (n : Text), n ∈ c.templates.map Template.name ↔ c.Tells (.template n) := by
    simp [Tells, HasTemplate]
  have hentity : ∀ (c : Catalog) (n : Text), n ∈ c.entities.map Entity.name ↔ c.Tells (.entity n) := by
    simp [Tells, HasEntity]
  have hcondition : ∀ (t : Template) (q : Text),
      q ∈ t.branches.map Branch.condition ↔ t.HasBranch q fun _ => True := by
    simp [Template.HasBranch]
  constructor
  · intro n
    rw [hname, hname, h]
  · intro n t u ht hu
    have hdistinct : t.Distinct ∧ u.Distinct := ⟨ha.template? ht, hb.template? hu⟩
    constructor
    · intro v
      have hv := h (.variation n v)
      rwa [Tells, Tells, hasTemplate_iff ha ht, hasTemplate_iff hb hu] at hv
    · intro q
      have hq := h (.branch n q)
      rwa [Tells, Tells, hasTemplate_iff ha ht, hasTemplate_iff hb hu, ← hcondition, ← hcondition] at hq
    · intro q p p' hp hp' v
      have hv := h (.branchVariation n q v)
      rwa [Tells, Tells, hasTemplate_iff ha ht, hasTemplate_iff hb hu, Template.hasBranch_iff hdistinct.1 hp,
        Template.hasBranch_iff hdistinct.2 hp'] at hv
  · intro n
    rw [hentity, hentity, h]
  · exact fun r => h (.reference r)

/-- Whether the entities of a name have at most one type other than unresolved. -/
def OneType (cs : List Catalog) (n : Text) : Prop :=
  ∃ type, ∀ c ∈ cs, ∀ e ∈ c.entities, e.name = n → e.type = .unresolved ∨ e.type = type

section Perm

variable {cs cs' : List Catalog}

theorem tells_foldl_merge_perm (hperm : cs.Perm cs') (f : Fact) :
    (cs.foldl merge {}).Tells f ↔ (cs'.foldl merge {}).Tells f := by
  simp only [tells_foldl_merge, not_tells_empty, false_or, hperm.mem_iff]

theorem Distinct.of_perm (hcs : ∀ c ∈ cs, c.Distinct) (hperm : cs.Perm cs') : ∀ c ∈ cs', c.Distinct :=
  fun c hc => hcs c (hperm.mem_iff.2 hc)

theorem SameContent.of_perm (hcs : ∀ c ∈ cs, c.Distinct) (hperm : cs.Perm cs') :
    (cs.foldl merge {}).SameContent (cs'.foldl merge {}) :=
  .of_tells (.foldl_merge hcs .empty) (.foldl_merge (Distinct.of_perm hcs hperm) .empty) (tells_foldl_merge_perm hperm)

/-- The type of an entity in a merge is one that some catalog of the list has for its name. -/
theorem exists_type_of_foldl_merge (hcs : ∀ c ∈ cs, c.Distinct) {e : Entity}
    (he : (cs.foldl merge {}).entity? n = some e) : ∃ c ∈ cs, c.HasEntity n (·.type = e.type) := by
  have hd : (cs.foldl merge {}).Distinct := .foldl_merge hcs .empty
  rcases type_of_foldl_merge cs {} ((hasEntity_iff hd he).2 rfl) with ⟨_, hnone, -⟩ | h
  · cases hnone
  · exact h

/-- Where one type is declared for a name, its entity has that type in any order, and else it is
unresolved in any. -/
theorem OneType.type_eq (hone : OneType cs n) (hcs : ∀ c ∈ cs, c.Distinct) (hperm : cs.Perm cs') {e e' : Entity}
    (he : (cs.foldl merge {}).entity? n = some e) (he' : (cs'.foldl merge {}).entity? n = some e') :
    e.type = e'.type := by
  have hcs' := Distinct.of_perm hcs hperm
  have hdeclared : e.type ≠ .unresolved ↔ e'.type ≠ .unresolved := by
    have h := tells_foldl_merge_perm hperm (.declared n)
    rwa [Tells, Tells, hasEntity_iff (.foldl_merge hcs .empty) he, hasEntity_iff (.foldl_merge hcs' .empty) he'] at h
  by_cases hunresolved : e.type = .unresolved
  · rw [hunresolved, not_not.1 (mt hdeclared.2 (not_not.2 hunresolved))]
  · -- both types come from the list, and there is one only
    obtain ⟨type, hone⟩ := hone
    obtain ⟨c, hc, d, hd, hdn, htype⟩ := exists_type_of_foldl_merge hcs he
    obtain ⟨c', hc', d', hd', hdn', htype'⟩ := exists_type_of_foldl_merge hcs' he'
    have h := hone c hc d hd hdn
    have h' := hone c' (hperm.mem_iff.2 hc') d' hd' hdn'
    rw [htype] at h
    rw [htype'] at h'
    exact (h.resolve_left hunresolved).trans (h'.resolve_left (hdeclared.1 hunresolved)).symm

/-- The order in which catalogs are merged into the empty one changes nothing but the order in which
names, variations, branches and references are listed. The type of an entity does not change either,
unless different types are declared for its name. -/
theorem foldl_merge_perm (hcs : ∀ c ∈ cs, c.Distinct) (hperm : cs.Perm cs') :
    let a := cs.foldl merge {}
    let b := cs'.foldl merge {}
    a.Distinct ∧ b.Distinct ∧ a.SameContent b ∧
      ∀ {n e e'}, OneType cs n → a.entity? n = some e → b.entity? n = some e' → e.type = e'.type := by
  intro a b
  refine ⟨.foldl_merge hcs .empty, .foldl_merge (Distinct.of_perm hcs hperm) .empty, .of_perm hcs hperm, ?_⟩
  intro n e e' hone he he'
  exact hone.type_eq hcs hperm he he'

end Perm

/-- The catalogs share a template with a branch, an entity that only one of them declares, and a
reference. -/
theorem foldl_merge_perm_shared :
    let a : Catalog := ⟨[⟨"t".toList, ["x".toList], [⟨"p".toList, ["1".toList]⟩]⟩],
      [⟨"n".toList, .unresolved, []⟩, ⟨"m".toList, .int, []⟩], ["r".toList]⟩
    let b : Catalog := ⟨[⟨"t".toList, ["y", "x"].map String.toList, [⟨"q".toList, []⟩, ⟨"p".toList, ["2".toList]⟩]⟩],
      [⟨"n".toList, .bool, []⟩], ["s", "r"].map String.toList⟩
    (∀ c ∈ [a, b], c.Distinct) ∧ OneType [a, b] "n".toList ∧ [a, b].foldl merge {} ≠ [b, a].foldl merge {} ∧
      ([a, b].foldl merge {}).SameContent ([b, a].foldl merge {}) ∧
      (([a, b].foldl merge {}).entity? "n".toList).map Entity.type =
        (([b, a].foldl merge {}).entity? "n".toList).map Entity.type := by
  intro a b
  have hdistinct : ∀ c ∈ [a, b], c.Distinct := by decide +kernel
  have hone : OneType [a, b] "n".toList := ⟨.bool, by decide +kernel⟩
  obtain ⟨-, -, hsame, htype⟩ := foldl_merge_perm hdistinct (List.Perm.swap b a [])
  refine ⟨hdistinct, hone, by decide +kernel, hsame, ?_⟩
  obtain ⟨e, he⟩ : ∃ e, ([a, b].foldl merge {}).entity? "n".toList = some e := ⟨_, rfl⟩
  obtain ⟨e', he'⟩ : ∃ e, ([b, a].foldl merge {}).entity? "n".toList = some e := ⟨_, rfl⟩
  rw [he, he', Option.map_some, Option.map_some, htype hone he he']

end Catalog

end LangGen
