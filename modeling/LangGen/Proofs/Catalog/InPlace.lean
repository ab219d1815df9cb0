/-
Merging in place. A merge goes through the lists of the other catalog item by item while it changes
its own, and the two catalogs may be one: then the lists that it goes through are the lists that it
changes. The other catalog is therefore read anew at every item, as what it is once the catalog is
`c`. For a catalog that stays as it is the loops compute `Catalog.merge` (`mergeInPlace_other`). For
the catalog itself they end as well and leave it alone (`mergeInPlace_self`): each item that they
come to is there already, so no list grows.
-/
import LangGen.Proofs.Catalog.Merge
import Mathlib.Algebra.Order.BigOperators.Group.List
import Mathlib.Algebra.Order.Ring.Nat

namespace LangGen

/-! ## Loops over lists that change -/

section Walk

variable {σ α : Type}

/-- Goes through a list that the steps may change: at each place it takes the item that stands there
when its turn comes. `none` when the end is not reached within `fuel` rounds. -/
def walk (items : σ → List α) (step : Nat → σ → α → Option σ) : Nat → Nat → σ → Option σ
  | 0, _, _ => none
  | fuel + 1, place, s =>
    match (items s)[place]? with
    | none => some s
    | some x => (step place s x).bind (walk items step fuel (place + 1))

/-- Over a list that stays as it is, a loop is a fold. -/
theorem walk_const {xs : List α} {step : Nat → σ → α → Option σ} {f : σ → α → σ}
    (hstep : ∀ i s x, xs[i]? = some x → step i s x = some (f s x)) :
    ∀ {fuel place : Nat} (s : σ), xs.length < fuel + place →
      place ≤ xs.length → walk (fun _ => xs) step fuel place s = some ((xs.drop place).foldl f s)
  | 0, place, s, h, hp => by omega
  | fuel + 1, place, s, h, hp => by
    unfold walk
    cases hx : xs[place]? with
    | none => rw [List.drop_eq_nil_iff.2 (List.getElem?_eq_none_iff.1 hx)]; rfl
    | some x =>
      obtain ⟨hlt, rfl⟩ := List.getElem?_eq_some_iff.1 hx
      dsimp only
      rw [hstep place s _ hx, Option.bind_some, walk_const hstep _ (by omega) hlt,
        List.drop_eq_getElem_cons hlt, List.foldl_cons]

/-- A loop whose steps change nothing ends with what it started from. -/
theorem walk_fixed {items : σ → List α} {step : Nat → σ → α → Option σ} {s : σ}
    (hstep : ∀ i x, (items s)[i]? = some x → step i s x = some s) :
    ∀ {fuel place : Nat}, (items s).length < fuel + place → place ≤ (items s).length →
      walk items step fuel place s = some s
  | 0, place, h, hp => by omega
  | fuel + 1, place, h, hp => by
    unfold walk
    cases hx : (items s)[place]? with
    | none => rfl
    | some x =>
      have hlt := (List.getElem?_eq_some_iff.1 hx).1
      dsimp only
      rw [hstep place x hx, Option.bind_some, walk_fixed hstep (by omega) hlt]

end Walk

/-! ## The loops of a merge -/

/-- How many items a template holds. -/
def Template.size (t : Template) : Nat :=
  t.variations.length + t.branches.length + (t.branches.map (·.variations.length)).sum

theorem Template.branch_size_le (t : Template) {b : Branch} (hb : b ∈ t.branches) :
    b.variations.length ≤ t.size := by
  have hle : b.variations.length ≤ (t.branches.map (·.variations.length)).sum :=
    List.le_sum_of_mem (List.mem_map_of_mem (f := (·.variations.length)) hb)
  unfold size
  omega

namespace Catalog

/-- How many items a catalog holds. -/
def size (c : Catalog) : Nat :=
  c.templates.length + (c.templates.map Template.size).sum + c.entities.length + c.references.length

theorem template_size_le (c : Catalog) {t : Template} (ht : t ∈ c.templates) : t.size ≤ c.size := by
  have hle : t.size ≤ (c.templates.map Template.size).sum := List.le_sum_of_mem (List.mem_map_of_mem ht)
  unfold size
  omega

/-- The variations of the template at a place. -/
def variationsAt (i : Nat) (c : Catalog) : List Text := (c.templates[i]?).elim [] Template.variations

/-- The branches of the template at a place. -/
def branchesAt (i : Nat) (c : Catalog) : List Branch := (c.templates[i]?).elim [] Template.branches

/-- The variations of a branch of the template at a place. -/
def branchVariationsAt (i k : Nat) (c : Catalog) : List Text :=
  ((c.branchesAt i)[k]?).elim [] Branch.variations

section InPlace

-- `other` is the other catalog by what the catalog that is being changed is
variable (other : Catalog → Catalog) (fuel : Nat)

/-- Takes in the branch `k` of the other's template `i`: its variations go to the branch of its
condition, or a copy of it comes last. -/
def mergeBranchInPlace (i : Nat) (name : Text) (k : Nat) (c : Catalog) (b : Branch) : Option Catalog :=
  match (c.template? name).bind (·.branch? b.condition) with
  | none => some (c.onTemplate name fun t => { t with branches := t.branches ++ [b] })
  | some _ =>
    walk (fun c => (other c).branchVariationsAt i k)
      (fun _ c v => some (c.onTemplate name (·.onBranch b.condition (·.addVariation v)))) fuel 0 c

/-- Takes in the other's template `i`: its variations and then its branches go to the template of
its name, or a copy of it comes last. -/
def mergeTemplateInPlace (i : Nat) (c : Catalog) (t : Template) : Option Catalog :=
  match c.template? t.name with
  | none => some { c with templates := c.templates ++ [t] }
  | some _ =>
    (walk (fun c => (other c).variationsAt i)
      (fun _ c v => some (c.onTemplate t.name (·.addVariation v))) fuel 0 c).bind
    (walk (fun c => (other c).branchesAt i) (mergeBranchInPlace other fuel i t.name) fuel 0)

/-- Takes in the other catalog: its templates, its entities and its references, with `fuel` rounds
for each loop. -/
def mergeInPlace (c : Catalog) : Option Catalog :=
  ((walk (fun c => (other c).templates) (mergeTemplateInPlace other fuel) fuel 0 c).bind
    (walk (fun c => (other c).entities) (fun _ c e => some (c.takeEntity e)) fuel 0)).bind
    (walk (fun c => (other c).references) (fun _ c r => some (c.takeReference r)) fuel 0)

end InPlace

/-! ## Another catalog -/

theorem foldl_onTemplate {α : Type} {name : Text} {f : α → Template → Template}
    (hf : ∀ x t, (f x t).name = t.name) (xs : List α) (c : Catalog) :
    xs.foldl (fun c x => c.onTemplate name (f x)) c =
      c.onTemplate name fun t => xs.foldl (fun t x => f x t) t := by
  have hkeeps : ∀ x t, (t.name == name) = true → ((f x t).name == name) = true := by
    intro x t ht; rw [hf]; exact ht
  unfold onTemplate
  rw [← foldl_changeFirst hkeeps]
  exact foldl_part Catalog.templates (fun c ts => { c with templates := ts })
    (fun _ _ => rfl) (fun _ _ _ => rfl) (fun _ => rfl) (fun ts x => changeFirst _ (f x) ts) xs c

end Catalog

theorem Template.foldl_onBranch {condition : Text} {f : Text → Branch → Branch}
    (hf : ∀ v b, (f v b).condition = b.condition) (vs : List Text) (t : Template) :
    vs.foldl (fun t v => t.onBranch condition (f v)) t =
      t.onBranch condition fun b => vs.foldl (fun b v => f v b) b := by
  have hkeeps : ∀ v b, (b.condition == condition) = true → ((f v b).condition == condition) = true := by
    intro v b hb; rw [hf]; exact hb
  unfold onBranch
  rw [← foldl_changeFirst hkeeps]
  exact foldl_part Template.branches (fun t bs => { t with branches := bs })
    (fun _ _ => rfl) (fun _ _ _ => rfl) (fun _ => rfl) (fun bs v => changeFirst _ (f v) bs) vs t

namespace Catalog

variable {other c : Catalog} {fuel i k : Nat} {t : Template} {b : Branch}

theorem onTemplate_congr {name : Text} {f g : Template → Template}
    (h : ∀ t, c.template? name = some t → f t = g t) : c.onTemplate name f = c.onTemplate name g := by
  unfold onTemplate
  rw [changeFirst_congr h]

/-- A branch of a catalog that stays as it is joins the template. -/
theorem mergeBranchInPlace_other {name : Text} (hb : (other.branchesAt i)[k]? = some b)
    (hfuel : b.variations.length < fuel) :
    mergeBranchInPlace (fun _ => other) fuel i name k c b =
      some (c.onTemplate name (·.putBranch b)) := by
  have hp : ∀ b' : Branch, (b'.condition == b.condition) = true ↔ b'.condition = b.condition :=
    fun _ => beq_iff_eq
  unfold mergeBranchInPlace
  split
  · rename_i hnone
    congr 1
    refine onTemplate_congr fun t ht => ?_
    rw [ht, Option.bind_some, Template.branch?, find?_eq_none_iff hp] at hnone
    rw [Template.putBranch, upsert_of_not_mem hnone]
  · rename_i b' hsome
    have hitems : other.branchVariationsAt i k = b.variations := by
      simp [branchVariationsAt, hb]
    dsimp only
    rw [hitems, walk_const (f := fun c v => c.onTemplate name (·.onBranch b.condition (·.addVariation v)))
      (fun _ _ _ _ => rfl) c (by omega) (Nat.zero_le _), List.drop_zero,
      foldl_onTemplate (f := fun v t => t.onBranch b.condition (·.addVariation v)) fun _ _ => rfl]
    congr 1
    refine onTemplate_congr fun t ht => ?_
    rw [ht, Option.bind_some, Template.branch?] at hsome
    have hmem : b.condition ∈ t.branches.map Branch.condition := by
      by_contra hmem
      rw [(find?_eq_none_iff hp).2 hmem] at hsome
      cases hsome
    rw [Template.foldl_onBranch (f := fun v b => b.addVariation v) fun _ _ => rfl, Template.putBranch,
      upsert_eq_changeFirst hmem hp]
    unfold Template.onBranch
    congr 2
    funext b''
    exact b''.foldl_addVariation b.variations

/-- A template of a catalog that stays as it is joins the catalog. -/
theorem mergeTemplateInPlace_other (ht : other.templates[i]? = some t) (hfuel : t.size < fuel) :
    mergeTemplateInPlace (fun _ => other) fuel i c t =
      some (c.takeTemplate t) := by
  have hp : ∀ t' : Template, (t'.name == t.name) = true ↔ t'.name = t.name := fun _ => beq_iff_eq
  have hvariations : other.variationsAt i = t.variations := by simp [variationsAt, ht]
  have hbranches : other.branchesAt i = t.branches := by simp [branchesAt, ht]
  unfold mergeTemplateInPlace
  split
  · rename_i hnone
    rw [takeTemplate, upsert_of_not_mem ((find?_eq_none_iff hp).1 hnone)]
  · rename_i t' hsome
    have hmem : t.name ∈ c.templates.map Template.name := by
      by_contra hmem
      rw [template?, (find?_eq_none_iff hp).2 hmem] at hsome
      cases hsome
    have hbranch : ∀ k c b, t.branches[k]? = some b →
        mergeBranchInPlace (fun _ => other) fuel i t.name k c b =
          some (c.onTemplate t.name (·.putBranch b)) := by
      intro k c b hk
      apply mergeBranchInPlace_other (by rw [hbranches]; exact hk)
      exact (t.branch_size_le (List.mem_of_getElem? hk)).trans_lt hfuel
    have hcount : t.variations.length + t.branches.length ≤ t.size := Nat.le_add_right _ _
    dsimp only
    rw [hvariations, hbranches,
      walk_const (f := fun c v => c.onTemplate t.name (·.addVariation v)) (fun _ _ _ _ => rfl) c
        (by omega) (Nat.zero_le _), Option.bind_some,
      walk_const hbranch _ (by omega) (Nat.zero_le _), List.drop_zero, List.drop_zero,
      foldl_onTemplate (f := fun v t => t.addVariation v) fun _ _ => rfl,
      foldl_onTemplate (f := fun b t => t.putBranch b) fun _ _ => rfl, takeTemplate,
      upsert_eq_changeFirst hmem hp]
    unfold onTemplate
    have hname : ∀ t' : Template, (t'.name == t.name) = true →
        ((t.variations.foldl Template.addVariation t').name == t.name) = true := by
      intro t' ht'
      exact List.foldlRecOn (motive := fun u : Template => (u.name == t.name) = true) t.variations _ ht'
        fun _ hu _ _ => hu
    rw [changeFirst_changeFirst hname]
    simp only [← Template.merge_eq_foldl]

/-- For a catalog that stays as it is, merging in place is merging. -/
theorem mergeInPlace_other (c other : Catalog) (hfuel : other.size < fuel) :
    c.mergeInPlace (fun _ => other) fuel = some (c.merge other) := by
  have htemplate : ∀ i c t, other.templates[i]? = some t →
      mergeTemplateInPlace (fun _ => other) fuel i c t = some (c.takeTemplate t) := fun i c t ht =>
    mergeTemplateInPlace_other ht ((other.template_size_le (List.mem_of_getElem? ht)).trans_lt hfuel)
  unfold size at hfuel
  unfold mergeInPlace
  dsimp only
  rw [walk_const htemplate _ (by omega) (Nat.zero_le _), Option.bind_some,
    walk_const (f := takeEntity) (fun _ _ _ _ => rfl) _ (by omega) (Nat.zero_le _), Option.bind_some,
    walk_const (f := takeReference) (fun _ _ _ _ => rfl) _ (by omega) (Nat.zero_le _), List.drop_zero,
    List.drop_zero, List.drop_zero, ← merge_eq_foldl]

/-! ## The catalog itself -/

theorem onTemplate_fixed {name : Text} {f : Template → Template}
    (h : ∀ t, c.template? name = some t → f t = t) : c.onTemplate name f = c := by
  rw [onTemplate_congr (g := id) h]
  unfold onTemplate
  rw [changeFirst_id]

theorem template?_of_mem (hc : c.Distinct) (ht : t ∈ c.templates) : c.template? t.name = some t :=
  find?_eq_some_of_mem hc.templates ht fun _ => beq_iff_eq

theorem mergeBranchInPlace_self (hc : c.Distinct) (ht : c.templates[i]? = some t)
    (hb : t.branches[k]? = some b) (hfuel : b.variations.length < fuel) :
    mergeBranchInPlace id fuel i t.name k c b = some c := by
  have htemplate := template?_of_mem hc (List.mem_of_getElem? ht)
  have hbranch : t.branch? b.condition = some b :=
    find?_eq_some_of_mem (hc.each t (List.mem_of_getElem? ht)).conditions (List.mem_of_getElem? hb)
      fun _ => beq_iff_eq
  have hitems : (id c).branchVariationsAt i k = b.variations := by
    simp [branchVariationsAt, branchesAt, ht, hb]
  unfold mergeBranchInPlace
  rw [htemplate, Option.bind_some, hbranch]
  apply walk_fixed _ (by rw [hitems]; omega) (Nat.zero_le _)
  intro l v hv
  rw [hitems] at hv
  -- the branch has the variation already
  congr 1
  refine onTemplate_fixed fun t' ht' => ?_
  cases ht'.symm.trans htemplate
  unfold Template.onBranch
  rw [changeFirst_congr (g := id), changeFirst_id]
  intro b' hb'
  cases hb'.symm.trans hbranch
  rw [Branch.addVariation, addNew_of_mem (List.mem_of_getElem? hv)]
  rfl

theorem mergeTemplateInPlace_self (hc : c.Distinct) (ht : c.templates[i]? = some t)
    (hfuel : t.size < fuel) : mergeTemplateInPlace id fuel i c t = some c := by
  have htemplate := template?_of_mem hc (List.mem_of_getElem? ht)
  have hvariations : (id c).variationsAt i = t.variations := by simp [variationsAt, ht]
  have hbranches : (id c).branchesAt i = t.branches := by simp [branchesAt, ht]
  have hcount : t.variations.length + t.branches.length ≤ t.size := Nat.le_add_right _ _
  unfold mergeTemplateInPlace
  rw [htemplate]
  dsimp only
  rw [walk_fixed _ (by rw [hvariations]; omega) (Nat.zero_le _), Option.bind_some,
    walk_fixed _ (by rw [hbranches]; omega) (Nat.zero_le _)]
  · intro k b hb
    rw [hbranches] at hb
    exact mergeBranchInPlace_self hc ht hb ((t.branch_size_le (List.mem_of_getElem? hb)).trans_lt hfuel)
  · intro l v hv
    rw [hvariations] at hv
    congr 1
    refine onTemplate_fixed fun t' ht' => ?_
    cases ht'.symm.trans htemplate
    rw [Template.addVariation, addNew_of_mem (List.mem_of_getElem? hv)]

/-- A catalog that holds nothing twice takes in itself without change, within as many rounds as it
has items. -/
theorem mergeInPlace_self (hc : c.Distinct) (hfuel : c.size < fuel) :
    c.mergeInPlace id fuel = some c := by
  have hcount : c.templates.length + c.entities.length + c.references.length ≤ c.size := by
    unfold size; omega
  unfold mergeInPlace
  rw [walk_fixed _ (by dsimp only [id]; omega) (Nat.zero_le _), Option.bind_some,
    walk_fixed _ (by dsimp only [id]; omega) (Nat.zero_le _), Option.bind_some,
    walk_fixed _ (by dsimp only [id]; omega) (Nat.zero_le _)]
  · intro i r hr
    rw [takeReference, addNew_of_mem (List.mem_of_getElem? (l := c.references) hr)]
  · intro i e he
    rw [takeEntity, upsert_of_mem hc.entities (List.mem_of_getElem? he) e.retype_self]
  · intro i t ht
    exact mergeTemplateInPlace_self hc ht ((c.template_size_le (List.mem_of_getElem? ht)).trans_lt hfuel)

/-! ## The laws -/

/-- Catalogs that hold no name, no condition and no variation twice merge associatively, take in the
same catalog a second time without change, and have the empty catalog as their neutral one: on the
right, and on the left where no reference stands twice. Merged in place they are what merging makes
of them, also with themselves. -/
theorem merge_laws {a b c : Catalog} (ha : a.Distinct) (hb : b.Distinct) (hc : c.Distinct) :
    (a.merge b).merge c = a.merge (b.merge c) ∧
      (a.merge b).merge b = a.merge b ∧
      (∀ fuel, b.size < fuel → a.mergeInPlace (fun _ => b) fuel = some (a.merge b)) ∧
      (∀ fuel, a.size < fuel → a.mergeInPlace id fuel = some a) ∧
      a.merge a = a ∧
      a.merge {} = a ∧
      (a.references.Nodup → Catalog.merge {} a = a) := by
  refine ⟨merge_assoc hb hc a, merge_merge_self hb a, ?_, ?_, merge_self ha, merge_empty a, ?_⟩
  · intro fuel hfuel; exact mergeInPlace_other a b hfuel
  · intro fuel hfuel; exact mergeInPlace_self ha hfuel
  · intro hreferences; exact empty_merge_of_nodup ha hreferences

/-- Catalogs that share a template with a branch, an entity and references. -/
theorem merge_laws_overlapping :
    let a : Catalog :=
      { templates := [⟨"t".toList, ["x".toList], [⟨"p".toList, ["1".toList]⟩]⟩],
        entities := [⟨"n".toList, .int, []⟩],
        references := ["r".toList] }
    let b : Catalog :=
      { templates := [⟨"u".toList, [], [⟨"p".toList, []⟩]⟩,
          ⟨"t".toList, ["y".toList, "x".toList], [⟨"q".toList, []⟩, ⟨"p".toList, ["2".toList]⟩]⟩],
        entities := [⟨"n".toList, .unresolved, []⟩, ⟨"m".toList, .unresolved, [⟨"k".toList, none⟩]⟩],
        references := ["s".toList, "r".toList, "s".toList] }
    let c : Catalog :=
      { templates := [⟨"t".toList, ["z".toList], [⟨"q".toList, ["3".toList]⟩]⟩],
        entities := [⟨"m".toList, .bool, []⟩, ⟨"n".toList, .unresolved, []⟩] }
    (a.Distinct ∧ b.Distinct ∧ c.Distinct ∧ a.references.Nodup) ∧
      (a.merge b).merge c = a.merge (b.merge c) ∧
      a.merge (b.merge c) =
        { templates := [⟨"t".toList, ["x".toList, "y".toList, "z".toList],
            [⟨"p".toList, ["1".toList, "2".toList]⟩, ⟨"q".toList, ["3".toList]⟩]⟩,
            ⟨"u".toList, [], [⟨"p".toList, []⟩]⟩],
          entities := [⟨"n".toList, .int, []⟩, ⟨"m".toList, .bool, [⟨"k".toList, none⟩]⟩],
          references := ["r".toList, "s".toList] } ∧
      (a.merge b).merge b = a.merge b ∧
      a.mergeInPlace (fun _ => b) 14 = some (a.merge b) ∧
      a.mergeInPlace id 7 = some a ∧
      Catalog.merge {} a = a := by
  intro a b c
  have ha : a.Distinct := by decide
  have hb : b.Distinct := by decide
  have hc : c.Distinct := by decide
  obtain ⟨hassoc, hagain, hother, hself, -, -, hempty⟩ := merge_laws ha hb hc
  exact ⟨⟨ha, hb, hc, by decide⟩, hassoc, by decide, hagain, hother 14 (by decide), hself 7 (by decide),
    hempty (by decide)⟩

end Catalog

end LangGen
