/-
The algebra of merging. On catalogs without repeated names and conditions merging is associative,
taking in the same catalog again changes nothing, and the empty catalog is neutral: on the right
always, and on the left for a catalog that lists no reference twice. Each level inherits the laws
from the one below it, through `upsertAll_assoc` and `upsertAll_of_subset`.
-/
import LangGen.Proofs.Catalog.Distinct

namespace LangGen

/-! ## Members -/

theorem Entity.retype_name (e e' : Entity) : (e.retype e').name = e.name := by
  unfold retype; split <;> rfl

theorem Entity.retype_self (e : Entity) : e.retype e = e := by
  unfold retype; split <;> rfl

theorem Entity.retype_assoc (e e' e'' : Entity) : (e.retype e').retype e'' = e.retype (e'.retype e'') := by
  by_cases h' : e'.type = .unresolved <;> by_cases h'' : e''.type = .unresolved <;>
    simp [retype, h', h'']

theorem Branch.absorb_condition (b b' : Branch) : (b.absorb b').condition = b.condition := rfl

theorem Branch.absorb_self (b : Branch) : b.absorb b = b := by
  unfold absorb
  rw [unite_of_subset fun v hv => hv]

theorem Branch.absorb_assoc (b b' b'' : Branch) :
    (b.absorb b').absorb b'' = b.absorb (b'.absorb b'') := by
  unfold absorb
  rw [unite_assoc]

theorem Branch.foldl_addVariation (b : Branch) (vs : List Text) :
    vs.foldl addVariation b = { b with variations := unite b.variations vs } :=
  foldl_part Branch.variations (fun b vs => { b with variations := vs })
    (fun _ _ => rfl) (fun _ _ _ => rfl) (fun _ => rfl) addNew vs b

namespace Template

/-- The template with one more branch: it joins the one of its condition, or it comes last. -/
def putBranch (t : Template) (b : Branch) : Template :=
  { t with branches := upsert Branch.condition Branch.absorb t.branches b }

/-- Merging adds the variations and then the branches, one after the other. -/
theorem merge_eq_foldl (t u : Template) :
    t.merge u = u.branches.foldl putBranch (u.variations.foldl addVariation t) := by
  have hvariations : u.variations.foldl addVariation t =
      { t with variations := unite t.variations u.variations } :=
    foldl_part Template.variations (fun t vs => { t with variations := vs })
      (fun _ _ => rfl) (fun _ _ _ => rfl) (fun _ => rfl) addNew u.variations t
  have hbranches : ∀ t : Template, u.branches.foldl putBranch t =
      { t with branches := upsertAll Branch.condition Branch.absorb t.branches u.branches } :=
    foldl_part Template.branches (fun t bs => { t with branches := bs })
      (fun _ _ => rfl) (fun _ _ _ => rfl) (fun _ => rfl) (upsert Branch.condition Branch.absorb) u.branches
  rw [hvariations, hbranches]
  rfl

theorem merge_name (t u : Template) : (t.merge u).name = t.name := rfl

theorem conditions_merge (t u : Template) : (t.merge u).branches.map Branch.condition =
    unite (t.branches.map Branch.condition) (u.branches.map Branch.condition) :=
  map_key_upsertAll Branch.absorb_condition t.branches u.branches

theorem merge_self {t : Template} (h : (t.branches.map Branch.condition).Nodup) : t.merge t = t := by
  unfold merge
  rw [unite_of_subset fun v hv => hv,
    upsertAll_of_subset h (fun b hb => hb) fun b _ => b.absorb_self]

theorem merge_assoc {u : Template} (h : (u.branches.map Branch.condition).Nodup) (t v : Template) :
    (t.merge u).merge v = t.merge (u.merge v) := by
  unfold merge
  rw [unite_assoc, upsertAll_assoc (P := fun _ => True) Branch.absorb_condition (fun _ _ _ _ => trivial)
    (fun b b' b'' _ => b.absorb_assoc b' b'') h (fun _ _ => trivial) fun _ _ => trivial]

end Template

/-! ## Catalogs -/

namespace Catalog

/-- The catalog with one more template: it joins the one of its name, or it comes last. -/
def takeTemplate (c : Catalog) (t : Template) : Catalog :=
  { c with templates := upsert Template.name Template.merge c.templates t }

/-- The catalog with one more entity: it retypes the one of its name, or it comes last. -/
def takeEntity (c : Catalog) (e : Entity) : Catalog :=
  { c with entities := upsert Entity.name Entity.retype c.entities e }

/-- The catalog with one more reference, unless it has it. -/
def takeReference (c : Catalog) (r : Text) : Catalog := { c with references := addNew c.references r }

/-- Merging takes the templates, the entities and the references, one after the other. -/
theorem merge_eq_foldl (c other : Catalog) : c.merge other =
    other.references.foldl takeReference
      (other.entities.foldl takeEntity (other.templates.foldl takeTemplate c)) := by
  have htemplates : other.templates.foldl takeTemplate c =
      { c with templates := upsertAll Template.name Template.merge c.templates other.templates } :=
    foldl_part Catalog.templates (fun c ts => { c with templates := ts })
      (fun _ _ => rfl) (fun _ _ _ => rfl) (fun _ => rfl) (upsert Template.name Template.merge)
      other.templates c
  have hentities : ∀ c : Catalog, other.entities.foldl takeEntity c =
      { c with entities := upsertAll Entity.name Entity.retype c.entities other.entities } :=
    foldl_part Catalog.entities (fun c es => { c with entities := es })
      (fun _ _ => rfl) (fun _ _ _ => rfl) (fun _ => rfl) (upsert Entity.name Entity.retype) other.entities
  have hreferences : ∀ c : Catalog, other.references.foldl takeReference c =
      { c with references := unite c.references other.references } :=
    foldl_part Catalog.references (fun c rs => { c with references := rs })
      (fun _ _ => rfl) (fun _ _ _ => rfl) (fun _ => rfl) addNew other.references
  rw [htemplates, hentities, hreferences]
  rfl

variable {a b c : Catalog}

theorem templates_merge_assoc {us vs : List Template} (hnames : (us.map Template.name).Nodup)
    (hus : ∀ u ∈ us, (u.branches.map Branch.condition).Nodup)
    (hvs : ∀ v ∈ vs, (v.branches.map Branch.condition).Nodup) (ts : List Template) :
    upsertAll Template.name Template.merge (upsertAll Template.name Template.merge ts us) vs =
      upsertAll Template.name Template.merge ts (upsertAll Template.name Template.merge us vs) := by
  refine upsertAll_assoc (P := fun u => (u.branches.map Branch.condition).Nodup) Template.merge_name ?_ ?_
    hnames hus hvs ts
  · intro u v hu _
    rw [Template.conditions_merge]
    exact nodup_unite hu _
  · intro t u v hu; exact Template.merge_assoc hu t v

theorem merge_assoc (hb : b.Distinct) (hc : c.Distinct) (a : Catalog) :
    (a.merge b).merge c = a.merge (b.merge c) := by
  unfold merge
  rw [templates_merge_assoc hb.templates (fun t ht => (hb.each t ht).conditions)
      (fun t ht => (hc.each t ht).conditions), unite_assoc,
    upsertAll_assoc (P := fun _ => True) Entity.retype_name (fun _ _ _ _ => trivial)
      (fun e e' e'' _ => e.retype_assoc e' e'') hb.entities (fun _ _ => trivial) fun _ _ => trivial]

theorem merge_self (ha : a.Distinct) : a.merge a = a := by
  unfold merge
  rw [upsertAll_of_subset ha.templates (fun t ht => ht) fun t ht => Template.merge_self (ha.each t ht).conditions,
    upsertAll_of_subset ha.entities (fun e he => he) fun e _ => e.retype_self,
    unite_of_subset fun r hr => hr]

/-- Taking in the same catalog again changes nothing. -/
theorem merge_merge_self (hb : b.Distinct) (a : Catalog) : (a.merge b).merge b = a.merge b := by
  rw [merge_assoc hb hb, merge_self hb]

theorem merge_empty (a : Catalog) : a.merge {} = a := rfl

/-- The empty catalog takes in another one as it is, but for references that it lists again. -/
theorem empty_merge (ha : a.Distinct) :
    Catalog.merge {} a = { a with references := unite [] a.references } := by
  unfold merge
  rw [upsertAll_nil_of_nodup ha.templates, upsertAll_nil_of_nodup ha.entities]

theorem empty_merge_of_nodup (ha : a.Distinct) (h : a.references.Nodup) : Catalog.merge {} a = a := by
  rw [empty_merge ha, unite_nil_of_nodup h]

end Catalog

end LangGen
