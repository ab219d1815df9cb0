/-
Catalogs that are read into, merged and changed side by side, in any order. What holds of the empty
catalog and is kept by the effect of a chunk and by a merge holds in every slot after any run
(`Shelf.run_keeps`); a failure only ends the reading that it stands in.
-/
import LangGen.Proofs.Catalog.Reading

namespace LangGen

/-- Catalogs by the slot that each stands in. -/
abbrev Shelf := Nat → Catalog

namespace Shelf

/-- Before the first operation. -/
def empty : Shelf := fun _ => {}

/-- The shelf with another catalog in one slot. -/
def put (s : Shelf) (slot : Nat) (c : Catalog) : Shelf := fun i => if i = slot then c else s i

/-- An operation on whole catalogs. What a failed reading has stored stays stored. -/
inductive Step
  | readChunks (slot : Nat) (strict : Bool) (source : Option Text) (chunks : List Text)
  | readContent (slot : Nat) (strict : Bool) (source : Option Text) (content : Text)
  /-- The catalog of a slot takes in the one of another slot, or its own. -/
  | merge (slot other : Nat)

/-- An operation on catalogs or on the templates and branches in them, which are found by name and
by condition. -/
inductive Edit
  | onCatalogs (step : Step)
  | mergeTemplate (slot : Nat) (name : Text) (other : Nat) (otherName : Text)
  | addVariation (slot : Nat) (name v : Text)
  | addBranchVariation (slot : Nat) (name condition v : Text)

def Step.apply (s : Shelf) : Step → Shelf
  | .readChunks slot strict source chunks =>
    s.put slot (Catalog.readChunks strict source (s slot) chunks).state
  | .readContent slot strict source content =>
    s.put slot (Catalog.readContent strict source (s slot) content).state
  | .merge slot other => s.put slot ((s slot).merge (s other))

def Edit.apply (s : Shelf) : Edit → Shelf
  | .onCatalogs step => step.apply s
  | .mergeTemplate slot name other otherName =>
    match (s other).template? otherName with
    | some t => s.put slot ((s slot).onTemplate name (·.merge t))
    | none => s
  | .addVariation slot name v => s.put slot ((s slot).onTemplate name (·.addVariation v))
  | .addBranchVariation slot name condition v =>
    s.put slot ((s slot).onTemplate name (·.onBranch condition (·.addVariation v)))

/-- The catalogs after some steps. -/
def run (steps : List Step) : Shelf := steps.foldl Step.apply empty

/-- The catalogs after some edits. -/
def edited (edits : List Edit) : Shelf := edits.foldl Edit.apply empty

/-! ## What runs keep -/

variable {P : Catalog → Prop} {s : Shelf}

theorem put_keeps (hs : ∀ i, P (s i)) (slot : Nat) {c : Catalog} (hc : P c) :
    ∀ i, P (s.put slot c i) := by
  intro i
  unfold put
  split
  · exact hc
  · exact hs i

theorem Step.apply_keeps (heffect : ∀ strict c c', P c → Catalog.Effect strict c c' → P c')
    (hmerge : ∀ c other, P c → P other → P (c.merge other)) (step : Step) (hs : ∀ i, P (s i)) :
    ∀ i, P (step.apply s i) := by
  cases step with
  | readChunks slot strict source chunks =>
    exact put_keeps hs slot (Catalog.readChunks_keeps (heffect strict) source (hs slot) chunks)
  | readContent slot strict source content =>
    exact put_keeps hs slot (Catalog.readChunks_keeps (heffect strict) source (hs slot) _)
  | merge slot other => exact put_keeps hs slot (hmerge _ _ (hs slot) (hs other))

theorem run_keeps (h0 : P {}) (heffect : ∀ strict c c', P c → Catalog.Effect strict c c' → P c')
    (hmerge : ∀ c other, P c → P other → P (c.merge other)) (steps : List Step) (slot : Nat) :
    P (run steps slot) := by
  have hrun : ∀ i, P (run steps i) := by
    apply List.foldlRecOn (motive := fun s : Shelf => ∀ i, P (s i)) steps _ (fun _ => h0)
    intro s hs step _
    exact step.apply_keeps heffect hmerge hs
  exact hrun slot

end Shelf

end LangGen
