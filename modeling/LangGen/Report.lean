/-
Reports: failures on their way to a user. The places that callers tell them are shared, so they are
told by number. A report keeps the first place that it is told, and what it is told later is filled
in there, in the sight of all who hold that place. Its message is made when the report is made, and
again each time that it is told a place.
-/
import LangGen.Fault

namespace LangGen

/-- The places that callers hold, by number. -/
abbrev Places := Nat → Place

/-- The places, of which one is another now. -/
def Places.put (ps : Places) (i : Nat) (p : Place) : Places := fun j => if j = i then p else ps j

/-- A failure on its way to a user. -/
structure Report where
  fault : Fault
  /-- The place that it holds. -/
  place : Option Nat
  /-- The message that was made last. -/
  message : Text
  deriving DecidableEq, Repr

namespace Report

/-- The failure that a report stands for. -/
def failure (ps : Places) (r : Report) : Failure := ⟨r.fault, r.place.map ps⟩

/-- The report with its message made again. -/
def remake (ps : Places) (r : Report) : Report := { r with message := (r.failure ps).message }

/-- A new report, which may hold a place from the start. -/
def make (ps : Places) (fault : Fault) (place : Option Nat) : Report := remake ps ⟨fault, place, []⟩

/-- Tells a report a place: it becomes the place of the report, or else what it knows is filled in. -/
def tell (s : Places × Report) (i : Nat) : Places × Report :=
  match s.2.place with
  | none => (s.1, remake s.1 { s.2 with place := some i })
  | some own =>
    let ps := s.1.put own ((s.1 own).orElse (s.1 i))
    (ps, remake ps s.2)

/-- A new report that is told places one after the other. -/
def told (ps : Places) (fault : Fault) (place : Option Nat) (later : List Nat) : Places × Report :=
  later.foldl tell (ps, make ps fault place)

/-- What is passed on of a report: its code and its text, without a place. -/
def entries (r : Report) : List (Text × Text) :=
  [("errCode".toList, r.fault.code.text), ("text".toList, r.fault.text)]

end Report

end LangGen
