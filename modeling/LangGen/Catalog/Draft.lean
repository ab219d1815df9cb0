/-
The template that the lines of a chunk are being read into. Variations go to the template until a
branch opens, and then to that branch; a branch that the template does not have yet joins it when
the next branch opens or the chunk ends.
-/
import LangGen.Catalog.Basic
import LangGen.Condition.Basic

namespace LangGen

/-- Where variations go. -/
inductive Target
  /-- To the template itself. -/
  | template
  /-- To the last of its branches with this condition. -/
  | branch (condition : Text)
  /-- To a new branch that is not among its branches yet. -/
  | fresh (branch : Branch)
  deriving DecidableEq, Repr

/-- A template while its lines are read. -/
structure Draft where
  template : Template
  target : Target := .template
  deriving DecidableEq, Repr

namespace Draft

/-- The draft once a new branch, if there is one, has joined the template. -/
def settle (d : Draft) : Draft :=
  match d.target with
  | .fresh b =>
    ⟨{ d.template with branches := d.template.branches ++ [b] }, .branch b.condition⟩
  | _ => d

/-- Opens a branch: again the last one with this condition, or a new one if the condition is well
formed. The draft settles in either case. -/
def openBranch (d : Draft) (condition : Text) (needsExpression : Bool) :
    Draft × Option Condition.Problem :=
  let d := d.settle
  if d.template.branches.any (·.condition == condition) then
    (⟨d.template, .branch condition⟩, none)
  else
    match Condition.check condition needsExpression with
    | .error p => (d, some p)
    | .ok () => (⟨d.template, .fresh ⟨condition, []⟩⟩, none)

/-- Adds a variation where variations go. -/
def addVariation (d : Draft) (v : Text) : Draft :=
  match d.target with
  | .template => { d with template := d.template.addVariation v }
  | .branch condition =>
    let branches := changeLast (·.condition == condition) (·.addVariation v) d.template.branches
    { d with template := { d.template with branches := branches } }
  | .fresh b => { d with target := .fresh (b.addVariation v) }

end Draft

end LangGen
