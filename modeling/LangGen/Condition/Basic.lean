/-
Conditions of branches. The text of a branch with a condition is an expression, in one pair of
braces or without; the default branch carries no text besides the word that opens it.
-/
import LangGen.Condition.Checker
import LangGen.Line.Marker

namespace LangGen.Condition

/-- Whether, with `depth` braces open, the last of them closes before the end of the text. -/
def closesEarly (depth : Nat) : Text → Bool
  | [] => false
  | c :: r =>
    if c = '{' then closesEarly (depth + 1) r
    else if c = '}' then (depth == 1 && !r.isEmpty) || closesEarly (depth - 1) r
    else closesEarly depth r

/-- The trimmed text without the pair of braces around all of it, if there is one. -/
def stripBraces (text : Text) : Text :=
  let s := Text.trim text
  if s.head? = some '{' ∧ s.getLast? = some '}' ∧ closesEarly 0 s = false then
    Text.trim s.tail.dropLast
  else s

/-- Checks the text of a branch with a condition. -/
def checkCondition (text : Text) : Except Problem Unit := checkExpression (stripBraces text)

/-- Checks the text of the default branch. -/
def checkDefault (text : Text) : Except Problem Unit :=
  let s := Text.trim text
  let residue := (Text.after? Line.elseWord s).elim s Text.trim
  if residue.isEmpty then .ok () else .error (.defaultText residue)

/-- Checks the text of a branch, by whether it needs an expression. -/
def check (text : Text) (needsExpression : Bool) : Except Problem Unit :=
  if needsExpression then checkCondition text else checkDefault text

end LangGen.Condition
