/-
The check of a condition by descent: a procedure for each construct takes the tokens of the
construct, one after the other, and looks at the next token to see how to go on. A token is taken
from its position without asking whether there is one; if there is none the check is stranded, which
is an ending apart from a condition that is refused. How deeply procedures may call each other is
limited by the stack of the machine that performs them, which does not grow with the condition: the
check of a condition that nests more deeply ends there.
-/
import LangGen.Condition.Basic
import LangGen.Fault

namespace LangGen.Condition

/-! ## Words -/

/-- Between the parts of a disjunction. -/
def orWords : List Text := [Operator.disj.text, "or".toList]

/-- Between the parts of a conjunction. -/
def andWords : List Text := [Operator.conj.text, "and".toList]

def notWords : List Text := [Operator.neg.text, "not".toList]

def comparisonWords : List Text :=
  [Operator.equal.text, Operator.notEqual.text, Operator.less.text, Operator.atMost.text, Operator.greater.text,
    Operator.atLeast.text]

def sumWords : List Text := [Operator.plus.text, Operator.minus.text]

def productWords : List Text := [Operator.times.text, Operator.divide.text, Operator.modulo.text]

/-- Names that stand for values. -/
def constantWords : List Text := ["true".toList, "false".toList, "null".toList]

/-- Names that are reserved. -/
def keywords : List Text := constantWords ++ ["and".toList, "or".toList, "not".toList]

namespace Descent

/-! ## Steps -/

/-- Why a check ends before its time. -/
inductive Stop
  /-- The condition is refused for a reason. -/
  | refused (why : Text)
  /-- A token was to be taken where there is none. -/
  | stranded
  /-- A procedure was to be called where there is no room left for a call. -/
  | tooDeep
  deriving DecidableEq, Repr

/-- Where a check stands. -/
structure Cursor where
  /-- How many tokens have been taken. -/
  position : Nat := 0
  /-- The positions of which a token was to be taken, the last one first. -/
  asked : List Nat := []
  deriving DecidableEq, Repr

/-- Once the token at the position has been taken. -/
def Cursor.next (c : Cursor) : Cursor := ⟨c.position + 1, c.position :: c.asked⟩

/-- A part of a check. -/
abbrev Step := EStateM Stop Cursor

/-- Refuses the condition. -/
def refuse {α : Type} (why : Text) : Step α := throw (.refused why)

/-- What is reported of a token that stands where an operand must. -/
def noOperand (found : Text) : Text := "operator '".toList ++ found ++ "' is missing an operand".toList

variable (ts : List Token)

/-- The text of the next token, if there is one. -/
def peek : Step (Option Text) := do return ts[(← get).position]?.map Token.text

/-- Whether the next token is one of these words. -/
def sees (words : List Text) : Step Bool := do return (← peek ts).any (words.contains ·)

/-- Takes the next token. -/
def advance : Step Token := fun c =>
  match ts[c.position]? with
  | some t => .ok t c.next
  | none => .error .stranded { c with asked := c.position :: c.asked }

/-- Takes the next token and goes on one way, if it is one of these words, and goes on the other way
if it is not. -/
def ifNext (words : List Text) (yes no : Step Unit) : Step Unit := do
  if ← sees ts words then
    let _ ← advance ts
    yes
  else no

/-- Takes the next token, which must be this operator. -/
def expect (op : Operator) : Step Unit := do
  let found ← peek ts
  if found = some op.text then
    let _ ← advance ts
  else
    refuse ("expected '".toList ++ op.text ++ "' but found '".toList ++
      (Place.known? found).getD "end of expression".toList ++ ['\''])

/-- Takes the next token, which must be there, and goes on with it. -/
def operand (read : Token → Step Unit) : Step Unit := do
  if ts.length ≤ (← get).position then refuse "unexpected end of expression".toList
  else read (← advance ts)

/-- Reads an item after each of these words, in so many rounds at most. -/
def rounds (words : List Text) (item : Step Unit) : Nat → Step Unit
  | 0 => pure ()
  | k + 1 => ifNext ts words (do item; rounds words item k) (pure ())

/-- Reads items with words between them. The loop ends before its rounds do: each of them takes a
token. -/
def series (words : List Text) (item : Step Unit) : Step Unit := do
  item
  rounds ts words item ts.length

/-! ## Procedures -/

/-- The procedures, one for each construct. -/
inductive Procedure
  | disjunction | conjunction | negation | comparison | sum | product | signed | primary
  /-- The arguments of a call, with the parentheses around them. -/
  | arguments
  deriving DecidableEq, Repr

/-- Performs a procedure where there is room for so many calls, each within the one before. A loop
stays within the call of its procedure. -/
def perform : Nat → Procedure → Step Unit
  | 0, _ => throw .tooDeep
  | n + 1, .disjunction => series ts orWords (perform n .conjunction)
  | n + 1, .conjunction => series ts andWords (perform n .negation)
  | n + 1, .negation => ifNext ts notWords (perform n .negation) (perform n .comparison)
  | n + 1, .comparison => do
    perform n .sum
    ifNext ts comparisonWords
      (do
        perform n .sum
        if ← sees ts comparisonWords then refuse "chained comparisons are not allowed".toList)
      (pure ())
  | n + 1, .sum => series ts sumWords (perform n .product)
  | n + 1, .product => series ts productWords (perform n .signed)
  | n + 1, .signed => ifNext ts [Operator.minus.text] (perform n .signed) (perform n .primary)
  | n + 1, .primary => operand ts fun t =>
    match t with
    | .number _ | .string _ | .reference _ => pure ()
    | .name s => do
      if constantWords.contains s then pure ()
      else if keywords.contains s then refuse (noOperand s)
      else if ← sees ts [Operator.openParen.text] then perform n .arguments
    | .operator op => do
      if op.text = Operator.openParen.text then
        perform n .disjunction
        expect ts .closeParen
      else refuse (noOperand op.text)
  | n + 1, .arguments => do
    expect ts .openParen
    ifNext ts [Operator.closeParen.text] (pure ()) (do
      series ts [Operator.comma.text] (perform n .disjunction)
      expect ts .closeParen)

/-- Checks that the tokens form one expression, where there is room for so many calls of procedures. -/
def check (room : Nat) : Step Unit := do
  if ts.isEmpty then refuse "empty expression".toList
  else
    perform ts room .disjunction
    match ← peek ts with
    | some found => refuse ("unexpected token '".toList ++ found ++ ['\''])
    | none => pure ()

end Descent

/-! ## Texts -/

/-- The result of a part of a check, from the first token on. -/
def Descent.result (step : Descent.Step Unit) : Except Descent.Stop Unit :=
  match step {} with
  | .ok _ _ => .ok ()
  | .error e _ => .error e

/-- Checks the text of a branch by descent. The room is what the procedures find when they begin;
only they get deeper with the text. -/
def checkByDescent (room : Nat) (text : Text) (needsExpression : Bool) : Except Descent.Stop Unit :=
  if needsExpression then
    match tokens (stripBraces text) with
    | .error c => .error (.refused (Problem.strayCharacter c).message)
    | .ok ts => Descent.result (Descent.check ts room)
  else (checkDefault text).mapError fun p => .refused p.message

end LangGen.Condition
