/-
The check of a condition's tokens: one pass from left to right with the parentheses that are open.
An expression is a disjunction of conjunctions of negated or plain comparisons of arithmetic terms;
a comparison has at most one comparison operator, and a name may be called with arguments.
-/
import LangGen.Condition.Problem

namespace LangGen.Condition

/-! ## Roles of tokens -/

/-- What a token can be, apart from where it stands. -/
inductive Role
  /-- A number, a string, a reference or one of `true`, `false` and `null`. -/
  | literal
  /-- A name that is not reserved; it may be called. -/
  | identifier
  /-- `||`, `&&`, `or`, `and`. -/
  | connective
  /-- `!` or `not`. -/
  | negation
  | comparison
  /-- `+`, `*`, `/`, `%`. -/
  | arithmetic
  /-- Between two operands or in front of one. -/
  | minus
  | openParen
  | closeParen
  | comma
  deriving DecidableEq, Repr

/-- The role of an operator. -/
def Operator.role : Operator → Role
  | equal | notEqual | atMost | atLeast | less | greater => .comparison
  | conj | disj => .connective
  | neg => .negation
  | plus | times | divide | modulo => .arithmetic
  | minus => .minus
  | openParen => .openParen
  | closeParen => .closeParen
  | comma => .comma

/-- The role of a name: six names are reserved. -/
def nameRole (s : Text) : Role :=
  if s = ['t', 'r', 'u', 'e'] ∨ s = ['f', 'a', 'l', 's', 'e'] ∨ s = ['n', 'u', 'l', 'l'] then .literal
  else if s = ['o', 'r'] ∨ s = ['a', 'n', 'd'] then .connective
  else if s = ['n', 'o', 't'] then .negation
  else .identifier

/-- The role of a token. -/
def Token.role : Token → Role
  | reference _ | number _ | string _ => .literal
  | operator op => op.role
  | name s => nameRole s

/-! ## The pass -/

/-- Where the reading stands. -/
inductive Mode
  /-- An operand must come; `negatable` tells that a negation may come first. -/
  | operand (negatable : Bool)
  /-- The parenthesis of a call has just opened: an operand must come, or its end. -/
  | argument
  /-- An operand is complete; `callable` tells that it is a name that may be called. -/
  | operator (callable : Bool)
  deriving DecidableEq, Repr

/-- An open parenthesis: whether it belongs to a call, and whether the expression around it has
already compared. -/
structure Frame where
  call : Bool
  compared : Bool
  deriving DecidableEq, Repr

/-- The state of the pass: where it stands, whether a comparison operator has been read since the
last connective, and the open parentheses, innermost first. -/
structure State where
  mode : Mode
  compared : Bool
  frames : List Frame
  deriving DecidableEq, Repr

/-- Before the first token. -/
def State.start : State := ⟨.operand true, false, []⟩

/-- Reads a token where an operand must stand. -/
def readOperand (negatable : Bool) (s : State) (t : Token) : Except Problem State :=
  match t.role with
  | .literal => .ok { s with mode := .operator false }
  | .identifier => .ok { s with mode := .operator true }
  | .negation =>
    if negatable then .ok { s with mode := .operand true } else .error (.missingOperand t)
  | .minus => .ok { s with mode := .operand false }
  | .openParen => .ok ⟨.operand true, false, ⟨false, s.compared⟩ :: s.frames⟩
  | _ => .error (.missingOperand t)

/-- Refuses a token after a complete operand. -/
def refuse (s : State) (t : Token) : Except Problem State :=
  .error (if s.frames.isEmpty then .strayToken t else .unclosed (some t))

/-- Reads a token after a complete operand. -/
def readOperator (callable : Bool) (s : State) (t : Token) : Except Problem State :=
  match t.role with
  | .connective => .ok ⟨.operand true, false, s.frames⟩
  | .comparison =>
    if s.compared then .error .chainedComparison else .ok ⟨.operand false, true, s.frames⟩
  | .arithmetic | .minus => .ok { s with mode := .operand false }
  | .openParen =>
    if callable then .ok ⟨.argument, false, ⟨true, s.compared⟩ :: s.frames⟩ else refuse s t
  | .closeParen =>
    match s.frames with
    | f :: frames => .ok ⟨.operator false, f.compared, frames⟩
    | [] => refuse s t
  | .comma =>
    match s.frames with
    | ⟨true, _⟩ :: _ => .ok ⟨.operand true, false, s.frames⟩
    | _ => refuse s t
  | _ => refuse s t

/-- Reads one token. -/
def step (s : State) (t : Token) : Except Problem State :=
  match s.mode with
  | .operand negatable => readOperand negatable s t
  | .argument =>
    if t.role = .closeParen then readOperator false s t else readOperand true s t
  | .operator callable => readOperator callable s t

/-- Whether the tokens may end here. -/
def finish (s : State) : Except Problem Unit :=
  match s.mode with
  | .operator _ => if s.frames.isEmpty then .ok () else .error (.unclosed none)
  | _ => .error .missingEnd

/-- Reads the tokens that are left and ends. -/
def run : State → List Token → Except Problem Unit
  | s, [] => finish s
  | s, t :: ts =>
    match step s t with
    | .error p => .error p
    | .ok s => run s ts

/-- Checks that the tokens form one expression. -/
def checkTokens (ts : List Token) : Except Problem Unit :=
  if ts.isEmpty then .error .emptyExpression else run .start ts

/-- Checks that a text is one expression. -/
def checkExpression (s : Text) : Except Problem Unit :=
  match tokens s with
  | .error c => .error (.strayCharacter c)
  | .ok ts => checkTokens ts

end LangGen.Condition
