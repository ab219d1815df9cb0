/-
Tokens of a condition: references in braces, numbers, quoted strings, operators and names, with
blanks between them. The splitting takes the longest token at each place and reports the first
character at which none starts.
-/
import LangGen.Text.Name

namespace LangGen.Condition

/-! ## Operators -/

/-- The operators and the marks of grouping. -/
inductive Operator
  | equal | notEqual | atMost | atLeast | conj | disj | less | greater | neg | plus | minus
  | times | divide | modulo | openParen | closeParen | comma
  deriving DecidableEq, Repr

namespace Operator

/-- How an operator is written. -/
def text : Operator → Text
  | equal => ['=', '=']
  | notEqual => ['!', '=']
  | atMost => ['<', '=']
  | atLeast => ['>', '=']
  | conj => ['&', '&']
  | disj => ['|', '|']
  | less => ['<']
  | greater => ['>']
  | neg => ['!']
  | plus => ['+']
  | minus => ['-']
  | times => ['*']
  | divide => ['/']
  | modulo => ['%']
  | openParen => ['(']
  | closeParen => [')']
  | comma => [',']

/-- The operator at the start of a text; one of two characters goes before one of a single one. -/
def first? : Text → Option Operator
  | '=' :: '=' :: _ => some equal
  | '!' :: '=' :: _ => some notEqual
  | '<' :: '=' :: _ => some atMost
  | '>' :: '=' :: _ => some atLeast
  | '&' :: '&' :: _ => some conj
  | '|' :: '|' :: _ => some disj
  | '<' :: _ => some less
  | '>' :: _ => some greater
  | '!' :: _ => some neg
  | '+' :: _ => some plus
  | '-' :: _ => some minus
  | '*' :: _ => some times
  | '/' :: _ => some divide
  | '%' :: _ => some modulo
  | '(' :: _ => some openParen
  | ')' :: _ => some closeParen
  | ',' :: _ => some comma
  | _ => none

end Operator

/-! ## Tokens -/

/-- A token with its text as it was written. -/
inductive Token
  /-- A name in braces, the braces and the blanks inside them included. -/
  | reference (text : Text)
  | number (text : Text)
  /-- A quoted string, with its quotes and its backslashes. -/
  | string (text : Text)
  | operator (op : Operator)
  | name (text : Text)
  deriving DecidableEq, Repr

/-- How a token is written. -/
def Token.text : Token → Text
  | reference s | number s | string s | name s => s
  | operator op => op.text

/-- The length of the reference at the start of a text. -/
def referenceLength? : Text → Option Nat
  | '{' :: r => (Text.bracedName? r).map fun p => r.length + 1 - p.2.length
  | _ => none

/-- The length of the number at the start of a text, zero when there is none: decimal digits, and
then a point with decimal digits after it or nothing. -/
def numberLength (s : Text) : Nat :=
  let whole := (s.takeWhile Text.isDecimalDigit).length
  match whole, s.drop whole with
  | 0, _ => 0
  | _, '.' :: r =>
    match (r.takeWhile Text.isDecimalDigit).length with
    | 0 => whole
    | fraction => whole + 1 + fraction
  | _, _ => whole

/-- How many characters of a text reach up to the closing quote, that one included. A backslash
takes the next character with it, which must not be a line feed. -/
def stringTail? (quote : Char) : Text → Option Nat
  | [] => none
  | [c] => if c = quote then some 1 else none
  | c :: d :: r =>
    if c = quote then some 1
    else if c = '\\' then if d = '\n' then none else (stringTail? quote r).map (· + 2)
    else (stringTail? quote (d :: r)).map (· + 1)

/-- The length of the quoted string at the start of a text. -/
def stringLength? : Text → Option Nat
  | c :: r => if c = '"' ∨ c = '\'' then (stringTail? c r).map (· + 1) else none
  | [] => none

/-- The token at the start of a text. -/
def Token.first? (s : Text) : Option Token :=
  match referenceLength? s with
  | some n => some (.reference (s.take n))
  | none =>
    match numberLength s with
    | n + 1 => some (.number (s.take (n + 1)))
    | 0 =>
      match stringLength? s with
      | some n => some (.string (s.take n))
      | none =>
        match Operator.first? s with
        | some op => some (.operator op)
        | none =>
          match Text.nameLength s with
          | n + 1 => some (.name (s.take (n + 1)))
          | 0 => none

/-! ## Splitting -/

/-- The tokens of a text after its first `skip` characters, or the first character at which none
starts. -/
def tokensFrom : Nat → Text → Except Char (List Token)
  | _, [] => .ok []
  | skip + 1, _ :: r => tokensFrom skip r
  | 0, c :: r =>
    if Text.isBlank c then tokensFrom 0 r
    else
      match Token.first? (c :: r) with
      | none => .error c
      | some t => (tokensFrom (t.text.length - 1) r).map (t :: ·)

/-- The tokens of a text in order, or the first character that belongs to none. -/
def tokens (s : Text) : Except Char (List Token) := tokensFrom 0 s

end LangGen.Condition
