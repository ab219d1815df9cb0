/-
Numbers of a configuration: integers, which stay integers, and floating-point numbers.
-/
import LangGen.Decimal.Reader
import LangGen.Decimal.Shortest

namespace LangGen

/-- An integer or a floating-point number. -/
inductive Number
  | integer (n : Int)
  | float (x : Decimal.Binary64)
  deriving DecidableEq, Repr

namespace Number

/-- The number of a JSON literal: an integer unless it has a point or an exponent. -/
def ofLiteral? (literal : Text) : Option Number :=
  let (negative, digits) := Decimal.splitSign literal
  if !digits.isEmpty && digits.all Char.isDigit then
    some (.integer (if negative then -(Decimal.ofDigits digits : Int) else Decimal.ofDigits digits))
  else (Decimal.plain? literal).map .float

/-- The text of a number. -/
def text : Number → Text
  | integer n => Text.ofInt n
  | float x => x.text

/-- Whether a number is zero. -/
def isZero : Number → Bool
  | integer n => n == 0
  | float x => x.isZero

/-- A number as a floating-point number; an integer beyond their range has none. -/
def toFloat? : Number → Option Decimal.Binary64
  | integer n =>
    match Decimal.Binary64.ofInt n with
    | .infinite _ => none
    | x => some x
  | float x => some x

end Number

end LangGen
