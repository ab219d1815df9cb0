/-
Reading numbers. A number that a user writes may have blanks around it, a sign, underscores between
digits, decimal digits of any script, a fraction and an exponent, or it may be one of the words
`inf`, `infinity` and `nan`.
-/
import LangGen.Decimal.Binary64
import LangGen.Text.Digit
import LangGen.Text.Basic

namespace LangGen.Decimal

/-! ## Decimal notation -/

/-- The whole number that decimal digits `0` to `9` form. -/
def ofDigits (ds : Text) : Nat := ds.foldl (fun n d => 10 * n + (d.toNat - 48)) 0

/-- A sign at the start of a text, as whether it is a minus, and the text after it. -/
def splitSign : Text → Bool × Text
  | '-' :: r => (true, r)
  | '+' :: r => (false, r)
  | r => (false, r)

/-- The digits at the start of a text, and the text after them. -/
def splitDigits (s : Text) : Text × Text := (s.takeWhile Char.isDigit, s.dropWhile Char.isDigit)

/-- The exponent that makes up all of a text, zero when the text is empty. -/
def exponentOf? : Text → Option Int
  | [] => some 0
  | c :: r =>
    if c = 'e' ∨ c = 'E' then
      match splitSign r with
      | (negative, r) =>
        match splitDigits r with
        | (ds@(_ :: _), []) => some (if negative then -(ofDigits ds : Int) else ofDigits ds)
        | _ => none
    else none

/-- An exponent beyond which a number with `digits` digits is surely infinite or zero. -/
def clamp (digits : Nat) (e : Int) : Int :=
  let bound : Int := digits + 400
  max (-bound) (min bound e)

/-- The number that an unsigned text of digits, fraction and exponent stands for. -/
def unsigned? (negative : Bool) (s : Text) : Option Binary64 :=
  let (whole, r) := splitDigits s
  let (fraction, r) := match r with
    | '.' :: r => splitDigits r
    | r => ([], r)
  if whole.isEmpty && fraction.isEmpty then none
  else
    (exponentOf? r).map fun e =>
      let ds := whole ++ fraction
      .ofDecimal negative (ofDigits ds) (clamp ds.length e - fraction.length)

/-- The number that a text of ASCII characters stands for, words included. -/
def plain? (s : Text) : Option Binary64 :=
  let (negative, r) := splitSign s
  if Text.sameLetters r "inf".toList || Text.sameLetters r "infinity".toList then
    some (.infinite negative)
  else if Text.sameLetters r "nan".toList then some .nan
  else unsigned? negative r

/-! ## Numbers as users write them -/

/-- Blanks around a number; the information separators are not among them. -/
def isBlank (c : Char) : Bool := Text.isBlank c && !(0x1C ≤ c.toNat && c.toNat ≤ 0x1F)

/-- A decimal digit of any script as one of `0` to `9`; other characters stay. -/
def plainDigit (c : Char) : Char :=
  match Text.digitValue? c with
  | some n => Char.ofNat (48 + n)
  | none => c

/-- The text without its underscores, when each stands between two digits. -/
def dropUnderscores? (digitBefore : Bool) : Text → Option Text
  | [] => some []
  | '_' :: r =>
    match r with
    | d :: _ => if digitBefore && d.isDigit then dropUnderscores? false r else none
    | [] => none
  | c :: r => (dropUnderscores? c.isDigit r).map (c :: ·)

/-- The number that a user's text stands for. -/
def read? (s : Text) : Option Binary64 :=
  let s := ((s.dropWhile isBlank).reverse.dropWhile isBlank).reverse
  (dropUnderscores? false (s.map plainDigit)).bind plain?

end LangGen.Decimal
