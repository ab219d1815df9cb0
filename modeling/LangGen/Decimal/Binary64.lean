/-
Binary floating-point numbers of 64 bits, as exact values: a sign, a whole significand and an
exponent of two. Rationals round to the nearest of them, and a tie goes to the even significand.
-/

namespace LangGen.Decimal

/-- A binary floating-point number. A finite one is `± significand · 2 ^ exponent`; its exponent is
the least one with a significand below `2 ^ 53`, but not below -1074. -/
inductive Binary64
  | finite (negative : Bool) (significand : Nat) (exponent : Int)
  | infinite (negative : Bool)
  | nan
  deriving DecidableEq, Repr

/-- The quotient of two whole numbers, rounded to the nearest whole number; a tie goes to the even one. -/
def roundDiv (num den : Nat) : Nat :=
  let quotient := num / den
  let twice := 2 * (num % den)
  if twice < den then quotient
  else if den < twice then quotient + 1
  else quotient + quotient % 2

/-- The least exponent of a finite number. -/
def minExponent : Int := -1074

/-- The greatest exponent of a finite number. -/
def maxExponent : Int := 971

/-- `num / den` divided by `2 ^ e`, as a numerator and a denominator. -/
def scaled (num den : Nat) (e : Int) : Nat × Nat :=
  (num * Nat.pow 2 (-e).toNat, den * Nat.pow 2 e.toNat)

namespace Binary64

/-- Zero. -/
def zero (negative : Bool) : Binary64 := .finite negative 0 minExponent

/-- A significand of at most `2 ^ 53` with its exponent; a carry goes into the exponent, and a
number beyond the greatest exponent is infinite. -/
def pack (negative : Bool) (significand : Nat) (exponent : Int) : Binary64 :=
  let (s, e) :=
    if significand = Nat.pow 2 53 then (Nat.pow 2 52, exponent + 1) else (significand, exponent)
  if maxExponent < e then .infinite negative else .finite negative s e

/-- The number nearest to `num / den`, with a sign. The first guess at the exponent leaves a
quotient between `2 ^ 52` and `2 ^ 54`. -/
def ofRatio (negative : Bool) (num den : Nat) : Binary64 :=
  if num = 0 then zero negative
  else
    let guess : Int := (num.log2 : Int) - den.log2 - 53
    let (a, b) := scaled num den guess
    let e := max minExponent (if a / b < Nat.pow 2 53 then guess else guess + 1)
    let (a, b) := scaled num den e
    pack negative (roundDiv a b) e

/-- The number nearest to `digits · 10 ^ exponent`, with a sign. -/
def ofDecimal (negative : Bool) (digits : Nat) (exponent : Int) : Binary64 :=
  ofRatio negative (digits * Nat.pow 10 exponent.toNat) (Nat.pow 10 (-exponent).toNat)

/-- The number nearest to an integer. -/
def ofInt (n : Int) : Binary64 := ofRatio (n < 0) n.natAbs 1

/-- Whether a number is a zero of either sign. -/
def isZero : Binary64 → Bool
  | finite _ significand _ => significand == 0
  | _ => false

/-- One divided by a number that is not zero. -/
def reciprocal : Binary64 → Binary64
  | finite negative significand exponent =>
    ofRatio negative (Nat.pow 2 (-exponent).toNat) (significand * Nat.pow 2 exponent.toNat)
  | infinite negative => zero negative
  | nan => nan

/-- Whether one number is below another; nothing is below or above `nan`. -/
def less : Binary64 → Binary64 → Bool
  | nan, _ | _, nan => false
  | infinite a, infinite b => a && !b
  | infinite a, finite .. => a
  | finite .., infinite b => !b
  | finite a s e, finite b t f =>
    let signed := fun (negative : Bool) (s : Nat) (e : Int) =>
      let n : Int := (s * Nat.pow 2 (e - minExponent).toNat : Nat)
      if negative then -n else n
    signed a s e < signed b t f

end Binary64

end LangGen.Decimal
