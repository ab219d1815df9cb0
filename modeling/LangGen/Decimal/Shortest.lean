/-
The text of a binary floating-point number: the fewest decimal digits that read back as the number,
and of those the ones nearest to it. They are found on decimal grids from the coarse to the fine:
the first grid with a point that rounds to the number gives the digits.
-/
import LangGen.Decimal.Binary64
import LangGen.Text.Basic

namespace LangGen.Decimal

/-! ## Digits -/

/-- The reals that round to `significand · 2 ^ exponent`, in quarters of `2 ^ exponent`: they lie
around `value` between `low` and `high`, and the ends are among them when `closed`. -/
structure Interval where
  low : Nat
  value : Nat
  high : Nat
  closed : Bool

/-- The interval of a significand: half way to its neighbours, of which the lower one is nearer when
the significand is the least of its exponent. -/
def interval (significand : Nat) (exponent : Int) : Interval where
  low := if significand = Nat.pow 2 52 ∧ minExponent < exponent then 4 * significand - 1
    else 4 * significand - 2
  value := 4 * significand
  high := 4 * significand + 2
  closed := significand % 2 == 0

/-- The point of a grid nearest to the value of an interval, if one lies in the interval; the steps
of the grid are `den / num` quarters wide, and a tie goes to the even point. -/
def gridPoint? (i : Interval) (num den : Nat) : Option Nat :=
  let inside := fun (c : Nat) =>
    let x := c * den
    if i.closed then i.low * num ≤ x && x ≤ i.high * num else i.low * num < x && x < i.high * num
  let below := i.value * num / den
  match inside below, inside (below + 1) with
  | true, true => some (roundDiv (i.value * num) den)
  | true, false => some below
  | false, true => some (below + 1)
  | false, false => none

/-- Searches `fuel` grids for a point in the interval, from the grid of step `10 ^ grid` to finer
ones, where quarters are `2 ^ quarter` wide; the result is the point and the exponent of its grid. -/
def searchGrids (i : Interval) (quarter : Int) : Nat → Int → Nat × Int
  | 0, grid => (i.value, grid)
  | fuel + 1, grid =>
    let num := 2 ^ quarter.toNat * 10 ^ (-grid).toNat
    let den := 2 ^ (-quarter).toNat * 10 ^ grid.toNat
    match gridPoint? i num den with
    | some c => (c, grid)
    | none => searchGrids i quarter fuel (grid - 1)

/-- The shortest digits of a significand that is not zero, as a whole number, and the exponent of
ten that goes with them. The first grid is coarser than the number, and the twentieth below it is
finer than the interval. -/
def shortest (significand : Nat) (exponent : Int) : Nat × Int :=
  let magnitude : Int := significand.log2 + 1 + exponent
  searchGrids (interval significand exponent) (exponent - 2) 24 (magnitude * 30103 / 100000 + 2)

/-! ## Layout -/

/-- Digits with the point after the first `point` of them; positional when the leading digit counts
ten thousandths or more and less than ten to the sixteenth, and with an exponent otherwise. -/
def layOut (digits : Text) (point : Int) : Text :=
  if -4 < point ∧ point ≤ 16 then
    if point ≤ 0 then ['0', '.'] ++ List.replicate (-point).toNat '0' ++ digits
    else
      let whole := digits.take point.toNat
      let fraction := digits.drop point.toNat
      whole ++ List.replicate (point.toNat - digits.length) '0' ++
        '.' :: (if fraction.isEmpty then ['0'] else fraction)
  else
    let exponent := point - 1
    let width := Text.ofNat exponent.natAbs
    digits.take 1 ++ (if digits.length = 1 then [] else '.' :: digits.drop 1) ++
      'e' :: (if exponent < 0 then '-' else '+') ::
        (if width.length = 1 then '0' :: width else width)

/-- The text of a number. -/
def Binary64.text : Binary64 → Text
  | finite negative significand exponent =>
    let sign : Text := if negative then ['-'] else []
    if significand = 0 then sign ++ ['0', '.', '0']
    else
      let (point, grid) := shortest significand exponent
      let digits := Text.ofNat point
      sign ++ layOut digits (digits.length + grid)
  | infinite negative => if negative then ['-', 'i', 'n', 'f'] else ['i', 'n', 'f']
  | nan => ['n', 'a', 'n']

end LangGen.Decimal
