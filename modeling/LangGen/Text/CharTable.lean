/-
Membership of a code point in an ascending table of ranges.
-/

namespace LangGen.Text

/-- Whether `n` lies in one of the ranges; the table is ascending, so the search ends at the first
range above `n`. -/
def inTable : List (Nat × Nat) → Nat → Bool
  | [], _ => false
  | (first, last) :: table, n => if n < first then false else n ≤ last || inTable table n

/-- The first code point of the range that holds `n`. -/
def rangeStart? : List (Nat × Nat) → Nat → Option Nat
  | [], _ => none
  | (first, last) :: table, n =>
    if n < first then none else if n ≤ last then some first else rangeStart? table n

end LangGen.Text
