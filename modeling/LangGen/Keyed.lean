/-
Lists whose members are told apart by a key and stay in the order in which they came. A member with
a new key comes last, and one whose key is taken is combined with a member that has it. Where
several members share a key, combining goes to the first of them and changing goes to the last.
-/

namespace LangGen

/-! ## Members without a key -/

/-- A list with one more member at its end, unless that is in it already. -/
def addNew {α : Type} [DecidableEq α] (xs : List α) (x : α) : List α :=
  if x ∈ xs then xs else xs ++ [x]

/-- The members of the first list and then, in order, the new ones of the second. -/
def unite {α : Type} [DecidableEq α] (xs ys : List α) : List α := ys.foldl addNew xs

/-! ## Members with a key -/

/-- A list with one more member: it is combined with the first one of its key, or it comes last. -/
def upsert {α κ : Type} [DecidableEq κ] (key : α → κ) (combine : α → α → α) :
    List α → α → List α
  | [], x => [x]
  | y :: ys, x => if key y = key x then combine y x :: ys else y :: upsert key combine ys x

/-- A list with all members of a second one, taken in order. -/
def upsertAll {α κ : Type} [DecidableEq κ] (key : α → κ) (combine : α → α → α)
    (xs ys : List α) : List α :=
  ys.foldl (upsert key combine) xs

/-- Changes the first member that passes the test. -/
def changeFirst {α : Type} (p : α → Bool) (f : α → α) : List α → List α
  | [] => []
  | x :: xs => if p x then f x :: xs else x :: changeFirst p f xs

/-- Changes the last member that passes the test. -/
def changeLast {α : Type} (p : α → Bool) (f : α → α) : List α → List α
  | [] => []
  | x :: xs => if xs.any p then x :: changeLast p f xs else (if p x then f x else x) :: xs

/-- The last member that passes the test. -/
def findLast? {α : Type} (p : α → Bool) (xs : List α) : Option α := xs.reverse.find? p

end LangGen
