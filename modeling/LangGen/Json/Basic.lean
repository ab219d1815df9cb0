/-
JSON values. A number keeps the literal it was written as, and an object the order of its members
and every repetition among them.
-/
import LangGen.Keyed
import LangGen.Text.Basic

namespace LangGen

/-- A JSON value. -/
inductive Json
  | null
  | bool (value : Bool)
  | number (literal : Text)
  | string (value : Text)
  | array (items : List Json)
  | object (members : List (Text × Json))

namespace Json

/-- The value of the last member with this key. -/
def member? (members : List (Text × Json)) (key : Text) : Option Json :=
  (findLast? (·.1 == key) members).map (·.2)

/-- The value of the last member of an object with this key. -/
def get? (key : String) : Json → Option Json
  | object members => member? members key.toList
  | _ => none

/-- A string as a value. -/
def ofString (s : String) : Json := string s.toList

/-- A value, or null. -/
def ofOption {α : Type} (f : α → Json) : Option α → Json
  | none => null
  | some a => f a

/-- An integer as a value. -/
def ofInt (n : Int) : Json := number (Text.ofInt n)

/-- An object of named members. -/
def ofMembers (members : List (String × Json)) : Json :=
  object (members.map fun m => (m.1.toList, m.2))

end Json

end LangGen
