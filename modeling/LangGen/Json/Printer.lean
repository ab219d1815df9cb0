/-
The text of a JSON value: on one line without spaces, or with each item and member on a line of its
own and indented. Control characters, the quote and the backslash are escaped, and all other
characters stand for themselves.
-/
import LangGen.Json.Basic
import LangGen.Text.Quoted

namespace LangGen.Json

/-! ## Strings -/

/-- A character inside a JSON string. -/
def escapeChar (c : Char) : Text :=
  if c = '"' then ['\\', '"']
  else if c = '\\' then ['\\', '\\']
  else if c = '\n' then ['\\', 'n']
  else if c = '\r' then ['\\', 'r']
  else if c = '\t' then ['\\', 't']
  else if c.toNat = 8 then ['\\', 'b']
  else if c.toNat = 12 then ['\\', 'f']
  else if c.toNat < 32 then '\\' :: 'u' :: Text.hex 4 c.toNat
  else [c]

/-- A JSON string with its quotes. -/
def writeString (s : Text) : Text := '"' :: s.flatMap escapeChar ++ ['"']

/-! ## Layout -/

/-- How items are set apart: on one line, or on lines of their own with this many spaces for each
level. -/
inductive Layout
  | compact
  | lines (indent : Nat)
  deriving DecidableEq, Repr

namespace Layout

/-- What goes before an item at a level, and before the closing bracket of the level above. -/
def newLine (l : Layout) (level : Nat) : Text :=
  match l with
  | compact => []
  | lines indent => '\n' :: List.replicate (indent * level) ' '

/-- What goes between a key and its value. -/
def colon : Layout → Text
  | compact => [':']
  | lines _ => [':', ' ']

end Layout

/-! ## Values -/

mutual

/-- A value whose items, if it has any, are at level `level + 1`. -/
def write (l : Layout) (level : Nat) : Json → Text
  | null => ['n', 'u', 'l', 'l']
  | bool true => ['t', 'r', 'u', 'e']
  | bool false => ['f', 'a', 'l', 's', 'e']
  | number literal => literal
  | string s => writeString s
  | array [] => ['[', ']']
  | array (item :: items) =>
    '[' :: l.newLine (level + 1) ++ write l (level + 1) item ++ writeItems l level items
  | object [] => ['{', '}']
  | object ((key, value) :: members) =>
    '{' :: l.newLine (level + 1) ++ writeString key ++ l.colon ++ write l (level + 1) value ++
      writeMembers l level members

/-- The items after the first one, and the end of the array. -/
def writeItems (l : Layout) (level : Nat) : List Json → Text
  | [] => l.newLine level ++ [']']
  | item :: items =>
    ',' :: l.newLine (level + 1) ++ write l (level + 1) item ++ writeItems l level items

/-- The members after the first one, and the end of the object. -/
def writeMembers (l : Layout) (level : Nat) : List (Text × Json) → Text
  | [] => l.newLine level ++ ['}']
  | (key, value) :: members =>
    ',' :: l.newLine (level + 1) ++ writeString key ++ l.colon ++ write l (level + 1) value ++
      writeMembers l level members

end

/-- The text of a value. -/
def print (l : Layout) (j : Json) : Text := write l 0 j

end LangGen.Json
