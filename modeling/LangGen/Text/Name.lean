/-
Names: an identifier starts with a word character that is no decimal digit and goes on with word
characters; a name is one identifier or several joined by points.
-/
import LangGen.Text.Basic
import LangGen.Text.Digit
import LangGen.Text.Word

namespace LangGen.Text

/-- Whether an identifier may start with this character. -/
def isNameStart (c : Char) : Bool := isWordChar c && !isDecimalDigit c

/-- How many characters of `s` go on with the name that ends just before it. A point belongs to the
name only when another identifier starts right after it. -/
def nameTail : Text → Nat
  | [] => 0
  | [c] => if isWordChar c then 1 else 0
  | c :: d :: r =>
    if isWordChar c then nameTail (d :: r) + 1
    else if c = '.' && isNameStart d then nameTail r + 2
    else 0

/-- The length of the longest name at the start of a text, zero when there is none. -/
def nameLength : Text → Nat
  | [] => 0
  | c :: r => if isNameStart c then nameTail r + 1 else 0

/-- The name that fills the braces opened just before `s`, up to surrounding blanks, and the text
after the closing brace. -/
def bracedName? (s : Text) : Option (Text × Text) :=
  let s := trimStart s
  match nameLength s with
  | 0 => none
  | n + 1 =>
    match trimStart (s.drop (n + 1)) with
    | '}' :: rest => some (s.take (n + 1), rest)
    | _ => none

end LangGen.Text
