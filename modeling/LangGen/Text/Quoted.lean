/-
Quoted text, for showing a value on one line: between single quotes, or between double quotes when
the text holds a single quote and no double quote, with a backslash escape for the quote, for the
backslash and for each character that is not printable.
-/
import LangGen.Text.Basic
import LangGen.Text.Printable

namespace LangGen.Text

/-- The lower-case hexadecimal digit of `d`, for `d` below sixteen. -/
def hexDigit (d : Nat) : Char := if d < 10 then Char.ofNat (48 + d) else Char.ofNat (87 + d)

/-- The last `width` hexadecimal digits of `n`, the most significant first. -/
def hex : Nat → Nat → Text
  | 0, _ => []
  | width + 1, n => hex width (n / 16) ++ [hexDigit (n % 16)]

/-- One character between the quotes `quote`; a character that is not printable is written by its
number, in as few of two, four or eight digits as hold it. -/
def quoteChar (quote c : Char) : Text :=
  if c = quote ∨ c = '\\' then ['\\', c]
  else if c = '\n' then ['\\', 'n']
  else if c = '\r' then ['\\', 'r']
  else if c = '\t' then ['\\', 't']
  else if isPrintable c then [c]
  else if c.toNat < 0x100 then '\\' :: 'x' :: hex 2 c.toNat
  else if c.toNat < 0x10000 then '\\' :: 'u' :: hex 4 c.toNat
  else '\\' :: 'U' :: hex 8 c.toNat

/-- The quotes used for a text: single ones unless only double ones need no escape. -/
def quoteMark (s : Text) : Char :=
  if s.contains '\'' && !s.contains '"' then '"' else '\''

/-- A text between quotes. -/
def quoted (s : Text) : Text :=
  let mark := quoteMark s
  mark :: s.flatMap (quoteChar mark) ++ [mark]

/-- A list of texts in brackets, each between quotes. -/
def quotedList (ss : List Text) : Text :=
  '[' :: join [',', ' '] (ss.map quoted) ++ [']']

end LangGen.Text
