/-
Text as a list of code points, the blank characters, and what is cut at blanks: trimming, the test
for a text of blanks only, and the split into words.
-/

namespace LangGen

/-- Text is a list of code points, so that every rule of the library is a recursion on it. -/
abbrev Text := List Char

namespace Text

/-! ## Blanks -/

/-- The blank characters: the white space of Unicode together with the four information separators
U+001C to U+001F. The zero-width space and the byte order mark are not blank. -/
def isBlank (c : Char) : Bool :=
  let n := c.toNat
  (9 ≤ n && n ≤ 13) || (28 ≤ n && n ≤ 32) || n == 0x85 || n == 0xA0 || n == 0x1680 ||
    (0x2000 ≤ n && n ≤ 0x200A) || n == 0x2028 || n == 0x2029 || n == 0x202F || n == 0x205F ||
    n == 0x3000

/-- Whether a text holds blanks only; the empty text does. -/
def allBlank (s : Text) : Bool := s.all isBlank

/-! ## Trimming -/

/-- The text without its leading blanks. -/
def trimStart (s : Text) : Text := s.dropWhile isBlank

/-- The text without its trailing blanks. -/
def trimEnd (s : Text) : Text := (s.reverse.dropWhile isBlank).reverse

/-- The text without leading and trailing blanks. -/
def trim (s : Text) : Text := trimEnd (trimStart s)

/-! ## Words -/

/-- Splits at blanks: `word` is the word being read, and no word is empty. -/
def wordsFrom (word : Text) : Text → List Text
  | [] => if word.isEmpty then [] else [word]
  | c :: r =>
    if isBlank c then
      if word.isEmpty then wordsFrom [] r else word :: wordsFrom [] r
    else wordsFrom (word ++ [c]) r

/-- The maximal runs of characters that are not blank, in order. -/
def words (s : Text) : List Text := wordsFrom [] s

/-! ## Leading text -/

/-- The text after `lead`, when `s` starts with it. -/
def after? (lead s : Text) : Option Text :=
  match lead, s with
  | [], s => some s
  | _ :: _, [] => none
  | a :: lead, c :: s => if a = c then after? lead s else none

/-- The first of the given leads that the text starts with. -/
def leadOf? (leads : List Text) (s : Text) : Option Text :=
  leads.find? (·.isPrefixOf s)

/-- Texts put one after the other with `separator` between neighbours. -/
def join (separator : Text) : List Text → Text
  | [] => []
  | [s] => s
  | s :: r => s ++ separator ++ join separator r

/-- The decimal digits of a natural number. -/
def ofNat (n : Nat) : Text := Nat.toDigits 10 n

/-- The decimal digits of an integer, after a minus sign when it is negative. -/
def ofInt : Int → Text
  | .ofNat n => ofNat n
  | .negSucc n => '-' :: ofNat (n + 1)

/-- Whether two texts agree once the letters A to Z are read as a to z. -/
def sameLetters (s t : Text) : Bool := s.map Char.toLower == t.map Char.toLower

end Text

end LangGen
