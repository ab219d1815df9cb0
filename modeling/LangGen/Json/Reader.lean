/-
Reading JSON text. The text is split into lexemes, and the lexemes are read from left to right with
the containers that are open. Besides the numbers of the format, the literals NaN, Infinity and
-Infinity are read. A reader sets limits to nesting and to the length of numbers.
-/
import LangGen.Json.Basic

namespace LangGen.Json

/-! ## Limits -/

/-- How large the parts of a JSON text may be. -/
structure Limits where
  /-- How deep containers may be nested in each other. An empty one can stand at any depth that its
  surroundings reach, since nothing is nested in it. -/
  depth : Nat
  /-- How many digits a number may have before its point and its exponent. -/
  whole : Nat
  deriving DecidableEq, Repr

/-- Limits that no text of this length exceeds. -/
def Limits.ofLength (n : Nat) : Limits := ⟨n, n⟩

/-! ## Numbers -/

/-- The part of a text that ASCII digits start with. -/
def digits (s : Text) : Text := s.takeWhile Char.isDigit

/-- The length of the whole part of a number: a zero alone, or digits that start with another one. -/
def wholeLength : Text → Nat
  | '0' :: _ => 1
  | s => (digits s).length

/-- The length of a fraction at the start of a text, zero when there is none. A point without digits
is no number. -/
def fractionLength? : Text → Option Nat
  | '.' :: r => match (digits r).length with
    | 0 => none
    | n => some (n + 1)
  | _ => some 0

/-- The length of an exponent at the start of a text, zero when there is none. A mark without digits
is no number. -/
def exponentLength? : Text → Option Nat
  | c :: r =>
    if c = 'e' ∨ c = 'E' then
      let sign := match r with
        | '+' :: _ | '-' :: _ => 1
        | _ => 0
      match (digits (r.drop sign)).length with
      | 0 => none
      | n => some (n + sign + 1)
    else some 0
  | [] => some 0

/-- The length of the number at the start of a text, if it keeps to the limits. -/
def numberLength? (limits : Limits) (s : Text) : Option Nat :=
  let sign := match s with
    | '-' :: _ => 1
    | _ => 0
  match wholeLength (s.drop sign) with
  | 0 => none
  | whole =>
    if limits.whole < whole then none
    else
      (fractionLength? (s.drop (sign + whole))).bind fun fraction =>
        (exponentLength? (s.drop (sign + whole + fraction))).map fun exponent =>
          sign + whole + fraction + exponent

/-! ## Strings -/

/-- The value of a hexadecimal digit. -/
def hexValue? (c : Char) : Option Nat :=
  if '0' ≤ c ∧ c ≤ '9' then some (c.toNat - 48)
  else if 'a' ≤ c ∧ c ≤ 'f' then some (c.toNat - 87)
  else if 'A' ≤ c ∧ c ≤ 'F' then some (c.toNat - 55)
  else none

/-- The value of four hexadecimal digits. -/
def hex4? (a b c d : Char) : Option Nat := do
  let a ← hexValue? a
  let b ← hexValue? b
  let c ← hexValue? c
  let d ← hexValue? d
  return ((a * 16 + b) * 16 + c) * 16 + d

/-- The character that a letter after a backslash stands for. -/
def shortEscape? (c : Char) : Option Char :=
  if c = '"' ∨ c = '\\' ∨ c = '/' then some c
  else if c = 'b' then some (Char.ofNat 8)
  else if c = 'f' then some (Char.ofNat 12)
  else if c = 'n' then some '\n'
  else if c = 'r' then some '\r'
  else if c = 't' then some '\t'
  else none

/-- The character of a number that is no surrogate, or of two surrogates that form a pair. -/
def unicodeEscape? (r : Text) : Option (Char × Nat) :=
  match r with
  | a :: b :: c :: d :: r =>
    (hex4? a b c d).bind fun n =>
      if n < 0xD800 ∨ 0xDFFF < n then some (Char.ofNat n, 4)
      else if 0xDC00 ≤ n then none
      else
        match r with
        | '\\' :: 'u' :: a :: b :: c :: d :: _ =>
          (hex4? a b c d).bind fun m =>
            if 0xDC00 ≤ m ∧ m ≤ 0xDFFF then
              some (Char.ofNat (0x10000 + (n - 0xD800) * 0x400 + (m - 0xDC00)), 10)
            else none
        | _ => none
  | _ => none

/-- The character that the text after a backslash stands for, and the length of that text. -/
def escape? : Text → Option (Char × Nat)
  | [] => none
  | c :: r =>
    if c = 'u' then (unicodeEscape? r).map fun p => (p.1, p.2 + 1)
    else (shortEscape? c).map fun c => (c, 1)

/-- The string that ends at the first quote that is not escaped, and the length of its text with
that quote; the first `skip` characters have been read already. -/
def stringFrom : Nat → Text → Option (Text × Nat)
  | _, [] => none
  | skip + 1, _ :: r => (stringFrom skip r).map fun p => (p.1, p.2 + 1)
  | 0, c :: r =>
    if c = '"' then some ([], 1)
    else if c = '\\' then
      (escape? r).bind fun e => (stringFrom e.2 r).map fun p => (e.1 :: p.1, p.2 + 1)
    else if c.toNat < 32 then none
    else (stringFrom 0 r).map fun p => (c :: p.1, p.2 + 1)

/-! ## Lexemes -/

/-- The pieces of JSON text between blanks. -/
inductive Lexeme
  | openArray | closeArray | openObject | closeObject | colon | comma
  | null
  | bool (value : Bool)
  | number (literal : Text)
  | string (value : Text)
  deriving DecidableEq, Repr

/-- The four characters that are blank in JSON text. -/
def isBlank (c : Char) : Bool := c == ' ' || c == '\t' || c == '\n' || c == '\r'

/-- The words of JSON text. -/
def words : List (Text × Lexeme) :=
  [("null".toList, .null), ("true".toList, .bool true), ("false".toList, .bool false),
   ("NaN".toList, .number "NaN".toList), ("Infinity".toList, .number "Infinity".toList),
   ("-Infinity".toList, .number "-Infinity".toList)]

/-- The mark that a character is. -/
def mark? (c : Char) : Option Lexeme :=
  if c = '[' then some .openArray
  else if c = ']' then some .closeArray
  else if c = '{' then some .openObject
  else if c = '}' then some .closeObject
  else if c = ':' then some .colon
  else if c = ',' then some .comma
  else none

/-- The lexeme at the start of a text, and its length. -/
def lexeme? (limits : Limits) (s : Text) : Option (Lexeme × Nat) :=
  match s with
  | [] => none
  | c :: r =>
    match mark? c with
    | some l => some (l, 1)
    | none =>
      if c = '"' then (stringFrom 0 r).map fun p => (.string p.1, p.2 + 1)
      else
        match words.find? (·.1.isPrefixOf s) with
        | some (word, l) => some (l, word.length)
        | none => (numberLength? limits s).map fun n => (.number (s.take n), n)

/-- The lexemes of a text after its first `skip` characters. -/
def lexemesFrom (limits : Limits) : Nat → Text → Option (List Lexeme)
  | _, [] => some []
  | skip + 1, _ :: r => lexemesFrom limits skip r
  | 0, c :: r =>
    if isBlank c then lexemesFrom limits 0 r
    else
      (lexeme? limits (c :: r)).bind fun (l, n) => (lexemesFrom limits (n - 1) r).map (l :: ·)

/-! ## Values -/

/-- A container that is open, with what has been read of it; the members of an object come with the
key whose value is being read. -/
inductive Frame
  | array (items : List Json)
  | object (members : List (Text × Json)) (key : Text)

/-- Where the reading stands. -/
inductive Expect
  /-- A value. -/
  | value
  /-- A value, or the end of an array that has just opened. -/
  | firstItem
  /-- A key, or the end of an object that has just opened. -/
  | firstKey
  /-- A key of an object with these members. -/
  | key (members : List (Text × Json))
  /-- The colon after a key. -/
  | colon (members : List (Text × Json)) (key : Text)
  /-- What follows a complete value. -/
  | after (value : Json)

/-- The state of the reading: where it stands, and the open containers, innermost first. -/
structure ReaderState where
  expect : Expect
  frames : List Frame

/-- Reads a lexeme where a value must stand. -/
def readValue (frames : List Frame) : Lexeme → Option ReaderState
  | .null => some ⟨.after null, frames⟩
  | .bool b => some ⟨.after (bool b), frames⟩
  | .number n => some ⟨.after (number n), frames⟩
  | .string s => some ⟨.after (string s), frames⟩
  | .openArray => some ⟨.firstItem, frames⟩
  | .openObject => some ⟨.firstKey, frames⟩
  | _ => none

/-- Reads a lexeme after a complete value. -/
def readAfter (value : Json) (frames : List Frame) (l : Lexeme) : Option ReaderState :=
  match frames, l with
  | .array items :: frames, .comma => some ⟨.value, .array (items ++ [value]) :: frames⟩
  | .array items :: frames, .closeArray => some ⟨.after (array (items ++ [value])), frames⟩
  | .object members key :: frames, .comma => some ⟨.key (members ++ [(key, value)]), frames⟩
  | .object members key :: frames, .closeObject =>
    some ⟨.after (object (members ++ [(key, value)])), frames⟩
  | _, _ => none

/-- Reads one lexeme. A container counts for the depth from the first thing in it on. -/
def readLexeme (limits : Limits) (s : ReaderState) (l : Lexeme) : Option ReaderState :=
  match s.expect, l with
  | .value, l => readValue s.frames l
  | .firstItem, .closeArray => some ⟨.after (array []), s.frames⟩
  | .firstItem, l =>
    if s.frames.length < limits.depth then readValue (.array [] :: s.frames) l else none
  | .firstKey, .closeObject => some ⟨.after (object []), s.frames⟩
  | .firstKey, .string key =>
    if s.frames.length < limits.depth then some ⟨.colon [] key, s.frames⟩ else none
  | .key members, .string key => some ⟨.colon members key, s.frames⟩
  | .colon members key, .colon => some ⟨.value, .object members key :: s.frames⟩
  | .after value, l => readAfter value s.frames l
  | _, _ => none

/-- The value that the lexemes form. -/
def ofLexemes? (limits : Limits) (ls : List Lexeme) : Option Json :=
  match ls.foldlM (readLexeme limits) ⟨.value, []⟩ with
  | some ⟨.after value, []⟩ => some value
  | _ => none

/-- The value that a text within the limits stands for. -/
def parse? (limits : Limits) (s : Text) : Option Json :=
  (lexemesFrom limits 0 s).bind (ofLexemes? limits)

end LangGen.Json
