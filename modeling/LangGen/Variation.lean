/-
Variations: a text is well delimited when it is not blank, its brackets and braces are nested and
closed, and no pair of braces holds blanks only. A backslash takes the next character with it.
-/
import LangGen.Text.Basic

namespace LangGen.Variation

/-- What is wrong with a variation. -/
inductive Problem
  | blank
  /-- A closing delimiter that does not match the innermost open one. -/
  | unbalanced (closer : Char)
  /-- Braces with blanks only between them. -/
  | emptyBraces
  /-- The innermost delimiter that is still open at the end. -/
  | unclosed (opener : Char)
  deriving DecidableEq, Repr

/-- How a problem is reported. -/
def Problem.message : Problem → Text
  | blank => "variation is empty".toList
  | unbalanced closer => "unbalanced '".toList ++ [closer, '\'']
  | emptyBraces => "empty interpolation '".toList ++ ['{', '}', '\'']
  | unclosed opener => "unclosed '".toList ++ [opener, '\'']

/-- The two kinds of delimiters. -/
inductive Delimiter
  | brace
  | bracket
  deriving DecidableEq, Repr

namespace Delimiter

def opener : Delimiter → Char
  | brace => '{'
  | bracket => '['

def closer : Delimiter → Char
  | brace => '}'
  | bracket => ']'

/-- The kind that a character opens. -/
def ofOpener? (c : Char) : Option Delimiter :=
  if c = '{' then some brace else if c = '[' then some bracket else none

/-- The kind that a character closes. -/
def ofCloser? (c : Char) : Option Delimiter :=
  if c = '}' then some brace else if c = ']' then some bracket else none

end Delimiter

/-- A delimiter that is open, and whether the text since then is blank. -/
structure Opened where
  kind : Delimiter
  blank : Bool
  deriving DecidableEq, Repr

/-- The open delimiters after one more character, which is `c`, inside the innermost of them. -/
def touch (c : Char) : List Opened → List Opened
  | [] => []
  | o :: os => { o with blank := o.blank && Text.isBlank c } :: os

/-- The first problem of the rest of a text: `escaped` tells that a backslash has just been read,
`stack` holds the open delimiters, innermost first. -/
def problemFrom (escaped : Bool) (stack : List Opened) : Text → Option Problem
  | [] =>
    match stack with
    | [] => none
    | o :: _ => some (.unclosed o.kind.opener)
  | c :: r =>
    if escaped then problemFrom false (touch c stack) r
    else if c = '\\' then problemFrom true (touch c stack) r
    else
      match Delimiter.ofOpener? c with
      | some kind => problemFrom false (⟨kind, true⟩ :: touch c stack) r
      | none =>
        match Delimiter.ofCloser? c with
        | none => problemFrom false (touch c stack) r
        | some kind =>
          match stack with
          | [] => some (.unbalanced c)
          | o :: os =>
            if o.kind ≠ kind then some (.unbalanced c)
            else if kind = .brace ∧ o.blank then some .emptyBraces
            else problemFrom false (touch c os) r

/-- The first problem of a variation. -/
def problem? (s : Text) : Option Problem :=
  if Text.allBlank s then some .blank else problemFrom false [] s

/-- Whether a text is a variation. When `strict`, one that is not is refused with its problem. -/
def check (strict : Bool) (s : Text) : Except Problem Bool :=
  match problem? s with
  | none => .ok true
  | some p => if strict then .error p else .ok false

end LangGen.Variation
