/-
Lines: a text is split at CR LF, at CR and at LF, and at no other character; so it always has at
least one line, and the text after the last terminator is a line of its own.
-/
import LangGen.Text.Basic

namespace LangGen.Text

/-- The lines of a text, without their terminators. -/
def lines : Text → List Text
  | [] => [[]]
  | '\r' :: '\n' :: r => [] :: lines r
  | c :: r =>
    if c = '\r' ∨ c = '\n' then [] :: lines r
    else
      match lines r with
      | [] => [[c]]
      | l :: ls => (c :: l) :: ls

/-- The text with every terminator written as LF. -/
def unixLines : Text → Text
  | [] => []
  | '\r' :: '\n' :: r => '\n' :: unixLines r
  | c :: r => (if c = '\r' then '\n' else c) :: unixLines r

/-- Lines joined by LF. -/
def joinLines (ls : List Text) : Text := join ['\n'] ls

end LangGen.Text
