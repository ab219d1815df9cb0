/-
Links inside a template line: `[label](target)` reads as `[label]`. A target ends at the first
closing parenthesis, and a link never runs over a line feed.
-/
import LangGen.Text.Basic

namespace LangGen.Line

/-- The text before the first closing parenthesis, if that comes before any line feed. -/
def targetOf? : Text → Option Text
  | [] => none
  | c :: r =>
    if c = ')' then some []
    else if c = '\n' then none
    else (targetOf? r).map (c :: ·)

/-- Whether the target of a link stands at the start of the text, parentheses included. -/
def startsTarget : Text → Bool
  | '(' :: r => (targetOf? r).isSome
  | _ => false

/-- Copies a text and leaves out link targets; `inside` tells that a target is being left out. -/
def collapseFrom (inside : Bool) : Text → Text
  | [] => []
  | c :: r =>
    if inside then collapseFrom (c != ')') r
    else c :: collapseFrom (c == ']' && startsTarget r) r

/-- The text with the target of each link left out. -/
def collapseLinks (s : Text) : Text := collapseFrom false s

end LangGen.Line
