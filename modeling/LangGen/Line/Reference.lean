/-
File references: `[label](target)` at the start of a trimmed line, with blanks allowed between the
two parts and anything after them.
-/
import LangGen.Line.Link

namespace LangGen.Line

/-- The label and the trimmed target of a file reference. -/
def fileReference? (line : Text) : Option (Text × Text) :=
  match Text.trim line with
  | '[' :: s =>
    let label := s.takeWhile (· != ']')
    match s.drop label.length with
    | ']' :: r =>
      match Text.trimStart r with
      | '(' :: t => (targetOf? t).map fun target => (label, Text.trim target)
      | _ => none
    | _ => none
  | _ => none

end LangGen.Line
