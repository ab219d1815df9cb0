/-
Mentions of entities: `{name}`, with blanks allowed inside the braces. A brace right after a
backslash opens no mention.
-/
import LangGen.Keyed
import LangGen.Text.Name

namespace LangGen.Line

/-- The names mentioned in a text, with repetitions; `escaped` tells that a backslash stands just
before it. No brace stands inside a mention, so each brace can be tried on its own. -/
def mentionsFrom (escaped : Bool) : Text → List Text
  | [] => []
  | c :: r =>
    let here := if c == '{' && !escaped then (Text.bracedName? r).map (·.1) else none
    here.toList ++ mentionsFrom (c == '\\') r

/-- The names mentioned in a text, each once, in the order of their first mention. -/
def mentions (s : Text) : List Text := unite [] (mentionsFrom false s)

end LangGen.Line
