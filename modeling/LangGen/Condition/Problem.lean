/-
What can be wrong with the condition of a branch.
-/
import LangGen.Condition.Token

namespace LangGen.Condition

/-- The first thing wrong with a condition, read from left to right. -/
inductive Problem
  /-- No token starts with this character. -/
  | strayCharacter (c : Char)
  /-- There is no token at all. -/
  | emptyExpression
  /-- A token after a complete expression. -/
  | strayToken (t : Token)
  /-- A parenthesis is still open; the token found instead of its end, if there is one. -/
  | unclosed (found : Option Token)
  /-- A comparison of a comparison. -/
  | chainedComparison
  /-- The text ends where an operand must stand. -/
  | missingEnd
  /-- A token stands where an operand must. -/
  | missingOperand (t : Token)
  /-- The default branch carries text. -/
  | defaultText (residue : Text)
  deriving DecidableEq, Repr

/-- How a problem is reported. -/
def Problem.message : Problem → Text
  | strayCharacter c => "unexpected character '".toList ++ [c, '\'']
  | emptyExpression => "empty expression".toList
  | strayToken t => "unexpected token '".toList ++ t.text ++ ['\'']
  | unclosed found =>
    "expected ')' but found '".toList ++
      (found.elim "end of expression".toList Token.text) ++ ['\'']
  | chainedComparison => "chained comparisons are not allowed".toList
  | missingEnd => "unexpected end of expression".toList
  | missingOperand t => "operator '".toList ++ t.text ++ "' is missing an operand".toList
  | defaultText residue =>
    "default branch cannot carry an expression ('".toList ++ residue ++ "')".toList

end LangGen.Condition
