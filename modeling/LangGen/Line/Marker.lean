/-
The marks that tell the lines of a template file apart: which character opens a chunk, a comment or
a list item, and which words open a branch.
-/
import LangGen.Text.Basic

namespace LangGen.Line

/-- Opens a template: `# name`. -/
def templateMark : Char := '#'

/-- Opens an entity definition: `$ name : type`. -/
def entityMark : Char := '$'

/-- Opens a file reference: `[label](target)`. -/
def referenceMark : Char := '['

/-- Opens a comment line. -/
def commentMark : Char := '>'

/-- The three characters that open a chunk. -/
def opensChunk (c : Char) : Bool := c == templateMark || c == entityMark || c == referenceMark

/-- The three characters that decorate a list item. -/
def isItemMark (c : Char) : Bool := c == '-' || c == '*' || c == '+'

/-- Opens a branch that may follow another one. -/
def elseIfWord : Text := ['E', 'L', 'S', 'E', 'I', 'F', ':']

/-- Opens a branch with a condition. -/
def ifWord : Text := ['I', 'F', ':']

/-- Opens the branch that is taken when no condition holds. -/
def elseWord : Text := ['E', 'L', 'S', 'E', ':']

/-- Another word for `elseWord`. -/
def defaultWord : Text := ['D', 'E', 'F', 'A', 'U', 'L', 'T', ':']

/-- The words before a condition. -/
def conditionWords : List Text := [elseIfWord, ifWord]

/-- The words that open the default branch. -/
def defaultWords : List Text := [elseWord, defaultWord]

end LangGen.Line
