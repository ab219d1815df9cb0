/-
List items: a line whose first character that is not blank is `-`, `*` or `+`. What follows the
mark, trimmed, is the payload.
-/
import LangGen.Line.Marker

namespace LangGen.Line

/-- The mark and the payload of a list item. -/
def item? (line : Text) : Option (Char × Text) :=
  match Text.trimStart line with
  | [] => none
  | c :: r => if isItemMark c then some (c, Text.trim r) else none

/-- What the payload of an item stands for. -/
inductive Payload
  /-- A branch with the text after `IF:` or `ELSEIF:`, trimmed. -/
  | condition (text : Text)
  /-- The default branch, with `ELSE:` and whatever follows the word that opened it, trimmed. -/
  | default (text : Text)
  /-- A variation. -/
  | variation (text : Text)
  deriving DecidableEq, Repr

/-- Reads a payload: the words of a branch count at its very start only. -/
def Payload.ofText (payload : Text) : Payload :=
  match Text.leadOf? conditionWords payload with
  | some word => .condition (Text.trim (payload.drop word.length))
  | none =>
    match Text.leadOf? defaultWords payload with
    | some word => .default (Text.trim (elseWord ++ payload.drop word.length))
    | none => .variation payload

end LangGen.Line
