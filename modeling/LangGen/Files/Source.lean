/-
Template files: their text, and what ends the work on files.
-/
import LangGen.Fault
import LangGen.Files.Tree

namespace LangGen.Files

open Text.Utf8 (Bytes)

/-- What ends the work on files: a failure of their content, a path that leads nowhere, or a text
that no bytes stand for. -/
inductive Halt
  | failure (f : Failure)
  | file (e : FileError)
  | unencodable
  deriving DecidableEq, Repr

/-- The fault of a file that is not UTF-8. -/
def illFormed (reason : Text.Utf8.Reason) (offset : Nat) : Fault :=
  .general ("LG file is not valid UTF-8 (".toList ++ reason.message ++ " at byte ".toList ++
    Text.ofNat offset ++ [')'])

/-- The text of the bytes of a template file, with LF at the end of each line. -/
def textOf (p : Path) (bytes : Bytes) : Except Failure Text :=
  match Text.Utf8.decodeFile bytes with
  | .ok s => .ok (Text.unixLines s)
  | .error (reason, offset) =>
    .error { fault := illFormed reason offset, place := some { file := some p.text } }

/-- The text of a template file. -/
def readText (t : Tree) (p : Path) : Except Halt Text :=
  match t.read p with
  | .error e => .error (.file e)
  | .ok bytes =>
    match textOf p bytes with
    | .ok s => .ok s
    | .error f => .error (.failure f)

end LangGen.Files
