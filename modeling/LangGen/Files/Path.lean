/-
Paths as texts name them: a root and the names below it. Empty names and `.` are left out, and `..`
stays, since what it means depends on the files.
-/
import LangGen.Text.Basic

namespace LangGen.Files

/-- A path: no slash, one or two at its start, and the names between slashes. -/
structure Path where
  root : Text := []
  names : List Text := []
  deriving DecidableEq, Repr

namespace Path

/-- The root that the slashes at the start of a text stand for. Two slashes are a root of their own,
and three are one. -/
def rootOf (s : Text) : Text :=
  match s.takeWhile (· == '/') with
  | [] => []
  | ['/', '/'] => ['/', '/']
  | _ => ['/']

/-- The path that a text names. -/
def ofText (s : Text) : Path where
  root := rootOf s
  names := (s.splitOn '/').filter fun name => name != [] && name != ['.']

/-- How a path is written. -/
def text (p : Path) : Text :=
  if p.root.isEmpty && p.names.isEmpty then ['.'] else p.root ++ Text.join ['/'] p.names

/-- A path below another one; a path with a root is below none. -/
def append (p q : Path) : Path := if q.root.isEmpty then ⟨p.root, p.names ++ q.names⟩ else q

instance : Append Path := ⟨append⟩

/-- The path without its last name. -/
def parent (p : Path) : Path := { p with names := p.names.dropLast }

/-- The last name, empty when there is none. -/
def fileName (p : Path) : Text := p.names.getLast?.getD []

/-- The last name up to its last point, unless that is its first or its last character. -/
def stem (p : Path) : Text :=
  let extension := (p.fileName.reverse.takeWhile (· != '.')).length
  let n := p.fileName.length - extension - 1
  if n = 0 ∨ extension = 0 then p.fileName else p.fileName.take n

end Path

end LangGen.Files
