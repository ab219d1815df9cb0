/-
Chunks: the blocks of a template file, one for each template, entity definition and file reference.
A line that starts with a chunk mark opens a chunk and the lines after it belong to it; blank lines
and comments belong to none. Lines before the first mark are a chunk of their own.
-/
import LangGen.Text.Lines
import LangGen.Line.Marker
import LangGen.Fault

namespace LangGen

namespace Chunk

/-- Whether a line counts: blank lines and comments do not. -/
def counts (line : Text) : Bool :=
  match Text.trimStart line with
  | [] => false
  | c :: _ => c != Line.commentMark

/-- Whether a line opens a chunk. -/
def opens (line : Text) : Bool :=
  match Text.trimStart line with
  | [] => false
  | c :: _ => Line.opensChunk c

/-- The chunks that the given lines open, after the lines that come before the first of them. The
line that opens a chunk is trimmed, and the others keep their leading blanks. -/
def group : List Text → List Text × List (List Text)
  | [] => ([], [])
  | line :: rest =>
    let (body, chunks) := group rest
    if opens line then ([], (Text.trim line :: body) :: chunks)
    else (Text.trimEnd line :: body, chunks)

/-- The lines of each chunk. -/
def linesOf (content : Text) : List (List Text) :=
  match group ((Text.lines content).filter counts) with
  | ([], chunks) => chunks
  | (line :: body, chunks) => (Text.trimStart line :: body) :: chunks

/-- The chunks of a template file. -/
def split (content : Text) : List Text := (linesOf content).map Text.joinLines

/-- What a chunk defines. -/
inductive Kind
  | template
  | reference
  | entity
  deriving DecidableEq, Repr

/-- The kind of a chunk, told by its first character. -/
def kind? : Text → Option Kind
  | [] => none
  | c :: _ =>
    if c = Line.templateMark then some .template
    else if c = Line.referenceMark then some .reference
    else if c = Line.entityMark then some .entity
    else none

/-- The kind of a chunk, or the fault of a chunk that is of none. -/
def classify (chunk : Text) : Except Failure Kind :=
  match kind? chunk with
  | some kind => .ok kind
  | none => .error { fault := .unrecognized chunk none }

end Chunk

end LangGen
