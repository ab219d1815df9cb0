/-
File trees: folders and files below one root, and a working folder from which paths without a root
start. A path leads from folder to folder, `..` goes up, and every folder on the way must exist.
Links from one place to another are left out.
-/
import LangGen.Files.Path
import LangGen.Text.Utf8

namespace LangGen.Files

open Text.Utf8 (Bytes)

/-! ## Locations -/

/-- Where a file or a folder is: the names that lead to it from the root, none of which goes up. So
there is one location for each, whatever path led to it. -/
structure Location where
  names : List Text := []
  deriving DecidableEq, Repr

namespace Location

/-- The folder that holds a location; the root holds itself. -/
def parent (l : Location) : Location := ⟨l.names.dropLast⟩

/-- The location that a name leads to. -/
def child (l : Location) (name : Text) : Location :=
  if name = ['.', '.'] then l.parent else ⟨l.names ++ [name]⟩

end Location

/-! ## Trees -/

/-- Why a path leads nowhere. -/
inductive FileError
  | notFound
  | isFolder
  | notFolder
  | alreadyExists
  | nullCharacter
  | nameTooLong
  deriving DecidableEq, Repr

/-- The folders and the files that there are, and the working folder. The root need not be listed. -/
structure Tree where
  working : Location := {}
  folders : List Location := []
  files : List (Location × Bytes) := []

/-- What is at a location. -/
inductive Node
  | folder
  | file (bytes : Bytes)
  deriving DecidableEq, Repr

namespace Tree

/-- What is at a location, if anything; the root is a folder. -/
def node? (t : Tree) (l : Location) : Option Node :=
  match t.files.find? (·.1 == l) with
  | some f => some (.file f.2)
  | none => if l.names.isEmpty || t.folders.contains l then some .folder else none

/-- The longest name, in bytes. -/
def maxName : Nat := 255

/-- The longest path, in bytes. -/
def maxPath : Nat := 4095

/-- Where names lead to from a location. All but the last must lead to a folder. -/
def walk (t : Tree) : Location → List Text → Except FileError Location
  | l, [] => .ok l
  | l, name :: names =>
    match t.node? l with
    | none => .error .notFound
    | some (.file _) => .error .notFolder
    | some .folder =>
      if maxName < (Text.Utf8.encode name).length then .error .nameTooLong
      else walk t (l.child name) names

/-- Where a path starts when it is taken from a folder: there, unless it has a root. -/
def start (folder : Location) (p : Path) : Location := if p.root.isEmpty then folder else {}

/-- Where a path leads to. -/
def locate (t : Tree) (p : Path) : Except FileError Location :=
  if p.text.contains (Char.ofNat 0) then .error .nullCharacter
  else if maxPath < (Text.Utf8.encode p.text).length then .error .nameTooLong
  else t.walk (start t.working p) p.names

/-- What a path leads to. -/
def look (t : Tree) (p : Path) : Except FileError Node :=
  (t.locate p).bind fun l => (t.node? l).elim (.error .notFound) .ok

/-- Whether a path leads to a folder. A path that cannot lead anywhere does not, but one that is too
long is an error. -/
def isFolder (t : Tree) (p : Path) : Except FileError Bool :=
  match t.look p with
  | .ok .folder => .ok true
  | .error .nameTooLong => .error .nameTooLong
  | _ => .ok false

/-- The bytes of the file that a path leads to. -/
def read (t : Tree) (p : Path) : Except FileError Bytes :=
  match t.look p with
  | .ok (.file bytes) => .ok bytes
  | .ok .folder => .error .isFolder
  | .error e => .error e

/-- The file at a location, as one of the files of the tree. -/
def fileAt? (t : Tree) (l : Location) : Option { f : Location × Bytes // f ∈ t.files } :=
  t.files.attach.find? (·.1.1 == l)

/-- The file that a path leads to, if it leads to one; a path that is too long is an error. -/
def file? (t : Tree) (p : Path) :
    Except FileError (Option { f : Location × Bytes // f ∈ t.files }) :=
  match t.locate p with
  | .ok l => .ok (t.fileAt? l)
  | .error .nameTooLong => .error .nameTooLong
  | .error _ => .ok none

/-! ## Changes -/

/-- The tree with a file at a location, in place of any file that was there. -/
def put (t : Tree) (l : Location) (bytes : Bytes) : Tree :=
  if t.files.any (·.1 == l) then
    { t with files := t.files.map fun f => if f.1 == l then (l, bytes) else f }
  else { t with files := t.files ++ [(l, bytes)] }

/-- Opens a file to be written: it is emptied, or made if its folder exists. Tells where it is. -/
def create (t : Tree) (p : Path) : Except FileError (Location × Tree) :=
  (t.locate p).bind fun l =>
    match t.node? l with
    | some .folder => .error .isFolder
    | some (.file _) => .ok (l, t.put l [])
    | none =>
      match t.node? l.parent with
      | some .folder => .ok (l, t.put l [])
      | some (.file _) => .error .notFolder
      | none => .error .notFound

/-- Makes one folder; the folder that is to hold it must exist. -/
def makeFolder (t : Tree) (p : Path) : Except FileError Tree :=
  (t.locate p).bind fun l =>
    match t.node? l with
    | some _ => .error .alreadyExists
    | none => .ok { t with folders := t.folders ++ [l] }

/-- Makes one folder and takes one that is there already for made. -/
def makeFolderOnce (t : Tree) (p : Path) : Tree × Option FileError :=
  match t.makeFolder p with
  | .ok t => (t, none)
  | .error .nullCharacter => (t, some .nullCharacter)
  | .error e =>
    match t.isFolder p with
    | .ok true => (t, none)
    | .ok false => (t, some e)
    | .error e => (t, some e)

/-- Makes the folder with the given names, last name first, and those above it that do not exist.
What has been made stays made when a later one cannot be. -/
def makeFoldersFrom (root : Text) : List Text → Tree → Tree × Option FileError
  | [], t => t.makeFolderOnce ⟨root, []⟩
  | name :: above, t =>
    let p : Path := ⟨root, (name :: above).reverse⟩
    match t.makeFolderOnce p with
    | (t, some .notFound) =>
      match makeFoldersFrom root above t with
      | (t, none) => t.makeFolderOnce p
      | failed => failed
    | made => made

/-- Makes a folder and those above it that do not exist. -/
def makeFolders (t : Tree) (p : Path) : Tree × Option FileError :=
  makeFoldersFrom p.root p.names.reverse t

end Tree

end LangGen.Files
