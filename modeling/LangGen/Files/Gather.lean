/-
Gathering a catalog from a template file and the files that it refers to, directly or through
others. Files are taken in the order in which references to them are met, each once, however many
paths lead to it.
-/
import LangGen.Catalog.Reading
import LangGen.Files.Source

namespace LangGen.Files

open Text.Utf8 (Bytes)

/-- A file of a tree, under the path by which it was met. -/
abbrev Entry (t : Tree) := Path × { f : Location × Bytes // f ∈ t.files }

/-- How many files of a tree have not been seen. -/
def unseen (t : Tree) (seen : List Location) : Nat :=
  (t.files.filter fun f => !seen.contains f.1).length

/-- Seeing a file that has not been seen leaves fewer. -/
theorem unseen_cons_lt (t : Tree) (seen : List Location) (f : Location × Bytes) (hf : f ∈ t.files)
    (hs : f.1 ∉ seen) : unseen t (f.1 :: seen) < unseen t seen := by
  unfold unseen
  have hsplit : (t.files.filter fun g => !(f.1 :: seen).contains g.1) =
      (t.files.filter fun g => !seen.contains g.1).filter fun g => g.1 != f.1 := by
    rw [List.filter_filter]
    congr 1
    funext g
    simp only [List.contains_cons, Bool.not_or]
    rfl
  rw [hsplit]
  refine List.length_filter_lt_length_iff_exists.2 ⟨f, ?_, by simp⟩
  rw [List.mem_filter]
  exact ⟨hf, by simpa using hs⟩

/-- The files that references lead to from the folder of `p`, or the first reference that leads to
none. -/
def entriesOf (t : Tree) (p : Path) : List Text → Except Halt (List (Entry t))
  | [] => .ok []
  | reference :: rest =>
    let q := p.parent ++ Path.ofText reference
    match t.file? q with
    | .error e => .error (.file e)
    | .ok none =>
      let fault : Fault := .invalidReference reference "Referenced LG file does not exist".toList
      .error (.failure { fault, place := some { file := some p.text } })
    | .ok (some f) => (entriesOf t p rest).map ((q, f) :: ·)

/-- Reads the files of a queue into a catalog, and those that they refer to when `follow`. -/
def gatherFrom (t : Tree) (follow strict : Bool) (queue : List (Entry t)) (seen : List Location)
    (c : Catalog) : Except Halt Catalog :=
  match queue with
  | [] => .ok c
  | (p, f) :: queue =>
    if _h : f.1.1 ∈ seen then gatherFrom t follow strict queue seen c
    else
      match textOf p f.1.2 with
      | .error e => .error (.failure e)
      | .ok content =>
        match Catalog.readContent strict (some p.text) {} content with
        | ⟨_, some e⟩ => .error (.failure e)
        | ⟨file, none⟩ =>
          match if follow then entriesOf t p file.references else .ok [] with
          | .error e => .error e
          | .ok entries =>
            gatherFrom t follow strict (queue ++ entries) (f.1.1 :: seen) (c.merge file)
termination_by (unseen t seen, queue.length)
decreasing_by
  · exact Prod.Lex.right _ (by simp)
  · exact Prod.Lex.left _ _ (unseen_cons_lt t seen f.1 f.2 _h)

/-- The catalog of a template file, together with those of the files it refers to when `follow`. -/
def gather (t : Tree) (follow strict : Bool) (p : Path) : Except Halt Catalog :=
  match t.file? p with
  | .error e => .error (.file e)
  | .ok none =>
    .error (.failure { fault := .invalidReference p.text "LG file does not exist".toList })
  | .ok (some f) => gatherFrom t follow strict [(p, f)] [] {}

/-- The catalogs of several template files, merged in order into `c`. -/
def gatherAllFrom (t : Tree) (follow strict : Bool) (c : Catalog) :
    List Path → Except Halt Catalog
  | [] => .ok c
  | p :: ps =>
    match gather t follow strict p with
    | .error e => .error e
    | .ok file => gatherAllFrom t follow strict (c.merge file) ps

/-- The catalogs of several template files, merged in order. -/
def gatherAll (t : Tree) (follow strict : Bool) (ps : List Path) : Except Halt Catalog :=
  gatherAllFrom t follow strict {} ps

end LangGen.Files
