/-
Reading template files into a catalog, chunk by chunk and line by line. Reading stops at the first
failure; what was stored up to there stays stored, so an outcome has a catalog in either case. Of
several templates, branches or entities of one name the last one is the one that is read into.
-/
import LangGen.Catalog.Draft
import LangGen.Chunk
import LangGen.Line.Item
import LangGen.Line.Link
import LangGen.Line.Mention
import LangGen.Line.Reference
import LangGen.Variation

namespace LangGen

/-! ## Outcomes -/

/-- What reading leaves behind, and the failure that ended it, if one did. -/
structure Outcome (σ : Type) where
  state : σ
  failure : Option Failure := none
  deriving DecidableEq, Repr

/-- An outcome whose failure, if there is one, is placed by a caller. -/
def Outcome.within {σ : Type} (o : Outcome σ) (p : Place) : Outcome σ :=
  { o with failure := o.failure.map (·.within p) }

/-- Reads a list of inputs one after the other until one fails; each input is read together with its
number, counted from `n`. -/
def readEach {σ α : Type} (read : Nat → σ → α → Outcome σ) : Nat → σ → List α → Outcome σ
  | _, s, [] => ⟨s, none⟩
  | n, s, x :: xs =>
    match read n s x with
    | ⟨s, none⟩ => readEach read (n + 1) s xs
    | failed => failed

/-! ## Lines of a template -/

/-- What the lines of a template change: the entities of the catalog and the template. -/
structure Body where
  entities : List Entity
  draft : Draft
  deriving DecidableEq, Repr

namespace Body

/-- Entities with one more of this name, unresolved, unless there is one. -/
def addMention (es : List Entity) (name : Text) : List Entity :=
  upsert Entity.name (fun known _ => known) es { name := name }

/-- Opens a branch. -/
def openBranch (b : Body) (condition : Text) (needsExpression : Bool) : Outcome Body :=
  match b.draft.openBranch condition needsExpression with
  | (d, none) => ⟨{ b with draft := d }, none⟩
  | (d, some p) => ⟨{ b with draft := d }, some { fault := .invalidCondition condition p.message }⟩

/-- Adds a variation. One that is not well delimited is left out, or a failure when `strict`. -/
def addVariation (strict : Bool) (b : Body) (v : Text) : Outcome Body :=
  match Variation.check strict v with
  | .ok true => ⟨{ b with draft := b.draft.addVariation v }, none⟩
  | .ok false => ⟨b, none⟩
  | .error p => ⟨b, some { fault := .invalidVariation v p.message }⟩

/-- Reads the payload of a list item. -/
def readPayload (strict : Bool) (b : Body) : Line.Payload → Outcome Body
  | .condition text => b.openBranch text true
  | .default text => b.openBranch text false
  | .variation text => b.addVariation strict text

/-- Reads a line. The entities that it mentions are known from here on, whatever comes of the line. -/
def readLine (strict : Bool) (b : Body) (line : Text) : Outcome Body :=
  if Text.allBlank line then ⟨b, none⟩
  else
    let line := Line.collapseLinks line
    let b := { b with entities := (Line.mentions line).foldl addMention b.entities }
    match Line.item? line with
    | none => ⟨b, some { fault := .undecoratedLine (Text.trim line) }⟩
    | some (_, payload) => b.readPayload strict (.ofText payload)

/-- Reads a line and tells its place on failure. -/
def readNumbered (strict : Bool) (n : Nat) (b : Body) (line : Text) : Outcome Body :=
  (b.readLine strict line).within { line := some n, lineText := some (Text.trim line) }

end Body

/-! ## Chunks -/

namespace Catalog

/-- The last template of this name. -/
def lastTemplate? (c : Catalog) (name : Text) : Option Template :=
  findLast? (·.name == name) c.templates

/-- The catalog with the last template of this name replaced. -/
def putTemplate (c : Catalog) (t : Template) : Catalog :=
  { c with templates := changeLast (·.name == t.name) (fun _ => t) c.templates }

/-- Reads the body of a template that the catalog has: what its lines change is stored at once. -/
def extendTemplate (strict : Bool) (c : Catalog) (t : Template) (body : List Text) :
    Outcome Catalog :=
  let o := readEach (Body.readNumbered strict) 2 ⟨c.entities, ⟨t, .template⟩⟩ body
  let c := { c with entities := o.state.entities }
  match o.failure with
  | some f => ⟨c.putTemplate o.state.draft.template, some f⟩
  | none =>
    let t := o.state.draft.settle.template
    ⟨c.putTemplate t,
      if t.isEmpty then some { fault := .emptyTemplate t.name none } else none⟩

/-- Reads the body of a template that the catalog does not have: it is stored when its lines have
been read without failure, and only then seen to be empty. -/
def newTemplate (strict : Bool) (c : Catalog) (name : Text) (body : List Text) : Outcome Catalog :=
  let o := readEach (Body.readNumbered strict) 2 ⟨c.entities, ⟨{ name := name }, .template⟩⟩ body
  let c := { c with entities := o.state.entities }
  match o.failure with
  | some f => ⟨c, some f⟩
  | none =>
    let t := o.state.draft.settle.template
    ⟨{ c with templates := c.templates ++ [t] },
      if t.isEmpty then some { fault := .emptyTemplate t.name none } else none⟩

/-- Reads a template: its name stands in the header after the mark, and its body below. -/
def readTemplate (strict : Bool) (c : Catalog) (header : Text) (body : List Text) :
    Outcome Catalog :=
  let name := Text.trim (header.drop 1)
  if name.isEmpty then
    let reason := "Template header \"".toList ++ header ++ "\" does not have a template name".toList
    ⟨c, some { fault := .emptyTemplate name (some reason) }⟩
  else
    match c.lastTemplate? name with
    | some t => c.extendTemplate strict t body
    | none => c.newTemplate strict name body

/-- Reads a file reference; a reference that is met again is stored again. -/
def readReference (c : Catalog) (line : Text) : Outcome Catalog :=
  match Line.fileReference? line with
  | some (_, target@(_ :: _)) => ⟨{ c with references := c.references ++ [target] }, none⟩
  | _ => ⟨c, some { fault := .invalidReference (Text.trim line) Fault.noTarget }⟩

/-- The attributes of a definition: groups of a key, a separator and a value; the last group may end
early and then has no value. -/
def attributesOf : List Text → List Attribute
  | key :: _ :: value :: rest => ⟨key, some value⟩ :: attributesOf rest
  | key :: _ => [⟨key, none⟩]
  | [] => []

/-- The entity that a line `$ name : type key = value …` defines. -/
def entityOf? (line : Text) : Option Entity :=
  match (line.drop 1).splitOn ':' with
  | [name, definition] =>
    match Text.trim name, Text.words definition with
    | name@(_ :: _), type :: rest => some ⟨name, .ofName type, attributesOf rest⟩
    | _, _ => none
  | _ => none

/-- The catalog with an entity defined: the last one of its name takes its type, or it comes last. -/
def defineEntity (c : Catalog) (e : Entity) : Catalog :=
  if c.entities.any (·.name == e.name) then
    { c with
      entities := changeLast (·.name == e.name) (fun old => { old with type := e.type }) c.entities }
  else { c with entities := c.entities ++ [e] }

/-- Reads an entity definition. -/
def readEntity (c : Catalog) (line : Text) : Outcome Catalog :=
  match entityOf? line with
  | some e => ⟨c.defineEntity e, none⟩
  | none => ⟨c, some { fault := .invalidEntity (Text.trim line) }⟩

/-- Reads a chunk, blanks around it left out. Only a template has lines after its first one. -/
def readChunk (strict : Bool) (c : Catalog) (chunk : Text) : Outcome Catalog :=
  let chunk := Text.trim chunk
  match Chunk.classify chunk, Text.lines chunk with
  | .error f, _ => ⟨c, some f⟩
  | .ok .template, header :: body => c.readTemplate strict header body
  | .ok .reference, line :: _ => c.readReference line
  | .ok .entity, line :: _ => c.readEntity line
  | .ok _, [] => ⟨c, none⟩

/-! ## Files -/

/-- Reads chunks in order; `source` is the file that a failure names. -/
def readChunks (strict : Bool) (source : Option Text) (c : Catalog) (chunks : List Text) :
    Outcome Catalog :=
  readEach (fun n c chunk =>
    (readChunk strict c chunk).within { file := source, chunk := some n }) 0 c chunks

/-- Reads the content of a template file. -/
def readContent (strict : Bool) (source : Option Text) (c : Catalog) (content : Text) :
    Outcome Catalog :=
  readChunks strict source c (Chunk.split content)

end Catalog

end LangGen
