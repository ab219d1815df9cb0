/-
Reading with indexes. Names and conditions are not searched for in the lists that hold them but
looked up in indexes, which are built when a catalog or a template is taken up and kept in step from
then on. A branch that has not joined its template yet is in the index already, under the place that
it will take.
-/
import LangGen.Catalog.Reading

namespace LangGen

/-- An outcome with its state seen in another way. -/
def Outcome.map {σ τ : Type} (f : σ → τ) (o : Outcome σ) : Outcome τ := ⟨f o.state, o.failure⟩

namespace Indexed

/-! ## Indexes -/

/-- The places of the members of a list by their names. The last member comes first, so that it
hides the earlier ones of its name. -/
abbrev Index := List (Text × Nat)

namespace Index

/-- The index of a list whose members have these names. -/
def ofNames (names : List Text) : Index := names.zipIdx.reverse

/-- The place that an index has for a name. -/
def place? (ix : Index) (name : Text) : Option Nat := ix.lookup name

end Index

/-- A list of named members together with an index of it. -/
structure Rows (α : Type) where
  members : List α
  index : Index
  deriving DecidableEq, Repr

namespace Rows

/-- A list with a new index of it. -/
def of {α : Type} (name : α → Text) (xs : List α) : Rows α := ⟨xs, .ofNames (xs.map name)⟩

/-- One more member of this name. -/
def add {α : Type} (r : Rows α) (name : Text) (x : α) : Rows α :=
  ⟨r.members ++ [x], (name, r.members.length) :: r.index⟩

/-- Changes the member at a place, but not its name. -/
def change {α : Type} (r : Rows α) (place : Nat) (f : α → α) : Rows α :=
  { r with members := r.members.modify place f }

end Rows

/-! ## Drafts -/

/-- Where variations go. -/
inductive Target
  /-- To the template itself. -/
  | template
  /-- To the branch at this place of the template. -/
  | branch (place : Nat)
  /-- To a new branch that is not among its branches yet. -/
  | fresh (branch : Branch)
  deriving DecidableEq, Repr

/-- A template while its lines are read, with an index of its conditions. -/
structure Draft where
  template : Template
  conditions : Index
  target : Target := .template
  deriving DecidableEq, Repr

namespace Draft

/-- Takes up a template. -/
def start (t : Template) : Draft := ⟨t, .ofNames (t.branches.map Branch.condition), .template⟩

/-- The draft once a new branch, if there is one, has joined the template. -/
def settle (d : Draft) : Draft :=
  match d.target with
  | .fresh b =>
    { d with
      template := { d.template with branches := d.template.branches ++ [b] }
      target := .branch d.template.branches.length }
  | _ => d

/-- Opens a branch: the one that the index has for this condition, or a new one if the condition is
well formed, which the index has from then on. -/
def openBranch (d : Draft) (condition : Text) (needsExpression : Bool) :
    Draft × Option Condition.Problem :=
  let d := d.settle
  match d.conditions.place? condition with
  | some place => ({ d with target := .branch place }, none)
  | none =>
    match Condition.check condition needsExpression with
    | .error p => (d, some p)
    | .ok () =>
      ({ d with
          conditions := (condition, d.template.branches.length) :: d.conditions
          target := .fresh ⟨condition, []⟩ }, none)

/-- Adds a variation where variations go. -/
def addVariation (d : Draft) (v : Text) : Draft :=
  match d.target with
  | .template => { d with template := d.template.addVariation v }
  | .branch place =>
    let branches := d.template.branches.modify place (·.addVariation v)
    { d with template := { d.template with branches := branches } }
  | .fresh b => { d with target := .fresh (b.addVariation v) }

end Draft

/-! ## Lines of a template -/

/-- What the lines of a template change. -/
structure Body where
  entities : Rows Entity
  draft : Draft
  deriving DecidableEq, Repr

namespace Body

/-- One more entity of this name, unresolved, unless the index has one. -/
def addMention (es : Rows Entity) (name : Text) : Rows Entity :=
  match es.index.place? name with
  | some _ => es
  | none => es.add name { name := name }

/-- Opens a branch. -/
def openBranch (b : Body) (condition : Text) (needsExpression : Bool) : Outcome Body :=
  match b.draft.openBranch condition needsExpression with
  | (d, none) => ⟨{ b with draft := d }, none⟩
  | (d, some p) => ⟨{ b with draft := d }, some { fault := .invalidCondition condition p.message }⟩

/-- Adds a variation. One that is not well delimited is left out, or a failure when `strict`. -/
def addVariation (strict : Bool) (b : Body) (v : Text) : Outcome Body :=
  match Variation.check strict v with
  | .ok true => ⟨{ b with draft := b.draft.addVariation v }, none⟩
  | .ok false => ⟨b, none⟩
  | .error p => ⟨b, some { fault := .invalidVariation v p.message }⟩

/-- Reads the payload of a list item. -/
def readPayload (strict : Bool) (b : Body) : Line.Payload → Outcome Body
  | .condition text => b.openBranch text true
  | .default text => b.openBranch text false
  | .variation text => b.addVariation strict text

/-- Reads a line, after the entities that it mentions. -/
def readLine (strict : Bool) (b : Body) (line : Text) : Outcome Body :=
  if Text.allBlank line then ⟨b, none⟩
  else
    let line := Line.collapseLinks line
    let b := { b with entities := (Line.mentions line).foldl addMention b.entities }
    match Line.item? line with
    | none => ⟨b, some { fault := .undecoratedLine (Text.trim line) }⟩
    | some (_, payload) => b.readPayload strict (.ofText payload)

/-- Reads a line and tells its place on failure. -/
def readNumbered (strict : Bool) (n : Nat) (b : Body) (line : Text) : Outcome Body :=
  (b.readLine strict line).within { line := some n, lineText := some (Text.trim line) }

end Body

/-! ## Chunks -/

/-- A catalog with the indexes of its templates and of its entities. -/
structure Catalog where
  templates : Rows Template
  entities : Rows Entity
  references : List Text
  deriving DecidableEq, Repr

namespace Catalog

/-- A catalog with new indexes. -/
def of (c : LangGen.Catalog) : Catalog :=
  ⟨.of Template.name c.templates, .of Entity.name c.entities, c.references⟩

/-- The catalog without its indexes. -/
def plain (c : Catalog) : LangGen.Catalog :=
  ⟨c.templates.members, c.entities.members, c.references⟩

/-- The catalog with another template at a place. -/
def putTemplate (c : Catalog) (place : Nat) (t : Template) : Catalog :=
  { c with templates := c.templates.change place fun _ => t }

/-- Reads the body of the template at a place: what its lines change is stored at once. -/
def extendTemplate (strict : Bool) (c : Catalog) (place : Nat) (t : Template) (body : List Text) :
    Outcome Catalog :=
  let o := readEach (Body.readNumbered strict) 2 ⟨c.entities, .start t⟩ body
  let c := { c with entities := o.state.entities }
  match o.failure with
  | some f => ⟨c.putTemplate place o.state.draft.template, some f⟩
  | none =>
    let t := o.state.draft.settle.template
    ⟨c.putTemplate place t,
      if t.isEmpty then some { fault := .emptyTemplate t.name none } else none⟩

/-- Reads the body of a new template, which is stored when its lines have been read without failure. -/
def newTemplate (strict : Bool) (c : Catalog) (name : Text) (body : List Text) : Outcome Catalog :=
  let o := readEach (Body.readNumbered strict) 2 ⟨c.entities, .start { name := name }⟩ body
  let c := { c with entities := o.state.entities }
  match o.failure with
  | some f => ⟨c, some f⟩
  | none =>
    let t := o.state.draft.settle.template
    ⟨{ c with templates := c.templates.add t.name t },
      if t.isEmpty then some { fault := .emptyTemplate t.name none } else none⟩

/-- Reads a template into the one that the index has for its name, or into a new one. -/
def readTemplate (strict : Bool) (c : Catalog) (header : Text) (body : List Text) :
    Outcome Catalog :=
  let name := Text.trim (header.drop 1)
  if name.isEmpty then
    let reason := "Template header \"".toList ++ header ++ "\" does not have a template name".toList
    ⟨c, some { fault := .emptyTemplate name (some reason) }⟩
  else
    match (c.templates.index.place? name).bind fun i => c.templates.members[i]?.map (i, ·) with
    | some (place, t) => c.extendTemplate strict place t body
    | none => c.newTemplate strict name body

/-- Reads a file reference. -/
def readReference (c : Catalog) (line : Text) : Outcome Catalog :=
  match Line.fileReference? line with
  | some (_, target@(_ :: _)) => ⟨{ c with references := c.references ++ [target] }, none⟩
  | _ => ⟨c, some { fault := .invalidReference (Text.trim line) Fault.noTarget }⟩

/-- The catalog with an entity defined: the one that the index has for its name takes its type, or
it comes last. -/
def defineEntity (c : Catalog) (e : Entity) : Catalog :=
  match c.entities.index.place? e.name with
  | some place =>
    { c with entities := c.entities.change place fun old => { old with type := e.type } }
  | none => { c with entities := c.entities.add e.name e }

/-- Reads an entity definition. -/
def readEntity (c : Catalog) (line : Text) : Outcome Catalog :=
  match LangGen.Catalog.entityOf? line with
  | some e => ⟨c.defineEntity e, none⟩
  | none => ⟨c, some { fault := .invalidEntity (Text.trim line) }⟩

/-- Reads a chunk. -/
def readChunk (strict : Bool) (c : Catalog) (chunk : Text) : Outcome Catalog :=
  let chunk := Text.trim chunk
  match Chunk.classify chunk, Text.lines chunk with
  | .error f, _ => ⟨c, some f⟩
  | .ok .template, header :: body => c.readTemplate strict header body
  | .ok .reference, line :: _ => c.readReference line
  | .ok .entity, line :: _ => c.readEntity line
  | .ok _, [] => ⟨c, none⟩

end Catalog

/-- Reads chunks into a catalog: its indexes are built once and kept in step from chunk to chunk. -/
def readChunks (strict : Bool) (source : Option Text) (c : LangGen.Catalog) (chunks : List Text) :
    Outcome LangGen.Catalog :=
  (readEach (fun n c chunk =>
    (Catalog.readChunk strict c chunk).within { file := source, chunk := some n }) 0 (.of c)
      chunks).map Catalog.plain

end Indexed

end LangGen
