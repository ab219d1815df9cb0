/-
Reading step by step. Here every step that takes something for granted can miss it: a member of a
list is taken from a place without asking whether the list is that long, a variation goes to the
branch that is active without asking whether one is, and a condition is checked by descent, for
which the room may be too small. What such a step runs into is a mishap, not a failure: nobody
reports it or adds a place to it. It ends the reading all the same, and what was stored up to there
stays stored.
-/
import LangGen.Catalog.Indexed
import LangGen.Condition.Descent

namespace LangGen.Stepwise

open Indexed (Index Rows)

/-! ## Mishaps -/

/-- What a step runs into when it misses what it takes for granted. -/
inductive Mishap
  /-- A member of a list was to be taken at a place where it has none. -/
  | noMember (place : Nat)
  /-- A variation was to go to the branch that is active, and none is. -/
  | noBranch
  /-- A token of a condition was to be taken where there is none. -/
  | noToken
  /-- The check of a condition needs more room for its calls than there is. -/
  | tooDeep (condition : Text)
  deriving DecidableEq, Repr

/-- The member of a list at a place. -/
def member {α : Type} (xs : List α) (place : Nat) : Except Mishap α :=
  match xs[place]? with
  | some x => .ok x
  | none => .error (.noMember place)

/-! ## Runs -/

/-- What ends reading before its time. -/
inductive Ending
  | failed (f : Failure)
  | mishap (m : Mishap)
  deriving DecidableEq, Repr

/-- An ending that is placed by a caller, if it is a failure. -/
def Ending.within (p : Place) : Ending → Ending
  | failed f => failed (f.within p)
  | mishap m => mishap m

/-- How the check of a condition ends reading. -/
def Ending.ofStop (condition : Text) : Condition.Descent.Stop → Ending
  | .refused why => failed { fault := .invalidCondition condition why }
  | .stranded => mishap .noToken
  | .tooDeep => mishap (.tooDeep condition)

/-- What reading leaves behind, and what ended it, if something did. -/
structure Run (σ : Type) where
  state : σ
  ending : Option Ending := none
  deriving DecidableEq, Repr

namespace Run

/-- A run that nothing but a failure may have ended. -/
def of {σ : Type} (o : Outcome σ) : Run σ := ⟨o.state, o.failure.map .failed⟩

/-- A run whose ending, if there is one, is placed by a caller. -/
def within {σ : Type} (r : Run σ) (p : Place) : Run σ := { r with ending := r.ending.map (·.within p) }

/-- Goes on with what a step has found, or ends with its mishap. -/
def given {σ α : Type} (s : σ) (found : Except Mishap α) (next : α → Run σ) : Run σ :=
  match found with
  | .ok a => next a
  | .error m => ⟨s, some (.mishap m)⟩

end Run

/-- Reads a list of inputs one after the other until one ends the reading; each input is read
together with its number, counted from `n`. -/
def readEach {σ α : Type} (read : Nat → σ → α → Run σ) : Nat → σ → List α → Run σ
  | _, s, [] => ⟨s, none⟩
  | n, s, x :: xs =>
    match read n s x with
    | ⟨s, none⟩ => readEach read (n + 1) s xs
    | ended => ended

/-! ## Drafts -/

/-- Where plain lines go. -/
inductive Mode
  /-- To the template itself. -/
  | flat
  /-- To the branch that is active. -/
  | conditional
  deriving DecidableEq, Repr

/-- A template while its lines are read. Its branches are told by their places among all that have
been made; one that is pending is still to join the template. -/
structure Draft where
  name : Text
  variations : List Text
  /-- The branches that have been made, whether the template has them or not. -/
  made : List Branch
  /-- The branches of the template. -/
  branches : List Nat
  conditions : Index
  mode : Mode := .flat
  active : Option Nat := none
  pending : Option Nat := none
  deriving DecidableEq, Repr

namespace Draft

/-- Takes up a template. -/
def start (t : Template) : Draft where
  name := t.name
  variations := t.variations
  made := t.branches
  branches := List.range t.branches.length
  conditions := .ofNames (t.branches.map Branch.condition)

/-- The template as it stands. -/
def template (d : Draft) : Template := ⟨d.name, d.variations, d.branches.filterMap (d.made[·]?)⟩

/-- The draft once the branch that is pending, if there is one, has joined the template. -/
def settle (d : Draft) : Draft :=
  match d.pending with
  | some i => { d with branches := d.branches ++ [i], pending := none }
  | none => d

/-- Opens a branch: the one that the index has for this condition, or a new one if the condition is
well formed. The draft settles in either case; how the check of the condition ended is returned with
it. -/
def openBranch (room : Nat) (d : Draft) (condition : Text) (needsExpression : Bool) :
    Draft × Except Condition.Descent.Stop Unit :=
  let d := d.settle
  match d.conditions.place? condition with
  | some i => ({ d with mode := .conditional, active := some i }, .ok ())
  | none =>
    match Condition.checkByDescent room condition needsExpression with
    | .error stop => (d, .error stop)
    | .ok () =>
      let i := d.made.length
      ({ d with
          made := d.made ++ [⟨condition, []⟩]
          conditions := (condition, i) :: d.conditions
          mode := .conditional
          active := some i
          pending := some i }, .ok ())

/-- Adds a variation to the template, or to the branch that is active. -/
def addVariation (d : Draft) (v : Text) : Except Mishap Draft :=
  match d.mode, d.active with
  | .flat, _ => .ok { d with variations := addNew d.variations v }
  | .conditional, some i => .ok { d with made := d.made.modify i (·.addVariation v) }
  | .conditional, none => .error .noBranch

end Draft

/-! ## Lines of a template -/

/-- The mark and the payload of a list item. -/
def item? (line : Text) : Except Mishap (Option (Char × Text)) := do
  let s := Text.trimStart line
  if s.isEmpty then return none
  let mark ← member s 0
  return if Line.isItemMark mark then some (mark, Text.trim (s.drop 1)) else none

open Variation in
/-- The first problem of the rest of a text; the innermost delimiter is taken from the start of the
stack. -/
def problemFrom (escaped : Bool) (stack : List Opened) : Text → Except Mishap (Option Problem)
  | [] =>
    if stack.isEmpty then .ok none
    else do return some (.unclosed (← member stack 0).kind.opener)
  | c :: r =>
    if escaped then problemFrom false (touch c stack) r
    else if c = '\\' then problemFrom true (touch c stack) r
    else
      match Delimiter.ofOpener? c with
      | some kind => problemFrom false (⟨kind, true⟩ :: touch c stack) r
      | none =>
        match Delimiter.ofCloser? c with
        | none => problemFrom false (touch c stack) r
        | some kind =>
          if stack.isEmpty then .ok (some (.unbalanced c))
          else do
            let o ← member stack 0
            if o.kind ≠ kind then return some (.unbalanced c)
            else if kind = .brace ∧ o.blank then return some .emptyBraces
            else problemFrom false (touch c (stack.drop 1)) r

/-- The first problem of a variation. -/
def problem? (s : Text) : Except Mishap (Option Variation.Problem) :=
  if Text.allBlank s then .ok (some .blank) else problemFrom false [] s

/-- What the lines of a template change. -/
structure Body where
  entities : Rows Entity
  draft : Draft
  deriving DecidableEq, Repr

namespace Body

variable (room : Nat) (strict : Bool) (b : Body)

/-- Opens a branch. -/
def openBranch (condition : Text) (needsExpression : Bool) : Run Body :=
  match b.draft.openBranch room condition needsExpression with
  | (d, .ok ()) => ⟨{ b with draft := d }, none⟩
  | (d, .error stop) => ⟨{ b with draft := d }, some (.ofStop condition stop)⟩

/-- Adds a variation. One that is not well delimited is left out, or a failure when `strict`. -/
def addVariation (v : Text) : Run Body :=
  .given b (problem? v) fun
    | none => .given b (b.draft.addVariation v) fun d => ⟨{ b with draft := d }, none⟩
    | some p => ⟨b, if strict then some (.failed { fault := .invalidVariation v p.message }) else none⟩

/-- Reads the payload of a list item. -/
def readPayload : Line.Payload → Run Body
  | .condition text => b.openBranch room text true
  | .default text => b.openBranch room text false
  | .variation text => b.addVariation strict text

/-- Reads a line, after the entities that it mentions. -/
def readLine (line : Text) : Run Body :=
  if Text.allBlank line then ⟨b, none⟩
  else
    let line := Line.collapseLinks line
    let b := { b with entities := (Line.mentions line).foldl Indexed.Body.addMention b.entities }
    .given b (item? line) fun
      | none => ⟨b, some (.failed { fault := .undecoratedLine (Text.trim line) })⟩
      | some (_, payload) => b.readPayload room strict (.ofText payload)

/-- Reads a line and tells its place on failure. -/
def readNumbered (n : Nat) (line : Text) : Run Body :=
  (b.readLine room strict line).within { line := some n, lineText := some (Text.trim line) }

end Body

/-! ## Definitions -/

/-- The attribute whose key is the word at a place: a separator comes next, and then its value,
unless the words end before. -/
def attributeAt (words : List Text) (place : Nat) : Except Mishap Attribute := do
  let key ← member words place
  if place + 2 < words.length then return ⟨key, some (← member words (place + 2))⟩
  else return ⟨key, none⟩

/-- The attributes of a definition, one for each third word after the type. -/
def attributesOf (words : List Text) : Except Mishap (List Attribute) :=
  (List.range' 1 ((words.length + 1) / 3) 3).mapM (attributeAt words)

/-- The entity that a line `$ name : type key = value …` defines. -/
def entityOf? (line : Text) : Except Mishap (Option Entity) := do
  let parts := (line.drop 1).splitOn ':'
  if parts.length ≠ 2 then return none
  let name := Text.trim (← member parts 0)
  let words := Text.words (← member parts 1)
  if name.isEmpty ∨ words.isEmpty then return none
  return some ⟨name, .ofName (← member words 0), ← attributesOf words⟩

/-! ## Chunks -/

variable (room : Nat) (strict : Bool) (c : Indexed.Catalog)

/-- Reads the lines of a template one after the other. -/
def readLines (t : Template) (lines : List Text) : Run Body :=
  readEach (fun n b line => b.readNumbered room strict n line) 2 ⟨c.entities, .start t⟩ lines

/-- Reads the body of the template at a place: what its lines change is stored at once. -/
def extendTemplate (place : Nat) (t : Template) (body : List Text) : Run Indexed.Catalog :=
  let r := readLines room strict c t body
  let c := { c with entities := r.state.entities }
  match r.ending with
  | some e => ⟨c.putTemplate place r.state.draft.template, some e⟩
  | none =>
    let t := r.state.draft.settle.template
    ⟨c.putTemplate place t, if t.isEmpty then some (.failed { fault := .emptyTemplate t.name none }) else none⟩

/-- Reads the body of a new template, which is stored when its lines have been read to the last. -/
def newTemplate (name : Text) (body : List Text) : Run Indexed.Catalog :=
  let r := readLines room strict c { name := name } body
  let c := { c with entities := r.state.entities }
  match r.ending with
  | some e => ⟨c, some e⟩
  | none =>
    let t := r.state.draft.settle.template
    ⟨{ c with templates := c.templates.add t.name t },
      if t.isEmpty then some (.failed { fault := .emptyTemplate t.name none }) else none⟩

/-- Reads a template into the one that the index has for its name, or into a new one; its header is
the first of the lines. -/
def readTemplate (lines : List Text) : Run Indexed.Catalog :=
  .given c (member lines 0) fun header =>
    let body := lines.drop 1
    let name := Text.trim (header.drop 1)
    if name.isEmpty then
      let reason := "Template header \"".toList ++ header ++ "\" does not have a template name".toList
      ⟨c, some (.failed { fault := .emptyTemplate name (some reason) })⟩
    else
      match c.templates.index.place? name with
      | some place =>
        .given c (member c.templates.members place) fun t => extendTemplate room strict c place t body
      | none => newTemplate room strict c name body

/-- Reads an entity definition. -/
def readEntity (line : Text) : Run Indexed.Catalog :=
  .given c (entityOf? line) fun
    | some e => ⟨c.defineEntity e, none⟩
    | none => ⟨c, some (.failed { fault := .invalidEntity (Text.trim line) })⟩

/-- Reads a chunk. -/
def readChunk (chunk : Text) : Run Indexed.Catalog :=
  let chunk := Text.trim chunk
  let lines := Text.lines chunk
  match Chunk.classify chunk with
  | .error f => ⟨c, some (.failed f)⟩
  | .ok .template => readTemplate room strict c lines
  | .ok .reference => .given c (member lines 0) fun line => .of (c.readReference line)
  | .ok .entity => .given c (member lines 0) fun line => readEntity c line

/-- Reads chunks into a catalog, where the check of a condition finds room for so many calls of
procedures. -/
def readChunks (source : Option Text) (c : LangGen.Catalog) (chunks : List Text) : Run LangGen.Catalog :=
  let read (n : Nat) (c : Indexed.Catalog) (chunk : Text) : Run Indexed.Catalog :=
    (readChunk room strict c chunk).within { file := source, chunk := some n }
  let r := readEach read 0 (.of c) chunks
  ⟨r.state.plain, r.ending⟩

end LangGen.Stepwise
