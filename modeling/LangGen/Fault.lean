/-
Faults: why a template file cannot be read or localized, what each is reported as, and the place in
the source that a report names. A fault gathers its place from the inside out: what is known already
is kept when a caller adds what it knows.
-/
import LangGen.Text.Lines

namespace LangGen

/-! ## Causes -/

/-- The codes under which faults are reported. -/
inductive FaultCode
  | noListDecoration
  | invalidTemplate
  | invalidReference
  | invalidEntity
  | invalidInput
  | invalidCondition
  | invalidVariation
  | serviceFailed
  deriving DecidableEq, Repr

/-- A code as it is written. -/
def FaultCode.text : FaultCode → Text
  | noListDecoration => "NO_LIST_DECORATION_ON_VARIATION".toList
  | invalidTemplate => "INVALID_TEMPLATE".toList
  | invalidReference => "INVALID_LG_FILE_REF".toList
  | invalidEntity => "INVALID_ENTITY_DEFINITION".toList
  | invalidInput => "INVALID_INPUT".toList
  | invalidCondition => "INVALID_CONDITION".toList
  | invalidVariation => "INVALID_VARIATION".toList
  | serviceFailed => "TRANSLATE_SERVICE_FAIL".toList

/-- Why a template file cannot be read or localized. -/
inductive Fault
  /-- A fault of the input that has no cause of its own below. -/
  | general (text : Text)
  /-- A line of a template that is no list item. -/
  | undecoratedLine (line : Text)
  /-- A template without variations and branches; `reason` replaces the usual report. -/
  | emptyTemplate (name : Text) (reason : Option Text)
  /-- A reference without a target, or to a file that does not exist. -/
  | invalidReference (reference reason : Text)
  /-- An entity definition that is not of the form `$ name : type`. -/
  | invalidEntity (definition : Text)
  /-- A chunk or a line that is nothing known; `reason` replaces the usual report. -/
  | unrecognized (chunk : Text) (reason : Option Text)
  /-- The text of a branch that is not a condition. -/
  | invalidCondition (condition reason : Text)
  /-- A variation that is not well delimited. -/
  | invalidVariation (variation reason : Text)
  /-- A call of a translation service that failed, with the status of its answer. -/
  | serviceFailed (message : Text) (status : Option Int)
  deriving DecidableEq, Repr

namespace Fault

/-- The code of a fault. -/
def code : Fault → FaultCode
  | general _ | unrecognized .. => .invalidInput
  | undecoratedLine _ => .noListDecoration
  | emptyTemplate .. => .invalidTemplate
  | invalidReference .. => .invalidReference
  | invalidEntity _ => .invalidEntity
  | invalidCondition .. => .invalidCondition
  | invalidVariation .. => .invalidVariation
  | serviceFailed .. => .serviceFailed

/-- A reason that is given and not empty, or else the usual one. -/
def reasonOr (reason : Option Text) (usual : Text) : Text :=
  match reason with
  | some (c :: r) => c :: r
  | _ => usual

/-- What a reference without a target is reported as. -/
def noTarget : Text := "Invalid LG file reference".toList

/-- What a fault is reported as, without its place. -/
def text : Fault → Text
  | general text => text
  | undecoratedLine line =>
    "Template item: \"".toList ++ line ++
      "\" does not have list decoration. Prefix line with \"-\" or \"+\" or \"*\"".toList
  | emptyTemplate name reason =>
    reasonOr reason ("Template \"".toList ++ name ++
      "\" does not have any variations or conditional response definition".toList)
  | invalidReference reference reason => reason ++ ": ".toList ++ reference
  | invalidEntity definition =>
    "Invalid entity definition for \"".toList ++ definition ++ ['"']
  | unrecognized chunk reason =>
    reasonOr reason ("Unidentified template definition. ".toList ++
      "Template definition must start with # <Template Name>".toList) ++ '\n' :: chunk
  | invalidCondition condition reason =>
    "Invalid condition \"".toList ++ condition ++ "\": ".toList ++ reason
  | invalidVariation variation reason =>
    "Invalid variation \"".toList ++ variation ++ "\": ".toList ++ reason
  | serviceFailed message _ => message

end Fault

/-! ## Places -/

/-- What is known of the place of a fault: the file, the number of the chunk, the number of the line
in the chunk, and that line. -/
structure Place where
  file : Option Text := none
  chunk : Option Int := none
  line : Option Int := none
  lineText : Option Text := none
  deriving DecidableEq, Repr

namespace Place

/-- A text that is given and not empty. -/
def known? : Option Text → Option Text
  | some (c :: r) => some (c :: r)
  | _ => none

/-- The first of two texts, unless it is missing or empty. -/
def firstText (a b : Option Text) : Option Text := if (known? a).isSome then a else b

/-- What `inner` knows, and what `outer` adds to it. Numbers count once they are given, texts once
they are not empty. -/
def orElse (inner outer : Place) : Place where
  file := firstText inner.file outer.file
  chunk := inner.chunk <|> outer.chunk
  line := inner.line <|> outer.line
  lineText := firstText inner.lineText outer.lineText

/-- The lines of a report that tell a place. The number of a line is told with that of its chunk only. -/
def reportLines (p : Place) : List Text :=
  ((known? p.file).map ("  in file ".toList ++ ·)).toList ++
    (p.chunk.map fun k => "  at chunk ".toList ++ Text.ofInt k ++
      p.line.elim [] fun n => ", line ".toList ++ Text.ofInt n).toList ++
    ((known? p.lineText).map ("  line: ".toList ++ ·)).toList

/-- A place as it is reported; empty when nothing is known. -/
def report (p : Place) : Text := Text.joinLines p.reportLines

end Place

/-! ## Failures -/

/-- A fault with what is known of its place. -/
structure Failure where
  fault : Fault
  place : Option Place := none
  deriving DecidableEq, Repr

namespace Failure

/-- Adds what a caller knows of the place. -/
def within (f : Failure) (p : Place) : Failure :=
  { f with place := some (f.place.elim p (·.orElse p)) }

/-- What a failure is reported as: the text of its fault, and its place on the lines below. -/
def message (f : Failure) : Text :=
  match f.place.elim [] Place.report with
  | [] => f.fault.text
  | place => f.fault.text ++ '\n' :: place

end Failure

end LangGen
