/-
Catalogs as JSON. Each field has the key it is written with and may be read under a second one; the
first of the two wins. Reading coerces nothing and reports every issue, field by field in the order
of writing.
-/
import LangGen.Catalog.Basic
import LangGen.Json.Printer
import LangGen.Json.Reader

namespace LangGen

/-! ## Writing -/

namespace Catalog

def attributeToJson (a : Attribute) : Json :=
  .ofMembers [("key", .string a.key), ("value", .ofOption .string a.value)]

def entityToJson (e : Entity) : Json :=
  .ofMembers [("name", .string e.name), ("entityType", .string e.type.text),
    ("attributes", .array (e.attributes.map attributeToJson))]

def branchToJson (b : Branch) : Json :=
  .ofMembers [("condition", .string b.condition), ("variations", .array (b.variations.map .string))]

def templateToJson (t : Template) : Json :=
  .ofMembers [("name", .string t.name), ("variations", .array (t.variations.map .string)),
    ("conditionalResponses", .array (t.branches.map branchToJson))]

/-- A catalog as a JSON value. -/
def toJson (c : Catalog) : Json :=
  .ofMembers [("templates", .array (c.templates.map templateToJson)),
    ("entities", .array (c.entities.map entityToJson)),
    ("additionalFileReferences", .array (c.references.map .string))]

/-- A catalog as JSON text. -/
def write (l : Json.Layout) (c : Catalog) : Text := Json.print l c.toJson

end Catalog

/-! ## Issues -/

/-- A step from a value to a part of it. -/
inductive Step
  | key (name : Text)
  | index (n : Nat)
  deriving DecidableEq, Repr

/-- What is wrong with a value. -/
inductive IssueKind
  | notJson
  | notObject
  | missing
  | notString
  | notArray
  | notEntityType
  deriving DecidableEq, Repr

/-- An issue, and the way from the whole value to where it is. -/
structure Issue where
  path : List Step
  kind : IssueKind
  deriving DecidableEq, Repr

/-- The issue seen from the value that holds the part reached by `step`. -/
def Issue.under (step : Step) (i : Issue) : Issue := { i with path := step :: i.path }

/-- Quoted alternatives, with a comma between them and "or" before the last. -/
def Issue.alternatives : List Text → Text
  | [] => []
  | [s] => '\'' :: s ++ ['\'']
  | [s, t] => '\'' :: s ++ "' or '".toList ++ t ++ ['\'']
  | s :: r => '\'' :: s ++ "', ".toList ++ Issue.alternatives r

/-- What an issue is reported as. Text that is not JSON has no report of its own. -/
def IssueKind.message : IssueKind → Text
  | notJson => []
  | notObject => "Input should be an object".toList
  | missing => "Field required".toList
  | notString => "Input should be a valid string".toList
  | notArray => "Input should be a valid array".toList
  | notEntityType =>
    "Input should be ".toList ++ Issue.alternatives (EntityType.all.map EntityType.text)

/-! ## Reading -/

namespace Catalog

/-- A value that has been read, or the issues that prevent it. -/
abbrev Checked (α : Type) := Except (List Issue) α

/-- Both values, or the issues of both. -/
def both {α β : Type} (a : Checked α) (b : Checked β) : Checked (α × β) :=
  match a, b with
  | .ok a, .ok b => .ok (a, b)
  | .error is, .error js => .error (is ++ js)
  | .error is, .ok _ => .error is
  | .ok _, .error js => .error js

/-- A value read from a part, with the issues placed under that part. -/
def under {α : Type} (step : Step) : Checked α → Checked α
  | .ok a => .ok a
  | .error is => .error (is.map (·.under step))

/-- A single issue at this value. -/
def issue {α : Type} (kind : IssueKind) : Checked α := .error [⟨[], kind⟩]

/-- A string. -/
def readString : Json → Checked Text
  | .string s => .ok s
  | _ => issue .notString

/-- A string or null. -/
def readOptional : Json → Checked (Option Text)
  | .null => .ok none
  | j => (readString j).map some

/-- The items of a list, numbered from `n`. -/
def readItems {α : Type} (read : Json → Checked α) : Nat → List Json → Checked (List α)
  | _, [] => .ok []
  | n, j :: js =>
    (both (under (.index n) (read j)) (readItems read (n + 1) js)).map fun p => p.1 :: p.2

/-- A list. -/
def readList {α : Type} (read : Json → Checked α) : Json → Checked (List α)
  | .array items => readItems read 0 items
  | _ => issue .notArray

/-- A type by its exact name. -/
def readType : Json → Checked EntityType
  | .string s => (EntityType.ofText? s).elim (issue .notEntityType) .ok
  | _ => issue .notEntityType

/-- A field, under the key it is written with or else under its second key; `default` is its value
when it is missing, if it may be. -/
def readField {α : Type} (members : List (Text × Json)) (key second : String)
    (default : Option α) (read : Json → Checked α) : Checked α :=
  let found := fun name => (Json.member? members name).map fun j => under (.key name) (read j)
  match found key.toList, found second.toList, default with
  | some r, _, _ => r
  | none, some r, _ => r
  | none, none, some a => .ok a
  | none, none, none => under (.key key.toList) (issue .missing)

/-- The members of an object. -/
def readObject : Json → Checked (List (Text × Json))
  | .object members => .ok members
  | _ => issue .notObject

def readAttribute (j : Json) : Checked Attribute :=
  (readObject j).bind fun ms =>
    (both (readField ms "key" "key" none readString)
      (readField ms "value" "value" (some none) readOptional)).map fun p => ⟨p.1, p.2⟩

def readEntityJson (j : Json) : Checked Entity :=
  (readObject j).bind fun ms =>
    (both (readField ms "name" "name" none readString)
      (both (readField ms "entityType" "entity_type" (some .unresolved) readType)
        (readField ms "attributes" "attributes" (some []) (readList readAttribute)))).map
          fun p => ⟨p.1, p.2.1, p.2.2⟩

def readBranch (j : Json) : Checked Branch :=
  (readObject j).bind fun ms =>
    (both (readField ms "condition" "condition" none readString)
      (readField ms "variations" "variations" (some []) (readList readString))).map
        fun p => ⟨p.1, p.2⟩

def readTemplateJson (j : Json) : Checked Template :=
  (readObject j).bind fun ms =>
    (both (readField ms "name" "name" none readString)
      (both (readField ms "variations" "variations" (some []) (readList readString))
        (readField ms "conditionalResponses" "conditional_responses" (some [])
          (readList readBranch)))).map fun p => ⟨p.1, p.2.1, p.2.2⟩

/-- The catalog that a JSON value stands for. -/
def ofJson (j : Json) : Checked Catalog :=
  (readObject j).bind fun ms =>
    (both (readField ms "templates" "templates" (some []) (readList readTemplateJson))
      (both (readField ms "entities" "entities" (some []) (readList readEntityJson))
        (readField ms "additionalFileReferences" "additional_file_references" (some [])
          (readList readString)))).map fun p => ⟨p.1, p.2.1, p.2.2⟩

/-- The limits of the JSON text of a catalog. -/
def limits : Json.Limits := ⟨200, 4300⟩

/-- The catalog that a JSON text stands for. -/
def read (s : Text) : Checked Catalog :=
  match Json.parse? limits s with
  | none => issue .notJson
  | some j => ofJson j

end Catalog

end LangGen
