/-
Catalogs: the templates, entities and file references of template files, in the order in which they
were met. Catalogs merge by name: variations and branches are united in order, entities take the
other's type unless it is unresolved, and references are united.
-/
import LangGen.Keyed
import LangGen.Line.Marker

namespace LangGen

/-! ## Entities -/

/-- The type of an entity. -/
inductive EntityType
  | string | int | long | float | double | bool | datetime | builtin | custom
  /-- Mentioned in the text of a template and not declared. -/
  | unresolved
  deriving DecidableEq, Repr

namespace EntityType

/-- All types, in the order in which they are listed to a user. -/
def all : List EntityType :=
  [string, int, long, float, double, bool, datetime, builtin, custom, unresolved]

/-- The name of a type. -/
def text : EntityType → Text
  | string => "string".toList
  | int => "int".toList
  | long => "long".toList
  | float => "float".toList
  | double => "double".toList
  | bool => "bool".toList
  | datetime => "datetime".toList
  | builtin => "builtin".toList
  | custom => "custom".toList
  | unresolved => "unresolved".toList

/-- The type with exactly this name. -/
def ofText? (s : Text) : Option EntityType := all.find? (·.text == s)

/-- The type that a definition names, whatever the case of its letters; a name that is none of the
known ones is a custom type. -/
def ofName (name : Text) : EntityType :=
  (all.find? (Text.sameLetters ·.text (Text.trim name))).getD custom

end EntityType

/-- A key of an entity definition with its value, if it has one. -/
structure Attribute where
  key : Text
  value : Option Text := none
  deriving DecidableEq, Repr

/-- A named place in the text of templates. -/
structure Entity where
  name : Text
  type : EntityType := .unresolved
  attributes : List Attribute := []
  deriving DecidableEq, Repr

/-- An entity after another one of its name: it takes the other's type unless that is unresolved,
and keeps its attributes. -/
def Entity.retype (e other : Entity) : Entity :=
  if other.type = .unresolved then e else { e with type := other.type }

/-! ## Templates -/

/-- A branch of a template: its condition and its variations. -/
structure Branch where
  condition : Text
  variations : List Text := []
  deriving DecidableEq, Repr

/-- A template: the variations that always apply and the branches. -/
structure Template where
  name : Text
  variations : List Text := []
  branches : List Branch := []
  deriving DecidableEq, Repr

namespace Branch

/-- Whether a variation would be new to a branch. -/
def lacks (b : Branch) (v : Text) : Bool := !b.variations.contains v

/-- The branch with one more variation, unless it has it. -/
def addVariation (b : Branch) (v : Text) : Branch := { b with variations := addNew b.variations v }

/-- Whether this is the branch that is taken when no condition holds. -/
def isDefault (b : Branch) : Bool := b.condition == Line.elseWord

/-- The branch with the variations of another one added. -/
def absorb (b other : Branch) : Branch :=
  { b with variations := unite b.variations other.variations }

end Branch

namespace Template

/-- Whether a template has neither variations nor branches. -/
def isEmpty (t : Template) : Bool := t.variations.isEmpty && t.branches.isEmpty

/-- Whether a variation would be new to a template. -/
def lacks (t : Template) (v : Text) : Bool := !t.variations.contains v

/-- The template with one more variation, unless it has it. -/
def addVariation (t : Template) (v : Text) : Template :=
  { t with variations := addNew t.variations v }

/-- The first branch with exactly this condition. -/
def branch? (t : Template) (condition : Text) : Option Branch :=
  t.branches.find? (·.condition == condition)

/-- The template with its first branch of this condition changed. -/
def onBranch (t : Template) (condition : Text) (f : Branch → Branch) : Template :=
  { t with branches := changeFirst (·.condition == condition) f t.branches }

/-- The template with the variations and the branches of another one added. -/
def merge (t other : Template) : Template where
  name := t.name
  variations := unite t.variations other.variations
  branches := upsertAll Branch.condition Branch.absorb t.branches other.branches

end Template

/-! ## Catalogs -/

/-- What template files hold. -/
structure Catalog where
  templates : List Template := []
  entities : List Entity := []
  references : List Text := []
  deriving DecidableEq, Repr

namespace Catalog

/-- The first template with exactly this name. -/
def template? (c : Catalog) (name : Text) : Option Template :=
  c.templates.find? (·.name == name)

/-- The first entity with exactly this name. -/
def entity? (c : Catalog) (name : Text) : Option Entity :=
  c.entities.find? (·.name == name)

/-- The catalog with its first template of this name changed. -/
def onTemplate (c : Catalog) (name : Text) (f : Template → Template) : Catalog :=
  { c with templates := changeFirst (·.name == name) f c.templates }

/-- The catalog with all of another one added. -/
def merge (c other : Catalog) : Catalog where
  templates := upsertAll Template.name Template.merge c.templates other.templates
  entities := upsertAll Entity.name Entity.retype c.entities other.entities
  references := unite c.references other.references

end Catalog

end LangGen
