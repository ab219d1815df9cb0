/-
Catalogs and their JSON. What a catalog is written as is nested far less deep than the limits, and
each record is read back from its fields, so that a catalog is read back from its text in every
layout (`read_write`).
-/
import LangGen.Catalog.Encoding
import LangGen.Proofs.Json.RoundTrip

namespace LangGen.Catalog

open Json (Plain)

/-! ## Depth -/

variable {n : Nat}

theorem plain_array {α : Type} {f : α → Json} {xs : List α} (h : ∀ x ∈ xs, Plain n (f x)) :
    Plain (n + 1) (.array (xs.map f)) := by
  refine .array fun j hj => ?_
  obtain ⟨x, hx, rfl⟩ := List.mem_map.1 hj
  exact h x hx

theorem plain_strings (ss : List Text) : Plain (n + 1) (.array (ss.map .string)) :=
  plain_array fun s _ => .string s

theorem plain_ofMembers {members : List (String × Json)} (h : ∀ m ∈ members, Plain n m.2) :
    Plain (n + 1) (.ofMembers members) := by
  refine .object fun m hm => ?_
  obtain ⟨member, hmember, rfl⟩ := List.mem_map.1 hm
  exact h member hmember

theorem plain_attribute (a : Attribute) : Plain (n + 1) (attributeToJson a) := by
  obtain ⟨key, value⟩ := a
  refine plain_ofMembers ?_
  cases value <;> simp [Json.ofOption, Plain.null, Plain.string]

theorem plain_entity (e : Entity) : Plain (n + 3) (entityToJson e) := by
  have hattributes : Plain (n + 2) (.array (e.attributes.map attributeToJson)) :=
    plain_array fun a _ => plain_attribute a
  refine plain_ofMembers ?_
  simp [Plain.string, hattributes]

theorem plain_branch (b : Branch) : Plain (n + 2) (branchToJson b) := by
  refine plain_ofMembers ?_
  simp [Plain.string, plain_strings]

theorem plain_template (t : Template) : Plain (n + 4) (templateToJson t) := by
  have hbranches : Plain (n + 3) (.array (t.branches.map branchToJson)) :=
    plain_array fun b _ => plain_branch b
  refine plain_ofMembers ?_
  simp [Plain.string, plain_strings, hbranches]

theorem plain_toJson (c : Catalog) : Plain (n + 6) c.toJson := by
  have htemplates : Plain (n + 5) (.array (c.templates.map templateToJson)) :=
    plain_array fun t _ => plain_template t
  have hentities : Plain (n + 5) (.array (c.entities.map entityToJson)) :=
    plain_array fun e _ => plain_entity e
  refine plain_ofMembers ?_
  simp [htemplates, hentities, plain_strings]

/-! ## Fields -/

/-- A field that stands under the key it is written with is read from there. -/
theorem readField_of_member {α : Type} {members : List (Text × Json)} {key second : String}
    {default : Option α} {read : Json → Checked α} {j : Json} {a : α}
    (h : Json.member? members key.toList = some j) (hj : read j = .ok a) :
    readField members key second default read = .ok a := by
  unfold readField
  dsimp only
  rw [h, Option.map_some, hj]
  rfl

theorem readList_map {α : Type} {read : Json → Checked α} {f : α → Json} (h : ∀ x, read (f x) = .ok x)
    (xs : List α) : readList read (.array (xs.map f)) = .ok xs := by
  have hitems : ∀ (xs : List α) (n : Nat), readItems read n (xs.map f) = .ok xs := by
    intro xs
    induction xs with
    | nil => intro n; rfl
    | cons x xs ih =>
      intro n
      rw [List.map_cons, readItems, h, ih]
      rfl
  exact hitems xs 0

theorem readString_string (s : Text) : readString (.string s) = .ok s := rfl

theorem readStrings (ss : List Text) : readList readString (.array (ss.map .string)) = .ok ss :=
  readList_map readString_string ss

/-! ## Records -/

theorem readAttribute_toJson (a : Attribute) : readAttribute (attributeToJson a) = .ok a := by
  have hvalue : readOptional (.ofOption .string a.value) = .ok a.value := by cases a.value <;> rfl
  unfold readAttribute attributeToJson Json.ofMembers
  dsimp only [readObject, Except.bind, List.map]
  rw [readField_of_member rfl (readString_string a.key), readField_of_member rfl hvalue]
  rfl

theorem readType_text (t : EntityType) : readType (.string t.text) = .ok t := by
  cases t <;> rfl

theorem readEntity_toJson (e : Entity) : readEntityJson (entityToJson e) = .ok e := by
  unfold readEntityJson entityToJson Json.ofMembers
  dsimp only [readObject, Except.bind, List.map]
  rw [readField_of_member rfl (readString_string e.name), readField_of_member rfl (readType_text e.type),
    readField_of_member rfl (readList_map readAttribute_toJson e.attributes)]
  rfl

theorem readBranch_toJson (b : Branch) : readBranch (branchToJson b) = .ok b := by
  unfold readBranch branchToJson Json.ofMembers
  dsimp only [readObject, Except.bind, List.map]
  rw [readField_of_member rfl (readString_string b.condition), readField_of_member rfl (readStrings b.variations)]
  rfl

theorem readTemplate_toJson (t : Template) : readTemplateJson (templateToJson t) = .ok t := by
  unfold readTemplateJson templateToJson Json.ofMembers
  dsimp only [readObject, Except.bind, List.map]
  rw [readField_of_member rfl (readString_string t.name), readField_of_member rfl (readStrings t.variations),
    readField_of_member rfl (readList_map readBranch_toJson t.branches)]
  rfl

theorem ofJson_toJson (c : Catalog) : ofJson c.toJson = .ok c := by
  unfold ofJson toJson Json.ofMembers
  dsimp only [readObject, Except.bind, List.map]
  rw [readField_of_member rfl (readList_map readTemplate_toJson c.templates),
    readField_of_member rfl (readList_map readEntity_toJson c.entities),
    readField_of_member rfl (readStrings c.references)]
  rfl

/-! ## Texts -/

/-- A catalog is read back from what it is written as in any layout, so that writing what has been
read gives the same text again. -/
theorem read_write (l : Json.Layout) (c : Catalog) :
    read (write l c) = .ok c ∧ (read (write l c)).map (write l) = .ok (write l c) := by
  have hread : read (write l c) = .ok c := by
    have hplain : Json.Plain limits.depth c.toJson := plain_toJson (n := 194) c
    have hparse : Json.parse? limits (write l c) = some c.toJson := Json.parse?_print hplain l
    unfold read
    rw [hparse]
    exact ofJson_toJson c
  refine ⟨hread, ?_⟩
  rw [hread]
  rfl

end LangGen.Catalog
