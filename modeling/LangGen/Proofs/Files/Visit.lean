/-
Visits. Gathering a file visits the files that it reaches one by one: a visit decodes and reads the
file by itself and looks up its references in order. What a visit comes to depends on the file and
its folder, and on the path that has led there only where that path is told or gets too long
(`visit_succeeds_iff`).
-/
import LangGen.Files.Gather
import LangGen.Proofs.Catalog.Alike
import LangGen.Proofs.Files.Locate
import Mathlib.Logic.Relation

namespace LangGen.Files

open Text.Utf8 (Bytes)

variable {t : Tree} {strict : Bool}

/-! ## Files by themselves -/

/-- The catalog of a template file by itself, if the file can be decoded and read. -/
def catalogOf? (strict : Bool) (bytes : Bytes) : Option Catalog :=
  match Text.Utf8.decodeFile bytes with
  | .error _ => none
  | .ok s =>
    match Catalog.readContent strict none {} (Text.unixLines s) with
    | ⟨file, none⟩ => some file
    | ⟨_, some _⟩ => none

/-- The references of a template file that can be decoded and read. -/
def referencesOf (strict : Bool) (bytes : Bytes) : List Text :=
  (catalogOf? strict bytes).elim [] Catalog.references

/-- Whether a file refers to another one. A reference is taken from the folder of the file. -/
def RefersTo (t : Tree) (strict : Bool) (f g : t.File) : Prop :=
  ∃ r ∈ referencesOf strict f.1.2, t.fileFrom? f.1.1.parent (Path.ofText r) = some g

/-- Whether a file can be reached through references. -/
def Reaches (t : Tree) (strict : Bool) : t.File → t.File → Prop := Relation.ReflTransGen (RefersTo t strict)

/-- Whether a file can be decoded and read, and each of its references leads to a file. -/
def Sound (t : Tree) (strict : Bool) (f : t.File) : Prop :=
  ∃ file, catalogOf? strict f.1.2 = some file ∧
    ∀ r ∈ file.references, ∃ g, t.fileFrom? f.1.1.parent (Path.ofText r) = some g

/-! ## Visits -/

/-- The path by which a reference of a file is looked up. -/
def lookupPath (p : Path) (reference : Text) : Path := p.parent ++ Path.ofText reference

/-- The file that a reference leads to, under the path by which it is looked up. -/
def refer (t : Tree) (p : Path) (reference : Text) : Option (Entry t) :=
  match t.file? (lookupPath p reference) with
  | .ok (some f) => some (lookupPath p reference, f)
  | _ => none

/-- The files that the references of a file lead to, in order. -/
def next (t : Tree) (strict : Bool) (e : Entry t) : List (Entry t) :=
  (referencesOf strict e.2.1.2).filterMap (refer t e.1)

/-- Decodes and reads a file, and looks up its references. -/
def visit (t : Tree) (strict : Bool) (e : Entry t) : Except Halt (Catalog × List (Entry t)) :=
  match textOf e.1 e.2.1.2 with
  | .error f => .error (.failure f)
  | .ok content =>
    match Catalog.readContent strict (some e.1.text) {} content with
    | ⟨_, some f⟩ => .error (.failure f)
    | ⟨file, none⟩ => (entriesOf t e.1 file.references).map (file, ·)

/-- How a visit fails: the file cannot be decoded, or not be read, or else its first reference that
leads to no file does so, or cannot be looked up. -/
inductive Fails (t : Tree) (strict : Bool) (e : Entry t) : Halt → Prop
  | undecoded {f : Failure} (h : textOf e.1 e.2.1.2 = .error f) : Fails t strict e (.failure f)
  | unread {content : Text} {f : Failure} (h : textOf e.1 e.2.1.2 = .ok content)
      (hf : (Catalog.readContent strict (some e.1.text) {} content).failure = some f) :
      Fails t strict e (.failure f)
  | missing {before after : List Text} {r : Text} (h : referencesOf strict e.2.1.2 = before ++ r :: after)
      (hbefore : ∀ r ∈ before, ∃ g, t.file? (lookupPath e.1 r) = .ok (some g))
      (hr : t.file? (lookupPath e.1 r) = .ok none) :
      Fails t strict e (.failure
        { fault := .invalidReference r "Referenced LG file does not exist".toList
          place := some { file := some e.1.text } })
  | tooLong {before after : List Text} {r : Text} (h : referencesOf strict e.2.1.2 = before ++ r :: after)
      (hbefore : ∀ r ∈ before, ∃ g, t.file? (lookupPath e.1 r) = .ok (some g))
      (hr : t.file? (lookupPath e.1 r) = .error .nameTooLong) : Fails t strict e (.file .nameTooLong)

/-- References are looked up in order up to the first that leads to no file. -/
theorem entriesOf_cases (p : Path) : ∀ rs : List Text,
    (entriesOf t p rs = .ok (rs.filterMap (refer t p)) ∧ ∀ r ∈ rs, ∃ g, t.file? (lookupPath p r) = .ok (some g)) ∨
      ∃ before r after, rs = before ++ r :: after ∧
        (∀ r ∈ before, ∃ g, t.file? (lookupPath p r) = .ok (some g)) ∧
        ((t.file? (lookupPath p r) = .ok none ∧ entriesOf t p rs = .error (.failure
            { fault := .invalidReference r "Referenced LG file does not exist".toList
              place := some { file := some p.text } })) ∨
          t.file? (lookupPath p r) = .error .nameTooLong ∧ entriesOf t p rs = .error (.file .nameTooLong))
  | [] => .inl ⟨rfl, fun _ h => by cases h⟩
  | r :: rs => by
    cases hfile : t.file? (lookupPath p r) with
    | error e =>
      obtain ⟨rfl, -⟩ := Tree.file?_eq_error hfile
      refine .inr ⟨[], r, rs, rfl, by simp, .inr ⟨hfile, ?_⟩⟩
      unfold lookupPath at hfile
      rw [entriesOf]
      simp only [hfile]
    | ok found =>
      cases found with
      | none =>
        refine .inr ⟨[], r, rs, rfl, by simp, .inl ⟨hfile, ?_⟩⟩
        unfold lookupPath at hfile
        rw [entriesOf]
        simp only [hfile]
      | some g =>
        have hrefer : refer t p r = some (lookupPath p r, g) := by
          unfold refer
          rw [hfile]
        have hcons : entriesOf t p (r :: rs) = (entriesOf t p rs).map ((lookupPath p r, g) :: ·) := by
          unfold lookupPath at hfile ⊢
          rw [entriesOf]
          simp only [hfile]
        rw [hcons]
        rcases entriesOf_cases p rs with ⟨hok, hall⟩ | ⟨before, r', after, rfl, hbefore, hend⟩
        · refine .inl ⟨?_, List.forall_mem_cons.2 ⟨⟨g, hfile⟩, hall⟩⟩
          rw [hok, List.filterMap_cons, hrefer]
          rfl
        · refine .inr ⟨r :: before, r', after, rfl, List.forall_mem_cons.2 ⟨⟨g, hfile⟩, hbefore⟩, ?_⟩
          rcases hend with ⟨hnone, herr⟩ | ⟨hlong, herr⟩
          · exact .inl ⟨hnone, by rw [herr]; rfl⟩
          · exact .inr ⟨hlong, by rw [herr]; rfl⟩

/-- A file is read by itself whatever source a failure would name. -/
theorem catalogOf?_eq {p : Path} {bytes : Bytes} {content : Text} (h : textOf p bytes = .ok content)
    (source : Option Text) :
    catalogOf? strict bytes = match Catalog.readContent strict source {} content with
      | ⟨file, none⟩ => some file
      | ⟨_, some _⟩ => none := by
  -- a source is only told in failures, so that the catalogs agree
  have halike := Catalog.readContent_alike strict none source {} content
  unfold textOf at h
  unfold catalogOf?
  cases hdecode : Text.Utf8.decodeFile bytes with
  | error e => rw [hdecode] at h; cases h
  | ok s =>
    rw [hdecode] at h
    cases h
    dsimp only
    generalize Catalog.readContent strict none {} (Text.unixLines s) = o at halike
    generalize Catalog.readContent strict source {} (Text.unixLines s) = o' at halike
    have hstate := halike.state
    rcases o with ⟨file, failure⟩
    rcases o' with ⟨file', failure'⟩
    rcases halike.cases with ⟨ho, ho'⟩ | ⟨f, g, ho, ho', -⟩
    · cases ho; cases ho'
      exact congrArg some hstate
    · cases ho; cases ho'
      rfl

theorem catalogOf?_eq_none {p : Path} {bytes : Bytes} {f : Failure} (h : textOf p bytes = .error f) :
    catalogOf? strict bytes = none := by
  unfold textOf at h
  unfold catalogOf?
  cases hdecode : Text.Utf8.decodeFile bytes with
  | error e => rfl
  | ok s => rw [hdecode] at h; cases h

/-- What a visit comes to. -/
theorem visit_cases (t : Tree) (strict : Bool) (e : Entry t) :
    (∃ file, catalogOf? strict e.2.1.2 = some file ∧ visit t strict e = .ok (file, next t strict e) ∧
        ∀ r ∈ file.references, ∃ g, t.file? (lookupPath e.1 r) = .ok (some g)) ∨
      ∃ h, visit t strict e = .error h ∧ Fails t strict e h ∧
        ∀ file, catalogOf? strict e.2.1.2 = some file →
          ∃ r ∈ file.references, ∀ g, t.file? (lookupPath e.1 r) ≠ .ok (some g) := by
  unfold visit
  cases htext : textOf e.1 e.2.1.2 with
  | error f =>
    refine .inr ⟨_, rfl, .undecoded htext, fun file hfile => ?_⟩
    rw [catalogOf?_eq_none htext] at hfile
    cases hfile
  | ok content =>
    have hcatalog : catalogOf? strict e.2.1.2 = _ := catalogOf?_eq htext (some e.1.text)
    dsimp only
    cases hread : Catalog.readContent strict (some e.1.text) {} content with
    | mk file failure =>
      rw [hread] at hcatalog
      cases failure with
      | some f =>
        refine .inr ⟨_, rfl, .unread htext (by rw [hread]), fun file' hfile => ?_⟩
        rw [hcatalog] at hfile
        cases hfile
      | none =>
        have href : referencesOf strict e.2.1.2 = file.references := by
          unfold referencesOf
          rw [hcatalog]
          rfl
        dsimp only
        rcases entriesOf_cases (t := t) e.1 file.references with
          ⟨hok, hall⟩ | ⟨before, r, after, hrs, hbefore, ⟨hnone, herr⟩ | ⟨hlong, herr⟩⟩
        · refine .inl ⟨file, hcatalog, ?_, hall⟩
          unfold next
          rw [hok, href]
          rfl
        · refine .inr ⟨_, by rw [herr]; rfl, .missing (href.trans hrs) hbefore hnone, fun file' hfile => ?_⟩
          rw [hcatalog] at hfile
          cases hfile
          exact ⟨r, by rw [hrs]; simp, fun g hg => by rw [hnone] at hg; cases hg⟩
        · refine .inr ⟨_, by rw [herr]; rfl, .tooLong (href.trans hrs) hbefore hlong, fun file' hfile => ?_⟩
          rw [hcatalog] at hfile
          cases hfile
          exact ⟨r, by rw [hrs]; simp, fun g hg => by rw [hlong] at hg; cases hg⟩

/-- A visit of a file under the path that has led there succeeds exactly if the file and its
references are in order, and no path by which a reference is looked up is too long. -/
theorem visit_succeeds_iff (ht : t.WellFormed) {e : Entry t} (he : t.file? e.1 = .ok (some e.2)) :
    (∃ v, visit t strict e = .ok v) ↔
      Sound t strict e.2 ∧ ∀ r ∈ referencesOf strict e.2.1.2, ¬ (lookupPath e.1 r).TooLong := by
  have hreference : ∀ r g, t.file? (lookupPath e.1 r) = .ok (some g) ↔ ¬ (lookupPath e.1 r).TooLong ∧
      t.fileFrom? e.2.1.1.parent (Path.ofText r) = some g := fun r _ => Tree.file?_reference ht he (Path.ofText r)
  have hreferences : ∀ file, catalogOf? strict e.2.1.2 = some file →
      referencesOf strict e.2.1.2 = file.references := by
    intro file hfile
    unfold referencesOf
    rw [hfile]
    rfl
  rcases visit_cases t strict e with ⟨file, hfile, hvisit, hall⟩ | ⟨h, hvisit, -, hno⟩
  · refine iff_of_true ⟨_, hvisit⟩ ⟨⟨file, hfile, fun r hr => ?_⟩, fun r hr => ?_⟩
    · obtain ⟨g, hg⟩ := hall r hr
      exact ⟨g, ((hreference r g).1 hg).2⟩
    · rw [hreferences file hfile] at hr
      obtain ⟨g, hg⟩ := hall r hr
      exact ((hreference r g).1 hg).1
  · refine iff_of_false ?_ ?_
    · rintro ⟨v, hv⟩
      rw [hvisit] at hv
      cases hv
    · rintro ⟨⟨file, hfile, hsound⟩, hshort⟩
      obtain ⟨r, hr, hnone⟩ := hno file hfile
      obtain ⟨g, hg⟩ := hsound r hr
      exact hnone g ((hreference r g).2 ⟨hshort r (by rw [hreferences file hfile]; exact hr), hg⟩)

/-- A visit that fails tells the path that has led to the file, unless a reference is oversized. -/
theorem Fails.source {e : Entry t} {h : Halt} (hfails : Fails t strict e h) :
    (∃ f, h = .failure f ∧ f.file? = some e.1.text) ∨
      h = .file .nameTooLong ∧ ∃ r ∈ referencesOf strict e.2.1.2, (lookupPath e.1 r).Oversized := by
  cases hfails with
  | undecoded htext =>
    refine .inl ⟨_, rfl, ?_⟩
    unfold textOf at htext
    split at htext
    · cases htext
    · cases htext; rfl
  | unread _ hread =>
    refine .inl ⟨_, rfl, ?_⟩
    unfold Catalog.readContent Catalog.readChunks at hread
    obtain ⟨k, -, c, chunk, hchunk⟩ := readEach_failure _ _ _ hread
    obtain ⟨f, hf, rfl⟩ := Option.map_eq_some_iff.1 hchunk
    rw [Failure.file?_within (Catalog.readChunk_failure_inner hf).file]
  | missing _ _ _ => exact .inl ⟨_, rfl, rfl⟩
  | tooLong hrs _ hr => exact .inr ⟨rfl, _, by rw [hrs]; simp, (Tree.file?_eq_error hr).2⟩

end LangGen.Files
