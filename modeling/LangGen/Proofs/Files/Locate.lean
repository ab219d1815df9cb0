/-
Where references lead. A path that leads to a file leads there through the folder of that file, so
what is found behind the path of its folder is what is found from the folder itself
(`file?_reference`), whatever path has led there, unless the path gets too long.
-/
import LangGen.Files.Tree
import LangGen.Proofs.Text.Split

namespace LangGen.Files

namespace Tree

/-- A file of a tree. -/
abbrev File (t : Tree) := { f : Location × Text.Utf8.Bytes // f ∈ t.files }

/-- A tree of files and folders: each file has a name, each folder is in a folder, and one of them
is the working folder. -/
structure WellFormed (t : Tree) : Prop where
  named : ∀ f ∈ t.files, f.1.names ≠ []
  nested : ∀ l ∈ t.folders, t.node? l.parent = some .folder
  working : t.node? t.working = some .folder

instance (t : Tree) : Decidable t.WellFormed :=
  decidable_of_iff ((∀ f ∈ t.files, f.1.names ≠ []) ∧ (∀ l ∈ t.folders, t.node? l.parent = some .folder) ∧
      t.node? t.working = some .folder)
    ⟨fun h => ⟨h.1, h.2.1, h.2.2⟩, fun h => ⟨h.named, h.nested, h.working⟩⟩

variable {t : Tree}

/-! ## Files -/

theorem fileAt?_eq_some {l : Location} {f : File t} (h : t.fileAt? l = some f) : f.1.1 = l := by
  unfold fileAt? at h
  simpa using List.find?_some h

theorem fileAt?_eq_none {l : Location} : t.fileAt? l = none ↔ ∀ f ∈ t.files, f.1 ≠ l := by
  unfold fileAt?
  simp

theorem fileAt?_of_folder {l : Location} (h : t.node? l = some .folder) : t.fileAt? l = none := by
  unfold node? at h
  rw [fileAt?_eq_none]
  cases hfind : t.files.find? (·.1 == l) with
  | some f => rw [hfind] at h; cases h
  | none => simpa using List.find?_eq_none.1 hfind

theorem WellFormed.root_folder (ht : t.WellFormed) : t.node? {} = some .folder := by
  unfold node?
  cases hfind : t.files.find? (·.1 == {}) with
  | some f =>
    have hf : f.1 = {} := by simpa using List.find?_some hfind
    exact absurd (congrArg Location.names hf) (ht.named f (List.mem_of_find?_eq_some hfind))
  | none => rfl

theorem WellFormed.parent_folder (ht : t.WellFormed) {l : Location} (h : t.node? l = some .folder) :
    t.node? l.parent = some .folder := by
  by_cases hn : l.names = []
  · have hroot : l.parent = {} := by
      unfold Location.parent
      rw [hn]
      rfl
    rw [hroot]
    exact ht.root_folder
  · unfold node? at h
    split at h
    · cases h
    · split at h
      · rename_i hl
        simp only [List.isEmpty_iff, hn, Bool.or_eq_true, false_or] at hl
        exact ht.nested l (by simpa using hl)
      · cases h

/-- A path that is taken from a folder starts at a folder. -/
theorem WellFormed.start_folder (ht : t.WellFormed) {folder : Location} (h : t.node? folder = some .folder)
    (p : Path) : t.node? (start folder p) = some .folder := by
  unfold start
  split
  · exact h
  · exact ht.root_folder

/-! ## Walking -/

theorem walk_append (t : Tree) : ∀ (l : Location) (names names' : List Text),
    t.walk l (names ++ names') = (t.walk l names).bind fun d => t.walk d names'
  | l, [], _ => rfl
  | l, name :: names, names' => by
    rw [List.cons_append, walk, walk]
    split
    · rfl
    · rfl
    · split
      · rfl
      · exact walk_append t _ names names'

/-- A walk fails with a name that is too long only if it meets one. -/
theorem walk_eq_nameTooLong : ∀ {l : Location} {names : List Text}, t.walk l names = .error .nameTooLong →
    ∃ name ∈ names, maxName < (Text.Utf8.encode name).length
  | _, [], h => by cases h
  | l, name :: names, h => by
    rw [walk] at h
    split at h
    · cases h
    · cases h
    · split at h
      · rename_i hlong
        exact ⟨name, List.mem_cons_self, hlong⟩
      · obtain ⟨name', hmem, hlong⟩ := walk_eq_nameTooLong h
        exact ⟨name', List.mem_cons_of_mem name hmem, hlong⟩

theorem walk_concat {l l' : Location} {names : List Text} {name : Text}
    (h : t.walk l (names ++ [name]) = .ok l') :
    ∃ d, t.walk l names = .ok d ∧ t.node? d = some .folder ∧ l' = d.child name := by
  rw [walk_append] at h
  cases hd : t.walk l names with
  | error e => rw [hd] at h; cases h
  | ok d =>
    rw [hd] at h
    change t.walk d [name] = .ok l' at h
    rw [walk] at h
    split at h
    · cases h
    · cases h
    · rename_i hfolder
      split at h
      · cases h
      · cases h
        exact ⟨d, rfl, hfolder, rfl⟩

/-- The way to a file leads through the folder that holds it. -/
theorem walk_parent (ht : t.WellFormed) {l l' : Location} {names : List Text} (hl : t.node? l = some .folder)
    (h : t.walk l names = .ok l') {f : File t} (hf : t.fileAt? l' = some f) :
    t.walk l names.dropLast = .ok f.1.1.parent := by
  have hl' := fileAt?_eq_some hf
  rcases List.eq_nil_or_concat names with rfl | ⟨init, name, rfl⟩
  · cases h
    rw [fileAt?_of_folder hl] at hf
    cases hf
  · rw [List.concat_eq_append] at h ⊢
    obtain ⟨d, hd, hfolder, rfl⟩ := walk_concat h
    rw [List.dropLast_concat, hd]
    by_cases hup : name = ['.', '.']
    · -- the name goes up to a folder, where no file is
      have hparent := ht.parent_folder hfolder
      rw [Location.child, if_pos hup, fileAt?_of_folder hparent] at hf
      cases hf
    · rw [hl', Location.child, if_neg hup]
      simp [Location.parent]

end Tree

/-! ## Texts of paths -/

namespace Path

/-- Whether a path holds a null character. -/
def HasNull (p : Path) : Prop := p.text.contains (Char.ofNat 0) = true

instance (p : Path) : Decidable p.HasNull := inferInstanceAs (Decidable (_ = true))

theorem hasNull_iff (p : Path) :
    p.HasNull ↔ Char.ofNat 0 ∈ p.root ∨ ∃ name ∈ p.names, Char.ofNat 0 ∈ name := by
  unfold HasNull text
  rw [List.contains_iff_mem]
  split
  · rename_i h
    simp only [List.isEmpty_iff, Bool.and_eq_true] at h
    rw [h.1, h.2]
    simp
  · rw [List.mem_append, Text.mem_join (by decide)]

theorem append_of_root {p r : Path} (h : r.root.isEmpty = false) : p ++ r = r := by
  change p.append r = r
  unfold Path.append
  rw [h]
  rfl

theorem append_of_relative {p r : Path} (h : r.root.isEmpty = true) : p ++ r = ⟨p.root, p.names ++ r.names⟩ := by
  change p.append r = _
  unfold Path.append
  rw [h]
  rfl

theorem hasNull_append {p r : Path} (hp : ¬ p.HasNull) (h : r.root.isEmpty = true) :
    (p.parent ++ r).HasNull ↔ r.HasNull := by
  rw [hasNull_iff, not_or, not_exists] at hp
  rw [append_of_relative h, hasNull_iff, hasNull_iff, List.isEmpty_iff.1 h]
  constructor
  · rintro (hroot | ⟨name, hname, hnull⟩)
    · exact absurd hroot hp.1
    · rcases List.mem_append.1 hname with hname | hname
      · exact absurd ⟨List.dropLast_subset _ hname, hnull⟩ (hp.2 name)
      · exact .inr ⟨name, hname, hnull⟩
  · rintro (hroot | ⟨name, hname, hnull⟩)
    · cases hroot
    · exact .inr ⟨name, List.mem_append_right _ hname, hnull⟩

/-- Whether a path is longer than any that can be looked up. -/
def TooLong (p : Path) : Prop := Tree.maxPath < (Text.Utf8.encode p.text).length

instance (p : Path) : Decidable p.TooLong := inferInstanceAs (Decidable (_ < _))

/-- Whether a path is too long, or has a name that is. -/
def Oversized (p : Path) : Prop :=
  p.TooLong ∨ ∃ name ∈ p.names, Tree.maxName < (Text.Utf8.encode name).length

end Path

namespace Tree

variable {t : Tree}

/-- The file that a path leads to from a folder. -/
def fileFrom? (t : Tree) (folder : Location) (p : Path) : Option t.File :=
  if p.HasNull then none
  else
    match t.walk (start folder p) p.names with
    | .ok l => t.fileAt? l
    | .error _ => none

theorem fileFrom?_eq_some {folder : Location} {p : Path} {f : t.File} :
    t.fileFrom? folder p = some f ↔
      ¬ p.HasNull ∧ ∃ l, t.walk (start folder p) p.names = .ok l ∧ t.fileAt? l = some f := by
  unfold fileFrom?
  by_cases hnull : p.HasNull
  · rw [if_pos hnull]
    simp [hnull]
  · rw [if_neg hnull]
    cases t.walk (start folder p) p.names with
    | error e => simp
    | ok l => simp [hnull]

/-- The file that is found is the one at its location. -/
theorem fileAt?_of_fileFrom? {folder : Location} {p : Path} {f : t.File} (h : t.fileFrom? folder p = some f) :
    t.fileAt? f.1.1 = some f := by
  obtain ⟨-, l, -, hl⟩ := fileFrom?_eq_some.1 h
  rw [fileAt?_eq_some hl, hl]

theorem locate_eq (t : Tree) (p : Path) : t.locate p =
    if p.HasNull then .error .nullCharacter
    else if p.TooLong then .error .nameTooLong
    else t.walk (start t.working p) p.names := rfl

/-- A path leads somewhere if the walk along it does, and it can be looked up at all. -/
theorem locate_eq_ok {p : Path} {l : Location} : t.locate p = .ok l ↔
    ¬ p.HasNull ∧ ¬ p.TooLong ∧ t.walk (start t.working p) p.names = .ok l := by
  rw [locate_eq]
  by_cases hnull : p.HasNull
  · simp [hnull]
  · by_cases hlong : p.TooLong <;> simp [hnull, hlong]

/-- Paths that leave the working folder, and those from the root, come upon the files in it. -/
example :
    let t : Tree := { working := ⟨["lg".toList]⟩, folders := [⟨["lg".toList]⟩, ⟨["shared".toList]⟩] }
    t.locate (Path.ofText "../shared/../lg/a.lg".toList) = t.locate (Path.ofText "a.lg".toList) ∧
      t.locate (Path.ofText "/lg/a.lg".toList) = t.locate (Path.ofText "a.lg".toList) := ⟨rfl, rfl⟩

/-- A path leads to a file if it does so from the working folder and is not too long. -/
theorem file?_eq_some {p : Path} {f : t.File} :
    t.file? p = .ok (some f) ↔ ¬ p.TooLong ∧ t.fileFrom? t.working p = some f := by
  rw [fileFrom?_eq_some]
  unfold file?
  constructor
  · intro h
    split at h
    · rename_i l hl
      obtain ⟨hnull, hlong, hwalk⟩ := locate_eq_ok.1 hl
      exact ⟨hlong, hnull, l, hwalk, Except.ok.inj h⟩
    · cases h
    · cases h
  · rintro ⟨hlong, hnull, l, hwalk, hfile⟩
    rw [locate_eq_ok.2 ⟨hnull, hlong, hwalk⟩]
    exact congrArg Except.ok hfile

/-- Only a path that is oversized cannot be looked up. -/
theorem file?_eq_error {p : Path} {e : FileError} (h : t.file? p = .error e) : e = .nameTooLong ∧ p.Oversized := by
  unfold file? at h
  split at h
  · cases h
  · rename_i hlocate
    cases h
    refine ⟨rfl, ?_⟩
    unfold locate at hlocate
    split at hlocate
    · cases hlocate
    · split at hlocate
      · rename_i hlong
        exact .inl hlong
      · exact .inr (walk_eq_nameTooLong hlocate)
  · cases h

/-- Behind the path of the folder of a file, a path leads where it leads from that folder. -/
theorem fileFrom?_append (ht : t.WellFormed) {base : Location} (hbase : t.node? base = some .folder) {p : Path}
    {f : t.File} (hf : t.fileFrom? base p = some f) (r : Path) :
    t.fileFrom? base (p.parent ++ r) = t.fileFrom? f.1.1.parent r := by
  obtain ⟨hnull, l, hl, hfile⟩ := fileFrom?_eq_some.1 hf
  cases hroot : r.root.isEmpty with
  | false =>
    rw [Path.append_of_root hroot]
    unfold fileFrom? start
    rw [hroot]
    rfl
  | true =>
    -- the walk splits at the folder of the file, whatever names have led there
    have hfolder := walk_parent ht (ht.start_folder hbase p) hl hfile
    have hwalk : t.walk (start base (p.parent ++ r)) (p.parent ++ r).names =
        t.walk (start f.1.1.parent r) r.names := by
      have hbehind : start base (p.parent ++ r) = start base p := by
        rw [Path.append_of_relative hroot]
        rfl
      have hrelative : start f.1.1.parent r = f.1.1.parent := by
        unfold start
        rw [if_pos hroot]
      rw [hbehind, hrelative, Path.append_of_relative hroot, walk_append]
      change (t.walk (start base p) p.names.dropLast).bind _ = _
      rw [hfolder]
      rfl
    unfold fileFrom?
    rw [hwalk]
    simp only [Path.hasNull_append hnull hroot]

/-- A reference leads to a file if it does so from the folder of the file that holds it, and the
path by which it is looked up is not too long. -/
theorem file?_reference (ht : t.WellFormed) {p : Path} {f : t.File} (hf : t.file? p = .ok (some f)) (r : Path)
    {g : t.File} :
    t.file? (p.parent ++ r) = .ok (some g) ↔
      ¬ (p.parent ++ r).TooLong ∧ t.fileFrom? f.1.1.parent r = some g := by
  rw [file?_eq_some, fileFrom?_append ht ht.working (file?_eq_some.1 hf).2]

end Tree

end LangGen.Files
