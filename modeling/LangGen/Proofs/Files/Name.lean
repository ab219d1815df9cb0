/-
Names in paths. The path of a text is made up of names that are neither empty nor `.` and hold no
slash, and the path of such a name is the name by itself. Names that do not go up lead from a folder
to what is below it, and the last name on the way to a file is its own (`names_of_file`).
-/
import LangGen.Proofs.Files.Locate
import LangGen.Proofs.Text.Split

namespace LangGen.Files

/-! ## Paths of texts -/

namespace Path

/-- A name as it stands in the path of a text. -/
structure IsName (name : Text) : Prop where
  ne_nil : name ≠ []
  ne_self : name ≠ ['.']
  slash : '/' ∉ name

/-- A path that leads down from where it starts. -/
structure Descends (p : Path) : Prop where
  root : p.root = []
  ne_nil : p.names ≠ []
  down : ['.', '.'] ∉ p.names

instance (p : Path) : Decidable p.Descends :=
  decidable_of_iff (p.root = [] ∧ p.names ≠ [] ∧ ∀ name ∈ p.names, name ≠ ['.', '.'])
    ⟨fun h => ⟨h.1, h.2.1, fun hmem => h.2.2 _ hmem rfl⟩,
      fun h => ⟨h.root, h.ne_nil, fun _ hname heq => h.down (heq ▸ hname)⟩⟩

theorem isName_of_mem {s name : Text} (h : name ∈ (ofText s).names) : IsName name := by
  obtain ⟨hmem, hne⟩ := List.mem_filter.1 h
  simp only [Bool.and_eq_true, bne_iff_ne] at hne
  exact ⟨hne.1, hne.2, Text.not_mem_of_mem_splitOn hmem⟩

theorem ofText_name {name : Text} (h : IsName name) : ofText name = ⟨[], [name]⟩ := by
  have hroot : rootOf name = [] := by
    obtain ⟨c, r, rfl⟩ := List.exists_cons_of_ne_nil h.ne_nil
    have hc : (c == '/') = false := by
      rw [beq_eq_false_iff_ne]
      rintro rfl
      exact h.slash List.mem_cons_self
    unfold rootOf
    rw [List.takeWhile_cons, hc]
    rfl
  unfold ofText
  rw [hroot, List.splitOn_eq_singleton h.slash]
  simp [h.ne_nil, h.ne_self]

theorem fileName_concat {p : Path} {init : List Text} {n : Text} (h : p.names = init ++ [n]) : p.fileName = n := by
  unfold fileName
  rw [h]
  simp

theorem stem_subset (p : Path) : p.stem ⊆ p.fileName := by
  unfold stem
  dsimp only
  split
  · exact List.Subset.refl _
  · exact List.take_subset _ _

end Path

/-! ## Locations below a folder -/

namespace Location

/-- The location that names lead to from a folder when none of them goes up. -/
def below (d : Location) (names : List Text) : Location := ⟨d.names ++ names⟩

theorem parent_concat {d : Location} {names : List Text} {name : Text} :
    (d.below (names ++ [name])).parent = d.below names := by
  simp [below, parent, ← List.append_assoc]

theorem below_concat_inj {d d' : Location} {names : List Text} {name name' : Text} :
    d.below (names ++ [name]) = d'.below (names ++ [name']) ↔ d = d' ∧ name = name' := by
  constructor
  · intro h
    obtain ⟨hd, hname⟩ := List.append_inj' (congrArg Location.names h) (by simp)
    have hlast : [name] = [name'] := List.append_cancel_left hname
    exact ⟨congrArg Location.mk hd, List.head_eq_of_cons_eq hlast⟩
  · rintro ⟨rfl, rfl⟩
    rfl

end Location

namespace Tree

variable {t : Tree} {d l : Location}

theorem walk_below : ∀ {names : List Text} {d : Location}, ['.', '.'] ∉ names → t.walk d names = .ok l →
    l = d.below names
  | [], d, _, h => by
    cases h
    simp [Location.below]
  | name :: names, d, hdown, h => by
    rw [List.mem_cons, not_or] at hdown
    rw [walk] at h
    split at h
    · cases h
    · cases h
    · split at h
      · cases h
      · rw [walk_below hdown.2 h, Location.child, if_neg (Ne.symm hdown.1)]
        simp [Location.below]

/-- A path that goes down from another one leads to below where that one leads. -/
theorem locate_below {base : Path} {names : List Text} (hdown : ['.', '.'] ∉ names)
    (h : t.locate ⟨base.root, base.names ++ names⟩ = .ok l) :
    ∃ d, t.walk (start t.working base) base.names = .ok d ∧ l = d.below names := by
  obtain ⟨-, -, hwalk⟩ := locate_eq_ok.1 h
  change t.walk (start t.working base) _ = _ at hwalk
  rw [walk_append] at hwalk
  cases hd : t.walk (start t.working base) base.names with
  | error e => rw [hd] at hwalk; cases hwalk
  | ok d =>
    rw [hd] at hwalk
    exact ⟨d, rfl, walk_below hdown hwalk⟩

/-- The last name on the way to a file is the one that it has in its folder. -/
theorem names_of_file (ht : t.WellFormed) {p : Path} {bytes : Text.Utf8.Bytes} (hl : t.locate p = .ok l)
    (hfile : t.node? l = some (.file bytes)) :
    ∃ init name, p.names = init ++ [name] ∧ name ≠ ['.', '.'] ∧
      t.walk (start t.working p) init = .ok l.parent ∧ l = l.parent.below [name] := by
  obtain ⟨-, -, hwalk⟩ := locate_eq_ok.1 hl
  rcases List.eq_nil_or_concat p.names with hnames | ⟨init, name, hnames⟩
  · rw [hnames] at hwalk
    cases hwalk
    rw [ht.start_folder ht.working p] at hfile
    cases hfile
  · rw [List.concat_eq_append] at hnames
    rw [hnames] at hwalk
    obtain ⟨d, hd, hfolder, rfl⟩ := walk_concat hwalk
    by_cases hup : name = ['.', '.']
    · rw [Location.child, if_pos hup, ht.parent_folder hfolder] at hfile
      cases hfile
    · have hchild : d.child name = d.below ([] ++ [name]) := by
        rw [Location.child, if_neg hup]
        rfl
      have hparent : (d.child name).parent = d := by
        rw [hchild, Location.parent_concat]
        simp [Location.below]
      exact ⟨init, name, hnames, hup, by rw [hparent, hd], by rw [hparent, hchild]; rfl⟩

end Tree

end LangGen.Files
