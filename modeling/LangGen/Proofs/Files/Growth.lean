/-
How trees grow. Making folders and writing files leaves every folder where it is, so that a path
that leads somewhere keeps leading there (`Grown.locate`); no file goes away, and only those at the
locations that are written change.
-/
import LangGen.Proofs.Files.Locate

namespace LangGen.Files.Tree

open Text.Utf8 (Bytes)

variable {t u v : Tree} {l l' : Location} {p : Path} {bytes : Bytes}

/-! ## One change -/

theorem find?_put (t : Tree) (l l' : Location) (bytes : Bytes) : (t.put l bytes).files.find? (·.1 == l') =
    if l' = l then some (l, bytes) else t.files.find? (·.1 == l') := by
  unfold put
  split
  · rename_i hany
    have hsame : ((fun f : Location × Bytes => f.1 == l') ∘ fun f => if f.1 == l then (l, bytes) else f) =
        fun f => f.1 == l' := by
      funext f
      by_cases hf : f.1 = l <;> simp [hf]
    rw [List.find?_map, hsame]
    split
    · rename_i hl
      subst hl
      obtain ⟨f, hf⟩ := Option.isSome_iff_exists.1 (List.find?_isSome.2 (List.any_eq_true.1 hany))
      have hloc := List.find?_some hf
      rw [hf, Option.map_some, if_pos hloc]
    · rename_i hl
      cases hf : t.files.find? (·.1 == l') with
      | none => rfl
      | some f =>
        have hloc : f.1 = l' := by simpa using List.find?_some hf
        simp [hloc, hl]
  · rename_i hany
    rw [List.find?_append]
    split
    · rename_i hl
      subst hl
      have hnone : t.files.find? (·.1 == l') = none := by
        rw [List.find?_eq_none]
        intro f hf hloc
        exact hany (List.any_eq_true.2 ⟨f, hf, hloc⟩)
      simp [hnone]
    · rename_i hl
      simp [Ne.symm hl]

theorem working_put (t : Tree) (l : Location) (bytes : Bytes) : (t.put l bytes).working = t.working := by
  unfold put
  split <;> rfl

theorem folders_put (t : Tree) (l : Location) (bytes : Bytes) : (t.put l bytes).folders = t.folders := by
  unfold put
  split <;> rfl

theorem eq_or_mem_of_mem_put {f : Location × Bytes} (hf : f ∈ (t.put l bytes).files) :
    f = (l, bytes) ∨ f ∈ t.files := by
  unfold put at hf
  split at hf
  · obtain ⟨g, hg, rfl⟩ := List.mem_map.1 hf
    split
    · exact .inl rfl
    · exact .inr hg
  · rw [List.mem_append, List.mem_singleton] at hf
    exact hf.symm

/-- Writing changes what is at one location. -/
theorem node?_put (t : Tree) (l l' : Location) (bytes : Bytes) :
    (t.put l bytes).node? l' = if l' = l then some (.file bytes) else t.node? l' := by
  unfold node?
  rw [find?_put, folders_put]
  by_cases hl : l' = l
  · rw [if_pos hl, if_pos hl]
  · rw [if_neg hl, if_neg hl]

/-- The tree with one more folder. -/
def addFolder (t : Tree) (l : Location) : Tree := { t with folders := t.folders ++ [l] }

theorem node?_addFolder (h : t.node? l = none) (l' : Location) :
    (t.addFolder l).node? l' = if l' = l then some .folder else t.node? l' := by
  split
  · rename_i hl
    subst hl
    unfold node? at h ⊢
    split at h
    · cases h
    · rename_i hfile
      simp [addFolder, hfile]
  · rename_i hl
    unfold node?
    simp [addFolder, hl]

/-! ## Growth -/

/-- What making folders and writing files at the given locations makes of a tree. -/
structure Grown (written : List Location) (t u : Tree) : Prop where
  working : u.working = t.working
  folder : ∀ l, t.node? l = some .folder → u.node? l = some .folder
  file : ∀ l bytes, t.node? l = some (.file bytes) → ∃ bytes', u.node? l = some (.file bytes')
  other : ∀ l ∉ written, ∀ bytes, u.node? l = some (.file bytes) ↔ t.node? l = some (.file bytes)

namespace Grown

variable {ls ms : List Location}

theorem refl (t : Tree) : Grown [] t t := ⟨rfl, fun _ => id, fun _ bytes h => ⟨bytes, h⟩, fun _ _ _ => .rfl⟩

theorem trans (h : Grown ls t u) (h' : Grown ms u v) : Grown (ls ++ ms) t v := by
  refine ⟨h'.working.trans h.working, fun l hl => h'.folder l (h.folder l hl), fun l bytes hl => ?_,
    fun l hl bytes => ?_⟩
  · obtain ⟨bytes', hu⟩ := h.file l bytes hl
    exact h'.file l bytes' hu
  · rw [List.mem_append, not_or] at hl
    exact (h'.other l hl.2 bytes).trans (h.other l hl.1 bytes)

theorem mono (h : Grown ls t u) (hsub : ls ⊆ ms) : Grown ms t u :=
  ⟨h.working, h.folder, h.file, fun l hl => h.other l fun hmem => hl (hsub hmem)⟩

theorem walk (h : Grown ls t u) : ∀ {l l' : Location} {names : List Text}, t.walk l names = .ok l' →
    u.walk l names = .ok l'
  | _, _, [], hl => hl
  | l, l', name :: names, hl => by
    rw [Tree.walk] at hl ⊢
    split at hl
    · cases hl
    · cases hl
    · rename_i hfolder
      rw [h.folder l hfolder]
      dsimp only
      split at hl
      · cases hl
      · rename_i hshort
        rw [if_neg hshort]
        exact h.walk hl

/-- A path that leads somewhere leads there still when the tree has grown. -/
theorem locate (h : Grown ls t u) (hl : t.locate p = .ok l) : u.locate p = .ok l := by
  obtain ⟨hnull, hlong, hwalk⟩ := locate_eq_ok.1 hl
  refine locate_eq_ok.2 ⟨hnull, hlong, ?_⟩
  rw [h.working]
  exact h.walk hwalk

end Grown

theorem grown_addFolder (h : t.node? l = none) : Grown [] t (t.addFolder l) := by
  refine ⟨rfl, fun l' hl' => ?_, fun l' bytes hl' => ⟨bytes, ?_⟩, fun l' _ bytes => ?_⟩
  · rw [node?_addFolder h]
    split
    · rfl
    · exact hl'
  · rw [node?_addFolder h, if_neg, hl']
    rintro rfl
    rw [h] at hl'
    cases hl'
  · rw [node?_addFolder h]
    split
    · rename_i hl
      subst hl
      simp [h]
    · rfl

theorem grown_put (h : t.node? l ≠ some .folder) (bytes : Bytes) : Grown [l] t (t.put l bytes) := by
  refine ⟨working_put t l bytes, fun l' hl' => ?_, fun l' bytes' hl' => ?_, fun l' hl' bytes' => ?_⟩
  · rw [node?_put, if_neg, hl']
    rintro rfl
    exact h hl'
  · rw [node?_put]
    split
    · exact ⟨bytes, rfl⟩
    · exact ⟨bytes', hl'⟩
  · rw [node?_put, if_neg (by simpa using hl')]

/-! ## Well-formed trees -/

namespace WellFormed

/-- What does not exist yet would be in a folder that does. -/
theorem parent_of_locate (ht : t.WellFormed) (hl : t.locate p = .ok l) (hnone : t.node? l = none) :
    t.node? l.parent = some .folder := by
  obtain ⟨-, -, hwalk⟩ := locate_eq_ok.1 hl
  rcases List.eq_nil_or_concat p.names with hnames | ⟨init, name, hnames⟩
  · rw [hnames] at hwalk
    cases hwalk
    rw [ht.start_folder ht.working p] at hnone
    cases hnone
  · rw [hnames, List.concat_eq_append] at hwalk
    obtain ⟨d, -, hfolder, rfl⟩ := walk_concat hwalk
    by_cases hup : name = ['.', '.']
    · rw [Location.child, if_pos hup, ht.parent_folder hfolder] at hnone
      cases hnone
    · rw [Location.child, if_neg hup]
      simpa [Location.parent] using hfolder

theorem addFolder (ht : t.WellFormed) (hnone : t.node? l = none) (hparent : t.node? l.parent = some .folder) :
    (t.addFolder l).WellFormed := by
  have hgrown := grown_addFolder hnone
  refine ⟨ht.named, fun l' hl' => hgrown.folder _ ?_, hgrown.folder _ ht.working⟩
  rcases List.mem_append.1 hl' with hl' | hl'
  · exact ht.nested l' hl'
  · rw [List.mem_singleton.1 hl']
    exact hparent

theorem put (ht : t.WellFormed) (hl : t.node? l ≠ some .folder) (bytes : Bytes) : (t.put l bytes).WellFormed := by
  have hgrown := grown_put hl bytes
  refine ⟨fun f hf => ?_, fun l' hl' => ?_, ?_⟩
  · rcases eq_or_mem_of_mem_put hf with rfl | hf
    · intro hnames
      have hroot : l = {} := congrArg Location.mk hnames
      exact hl (hroot ▸ ht.root_folder)
    · exact ht.named f hf
  · rw [folders_put] at hl'
    exact hgrown.folder _ (ht.nested l' hl')
  · rw [hgrown.working]
    exact hgrown.folder _ ht.working

end WellFormed

/-! ## Folders -/

theorem makeFolder_eq_ok (h : t.makeFolder p = .ok u) :
    ∃ l, t.locate p = .ok l ∧ t.node? l = none ∧ u = t.addFolder l := by
  unfold makeFolder at h
  cases hl : t.locate p with
  | error e => rw [hl] at h; cases h
  | ok l =>
    rw [hl] at h
    dsimp only [Except.bind] at h
    split at h
    · cases h
    · rename_i hnone
      cases h
      exact ⟨l, rfl, hnone, rfl⟩

section Keeps

variable {P : Tree → Prop} (hP : ∀ t l, P t → t.node? l = none → ∀ p, t.locate p = .ok l → P (t.addFolder l))

include hP

theorem makeFolderOnce_keeps (h : P t) (p : Path) : P (t.makeFolderOnce p).1 := by
  unfold makeFolderOnce
  split
  · rename_i u hu
    obtain ⟨l, hl, hnone, rfl⟩ := makeFolder_eq_ok hu
    exact hP t l h hnone p hl
  · exact h
  · split <;> exact h

/-- What making one folder keeps is kept by making those above it, too, whether or not that succeeds. -/
theorem makeFolders_keeps (h : P t) (p : Path) : P (t.makeFolders p).1 := by
  have hfrom : ∀ (names : List Text) (t : Tree), P t → P (makeFoldersFrom p.root names t).1 := by
    intro names
    induction names with
    | nil => exact fun t h => makeFolderOnce_keeps hP h _
    | cons name above ih =>
      intro t h
      have honce := makeFolderOnce_keeps hP h ⟨p.root, (name :: above).reverse⟩
      unfold makeFoldersFrom
      dsimp only
      split
      · rename_i u hu
        rw [hu] at honce
        have habove := ih u honce
        split
        · rename_i v hv
          rw [hv] at habove
          exact makeFolderOnce_keeps hP habove _
        · exact habove
      · exact honce
  exact hfrom _ t h

end Keeps

theorem grown_makeFolders (t : Tree) (p : Path) : Grown [] t (t.makeFolders p).1 :=
  makeFolders_keeps (P := Grown [] t) (fun _ _ h hnone _ _ => h.trans (grown_addFolder hnone)) (.refl t) p

theorem WellFormed.makeFolders (ht : t.WellFormed) (p : Path) : (t.makeFolders p).1.WellFormed :=
  makeFolders_keeps (P := WellFormed) (fun _ _ h hnone _ hl => h.addFolder hnone (h.parent_of_locate hl hnone)) ht p

/-! ## Files -/

theorem read_eq_ok : t.read p = .ok bytes ↔ ∃ l, t.locate p = .ok l ∧ t.node? l = some (.file bytes) := by
  unfold read look
  cases t.locate p with
  | error e => simp [Except.bind]
  | ok l =>
    rcases hnode : t.node? l with _ | _ | bytes' <;> simp [Except.bind, hnode]

/-- What writing to the file that a path leads to makes of a tree. -/
structure Written (p : Path) (l : Location) (bytes : Bytes) (t u : Tree) : Prop where
  locate : u.locate p = .ok l
  node : u.node? l = some (.file bytes)
  grown : Grown [l] t u
  wellFormed : t.WellFormed → u.WellFormed

theorem written_put (hl : t.locate p = .ok l) (hnode : t.node? l ≠ some .folder) (bytes : Bytes) :
    Written p l bytes t (t.put l bytes) := by
  have hgrown := grown_put hnode bytes
  refine ⟨hgrown.locate hl, ?_, hgrown, fun ht => ht.put hnode bytes⟩
  rw [node?_put, if_pos rfl]

/-- A file that is opened holds nothing. -/
theorem written_create (h : t.create p = .ok (l, u)) : Written p l [] t u := by
  unfold create at h
  cases hl : t.locate p with
  | error e => rw [hl] at h; cases h
  | ok l =>
    rw [hl] at h
    dsimp only [Except.bind] at h
    split at h
    · cases h
    · rename_i hfile
      cases h
      exact written_put hl (by rw [hfile]; simp) []
    · rename_i hnone
      split at h
      · cases h
        exact written_put hl (by rw [hnone]; simp) []
      · cases h
      · cases h

namespace Written

/-- Writing to a file that has been opened is writing to it. -/
theorem put (h : Written p l [] t u) (bytes : Bytes) : Written p l bytes t (u.put l bytes) := by
  have hput := written_put h.locate (by rw [h.node]; simp) bytes
  exact ⟨hput.locate, hput.node, (h.grown.trans hput.grown).mono (by simp), fun ht => hput.wellFormed (h.wellFormed ht)⟩

theorem behind (h : Written p l bytes u v) (hgrown : Grown [] t u) (hwell : t.WellFormed → u.WellFormed) :
    Written p l bytes t v :=
  ⟨h.locate, h.node, hgrown.trans h.grown, fun ht => h.wellFormed (hwell ht)⟩

end Written

end LangGen.Files.Tree
