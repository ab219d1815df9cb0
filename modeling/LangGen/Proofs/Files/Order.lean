/-
The order of the files that are gathered. Several files can be gathered in one order exactly if they
can be in any, and the catalogs that they come to differ in the order of what they list only
(`gatherAll_perm`).
-/
import LangGen.Proofs.Catalog.Content
import LangGen.Proofs.Catalog.Joining
import LangGen.Proofs.Files.Gather
import Mathlib.Data.List.Perm.Basic

namespace LangGen.Files

variable {t : Tree} {follow strict : Bool}

/-! ## What is gathered lists nothing twice -/

theorem gatherFrom_distinct {queue : List (Entry t)} {seen : List Location} {c d : Catalog} (hc : c.Distinct)
    (h : gatherFrom t follow strict queue seen c = .ok d) : d.Distinct := by
  fun_induction gatherFrom t follow strict queue seen c with
  | case1 seen c =>
    cases h
    exact hc
  | case2 seen c p f queue hseen ih => exact ih hc h
  | case3 => cases h
  | case4 => cases h
  | case5 => cases h
  | case6 seen c p f queue hseen content htext file hfile entries hentries ih =>
    refine ih (hc.merge ?_) h
    have hread := Catalog.Distinct.empty.readChunks strict (some p.text) (Chunk.split content)
    rw [← Catalog.readContent, hfile] at hread
    exact hread

theorem gather_distinct {p : Path} {c : Catalog} (h : gather t follow strict p = .ok c) : c.Distinct := by
  unfold gather at h
  cases hfile : t.file? p with
  | error e =>
    rw [hfile] at h
    cases h
  | ok f =>
    cases f with
    | none =>
      rw [hfile] at h
      cases h
    | some f =>
      rw [hfile] at h
      exact gatherFrom_distinct .empty h

/-! ## Several files -/

/-- Several files are gathered exactly if each of them is, and then their catalogs are merged one
after the other. -/
theorem gatherAllFrom_eq_ok_iff {ps : List Path} {c d : Catalog} : gatherAllFrom t follow strict c ps = .ok d ↔
    ∃ cs, List.Forall₂ (fun p file => gather t follow strict p = .ok file) ps cs ∧ d = cs.foldl Catalog.merge c := by
  induction ps generalizing c with
  | nil =>
    simp only [gatherAllFrom, List.forall₂_nil_left_iff, exists_eq_left, List.foldl_nil, Except.ok.injEq]
    exact eq_comm
  | cons p ps ih =>
    rw [gatherAllFrom]
    cases hfile : gather t follow strict p with
    | error e =>
      simp only [reduceCtorEq, false_iff]
      rintro ⟨cs, hcs, -⟩
      cases hcs with
      | cons h hcs =>
        rw [hfile] at h
        cases h
    | ok file =>
      dsimp only
      rw [ih]
      constructor
      · rintro ⟨cs, hcs, rfl⟩
        exact ⟨file :: cs, .cons hfile hcs, rfl⟩
      · rintro ⟨cs, hcs, rfl⟩
        cases hcs with
        | cons h hcs =>
          rw [hfile] at h
          cases h
          exact ⟨_, hcs, rfl⟩

/-- Files that can be gathered in one order can be gathered in any, and they come to catalogs of the
same content. An entity has the same type in both unless different types are declared for its name. -/
theorem gatherAll_perm {ps ps' : List Path} (hperm : ps.Perm ps') {a : Catalog}
    (ha : gatherAll t follow strict ps = .ok a) :
    ∃ b, gatherAll t follow strict ps' = .ok b ∧ a.SameContent b ∧
      ∀ {n e e'}, (∃ type, ∀ p ∈ ps, ∀ {c}, gather t follow strict p = .ok c →
          ∀ e ∈ c.entities, e.name = n → e.type = .unresolved ∨ e.type = type) →
        a.entity? n = some e → b.entity? n = some e' → e.type = e'.type := by
  obtain ⟨cs, hcs, rfl⟩ := gatherAllFrom_eq_ok_iff.1 ha
  obtain ⟨cs', hcs', hperm'⟩ := List.perm_comp_forall₂ hperm.symm hcs
  have hmap : ps.map (gather t follow strict) = cs.map .ok := by
    rwa [← List.forall₂_eq_eq_eq, List.forall₂_map_left_iff, List.forall₂_map_right_iff]
  have hfile : ∀ c ∈ cs, ∃ p ∈ ps, gather t follow strict p = .ok c := by
    intro c hc
    have hok : Except.ok c ∈ ps.map (gather t follow strict) := hmap ▸ List.mem_map_of_mem hc
    exact List.mem_map.1 hok
  have hdistinct : ∀ c ∈ cs, c.Distinct := by
    intro c hc
    obtain ⟨p, -, hp⟩ := hfile c hc
    exact gather_distinct hp
  refine ⟨cs'.foldl Catalog.merge {}, gatherAllFrom_eq_ok_iff.2 ⟨cs', hcs', rfl⟩,
    .of_perm hdistinct hperm'.symm, ?_⟩
  intro n e e' hone he he'
  have hone' : Catalog.OneType cs n := by
    obtain ⟨type, htype⟩ := hone
    refine ⟨type, fun c hc => ?_⟩
    obtain ⟨p, hp, hgather⟩ := hfile c hc
    exact htype p hp hgather
  exact hone'.type_eq hdistinct hperm'.symm he he'

/-- A file that defines an entity, and one that mentions it. -/
def pair : Tree where
  files := [(⟨["a.lg".toList]⟩, Text.Utf8.encode "$ x : int".toList),
    (⟨["b.lg".toList]⟩, Text.Utf8.encode "# B\n- {x}".toList)]

/-- A file without references is gathered by one visit. -/
theorem gather_of_visit {p : Path} {f : t.File} {file : Catalog} (hf : t.file? p = .ok (some f))
    (hvisit : visit t strict (p, f) = .ok (file, [])) : gather t true strict p = .ok (({} : Catalog).merge file) := by
  unfold gather
  rw [hf]
  dsimp only
  rw [gatherFrom_cons List.not_mem_nil, hvisit]
  exact gatherFrom_nil _ _

theorem gatherAll_perm_pair :
    let p := Path.ofText "a.lg".toList
    let q := Path.ofText "b.lg".toList
    ∃ a b, gatherAll pair true true [p, q] = .ok a ∧ gatherAll pair true true [q, p] = .ok b ∧ a.SameContent b ∧
      (a.entities.map Entity.type, b.entities.map Entity.type) = ([.int], [.int]) := by
  intro p q
  have hp : gather pair true true p = .ok _ := gather_of_visit (f := ⟨_, List.mem_cons_self⟩) rfl rfl
  have hq : gather pair true true q = .ok _ :=
    gather_of_visit (f := ⟨_, List.mem_cons_of_mem _ List.mem_cons_self⟩) rfl rfl
  have ha : gatherAll pair true true [p, q] = .ok _ := gatherAllFrom_eq_ok_iff.2 ⟨_, .cons hp (.cons hq .nil), rfl⟩
  obtain ⟨b, hb, hsame, -⟩ := gatherAll_perm (List.Perm.swap q p []) ha
  have hb' : gatherAll pair true true [q, p] = .ok _ := gatherAllFrom_eq_ok_iff.2 ⟨_, .cons hq (.cons hp .nil), rfl⟩
  obtain rfl := Except.ok.inj (hb'.symm.trans hb)
  exact ⟨_, _, ha, hb, hsame, rfl⟩

end LangGen.Files
