/-
What trimming does: it cuts the blanks off both ends, and what is left has none there, so that it is
left as it is by trimming again.
-/
import LangGen.Text.Basic
import Mathlib.Data.List.DropRight
import Mathlib.Data.List.TakeWhile

namespace LangGen.Text

/-- A text that is not empty and has no blanks around it. -/
def Neat (s : Text) : Prop := s ≠ [] ∧ trim s = s

theorem trimEnd_eq (s : Text) : trimEnd s = s.rdropWhile isBlank := rfl

theorem trimStart_append {s : Text} (h : trimStart s ≠ []) (t : Text) :
    trimStart (s ++ t) = trimStart s ++ t := by
  unfold trimStart at h ⊢
  rw [List.dropWhile_append, if_neg]
  simpa using h

theorem trimEnd_append {t : Text} (h : trimEnd t ≠ []) (s : Text) : trimEnd (s ++ t) = s ++ trimEnd t := by
  have hdrop : t.reverse.dropWhile isBlank ≠ [] := fun h0 => h (by unfold trimEnd; rw [h0]; rfl)
  unfold trimEnd
  rw [List.reverse_append, List.dropWhile_append, if_neg (by simpa using hdrop), List.reverse_append,
    List.reverse_reverse]

theorem trimEnd_append_blanks (s : Text) {t : Text} (h : ∀ c ∈ t, isBlank c = true) :
    trimEnd (s ++ t) = trimEnd s := by
  unfold trimEnd
  rw [List.reverse_append, List.dropWhile_append_of_pos]
  intro c hc; exact h c (List.mem_reverse.1 hc)

/-- What follows a character that is not blank is trimmed at its end by itself. -/
theorem trimEnd_cons {c : Char} (hc : isBlank c = false) (s : Text) : trimEnd (c :: s) = c :: trimEnd s := by
  by_cases h : trimEnd s = []
  · have hblank : ∀ x ∈ s, isBlank x = true := List.rdropWhile_eq_nil_iff.1 h
    have hsplit : c :: s = [c] ++ s := rfl
    rw [h, hsplit, trimEnd_append_blanks [c] hblank]
    simp [trimEnd, hc]
  · exact trimEnd_append h [c]

theorem trimStart_of_forall {s : Text} (h : ∀ c, s.head? = some c → isBlank c = false) :
    trimStart s = s := by
  cases s with
  | nil => rfl
  | cons c r =>
    unfold trimStart
    rw [List.dropWhile_cons_of_neg]
    simp [h c rfl]

/-- Blanks in front of a text are cut off from it. -/
theorem trimStart_blanks_append {a : Text} (h : ∀ c ∈ a, isBlank c = true) (s : Text) :
    trimStart (a ++ s) = trimStart s := List.dropWhile_append_of_pos h

theorem trim_blanks_append {a : Text} (h : ∀ c ∈ a, isBlank c = true) (s : Text) : trim (a ++ s) = trim s := by
  unfold trim
  rw [trimStart_blanks_append h]

/-- What trimming at the start cuts off is blank, and it cuts off all there is. -/
theorem exists_blanks_trimStart (s : Text) : ∃ a, s = a ++ trimStart s ∧ ∀ c ∈ a, isBlank c = true :=
  ⟨s.takeWhile isBlank, List.takeWhile_append_dropWhile.symm, fun _ hc => List.mem_takeWhile_imp hc⟩

theorem isBlank_of_head?_trimStart {s : Text} {c : Char} (h : (trimStart s).head? = some c) :
    isBlank c = false := by
  have hnot := List.head?_dropWhile_not isBlank s
  unfold trimStart at h
  rw [h] at hnot
  exact hnot

/-- Trimming again changes nothing. -/
theorem trim_trim (s : Text) : trim (trim s) = trim s := by
  have hstart : trimStart (trim s) = trim s := by
    apply trimStart_of_forall
    intro c hc
    -- the end is cut off behind the first character, which is not blank
    obtain ⟨t, ht⟩ : trim s <+: trimStart s := by
      unfold trim; rw [trimEnd_eq]; exact List.rdropWhile_prefix _ _
    exact isBlank_of_head?_trimStart (s := s) (by rw [← ht, List.head?_append, hc]; rfl)
  calc trim (trim s) = trimEnd (trimStart (trim s)) := rfl
    _ = trimEnd (trim s) := by rw [hstart]
    _ = trim s := List.rdropWhile_idempotent isBlank (trimStart s)

/-- The ends of a text may be trimmed in either order. -/
theorem trimStart_trimEnd (s : Text) : trimStart (trimEnd s) = trim s := by
  cases hs : trimStart s with
  | nil =>
    have hblank := List.dropWhile_eq_nil_iff.1 hs
    have hend : trimEnd s = [] := List.rdropWhile_eq_nil_iff.2 hblank
    unfold trim
    rw [hs, hend]
    rfl
  | cons c r =>
    have hc : isBlank c = false := isBlank_of_head?_trimStart (s := s) (by rw [hs]; rfl)
    obtain ⟨a, hsplit, ha⟩ := exists_blanks_trimStart s
    rw [hs] at hsplit
    have hend : trimEnd (c :: r) = c :: trimEnd r := trimEnd_cons hc r
    unfold trim
    rw [hs]
    conv_lhs => rw [hsplit]
    rw [trimEnd_append (by rw [hend]; exact List.cons_ne_nil _ _), hend]
    rw [trimStart_blanks_append ha]
    exact trimStart_of_forall fun d hd => by cases hd; exact hc

/-- What is cut off is blank. -/
theorem trim_split (s : Text) : ∃ a b, s = a ++ trim s ++ b ∧ (∀ c ∈ a, isBlank c = true) ∧
    ∀ c ∈ b, isBlank c = true := by
  obtain ⟨a, hsplit, ha⟩ := exists_blanks_trimStart s
  refine ⟨a, (trimStart s).rtakeWhile isBlank, ?_, ha, fun c hc => List.mem_rtakeWhile_imp hc⟩
  have hend : trim s ++ (trimStart s).rtakeWhile isBlank = trimStart s := List.rdropWhile_append_rtakeWhile
  rw [List.append_assoc, hend]
  exact hsplit

theorem trim_subset (s : Text) : trim s ⊆ s := by
  obtain ⟨a, b, hs, -, -⟩ := trim_split s
  intro c hc
  rw [hs]
  simp [hc]

theorem trim_of_forall {s : Text} (h : ∀ c ∈ s, isBlank c = false) : trim s = s := by
  have hstart : trimStart s = s := trimStart_of_forall fun c hc => h c (List.mem_of_head? hc)
  unfold trim
  rw [hstart, trimEnd_eq, List.rdropWhile_eq_self_iff]
  intro hs
  simp [h _ (List.getLast_mem hs)]

theorem forall_blank_of_trim {s : Text} (h : trim s = []) : ∀ c ∈ s, isBlank c = true := by
  obtain ⟨a, b, hs, ha, hb⟩ := trim_split s
  rw [h, List.append_nil] at hs
  intro c hc
  rw [hs] at hc
  exact (List.mem_append.1 hc).elim (ha c) (hb c)

theorem trim_eq_nil_iff {s : Text} : trim s = [] ↔ allBlank s = true := by
  rw [allBlank, List.all_eq_true]
  refine ⟨forall_blank_of_trim, fun h => ?_⟩
  have hstart : trimStart s = [] := List.dropWhile_eq_nil_iff.2 h
  unfold trim
  rw [hstart]
  rfl

/-! ## Texts without blanks around them -/

theorem Neat.trimEnd_eq {s : Text} (h : Neat s) : trimEnd s = s := by
  rw [← h.2]
  exact List.rdropWhile_idempotent isBlank (trimStart s)

theorem Neat.trimStart_eq {s : Text} (h : Neat s) : trimStart s = s := by
  have hstart := trimStart_trimEnd s
  rwa [h.trimEnd_eq, h.2] at hstart

theorem neat_of_forall {s : Text} (hne : s ≠ []) (h : ∀ c ∈ s, isBlank c = false) : Neat s := ⟨hne, trim_of_forall h⟩

/-- Whatever stands between two such texts, there are no blanks around the whole. -/
theorem Neat.append {s t : Text} (hs : Neat s) (gap : Text) (ht : Neat t) : Neat (s ++ gap ++ t) := by
  have hstart : trimStart (s ++ gap ++ t) = s ++ gap ++ t := by
    rw [List.append_assoc, trimStart_append (by rw [hs.trimStart_eq]; exact hs.1), hs.trimStart_eq]
  have hend : trimEnd (s ++ gap ++ t) = s ++ gap ++ t := by
    rw [trimEnd_append (by rw [ht.trimEnd_eq]; exact ht.1), ht.trimEnd_eq]
  refine ⟨?_, ?_⟩
  · simp [hs.1]
  · rw [trim, hstart, hend]

/-- A text behind a mark. -/
theorem Neat.marked {mark : Char} {s : Text} (hmark : isBlank mark = false) (h : Neat s) : Neat (mark :: ' ' :: s) :=
  (neat_of_forall (List.cons_ne_nil mark []) (by simpa using hmark)).append [' '] h

/-! ## Blanks behind a text -/

/-- Blanks behind a text are cut off from it. -/
theorem trim_append_blanks (s : Text) {t : Text} (h : ∀ c ∈ t, isBlank c = true) :
    trim (s ++ t) = trim s := by
  have hblank : trimStart t = [] := List.dropWhile_eq_nil_iff.2 h
  unfold trim
  by_cases hs : trimStart s = []
  · have hst : trimStart (s ++ t) = [] := by
      unfold trimStart at hs hblank ⊢
      rw [List.dropWhile_append, hs]
      exact hblank
    rw [hst, hs]
  · rw [trimStart_append hs, trimEnd_append_blanks _ h]

/-- A blank on either side of a text is cut off. -/
theorem trim_between {c d : Char} (hc : isBlank c = true) (hd : isBlank d = true) (s : Text) :
    trim (c :: (s ++ [d])) = trim s := by
  rw [← List.singleton_append, trim_blanks_append (List.forall_mem_singleton.2 hc),
    trim_append_blanks s (List.forall_mem_singleton.2 hd)]

/-- Blanks behind a text stay where they are, unless there is nothing else. -/
theorem trimStart_append_blanks (s : Text) {t : Text} (h : ∀ c ∈ t, isBlank c = true) :
    trimStart (s ++ t) = if trimStart s = [] then [] else trimStart s ++ t := by
  split
  · rename_i hs
    have hblank : trimStart t = [] := List.dropWhile_eq_nil_iff.2 h
    unfold trimStart at hs hblank ⊢
    rw [List.dropWhile_append, hs]
    exact hblank
  · rename_i hs
    exact trimStart_append hs t

end LangGen.Text
