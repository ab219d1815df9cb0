/-
Texts that are split, at a character into parts or at blanks into words. No part holds the
character. `Spaced` says which texts hold given words: blanks may stand around each word, and two
words do not touch. Every text holds exactly the words that it is split into (`words_eq_iff`), and
words that are joined by spaces are read back (`words_join`).
-/
import LangGen.Proofs.Text.Trim
import Mathlib.Data.List.Basic

namespace LangGen.Text

/-! ## Parts -/

theorem not_mem_of_mem_splitOn {c : Char} : ∀ {s part : Text}, part ∈ s.splitOn c → c ∉ part
  | [], part, h => by
    rw [List.splitOn_nil, List.mem_singleton] at h
    simp [h]
  | d :: s, part, h => by
    rw [List.splitOn_cons_eq_if_modifyHead] at h
    split at h
    · rcases List.mem_cons.1 h with rfl | h
      · simp
      · exact not_mem_of_mem_splitOn h
    · rename_i hd
      obtain ⟨first, rest, hsplit⟩ := List.exists_cons_of_ne_nil (List.splitOn_ne_nil c s)
      have hall : ∀ p ∈ first :: rest, c ∉ p := fun p hp => not_mem_of_mem_splitOn (by rw [hsplit]; exact hp)
      rw [hsplit, List.modifyHead_cons] at h
      rcases List.mem_cons.1 h with rfl | h
      · rw [List.mem_cons, not_or]
        exact ⟨fun hc => hd (by simp [← hc]), hall first List.mem_cons_self⟩
      · exact hall part (.tail first h)

/-- A text has two parts where the character stands in it once. -/
theorem splitOn_eq_pair_iff {c : Char} {s a b : Text} :
    s.splitOn c = [a, b] ↔ s = a ++ c :: b ∧ c ∉ a ∧ c ∉ b := by
  constructor
  · intro h
    have hjoined : List.intercalate [c] [a, b] = s := by
      rw [← h]
      exact List.intercalate_splitOn c
    have hparts : ∀ part ∈ [a, b], c ∉ part := fun part hpart => not_mem_of_mem_splitOn (h ▸ hpart)
    exact ⟨by simpa using hjoined.symm, hparts a (by simp), hparts b (by simp)⟩
  · rintro ⟨rfl, ha, hb⟩
    rw [List.splitOn_append_cons_self_of_not_mem ha, List.splitOn_eq_singleton hb]

/-! ## Joined texts -/

theorem mem_join {c : Char} {separator : Text} : ∀ {ss : List Text}, c ∉ separator →
    (c ∈ join separator ss ↔ ∃ s ∈ ss, c ∈ s)
  | [], _ => by simp [join]
  | [s], _ => by simp [join]
  | s :: s' :: ss, h => by
    have ih := @mem_join c separator (s' :: ss) h
    have hjoin : join separator (s :: s' :: ss) = s ++ separator ++ join separator (s' :: ss) := rfl
    rw [hjoin, List.mem_append, List.mem_append, ih]
    simp [h]

/-! ## Words -/

/-- Whether a text is a word: it is not empty and holds no blank. -/
def IsWord (w : Text) : Prop := w ≠ [] ∧ ∀ c ∈ w, isBlank c = false

instance (w : Text) : Decidable (IsWord w) :=
  decidable_of_iff (w ≠ [] ∧ w.all (!isBlank ·) = true) (by simp [IsWord])

theorem IsWord.neat {w : Text} (h : IsWord w) : Neat w := neat_of_forall h.1 h.2

/-- Texts that hold these words in order. What follows a word is nothing or starts with a blank. -/
inductive Spaced : List Text → Text → Prop
  | nil {s : Text} (hs : allBlank s = true) : Spaced [] s
  | cons {gap w s : Text} {ws : List Text} (hgap : allBlank gap = true) (hw : IsWord w)
      (hend : ∀ c, s.head? = some c → isBlank c = true) (hs : Spaced ws s) : Spaced (w :: ws) (gap ++ w ++ s)

/-! ### Reading on -/

theorem words_cons_blank {c : Char} (hc : isBlank c = true) (s : Text) : words (c :: s) = words s := by
  rw [words, wordsFrom, if_pos hc, if_pos List.isEmpty_nil, words]

theorem wordsFrom_gap {gap : Text} (h : allBlank gap = true) (s : Text) : wordsFrom [] (gap ++ s) = words s := by
  rw [allBlank, List.all_eq_true] at h
  induction gap with
  | nil => rfl
  | cons c gap ih =>
    rw [List.forall_mem_cons] at h
    rw [List.cons_append, ← words, words_cons_blank h.1, words, ih h.2]

theorem wordsFrom_append {w : Text} (h : ∀ c ∈ w, isBlank c = false) (word s : Text) :
    wordsFrom word (w ++ s) = wordsFrom (word ++ w) s := by
  induction w generalizing word with
  | nil => simp
  | cons c w ih =>
    rw [List.forall_mem_cons] at h
    rw [List.cons_append, wordsFrom, h.1, if_neg Bool.false_ne_true, ih h.2, List.append_assoc]
    rfl

/-- A word ends where the text ends or goes on with a blank. -/
theorem wordsFrom_end {word s : Text} (hne : word ≠ []) (h : ∀ c, s.head? = some c → isBlank c = true) :
    wordsFrom word s = word :: words s := by
  have hempty : ¬ word.isEmpty = true := by simpa using hne
  cases s with
  | nil => rw [wordsFrom, if_neg hempty]; rfl
  | cons c r =>
    have hc : isBlank c = true := h c rfl
    rw [words_cons_blank hc, words, wordsFrom, if_pos hc, if_neg hempty]

/-! ### Spaced texts -/

theorem Spaced.words_eq {ws : List Text} {s : Text} (h : Spaced ws s) : words s = ws := by
  induction h with
  | nil hs =>
    have hgap := wordsFrom_gap hs []
    rwa [List.append_nil] at hgap
  | @cons gap w s ws hgap hw hend _ ih =>
    rw [words, List.append_assoc, wordsFrom_gap hgap, words, wordsFrom_append hw.2, List.nil_append,
      wordsFrom_end hw.1 hend, ih]

theorem Spaced.isWord {ws : List Text} {s : Text} (h : Spaced ws s) : ∀ w ∈ ws, IsWord w := by
  induction h with
  | nil => simp
  | cons _ hw _ _ ih => exact List.forall_mem_cons.2 ⟨hw, ih⟩

theorem Spaced.blank {ws : List Text} {s : Text} (h : Spaced ws s) {c : Char} (hc : isBlank c = true) :
    Spaced ws (c :: s) := by
  cases h with
  | nil hs => exact .nil (by simpa [allBlank, hc] using hs)
  | @cons gap w s ws hgap hw hend hs =>
    have hgap' : allBlank (c :: gap) = true := by simpa [allBlank, hc] using hgap
    exact .cons hgap' hw hend hs

/-- A text may start with a word. -/
theorem Spaced.first {ws : List Text} {w s : Text} (hw : IsWord w) (hend : ∀ c, s.head? = some c → isBlank c = true)
    (hs : Spaced ws s) : Spaced (w :: ws) (w ++ s) := by
  have h : Spaced (w :: ws) ([] ++ w ++ s) := .cons rfl hw hend hs
  rwa [List.nil_append] at h

/-- The words that are read hold together what is read, also when a word has been begun. -/
theorem spaced_wordsFrom {word : Text} (h : ∀ c ∈ word, isBlank c = false) (s : Text) :
    Spaced (wordsFrom word s) (word ++ s) := by
  induction s generalizing word with
  | nil =>
    by_cases hword : word = []
    · subst hword
      exact .nil rfl
    · rw [wordsFrom_end hword (by simp)]
      exact .first ⟨hword, h⟩ (by simp) (.nil rfl)
  | cons c r ih =>
    cases hc : isBlank c with
    | true =>
      have hrest : Spaced (words (c :: r)) (c :: r) := by
        have hnext : Spaced (words r) r := ih (by simp)
        rw [words_cons_blank hc]
        exact hnext.blank hc
      by_cases hword : word = []
      · subst hword
        exact hrest
      · have hend : ∀ d, (c :: r).head? = some d → isBlank d = true := by
          rintro d ⟨⟩
          exact hc
        rw [wordsFrom_end hword hend]
        exact .first ⟨hword, h⟩ hend hrest
    | false =>
      have hnext : ∀ d ∈ word ++ [c], isBlank d = false := by
        simpa [or_imp, forall_and, hc] using h
      have hrest := ih hnext
      rw [List.append_assoc, List.singleton_append] at hrest
      rwa [wordsFrom, hc, if_neg Bool.false_ne_true]

/-- A text holds the words that it is split into and no others. -/
theorem words_eq_iff {ws : List Text} {s : Text} : words s = ws ↔ Spaced ws s := by
  constructor
  · rintro rfl
    have h : Spaced (wordsFrom [] s) ([] ++ s) := spaced_wordsFrom (by simp) s
    exact h
  · exact Spaced.words_eq

theorem words_eq_nil_iff {s : Text} : words s = [] ↔ allBlank s = true := by
  rw [words_eq_iff]
  constructor
  · rintro ⟨hs⟩
    exact hs
  · exact .nil

/-- Words that are joined by spaces. -/
theorem spaced_join {ws : List Text} (h : ∀ w ∈ ws, IsWord w) : Spaced ws (join [' '] ws) := by
  induction ws with
  | nil => exact .nil rfl
  | cons w ws ih =>
    rw [List.forall_mem_cons] at h
    cases ws with
    | nil =>
      have hlast : Spaced [w] (w ++ []) := .first h.1 (by simp) (.nil rfl)
      rwa [List.append_nil] at hlast
    | cons v vs =>
      have hblank : isBlank ' ' = true := rfl
      have hrest := (ih h.2).blank hblank
      have hfirst := Spaced.first h.1 (by rintro c ⟨⟩; exact hblank) hrest
      rwa [List.append_cons] at hfirst

theorem neat_join {separator : Text} {ss : List Text} (hne : ss ≠ []) (h : ∀ s ∈ ss, Neat s) :
    Neat (join separator ss) := by
  induction ss with
  | nil => exact absurd rfl hne
  | cons s ss ih =>
    rw [List.forall_mem_cons] at h
    cases ss with
    | nil => exact h.1
    | cons t ts => exact h.1.append separator (ih (List.cons_ne_nil t ts) h.2)

theorem words_join {ws : List Text} (h : ∀ w ∈ ws, IsWord w) : words (join [' '] ws) = ws :=
  (spaced_join h).words_eq

end LangGen.Text
