/-
Texts and their lines. A line holds neither of the characters that end lines; a text is read back
from its lines when these are joined, and a text that ends a line cuts the lines before it from
those behind.
-/
import LangGen.Proofs.Text.Trim
import LangGen.Text.Lines

namespace LangGen.Text

/-- Whether a text holds no character that ends a line. -/
def Unbroken (s : Text) : Prop := '\r' ∉ s ∧ '\n' ∉ s

instance (s : Text) : Decidable (Unbroken s) := inferInstanceAs (Decidable (_ ∧ _))

theorem unbroken_nil : Unbroken [] := ⟨List.not_mem_nil, List.not_mem_nil⟩

@[simp] theorem unbroken_cons {c : Char} {s : Text} :
    Unbroken (c :: s) ↔ (c ≠ '\r' ∧ c ≠ '\n') ∧ Unbroken s := by
  simp only [Unbroken, List.mem_cons, not_or]
  constructor
  · rintro ⟨⟨hr, hrs⟩, hn, hns⟩
    exact ⟨⟨Ne.symm hr, Ne.symm hn⟩, hrs, hns⟩
  · rintro ⟨⟨hr, hn⟩, hrs, hns⟩
    exact ⟨⟨Ne.symm hr, hrs⟩, Ne.symm hn, hns⟩

@[simp] theorem unbroken_append {s t : Text} : Unbroken (s ++ t) ↔ Unbroken s ∧ Unbroken t := by
  simp only [Unbroken, List.mem_append, not_or]
  exact and_and_and_comm

theorem Unbroken.of_subset {s t : Text} (hs : Unbroken s) (h : t ⊆ s) : Unbroken t :=
  ⟨fun hc => hs.1 (h hc), fun hc => hs.2 (h hc)⟩

theorem Unbroken.trim {s : Text} (h : Unbroken s) : Unbroken (trim s) := h.of_subset (trim_subset s)

/-! ## Splitting -/

theorem lines_cons_break {c : Char} {s : Text} (hc : c = '\r' ∨ c = '\n')
    (h : ∀ r, c = '\r' → s = '\n' :: r → False) : lines (c :: s) = [] :: lines s := by
  rw [lines.eq_3 c s h, if_pos hc]

theorem lines_ne_nil (s : Text) : lines s ≠ [] := by
  fun_cases lines s <;> simp

/-- A character that ends no line is on the first line of what follows. -/
theorem lines_cons_char {c : Char} (hc : ¬ (c = '\r' ∨ c = '\n')) (s : Text) :
    ∃ l ls, lines s = l :: ls ∧ lines (c :: s) = (c :: l) :: ls := by
  obtain ⟨l, ls, hs⟩ := List.exists_cons_of_ne_nil (lines_ne_nil s)
  refine ⟨l, ls, hs, ?_⟩
  rw [lines.eq_3 c s fun r hr _ => hc (.inl hr), if_neg hc, hs]

/-- A text starts with what its first line starts with. -/
theorem head?_of_lines_eq {c : Char} {s l : Text} {ls : List Text} (h : lines s = (c :: l) :: ls) :
    s.head? = some c := by
  fun_cases lines s with
  | case1 => cases h
  | case2 r => cases h
  | case3 d r hno hd =>
    rw [lines_cons_break hd hno] at h
    cases h
  | case4 d r hno hd hr => exact absurd hr (lines_ne_nil r)
  | case5 d r hno hd l' ls' hr =>
    obtain ⟨l₁, ls₁, -, hcons⟩ := lines_cons_char hd r
    rw [hcons] at h
    cases h
    rfl

theorem unbroken_of_mem_lines {s l : Text} (h : l ∈ lines s) : Unbroken l := by
  induction s using lines.induct generalizing l with
  | case1 => rw [List.mem_singleton.1 h]; exact unbroken_nil
  | case2 r ih =>
    rcases List.mem_cons.1 h with rfl | h
    · exact unbroken_nil
    · exact ih h
  | case3 c r hno hc ih =>
    rw [lines_cons_break hc hno] at h
    rcases List.mem_cons.1 h with rfl | h
    · exact unbroken_nil
    · exact ih h
  | case4 c r hno hc hr ih => exact absurd hr (lines_ne_nil r)
  | case5 c r hno hc l' ls hr ih =>
    obtain ⟨l₁, ls₁, hr', hcr⟩ := lines_cons_char hc r
    rw [hr'] at ih
    rw [hcr] at h
    rcases List.mem_cons.1 h with rfl | h
    · exact unbroken_cons.2 ⟨not_or.1 hc, ih List.mem_cons_self⟩
    · exact ih (List.mem_cons_of_mem _ h)

/-- A text that starts with a line end has its other lines behind those of the text before it,
unless the two make one line end at the seam. -/
theorem lines_append_break {u : Text} {ls : List Text} (hu : lines u = [] :: ls) {s : Text}
    (hseam : s.getLast? = some '\r' → u.head? ≠ some '\n') : lines (s ++ u) = lines s ++ ls := by
  induction s using lines.induct with
  | case1 => exact hu
  | case2 r ih =>
    refine congrArg ([] :: ·) (ih fun hr => hseam ?_)
    rw [List.getLast?_cons, List.getLast?_cons, hr]
    rfl
  | case3 c r hno hc ih =>
    have hno' : ∀ t, c = '\r' → r ++ u = '\n' :: t → False := by
      intro t hcr ht
      cases r with
      | nil => exact hseam (congrArg some hcr) (congrArg List.head? ht)
      | cons d r => cases ht; exact hno r hcr rfl
    rw [List.cons_append, lines_cons_break hc hno', lines_cons_break hc hno, ih fun hr => hseam ?_]
    · rfl
    · rw [List.getLast?_cons, hr]
      rfl
  | case4 c r hno hc hr ih => exact absurd hr (lines_ne_nil r)
  | case5 c r hno hc l ls' hr ih =>
    obtain ⟨l₁, ls₁, hr₁, hcr₁⟩ := lines_cons_char hc r
    obtain ⟨l₂, ls₂, hr₂, hcr₂⟩ := lines_cons_char hc (r ++ u)
    rw [hr₁, hr₂] at ih
    rw [List.cons_append, hcr₁, hcr₂]
    cases ih fun hr => hseam (by rw [List.getLast?_cons, hr]; rfl)
    rfl

/-- A line end of two characters cuts the lines before it from those behind it. -/
theorem lines_append_crlf (s t : Text) : lines (s ++ '\r' :: '\n' :: t) = lines s ++ lines t :=
  lines_append_break rfl fun _ => by simp

/-- Texts that a line feed joins have the lines of both, empty lines apart: a line feed behind a
carriage return ends no line of its own. -/
theorem filter_lines_append_newline {p : Text → Bool} (hp : p [] = false) (s t : Text) :
    (lines (s ++ '\n' :: t)).filter p = (lines s).filter p ++ (lines t).filter p := by
  by_cases hs : s.getLast? = some '\r'
  · obtain ⟨s, rfl⟩ := List.getLast?_eq_some_iff.1 hs
    have hjoin : s ++ ['\r'] ++ '\n' :: t = s ++ '\r' :: '\n' :: t := by simp
    have hend : lines ['\r'] = [[], []] := rfl
    rw [hjoin, lines_append_crlf, lines_append_break hend fun _ => by simp]
    simp [hp]
  · have hend : lines ('\n' :: t) = [] :: lines t := lines_cons_break (.inr rfl) fun _ h => by cases h
    rw [lines_append_break hend fun h => absurd h hs, List.filter_append]

/-- A text without line ends is on one line with what follows. -/
theorem lines_append {s : Text} (h : Unbroken s) (t : Text) :
    ∃ l ls, lines t = l :: ls ∧ lines (s ++ t) = (s ++ l) :: ls := by
  induction s with
  | nil =>
    obtain ⟨l, ls, ht⟩ := List.exists_cons_of_ne_nil (lines_ne_nil t)
    exact ⟨l, ls, ht, ht⟩
  | cons c s ih =>
    obtain ⟨⟨hr, hn⟩, hs⟩ := unbroken_cons.1 h
    obtain ⟨l, ls, ht, hst⟩ := ih hs
    obtain ⟨l', ls', hst', hc⟩ := lines_cons_char (not_or.2 ⟨hr, hn⟩) (s ++ t)
    rw [hst] at hst'
    cases hst'
    exact ⟨l, ls, ht, hc⟩

theorem lines_of_unbroken {s : Text} (h : Unbroken s) : lines s = [s] := by
  obtain ⟨l, ls, ht, hs⟩ := lines_append h []
  cases ht
  simpa using hs

theorem lines_append_lf {s : Text} (h : Unbroken s) (t : Text) : lines (s ++ '\n' :: t) = s :: lines t := by
  obtain ⟨l, ls, ht, hs⟩ := lines_append h ('\n' :: t)
  rw [lines_cons_break (.inr rfl) fun _ h _ => by cases h] at ht
  cases ht
  simpa using hs

/-- A text has one line exactly if it holds no line end. -/
theorem length_lines_eq_one {s : Text} : (lines s).length = 1 ↔ Unbroken s := by
  refine ⟨fun h => ?_, fun h => by rw [lines_of_unbroken h]; rfl⟩
  induction s using lines.induct with
  | case1 => exact unbroken_nil
  | case2 r ih => simp [lines, lines_ne_nil] at h
  | case3 c r hno hc ih =>
    rw [lines_cons_break hc hno] at h
    simp [lines_ne_nil] at h
  | case4 c r hno hc hr ih => exact absurd hr (lines_ne_nil r)
  | case5 c r hno hc l ls hr ih =>
    obtain ⟨l₁, ls₁, hr₁, hcr₁⟩ := lines_cons_char hc r
    rw [hcr₁] at h
    exact unbroken_cons.2 ⟨not_or.1 hc, ih (by rw [hr₁]; exact h)⟩

/-! ## Line ends -/

theorem unixLines_cons {c : Char} {s : Text} (h : ∀ r, c = '\r' → s = '\n' :: r → False) :
    unixLines (c :: s) = (if c = '\r' then '\n' else c) :: unixLines s := unixLines.eq_3 c s h

/-- How lines end does not count. -/
@[simp] theorem lines_unixLines (s : Text) : lines (unixLines s) = lines s := by
  have hlf : ∀ r, lines ('\n' :: r) = [] :: lines r := fun r => lines_cons_break (.inr rfl) fun _ h => by cases h
  induction s using lines.induct with
  | case1 => rfl
  | case2 r ih => rw [unixLines, lines, hlf, ih]
  | case3 c r hno hc ih =>
    have hlead : (if c = '\r' then '\n' else c) = '\n' := by
      rcases hc with rfl | rfl <;> rfl
    rw [unixLines_cons hno, hlead, hlf, lines_cons_break hc hno, ih]
  | case4 c r hno hc hr ih => exact absurd hr (lines_ne_nil r)
  | case5 c r hno hc l ls hr ih =>
    obtain ⟨l₁, ls₁, hr₁, hcr₁⟩ := lines_cons_char hc r
    obtain ⟨l₂, ls₂, hr₂, hcr₂⟩ := lines_cons_char hc (unixLines r)
    rw [hr₁, hr₂] at ih
    cases ih
    rw [unixLines_cons hno, if_neg fun h => hc (.inl h), hcr₁, hcr₂]

/-- A CR ends a line of its own unless a LF follows it. -/
example : unixLines "a\r\n\rb\n\r".toList = "a\n\nb\n\n".toList := rfl

/-! ## Joining -/

/-- A line is joined to the lines behind it by a line feed. -/
theorem joinLines_cons_of_ne_nil (l : Text) {ls : List Text} (h : ls ≠ []) :
    joinLines (l :: ls) = l ++ '\n' :: joinLines ls := by
  obtain ⟨l', ls', rfl⟩ := List.exists_cons_of_ne_nil h
  simp [joinLines, join]

/-- Lines are read back from the text that they are joined to. -/
theorem lines_joinLines {ls : List Text} (h0 : ls ≠ []) (h : ∀ l ∈ ls, Unbroken l) :
    lines (joinLines ls) = ls := by
  induction ls with
  | nil => exact absurd rfl h0
  | cons l rest ih =>
    have hl := h l List.mem_cons_self
    by_cases hrest : rest = []
    · subst hrest
      exact lines_of_unbroken hl
    · rw [joinLines_cons_of_ne_nil l hrest, lines_append_lf hl, ih hrest fun x hx => h x (List.mem_cons_of_mem l hx)]

/-- Lines that end in CR LF each. -/
def terminated (ls : List Text) : Text := ls.flatMap (· ++ ['\r', '\n'])

/-- Texts that end in CR LF each are split into the lines of each, with an empty line behind them. -/
theorem lines_terminated (ls : List Text) : lines (terminated ls) = ls.flatMap lines ++ [[]] := by
  induction ls with
  | nil => rfl
  | cons l ls ih =>
    have hcons : terminated (l :: ls) = l ++ '\r' :: '\n' :: terminated ls := by simp [terminated]
    rw [hcons, lines_append_crlf, ih, List.flatMap_cons, List.append_assoc]

theorem flatMap_lines_of_unbroken {ls : List Text} (h : ∀ l ∈ ls, Unbroken l) : ls.flatMap lines = ls := by
  induction ls with
  | nil => rfl
  | cons l ls ih =>
    rw [List.flatMap_cons, lines_of_unbroken (h l List.mem_cons_self),
      ih fun x hx => h x (List.mem_cons_of_mem l hx), List.singleton_append]

/-- Texts have as many lines as there are of them exactly if none holds a line end. -/
theorem length_flatMap_lines {ls : List Text} :
    (ls.flatMap lines).length = ls.length ↔ ∀ l ∈ ls, Unbroken l := by
  refine ⟨fun h => ?_, fun h => by rw [flatMap_lines_of_unbroken h]⟩
  have hle : ∀ ls : List Text, ls.length ≤ (ls.flatMap lines).length := by
    intro ls
    induction ls with
    | nil => exact Nat.le_refl _
    | cons l ls ih =>
      have hl := List.length_pos_of_ne_nil (lines_ne_nil l)
      rw [List.flatMap_cons, List.length_append, List.length_cons]
      omega
  induction ls with
  | nil => intro l hl; cases hl
  | cons l ls ih =>
    have hl := List.length_pos_of_ne_nil (lines_ne_nil l)
    have hls := hle ls
    rw [List.flatMap_cons, List.length_append, List.length_cons] at h
    rintro x (_ | ⟨_, hx⟩)
    · exact length_lines_eq_one.1 (by omega)
    · exact ih (by omega) x hx

end LangGen.Text
