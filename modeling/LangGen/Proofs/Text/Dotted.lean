/-
Names by their pattern: a name is one identifier, or several with a point between one and the next.
What `nameLength` finds at the start of a text is the longest name there.
-/
import LangGen.Proofs.Text.Name

namespace LangGen.Text

/-- A word character that is no decimal digit, and word characters after it. -/
def Identifier (s : Text) : Prop := ∃ c r, s = c :: r ∧ isNameStart c = true ∧ ∀ d ∈ r, isWordChar d = true

/-- One identifier, or several joined by points. -/
inductive Dotted : Text → Prop
  | one {i : Text} : Identifier i → Dotted i
  | more {i s : Text} : Identifier i → Dotted s → Dotted (i ++ '.' :: s)

variable {c : Char} {i p r s : Text} {n : Nat}

theorem identifier_singleton (hc : isNameStart c = true) : Identifier [c] := ⟨c, [], rfl, hc, by simp⟩

theorem Identifier.concat (h : Identifier i) (hc : isWordChar c = true) : Identifier (i ++ [c]) := by
  obtain ⟨d, r, rfl, hd, hr⟩ := h
  refine ⟨d, r ++ [c], rfl, hd, fun e he => ?_⟩
  rcases List.mem_append.1 he with he | he
  · exact hr e he
  · cases List.mem_singleton.1 he
    exact hc

theorem Identifier.head? (h : Identifier i) : ∃ c r, i = c :: r ∧ isNameStart c = true := by
  obtain ⟨c, r, hi, hc, -⟩ := h
  exact ⟨c, r, hi, hc⟩

theorem Identifier.forall_word (h : Identifier i) : ∀ c ∈ i, isWordChar c = true := by
  obtain ⟨c, r, rfl, hc, hr⟩ := h
  exact List.forall_mem_cons.2 ⟨isWordChar_of_isNameStart hc, hr⟩

theorem Dotted.head? (h : Dotted s) : ∃ c r, s = c :: r ∧ isNameStart c = true := by
  cases h with
  | one hi => exact hi.head?
  | more hi _ =>
    obtain ⟨c, r, rfl, hc⟩ := hi.head?
    exact ⟨c, _, rfl, hc⟩

theorem Dotted.mem (h : Dotted s) : ∀ c ∈ s, isWordChar c = true ∨ c = '.' := by
  induction h with
  | one hi => exact fun c hc => .inl (hi.forall_word c hc)
  | more hi _ ih =>
    intro c hc
    rcases List.mem_append.1 hc with hc | hc
    · exact .inl (hi.forall_word c hc)
    rcases List.mem_cons.1 hc with hc | hc
    · exact .inr hc
    · exact ih c hc

/-- A name goes on with any word character. -/
theorem Dotted.concat (h : Dotted s) (hc : isWordChar c = true) : Dotted (s ++ [c]) := by
  induction h with
  | one hi => exact .one (hi.concat hc)
  | more hi _ ih =>
    rw [List.append_assoc, List.cons_append]
    exact .more hi ih

/-! ## What is found is a name -/

theorem Identifier.dotted_take_nameTail : ∀ {s i : Text}, Identifier i → Dotted (i ++ s.take (nameTail s))
  | [], i, h => by rw [List.take_nil, List.append_nil]; exact .one h
  | [c], i, h => by
    unfold nameTail
    split
    · rename_i hc
      exact .one (h.concat hc)
    · rw [List.take_zero, List.append_nil]; exact .one h
  | c :: d :: r, i, h => by
    unfold nameTail
    split
    · rename_i hc
      rw [List.take_succ_cons, List.append_cons]
      exact (h.concat hc).dotted_take_nameTail
    split
    · rename_i hpoint
      simp only [Bool.and_eq_true, decide_eq_true_eq] at hpoint
      obtain ⟨rfl, hd⟩ := hpoint
      rw [List.take_succ_cons, List.take_succ_cons]
      exact .more h (identifier_singleton hd).dotted_take_nameTail
    · rw [List.take_zero, List.append_nil]; exact .one h

theorem dotted_take_nameLength (h : nameLength s = n + 1) : Dotted (s.take (n + 1)) := by
  obtain ⟨c, r, rfl, hc, rfl⟩ := nameLength_eq_succ h
  exact (identifier_singleton hc).dotted_take_nameTail

/-! ## No name is longer -/

theorem nameTail_word (hc : isWordChar c = true) (r : Text) : nameTail (c :: r) = nameTail r + 1 := by
  cases r <;> simp [nameTail, hc]

theorem nameTail_words (h : ∀ c ∈ p, isWordChar c = true) (r : Text) :
    nameTail (p ++ r) = p.length + nameTail r := by
  induction p with
  | nil => simp
  | cons c p ih =>
    rw [List.forall_mem_cons] at h
    rw [List.cons_append, nameTail_word h.1, ih h.2, List.length_cons]
    omega

theorem isWordChar_point : isWordChar '.' = false := by decide +kernel

/-- After a point, all of the name that stands there belongs to the name before the point. -/
theorem nameTail_point (h : nameLength s = n + 1) : nameTail ('.' :: s) = n + 2 := by
  obtain ⟨c, r, rfl, hc, rfl⟩ := nameLength_eq_succ h
  simp [nameTail, isWordChar_point, hc]

theorem Identifier.nameLength_append (h : Identifier i) (r : Text) :
    nameLength (i ++ r) = i.length + nameTail r := by
  obtain ⟨c, w, rfl, hc, hw⟩ := h
  rw [List.cons_append, nameLength, if_pos hc, nameTail_words hw, List.length_cons]
  omega

theorem Dotted.length_le (h : Dotted p) (r : Text) : p.length ≤ nameLength (p ++ r) := by
  induction h with
  | one hi => rw [hi.nameLength_append]; exact Nat.le_add_right _ _
  | more hi hs ih =>
    rename_i i s
    obtain ⟨c, w, rfl, -⟩ := hs.head?
    have hpos : nameLength (c :: w ++ r) ≠ 0 := by
      rw [List.length_cons] at ih
      omega
    obtain ⟨n, hn⟩ := Nat.exists_eq_succ_of_ne_zero hpos
    rw [List.append_assoc, hi.nameLength_append, List.cons_append, nameTail_point hn]
    simp only [List.length_append, List.length_cons] at ih ⊢
    omega

/-- A name is found to its end, and no further. -/
theorem dotted_iff : Dotted s ↔ s ≠ [] ∧ nameLength s = s.length := by
  constructor
  · intro h
    obtain ⟨c, r, hs, -⟩ := h.head?
    have hle : s.length ≤ nameLength (s ++ []) := h.length_le []
    rw [List.append_nil] at hle
    exact ⟨by rw [hs]; exact List.cons_ne_nil c r, Nat.le_antisymm (nameLength_le s) hle⟩
  · rintro ⟨hne, hlength⟩
    obtain ⟨c, r, rfl⟩ := List.exists_cons_of_ne_nil hne
    have hdotted := dotted_take_nameLength hlength
    rwa [← List.length_cons, List.take_length] at hdotted

/-! ## Names in braces -/

theorem dotted_of_bracedName? {name rest : Text} (h : bracedName? s = some (name, rest)) : Dotted name := by
  obtain ⟨hlength, hne⟩ := nameLength_bracedName? h
  exact dotted_iff.2 ⟨hne, hlength⟩

theorem endsName_closing {b : Text} (hb : ∀ c ∈ b, isBlank c = true) (rest : Text) :
    EndsName (b ++ '}' :: rest) := by
  cases b with
  | nil => intro c hc; cases hc; decide +kernel
  | cons d b => exact endsName_of_blank fun c hc => by cases hc; exact hb d List.mem_cons_self

/-- A name in braces is found with any blanks around it. -/
theorem Dotted.bracedName? {name a b : Text} (h : Dotted name) (ha : ∀ c ∈ a, isBlank c = true)
    (hb : ∀ c ∈ b, isBlank c = true) (rest : Text) :
    bracedName? (a ++ name ++ b ++ '}' :: rest) = some (name, rest) := by
  obtain ⟨hne, hlength⟩ := dotted_iff.1 h
  have hstart : trimStart (a ++ name ++ b ++ '}' :: rest) = name ++ (b ++ '}' :: rest) := by
    rw [List.append_assoc, List.append_assoc, trimStart_blanks_append ha]
    refine trimStart_of_forall fun c hc => ?_
    obtain ⟨d, r, rfl, hd⟩ := h.head?
    cases hc
    exact isBlank_of_isWordChar (isWordChar_of_isNameStart hd)
  obtain ⟨n, hn⟩ : ∃ n, name.length = n + 1 := Nat.exists_eq_succ_of_ne_zero (by simpa using hne)
  have hfound : nameLength (name ++ (b ++ '}' :: rest)) = n + 1 := by
    rw [nameLength_append_of_endsName (endsName_closing hb rest), hlength, hn]
  have hclosing : trimStart ((name ++ (b ++ '}' :: rest)).drop (n + 1)) = '}' :: rest := by
    rw [← hn, List.drop_left, trimStart_blanks_append hb]
    rfl
  rw [← hstart] at hfound hclosing
  rw [bracedName?_of hfound hclosing, hstart, ← hn, List.take_left]

end LangGen.Text
