/-
Names hold no blanks, and whether a text starts with a name in braces is settled at the closing
brace: what follows it does not count.
-/
import LangGen.Proofs.Text.Trim
import LangGen.Text.Name

namespace LangGen.Text

/-- The code points of the blank characters. -/
def blankCodes : List Nat :=
  List.range' 9 5 ++ List.range' 28 5 ++ List.range' 0x2000 11 ++
    [0x85, 0xA0, 0x1680, 0x2028, 0x2029, 0x202F, 0x205F, 0x3000]

theorem mem_blankCodes {c : Char} (h : isBlank c = true) : c.toNat ∈ blankCodes := by
  simp only [isBlank, Bool.or_eq_true, Bool.and_eq_true, decide_eq_true_eq, beq_iff_eq] at h
  simp only [blankCodes, List.mem_append, List.mem_range'_1, List.mem_cons, List.not_mem_nil, or_false]
  omega

theorem isBlank_of_isWordChar {c : Char} (h : isWordChar c = true) : isBlank c = false := by
  by_contra hb
  rw [Bool.not_eq_false] at hb
  have htable : ∀ n ∈ blankCodes, n ≠ '_'.toNat ∧ inTable letterTable n = false := by decide +kernel
  obtain ⟨hline, hletter⟩ := htable _ (mem_blankCodes hb)
  unfold isWordChar at h
  rw [hletter, Bool.or_false] at h
  exact hline (congrArg Char.toNat (eq_of_beq h))

theorem isWordChar_of_isNameStart {c : Char} (h : isNameStart c = true) : isWordChar c = true :=
  (Bool.and_eq_true_iff.1 h).1

/-- A name goes on with word characters and points. -/
theorem mem_take_nameTail : ∀ {s : Text} {c : Char}, c ∈ s.take (nameTail s) →
    isWordChar c = true ∨ c = '.'
  | [], _, h => by simp at h
  | [d], c, h => by
    unfold nameTail at h
    split at h
    · rename_i hd
      cases List.mem_singleton.1 h
      exact .inl hd
    · cases h
  | d :: e :: r, c, h => by
    unfold nameTail at h
    split at h
    · rename_i hd
      rw [List.take_succ_cons] at h
      rcases List.mem_cons.1 h with rfl | h
      · exact .inl hd
      · exact mem_take_nameTail h
    · split at h
      · rename_i hpoint
        simp only [Bool.and_eq_true, decide_eq_true_eq] at hpoint
        rw [List.take_succ_cons, List.take_succ_cons] at h
        rcases List.mem_cons.1 h with rfl | h
        · exact .inr hpoint.1
        rcases List.mem_cons.1 h with rfl | h
        · exact .inl (isWordChar_of_isNameStart hpoint.2)
        · exact mem_take_nameTail h
      · cases h

/-- A name holds word characters and points. -/
theorem mem_name {s : Text} {c : Char} (h : c ∈ s.take (nameLength s)) : isWordChar c = true ∨ c = '.' := by
  cases s with
  | nil => simp at h
  | cons d r =>
    rw [nameLength] at h
    split at h
    · rename_i hd
      rw [List.take_succ_cons] at h
      rcases List.mem_cons.1 h with rfl | h
      · exact .inl (isWordChar_of_isNameStart hd)
      · exact mem_take_nameTail h
    · cases h

theorem isBlank_of_mem_name {s : Text} {c : Char} (h : c ∈ s.take (nameLength s)) :
    isBlank c = false := by
  rcases mem_name h with h | rfl
  · exact isBlank_of_isWordChar h
  · decide

/-- A name is at least one character long. -/
theorem nameLength_eq_succ {s : Text} {n : Nat} (h : nameLength s = n + 1) :
    ∃ c r, s = c :: r ∧ isNameStart c = true ∧ nameTail r = n := by
  cases s with
  | nil => cases h
  | cons c r =>
    rw [nameLength] at h
    split at h
    · rename_i hc
      exact ⟨c, r, rfl, hc, Nat.succ.inj h⟩
    · cases h

theorem bracedName?_eq_some {s name rest : Text} (h : bracedName? s = some (name, rest)) :
    ∃ n, nameLength (trimStart s) = n + 1 ∧ name = (trimStart s).take (n + 1) ∧
      trimStart ((trimStart s).drop (n + 1)) = '}' :: rest := by
  unfold bracedName? at h
  dsimp only at h
  split at h
  · cases h
  · rename_i n hn
    split at h
    · rename_i rest' hrest
      cases h
      exact ⟨n, hn, rfl, hrest⟩
    · cases h

theorem bracedName?_of {s rest : Text} {n : Nat} (hn : nameLength (trimStart s) = n + 1)
    (hrest : trimStart ((trimStart s).drop (n + 1)) = '}' :: rest) :
    bracedName? s = some ((trimStart s).take (n + 1), rest) := by
  unfold bracedName?
  dsimp only
  rw [hn]
  dsimp only
  rw [hrest]
  rfl

/-- The name in braces is not empty and has no blanks around it. -/
theorem neat_of_bracedName? {s name rest : Text} (h : bracedName? s = some (name, rest)) :
    Neat name := by
  obtain ⟨n, hn, rfl, -⟩ := bracedName?_eq_some h
  constructor
  · obtain ⟨c, r, hs, -, -⟩ := nameLength_eq_succ hn
    rw [hs]
    exact List.cons_ne_nil _ _
  · apply trim_of_forall
    intro c hc
    rw [← hn] at hc
    exact isBlank_of_mem_name hc

/-- A name that ends before a character other than a point ends there whatever comes after that. -/
theorem nameTail_append : ∀ {s : Text} {c : Char}, (s.drop (nameTail s)).head? = some c → c ≠ '.' →
    ∀ t, nameTail (s ++ t) = nameTail s
  | [], _, h, _, _ => by simp at h
  | [d], c, h, hc, t => by
    unfold nameTail at h
    split at h
    · simp at h
    · rename_i hd
      cases Option.some.inj h
      cases t <;> simp [nameTail, hd, hc]
  | d :: e :: r, c, h, hc, t => by
    rw [nameTail] at h
    rw [nameTail, List.cons_append, List.cons_append, nameTail]
    split
    · rename_i hd
      rw [if_pos hd, List.drop_succ_cons] at h
      rw [← nameTail_append h hc t, List.cons_append]
    · rename_i hd
      rw [if_neg hd] at h
      split
      · rename_i hpoint
        rw [if_pos hpoint, List.drop_succ_cons, List.drop_succ_cons] at h
        rw [nameTail_append h hc t]
      · rfl

/-- What follows the closing brace does not count. -/
theorem bracedName?_append {s name rest : Text} (h : bracedName? s = some (name, rest)) (t : Text) :
    bracedName? (s ++ t) = some (name, rest ++ t) := by
  obtain ⟨n, hn, rfl, hrest⟩ := bracedName?_eq_some h
  obtain ⟨c, r, hs, hstart, htail⟩ := nameLength_eq_succ hn
  have hst : trimStart (s ++ t) = trimStart s ++ t := trimStart_append (by simp [hs]) t
  have hdrop : (trimStart s).drop (n + 1) ≠ [] := by
    intro h0
    rw [h0] at hrest
    cases hrest
  have hlen : n + 1 ≤ (trimStart s).length := by
    rw [ne_eq, List.drop_eq_nil_iff] at hdrop
    omega
  have hname : nameLength (trimStart s ++ t) = n + 1 := by
    -- a point is no blank, so it does not stand between the name and the brace
    obtain ⟨d, hd, hpoint⟩ : ∃ d, (r.drop (nameTail r)).head? = some d ∧ d ≠ '.' := by
      rw [hs, List.drop_succ_cons] at hrest
      rw [htail]
      cases hr : r.drop n with
      | nil => rw [hr] at hrest; cases hrest
      | cons d u =>
        refine ⟨d, rfl, ?_⟩
        rintro rfl
        rw [hr, trimStart_of_forall fun c hc => by cases hc; decide] at hrest
        cases hrest
    rw [hs, List.cons_append, nameLength, if_pos hstart, nameTail_append hd hpoint, htail]
  have htake : (trimStart (s ++ t)).take (n + 1) = (trimStart s).take (n + 1) := by
    rw [hst, List.take_append_of_le_length hlen]
  rw [← htake]
  apply bracedName?_of
  · rw [hst, hname]
  · rw [hst, List.drop_append_of_le_length hlen, trimStart_append (by rw [hrest]; simp), hrest]
    rfl

/-! ## Where names end -/

theorem nameTail_le : ∀ s : Text, nameTail s ≤ s.length
  | [] => Nat.le_refl 0
  | [c] => by unfold nameTail; split <;> simp
  | c :: d :: r => by
    have hcons := nameTail_le (d :: r)
    have hrest := nameTail_le r
    unfold nameTail
    simp only [List.length_cons] at hcons ⊢
    split
    · omega
    · split <;> omega

theorem nameLength_le (s : Text) : nameLength s ≤ s.length := by
  cases s with
  | nil => exact Nat.le_refl 0
  | cons c r =>
    have htail := nameTail_le r
    rw [nameLength]
    split <;> simp [htail]

/-- Whether no name goes on into a text: it starts with neither a word character nor a point. -/
def EndsName (t : Text) : Prop := ∀ c, t.head? = some c → isWordChar c = false ∧ c ≠ '.'

theorem endsName_of_blank {t : Text} (h : ∀ c, t.head? = some c → isBlank c = true) : EndsName t := by
  intro c hc
  have hblank := h c hc
  constructor
  · by_contra hword
    rw [isBlank_of_isWordChar (by simpa using hword)] at hblank
    cases hblank
  · rintro rfl
    exact absurd hblank (by decide)

theorem isNameStart_of_not_word {c : Char} (h : isWordChar c = false) : isNameStart c = false := by
  rw [isNameStart, h, Bool.false_and]

theorem nameTail_append_of_endsName {t : Text} (ht : EndsName t) : ∀ s : Text, nameTail (s ++ t) = nameTail s
  | [] => by
    match t with
    | [] => rfl
    | [c] => simp [nameTail, (ht c rfl).1]
    | c :: d :: r => simp [nameTail, (ht c rfl).1, (ht c rfl).2]
  | [d] => by
    match t with
    | [] => rfl
    | c :: r =>
      have hnil : nameTail (c :: r) = 0 := nameTail_append_of_endsName ht []
      simp [nameTail, hnil, isNameStart_of_not_word (ht c rfl).1]
  | d :: e :: r => by
    have hcons := nameTail_append_of_endsName ht (e :: r)
    have hrest := nameTail_append_of_endsName ht r
    rw [List.cons_append] at hcons
    rw [List.cons_append, List.cons_append, nameTail, nameTail, hcons, hrest]

theorem nameLength_append_of_endsName {t : Text} (ht : EndsName t) (s : Text) :
    nameLength (s ++ t) = nameLength s := by
  cases s with
  | nil =>
    cases t with
    | nil => rfl
    | cons c r => simp [nameLength, isNameStart_of_not_word (ht c rfl).1]
  | cons c r =>
    rw [List.cons_append, nameLength, nameLength, nameTail_append_of_endsName ht]

/-- Blanks behind a text do not count for a name in braces. -/
theorem bracedName?_append_blanks (s : Text) {t : Text} (ht : ∀ c ∈ t, isBlank c = true) :
    bracedName? (s ++ t) = (bracedName? s).map fun p => (p.1, p.2 ++ t) := by
  cases hs : bracedName? s with
  | some p => exact bracedName?_append hs t
  | none =>
    cases hst : bracedName? (s ++ t) with
    | none => rfl
    | some p =>
      obtain ⟨n, hn, -, hrest⟩ := bracedName?_eq_some hst
      have hends : EndsName t := endsName_of_blank fun c hc => ht c (List.mem_of_head? hc)
      rw [trimStart_append_blanks s ht] at hn hrest
      split at hn
      · cases hn
      · rename_i hu
        rw [if_neg hu] at hrest
        rw [nameLength_append_of_endsName hends] at hn
        have hle : n + 1 ≤ (trimStart s).length := hn ▸ nameLength_le _
        rw [List.drop_append_of_le_length hle, trimStart_append_blanks _ ht] at hrest
        split at hrest
        · cases hrest
        · rename_i hdrop
          -- the closing brace stands in `s` itself, so `s` starts with a name in braces
          obtain ⟨c, r, hcons⟩ := List.exists_cons_of_ne_nil hdrop
          rw [hcons, List.cons_append] at hrest
          injection hrest with hc hr
          subst hc
          rw [bracedName?_of hn hcons] at hs
          cases hs

/-- A text that starts with a name in braces, in its parts. -/
theorem bracedName?_split {s name rest : Text} (h : bracedName? s = some (name, rest)) :
    ∃ a b, s = a ++ name ++ b ++ '}' :: rest ∧ (∀ c ∈ a, isBlank c = true) ∧
      (∀ c ∈ b, isBlank c = true) := by
  obtain ⟨n, hn, rfl, hrest⟩ := bracedName?_eq_some h
  obtain ⟨a, hsplit, ha⟩ := exists_blanks_trimStart s
  obtain ⟨b, hend, hb⟩ := exists_blanks_trimStart ((trimStart s).drop (n + 1))
  rw [hrest] at hend
  refine ⟨a, b, ?_, ha, hb⟩
  rw [List.append_assoc, ← hend, List.append_assoc, List.take_append_drop]
  exact hsplit

/-- The name in braces is a name to its end. -/
theorem nameLength_bracedName? {s name rest : Text} (h : bracedName? s = some (name, rest)) :
    nameLength name = name.length ∧ name ≠ [] := by
  obtain ⟨n, hn, rfl, hrest⟩ := bracedName?_eq_some h
  have hle : n + 1 ≤ (trimStart s).length := hn ▸ nameLength_le _
  have hlength : ((trimStart s).take (n + 1)).length = n + 1 := List.length_take_of_le hle
  refine ⟨?_, (neat_of_bracedName? h).1⟩
  have hends : EndsName ((trimStart s).drop (n + 1)) := by
    intro c hc
    cases hblank : isBlank c with
    | true => exact endsName_of_blank (t := [c]) (by simpa using hblank) c rfl
    | false =>
      -- what comes after the name is blank, or it is the closing brace
      rw [trimStart_of_forall fun d hd => by rw [hc] at hd; cases hd; exact hblank] at hrest
      rw [hrest] at hc
      cases hc
      decide +kernel
  rw [hlength, ← hn, ← nameLength_append_of_endsName hends, hn, List.take_append_drop, hn]

end LangGen.Text
