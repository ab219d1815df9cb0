/-
Each kind of token starts with characters of its own. So the text of a token tells whether it is an
operator or a reserved word, and no value is written like one.
-/
import LangGen.Proofs.Condition.Grammar

namespace LangGen.Condition

/-- The characters that a token may start with. -/
def Token.Starts : Token → Char → Prop
  | .reference _, c => c = '{'
  | .number _, c => Text.isDecimalDigit c
  | .string _, c => c = '"' ∨ c = '\''
  | .operator op, c => op.text.head? = some c
  | .name _, c => Text.isNameStart c

theorem head?_take {s : Text} {n : Nat} {c : Char} (h : (s.take n).head? = some c) :
    s.head? = some c := by
  rw [List.head?_take] at h
  split at h
  · cases h
  · exact h

theorem referenceLength?_head? {s : Text} {n : Nat} (h : referenceLength? s = some n) :
    s.head? = some '{' := by
  unfold referenceLength? at h
  split at h
  · rfl
  · cases h

theorem numberLength_head? {s : Text} {n : Nat} (h : numberLength s = n + 1) :
    ∃ c, s.head? = some c ∧ Text.isDecimalDigit c := by
  cases s with
  | nil => cases h
  | cons c r =>
    by_cases hc : Text.isDecimalDigit c = true
    · exact ⟨c, rfl, hc⟩
    · have hwhole : ((c :: r).takeWhile Text.isDecimalDigit).length = 0 := by simp [hc]
      unfold numberLength at h
      rw [hwhole] at h
      cases h

theorem stringLength?_head? {s : Text} {n : Nat} (h : stringLength? s = some n) :
    ∃ c, s.head? = some c ∧ (c = '"' ∨ c = '\'') := by
  unfold stringLength? at h
  split at h
  · split at h
    · rename_i c r hc
      exact ⟨c, rfl, hc⟩
    · cases h
  · cases h

theorem nameLength_head? {s : Text} {n : Nat} (h : Text.nameLength s = n + 1) :
    ∃ c, s.head? = some c ∧ Text.isNameStart c := by
  unfold Text.nameLength at h
  split at h
  · cases h
  · split at h
    · rename_i c r hc
      exact ⟨c, rfl, hc⟩
    · cases h

theorem first?_starts {s : Text} {t : Token} (h : Token.first? s = some t) {c : Char}
    (hc : t.text.head? = some c) : t.Starts c := by
  unfold Token.first? at h
  split at h
  · rename_i n hn
    cases h
    exact Option.some.inj ((head?_take hc).symm.trans (referenceLength?_head? hn))
  split at h
  · rename_i n hn
    cases h
    obtain ⟨d, hd, hdigit⟩ := numberLength_head? hn
    cases Option.some.inj ((head?_take hc).symm.trans hd)
    exact hdigit
  split at h
  · rename_i n hn
    cases h
    obtain ⟨d, hd, hquote⟩ := stringLength?_head? hn
    cases Option.some.inj ((head?_take hc).symm.trans hd)
    exact hquote
  split at h
  · cases h
    exact hc
  split at h
  · rename_i n hn
    cases h
    obtain ⟨d, hd, hstart⟩ := nameLength_head? hn
    cases Option.some.inj ((head?_take hc).symm.trans hd)
    exact hstart
  · cases h

theorem tokensFrom_starts : ∀ {s : Text} {skip : Nat} {ts : List Token},
    tokensFrom skip s = .ok ts → ∀ t ∈ ts, ∀ c, t.text.head? = some c → t.Starts c
  | [], _, ts, h => by cases h; simp
  | _ :: r, skip + 1, ts, h => by
    unfold tokensFrom at h
    exact tokensFrom_starts h
  | a :: r, 0, ts, h => by
    unfold tokensFrom at h
    split at h
    · exact tokensFrom_starts h
    split at h
    · cases h
    · rename_i t ht
      cases hrest : tokensFrom (t.text.length - 1) r with
      | error => rw [hrest] at h; cases h
      | ok us =>
        rw [hrest] at h
        cases h
        intro u hu c hc
        rcases List.mem_cons.1 hu with rfl | hu
        · exact first?_starts ht hc
        · exact tokensFrom_starts hrest u hu c hc

theorem tokens_starts {s : Text} {ts : List Token} (h : tokens s = .ok ts) {t : Token} (ht : t ∈ ts)
    {c : Char} (hc : t.text.head? = some c) : t.Starts c := tokensFrom_starts h t ht c hc

/-! ## Texts of operators and reserved words -/

theorem Operator.first?_text (op : Operator) : Operator.first? op.text = some op := by
  cases op <;> rfl

theorem Operator.starts (op : Operator) : ∃ c, op.text.head? = some c ∧ c ≠ '{' ∧ c ≠ '"' ∧ c ≠ '\'' ∧
    Text.isDecimalDigit c = false ∧ Text.isNameStart c = false := by
  cases op <;> exact ⟨_, rfl, by decide +kernel⟩

theorem reserved_starts : ∀ w ∈ reserved, ∃ c, w.head? = some c ∧ Text.isNameStart c = true := by
  intro w hw
  simp only [reserved, List.mem_cons, List.not_mem_nil, or_false] at hw
  rcases hw with rfl | rfl | rfl | rfl | rfl | rfl <;> exact ⟨_, rfl, by decide +kernel⟩

/-- A token is written like an operator only if it is that operator. -/
theorem text_eq_operator {s : Text} {ts : List Token} (h : tokens s = .ok ts) {t : Token} (ht : t ∈ ts)
    (op : Operator) : t.text = op.text ↔ t = .operator op := by
  constructor
  · intro htext
    obtain ⟨c, hc, hbrace, hdouble, hsingle, hdigit, hname⟩ := op.starts
    have hstart := tokens_starts h ht (htext ▸ hc)
    cases t with
    | reference => exact absurd hstart hbrace
    | number => rw [Token.Starts, hdigit] at hstart; cases hstart
    | string => exact absurd hstart (not_or.2 ⟨hdouble, hsingle⟩)
    | operator o =>
      have hsame : some o = some op := by
        rw [← o.first?_text, ← op.first?_text]; exact congrArg _ htext
      rw [Option.some.inj hsame]
    | name => rw [Token.Starts, hname] at hstart; cases hstart
  · rintro rfl; rfl

/-- A token is written like a reserved word only if it is that word. -/
theorem text_eq_reserved {s : Text} {ts : List Token} (h : tokens s = .ok ts) {t : Token} (ht : t ∈ ts)
    {w : Text} (hw : w ∈ reserved) : t.text = w ↔ t = .name w := by
  constructor
  · intro htext
    obtain ⟨c, hc, hname⟩ := reserved_starts w hw
    have hstart := tokens_starts h ht (htext ▸ hc)
    cases t with
    | reference => cases hstart; exact absurd hname (by decide +kernel)
    | number =>
      rw [Text.isNameStart, hstart, Bool.not_true, Bool.and_false] at hname
      cases hname
    | string => rcases hstart with rfl | rfl <;> exact absurd hname (by decide +kernel)
    | operator op =>
      obtain ⟨d, hd, -, -, -, -, hother⟩ := op.starts
      cases Option.some.inj (hd.symm.trans hstart)
      rw [hother] at hname
      cases hname
    | name => exact congrArg _ htext
  · rintro rfl; rfl

end LangGen.Condition
