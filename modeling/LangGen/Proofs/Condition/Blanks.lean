/-
Blanks around a condition do not count: the tokens of a text are those of the trimmed text
(`tokens_trim`). Blanks in front are skipped before the first token. Blanks behind change no token,
since no reader of a token ends elsewhere when blanks come after it.
-/
import LangGen.Proofs.Condition.Token
import LangGen.Proofs.Text.Name

namespace LangGen.Condition

open Text

variable {t : Text}

/-! ## References and numbers -/

theorem referenceLength?_append_blanks (s : Text) (hs : s ≠ []) (ht : ∀ c ∈ t, isBlank c = true) :
    referenceLength? (s ++ t) = referenceLength? s := by
  obtain ⟨c, r, rfl⟩ := List.exists_cons_of_ne_nil hs
  rw [List.cons_append]
  by_cases hc : c = '{'
  · subst hc
    simp only [referenceLength?, bracedName?_append_blanks r ht, Option.map_map]
    refine congrArg (Option.map · (bracedName? r)) (funext fun p => ?_)
    simp only [Function.comp, List.length_append]
    omega
  · simp [referenceLength?, hc]

theorem isDecimalDigit_of_isBlank {c : Char} (h : isBlank c = true) : isDecimalDigit c = false := by
  have htable : ∀ n ∈ blankCodes, inTable digitTable n = false := by decide +kernel
  exact htable _ (mem_blankCodes h)

theorem isBlank_of_isDecimalDigit {c : Char} (h : isDecimalDigit c = true) : isBlank c = false := by
  by_contra hblank
  rw [isDecimalDigit_of_isBlank (by simpa using hblank)] at h
  cases h

theorem takeWhile_digits_append (s : Text) (ht : ∀ c, t.head? = some c → isBlank c = true) :
    (s ++ t).takeWhile isDecimalDigit = s.takeWhile isDecimalDigit := by
  induction s with
  | nil =>
    cases t with
    | nil => rfl
    | cons c r => simp [isDecimalDigit_of_isBlank (ht c rfl)]
  | cons c s ih => rw [List.cons_append, List.takeWhile_cons, List.takeWhile_cons, ih]

theorem numberLength_append_blanks (s : Text) (ht : ∀ c, t.head? = some c → isBlank c = true) :
    numberLength (s ++ t) = numberLength s := by
  have hle : (s.takeWhile isDecimalDigit).length ≤ s.length := (List.takeWhile_prefix _).length_le
  unfold numberLength
  dsimp only
  rw [takeWhile_digits_append s ht, List.drop_append_of_le_length hle]
  generalize (s.takeWhile isDecimalDigit).length = whole
  cases whole with
  | zero => rfl
  | succ n =>
    cases s.drop (n + 1) with
    | nil =>
      cases t with
      | nil => rfl
      | cons c r =>
        have hc : c ≠ '.' := by
          rintro rfl
          exact absurd (ht _ rfl) (by decide)
        simp [hc]
    | cons c r =>
      by_cases hc : c = '.'
      · subst hc
        simp only [List.cons_append, takeWhile_digits_append r ht]
      · simp [hc]

theorem numberLength_le (s : Text) : numberLength s ≤ s.length := by
  have hle : (s.takeWhile isDecimalDigit).length ≤ s.length := (List.takeWhile_prefix _).length_le
  unfold numberLength
  dsimp only
  generalize (s.takeWhile isDecimalDigit).length = whole at hle
  split
  · exact Nat.zero_le _
  · rename_i r _ hdrop
    have hlength := congrArg List.length hdrop
    have hfraction : (r.takeWhile isDecimalDigit).length ≤ r.length := (List.takeWhile_prefix _).length_le
    rw [List.length_drop, List.length_cons] at hlength
    split
    · exact hle
    · omega
  · exact hle

/-! ## Strings -/

theorem stringTail?_of_blank {quote : Char} (hq : isBlank quote = false) :
    ∀ {t : Text}, (∀ c ∈ t, isBlank c = true) → stringTail? quote t = none
  | [], _ => rfl
  | [c], ht => by
    have hc : c ≠ quote := by
      rintro rfl
      rw [ht c List.mem_cons_self] at hq
      cases hq
    rw [stringTail?, if_neg hc]
  | c :: d :: r, ht => by
    have hblank : isBlank c = true := ht c List.mem_cons_self
    have hc : c ≠ quote := by
      rintro rfl
      rw [hblank] at hq
      cases hq
    have hback : c ≠ '\\' := by
      rintro rfl
      exact absurd hblank (by decide)
    rw [stringTail?, if_neg hc, if_neg hback,
      stringTail?_of_blank hq fun e he => ht e (List.mem_cons_of_mem c he)]
    rfl

theorem stringTail?_append_blanks {quote : Char} (hq : isBlank quote = false)
    (ht : ∀ c ∈ t, isBlank c = true) : ∀ s : Text, stringTail? quote (s ++ t) = stringTail? quote s
  | [] => stringTail?_of_blank hq ht
  | [c] => by
    cases t with
    | nil => rfl
    | cons d r =>
      have hcons := stringTail?_of_blank hq ht
      have hrest := stringTail?_of_blank hq fun e he => ht e (List.mem_cons_of_mem d he)
      rw [List.singleton_append, stringTail?, stringTail?, hcons, hrest]
      split
      · rfl
      · simp
  | c :: d :: r => by
    have hcons := stringTail?_append_blanks hq ht (d :: r)
    have hrest := stringTail?_append_blanks hq ht r
    rw [List.cons_append] at hcons
    rw [List.cons_append, List.cons_append, stringTail?, stringTail?, hcons, hrest]

theorem stringTail?_le {quote : Char} : ∀ {s : Text} {n : Nat}, stringTail? quote s = some n → n ≤ s.length
  | [], _, h => by cases h
  | [c], n, h => by
    unfold stringTail? at h
    split at h
    · cases h; exact Nat.le_refl 1
    · cases h
  | c :: d :: r, n, h => by
    rw [stringTail?] at h
    split at h
    · cases h; simp
    split at h
    · split at h
      · cases h
      · obtain ⟨m, hm, rfl⟩ := Option.map_eq_some_iff.1 h
        have hle := stringTail?_le hm
        simp only [List.length_cons]
        omega
    · obtain ⟨m, hm, rfl⟩ := Option.map_eq_some_iff.1 h
      have hle := stringTail?_le hm
      simp only [List.length_cons] at hle ⊢
      omega

theorem isBlank_of_quote {c : Char} (h : c = '"' ∨ c = '\'') : isBlank c = false := by
  rcases h with rfl | rfl <;> decide

theorem stringLength?_append_blanks (s : Text) (hs : s ≠ []) (ht : ∀ c ∈ t, isBlank c = true) :
    stringLength? (s ++ t) = stringLength? s := by
  obtain ⟨c, r, rfl⟩ := List.exists_cons_of_ne_nil hs
  rw [List.cons_append, stringLength?, stringLength?]
  split
  · rename_i hc
    rw [stringTail?_append_blanks (isBlank_of_quote hc) ht]
  · rfl

/-! ## Operators -/

/-- The characters that an operator may start with. -/
def operatorStarts : List Char := ['=', '!', '<', '>', '&', '|', '+', '-', '*', '/', '%', '(', ')', ',']

theorem first?_of_not_mem {c : Char} (h : c ∉ operatorStarts) (r : Text) :
    Operator.first? (c :: r) = none := by
  simp only [operatorStarts, List.mem_cons, List.not_mem_nil, or_false, not_or] at h
  unfold Operator.first?
  split <;> simp_all

/-- An operator of two characters ends within the text or does not stand there. -/
theorem first?_append_of_pair {c : Char} (x : Char)
    (hone : ∀ d r, d ≠ x → Operator.first? (c :: d :: r) = Operator.first? [c])
    (htwo : ∀ r r', Operator.first? (c :: x :: r) = Operator.first? (c :: x :: r'))
    (ht : t.head? ≠ some x) (r : Text) : Operator.first? (c :: (r ++ t)) = Operator.first? (c :: r) := by
  cases r with
  | nil =>
    cases t with
    | nil => rfl
    | cons d r => exact hone d r fun h => ht (congrArg some h)
  | cons d r =>
    by_cases hd : d = x
    · subst hd; exact htwo _ _
    · rw [List.cons_append, hone _ _ hd, hone _ _ hd]

theorem first?_append_blanks (s : Text) (hs : s ≠ []) (ht : ∀ c, t.head? = some c → isBlank c = true) :
    Operator.first? (s ++ t) = Operator.first? s := by
  have hhead : ∀ x, isBlank x = false → t.head? ≠ some x := by
    intro x hx h
    rw [ht x h] at hx
    cases hx
  obtain ⟨c, r, rfl⟩ := List.exists_cons_of_ne_nil hs
  rw [List.cons_append]
  by_cases hc : c ∈ operatorStarts
  · simp only [operatorStarts, List.mem_cons, List.not_mem_nil, or_false] at hc
    rcases hc with rfl | rfl | rfl | rfl | rfl | rfl | hc
    iterate 4
      exact first?_append_of_pair '=' (fun d r h => by simp [Operator.first?, h]) (fun _ _ => rfl)
        (hhead '=' (by decide)) r
    · exact first?_append_of_pair '&' (fun d r h => by simp [Operator.first?, h]) (fun _ _ => rfl)
        (hhead '&' (by decide)) r
    · exact first?_append_of_pair '|' (fun d r h => by simp [Operator.first?, h]) (fun _ _ => rfl)
        (hhead '|' (by decide)) r
    · -- the other operators have one character
      rcases hc with rfl | rfl | rfl | rfl | rfl | rfl | rfl | rfl <;> rfl
  · rw [first?_of_not_mem hc, first?_of_not_mem hc]

/-! ## Tokens -/

theorem referenceLength?_le {s : Text} {n : Nat} (h : referenceLength? s = some n) : n ≤ s.length := by
  unfold referenceLength? at h
  split at h
  · obtain ⟨p, -, rfl⟩ := Option.map_eq_some_iff.1 h
    simp only [List.length_cons]
    omega
  · cases h

theorem stringLength?_le {s : Text} {n : Nat} (h : stringLength? s = some n) : n ≤ s.length := by
  unfold stringLength? at h
  split at h
  · split at h
    · obtain ⟨m, hm, rfl⟩ := Option.map_eq_some_iff.1 h
      have hle := stringTail?_le hm
      simpa using hle
    · cases h
  · cases h

/-- The token at the start of a text stays as it is when blanks come behind the text. -/
theorem Token.first?_append_blanks (s : Text) (hs : s ≠ []) (ht : ∀ c ∈ t, isBlank c = true) :
    Token.first? (s ++ t) = Token.first? s := by
  have hhead : ∀ c, t.head? = some c → isBlank c = true := fun c hc => ht c (List.mem_of_head? hc)
  have htake : ∀ {n}, n ≤ s.length → (s ++ t).take n = s.take n := List.take_append_of_le_length
  unfold Token.first?
  rw [referenceLength?_append_blanks s hs ht, numberLength_append_blanks s hhead,
    stringLength?_append_blanks s hs ht, Condition.first?_append_blanks s hs hhead,
    nameLength_append_of_endsName (endsName_of_blank hhead)]
  cases hreference : referenceLength? s with
  | some n => dsimp only; rw [htake (referenceLength?_le hreference)]
  | none =>
    cases hnumber : numberLength s with
    | succ n => dsimp only; rw [htake (hnumber ▸ numberLength_le s)]
    | zero =>
      cases hstring : stringLength? s with
      | some n => dsimp only; rw [htake (stringLength?_le hstring)]
      | none =>
        cases Operator.first? s with
        | some op => rfl
        | none =>
          cases hname : nameLength s with
          | succ n => dsimp only; rw [htake (hname ▸ nameLength_le s)]
          | zero => rfl

/-! ## Splitting -/

theorem tokensFrom_of_blank : ∀ {t : Text} (skip : Nat), (∀ c ∈ t, isBlank c = true) →
    tokensFrom skip t = .ok []
  | [], skip, _ => by cases skip <;> rfl
  | _ :: r, skip + 1, ht => by
    rw [tokensFrom]
    exact tokensFrom_of_blank skip fun c hc => ht c (List.mem_cons_of_mem _ hc)
  | c :: r, 0, ht => by
    rw [tokensFrom, if_pos (ht c List.mem_cons_self)]
    exact tokensFrom_of_blank 0 fun c hc => ht c (List.mem_cons_of_mem _ hc)

theorem tokensFrom_append_blanks (ht : ∀ c ∈ t, isBlank c = true) : ∀ (s : Text) (skip : Nat),
    tokensFrom skip (s ++ t) = tokensFrom skip s
  | [], skip => by
    rw [List.nil_append, tokensFrom_of_blank skip ht]
    cases skip <;> rfl
  | _ :: r, skip + 1 => tokensFrom_append_blanks ht r skip
  | c :: r, 0 => by
    have hfirst : Token.first? (c :: (r ++ t)) = Token.first? (c :: r) :=
      Token.first?_append_blanks (c :: r) (List.cons_ne_nil c r) ht
    rw [List.cons_append, tokensFrom, tokensFrom, hfirst, tokensFrom_append_blanks ht r 0]
    simp only [tokensFrom_append_blanks ht r]

theorem tokens_append_blanks (s : Text) (ht : ∀ c ∈ t, isBlank c = true) : tokens (s ++ t) = tokens s :=
  tokensFrom_append_blanks ht s 0

theorem tokens_blanks_append {a : Text} (ha : ∀ c ∈ a, isBlank c = true) (s : Text) :
    tokens (a ++ s) = tokens s := by
  induction a with
  | nil => rfl
  | cons c a ih =>
    rw [List.forall_mem_cons] at ha
    show tokensFrom 0 (c :: (a ++ s)) = tokensFrom 0 s
    rw [tokensFrom, if_pos ha.1]
    exact ih ha.2

/-- Blanks around a text do not change its tokens. -/
theorem tokens_trim (s : Text) : tokens (trim s) = tokens s := by
  obtain ⟨a, b, hs, ha, hb⟩ := trim_split s
  conv_rhs => rw [hs]
  rw [tokens_append_blanks _ hb, tokens_blanks_append ha]

end LangGen.Condition
