/-
Tokens by their patterns. Every kind of token has a pattern of its own (`Kind.Pattern`), and the
token at the start of a text is the longest text there that has one of the patterns
(`Token.first?_eq_some_iff`).
-/
import LangGen.Proofs.Condition.Blanks
import LangGen.Proofs.Text.Dotted

namespace LangGen.Condition

open Text

variable {c quote : Char} {p q r s : Text} {n : Nat}

/-! ## Patterns -/

/-- Decimal digits, at least one. -/
def Digits (s : Text) : Prop := s ≠ [] ∧ ∀ c ∈ s, isDecimalDigit c = true

/-- Digits, or digits on both sides of a point. -/
def Numeral (s : Text) : Prop :=
  Digits s ∨ ∃ whole fraction, s = whole ++ '.' :: fraction ∧ Digits whole ∧ Digits fraction

/-- What comes after an opening quote, up to the closing one. A backslash stands only before a
character that is no line feed, and takes it along. -/
inductive Quoted (quote : Char) : Text → Prop
  | close : Quoted quote [quote]
  | char {c : Char} {s : Text} : c ≠ quote → c ≠ '\\' → Quoted quote s → Quoted quote (c :: s)
  | escaped {c : Char} {s : Text} : c ≠ '\n' → Quoted quote s → Quoted quote ('\\' :: c :: s)

/-- A name in braces, with or without blanks around it. -/
def Braced (s : Text) : Prop := ∃ a name b, s = '{' :: (a ++ name ++ b ++ ['}']) ∧ Dotted name ∧
  (∀ c ∈ a, isBlank c = true) ∧ ∀ c ∈ b, isBlank c = true

/-- The kinds of tokens. -/
inductive Kind
  | reference | number | string | operator | name
  deriving DecidableEq, Repr

/-- The pattern of the tokens of a kind. -/
def Kind.Pattern : Kind → Text → Prop
  | reference, s => Braced s
  | number, s => Numeral s
  | string, s => ∃ quote r, s = quote :: r ∧ (quote = '"' ∨ quote = '\'') ∧ Quoted quote r
  | operator, s => ∃ op : Operator, s = op.text
  | name, s => Dotted s

/-- The kind of a token. -/
def Token.kind : Token → Kind
  | .reference _ => .reference
  | .number _ => .number
  | .string _ => .string
  | .operator _ => .operator
  | .name _ => .name

/-! ## References -/

theorem Braced.referenceLength? (h : Braced p) (r : Text) : referenceLength? (p ++ r) = some p.length := by
  obtain ⟨a, name, b, rfl, hname, ha, hb⟩ := h
  have hbraced : bracedName? (a ++ name ++ b ++ ['}'] ++ r) = some (name, r) := by
    rw [List.append_assoc _ ['}'] r]
    exact hname.bracedName? ha hb r
  rw [List.cons_append, Condition.referenceLength?, hbraced]
  simp only [Option.map_some, List.length_append, List.length_cons]
  congr 1
  omega

theorem braced_take (h : referenceLength? s = some n) : Braced (s.take n) := by
  unfold referenceLength? at h
  split at h
  · rename_i r
    obtain ⟨⟨name, rest⟩, hbraced, rfl⟩ := Option.map_eq_some_iff.1 h
    obtain ⟨a, b, hr, ha, hb⟩ := bracedName?_split hbraced
    refine ⟨a, name, b, ?_, dotted_of_bracedName? hbraced, ha, hb⟩
    have hsplit : '{' :: r = '{' :: (a ++ name ++ b ++ ['}']) ++ rest := by
      rw [hr, List.cons_append, List.append_assoc _ ['}'] rest]
      rfl
    have hcount : r.length + 1 - rest.length = ('{' :: (a ++ name ++ b ++ ['}'])).length := by
      have hlen := congrArg List.length hsplit
      rw [List.length_append, List.length_cons] at hlen
      omega
    rw [hcount, hsplit, List.take_left]
  · cases h

/-! ## Numbers -/

theorem isDecimalDigit_point : isDecimalDigit '.' = false := by decide +kernel

theorem Digits.takeWhile (hp : Digits p) (hr : ∀ c, r.head? = some c → isDecimalDigit c = false) :
    (p ++ r).takeWhile isDecimalDigit = p := by
  rw [List.takeWhile_append_of_pos hp.2]
  cases r with
  | nil => simp
  | cons c r => simp [hr c rfl]

/-- Digits with neither a digit nor a point behind them are a number without a fraction. -/
theorem Digits.numberLength_whole (hp : Digits p)
    (hr : ∀ c, r.head? = some c → isDecimalDigit c = false ∧ c ≠ '.') : numberLength (p ++ r) = p.length := by
  unfold numberLength
  dsimp only
  rw [hp.takeWhile fun c hc => (hr c hc).1, List.drop_left]
  split
  · rename_i h; exact h.symm
  · exact absurd rfl (hr _ rfl).2
  · rfl

/-- Digits and a point are a number with the digits behind the point, if there are any. -/
theorem Digits.numberLength_point (hp : Digits p) (r : Text) : numberLength (p ++ '.' :: r) =
    if r.takeWhile isDecimalDigit = [] then p.length
    else p.length + 1 + (r.takeWhile isDecimalDigit).length := by
  have hpoint : ∀ c, ('.' :: r).head? = some c → isDecimalDigit c = false := by
    intro c hc; cases hc; exact isDecimalDigit_point
  obtain ⟨n, hn⟩ : ∃ n, p.length = n + 1 := Nat.exists_eq_succ_of_ne_zero (by simpa using hp.1)
  unfold numberLength
  dsimp only
  rw [hp.takeWhile hpoint, List.drop_left, hn]
  cases hfraction : r.takeWhile isDecimalDigit with
  | nil => simp [hfraction]
  | cons c fraction => simp [hfraction]

/-- The digits at the start of a text, and what follows them. -/
theorem exists_digits (h : s.takeWhile isDecimalDigit ≠ []) :
    ∃ whole r, s = whole ++ r ∧ Digits whole ∧ ∀ c, r.head? = some c → isDecimalDigit c = false := by
  refine ⟨s.takeWhile isDecimalDigit, s.dropWhile isDecimalDigit, List.takeWhile_append_dropWhile.symm,
    ⟨h, fun c hc => List.mem_takeWhile_imp hc⟩, fun c hc => ?_⟩
  have hend := List.head?_dropWhile_not isDecimalDigit s
  rw [hc] at hend
  exact hend

theorem numeral_take (h : numberLength s = n + 1) : Numeral (s.take (n + 1)) := by
  have hne : s.takeWhile isDecimalDigit ≠ [] := by
    intro hnil
    unfold numberLength at h
    rw [hnil] at h
    cases h
  obtain ⟨whole, r, rfl, hwhole, hend⟩ := exists_digits hne
  by_cases hpoint : r.head? = some '.'
  · obtain ⟨r, rfl⟩ := List.head?_eq_some_iff.1 hpoint
    rw [hwhole.numberLength_point] at h
    split at h
    · rw [← h, List.take_left]
      exact .inl hwhole
    · rename_i hr
      obtain ⟨fraction, rest, rfl, hfraction, hrest⟩ := exists_digits hr
      refine .inr ⟨whole, fraction, ?_, hwhole, hfraction⟩
      rw [hfraction.takeWhile hrest, Nat.add_assoc, Nat.add_comm 1] at h
      rw [← h, List.take_length_add_append, List.take_succ_cons, List.take_left]
  · have hstop : ∀ c, r.head? = some c → isDecimalDigit c = false ∧ c ≠ '.' :=
      fun c hc => ⟨hend c hc, fun hc' => hpoint (hc' ▸ hc)⟩
    rw [hwhole.numberLength_whole hstop] at h
    rw [← h, List.take_left]
    exact .inl hwhole

theorem takeWhile_le_numberLength (s : Text) : (s.takeWhile isDecimalDigit).length ≤ numberLength s := by
  unfold numberLength
  dsimp only
  split
  · rename_i h; exact Nat.le_of_eq h
  · split <;> omega
  · exact Nat.le_refl _

theorem Digits.length_le_takeWhile (hp : Digits p) (r : Text) :
    p.length ≤ ((p ++ r).takeWhile isDecimalDigit).length := by
  rw [List.takeWhile_append_of_pos hp.2, List.length_append]
  exact Nat.le_add_right _ _

theorem Numeral.length_le (h : Numeral p) (r : Text) : p.length ≤ numberLength (p ++ r) := by
  rcases h with hp | ⟨whole, fraction, rfl, hwhole, hfraction⟩
  · exact (hp.length_le_takeWhile r).trans (takeWhile_le_numberLength _)
  · have hle := hfraction.length_le_takeWhile r
    have hpos : 0 < fraction.length := List.length_pos_iff.2 hfraction.1
    have hne : (fraction ++ r).takeWhile isDecimalDigit ≠ [] := List.length_pos_iff.1 (by omega)
    rw [List.append_assoc, List.cons_append, hwhole.numberLength_point, if_neg hne, List.length_append,
      List.length_cons]
    omega

theorem Digits.concat (h : Digits s) (hc : isDecimalDigit c = true) : Digits (s ++ [c]) :=
  ⟨by simp, List.forall_mem_append.2 ⟨h.2, by simpa using hc⟩⟩

/-- A number goes on with any digit. -/
theorem Numeral.concat (h : Numeral s) (hc : isDecimalDigit c = true) : Numeral (s ++ [c]) := by
  rcases h with hs | ⟨whole, fraction, rfl, hwhole, hfraction⟩
  · exact .inl (hs.concat hc)
  · exact .inr ⟨whole, fraction ++ [c], by simp, hwhole, hfraction.concat hc⟩

theorem Numeral.mem (h : Numeral s) : ∀ c ∈ s, isDecimalDigit c = true ∨ c = '.' := by
  rcases h with hs | ⟨whole, fraction, rfl, hwhole, hfraction⟩
  · exact fun c hc => .inl (hs.2 c hc)
  · intro c hc
    rcases List.mem_append.1 hc with hc | hc
    · exact .inl (hwhole.2 c hc)
    rcases List.mem_cons.1 hc with hc | hc
    · exact .inr hc
    · exact .inl (hfraction.2 c hc)

/-! ## Strings -/

theorem ne_backslash_of_quote (h : quote = '"' ∨ quote = '\'') : quote ≠ '\\' := by
  rcases h with rfl | rfl <;> decide

theorem Quoted.stringTail? (h : Quoted quote p) (hq : quote ≠ '\\') (r : Text) :
    stringTail? quote (p ++ r) = some p.length := by
  induction h with
  | close => cases r <;> simp [Condition.stringTail?]
  | char hc hback hp ih =>
    rename_i c p
    obtain ⟨d, p', rfl⟩ : ∃ d p', p = d :: p' := by cases hp <;> exact ⟨_, _, rfl⟩
    rw [List.cons_append, List.cons_append, Condition.stringTail?, if_neg hc, if_neg hback,
      ← List.cons_append, ih]
    rfl
  | escaped hc hp ih =>
    rw [List.cons_append, List.cons_append, Condition.stringTail?, if_neg hq.symm, if_pos rfl, if_neg hc, ih]
    rfl

theorem quoted_take : ∀ {s : Text} {n : Nat}, stringTail? quote s = some n → Quoted quote (s.take n)
  | [], _, h => by cases h
  | [c], n, h => by
    unfold stringTail? at h
    split at h
    · rename_i hc
      cases h; cases hc
      exact .close
    · cases h
  | c :: d :: r, n, h => by
    rw [stringTail?] at h
    split at h
    · rename_i hc
      cases h; cases hc
      exact .close
    rename_i hc
    split at h
    · rename_i hback
      split at h
      · cases h
      · rename_i hd
        obtain ⟨m, hm, rfl⟩ := Option.map_eq_some_iff.1 h
        rw [List.take_succ_cons, List.take_succ_cons, hback]
        exact .escaped hd (quoted_take hm)
    · rename_i hback
      obtain ⟨m, hm, rfl⟩ := Option.map_eq_some_iff.1 h
      rw [List.take_succ_cons]
      exact .char hc hback (quoted_take hm)

theorem string_take (h : stringLength? s = some n) : Kind.string.Pattern (s.take n) := by
  unfold stringLength? at h
  split at h
  · split at h
    · rename_i c r hc
      obtain ⟨m, hm, rfl⟩ := Option.map_eq_some_iff.1 h
      exact ⟨c, r.take m, rfl, hc, quoted_take hm⟩
    · cases h
  · cases h

/-! ## Operators -/

theorem Operator.text_prefix {op : Operator} (h : Operator.first? s = some op) : op.text <+: s := by
  unfold Operator.first? at h
  split at h <;> cases h <;> exact ⟨_, rfl⟩

/-- Where an operator stands, one that is no shorter is found. -/
theorem Operator.exists_first? (op : Operator) (r : Text) :
    ∃ found, Operator.first? (op.text ++ r) = some found ∧ op.text.length ≤ found.text.length := by
  cases op with
  | less | greater | neg =>
    -- with an equals sign behind it, it is another operator
    cases r with
    | nil => exact ⟨_, rfl, Nat.le_refl _⟩
    | cons d r =>
      by_cases hd : d = '='
      · subst hd; exact ⟨_, rfl, by decide⟩
      · simp [text, Operator.first?, hd]
  | _ => exact ⟨_, rfl, Nat.le_refl _⟩

/-! ## Kinds -/

/-- The kind of the tokens that start with a character. -/
def Kind.ofStart (c : Char) : Kind :=
  if c = '{' then reference
  else if isDecimalDigit c then number
  else if c = '"' ∨ c = '\'' then string
  else if isNameStart c then name
  else operator

/-- How many characters at the start of a text the reader of a kind takes. -/
def Kind.readLength (s : Text) : Kind → Nat
  | reference => (referenceLength? s).getD 0
  | number => numberLength s
  | string => (stringLength? s).getD 0
  | operator => (Operator.first? s).elim 0 fun op => op.text.length
  | name => nameLength s

variable {k : Kind} {t u : Token}

/-- A token is not empty, and its first character tells its kind. -/
theorem Kind.Pattern.starts (h : k.Pattern p) :
    ∃ c r, p = c :: r ∧ Kind.ofStart c = k ∧ isBlank c = false ∧ c ≠ '.' := by
  cases k with
  | reference =>
    obtain ⟨a, name, b, rfl, -⟩ := h
    exact ⟨'{', _, rfl, rfl, by decide, by decide⟩
  | number =>
    obtain ⟨c, r, rfl, hc⟩ : ∃ c r, p = c :: r ∧ isDecimalDigit c = true := by
      have hhead : ∀ {s : Text}, Digits s → ∃ c r, s = c :: r ∧ isDecimalDigit c = true := by
        intro s hs
        obtain ⟨c, r, rfl⟩ := List.exists_cons_of_ne_nil hs.1
        exact ⟨c, r, rfl, hs.2 c List.mem_cons_self⟩
      rcases h with hp | ⟨whole, fraction, rfl, hwhole, -⟩
      · exact hhead hp
      · obtain ⟨c, r, rfl, hc⟩ := hhead hwhole
        exact ⟨c, _, rfl, hc⟩
    refine ⟨c, r, rfl, ?_, ?_, ?_⟩
    · have hbrace : c ≠ '{' := by rintro rfl; exact absurd hc (by decide +kernel)
      rw [Kind.ofStart, if_neg hbrace, if_pos hc]
    · exact isBlank_of_isDecimalDigit hc
    · rintro rfl; exact absurd hc (by decide +kernel)
  | string =>
    obtain ⟨quote, r, rfl, hquote, -⟩ := h
    refine ⟨quote, r, rfl, ?_, isBlank_of_quote hquote, ?_⟩
    · rcases hquote with rfl | rfl <;> decide +kernel
    · rcases hquote with rfl | rfl <;> decide
  | operator =>
    obtain ⟨op, rfl⟩ := h
    cases op <;> exact ⟨_, _, rfl, by decide +kernel⟩
  | name =>
    obtain ⟨c, r, rfl, hc⟩ := Dotted.head? h
    refine ⟨c, r, rfl, ?_, isBlank_of_isWordChar (isWordChar_of_isNameStart hc), ?_⟩
    · have hbrace : c ≠ '{' := by rintro rfl; exact absurd hc (by decide +kernel)
      have hquote : ¬ (c = '"' ∨ c = '\'') := by rintro (rfl | rfl) <;> exact absurd hc (by decide +kernel)
      have hdigit : ¬ isDecimalDigit c = true := by
        intro hdigit
        rw [isNameStart, hdigit, Bool.not_true, Bool.and_false] at hc
        cases hc
      rw [Kind.ofStart, if_neg hbrace, if_neg hdigit, if_neg hquote, if_pos hc]
    · rintro rfl; exact absurd hc (by decide +kernel)

/-- Only one kind of token can stand at the start of a text. -/
theorem Kind.Pattern.kind_eq {k' : Kind} (hp : k.Pattern p) (hq : k'.Pattern q) (hps : p <+: s) (hqs : q <+: s) :
    k = k' := by
  obtain ⟨c, r, rfl, hc, -⟩ := hp.starts
  obtain ⟨d, r', rfl, hd, -⟩ := hq.starts
  obtain ⟨w, rfl⟩ := hps
  rw [← hc, ← hd, (List.cons_prefix_cons.1 hqs).1]

/-- The reader of a kind takes at least what has its pattern. -/
theorem Kind.Pattern.length_le (h : k.Pattern p) (r : Text) : p.length ≤ k.readLength (p ++ r) := by
  cases k with
  | reference => rw [Kind.readLength, Braced.referenceLength? h r]; exact Nat.le_refl _
  | number => exact Numeral.length_le h r
  | string =>
    obtain ⟨quote, q, rfl, hquote, hq⟩ := h
    rw [Kind.readLength, List.cons_append, stringLength?, if_pos hquote,
      hq.stringTail? (ne_backslash_of_quote hquote)]
    exact Nat.le_refl _
  | operator =>
    obtain ⟨op, rfl⟩ := h
    obtain ⟨found, hfound, hle⟩ := op.exists_first? r
    rw [Kind.readLength, hfound]
    exact hle
  | name => exact Dotted.length_le h r

/-! ## The token at the start -/

/-- Two tokens of one kind with one text are the same. -/
theorem Token.eq_of_kind_of_text (hkind : t.kind = u.kind) (htext : t.text = u.text) : t = u := by
  cases t <;> cases u <;> cases hkind
  case operator.operator o op =>
    have hsame : some o = some op := by rw [← o.first?_text, ← op.first?_text]; exact congrArg _ htext
    rw [Option.some.inj hsame]
  all_goals exact congrArg _ htext

/-- What is found is what the reader of its kind takes, and has the pattern of its kind. -/
theorem Token.found (h : Token.first? s = some t) :
    t.kind.Pattern t.text ∧ t.text = s.take (t.kind.readLength s) := by
  unfold Token.first? at h
  split at h
  · rename_i n hn
    cases h
    refine ⟨braced_take hn, ?_⟩
    rw [Token.kind, Kind.readLength, hn]
    rfl
  split at h
  · rename_i n hn
    cases h
    refine ⟨numeral_take hn, ?_⟩
    rw [Token.kind, Kind.readLength, hn]
    rfl
  split at h
  · rename_i n hn
    cases h
    refine ⟨string_take hn, ?_⟩
    rw [Token.kind, Kind.readLength, hn]
    rfl
  split at h
  · rename_i op hop
    cases h
    refine ⟨⟨op, rfl⟩, ?_⟩
    rw [Token.kind, Kind.readLength, hop]
    exact List.prefix_iff_eq_take.1 (Operator.text_prefix hop)
  split at h
  · rename_i n hn
    cases h
    refine ⟨dotted_take_nameLength hn, ?_⟩
    rw [Token.kind, Kind.readLength, hn]
    rfl
  · cases h

theorem Kind.readLength_of_none (h : Token.first? s = none) (k : Kind) : k.readLength s = 0 := by
  unfold Token.first? at h
  split at h
  · cases h
  rename_i hreference
  split at h
  · cases h
  rename_i hnumber
  split at h
  · cases h
  rename_i hstring
  split at h
  · cases h
  rename_i hoperator
  split at h
  · cases h
  rename_i hname
  cases k <;> simp [Kind.readLength, hreference, hnumber, hstring, hoperator, hname]

/-- Whether a token stands at the start of a text, and no longer one does. -/
structure Token.Longest (t : Token) (s : Text) : Prop where
  pattern : t.kind.Pattern t.text
  starts : t.text <+: s
  longest : ∀ (k : Kind) (p : Text), k.Pattern p → p <+: s → p.length ≤ t.text.length

/-- Where a text has a pattern, a token is found, and it is no shorter than the text. -/
theorem Token.exists_first? (h : k.Pattern p) (hp : p <+: s) :
    ∃ t, Token.first? s = some t ∧ p.length ≤ t.text.length := by
  have hle : p.length ≤ k.readLength s := by
    obtain ⟨r, rfl⟩ := hp
    exact h.length_le r
  cases ht : Token.first? s with
  | none =>
    obtain ⟨c, q, rfl, -⟩ := h.starts
    rw [Kind.readLength_of_none ht] at hle
    cases hle
  | some t =>
    -- what is found is of the same kind, so it is what the reader of this kind takes
    obtain ⟨hpattern, htext⟩ := Token.found ht
    have hkind : k = t.kind := h.kind_eq hpattern hp (htext ▸ List.take_prefix _ _)
    refine ⟨t, rfl, ?_⟩
    rw [htext, List.length_take, ← hkind]
    exact Nat.le_min.2 ⟨hle, hp.length_le⟩

theorem Token.longest_of_first? (h : Token.first? s = some t) : t.Longest s := by
  obtain ⟨hpattern, htext⟩ := Token.found h
  refine ⟨hpattern, by rw [htext]; exact List.take_prefix _ _, fun k p hp hprefix => ?_⟩
  obtain ⟨u, hu, hle⟩ := Token.exists_first? hp hprefix
  cases h.symm.trans hu
  exact hle

/-- The token that is found is the longest one at the start of the text. -/
theorem Token.first?_eq_some_iff : Token.first? s = some t ↔ t.Longest s := by
  refine ⟨Token.longest_of_first?, fun h => ?_⟩
  obtain ⟨u, hu, hle⟩ := Token.exists_first? h.pattern h.starts
  have hlongest := Token.longest_of_first? hu
  have htext : t.text = u.text := by
    have hprefix := List.prefix_of_prefix_length_le h.starts hlongest.starts hle
    exact hprefix.eq_of_length_le (h.longest _ _ hlongest.pattern hlongest.starts)
  have hkind : t.kind = u.kind := h.pattern.kind_eq hlongest.pattern h.starts hlongest.starts
  rw [hu, Token.eq_of_kind_of_text hkind htext]

/-- No token is found only where none stands. -/
theorem Token.first?_eq_none_iff :
    Token.first? s = none ↔ ∀ (k : Kind) (p : Text), k.Pattern p → ¬ p <+: s := by
  constructor
  · intro h k p hp hprefix
    obtain ⟨t, ht, -⟩ := Token.exists_first? hp hprefix
    rw [h] at ht
    cases ht
  · intro h
    cases ht : Token.first? s with
    | none => rfl
    | some t =>
      have hlongest := Token.longest_of_first? ht
      exact absurd hlongest.starts (h _ _ hlongest.pattern)

end LangGen.Condition
