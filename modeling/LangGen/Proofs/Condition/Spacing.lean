/-
The blanks between the tokens of a condition. Splitting a text into its tokens loses nothing but
blanks, and where it stops, no token starts (`tokens_eq_ok_iff`, `tokens_eq_error_iff`). Where a
token ends is settled by the character behind it (`Token.Longest.of_head?`), so the tokens stay what
they are when blanks come between them (`Reads.respaced`). What a check of a condition says depends
on the tokens only, without braces around the condition and with them (`check_congr`,
`check_braces_congr`).
-/
import LangGen.Proofs.Condition.Braces
import LangGen.Proofs.Condition.Spelling

namespace LangGen.Condition

open Text

variable {c : Char} {k : Kind} {p r s s' u v : Text} {t : Token} {ts : List Token}

/-! ## What a text reads -/

/-- The tokens `ts` in order, each the longest at its place, with blanks before and between them;
`r` is what is left behind the blanks after the last of them. -/
inductive Reads : List Token → Text → Text → Prop
  | stop {gap s r : Text} : (∀ c ∈ gap, isBlank c = true) → s = gap ++ r → Reads [] s r
  | next {gap s s' r : Text} {t : Token} {ts : List Token} : (∀ c ∈ gap, isBlank c = true) →
      s = gap ++ (t.text ++ s') → t.Longest (t.text ++ s') → Reads ts s' r → Reads (t :: ts) s r

theorem tokensFrom_eq_drop : ∀ (skip : Nat) (s : Text), tokensFrom skip s = tokens (s.drop skip)
  | 0, s => by rw [List.drop_zero]; rfl
  | _ + 1, [] => rfl
  | skip + 1, _ :: r => tokensFrom_eq_drop skip r

theorem tokens_of_longest (h : t.Longest (t.text ++ s)) : tokens (t.text ++ s) = (tokens s).map (t :: ·) := by
  obtain ⟨c, r, htext, -, hblank, -⟩ := h.pattern.starts
  have hfirst := Token.first?_eq_some_iff.2 h
  have hrest : tokensFrom (t.text.length - 1) (r ++ s) = tokens s := by
    rw [htext, List.length_cons, Nat.add_sub_cancel, tokensFrom_eq_drop, List.drop_left]
  rw [htext, List.cons_append] at hfirst
  rw [htext, List.cons_append, tokens, tokensFrom, hblank, hfirst]
  dsimp only
  rw [hrest]
  rfl

/-- The tokens of a text are those that it reads, and then those of what is left. -/
theorem Reads.tokens (h : Reads ts s r) : tokens s = (tokens r).map (ts ++ ·) := by
  induction h with
  | stop hgap hs =>
    rename_i r
    rw [hs, tokens_blanks_append hgap]
    cases Condition.tokens r <;> rfl
  | next hgap hs hlongest _ ih =>
    rename_i r _ _ _
    rw [hs, tokens_blanks_append hgap, tokens_of_longest hlongest, ih]
    cases Condition.tokens r <;> rfl

theorem tokens_of_first?_eq_none (hc : isBlank c = false) (h : Token.first? (c :: r) = none) :
    tokens (c :: r) = .error c := by
  rw [tokens, tokensFrom, hc, h]
  rfl

/-- A text reads tokens up to its end, or up to a character where no token starts. -/
theorem exists_reads (s : Text) : ∃ ts r, Reads ts s r ∧
    (r = [] ∨ ∃ c q, r = c :: q ∧ isBlank c = false ∧ Token.first? r = none) := by
  obtain ⟨gap, hsplit, hgap⟩ := exists_blanks_trimStart s
  cases hs : trimStart s with
  | nil => exact ⟨[], [], .stop hgap (hs ▸ hsplit), .inl rfl⟩
  | cons c q =>
    rw [hs] at hsplit
    cases ht : Token.first? (c :: q) with
    | none =>
      have hblank : isBlank c = false := isBlank_of_head?_trimStart (s := s) (by rw [hs]; rfl)
      exact ⟨[], c :: q, .stop hgap hsplit, .inr ⟨c, q, rfl, hblank, ht⟩⟩
    | some t =>
      have hlongest := Token.longest_of_first? ht
      obtain ⟨rest, hrest⟩ := hlongest.starts
      obtain ⟨d, r', htext, -⟩ := hlongest.pattern.starts
      -- the token is not empty, so what is left is shorter
      have hlt : rest.length < s.length := by
        rw [hsplit, ← hrest, htext]
        simp only [List.length_append, List.length_cons]
        omega
      obtain ⟨ts, r, hreads, hr⟩ := exists_reads rest
      rw [← hrest] at hlongest hsplit
      exact ⟨t :: ts, r, .next hgap hsplit hlongest hreads, hr⟩
termination_by s.length

/-- A text has the tokens that it reads to its end. -/
theorem tokens_eq_ok_iff : tokens s = .ok ts ↔ Reads ts s [] := by
  constructor
  · intro h
    obtain ⟨us, r, hreads, rfl | ⟨c, q, rfl, hblank, hnone⟩⟩ := exists_reads s
    · have hus := hreads.tokens.symm.trans h
      rw [show us = ts by simpa [tokens, tokensFrom, Except.map] using hus] at hreads
      exact hreads
    · rw [hreads.tokens, tokens_of_first?_eq_none hblank hnone] at h
      cases h
  · intro h
    rw [h.tokens]
    exact congrArg Except.ok (List.append_nil ts)

/-- A text has no tokens exactly if it reads some and then a character comes where no token starts. -/
theorem tokens_eq_error_iff : tokens s = .error c ↔ ∃ ts r, Reads ts s (c :: r) ∧ isBlank c = false ∧
    ∀ (k : Kind) (p : Text), k.Pattern p → ¬ p <+: c :: r := by
  constructor
  · intro h
    obtain ⟨ts, r, hreads, rfl | ⟨d, q, rfl, hblank, hnone⟩⟩ := exists_reads s
    · rw [hreads.tokens] at h
      cases h
    · rw [hreads.tokens, tokens_of_first?_eq_none hblank hnone] at h
      cases h
      exact ⟨ts, q, hreads, hblank, Token.first?_eq_none_iff.1 hnone⟩
  · rintro ⟨ts, r, hreads, hblank, hnone⟩
    rw [hreads.tokens, tokens_of_first?_eq_none hblank (Token.first?_eq_none_iff.2 hnone)]
    rfl

theorem Reads.pattern (h : Reads ts s r) : ∀ t ∈ ts, t.kind.Pattern t.text := by
  induction h with
  | stop => intro t ht; cases ht
  | next _ _ hlongest _ ih => exact List.forall_mem_cons.2 ⟨hlongest.pattern, ih⟩

/-! ## How a token goes on -/

theorem Operator.isBlank_of_mem (op : Operator) : ∀ c ∈ op.text, isBlank c = false := by
  have hall : op.text.all (fun c => !isBlank c) = true := by cases op <;> rfl
  simpa using hall

/-- What a token can go on with is no blank, and if it is no point, one character of it is enough
for a longer token of the same kind. -/
theorem Kind.Pattern.concat (h : k.Pattern p) (hlong : k.Pattern (p ++ c :: r)) :
    isBlank c = false ∧ (c ≠ '.' → k.Pattern (p ++ [c])) := by
  have hmem : c ∈ p ++ c :: r := by simp
  cases k with
  | reference =>
    -- what follows the closing brace does not count
    have hlength := (Braced.referenceLength? h (c :: r)).symm.trans (by simpa using Braced.referenceLength? hlong [])
    simp at hlength
  | number =>
    rcases Numeral.mem hlong c hmem with hc | rfl
    · exact ⟨isBlank_of_isDecimalDigit hc, fun _ => Numeral.concat h hc⟩
    · exact ⟨by decide, fun hpoint => absurd rfl hpoint⟩
  | string =>
    -- nor does what follows the closing quote
    obtain ⟨quote, q, rfl, hquote, hq⟩ := h
    obtain ⟨quote', q', hcons, -, hq'⟩ := hlong
    injection hcons with hquote' htail
    subst hquote' htail
    have hback := ne_backslash_of_quote hquote
    have hlength := (hq.stringTail? hback (c :: r)).symm.trans (by simpa using hq'.stringTail? hback [])
    simp at hlength
  | operator =>
    obtain ⟨op, rfl⟩ := h
    obtain ⟨long, htext⟩ := hlong
    have hone : 1 ≤ op.text.length := by cases op <;> decide
    have htwo : long.text.length ≤ 2 := by cases long <;> decide
    have hr : r = [] := by
      rw [← htext, List.length_append, List.length_cons] at htwo
      exact List.length_eq_zero_iff.1 (by omega)
    subst hr
    rw [htext] at hmem
    exact ⟨long.isBlank_of_mem c hmem, fun _ => ⟨long, htext⟩⟩
  | name =>
    rcases Dotted.mem hlong c hmem with hc | rfl
    · exact ⟨isBlank_of_isWordChar hc, fun _ => Dotted.concat h hc⟩
    · exact ⟨by decide, fun hpoint => absurd rfl hpoint⟩

/-- Whether a token ends is settled by the next character: it ends before a blank, and if it ends
before a character other than a point, it does so whatever comes behind that. -/
theorem Token.Longest.of_head? (h : t.Longest (t.text ++ u))
    (hv : ∀ c, v.head? = some c → isBlank c = true ∨ c ≠ '.' ∧ u.head? = some c) : t.Longest (t.text ++ v) := by
  refine ⟨h.pattern, List.prefix_append _ _, fun k p hp hprefix => ?_⟩
  by_contra hlt
  rw [Nat.not_le] at hlt
  obtain ⟨w, rfl⟩ := List.prefix_of_prefix_length_le (List.prefix_append _ _) hprefix (Nat.le_of_lt hlt)
  cases w with
  | nil => rw [List.append_nil] at hlt; exact absurd hlt (Nat.lt_irrefl _)
  | cons c w =>
    have hkind : t.kind = k := h.pattern.kind_eq hp (List.prefix_append _ _) hprefix
    subst hkind
    obtain ⟨hblank, hconcat⟩ := h.pattern.concat hp
    obtain ⟨v', rfl⟩ := (List.prefix_append_right_inj _).1 hprefix
    rcases hv c rfl with hc | ⟨hpoint, hu⟩
    · rw [hblank] at hc
      cases hc
    · -- the token would not have ended before the same character
      obtain ⟨u', rfl⟩ := List.head?_eq_some_iff.1 hu
      have hle := h.longest _ _ (hconcat hpoint) ⟨u', by simp⟩
      rw [List.length_append] at hle
      exact absurd hle (Nat.not_succ_le_self _)

/-! ## Other blanks between the same tokens -/

/-- Two texts with the same tokens in order, and with blanks before, between and behind them. The
second has blanks between two tokens where the first has; before the first token it need not, unless
`inner` holds. -/
inductive Respaced : Bool → List Token → Text → Text → Prop
  | stop {inner : Bool} {a b : Text} : (∀ c ∈ a, isBlank c = true) → (∀ c ∈ b, isBlank c = true) →
      Respaced inner [] a b
  | next {inner : Bool} {t : Token} {ts : List Token} {a b s s' u v : Text} : (∀ c ∈ a, isBlank c = true) →
      (∀ c ∈ b, isBlank c = true) → (inner = true → b = [] → a = []) → s = a ++ (t.text ++ u) →
      s' = b ++ (t.text ++ v) → Respaced true ts u v → Respaced inner (t :: ts) s s'

/-- Between tokens, the second text goes on with a blank or as the first one does. -/
theorem Respaced.head? (h : Respaced true ts u v) (hts : ∀ t ∈ ts, t.kind.Pattern t.text) :
    ∀ c, v.head? = some c → isBlank c = true ∨ c ≠ '.' ∧ u.head? = some c := by
  intro c hc
  cases h with
  | stop _ hb => exact .inl (hb c (List.mem_of_head? hc))
  | @next _ t _ a b _ _ u' v' _ hb hgap hu hv _ =>
    cases b with
    | nil =>
      obtain ⟨d, r, htext, -, -, hpoint⟩ := (hts t List.mem_cons_self).starts
      rw [hv, htext] at hc
      cases hc
      rw [hu, hgap rfl rfl, htext]
      exact .inr ⟨hpoint, rfl⟩
    | cons d b =>
      rw [hv] at hc
      cases hc
      exact .inl (hb c List.mem_cons_self)

/-- Blanks before a token do not change where it starts. -/
theorem gap_cancel {a b : Text} (ha : ∀ c ∈ a, isBlank c = true) (hb : ∀ c ∈ b, isBlank c = true)
    (ht : k.Pattern p) (h : a ++ (p ++ u) = b ++ (p ++ v)) : u = v := by
  obtain ⟨c, r, rfl, -, hblank, -⟩ := ht.starts
  have hstart : ∀ w, trimStart (c :: r ++ w) = c :: r ++ w :=
    fun w => trimStart_of_forall fun d hd => by cases hd; exact hblank
  have htrim := congrArg trimStart h
  rw [trimStart_blanks_append ha, trimStart_blanks_append hb, hstart, hstart] at htrim
  exact List.append_cancel_left htrim

/-- The tokens stay what they are when blanks come between them. -/
theorem Reads.respaced (h : Reads ts s []) {inner : Bool} (hs : Respaced inner ts s s') : Reads ts s' [] := by
  induction ts generalizing inner s s' with
  | nil =>
    cases hs with
    | stop _ hb => exact .stop hb (List.append_nil _).symm
  | cons t ts ih =>
    cases h with
    | next hgap hsplit hlongest hrest =>
      cases hs with
      | next ha hb _ hs hs' hrespaced =>
        cases gap_cancel hgap ha hlongest.pattern (hsplit.symm.trans hs)
        exact .next hb hs' (hlongest.of_head? (hrespaced.head? hrest.pattern)) (ih hrest hrespaced)

theorem forall_space : ∀ c ∈ [' '], isBlank c = true := List.forall_mem_singleton.2 (by decide)

theorem Reads.respaced_spaces (h : Reads ts s []) : Respaced true ts s (ts.flatMap fun t => ' ' :: t.text) := by
  induction ts generalizing s with
  | nil =>
    cases h with
    | stop hgap hs =>
      refine .stop ?_ (by simp)
      rwa [hs, List.append_nil]
  | cons t ts ih =>
    cases h with
    | next hgap hs _ hrest =>
      exact .next hgap forall_space (by simp) hs (by simp) (ih hrest)

theorem join_space (t : Token) (ts : List Token) :
    join [' '] ((t :: ts).map Token.text) = t.text ++ ts.flatMap fun t => ' ' :: t.text := by
  induction ts generalizing t with
  | nil => simp [join]
  | cons u ts ih =>
    have hjoin : join [' '] ((t :: u :: ts).map Token.text) =
        t.text ++ ' ' :: join [' '] ((u :: ts).map Token.text) := by simp [join]
    rw [hjoin, ih u]
    rfl

theorem Reads.respaced_join (h : Reads ts s []) : Respaced false ts s (join [' '] (ts.map Token.text)) := by
  cases ts with
  | nil =>
    cases h with
    | stop hgap hs =>
      refine .stop ?_ (by simp [join])
      rwa [hs, List.append_nil]
  | cons t ts =>
    cases h with
    | next hgap hs _ hrest =>
      exact .next hgap (b := []) (by simp) (by simp) hs (join_space t ts) hrest.respaced_spaces

/-! ## Checks of texts with the same tokens -/

theorem checkExpression_congr (h : tokens s = tokens s') : checkExpression s = checkExpression s' := by
  unfold checkExpression
  rw [h]

theorem stripBraces_congr (h : trim s = trim s') : stripBraces s = stripBraces s' := by
  unfold stripBraces
  rw [h]

theorem trim_braces (e : Text) : trim ('{' :: e ++ ['}']) = '{' :: e ++ ['}'] := by
  have hstart : trimStart ('{' :: e ++ ['}']) = '{' :: e ++ ['}'] :=
    trimStart_of_forall fun c hc => by cases hc; decide
  have hend : trimEnd ['}'] = ['}'] := by decide
  rw [trim, hstart, trimEnd_append (by rw [hend]; simp), hend]

/-- A text whose only token is a reference is this reference, with blanks around it. -/
theorem Reads.trim_reference (h : Reads [.reference p] s []) : trim s = p := by
  cases h with
  | next hgap hs hlongest hrest =>
    cases hrest with
    | stop hgap' hs' =>
      obtain ⟨a, name, b, hp, -⟩ : Braced p := hlongest.pattern
      have htrim : trim p = p := by rw [hp]; exact trim_braces _
      rw [hs, hs', List.append_nil, trim_blanks_append hgap, Token.text, trim_append_blanks p hgap', htrim]

theorem tokens_loneReference {name : Text} (h : LoneReference name s) : tokens s = .ok [.reference s] := by
  obtain ⟨r, rfl, hr⟩ := h
  have hfirst : Token.first? ('{' :: r) = some (.reference ('{' :: r)) := by
    rw [Token.first?_brace, referenceLength?, hr]
    simp
  have hlongest : (Token.reference ('{' :: r)).Longest ('{' :: r ++ []) := by
    rw [List.append_nil]
    exact Token.longest_of_first? hfirst
  have htokens := tokens_of_longest (t := .reference ('{' :: r)) (s := []) hlongest
  rwa [List.append_nil] at htokens

/-- Braces are taken off a text that splits into tokens only if it is a lone reference. -/
theorem stripBraces_of_tokens (h : tokens s = .ok ts) (hts : ∀ p, ts ≠ [.reference p]) :
    stripBraces s = trim s := by
  rcases stripBraces_cases s with ⟨e, he, hopen, -⟩ | ⟨-, hstrip⟩
  · rw [← tokens_trim, he] at h
    obtain ⟨name, hlone⟩ := loneReference_of_tokens h hopen
    exact absurd (Except.ok.inj (h.symm.trans (tokens_loneReference hlone))) (hts _)
  · exact hstrip

/-- A check of a condition depends on its tokens only. -/
theorem check_congr (h : tokens s = .ok ts) (h' : tokens s' = .ok ts) : check s' true = check s true := by
  show checkExpression (stripBraces s') = checkExpression (stripBraces s)
  by_cases hlone : ∃ p, ts = [.reference p]
  · obtain ⟨p, rfl⟩ := hlone
    have hs := (tokens_eq_ok_iff.1 h).trim_reference
    have hs' := (tokens_eq_ok_iff.1 h').trim_reference
    rw [stripBraces_congr (hs'.trans hs.symm)]
  · have hts : ∀ p, ts ≠ [.reference p] := fun p hp => hlone ⟨p, hp⟩
    rw [stripBraces_of_tokens h hts, stripBraces_of_tokens h' hts]
    exact checkExpression_congr (by rw [tokens_trim, tokens_trim, h, h'])

/-! ## Conditions in braces -/

/-- Characters that are not blank stand in the tokens. -/
theorem Reads.filter (h : Reads ts s r) {f : Char → Bool} (hf : ∀ c, isBlank c = true → f c = false) :
    s.filter f = (ts.flatMap Token.text).filter f ++ r.filter f := by
  have hgap : ∀ {gap : Text}, (∀ c ∈ gap, isBlank c = true) → gap.filter f = [] := fun hgap =>
    List.filter_eq_nil_iff.2 fun c hc => by simp [hf c (hgap c hc)]
  induction h with
  | stop hblank hs => rw [hs, List.filter_append, hgap hblank]; rfl
  | next hblank hs _ _ ih =>
    rw [hs, List.filter_append, hgap hblank, List.filter_append, ih, List.flatMap_cons, List.filter_append,
      List.append_assoc]
    rfl

/-- Only the braces count for whether a brace stays open. -/
theorem keepsOpen_filter (e : Text) : KeepsOpen e ↔ KeepsOpen (e.filter fun c => c == '{' || c == '}') := by
  have hcount : ∀ p : Text, (p.filter fun c => c == '{' || c == '}').count '}' = p.count '}' ∧
      (p.filter fun c => c == '{' || c == '}').count '{' = p.count '{' :=
    fun p => ⟨List.count_filter rfl, List.count_filter rfl⟩
  constructor
  · intro h p hp
    obtain ⟨q, hq, rfl⟩ := List.prefix_filter_iff.1 hp
    rw [(hcount q).1, (hcount q).2]
    exact h q hq
  · intro h p hp
    rw [← (hcount p).1, ← (hcount p).2]
    exact h _ (hp.filter _)

theorem keepsOpen_congr (h : tokens s = .ok ts) (h' : tokens s' = .ok ts) : KeepsOpen s ↔ KeepsOpen s' := by
  have hblank : ∀ c, isBlank c = true → (c == '{' || c == '}') = false := by
    intro c hc
    by_contra hbrace
    simp only [Bool.not_eq_false, Bool.or_eq_true, beq_iff_eq] at hbrace
    rcases hbrace with rfl | rfl <;> exact absurd hc (by decide)
  rw [keepsOpen_filter s, keepsOpen_filter s', (tokens_eq_ok_iff.1 h).filter hblank,
    (tokens_eq_ok_iff.1 h').filter hblank]

/-- No token starts with a character that starts a token of no kind. -/
theorem Token.first?_of_start (hc : c ∉ '{' :: '"' :: '\'' :: operatorStarts) (hdigit : isDecimalDigit c = false)
    (hstart : isNameStart c = false) (r : Text) : Token.first? (c :: r) = none := by
  simp only [List.mem_cons, not_or] at hc
  obtain ⟨hbrace, hdouble, hsingle, hoperator⟩ := hc
  have hoperator : Operator.first? (c :: r) = none := first?_of_not_mem (by simpa using hoperator) r
  simp [Token.first?, referenceLength?, numberLength, stringLength?, nameLength, hoperator, hbrace, hdouble, hsingle,
    hdigit, hstart]

theorem Token.first?_closing (r : Text) : Token.first? ('}' :: r) = none :=
  first?_of_start (by decide) (by decide +kernel) (by decide +kernel) r

theorem longest_name {name : Text} (h : Dotted name) (hs : EndsName s) : (Token.name name).Longest (name ++ s) := by
  obtain ⟨-, hlength⟩ := dotted_iff.1 h
  obtain ⟨c, r, rfl, hc⟩ := h.head?
  apply Token.longest_of_first?
  rw [List.cons_append, Token.first?_of_isNameStart hc, ← List.cons_append, nameLength_append_of_endsName hs, hlength,
    List.take_left]

/-- Where the brace before a text and the one behind it are no pair, the first opens no reference:
it would be closed in the text, by a brace that is no part of a token there. -/
theorem bracedName?_of_tokens (h : tokens s = .ok ts) (hopen : ¬ KeepsOpen s) : bracedName? (s ++ ['}']) = none := by
  cases hbraced : bracedName? (s ++ ['}']) with
  | none => rfl
  | some found =>
    obtain ⟨name, rest⟩ := found
    obtain ⟨a, b, hsplit, ha, hb⟩ := bracedName?_split hbraced
    have hname : Dotted name := dotted_of_bracedName? hbraced
    rcases List.eq_nil_or_concat rest with rfl | ⟨rest, c, rfl⟩
    · obtain ⟨e, he, -, hclose, -⟩ := bracedName?_closes hbraced
      cases List.append_cancel_right he
      exact absurd (keepsOpen_of_not_mem hclose) hopen
    · have hs : s = a ++ (name ++ (b ++ '}' :: rest)) := by
        have hlast : a ++ name ++ b ++ '}' :: rest.concat c = a ++ (name ++ (b ++ '}' :: rest)) ++ [c] := by simp
        exact List.append_inj_left' (hsplit.trans hlast) rfl
      have hreads : Reads [.name name] s ('}' :: rest) :=
        .next ha hs (longest_name hname (endsName_closing hb rest)) (.stop hb rfl)
      rw [hreads.tokens, tokens_of_first?_eq_none (by decide) (Token.first?_closing rest)] at h
      cases h

/-- What a check of a condition in braces says, by the tokens between the braces. -/
theorem check_braces (h : tokens s = .ok ts) : (KeepsOpen s → check ('{' :: s ++ ['}']) true = checkTokens ts) ∧
    (¬ KeepsOpen s → check ('{' :: s ++ ['}']) true = .error (.strayCharacter '{')) := by
  have hcheck : check ('{' :: s ++ ['}']) true = checkExpression (stripBraces ('{' :: s ++ ['}'])) := rfl
  rw [hcheck]
  rcases stripBraces_cases ('{' :: s ++ ['}']) with ⟨e, he, hopen, hstrip⟩ | ⟨hno, hstrip⟩
  · rw [trim_braces] at he
    have hse : s = e := by simpa using he
    subst hse
    refine ⟨fun _ => ?_, fun hnot => absurd hopen hnot⟩
    rw [hstrip, checkExpression, tokens_trim, h]
  · refine ⟨fun hopen => absurd hopen (hno s (trim_braces s)), fun hnot => ?_⟩
    rw [hstrip, trim_braces, checkExpression, List.cons_append, tokens_brace_of_none (bracedName?_of_tokens h hnot)]

/-- A check of a condition in braces depends on the tokens between the braces only. -/
theorem check_braces_congr (h : tokens s = .ok ts) (h' : tokens s' = .ok ts) :
    check ('{' :: s' ++ ['}']) true = check ('{' :: s ++ ['}']) true := by
  have hiff := keepsOpen_congr h h'
  by_cases hopen : KeepsOpen s
  · rw [(check_braces h).1 hopen, (check_braces h').1 (hiff.1 hopen)]
  · rw [(check_braces h).2 hopen, (check_braces h').2 (mt hiff.2 hopen)]

/-! ## Splitting into tokens -/

/-- Splitting a text into its tokens loses nothing but blanks, and if it stops before the end, no
token starts there. The tokens are found again when they are joined with single spaces, or with
other blanks where there were some, and texts with the same tokens are accepted or refused alike. -/
theorem tokens_faithful (s : Text) :
    (∃ ts, tokens s = .ok ts ∧ Reads ts s [] ∧ (∀ t ∈ ts, t.text ≠ [] ∧ t.kind.Pattern t.text) ∧
      tokens (join [' '] (ts.map Token.text)) = .ok ts ∧
      (∀ s', Respaced false ts s s' → tokens s' = .ok ts) ∧
      ∀ s', tokens s' = .ok ts → checkExpression s' = checkExpression s ∧ check s' true = check s true ∧
        check ('{' :: s' ++ ['}']) true = check ('{' :: s ++ ['}']) true) ∨
    ∃ ts c r, tokens s = .error c ∧ checkExpression s = .error (.strayCharacter c) ∧ Reads ts s (c :: r) ∧
      isBlank c = false ∧ ∀ (k : Kind) (p : Text), k.Pattern p → ¬ p <+: c :: r := by
  cases h : tokens s with
  | ok ts =>
    have hreads := tokens_eq_ok_iff.1 h
    refine .inl ⟨ts, rfl, hreads, fun t ht => ?_, ?_, fun s' hs' => ?_, fun s' hs' => ?_⟩
    · have hpattern := hreads.pattern t ht
      obtain ⟨c, r, htext, -⟩ := hpattern.starts
      exact ⟨by rw [htext]; exact List.cons_ne_nil c r, hpattern⟩
    · exact tokens_eq_ok_iff.2 (hreads.respaced hreads.respaced_join)
    · exact tokens_eq_ok_iff.2 (hreads.respaced hs')
    · exact ⟨checkExpression_congr (hs'.trans h.symm), check_congr h hs', check_braces_congr h hs'⟩
  | error c =>
    obtain ⟨ts, r, hreads, hblank, hnone⟩ := tokens_eq_error_iff.1 h
    refine .inr ⟨ts, c, r, rfl, ?_, hreads, hblank, hnone⟩
    rw [checkExpression, h]

end LangGen.Condition
