/-
The braces around a condition. A text with a condition is accepted if it is an expression as it
stands, or an expression in one pair of braces, with two exceptions (`check_iff`). The braces are
counted without regard to quotes, so an expression is not accepted in braces when a closing brace in
one of its strings closes the outer pair. And a text that is one reference and nothing more loses
its own braces, so the name in them must be an expression.
-/
import LangGen.Condition.Basic
import LangGen.Proofs.Condition.Blanks

namespace LangGen.Condition

open Text

/-! ## Expressions as they stand -/

/-- Whether a text is an expression as it stands, with no braces taken off. -/
def Bare (s : Text) : Prop := checkExpression s = .ok ()

instance (s : Text) : Decidable (Bare s) := inferInstanceAs (Decidable (_ = _))

theorem bare_congr {s s' : Text} (h : tokens s = tokens s') : Bare s ↔ Bare s' := by
  unfold Bare checkExpression
  rw [h]

theorem bare_trim (s : Text) : Bare (trim s) ↔ Bare s := bare_congr (tokens_trim s)

/-- The names that join or negate expressions and are none. -/
def operatorWords : List Text := ["and".toList, "or".toList, "not".toList]

theorem Operator.first?_of_isNameStart {c : Char} (hc : isNameStart c = true) (r : Text) :
    Operator.first? (c :: r) = none := by
  refine Condition.first?_of_not_mem (fun hmem => ?_) r
  simp only [operatorStarts, List.mem_cons, List.not_mem_nil, or_false] at hmem
  rcases hmem with rfl | rfl | rfl | rfl | rfl | rfl | rfl | rfl | rfl | rfl | rfl | rfl | rfl | rfl <;>
    exact absurd hc (by decide +kernel)

/-- No other token starts where a name does. -/
theorem Token.first?_of_isNameStart {c : Char} (hc : isNameStart c = true) (r : Text) :
    Token.first? (c :: r) = some (.name ((c :: r).take (nameLength (c :: r)))) := by
  have hreference : referenceLength? (c :: r) = none := by
    cases h : referenceLength? (c :: r) with
    | none => rfl
    | some n =>
      cases Option.some.inj (referenceLength?_head? h)
      exact absurd hc (by decide +kernel)
  have hnumber : numberLength (c :: r) = 0 := by
    cases h : numberLength (c :: r) with
    | zero => rfl
    | succ n =>
      obtain ⟨d, hd, hdigit⟩ := numberLength_head? h
      cases hd
      rw [isNameStart, hdigit, Bool.not_true, Bool.and_false] at hc
      cases hc
  have hstring : stringLength? (c :: r) = none := by
    cases h : stringLength? (c :: r) with
    | none => rfl
    | some n =>
      obtain ⟨d, hd, hquote⟩ := stringLength?_head? h
      cases hd
      rcases hquote with rfl | rfl <;> exact absurd hc (by decide +kernel)
  have hname : nameLength (c :: r) = nameTail r + 1 := by rw [nameLength, if_pos hc]
  unfold Token.first?
  rw [hreference, hnumber, hstring, Operator.first?_of_isNameStart hc, hname]

theorem tokensFrom_length : ∀ s : Text, tokensFrom s.length s = .ok []
  | [] => rfl
  | _ :: r => tokensFrom_length r

/-- A name is one token. -/
theorem tokens_name {name : Text} (hlength : nameLength name = name.length) (hne : name ≠ []) :
    tokens name = .ok [.name name] := by
  obtain ⟨c, r, rfl⟩ := List.exists_cons_of_ne_nil hne
  obtain ⟨d, r', hcons, hstart, -⟩ := nameLength_eq_succ hlength
  cases hcons
  have hblank : isBlank c = false := isBlank_of_isWordChar (isWordChar_of_isNameStart hstart)
  unfold tokens tokensFrom
  rw [hblank, Token.first?_of_isNameStart hstart, hlength, List.take_length]
  dsimp only [Token.text, List.length_cons]
  rw [Nat.add_sub_cancel, tokensFrom_length]
  rfl

/-- A name that is no operator is an expression. -/
theorem bare_name {name : Text} (hlength : nameLength name = name.length) (hne : name ≠ [])
    (h : name ∉ operatorWords) : Bare name := by
  have hwords : name ≠ ['a', 'n', 'd'] ∧ name ≠ ['o', 'r'] ∧ name ≠ ['n', 'o', 't'] := by
    simpa [operatorWords] using h
  obtain ⟨hand, hor, hnot⟩ := hwords
  have hrole : nameRole name = .literal ∨ nameRole name = .identifier := by
    unfold nameRole
    simp only [hand, hor, hnot, or_self, if_false]
    split
    · exact .inl rfl
    · exact .inr rfl
  unfold Bare checkExpression
  rw [tokens_name hlength hne]
  show run .start [.name name] = .ok ()
  rcases hrole with hrole | hrole <;> simp [run, step, State.start, readOperand, Token.role, hrole, finish]

/-! ## The outer pair of braces -/

/-- Whether a brace that is open before a text stays open in all of it. -/
def KeepsOpen (e : Text) : Prop := ∀ p, p <+: e → p.count '}' ≤ p.count '{'

theorem closesEarly_eq_false (e : Text) : ∀ depth, closesEarly (depth + 1) (e ++ ['}']) = false ↔
    ∀ p, p <+: e → p.count '}' ≤ depth + p.count '{' := by
  induction e with
  | nil => intro depth; simp [closesEarly]
  | cons c e ih =>
    intro depth
    have hcons : (∀ p, p <+: c :: e → p.count '}' ≤ depth + p.count '{') ↔
        ∀ p, p <+: e → (c :: p).count '}' ≤ depth + (c :: p).count '{' := by
      constructor
      · intro h p hp; exact h (c :: p) (List.cons_prefix_cons.2 ⟨rfl, hp⟩)
      · intro h p hp
        rcases List.prefix_cons_iff.1 hp with rfl | ⟨q, rfl, hq⟩
        · exact Nat.zero_le _
        · exact h q hq
    rw [hcons, List.cons_append, closesEarly]
    by_cases hopen : c = '{'
    · subst hopen
      simp [ih (depth + 1), Nat.add_assoc, Nat.add_comm 1]
    by_cases hclose : c = '}'
    · subst hclose
      cases depth with
      | zero =>
        -- the outer brace is closed, and there is one more to come
        refine iff_of_false (by simp) fun h => ?_
        have hnil := h [] List.nil_prefix
        simp at hnil
      | succ depth =>
        have hcount : ∀ p : Text, ('}' :: p).count '}' ≤ depth + 1 + ('}' :: p).count '{' ↔
            p.count '}' ≤ depth + p.count '{' := by
          intro p
          simp
          omega
        simp only [hcount, ← ih depth]
        simp
    · simp [hopen, hclose, ih depth]

theorem keepsOpen_iff (e : Text) : closesEarly 0 ('{' :: e ++ ['}']) = false ↔ KeepsOpen e := by
  have h := closesEarly_eq_false e 0
  simp only [Nat.zero_add] at h
  exact h

/-- The braces are taken off when they are one pair around all of the text, as the counting sees it. -/
theorem stripBraces_cases (s : Text) :
    (∃ e, trim s = '{' :: e ++ ['}'] ∧ KeepsOpen e ∧ stripBraces s = trim e) ∨
      (∀ e, trim s = '{' :: e ++ ['}'] → ¬ KeepsOpen e) ∧ stripBraces s = trim s := by
  unfold stripBraces
  dsimp only
  split
  · rename_i h
    obtain ⟨hopen, hclose, hcount⟩ := h
    obtain ⟨r, hr⟩ := List.head?_eq_some_iff.1 hopen
    have hne : r ≠ [] := by
      rintro rfl
      rw [hr] at hclose
      cases hclose
    rw [hr, List.getLast?_cons_of_ne_nil hne] at hclose
    obtain ⟨e, rfl⟩ := List.getLast?_eq_some_iff.1 hclose
    rw [hr] at hcount ⊢
    refine .inl ⟨e, rfl, (keepsOpen_iff e).1 hcount, ?_⟩
    rw [List.tail_cons, List.dropLast_concat]
  · rename_i h
    refine .inr ⟨fun e he hkeeps => h ?_, rfl⟩
    rw [he]
    exact ⟨rfl, List.getLast?_concat .., (keepsOpen_iff e).2 hkeeps⟩

/-! ## Lone references -/

/-- Whether a text is a reference to this name and nothing more. -/
def LoneReference (name s : Text) : Prop := ∃ r, s = '{' :: r ∧ bracedName? r = some (name, [])

/-- What is in the braces of a reference holds no braces, and it has the tokens of the name. -/
theorem bracedName?_closes {r name rest : Text} (h : bracedName? r = some (name, rest)) :
    ∃ e, r = e ++ '}' :: rest ∧ '{' ∉ e ∧ '}' ∉ e ∧ tokens e = tokens name := by
  obtain ⟨a, b, hr, ha, hb⟩ := bracedName?_split h
  have hname : ∀ c ∈ name, isWordChar c = true ∨ c = '.' := by
    intro c hc
    apply mem_name (s := name)
    rwa [(nameLength_bracedName? h).1, List.take_length]
  have hno : ∀ c, isBlank c = false → isWordChar c = false → c ≠ '.' → c ∉ a ++ name ++ b := by
    intro c hblank hword hpoint hc
    simp only [List.mem_append] at hc
    rcases hc with (hc | hc) | hc
    · rw [ha c hc] at hblank; cases hblank
    · rcases hname c hc with h | h
      · rw [h] at hword; cases hword
      · exact hpoint h
    · rw [hb c hc] at hblank; cases hblank
  refine ⟨a ++ name ++ b, hr, ?_, ?_, ?_⟩
  · exact hno '{' (by decide) (by decide +kernel) (by decide)
  · exact hno '}' (by decide) (by decide +kernel) (by decide)
  · rw [tokens_append_blanks _ hb, tokens_blanks_append ha]

theorem keepsOpen_of_not_mem {e : Text} (h : '}' ∉ e) : KeepsOpen e := by
  intro p hp
  rw [List.count_eq_zero.2 fun hmem => h (hp.subset hmem)]
  exact Nat.zero_le _

/-- No other token starts with a brace. -/
theorem Token.first?_brace (r : Text) : Token.first? ('{' :: r) =
    (referenceLength? ('{' :: r)).map fun n => .reference (('{' :: r).take n) := by
  have hdigit : isDecimalDigit '{' = false := by decide +kernel
  have hstart : isNameStart '{' = false := by decide +kernel
  have hnumber : numberLength ('{' :: r) = 0 := by simp [numberLength, hdigit]
  have hstring : stringLength? ('{' :: r) = none := by simp [stringLength?]
  have hname : nameLength ('{' :: r) = 0 := by simp [nameLength, hstart]
  unfold Token.first?
  cases referenceLength? ('{' :: r) with
  | some n => rfl
  | none =>
    rw [hnumber, hstring, hname]
    rfl

/-- A brace that opens no reference starts no token. -/
theorem tokens_brace_of_none {r : Text} (h : bracedName? r = none) : tokens ('{' :: r) = .error '{' := by
  have hreference : referenceLength? ('{' :: r) = none := by simp [referenceLength?, h]
  unfold tokens tokensFrom
  rw [if_neg (by decide), Token.first?_brace, hreference]
  rfl

/-- What starts with a brace and splits into tokens starts with a reference. -/
theorem reference_of_tokens {r : Text} {ts : List Token} (h : tokens ('{' :: r) = .ok ts) :
    ∃ name rest, bracedName? r = some (name, rest) := by
  cases hr : bracedName? r with
  | some p => exact ⟨p.1, p.2, rfl⟩
  | none =>
    rw [tokens_brace_of_none hr] at h
    cases h

/-- What splits into tokens and has outer braces that can be taken off is a lone reference. -/
theorem loneReference_of_tokens {e : Text} {ts : List Token} (h : tokens ('{' :: e ++ ['}']) = .ok ts)
    (hopen : KeepsOpen e) : ∃ name, LoneReference name ('{' :: e ++ ['}']) := by
  obtain ⟨name, rest, hr⟩ : ∃ name rest, bracedName? (e ++ ['}']) = some (name, rest) :=
    reference_of_tokens h
  obtain ⟨e', he', hno, -, -⟩ := bracedName?_closes hr
  cases rest with
  | nil => exact ⟨name, _, rfl, hr⟩
  | cons c rest =>
    -- the reference ends within `e`, and its closing brace is one too many there
    have he : e = (e' ++ ['}']) ++ (c :: rest).dropLast := by
      have hdrop := congrArg List.dropLast he'
      rw [List.dropLast_concat, List.dropLast_append_of_ne_nil (List.cons_ne_nil _ _)] at hdrop
      rw [hdrop]
      simp
    have hcount := hopen (e' ++ ['}']) ⟨_, he.symm⟩
    rw [List.count_append, List.count_append, List.count_eq_zero.2 hno] at hcount
    simp at hcount

/-- An expression splits into tokens. -/
theorem Bare.tokens {s : Text} (h : Bare s) : ∃ ts, tokens s = .ok ts := by
  unfold Bare checkExpression at h
  split at h
  · cases h
  · rename_i ts hts
    exact ⟨ts, hts⟩

/-- An expression whose outer braces can be taken off is a lone reference. -/
theorem loneReference_of_bare {e : Text} (hbare : Bare ('{' :: e ++ ['}'])) (hopen : KeepsOpen e) :
    ∃ name, LoneReference name ('{' :: e ++ ['}']) := by
  obtain ⟨ts, hts⟩ := hbare.tokens
  exact loneReference_of_tokens hts hopen

theorem bare_of_loneReference {e name : Text} (h : LoneReference name ('{' :: e ++ ['}']))
    (hname : name ∉ operatorWords) : Bare e := by
  obtain ⟨r, hr, hbraced⟩ := h
  cases hr
  obtain ⟨e', he', -, -, htokens⟩ := bracedName?_closes hbraced
  cases List.append_cancel_right he'
  obtain ⟨hlength, hne⟩ := nameLength_bracedName? hbraced
  exact (bare_congr htokens).2 (bare_name hlength hne hname)

/-! ## Conditions -/

/-- Which texts with a condition are accepted: an expression as it stands, unless it is a reference
to a word that is an operator, and nothing more; and an expression in braces, unless one of its
closing braces, be it in a string, closes the brace before it. -/
theorem check_iff (s : Text) : check s true = .ok () ↔
    (Bare (trim s) ∧ ∀ w ∈ operatorWords, ¬ LoneReference w (trim s)) ∨
      ∃ e, trim s = '{' :: e ++ ['}'] ∧ Bare e ∧ KeepsOpen e := by
  have hcheck : check s true = .ok () ↔ Bare (stripBraces s) := Iff.rfl
  rcases stripBraces_cases s with ⟨e, he, hopen, hstrip⟩ | ⟨hno, hstrip⟩
  · rw [hcheck, hstrip, bare_trim]
    constructor
    · intro h; exact .inr ⟨e, he, h, hopen⟩
    · rintro (⟨hbare, hwords⟩ | ⟨e', he', hbare', -⟩)
      · rw [he] at hbare hwords
        obtain ⟨name, hlone⟩ := loneReference_of_bare hbare hopen
        exact bare_of_loneReference hlone fun hmem => hwords name hmem hlone
      · have hee' : e = e' := by simpa using he.symm.trans he'
        rwa [hee']
  · rw [hcheck, hstrip]
    constructor
    · intro h
      refine .inl ⟨h, fun w _ hlone => ?_⟩
      -- a lone reference would have lost its braces
      obtain ⟨r, hs, hr⟩ := hlone
      obtain ⟨e, he, -, hclose, -⟩ := bracedName?_closes hr
      exact hno e (by rw [hs, he]; rfl) (keepsOpen_of_not_mem hclose)
    · rintro (⟨h, -⟩ | ⟨e, he, -, hopen⟩)
      · exact h
      · exact absurd hopen (hno e he)

/-- A closing brace in a string, and a reference to an operator. -/
theorem bare_not_accepted :
    (Bare "x == \"\x7d\"".toList ∧ check "\x7bx == \"\x7d\"\x7d".toList true ≠ .ok ()) ∧
      Bare "\x7band\x7d".toList ∧ check "\x7band\x7d".toList true ≠ .ok () := by
  decide +kernel

end LangGen.Condition
