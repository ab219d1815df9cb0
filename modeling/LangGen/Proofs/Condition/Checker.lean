/-
The check of a condition accepts exactly the token lists of the grammar. Reading a derived construct
takes the pass from where an operand is expected to a complete one and leaves its frames as they are
(`taken_of_is`). In the other direction, the tokens read so far are open calls and groups with a
part of an expression in the innermost of them, which each further token extends (`Invariant.step`).
-/
import LangGen.Condition.Checker
import LangGen.Proofs.Condition.Token
import Mathlib.Tactic.SplitIfs

namespace LangGen.Condition

/-! ## Tokens by role -/

/-- The tokens of the grammar that have a role. -/
def Role.Has : Role → Token → Prop
  | .literal, t => IsValue t ∨ t ∈ constantTokens
  | .identifier, t => IsIdentifier t
  | .connective, t => t ∈ orTokens ∨ t ∈ andTokens
  | .negation, t => t ∈ notTokens
  | .comparison, t => t ∈ comparisonTokens
  | .arithmetic, t => t = .operator .plus ∨ t ∈ productTokens
  | .minus, t => t = .operator .minus
  | .openParen, t => t = .operator .openParen
  | .closeParen, t => t = .operator .closeParen
  | .comma, t => t = .operator .comma

theorem has_nameRole (s : Text) : (nameRole s).Has (.name s) := by
  unfold nameRole
  split_ifs with h1 h2 h3
  · exact .inr (by simpa [constantTokens] using h1)
  · rcases h2 with rfl | rfl
    · exact .inl (by decide)
    · exact .inr (by decide)
  · exact h3 ▸ (by decide : Token.name ['n', 'o', 't'] ∈ notTokens)
  · simp only [Role.Has, IsIdentifier, reserved]
    simp
    grind

theorem has_role (t : Token) : t.role.Has t := by
  cases t with
  | operator op =>
    cases op <;> simp [Token.role, Operator.role, Role.Has, orTokens, andTokens, notTokens,
      comparisonTokens, productTokens]
  | name s => exact has_nameRole s
  | _ => exact .inl trivial

theorem Role.Has.eq {r : Role} {t : Token} (h : r.Has t) : t.role = r := by
  have hmem : ∀ {ts : List Token} {r : Role}, (∀ t ∈ ts, t.role = r) → t ∈ ts → t.role = r :=
    fun hts ht => hts t ht
  cases r with
  | literal =>
    rcases h with h | h
    · cases t <;> first | rfl | cases h
    · exact hmem (by decide) h
  | identifier =>
    cases t with
    | name s =>
      simp only [Role.Has, IsIdentifier, reserved] at h
      simp at h
      simp [Token.role, nameRole, h]
    | _ => cases h
  | connective => exact h.elim (hmem (by decide)) (hmem (by decide))
  | negation => exact hmem (by decide) h
  | comparison => exact hmem (by decide) h
  | arithmetic =>
    rcases h with rfl | h
    · rfl
    · exact hmem (by decide) h
  | _ => cases h; rfl

theorem role_eq_iff {t : Token} {r : Role} : t.role = r ↔ r.Has t :=
  ⟨fun h => h ▸ has_role t, Role.Has.eq⟩

/-! ## From a derivation to the pass -/

/-- The pass goes from `s` to `s'` over these tokens, whatever follows them. -/
def Passes (s : State) (ts : List Token) (s' : State) : Prop :=
  ∀ rest, run s (ts ++ rest) = run s' rest

theorem Passes.refl (s : State) : Passes s [] s := fun _ => rfl

theorem Passes.trans {s s' s'' : State} {ts us : List Token} (h : Passes s ts s')
    (h' : Passes s' us s'') : Passes s (ts ++ us) s'' := fun rest => by
  rw [List.append_assoc, h, h']

theorem passes_token {s s' : State} {t : Token} (h : step s t = .ok s') : Passes s [t] s' := fun rest => by
  simp [run, h]

/-- Where an operand must come. -/
def Expecting (s : State) : Prop := (∃ n, s.mode = .operand n) ∨ s.mode = .argument

/-- Where a negation may come, before any comparison. -/
def Fresh (s : State) : Prop := (s.mode = .operand true ∨ s.mode = .argument) ∧ s.compared = false

/-- A complete operand has been read since `s`, in the same parentheses. -/
def Completes (s s' : State) : Prop := s'.frames = s.frames ∧ ∃ callable, s'.mode = .operator callable

theorem Fresh.expecting {s : State} (h : Fresh s) : Expecting s :=
  h.1.imp (fun h => ⟨true, h⟩) id

/-- The pass reads these tokens where a negation may come. -/
def Loose (ts : List Token) : Prop := ∀ s, Fresh s → ∃ s', Passes s ts s' ∧ Completes s s'

/-- The pass reads these tokens wherever an operand must come, and without comparing. -/
def Tight (ts : List Token) : Prop :=
  ∀ s, Expecting s → ∃ s', Passes s ts s' ∧ Completes s s' ∧ s'.compared = s.compared

/-- How the pass takes a construct. -/
def Taken : Phrase → List Token → Prop
  | .disjunction, ts | .conjunction, ts | .negation, ts => Loose ts
  | .comparison, ts => ∀ s, Expecting s → s.compared = false → ∃ s', Passes s ts s' ∧ Completes s s'
  | .sum, ts | .product, ts | .signed, ts | .primary, ts => Tight ts

/-- Repeated passes, each from a state of the same kind to another one. -/
theorem passes_flatten {P : State → Prop} {tss : List (List Token)}
    (h : ∀ ts ∈ tss, ∀ s, P s → ∃ s', Passes s ts s' ∧ P s') :
    ∀ s, P s → ∃ s', Passes s tss.flatten s' ∧ P s' := by
  induction tss with
  | nil => intro s hs; exact ⟨s, Passes.refl s, hs⟩
  | cons ts tss ih =>
    intro s hs
    rw [List.forall_mem_cons] at h
    obtain ⟨s', hp, hs'⟩ := h.1 s hs
    obtain ⟨s'', hp', hs''⟩ := ih h.2 s' hs'
    exact ⟨s'', hp.trans hp', hs''⟩

theorem step_expecting {s : State} {t : Token} (hs : Expecting s) (ht : t.role ≠ .closeParen) :
    ∃ n, step s t = readOperand n s t := by
  unfold step
  rcases hs with ⟨n, h⟩ | h <;> rw [h]
  · exact ⟨n, rfl⟩
  · exact ⟨true, if_neg ht⟩

theorem step_fresh {s : State} {t : Token} (hs : Fresh s) (ht : t.role ≠ .closeParen) :
    step s t = readOperand true s t := by
  unfold step
  rcases hs.1 with h | h <;> rw [h]
  exact if_neg ht

theorem step_operator {s : State} {callable : Bool} (hs : s.mode = .operator callable) (t : Token) :
    step s t = readOperator callable s t := by
  unfold step; rw [hs]

/-- The end of the innermost parentheses, once the expression in them is complete. -/
theorem passes_close {s s' : State} {f : Frame} {frames : List Frame} (h : Completes s s')
    (hs : s.frames = f :: frames) :
    Passes s' [.operator .closeParen] ⟨.operator false, f.compared, frames⟩ := by
  obtain ⟨hframes, callable, hmode⟩ := h
  apply passes_token
  rw [step_operator hmode, readOperator, hframes, hs]
  rfl

theorem loose_chain {L : Phrase → List Token → Prop} {q : Phrase} (hq : ∀ us, L q us → Loose us)
    {ops : List Token} (hops : ∀ t ∈ ops, t.role = .connective) {ts : List Token}
    (h : (.phrase q ++ .star (.oneOf ops ++ .phrase q) : Pattern).Reads L ts) : Loose ts := by
  obtain ⟨first, _, hfirst, ⟨tss, hts, rfl⟩, rfl⟩ := h
  intro s hs
  obtain ⟨s', hp, hc⟩ := hq first hfirst s hs
  -- a connective forgets the comparison, so each operand starts afresh
  have hrest : ∀ us ∈ tss, ∀ r, Completes s r → ∃ r', Passes r us r' ∧ Completes s r' := by
    rintro us hus r ⟨hframes, callable, hmode⟩
    obtain ⟨_, vs, ⟨t, ht, rfl⟩, hvs, rfl⟩ := hts us hus
    have hstep : step r t = .ok ⟨.operand true, false, r.frames⟩ := by
      rw [step_operator hmode, readOperator, hops t ht]
    obtain ⟨r', hpass, hdone⟩ := hq vs hvs ⟨.operand true, false, r.frames⟩ ⟨.inl rfl, rfl⟩
    exact ⟨r', (passes_token hstep).trans hpass, hdone.1.trans hframes, hdone.2⟩
  obtain ⟨s'', hp', hc'⟩ := passes_flatten hrest s' hc
  exact ⟨s'', hp.trans hp', hc'⟩

theorem tight_chain {L : Phrase → List Token → Prop} {q : Phrase} (hq : ∀ us, L q us → Tight us)
    {ops : List Token} (hops : ∀ t ∈ ops, t.role = .arithmetic ∨ t.role = .minus) {ts : List Token}
    (h : (.phrase q ++ .star (.oneOf ops ++ .phrase q) : Pattern).Reads L ts) : Tight ts := by
  obtain ⟨first, _, hfirst, ⟨tss, hts, rfl⟩, rfl⟩ := h
  intro s hs
  obtain ⟨s', hp, hc⟩ := hq first hfirst s hs
  -- an arithmetic operator changes the mode alone, so the comparison is remembered throughout
  have hrest : ∀ us ∈ tss, ∀ r, Completes s r ∧ r.compared = s.compared →
      ∃ r', Passes r us r' ∧ Completes s r' ∧ r'.compared = s.compared := by
    rintro us hus r ⟨⟨hframes, callable, hmode⟩, hcompared⟩
    obtain ⟨_, vs, ⟨t, ht, rfl⟩, hvs, rfl⟩ := hts us hus
    have hstep : step r t = .ok { r with mode := .operand false } := by
      rw [step_operator hmode, readOperator]
      rcases hops t ht with h | h <;> rw [h]
    obtain ⟨r', hpass, hdone, hsame⟩ := hq vs hvs { r with mode := .operand false } (.inl ⟨false, rfl⟩)
    exact ⟨r', (passes_token hstep).trans hpass, ⟨hdone.1.trans hframes, hdone.2⟩,
      hsame.trans hcompared⟩
  obtain ⟨s'', hp', hc'⟩ := passes_flatten hrest s' hc
  exact ⟨s'', hp.trans hp', hc'⟩

theorem tight_literal {t : Token} (ht : t.role = .literal) : Tight [t] := by
  intro s hs
  obtain ⟨n, hstep⟩ := step_expecting (t := t) hs (by rw [ht]; decide)
  rw [readOperand, ht] at hstep
  exact ⟨_, passes_token hstep, ⟨rfl, false, rfl⟩, rfl⟩

/-- A name stands alone, or goes on with the parenthesis of a call. -/
theorem passes_identifier {s : State} {t : Token} (hs : Expecting s) (ht : IsIdentifier t) :
    Passes s [t] { s with mode := .operator true } := by
  have hrole : t.role = .identifier := role_eq_iff.2 ht
  obtain ⟨n, hstep⟩ := step_expecting (t := t) hs (by rw [hrole]; decide)
  rw [readOperand, hrole] at hstep
  exact passes_token hstep

/-- The arguments of a call, up to its end. -/
theorem passes_arguments {ts : List Token}
    (h : (Pattern.optional (.phrase .disjunction ++
      .star (.oneOf [.operator .comma] ++ .phrase .disjunction))).Reads Taken ts)
    (compared : Bool) (frames : List Frame) :
    Passes ⟨.argument, false, ⟨true, compared⟩ :: frames⟩ (ts ++ [.operator .closeParen])
      ⟨.operator false, compared, frames⟩ := by
  rcases h with rfl | ⟨first, _, hfirst, ⟨tss, hts, rfl⟩, rfl⟩
  · exact passes_token rfl
  · have hrest : ∀ us ∈ tss, ∀ r, Completes ⟨.argument, false, ⟨true, compared⟩ :: frames⟩ r →
        ∃ r', Passes r us r' ∧ Completes ⟨.argument, false, ⟨true, compared⟩ :: frames⟩ r' := by
      rintro us hus r ⟨hframes, callable, hmode⟩
      obtain ⟨_, vs, ⟨t, ht, rfl⟩, hvs, rfl⟩ := hts us hus
      have hstep : step r t = .ok ⟨.operand true, false, r.frames⟩ := by
        rw [List.mem_singleton.1 ht, step_operator hmode, readOperator, hframes]; rfl
      obtain ⟨r', hpass, hdone⟩ := hvs ⟨.operand true, false, r.frames⟩ ⟨.inl rfl, rfl⟩
      exact ⟨r', (passes_token hstep).trans hpass, hdone.1.trans hframes, hdone.2⟩
    obtain ⟨s, hp, hc⟩ := hfirst ⟨.argument, false, ⟨true, compared⟩ :: frames⟩ ⟨.inr rfl, rfl⟩
    obtain ⟨s', hp', hc'⟩ := passes_flatten hrest s hc
    exact (hp.trans hp').trans (passes_close hc' rfl)

theorem tight_primary {ts : List Token} (h : (rule .primary).Reads Taken ts) : Tight ts := by
  rcases h with (((h | h) | h) | h) | h
  · obtain ⟨t, ht, rfl⟩ := h
    exact tight_literal (role_eq_iff.2 (.inl ht))
  · obtain ⟨t, ht, rfl⟩ := h
    exact tight_literal (role_eq_iff.2 (.inr ht))
  · obtain ⟨t, ht, rfl⟩ := h
    exact fun s hs => ⟨_, passes_identifier hs ht, ⟨rfl, true, rfl⟩, rfl⟩
  · obtain ⟨_, _, ⟨_, _, ⟨_, _, ⟨t, ht, rfl⟩, ⟨o, ho, rfl⟩, rfl⟩, hargs, rfl⟩, ⟨c, hc, rfl⟩, rfl⟩ := h
    cases List.mem_singleton.1 ho
    cases List.mem_singleton.1 hc
    intro s hs
    have hopen : Passes { s with mode := .operator true } [.operator .openParen]
        ⟨.argument, false, ⟨true, s.compared⟩ :: s.frames⟩ := passes_token rfl
    have hcall := ((passes_identifier hs ht).trans hopen).trans
      (passes_arguments hargs s.compared s.frames)
    exact ⟨⟨.operator false, s.compared, s.frames⟩, by simpa using hcall, ⟨rfl, false, rfl⟩, rfl⟩
  · obtain ⟨_, _, ⟨_, ts, ⟨o, ho, rfl⟩, hts, rfl⟩, ⟨c, hc, rfl⟩, rfl⟩ := h
    cases List.mem_singleton.1 ho
    cases List.mem_singleton.1 hc
    intro s hs
    obtain ⟨n, hopen⟩ := step_expecting (t := .operator .openParen) hs (by decide)
    obtain ⟨s', hp, hc⟩ :=
      hts ⟨.operand true, false, ⟨false, s.compared⟩ :: s.frames⟩ ⟨.inl rfl, rfl⟩
    have hgroup := ((passes_token hopen).trans hp).trans (passes_close hc rfl)
    exact ⟨_, hgroup, ⟨rfl, false, rfl⟩, rfl⟩

/-- What the pass takes is closed under the rules. -/
theorem taken_rule (p : Phrase) (ts : List Token) (h : (rule p).Reads Taken ts) : Taken p ts := by
  cases p with
  | disjunction => exact loose_chain (fun _ => id) (by decide) h
  | conjunction => exact loose_chain (fun _ => id) (by decide) h
  | negation =>
    rcases h with ⟨_, us, ⟨t, ht, rfl⟩, hus, rfl⟩ | h
    · intro s hs
      have hrole : t.role = .negation := role_eq_iff.2 ht
      have hstep : step s t = .ok { s with mode := .operand true } := by
        rw [step_fresh hs (by rw [hrole]; decide), readOperand, hrole]; rfl
      obtain ⟨s', hp, hc⟩ := hus { s with mode := .operand true } ⟨.inl rfl, hs.2⟩
      exact ⟨s', (passes_token hstep).trans hp, hc⟩
    · exact fun s hs => h s hs.expecting hs.2
  | comparison =>
    obtain ⟨us, _, hus, hrest, rfl⟩ := h
    intro s hs hcompared
    obtain ⟨s', hp, hc, hsame⟩ := hus s hs
    rcases hrest with rfl | ⟨_, vs, ⟨t, ht, rfl⟩, hvs, rfl⟩
    · exact ⟨s', by simpa using hp, hc⟩
    · obtain ⟨hframes, callable, hmode⟩ := hc
      have hrole : t.role = .comparison := role_eq_iff.2 ht
      have hstep : step s' t = .ok ⟨.operand false, true, s'.frames⟩ := by
        rw [step_operator hmode, readOperator, hrole, hsame, hcompared]; rfl
      obtain ⟨s'', hp', hc', -⟩ := hvs ⟨.operand false, true, s'.frames⟩ (.inl ⟨false, rfl⟩)
      exact ⟨s'', hp.trans ((passes_token hstep).trans hp'), hc'.1.trans hframes, hc'.2⟩
  | sum => exact tight_chain (fun _ => id) (by decide) h
  | product => exact tight_chain (fun _ => id) (by decide) h
  | signed =>
    rcases h with ⟨_, us, ⟨t, ht, rfl⟩, hus, rfl⟩ | h
    · intro s hs
      obtain ⟨n, hstep⟩ := step_expecting (t := .operator .minus) hs (by decide)
      cases List.mem_singleton.1 ht
      obtain ⟨s', hp, hc, hsame⟩ := hus { s with mode := .operand false } (.inl ⟨false, rfl⟩)
      exact ⟨s', (passes_token hstep).trans hp, hc, hsame⟩
    · exact h
  | primary => exact tight_primary h

/-- The pass takes every construct that the grammar derives. -/
theorem taken_of_is {p : Phrase} {ts : List Token} (h : Is p ts) : Taken p ts := h.reads taken_rule

/-- A disjunction is accepted. -/
theorem run_of_is {ts : List Token} (h : Is .disjunction ts) : run .start ts = .ok () := by
  obtain ⟨s, hp, hframes, callable, hmode⟩ := taken_of_is h .start ⟨.inl rfl, rfl⟩
  have hfinish : run .start ts = finish s := by simpa [run] using hp []
  rw [hfinish, finish, hmode, hframes]
  rfl

/-! ## Parts of an expression -/

/-- A negation completes these tokens to a disjunction. -/
def Lead (ts : List Token) : Prop := ∀ us, Is .negation us → Is .disjunction (ts ++ us)

/-- A sum; once a comparison operator has been read, a sum compared with a sum. -/
def Operand : Bool → List Token → Prop
  | false, ts => Is .sum ts
  | true, ts => ∃ us t vs, Is .sum us ∧ t ∈ comparisonTokens ∧ Is .sum vs ∧ ts = us ++ t :: vs

/-- An expression with its last operand. -/
def Part (compared : Bool) (ts : List Token) : Prop :=
  ∃ us vs, ts = us ++ vs ∧ Lead us ∧ Operand compared vs

/-- A signed operand completes these tokens to an expression. -/
def Awaits (compared : Bool) (ts : List Token) : Prop :=
  ∀ us, Is .signed us → Part compared (ts ++ us)

theorem sum_of_signed {ts : List Token} (h : Is .signed ts) : Is .sum ts :=
  Is.of_rule (Chain.one (Is.of_rule (Chain.one h)))

theorem signed_of_primary {ts : List Token} (h : Is .primary ts) : Is .signed ts :=
  Is.of_rule (.inr h)

theorem signed_of_identifier {t : Token} (h : IsIdentifier t) : Is .signed [t] :=
  signed_of_primary (Is.of_rule (.inl (.inl (.inr ⟨t, h, rfl⟩))))

theorem negation_of_operand {compared : Bool} {ts : List Token} (h : Operand compared ts) :
    Is .negation ts := by
  apply Is.of_rule
  right
  apply Is.of_rule
  cases compared with
  | false => exact ⟨ts, [], h, .inl rfl, (List.append_nil ts).symm⟩
  | true =>
    obtain ⟨us, t, vs, hu, ht, hv, rfl⟩ := h
    exact ⟨us, t :: vs, hu, .inr ⟨[t], vs, ⟨t, ht, rfl⟩, hv, rfl⟩, rfl⟩

theorem disjunction_of_part {compared : Bool} {ts : List Token} (h : Part compared ts) :
    Is .disjunction ts := by
  obtain ⟨us, vs, rfl, hlead, hv⟩ := h
  exact hlead vs (negation_of_operand hv)

theorem lead_nil : Lead [] := fun _ hu =>
  Is.of_rule (Chain.one (Is.of_rule (Chain.one hu)))

theorem lead_negation {ts : List Token} {t : Token} (h : Lead ts) (ht : t ∈ notTokens) :
    Lead (ts ++ [t]) := by
  intro us hu
  rw [List.append_assoc]
  exact h _ (Is.of_rule (.inl ⟨[t], us, ⟨t, ht, rfl⟩, hu, rfl⟩))

theorem lead_connective {ts : List Token} {t : Token} (h : Is .disjunction ts)
    (ht : t ∈ orTokens ∨ t ∈ andTokens) : Lead (ts ++ [t]) := by
  intro us hu
  rw [List.append_assoc]
  rcases ht with ht | ht
  · exact Is.of_rule (Chain.concat h.rule ht (Is.of_rule (Chain.one hu)))
  · -- the conjunction that the operator extends is the last one of the disjunction
    obtain ⟨before, last, rfl, hlast, hreplace⟩ := Chain.last h.rule
    rw [List.append_assoc]
    exact Is.of_rule (hreplace _ (Is.of_rule (Chain.concat hlast.rule ht hu)))

theorem lead_awaits {ts : List Token} (h : Lead ts) : Awaits false ts :=
  fun us hu => ⟨ts, us, rfl, h, sum_of_signed hu⟩

theorem awaits_minus {compared : Bool} {ts : List Token} (h : Awaits compared ts) :
    Awaits compared (ts ++ [.operator .minus]) := by
  intro us hu
  rw [List.append_assoc]
  exact h _ (Is.of_rule (.inl ⟨_, us, ⟨_, List.mem_singleton_self _, rfl⟩, hu, rfl⟩))

/-- An arithmetic operator extends the last sum, or the last product of it. -/
theorem sum_extends {ts us : List Token} {t : Token} (h : Is .sum ts)
    (ht : t ∈ sumTokens ∨ t ∈ productTokens) (hu : Is .signed us) : Is .sum (ts ++ t :: us) := by
  rcases ht with ht | ht
  · exact Is.of_rule (Chain.concat h.rule ht (Is.of_rule (Chain.one hu)))
  · obtain ⟨before, last, rfl, hlast, hreplace⟩ := Chain.last h.rule
    rw [List.append_assoc]
    exact Is.of_rule (hreplace _ (Is.of_rule (Chain.concat hlast.rule ht hu)))

theorem part_arithmetic {compared : Bool} {ts : List Token} {t : Token} (h : Part compared ts)
    (ht : t ∈ sumTokens ∨ t ∈ productTokens) : Awaits compared (ts ++ [t]) := by
  obtain ⟨us, vs, rfl, hlead, hv⟩ := h
  intro ws hw
  refine ⟨us, vs ++ t :: ws, by simp, hlead, ?_⟩
  cases compared with
  | false => exact sum_extends hv ht hw
  | true =>
    obtain ⟨xs, o, ys, hx, ho, hy, rfl⟩ := hv
    exact ⟨xs, o, ys ++ t :: ws, hx, ho, sum_extends hy ht hw, by simp⟩

theorem part_comparison {ts : List Token} {t : Token} (h : Part false ts)
    (ht : t ∈ comparisonTokens) : Awaits true (ts ++ [t]) := by
  obtain ⟨us, vs, rfl, hlead, hv⟩ := h
  intro ws hw
  exact ⟨us, vs ++ t :: ws, by simp, hlead, vs, t, ws, hv, ht, sum_of_signed hw, rfl⟩

/-! ## Open parentheses -/

/-- The tokens from an open parenthesis to where its next expression starts: in a call, after its
name, its complete arguments are among them. -/
def Opening : Bool → List Token → Prop
  | false, ts => ts = [.operator .openParen]
  | true, ts => ∃ n args, IsIdentifier n ∧ ts = n :: .operator .openParen :: args ∧
      ∀ us, Is .disjunction us → Chain .disjunction [.operator .comma] (args ++ us)

/-- The tokens up to the expression in the innermost of the open parentheses. -/
def Open : List Frame → List Token → Prop
  | [], ts => ts = []
  | f :: frames, ts => ∃ us vs ws, ts = us ++ (vs ++ ws) ∧ Open frames us ∧ Awaits f.compared vs ∧
      Opening f.call ws

theorem primary_of_call {n : Token} {args : List Token} (hn : IsIdentifier n)
    (h : args = [] ∨ Chain .disjunction [.operator .comma] args) :
    Is .primary (n :: .operator .openParen :: args ++ [.operator .closeParen]) := by
  apply Is.of_rule
  refine .inl (.inr ⟨_, _, ⟨[n, .operator .openParen], args, ⟨[n], [.operator .openParen], ⟨n, hn, rfl⟩,
    ⟨_, List.mem_singleton_self _, rfl⟩, rfl⟩, h, rfl⟩, ⟨_, List.mem_singleton_self _, rfl⟩, rfl⟩)

theorem opening_close {call : Bool} {ts us : List Token} (h : Opening call ts)
    (hu : Is .disjunction us) : Is .primary (ts ++ us ++ [.operator .closeParen]) := by
  cases call with
  | false =>
    cases h
    exact Is.of_rule (.inr ⟨_, _, ⟨_, us, ⟨_, List.mem_singleton_self _, rfl⟩, hu, rfl⟩,
      ⟨_, List.mem_singleton_self _, rfl⟩, rfl⟩)
  | true =>
    obtain ⟨n, args, hn, rfl, hargs⟩ := h
    exact primary_of_call hn (.inr (hargs us hu))

theorem opening_comma {ts us : List Token} (h : Opening true ts) (hu : Is .disjunction us) :
    Opening true (ts ++ us ++ [.operator .comma]) := by
  obtain ⟨n, args, hn, rfl, hargs⟩ := h
  refine ⟨n, args ++ us ++ [.operator .comma], hn, by simp, ?_⟩
  intro vs hv
  simpa using (hargs us hu).concat (List.mem_singleton_self _) hv

/-! ## From the pass to a derivation -/

/-- What the tokens before a state of the pass are. -/
inductive Invariant : State → List Token → Prop
  | negatable {frames : List Frame} {us ts : List Token} : Open frames us → Lead ts →
      Invariant ⟨.operand true, false, frames⟩ (us ++ ts)
  | awaiting {compared : Bool} {frames : List Frame} {us ts : List Token} : Open frames us →
      Awaits compared ts → Invariant ⟨.operand false, compared, frames⟩ (us ++ ts)
  | called {compared : Bool} {frames : List Frame} {us ts : List Token} {n : Token} : Open frames us →
      Awaits compared ts → IsIdentifier n →
      Invariant ⟨.argument, false, ⟨true, compared⟩ :: frames⟩ (us ++ (ts ++ [n, .operator .openParen]))
  | complete {compared : Bool} {frames : List Frame} {us ts : List Token} : Open frames us →
      Part compared ts → Invariant ⟨.operator false, compared, frames⟩ (us ++ ts)
  | named {compared : Bool} {frames : List Frame} {us ts : List Token} {n : Token} : Open frames us →
      Awaits compared ts → IsIdentifier n →
      Invariant ⟨.operator true, compared, frames⟩ (us ++ (ts ++ [n]))

theorem invariant_start : Invariant .start [] := by
  have hopen : Open [] [] := rfl
  exact .negatable hopen lead_nil

/-- A token that is read as the start of an operand. -/
theorem readOperand_invariant {negatable : Bool} {s s' : State} {t : Token} {us ts : List Token}
    (hopen : Open s.frames us) (hts : Awaits s.compared ts)
    (hlead : negatable = true → Lead ts ∧ s.compared = false)
    (h : readOperand negatable s t = .ok s') : Invariant s' (us ++ (ts ++ [t])) := by
  have hrole := has_role t
  obtain ⟨mode, compared, frames⟩ := s
  unfold readOperand at h
  cases hr : t.role <;> rw [hr] at h hrole
  case literal =>
    cases h
    refine .complete hopen (hts [t] (signed_of_primary (Is.of_rule ?_)))
    exact .inl (.inl (.inl (hrole.imp (fun h => ⟨t, h, rfl⟩) fun h => ⟨t, h, rfl⟩)))
  case identifier => cases h; exact .named hopen hts hrole
  case negation =>
    cases negatable with
    | false => cases h
    | true =>
      cases h
      obtain ⟨hfresh, rfl⟩ := hlead rfl
      exact .negatable hopen (lead_negation hfresh hrole)
  case minus => cases h; cases hrole; exact .awaiting hopen (awaits_minus hts)
  case openParen =>
    cases h
    cases hrole
    -- what is read so far waits in the new frame for the group to close
    have hgroup : Open (⟨false, compared⟩ :: frames) (us ++ (ts ++ [.operator .openParen])) :=
      ⟨us, ts, _, rfl, hopen, hts, rfl⟩
    simpa using Invariant.negatable hgroup lead_nil
  all_goals cases h

/-- A token that is read after a complete operand. -/
theorem readOperator_invariant {callable : Bool} {s s' : State} {t : Token} {us ts : List Token}
    (hopen : Open s.frames us) (hts : Part s.compared ts)
    (hname : callable = true → ∃ vs n, ts = vs ++ [n] ∧ Awaits s.compared vs ∧ IsIdentifier n)
    (h : readOperator callable s t = .ok s') : Invariant s' (us ++ (ts ++ [t])) := by
  have hrole := has_role t
  obtain ⟨mode, compared, frames⟩ := s
  unfold readOperator at h
  cases hr : t.role <;> rw [hr] at h hrole
  case connective =>
    cases h
    exact .negatable hopen (lead_connective (disjunction_of_part hts) hrole)
  case comparison =>
    cases compared with
    | true => cases h
    | false => cases h; exact .awaiting hopen (part_comparison hts hrole)
  case arithmetic =>
    cases h
    refine .awaiting hopen (part_arithmetic hts (hrole.imp ?_ id))
    rintro rfl
    decide
  case minus => cases h; cases hrole; exact .awaiting hopen (part_arithmetic hts (.inl (by decide)))
  case openParen =>
    cases callable with
    | false => cases h
    | true =>
      cases h
      cases hrole
      obtain ⟨vs, n, rfl, hvs, hn⟩ := hname rfl
      simpa using Invariant.called hopen hvs hn
  case closeParen =>
    cases hrole
    cases frames with
    | nil => cases h
    | cons f frames =>
      cases h
      -- the group or the call is an operand of the expression around it
      obtain ⟨xs, vs, ws, rfl, hopen, hvs, hws⟩ := hopen
      have hprimary := opening_close hws (disjunction_of_part hts)
      simpa using Invariant.complete hopen (hvs _ (signed_of_primary hprimary))
  case comma =>
    cases hrole
    match frames with
    | [] => cases h
    | ⟨false, _⟩ :: _ => cases h
    | ⟨true, c⟩ :: frames =>
      cases h
      -- the argument joins those that are complete, and the next one starts with nothing read
      obtain ⟨xs, vs, ws, rfl, hopen, hvs, hws⟩ := hopen
      have hcall : Open (⟨true, c⟩ :: frames) (xs ++ (vs ++ (ws ++ ts ++ [.operator .comma]))) :=
        ⟨xs, vs, _, rfl, hopen, hvs, opening_comma hws (disjunction_of_part hts)⟩
      simpa using Invariant.negatable hcall lead_nil
  all_goals cases h

theorem Invariant.step {s s' : State} {t : Token} {us : List Token} (hs : Invariant s us)
    (h : step s t = .ok s') : Invariant s' (us ++ [t]) := by
  cases hs with
  | negatable hopen hlead =>
    rw [List.append_assoc]
    exact readOperand_invariant hopen (lead_awaits hlead) (fun _ => ⟨hlead, rfl⟩) h
  | awaiting hopen hts =>
    rw [List.append_assoc]
    exact readOperand_invariant hopen hts (fun h => by cases h) h
  | @called compared frames xs ts n hopen hts hn =>
    unfold Condition.step at h
    dsimp only at h
    split at h
    · rename_i hrole
      cases role_eq_iff.1 hrole
      cases h
      have hcall := hts _ (signed_of_primary (primary_of_call hn (.inl rfl)))
      simpa using Invariant.complete hopen hcall
    · -- the first argument starts where the call has none yet
      have hfirst : Open (⟨true, compared⟩ :: frames) (xs ++ (ts ++ [n, .operator .openParen])) :=
        ⟨xs, ts, _, rfl, hopen, hts, n, [], hn, rfl, fun _ hu => Chain.one hu⟩
      exact readOperand_invariant hfirst (lead_awaits lead_nil) (fun _ => ⟨lead_nil, rfl⟩) h
  | complete hopen hts =>
    rw [List.append_assoc]
    exact readOperator_invariant hopen hts (fun h => by cases h) h
  | named hopen hts hn =>
    rw [List.append_assoc]
    exact readOperator_invariant hopen (hts _ (signed_of_identifier hn))
      (fun _ => ⟨_, _, rfl, hts, hn⟩) h

/-- What the pass accepts, with what it has read before, is a disjunction. -/
theorem is_of_run : ∀ {s : State} {us ts : List Token}, Invariant s us → run s ts = .ok () →
    Is .disjunction (us ++ ts)
  | s, us, [], hs, h => by
    rw [List.append_nil]
    unfold run finish at h
    cases hs with
    | negatable => cases h
    | awaiting => cases h
    | called => cases h
    | @complete compared frames xs ts hopen hts =>
      cases frames with
      | nil => cases hopen; exact disjunction_of_part hts
      | cons => cases h
    | @named compared frames xs ts n hopen hts hn =>
      cases frames with
      | nil => cases hopen; exact disjunction_of_part (hts _ (signed_of_identifier hn))
      | cons => cases h
  | s, us, t :: ts, hs, h => by
    unfold run at h
    split at h
    · cases h
    · rename_i hstep
      simpa using is_of_run (hs.step hstep) h

/-- No construct is empty. -/
theorem disjunction_ne_nil {ts : List Token} (h : Is .disjunction ts) : ts ≠ [] := by
  rintro rfl
  cases run_of_is h

/-- The check accepts the tokens of a text exactly when the grammar derives them, and it tells the
tokens apart as they are written: a value is taken for a value, and what is written like an operator
or like a reserved word is one. -/
theorem checkTokens_accepts {s : Text} {ts : List Token} (h : tokens s = .ok ts) :
    (checkTokens ts = .ok () ↔ Is .disjunction ts) ∧
      ∀ t ∈ ts, (t.role = .literal ↔ IsValue t ∨ t ∈ constantTokens) ∧
        (∀ op : Operator, t.text = op.text ↔ t = .operator op) ∧
        ∀ w ∈ reserved, t.text = w ↔ t = .name w := by
  constructor
  · constructor
    · intro hcheck
      cases ts with
      | nil => cases hcheck
      | cons t ts => exact is_of_run invariant_start hcheck
    · intro hts
      obtain ⟨t, us, rfl⟩ := List.exists_cons_of_ne_nil (disjunction_ne_nil hts)
      exact run_of_is hts
  · intro t ht
    exact ⟨role_eq_iff, text_eq_operator h ht, fun w => text_eq_reserved h ht⟩

theorem checkTokens_accepts_or :
    ∃ ts, tokens "\x7ba\x7d == \"or\" or f(1, b)".toList = .ok ts ∧ Is .disjunction ts ∧
      ∀ t ∈ ts, t.text = "or".toList ↔ t = .name "or".toList := by
  have h : tokens "\x7ba\x7d == \"or\" or f(1, b)".toList =
      .ok [.reference "\x7ba\x7d".toList, .operator .equal, .string "\"or\"".toList, .name "or".toList,
        .name "f".toList, .operator .openParen, .number "1".toList, .operator .comma,
        .name "b".toList, .operator .closeParen] := rfl
  obtain ⟨haccepts, hplain⟩ := checkTokens_accepts h
  exact ⟨_, h, haccepts.1 rfl, fun t ht => (hplain t ht).2.2 _ (by decide)⟩

end LangGen.Condition
