/-
The grammar of conditions as data: a rule for each construct, built from tokens, sequence,
alternative and repetition, and the token lists that a pattern derives. What holds of every rule
when its parts are read as given languages holds of every derivation (`Derives.reads`).
-/
import LangGen.Condition.Token

namespace LangGen.Condition

/-! ## Patterns -/

/-- The constructs of a condition, from the loosest to the tightest. -/
inductive Phrase
  | disjunction | conjunction | negation | comparison | sum | product | signed | primary
  deriving DecidableEq, Repr

/-- The right side of a rule. -/
inductive Pattern
  | empty
  | token (accepts : Token → Prop)
  | phrase (p : Phrase)
  | seq (a b : Pattern)
  | alt (a b : Pattern)
  | star (a : Pattern)

namespace Pattern

instance : Append Pattern := ⟨.seq⟩

instance : OrOp Pattern := ⟨.alt⟩

/-- A pattern or nothing. -/
def optional (a : Pattern) : Pattern := .empty ||| a

/-- One of the given tokens. -/
def oneOf (ts : List Token) : Pattern := .token (· ∈ ts)

end Pattern

/-! ## The rules -/

def orTokens : List Token := [.operator .disj, .name "or".toList]

def andTokens : List Token := [.operator .conj, .name "and".toList]

def notTokens : List Token := [.operator .neg, .name "not".toList]

def comparisonTokens : List Token :=
  [.operator .equal, .operator .notEqual, .operator .less, .operator .atMost, .operator .greater,
    .operator .atLeast]

def sumTokens : List Token := [.operator .plus, .operator .minus]

def productTokens : List Token := [.operator .times, .operator .divide, .operator .modulo]

/-- The names that stand for values. -/
def constantTokens : List Token :=
  [.name "true".toList, .name "false".toList, .name "null".toList]

/-- The names that are not free to be used. -/
def reserved : List Text :=
  ["true".toList, "false".toList, "null".toList, "and".toList, "or".toList, "not".toList]

/-- A number, a quoted string or a reference in braces. -/
def IsValue : Token → Prop
  | .number _ | .string _ | .reference _ => True
  | _ => False

/-- A name that is not reserved. -/
def IsIdentifier : Token → Prop
  | .name s => s ∉ reserved
  | _ => False

open Pattern in
/-- The rule of each construct. -/
def rule : Phrase → Pattern
  | .disjunction => phrase .conjunction ++ star (oneOf orTokens ++ phrase .conjunction)
  | .conjunction => phrase .negation ++ star (oneOf andTokens ++ phrase .negation)
  | .negation => oneOf notTokens ++ phrase .negation ||| phrase .comparison
  | .comparison => phrase .sum ++ optional (oneOf comparisonTokens ++ phrase .sum)
  | .sum => phrase .product ++ star (oneOf sumTokens ++ phrase .product)
  | .product => phrase .signed ++ star (oneOf productTokens ++ phrase .signed)
  | .signed => oneOf [.operator .minus] ++ phrase .signed ||| phrase .primary
  | .primary =>
    token IsValue ||| oneOf constantTokens ||| token IsIdentifier |||
    token IsIdentifier ++ oneOf [.operator .openParen] ++
      optional (phrase .disjunction ++ star (oneOf [.operator .comma] ++ phrase .disjunction)) ++
      oneOf [.operator .closeParen] |||
    oneOf [.operator .openParen] ++ phrase .disjunction ++ oneOf [.operator .closeParen]

/-! ## Derivations -/

/-- The token lists that a pattern derives. -/
inductive Derives : Pattern → List Token → Prop
  | empty : Derives .empty []
  | token {accepts : Token → Prop} {t : Token} : accepts t → Derives (.token accepts) [t]
  | phrase {p : Phrase} {ts : List Token} : Derives (rule p) ts → Derives (.phrase p) ts
  | seq {a b : Pattern} {ts us : List Token} :
      Derives a ts → Derives b us → Derives (.seq a b) (ts ++ us)
  | left {a b : Pattern} {ts : List Token} : Derives a ts → Derives (.alt a b) ts
  | right {a b : Pattern} {ts : List Token} : Derives b ts → Derives (.alt a b) ts
  | star {a : Pattern} {tss : List (List Token)} :
      (∀ ts ∈ tss, Derives a ts) → Derives (.star a) tss.flatten

/-- The token lists that a pattern describes when its constructs are read as given languages. -/
def Pattern.Reads (L : Phrase → List Token → Prop) : Pattern → List Token → Prop
  | .empty, ts => ts = []
  | .token accepts, ts => ∃ t, accepts t ∧ ts = [t]
  | .phrase p, ts => L p ts
  | .seq a b, ts => ∃ us vs, a.Reads L us ∧ b.Reads L vs ∧ ts = us ++ vs
  | .alt a b, ts => a.Reads L ts ∨ b.Reads L ts
  | .star a, ts => ∃ tss : List (List Token), (∀ us ∈ tss, a.Reads L us) ∧ ts = tss.flatten

/-- The token lists of a construct. -/
abbrev Is (p : Phrase) (ts : List Token) : Prop := Derives (.phrase p) ts

/-- Languages that are closed under the rules hold all that the rules derive. -/
theorem Derives.reads {L : Phrase → List Token → Prop}
    (hL : ∀ p ts, (rule p).Reads L ts → L p ts) {a : Pattern} {ts : List Token} (h : Derives a ts) :
    a.Reads L ts := by
  induction h with
  | empty => exact rfl
  | token ht => exact ⟨_, ht, rfl⟩
  | phrase _ ih => exact hL _ _ ih
  | seq _ _ iha ihb => exact ⟨_, _, iha, ihb, rfl⟩
  | left _ ih => exact .inl ih
  | right _ ih => exact .inr ih
  | star _ ih => exact ⟨_, ih, rfl⟩

/-- A pattern derives what it describes when its constructs are read as what they derive. -/
theorem Derives.of_reads : ∀ {a : Pattern} {ts : List Token}, a.Reads Is ts → Derives a ts
  | .empty, _, h => by cases h; exact .empty
  | .token _, _, ⟨_, ht, h⟩ => by cases h; exact .token ht
  | .phrase _, _, h => h
  | .seq _ _, _, ⟨_, _, ha, hb, h⟩ => by cases h; exact .seq (of_reads ha) (of_reads hb)
  | .alt _ _, _, .inl h => .left (of_reads h)
  | .alt _ _, _, .inr h => .right (of_reads h)
  | .star _, _, ⟨_, hs, h⟩ => by cases h; exact .star fun ts hts => of_reads (hs ts hts)

/-- A construct derives what its rule describes. -/
theorem Is.of_rule {p : Phrase} {ts : List Token} (h : (rule p).Reads Is ts) : Is p ts :=
  .phrase (.of_reads h)

theorem Is.rule {p : Phrase} {ts : List Token} (h : Is p ts) : (rule p).Reads Is ts := by
  cases h with
  | phrase h => exact h.reads fun _ _ => Is.of_rule

/-! ## Operands between operators -/

/-- Operands of one construct with one of the operators between neighbours. -/
def Chain (operand : Phrase) (ops : List Token) (ts : List Token) : Prop :=
  (Pattern.phrase operand ++ .star (.oneOf ops ++ .phrase operand) : Pattern).Reads Is ts

namespace Chain

variable {operand : Phrase} {ops : List Token} {t : Token} {ts us : List Token}

theorem one (h : Is operand ts) : Chain operand ops ts :=
  ⟨ts, [], h, ⟨[], by simp, rfl⟩, (List.append_nil ts).symm⟩

theorem concat (h : Chain operand ops ts) (ht : t ∈ ops) (hu : Is operand us) :
    Chain operand ops (ts ++ t :: us) := by
  obtain ⟨first, _, hfirst, ⟨tss, hts, rfl⟩, rfl⟩ := h
  refine ⟨first, _, hfirst, ⟨tss ++ [t :: us], ?_, rfl⟩, by simp⟩
  intro vs hvs
  rcases List.mem_append.1 hvs with hvs | hvs
  · exact hts vs hvs
  · rw [List.mem_singleton.1 hvs]
    exact ⟨[t], us, ⟨t, ht, rfl⟩, hu, rfl⟩

/-- The last operand of a chain can be replaced. -/
theorem last (h : Chain operand ops ts) :
    ∃ before last, ts = before ++ last ∧ Is operand last ∧
      ∀ us, Is operand us → Chain operand ops (before ++ us) := by
  obtain ⟨first, _, hfirst, ⟨tss, hts, rfl⟩, rfl⟩ := h
  rcases List.eq_nil_or_concat tss with rfl | ⟨tss, vs, rfl⟩
  · exact ⟨[], first, by simp, hfirst, fun us hu => one hu⟩
  · rw [List.concat_eq_append] at hts ⊢
    obtain ⟨_, last, ⟨t, ht, rfl⟩, hlast, rfl⟩ := hts vs (by simp)
    have hrest : Chain operand ops (first ++ tss.flatten) :=
      ⟨first, _, hfirst, ⟨tss, fun us hu => hts us (by simp [hu]), rfl⟩, rfl⟩
    exact ⟨first ++ tss.flatten ++ [t], last, by simp, hlast, fun us hu => by
      simpa using hrest.concat ht hu⟩

end Chain

end LangGen.Condition
