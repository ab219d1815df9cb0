/-
The check by descent is never stranded, and it comes to what the pass over the tokens comes to
unless it runs out of room for its calls. A token is taken only where the next one has been looked
at, or where the position has been compared with the number of tokens, so no procedure asks for a
token that is not there (`safe_perform`). Each procedure ends at a token that it cannot go on with,
and up to there the pass reads the tokens likewise (`perform_follows`); the words at which
procedures decide are told from all other tokens by how they are written (`Legible`). Calls get
deeper only at the tokens that open a parenthesis or stand before an operand: nine calls for each of
them are room enough, and nested parentheses take eight calls for each (`exhausted_of_opens`).
-/
import LangGen.Condition.Descent
import LangGen.Proofs.Condition.Checker
import LangGen.Proofs.Condition.Spacing

namespace LangGen.Condition

namespace Descent

variable {ts : List Token} {words : List Text} {c c' : Cursor}

/-! ## Steps -/

theorem bind_apply {α β : Type} (m : Step α) (f : α → Step β) (c : Cursor) :
    (m >>= f) c = match m c with
      | .ok a c' => f a c'
      | .error e c' => .error e c' := by
  show EStateM.bind m f c = _
  unfold EStateM.bind
  cases m c <;> rfl

theorem peek_apply (c : Cursor) : peek ts c = .ok (ts[c.position]?.map Token.text) c := by
  unfold peek
  rw [bind_apply]
  rfl

theorem sees_apply (words : List Text) (c : Cursor) :
    sees ts words c = .ok ((ts[c.position]?.map Token.text).any (words.contains ·)) c := by
  unfold sees
  rw [bind_apply, peek_apply]
  rfl

theorem advance_apply {t : Token} (h : ts[c.position]? = some t) : advance ts c = .ok t c.next := by
  unfold advance
  rw [h]

theorem sees_of_mem {α : Type} {t : Token} (h : ts[c.position]? = some t) (ht : t.text ∈ words) (f : Bool → Step α) :
    (sees ts words >>= f) c = f true c := by
  rw [bind_apply, sees_apply, h, Option.map_some, Option.any_some, List.contains_iff_mem.2 ht]

theorem sees_of_not_mem {α : Type} (h : ∀ t, ts[c.position]? = some t → t.text ∉ words) (f : Bool → Step α) :
    (sees ts words >>= f) c = f false c := by
  have hsees : (ts[c.position]?.map Token.text).any (words.contains ·) = false := by
    cases ht : ts[c.position]? with
    | none => rfl
    | some t => simp [h t ht]
  rw [bind_apply, sees_apply, hsees]

theorem ifNext_of_mem {t : Token} (h : ts[c.position]? = some t) (ht : t.text ∈ words) (yes no : Step Unit) :
    ifNext ts words yes no c = yes c.next := by
  unfold ifNext
  rw [sees_of_mem h ht]
  show (advance ts >>= fun _ => yes) c = _
  rw [bind_apply, advance_apply h]

theorem ifNext_of_not_mem (h : ∀ t, ts[c.position]? = some t → t.text ∉ words) (yes no : Step Unit) :
    ifNext ts words yes no c = no c := by
  unfold ifNext
  rw [sees_of_not_mem h]
  rfl

theorem expect_of_eq {op : Operator} {t : Token} (h : ts[c.position]? = some t) (ht : t.text = op.text) :
    expect ts op c = .ok () c.next := by
  unfold expect
  rw [bind_apply, peek_apply, h, Option.map_some, ht]
  show (if some op.text = some op.text then (advance ts >>= fun _ => pure ()) else _ : Step Unit) c = _
  rw [if_pos rfl, bind_apply, advance_apply h]
  rfl

theorem expect_of_ne {op : Operator} (h : ∀ t, ts[c.position]? = some t → t.text ≠ op.text) :
    expect ts op c = .error (.refused ("expected '".toList ++ op.text ++ "' but found '".toList ++
      (Place.known? (ts[c.position]?.map Token.text)).getD "end of expression".toList ++ ['\''])) c := by
  unfold expect
  rw [bind_apply, peek_apply]
  have hne : ts[c.position]?.map Token.text ≠ some op.text := by
    intro heq
    obtain ⟨t, ht, htext⟩ := Option.map_eq_some_iff.1 heq
    exact h t ht htext
  show (if _ then _ else _ : Step Unit) c = _
  rw [if_neg hne]
  rfl

theorem operand_of_some {t : Token} (h : ts[c.position]? = some t) (read : Token → Step Unit) :
    operand ts read c = read t c.next := by
  have hlt : ¬ ts.length ≤ c.position := by
    have := (List.getElem?_eq_some_iff.1 h).1
    omega
  unfold operand
  rw [bind_apply]
  show (if ts.length ≤ c.position then _ else _ : Step Unit) c = _
  rw [if_neg hlt, bind_apply, advance_apply h]

theorem operand_of_none (h : ts[c.position]? = none) (read : Token → Step Unit) :
    operand ts read c = .error (.refused Problem.missingEnd.message) c := by
  unfold operand
  rw [bind_apply]
  show (if ts.length ≤ c.position then _ else _ : Step Unit) c = _
  rw [if_pos (List.getElem?_eq_none_iff.1 h)]
  rfl

/-! ## No token is missed -/

/-- Nothing beyond the tokens has been taken, or was to be taken. -/
structure Cursor.Within (ts : List Token) (c : Cursor) : Prop where
  position_le : c.position ≤ ts.length
  asked_lt : ∀ i ∈ c.asked, i < ts.length

theorem Cursor.Within.start : Cursor.Within ts {} := ⟨Nat.zero_le _, fun _ hi => nomatch hi⟩

theorem Cursor.Within.next {t : Token} (h : c.Within ts) (ht : ts[c.position]? = some t) : c.next.Within ts := by
  have hlt : c.position < ts.length := (List.getElem?_eq_some_iff.1 ht).1
  exact ⟨hlt, List.forall_mem_cons.2 ⟨hlt, h.asked_lt⟩⟩

/-- A part of a check that is not stranded, and stays within the tokens however it ends. -/
def Safe {α : Type} (ts : List Token) (m : Step α) : Prop :=
  ∀ c : Cursor, c.Within ts → match m c with
    | .ok _ c' => c'.Within ts
    | .error e c' => e ≠ .stranded ∧ c'.Within ts

theorem Safe.pure {α : Type} (a : α) : Safe ts (Pure.pure a) := fun _ h => h

theorem Safe.refuse {α : Type} (why : Text) : Safe (α := α) ts (refuse why) := fun _ h => ⟨nofun, h⟩

theorem Safe.bind {α β : Type} {m : Step α} {f : α → Step β} (hm : Safe ts m) (hf : ∀ a, Safe ts (f a)) :
    Safe ts (m >>= f) := by
  intro c h
  have hmc := hm c h
  rw [bind_apply]
  revert hmc
  cases m c with
  | ok a c' => exact fun h' => hf a c' h'
  | error e c' => exact id

theorem Safe.sees {f : Bool → Step Unit} (hf : ∀ b, Safe ts (f b)) : Safe ts (sees ts words >>= f) := by
  refine Safe.bind (fun c h => ?_) hf
  rw [sees_apply]
  exact h

theorem Safe.ifNext {yes no : Step Unit} (hyes : Safe ts yes) (hno : Safe ts no) :
    Safe ts (ifNext ts words yes no) := by
  intro c h
  by_cases hnext : ∃ t, ts[c.position]? = some t ∧ t.text ∈ words
  · obtain ⟨t, ht, hmem⟩ := hnext
    rw [ifNext_of_mem ht hmem]
    exact hyes _ (h.next ht)
  · rw [ifNext_of_not_mem fun t ht hmem => hnext ⟨t, ht, hmem⟩]
    exact hno c h

theorem Safe.expect (op : Operator) : Safe ts (expect ts op) := by
  intro c h
  by_cases hnext : ∃ t, ts[c.position]? = some t ∧ t.text = op.text
  · obtain ⟨t, ht, htext⟩ := hnext
    rw [expect_of_eq ht htext]
    exact h.next ht
  · rw [expect_of_ne fun t ht htext => hnext ⟨t, ht, htext⟩]
    exact ⟨nofun, h⟩

theorem Safe.operand {read : Token → Step Unit} (hread : ∀ t, Safe ts (read t)) : Safe ts (operand ts read) := by
  intro c h
  cases ht : ts[c.position]? with
  | none =>
    rw [operand_of_none ht]
    exact ⟨nofun, h⟩
  | some t =>
    rw [operand_of_some ht]
    exact hread t _ (h.next ht)

theorem Safe.rounds {item : Step Unit} (hitem : Safe ts item) : ∀ k, Safe ts (rounds ts words item k)
  | 0 => .pure _
  | k + 1 => .ifNext (hitem.bind fun _ => hitem.rounds k) (.pure _)

theorem Safe.series {item : Step Unit} (hitem : Safe ts item) : Safe ts (series ts words item) :=
  hitem.bind fun _ => hitem.rounds _

/-- No procedure takes a token that is not there, however much room there is. -/
theorem safe_perform : ∀ (n : Nat) (p : Procedure), Safe ts (perform ts n p)
  | 0, _ => fun _ h => ⟨nofun, h⟩
  | n + 1, .disjunction => (safe_perform n _).series
  | n + 1, .conjunction => (safe_perform n _).series
  | n + 1, .negation => .ifNext (safe_perform n _) (safe_perform n _)
  | n + 1, .comparison => by
    refine (safe_perform n _).bind fun _ => .ifNext ((safe_perform n _).bind fun _ => .sees fun again => ?_) (.pure _)
    cases again with
    | true => exact .refuse _
    | false => exact .pure _
  | n + 1, .sum => (safe_perform n _).series
  | n + 1, .product => (safe_perform n _).series
  | n + 1, .signed => .ifNext (safe_perform n _) (safe_perform n _)
  | n + 1, .primary => by
    refine .operand fun t => ?_
    cases t with
    | reference _ | number _ | string _ => exact .pure _
    | name s =>
      dsimp only
      split_ifs with hconstant hkeyword
      · exact .pure _
      · exact .refuse _
      · refine .sees fun called => ?_
        cases called with
        | true => exact safe_perform n _
        | false => exact .pure _
    | operator op =>
      dsimp only
      split_ifs with hopen
      · exact (safe_perform n _).bind fun _ => .expect _
      · exact .refuse _
  | n + 1, .arguments =>
    (Safe.expect _).bind fun _ => .ifNext (.pure _) ((safe_perform n _).series.bind fun _ => .expect _)

theorem safe_check (room : Nat) : Safe ts (check ts room) := by
  unfold check
  split_ifs
  · exact .refuse _
  · refine (safe_perform _ _).bind fun _ => Safe.bind (fun c h => ?_) fun found => ?_
    · rw [peek_apply]
      exact h
    · cases found with
      | none => exact .pure _
      | some _ => exact .refuse _

end Descent

/-! ## Words -/

/-- A token that is told from all others by its text, if it is an operator or a reserved word. -/
structure Token.Legible (t : Token) : Prop where
  text_ne_nil : t.text ≠ []
  operator_iff : ∀ op : Operator, t.text = op.text ↔ t = .operator op
  reserved_iff : ∀ w ∈ reserved, t.text = w ↔ t = .name w

theorem legible_of_tokens {s : Text} {ts : List Token} (h : tokens s = .ok ts) : ∀ t ∈ ts, t.Legible := by
  intro t ht
  obtain ⟨c, r, htext, -⟩ := ((tokens_eq_ok_iff.1 h).pattern t ht).starts
  exact ⟨htext ▸ List.cons_ne_nil c r, text_eq_operator h ht, fun w => text_eq_reserved h ht⟩

/-- Operators and reserved words. -/
def Token.Fixed : Token → Prop
  | .operator _ => True
  | .name w => w ∈ reserved
  | _ => False

instance : DecidablePred Token.Fixed
  | .operator _ => inferInstanceAs (Decidable True)
  | .name w => inferInstanceAs (Decidable (w ∈ reserved))
  | .reference _ | .number _ | .string _ => inferInstanceAs (Decidable False)

theorem Token.Legible.role_eq {t : Token} (h : t.Legible) (us : List Token) {r : Role}
    (hus : ∀ u ∈ us, u.Fixed ∧ u.role = r) (hmem : t.text ∈ us.map Token.text) : t.role = r := by
  obtain ⟨u, hu, htext⟩ := List.mem_map.1 hmem
  obtain ⟨hfixed, hrole⟩ := hus u hu
  cases u with
  | operator op => rwa [(h.operator_iff op).1 htext.symm]
  | name w => rwa [(h.reserved_iff w hfixed).1 htext.symm]
  | _ => cases hfixed

/-- The roles that only words have with which an expression goes on. -/
theorem role_of_not_mem {t : Token}
    (h : t.text ∉ orWords ++ (andWords ++ (comparisonWords ++ (sumWords ++ productWords)))) :
    t.role ≠ .connective ∧ t.role ≠ .comparison ∧ t.role ≠ .arithmetic ∧ t.role ≠ .minus := by
  simp only [List.mem_append, not_or] at h
  obtain ⟨hor, hand, hcomparison, hsum, hproduct⟩ := h
  have htext : ∀ {us : List Token}, t ∈ us → t.text ∈ us.map Token.text := List.mem_map_of_mem
  refine ⟨fun hr => ?_, fun hr => hcomparison (htext (role_eq_iff.1 hr)), fun hr => ?_, fun hr => ?_⟩
  · exact (role_eq_iff.1 hr).elim (fun ht => hor (htext ht)) fun ht => hand (htext ht)
  · rcases role_eq_iff.1 hr with rfl | ht
    · exact hsum (by decide)
    · exact hproduct (htext ht)
  · cases role_eq_iff.1 hr
    exact hsum (by decide)

namespace Descent

/-! ## The pass -/

variable {ts : List Token} {words : List Text} {c c' : Cursor} {s s' : State} {t : Token} {k : Bool} {fs : List Frame}

/-- What the pass comes to from a state of it where a check stands. -/
def pass (ts : List Token) (s : State) (c : Cursor) : Except Problem Unit := run s (ts.drop c.position)

theorem pass_of_none (h : ts[c.position]? = none) : pass ts s c = finish s := by
  rw [pass, List.drop_eq_nil_of_le (List.getElem?_eq_none_iff.1 h), run]

theorem pass_of_some (h : ts[c.position]? = some t) : pass ts s c = match step s t with
    | .ok s' => pass ts s' c.next
    | .error p => .error p := by
  obtain ⟨hlt, ht⟩ := List.getElem?_eq_some_iff.1 h
  rw [pass, List.drop_eq_getElem_cons hlt, ht, run]
  cases step s t <;> rfl

theorem pass_of_ok (h : ts[c.position]? = some t) (hs : step s t = .ok s') : pass ts s c = pass ts s' c.next := by
  rw [pass_of_some h, hs]

theorem pass_of_error {p : Problem} (h : ts[c.position]? = some t) (hs : step s t = .error p) :
    pass ts s c = .error p := by
  rw [pass_of_some h, hs]

theorem pass_congr (hend : finish s = finish s') (hstep : ∀ t, ts[c.position]? = some t → step s t = step s' t) :
    pass ts s c = pass ts s' c := by
  cases ht : ts[c.position]? with
  | none => rw [pass_of_none ht, pass_of_none ht, hend]
  | some t => rw [pass_of_some ht, pass_of_some ht, hstep t ht]

/-- Where no negation comes, it does not matter whether one may. -/
theorem pass_plain (h : ∀ t, ts[c.position]? = some t → t.text ∉ notWords) :
    pass ts ⟨.operand true, k, fs⟩ c = pass ts ⟨.operand false, k, fs⟩ c := by
  refine pass_congr rfl fun t ht => ?_
  have hrole : t.role ≠ .negation := fun hr => h t ht (List.mem_map_of_mem (f := Token.text) (role_eq_iff.1 hr))
  simp only [step, readOperand]
  split <;> first | rfl | contradiction

/-- Where no call opens, it does not matter whether one may. -/
theorem pass_uncalled (h : ∀ t, ts[c.position]? = some t → t.text ≠ Operator.openParen.text) :
    pass ts ⟨.operator true, k, fs⟩ c = pass ts ⟨.operator false, k, fs⟩ c := by
  refine pass_congr rfl fun t ht => ?_
  have hrole : t.role ≠ .openParen := fun hr => h t ht (by rw [role_eq_iff.1 hr]; rfl)
  simp only [step, readOperator]
  split <;> first | rfl | contradiction

/-- Where a call does not end at once, an argument starts. -/
theorem pass_argument (h : ∀ t, ts[c.position]? = some t → t.text ≠ Operator.closeParen.text) :
    pass ts ⟨.argument, k, fs⟩ c = pass ts ⟨.operand true, k, fs⟩ c := by
  refine pass_congr rfl fun t ht => ?_
  have hrole : t.role ≠ .closeParen := fun hr => h t ht (by rw [role_eq_iff.1 hr]; rfl)
  simp only [step, if_neg hrole]
  rfl

/-- A part of a check comes to what the pass comes to: it is refused with the report of the pass, or
the pass goes on where it ends. Only what is `deep` may run out of room instead. -/
inductive Follows (ts : List Token) (deep : Prop) (whole : Except Problem Unit) (good : Cursor → State → Prop) :
    EStateM.Result Stop Cursor Unit → Prop
  | done {c : Cursor} {s : State} : good c s → whole = pass ts s c → Follows ts deep whole good (.ok () c)
  | refused {c : Cursor} {p : Problem} : whole = .error p → Follows ts deep whole good (.error (.refused p.message) c)
  | tooDeep {c : Cursor} : deep → Follows ts deep whole good (.error .tooDeep c)

variable {deep deep' : Prop} {whole : Except Problem Unit} {good good' : Cursor → State → Prop}

theorem Follows.bind {m : Step Unit} {f : Unit → Step Unit} (h : Follows ts deep whole good (m c))
    (hf : ∀ c' s', good c' s' → Follows ts deep (pass ts s' c') good' (f () c')) :
    Follows ts deep whole good' ((m >>= f) c) := by
  rw [bind_apply]
  revert h
  generalize m c = r
  rintro (⟨hgood, rfl⟩ | hwhole | hdeep)
  · exact hf _ _ hgood
  · exact .refused hwhole
  · exact .tooDeep hdeep

theorem Follows.mono {r : EStateM.Result Stop Cursor Unit} (h : Follows ts deep whole good r) (hdeep : deep → deep')
    (hgood : ∀ c' s', good c' s' → good' c' s') : Follows ts deep' whole good' r := by
  cases h with
  | done hc hwhole => exact .done (hgood _ _ hc) hwhole
  | refused hwhole => exact .refused hwhole
  | tooDeep h => exact .tooDeep (hdeep h)

/-! ## Procedures -/

/-- Where the pass stands when a procedure is performed. -/
def Procedure.enter (k : Bool) (fs : List Frame) : Procedure → State
  | .disjunction | .conjunction | .negation => ⟨.operand true, false, fs⟩
  | .comparison => ⟨.operand false, false, fs⟩
  | .sum | .product | .signed | .primary => ⟨.operand false, k, fs⟩
  | .arguments => ⟨.operator true, k, fs⟩

/-- Whether the construct compares nothing, apart from parentheses. -/
def Procedure.tight : Procedure → Bool
  | .disjunction | .conjunction | .negation | .comparison => false
  | .sum | .product | .signed | .primary | .arguments => true

/-- The words at which a construct goes on. -/
def Procedure.goesOn : Procedure → List Text
  | .signed | .primary | .arguments => []
  | .product => productWords
  | .sum => sumWords ++ productWords
  | .comparison | .negation => comparisonWords ++ (sumWords ++ productWords)
  | .conjunction => andWords ++ (comparisonWords ++ (sumWords ++ productWords))
  | .disjunction => orWords ++ (andWords ++ (comparisonWords ++ (sumWords ++ productWords)))

/-- The next token is none of these words. -/
def EndsAt (ts : List Token) (words : List Text) (c : Cursor) : Prop := ∀ t, ts[c.position]? = some t → t.text ∉ words

/-- What is known of the next token where a procedure is performed. -/
def Procedure.Starts (ts : List Token) : Procedure → Cursor → Prop
  | .primary, c => EndsAt ts [Operator.minus.text] c
  | .arguments, c => ∃ t, ts[c.position]? = some t ∧ t.text = Operator.openParen.text
  | _, _ => True

/-- Where the check and the pass stand once operands have been read that could have gone on at these
words, from the cursor on. -/
structure Ended (ts : List Token) (words : List Text) (tight : Bool) (k : Bool) (fs : List Frame) (c c' : Cursor)
    (s : State) : Prop where
  position_le : c.position ≤ c'.position
  ends : EndsAt ts words c'
  state_eq : ∃ k', s = ⟨.operator false, k', fs⟩ ∧ (tight = true → k' = k)

/-- Where the check and the pass stand once a procedure has been performed. -/
abbrev Procedure.Ended (p : Procedure) (ts : List Token) : Bool → List Frame → Cursor → Cursor → State → Prop :=
  Descent.Ended ts p.goesOn p.tight

theorem Ended.of_next {tight : Bool} {s : State} (h : Ended ts words tight k fs c.next c' s) :
    Ended ts words tight k fs c c' s :=
  ⟨(Nat.le_succ _).trans h.position_le, h.ends, h.state_eq⟩

/-! ## Depth -/

/-- The words at which a call may come within a call of the same procedure. -/
def nestWords : List Text := Operator.openParen.text :: Operator.minus.text :: notWords

/-- How many tokens there are at which calls nest. -/
def nesting (ts : List Token) : Nat := ts.countP fun t => nestWords.contains t.text

/-- How many calls there are within the call of a procedure before calls nest, at most. -/
def Procedure.rank : Procedure → Nat
  | .arguments => 0
  | .primary => 1
  | .signed => 2
  | .product => 3
  | .sum => 4
  | .comparison => 5
  | .negation => 6
  | .conjunction => 7
  | .disjunction => 8

/-- How many calls there are within the call of a procedure, at most. -/
def Procedure.cost (ts : List Token) (p : Procedure) (c : Cursor) : Nat := 9 * nesting (ts.drop c.position) + p.rank

theorem Procedure.rank_le (p : Procedure) : p.rank ≤ 8 := by cases p <;> decide

theorem nesting_drop_le (ts : List Token) {i j : Nat} (h : i ≤ j) : nesting (ts.drop j) ≤ nesting (ts.drop i) :=
  (List.drop_sublist_drop_left ts h).countP_le

variable {p q : Procedure}

theorem cost_lt_of_rank (hc : c.position ≤ c'.position) (hrank : q.rank < p.rank) : q.cost ts c' < p.cost ts c := by
  have hnesting := nesting_drop_le ts hc
  unfold Procedure.cost
  omega

/-- Each token at which calls nest pays for nine of them. -/
theorem cost_lt_of_nest {c'' : Cursor} (h : ts[c'.position]? = some t) (ht : t.text ∈ nestWords)
    (hle : c.position ≤ c'.position) (hle' : c'.next.position ≤ c''.position) (p q : Procedure) :
    q.cost ts c'' < p.cost ts c := by
  obtain ⟨hlt, rfl⟩ := List.getElem?_eq_some_iff.1 h
  have hnest : nesting (ts.drop c'.position) = nesting (ts.drop (c'.position + 1)) + 1 := by
    rw [List.drop_eq_getElem_cons hlt]
    exact List.countP_cons_of_pos (List.contains_iff_mem.2 ht)
  have hbefore := nesting_drop_le ts hle
  have hafter : nesting (ts.drop c''.position) ≤ nesting (ts.drop (c'.position + 1)) := nesting_drop_le ts hle'
  have hq := q.rank_le
  unfold Procedure.cost
  omega

/-! ## Performing procedures -/

/-- Procedures with room for `n` calls come to what the pass comes to, unless there are more calls
within them. -/
def Followed (ts : List Token) (n : Nat) : Prop :=
  ∀ (p : Procedure) (c : Cursor) (k : Bool) (fs : List Frame), p.Starts ts c →
    Follows ts (n ≤ p.cost ts c) (pass ts (p.enter k fs) c) (p.Ended ts k fs c) (perform ts n p c)

variable {n : Nat}

/-- A call within the call of a procedure. -/
theorem Followed.inner (ih : Followed ts n) (hstarts : q.Starts ts c') (hcost : q.cost ts c' < p.cost ts c) :
    Follows ts (n + 1 ≤ p.cost ts c) (pass ts (q.enter k fs) c') (q.Ended ts k fs c') (perform ts n q c') :=
  (ih q c' k fs hstarts).mono (fun hn => lt_of_le_of_lt hn hcost) fun _ _ h => h

theorem next_or (ts : List Token) (words : List Text) (c : Cursor) :
    (∃ t, ts[c.position]? = some t ∧ t.text ∈ words) ∨ EndsAt ts words c := by
  by_cases h : ∃ t, ts[c.position]? = some t ∧ t.text ∈ words
  · exact .inl h
  · exact .inr fun t ht hmem => h ⟨t, ht, hmem⟩

theorem EndsAt.append {words' : List Text} (h : EndsAt ts words c) (h' : EndsAt ts words' c) :
    EndsAt ts (words ++ words') c :=
  fun t ht hmem => (List.mem_append.1 hmem).elim (h t ht) (h' t ht)

/-- More operands, each after one of the words. There are rounds enough if there is one for each
token that is left. -/
theorem Followed.rounds (ih : Followed ts n) (hstarts : ∀ c, q.Starts ts c)
    (hwords : ∀ t ∈ ts, t.text ∈ words → ∀ k, step ⟨.operator false, k, fs⟩ t = .ok (q.enter k fs))
    (hdeep : ∀ c', c.position ≤ c'.position → n ≤ q.cost ts c' → deep) :
    ∀ (left : Nat) (c' : Cursor) (k : Bool), ts.length ≤ c'.position + left → c.position ≤ c'.position →
      EndsAt ts q.goesOn c' → Follows ts deep (pass ts ⟨.operator false, k, fs⟩ c')
        (Ended ts (words ++ q.goesOn) q.tight k fs c) (rounds ts words (perform ts n q) left c')
  | 0, c', k, hleft, hle, hends => by
    refine .done ⟨hle, fun t ht => ?_, k, rfl, fun _ => rfl⟩ rfl
    exact absurd (List.getElem?_eq_some_iff.1 ht).1 (Nat.not_lt.2 hleft)
  | left + 1, c', k, hleft, hle, hends => by
    rw [Descent.rounds]
    rcases next_or ts words c' with ⟨t, ht, hmem⟩ | hnot
    · rw [ifNext_of_mem ht hmem, pass_of_ok ht (hwords t (List.mem_of_getElem? ht) hmem k)]
      have hnext : c.position ≤ c'.next.position := hle.trans (Nat.le_succ _)
      refine ((ih q c'.next k fs (hstarts _)).mono (hdeep _ hnext) fun _ _ h => h).bind ?_
      rintro c₁ s₁ ⟨hle₁, hends₁, k₁, rfl, hk₁⟩
      have hleft₁ : ts.length ≤ c₁.position + left := by
        have : c'.position + 1 ≤ c₁.position := hle₁
        omega
      refine (ih.rounds hstarts hwords hdeep left c₁ k₁ hleft₁ (hnext.trans hle₁) hends₁).mono id ?_
      rintro c₂ s₂ ⟨hle₂, hends₂, k₂, rfl, hk₂⟩
      exact ⟨hle₂, hends₂, k₂, rfl, fun hq => (hk₂ hq).trans (hk₁ hq)⟩
    · rw [ifNext_of_not_mem hnot]
      exact .done ⟨hle, hnot.append hends, k, rfl, fun _ => rfl⟩ rfl

/-- Operands with words between them. -/
theorem Followed.series (ih : Followed ts n) (hstarts : ∀ c, q.Starts ts c)
    (hwords : ∀ t ∈ ts, t.text ∈ words → ∀ k, step ⟨.operator false, k, fs⟩ t = .ok (q.enter k fs))
    (hdeep : ∀ c', c.position ≤ c'.position → n ≤ q.cost ts c' → deep) :
    Follows ts deep (pass ts (q.enter k fs) c) (Ended ts (words ++ q.goesOn) q.tight k fs c)
      (series ts words (perform ts n q) c) := by
  refine ((ih q c k fs (hstarts c)).mono (hdeep c le_rfl) fun _ _ h => h).bind ?_
  rintro c₁ s₁ ⟨hle₁, hends₁, k₁, rfl, hk₁⟩
  refine (ih.rounds hstarts hwords hdeep ts.length c₁ k₁ (Nat.le_add_left _ _) hle₁ hends₁).mono id ?_
  rintro c₂ s₂ ⟨hle₂, hends₂, k₂, rfl, hk₂⟩
  exact ⟨hle₂, hends₂, k₂, rfl, fun hq => (hk₂ hq).trans (hk₁ hq)⟩

/-- A construct that consists of operands with words between them. -/
theorem Followed.operands (ih : Followed ts n) (henter : p.enter k fs = q.enter k fs)
    (hgoesOn : p.goesOn = words ++ q.goesOn) (htight : p.tight = q.tight) (hrank : q.rank < p.rank)
    (hstarts : ∀ c, q.Starts ts c)
    (hwords : ∀ t ∈ ts, t.text ∈ words → ∀ k, step ⟨.operator false, k, fs⟩ t = .ok (q.enter k fs)) :
    Follows ts (n + 1 ≤ p.cost ts c) (pass ts (p.enter k fs) c) (p.Ended ts k fs c)
      (Descent.series ts words (perform ts n q) c) := by
  rw [henter, Procedure.Ended, hgoesOn, htight]
  exact ih.series hstarts hwords fun c' hle hn => lt_of_le_of_lt hn (cost_lt_of_rank hle hrank)

/-- A construct that may come after words that change nothing. -/
theorem Followed.prefixed (ih : Followed ts n) (hgoesOn : p.goesOn = q.goesOn)
    (htight : q.tight = false → p.tight = false) (hrank : q.rank < p.rank) (hp : ∀ c, p.Starts ts c)
    (hnest : ∀ w ∈ words, w ∈ nestWords)
    (hwords : ∀ t ∈ ts, t.text ∈ words → step (p.enter k fs) t = .ok (p.enter k fs))
    (hother : EndsAt ts words c → q.Starts ts c ∧ pass ts (p.enter k fs) c = pass ts (q.enter k fs) c) :
    Follows ts (n + 1 ≤ p.cost ts c) (pass ts (p.enter k fs) c) (p.Ended ts k fs c)
      (ifNext ts words (perform ts n p) (perform ts n q) c) := by
  rcases next_or ts words c with ⟨t, ht, hmem⟩ | hnot
  · rw [ifNext_of_mem ht hmem, pass_of_ok ht (hwords t (List.mem_of_getElem? ht) hmem)]
    exact (ih.inner (hp _) (cost_lt_of_nest ht (hnest _ hmem) le_rfl le_rfl _ _)).mono id fun _ _ h => h.of_next
  · obtain ⟨hstarts, hpass⟩ := hother hnot
    rw [ifNext_of_not_mem hnot, hpass]
    refine (ih.inner hstarts (cost_lt_of_rank le_rfl hrank)).mono id ?_
    rintro c' s' ⟨hle, hends, k', rfl, hk⟩
    refine ⟨hle, hgoesOn ▸ hends, k', rfl, fun ht => hk ?_⟩
    cases hq : q.tight with
    | true => rfl
    | false => rw [htight hq] at ht; cases ht

theorem step_connective (ht : t.role = .connective) (k : Bool) (fs : List Frame) :
    step ⟨.operator false, k, fs⟩ t = .ok ⟨.operand true, false, fs⟩ := by
  simp only [step, readOperator, ht]

theorem step_arithmetic (ht : t.role = .arithmetic ∨ t.role = .minus) (k : Bool) (fs : List Frame) :
    step ⟨.operator false, k, fs⟩ t = .ok ⟨.operand false, k, fs⟩ := by
  rcases ht with ht | ht <;> simp only [step, readOperator, ht]

/-- Sums that are compared, or one of them alone. -/
theorem Followed.comparison (hts : ∀ t ∈ ts, t.Legible) (ih : Followed ts n) :
    Follows ts (n + 1 ≤ Procedure.comparison.cost ts c) (pass ts ⟨.operand false, false, fs⟩ c)
      (Procedure.comparison.Ended ts k fs c) (perform ts (n + 1) .comparison c) := by
  have hcost : ∀ {c'}, c.position ≤ c'.position → Procedure.sum.cost ts c' < Procedure.comparison.cost ts c :=
    fun hle => cost_lt_of_rank hle (by decide)
  rw [perform]
  refine (ih.inner (q := .sum) (k := false) trivial (hcost le_rfl)).bind ?_
  rintro c₁ s₁ ⟨hle, hends, k₁, rfl, hk⟩
  obtain rfl : k₁ = false := hk rfl
  have hrole : ∀ {t : Token} {c' : Cursor}, ts[c'.position]? = some t → t.text ∈ comparisonWords →
      t.role = .comparison := fun ht =>
    Token.Legible.role_eq (hts _ (List.mem_of_getElem? ht)) comparisonTokens (by decide)
  rcases next_or ts comparisonWords c₁ with ⟨t, ht, hmem⟩ | hnot
  · have hstep : step ⟨.operator false, false, fs⟩ t = .ok ⟨.operand false, true, fs⟩ := by
      simp only [step, readOperator, hrole ht hmem]
      rfl
    have hnext : c.position ≤ c₁.next.position := hle.trans (Nat.le_succ _)
    rw [ifNext_of_mem ht hmem, pass_of_ok ht hstep]
    refine (ih.inner (q := .sum) (k := true) trivial (hcost hnext)).bind ?_
    rintro c₂ s₂ ⟨hle', hends', k₂, rfl, hk'⟩
    obtain rfl : k₂ = true := hk' rfl
    rcases next_or ts comparisonWords c₂ with ⟨u, hu, hmem'⟩ | hnot
    · rw [sees_of_mem hu hmem']
      refine Follows.refused (p := .chainedComparison) (pass_of_error hu ?_)
      simp only [step, readOperator, hrole hu hmem']
      rfl
    · rw [sees_of_not_mem hnot]
      exact .done ⟨hnext.trans hle', hnot.append hends', true, rfl, (absurd · Bool.false_ne_true)⟩ rfl
  · rw [ifNext_of_not_mem hnot]
    exact .done ⟨hle, hnot.append hends, false, rfl, (absurd · Bool.false_ne_true)⟩ rfl

/-- What must stand behind an expression in parentheses, and what is reported if it does not. -/
theorem expect_close (hts : ∀ t ∈ ts, t.Legible) (hends : EndsAt ts Procedure.disjunction.goesOn c) {f : Frame}
    (hcomma : f.call = true → ∀ t, ts[c.position]? = some t → t.text ≠ Operator.comma.text) :
    Follows ts deep (pass ts ⟨.operator false, k, f :: fs⟩ c)
      (fun c' s => c' = c.next ∧ s = ⟨.operator false, f.compared, fs⟩) (expect ts .closeParen c) := by
  cases ht : ts[c.position]? with
  | none =>
    rw [expect_of_ne (fun t ht' => by rw [ht] at ht'; cases ht'), ht]
    exact Follows.refused (p := .unclosed none) (pass_of_none ht)
  | some t =>
    have hlegible := hts t (List.mem_of_getElem? ht)
    by_cases hclose : t.text = Operator.closeParen.text
    · rw [expect_of_eq ht hclose]
      refine .done ⟨rfl, rfl⟩ (pass_of_ok ht ?_)
      rw [(hlegible.operator_iff _).1 hclose]
      rfl
    · have hne : ∀ u, ts[c.position]? = some u → u.text ≠ Operator.closeParen.text := by
        intro u hu
        cases ht.symm.trans hu
        exact hclose
      have hknown : (Place.known? (some t.text)).getD "end of expression".toList = t.text := by
        obtain ⟨d, r, htext⟩ := List.exists_cons_of_ne_nil hlegible.text_ne_nil
        rw [htext]
        rfl
      rw [expect_of_ne hne, ht, Option.map_some, hknown]
      refine Follows.refused (p := .unclosed (some t)) (pass_of_error ht ?_)
      obtain ⟨hconnective, hcomparison, harithmetic, hminus⟩ := role_of_not_mem (hends t ht)
      have hclosed : t.role ≠ .closeParen := fun hr => hclose (by rw [role_eq_iff.1 hr]; rfl)
      obtain ⟨call, compared⟩ := f
      have hargument : t.role = .comma → call = false := by
        intro hr
        cases call with
        | false => rfl
        | true => exact absurd (by rw [role_eq_iff.1 hr]; rfl) (hcomma rfl t ht)
      simp only [step, readOperator]
      split
      case h_7 hr => rw [hargument hr]; rfl
      all_goals first | rfl | contradiction

theorem role_name_of_not_mem {w : Text} (hkeyword : ¬ keywords.contains w = true) :
    (Token.name w).role = .identifier :=
  role_eq_iff.2 fun h => hkeyword (by simpa [reserved, keywords, constantWords] using h)

/-- A value, a name, a call or an expression in parentheses. -/
theorem Followed.primary (hts : ∀ t ∈ ts, t.Legible) (ih : Followed ts n) (hstarts : Procedure.primary.Starts ts c) :
    Follows ts (n + 1 ≤ Procedure.primary.cost ts c) (pass ts ⟨.operand false, k, fs⟩ c)
      (Procedure.primary.Ended ts k fs c) (perform ts (n + 1) .primary c) := by
  rw [perform]
  cases ht : ts[c.position]? with
  | none =>
    rw [operand_of_none ht]
    exact .refused (pass_of_none ht)
  | some t =>
    have hvalue : t.role = .literal → Follows ts (n + 1 ≤ Procedure.primary.cost ts c)
        (pass ts ⟨.operand false, k, fs⟩ c) (Procedure.primary.Ended ts k fs c) (.ok () c.next) := by
      intro hr
      refine .done ⟨Nat.le_succ _, fun _ _ => List.not_mem_nil, k, rfl, fun _ => rfl⟩ (pass_of_ok ht ?_)
      simp only [step, readOperand, hr]
    rw [operand_of_some ht]
    cases t with
    | reference _ | number _ | string _ => exact hvalue rfl
    | name w =>
      dsimp only
      split_ifs with hconstant hkeyword
      · exact hvalue (role_eq_iff.2 (.inr (by simpa [constantWords, constantTokens] using hconstant)))
      · refine Follows.refused (p := .missingOperand (.name w)) (pass_of_error ht ?_)
        obtain rfl | rfl | rfl : w = "and".toList ∨ w = "or".toList ∨ w = "not".toList := by
          have hmem := List.mem_append.1 (List.contains_iff_mem.1 hkeyword)
          simpa using hmem.resolve_left (hconstant ∘ List.contains_iff_mem.2)
        all_goals rfl
      · have hstep : step ⟨.operand false, k, fs⟩ (.name w) = .ok ⟨.operator true, k, fs⟩ := by
          simp only [step, readOperand, role_name_of_not_mem hkeyword]
        rw [pass_of_ok ht hstep]
        rcases next_or ts [Operator.openParen.text] c.next with ⟨u, hu, hmem⟩ | hnot
        · rw [sees_of_mem hu hmem]
          have hcost : Procedure.arguments.cost ts c.next < Procedure.primary.cost ts c :=
            cost_lt_of_rank (Nat.le_succ c.position) (by decide)
          exact (ih.inner (q := .arguments) ⟨u, hu, List.mem_singleton.1 hmem⟩ hcost).mono id fun _ _ h => h.of_next
        · rw [sees_of_not_mem hnot]
          exact .done ⟨Nat.le_succ _, fun _ _ => List.not_mem_nil, k, rfl, fun _ => rfl⟩
            (pass_uncalled fun u hu htext => hnot u hu (List.mem_singleton.2 htext))
    | operator op =>
      dsimp only
      split_ifs with hopen
      · obtain rfl : op = .openParen := by
          have := ((hts _ (List.mem_of_getElem? ht)).operator_iff .openParen).1 hopen
          injection this
        have hstep : step ⟨.operand false, k, fs⟩ (.operator .openParen) =
            .ok ⟨.operand true, false, ⟨false, k⟩ :: fs⟩ := rfl
        rw [pass_of_ok ht hstep]
        have hcost := cost_lt_of_nest ht (by decide) le_rfl le_rfl .primary .disjunction
        refine (ih.inner (q := .disjunction) (k := k) trivial hcost).bind ?_
        rintro c' s' ⟨hle, hends, k', rfl, -⟩
        refine (expect_close hts hends (absurd · Bool.false_ne_true)).mono id ?_
        rintro c'' s'' ⟨rfl, rfl⟩
        exact ⟨(Nat.le_succ _).trans (hle.trans (Nat.le_succ _)), fun _ _ => List.not_mem_nil, k, rfl, fun _ => rfl⟩
      · refine Follows.refused (p := .missingOperand (.operator op)) (pass_of_error ht ?_)
        have hminus : op ≠ .minus := by
          rintro rfl
          exact hstarts _ ht (List.mem_singleton_self _)
        cases op <;> first | rfl | contradiction

/-- The arguments of a call, from the parenthesis that opens it on. -/
theorem Followed.arguments (hts : ∀ t ∈ ts, t.Legible) (ih : Followed ts n)
    (hstarts : Procedure.arguments.Starts ts c) :
    Follows ts (n + 1 ≤ Procedure.arguments.cost ts c) (pass ts ⟨.operator true, k, fs⟩ c)
      (Procedure.arguments.Ended ts k fs c) (perform ts (n + 1) .arguments c) := by
  obtain ⟨t, ht, htext⟩ := hstarts
  have hlegible : ∀ {u} {c' : Cursor}, ts[c'.position]? = some u → u.Legible := fun hu =>
    hts _ (List.mem_of_getElem? hu)
  have hopen : step ⟨.operator true, k, fs⟩ t = .ok ⟨.argument, false, ⟨true, k⟩ :: fs⟩ := by
    rw [((hlegible ht).operator_iff _).1 htext]
    rfl
  rw [perform, bind_apply, expect_of_eq ht htext, pass_of_ok ht hopen]
  dsimp only
  rcases next_or ts [Operator.closeParen.text] c.next with ⟨u, hu, hmem⟩ | hnot
  · rw [ifNext_of_mem hu hmem]
    refine .done ⟨(Nat.le_succ _).trans (Nat.le_succ _), fun _ _ => List.not_mem_nil, k, rfl, fun _ => rfl⟩
      (pass_of_ok hu ?_)
    rw [((hlegible hu).operator_iff _).1 (List.mem_singleton.1 hmem)]
    rfl
  · have hcomma : ∀ u ∈ ts, u.text ∈ [Operator.comma.text] → ∀ k',
        step ⟨.operator false, k', ⟨true, k⟩ :: fs⟩ u = .ok ⟨.operand true, false, ⟨true, k⟩ :: fs⟩ := by
      intro u hu hmem k'
      rw [((hts u hu).operator_iff _).1 (List.mem_singleton.1 hmem)]
      rfl
    have hnest : t.text ∈ nestWords := by
      rw [htext]
      decide
    rw [ifNext_of_not_mem hnot, pass_argument fun u hu htext => hnot u hu (List.mem_singleton.2 htext)]
    refine (ih.series (c := c.next) (k := k) (q := .disjunction) (fun _ => trivial) hcomma fun c' hle hn =>
      lt_of_le_of_lt hn (cost_lt_of_nest ht hnest le_rfl hle .arguments .disjunction)).bind ?_
    rintro c₁ s₁ ⟨hle, hends, k₁, rfl, -⟩
    have hlast : EndsAt ts Procedure.disjunction.goesOn c₁ := fun u hu hmem =>
      hends u hu (List.mem_append_right _ hmem)
    refine (expect_close hts hlast fun _ u hu htext => hends u hu (List.mem_append_left _ (by simp [htext]))).mono id ?_
    rintro c₂ s₂ ⟨rfl, rfl⟩
    exact ⟨(Nat.le_succ _).trans (hle.trans (Nat.le_succ _)), fun _ _ => List.not_mem_nil, k, rfl, fun _ => rfl⟩

/-- Every procedure comes to what the pass comes to, unless it needs more room than there is. -/
theorem perform_follows (hts : ∀ t ∈ ts, t.Legible) : ∀ n, Followed ts n := by
  intro n
  induction n with
  | zero => exact fun _ _ _ _ _ => .tooDeep (Nat.zero_le _)
  | succ n ih =>
    intro p c k fs hstarts
    cases p with
    | disjunction =>
      refine ih.operands (p := .disjunction) (q := .conjunction) rfl rfl rfl (by decide) (fun _ => trivial)
        fun t ht hmem k => ?_
      exact step_connective ((hts t ht).role_eq orTokens (by decide) hmem) k fs
    | conjunction =>
      refine ih.operands (p := .conjunction) (q := .negation) rfl rfl rfl (by decide) (fun _ => trivial)
        fun t ht hmem k => ?_
      exact step_connective ((hts t ht).role_eq andTokens (by decide) hmem) k fs
    | negation =>
      refine ih.prefixed (p := .negation) (q := .comparison) rfl (fun _ => rfl) (by decide) (fun _ => trivial)
        (by decide) (fun t ht hmem => ?_) fun hnot => ?_
      · have hrole : t.role = .negation := (hts t ht).role_eq notTokens (by decide) hmem
        simp only [Procedure.enter, step, readOperand, hrole]
        rfl
      · exact ⟨trivial, pass_plain hnot⟩
    | comparison => exact ih.comparison hts
    | sum =>
      refine ih.operands (p := .sum) (q := .product) rfl rfl rfl (by decide) (fun _ => trivial)
        fun t ht hmem k => step_arithmetic ?_ k fs
      rcases List.mem_cons.1 hmem with h | h
      · exact .inl (by rw [((hts t ht).operator_iff _).1 h]; rfl)
      · exact .inr (by rw [((hts t ht).operator_iff _).1 (List.mem_singleton.1 h)]; rfl)
    | product =>
      refine ih.operands (p := .product) (q := .signed) rfl (List.append_nil _).symm rfl (by decide)
        (fun _ => trivial) fun t ht hmem k => step_arithmetic ?_ k fs
      exact .inl ((hts t ht).role_eq productTokens (by decide) hmem)
    | signed =>
      refine ih.prefixed (p := .signed) (q := .primary) rfl (fun h => h) (by decide) (fun _ => trivial)
        (by decide) (fun t ht hmem => ?_) fun hnot => ?_
      · rw [((hts t ht).operator_iff _).1 (List.mem_singleton.1 hmem)]
        rfl
      · exact ⟨hnot, rfl⟩
    | primary => exact ih.primary hts hstarts
    | arguments => exact ih.arguments hts hstarts

/-- The check of tokens by descent comes to what the pass over them comes to, unless it needs more
room than there is. -/
theorem result_check (hts : ∀ t ∈ ts, t.Legible) (room : Nat) :
    result (check ts room) = (checkTokens ts).mapError (fun p => .refused p.message) ∨
      result (check ts room) = .error .tooDeep ∧ room ≤ 9 * nesting ts + 8 := by
  cases hempty : ts.isEmpty with
  | true =>
    rw [checkTokens, if_pos hempty, result, check, if_pos hempty]
    exact .inl rfl
  | false =>
    have hfollows := perform_follows hts room .disjunction {} false [] trivial
    have hwhole : checkTokens ts = pass ts (Procedure.disjunction.enter false []) {} := by
      rw [checkTokens, hempty]
      rfl
    rw [hwhole, result, check, if_neg (by rw [hempty]; exact Bool.false_ne_true), bind_apply]
    revert hfollows
    generalize perform ts room .disjunction {} = r
    rintro (⟨⟨-, hends, k, rfl, -⟩, hpass⟩ | hpass | hdeep)
    · rename_i c
      rw [hpass]
      dsimp only
      rw [bind_apply, peek_apply]
      cases ht : ts[c.position]? with
      | none =>
        rw [pass_of_none ht]
        exact .inl rfl
      | some t =>
        obtain ⟨hconnective, hcomparison, harithmetic, hminus⟩ := role_of_not_mem (hends t ht)
        have hstray : step ⟨.operator false, k, []⟩ t = .error (.strayToken t) := by
          simp only [step, readOperator]
          split <;> first | rfl | contradiction
        rw [pass_of_error ht hstray]
        exact .inl rfl
    · rw [hpass]
      exact .inl rfl
    · exact .inr ⟨rfl, hdeep⟩

/-! ## Nested parentheses -/

/-- There is not room enough for a procedure. -/
def Exhausted (ts : List Token) (room : Nat) (p : Procedure) (c : Cursor) : Prop :=
  ∃ c', perform ts room p c = .error .tooDeep c'

/-- The next tokens open so many parentheses. -/
def Opens (ts : List Token) (m : Nat) (c : Cursor) : Prop :=
  ∀ i < m, ts[c.position + i]? = some (.operator .openParen)

theorem series_of_error {item : Step Unit} {e : Stop} (h : item c = .error e c') :
    series ts words item c = .error e c' := by
  unfold series
  rw [bind_apply, h]

/-- Each parenthesis that is opened takes eight calls, one within the other. -/
theorem exhausted_of_opens : ∀ (room : Nat) (p : Procedure) (m : Nat) (c : Cursor), p ≠ .arguments → Opens ts m c →
    room + 8 ≤ 8 * m + p.rank → Exhausted ts room p c
  | 0, _, _, _, _, _, _ => ⟨_, rfl⟩
  | room + 1, p, m, c, hp, hopens, hroom => by
    have hm : 0 < m := by
      have := p.rank_le
      omega
    have hnext : ts[c.position]? = some (.operator .openParen) := hopens 0 hm
    have hother : ∀ words : List Text, Operator.openParen.text ∉ words → EndsAt ts words c := by
      intro words hnot t ht
      rw [hnext] at ht
      cases ht
      exact hnot
    have hinner : ∀ q : Procedure, q ≠ .arguments → q.rank + 1 = p.rank → Exhausted ts room q c := fun q hq hrank =>
      exhausted_of_opens room q m c hq hopens (by omega)
    cases p with
    | arguments => exact absurd rfl hp
    | disjunction => exact (hinner .conjunction nofun rfl).imp fun _ => series_of_error
    | conjunction => exact (hinner .negation nofun rfl).imp fun _ => series_of_error
    | negation =>
      obtain ⟨c', h⟩ := hinner .comparison nofun rfl
      exact ⟨c', (ifNext_of_not_mem (hother notWords (by decide)) _ _).trans h⟩
    | comparison =>
      obtain ⟨c', h⟩ := hinner .sum nofun rfl
      refine ⟨c', ?_⟩
      rw [perform, bind_apply, h]
    | sum => exact (hinner .product nofun rfl).imp fun _ => series_of_error
    | product => exact (hinner .signed nofun rfl).imp fun _ => series_of_error
    | signed =>
      obtain ⟨c', h⟩ := hinner .primary nofun rfl
      exact ⟨c', (ifNext_of_not_mem (hother _ (by decide)) _ _).trans h⟩
    | primary =>
      have hopens' : Opens ts (m - 1) c.next := by
        intro i hi
        have := hopens (i + 1) (by omega)
        rwa [Nat.add_comm i 1, ← Nat.add_assoc] at this
      have hroom' : room + 8 ≤ 8 * (m - 1) + Procedure.disjunction.rank := by
        simp only [Procedure.rank] at hroom ⊢
        omega
      obtain ⟨c', h⟩ := exhausted_of_opens room .disjunction (m - 1) c.next nofun hopens' hroom'
      refine ⟨c', ?_⟩
      rw [perform, operand_of_some hnext]
      dsimp only
      rw [if_pos rfl, bind_apply, h]

end Descent

/-! ## Texts -/

/-- The tokens of a condition nest so deeply that the room may be too small for the check of it. -/
def Deep (room : Nat) (text : Text) : Prop :=
  ∃ ts, tokens (stripBraces text) = .ok ts ∧ room ≤ 9 * Descent.nesting ts + 8

/-- The check of a text by descent comes to what the check by one pass comes to: it accepts the same
texts, and refuses the others with the same reports. Only for a text that nests deeply may there be
too little room instead. -/
theorem checkByDescent_cases (room : Nat) (text : Text) (needsExpression : Bool) :
    checkByDescent room text needsExpression = (check text needsExpression).mapError (fun p => .refused p.message) ∨
      checkByDescent room text needsExpression = .error .tooDeep ∧ Deep room text := by
  cases needsExpression with
  | false => exact .inl rfl
  | true =>
    show _ = (checkExpression (stripBraces text)).mapError _ ∨ _
    unfold Deep
    rw [checkByDescent, if_pos rfl, checkExpression]
    cases h : tokens (stripBraces text) with
    | error c => exact .inl rfl
    | ok ts =>
      exact (Descent.result_check (legible_of_tokens h) room).imp id fun hdeep => ⟨hdeep.1, ts, rfl, hdeep.2⟩

/-! ## Nested parentheses in texts -/

/-- A number in so many pairs of parentheses, one within the other. -/
def nested (n : Nat) : Text := List.replicate n '(' ++ '1' :: List.replicate n ')'

/-- The tokens of a number in so many pairs of parentheses. -/
def nestedTokens (n : Nat) : List Token :=
  List.replicate n (.operator .openParen) ++ .number ['1'] :: List.replicate n (.operator .closeParen)

theorem tokens_replicate {ch : Char} {t : Token} (hblank : Text.isBlank ch = false) (htext : t.text = [ch])
    (hfirst : ∀ r, Token.first? (ch :: r) = some t) (r : Text) : ∀ n,
    tokens (List.replicate n ch ++ r) = (tokens r).map (List.replicate n t ++ ·)
  | 0 => by
    show tokens r = _
    cases tokens r <;> rfl
  | n + 1 => by
    rw [List.replicate_succ, List.cons_append, tokens, tokensFrom, hblank, hfirst, if_neg Bool.false_ne_true]
    dsimp only
    rw [htext]
    show (tokens (List.replicate n ch ++ r)).map (t :: ·) = _
    rw [tokens_replicate hblank htext hfirst r n]
    cases tokens r <;> rfl

theorem tokens_nested (n : Nat) : tokens (nested n) = .ok (nestedTokens n) := by
  have hopen : ∀ r, Token.first? ('(' :: r) = some (.operator .openParen) := by
    have hdigit : Text.isDecimalDigit '(' = false := by decide +kernel
    simp [Token.first?, referenceLength?, numberLength, stringLength?, Operator.first?, hdigit]
  have hdigit : Text.isDecimalDigit ')' = false := by decide +kernel
  have hclose : ∀ r, Token.first? (')' :: r) = some (.operator .closeParen) := by
    simp [Token.first?, referenceLength?, numberLength, stringLength?, Operator.first?, hdigit]
  have hnumber : Token.first? ('1' :: List.replicate n ')') = some (.number ['1']) := by
    have hone : Text.isDecimalDigit '1' = true := by decide +kernel
    cases n <;> simp [Token.first?, referenceLength?, numberLength, List.replicate_succ, hdigit, hone]
  have hend := tokens_replicate (by decide) rfl hclose [] n
  rw [List.append_nil] at hend
  have hrest : tokens ('1' :: List.replicate n ')') =
      .ok (.number ['1'] :: List.replicate n (.operator .closeParen)) := by
    rw [tokens, tokensFrom, hnumber]
    show (tokens (List.replicate n ')')).map _ = _
    rw [hend]
    simp [tokens, tokensFrom, Except.map]
  rw [nested, tokens_replicate (by decide) rfl hopen, hrest]
  rfl

theorem run_opens (fs : List Frame) (ts : List Token) : ∀ n,
    run ⟨.operand true, false, fs⟩ (List.replicate n (.operator .openParen) ++ ts) =
      run ⟨.operand true, false, List.replicate n ⟨false, false⟩ ++ fs⟩ ts
  | 0 => rfl
  | n + 1 => by
    rw [List.replicate_succ', List.append_assoc, run_opens fs _ n]
    rfl

theorem run_closes (fs : List Frame) : ∀ n,
    run ⟨.operator false, false, List.replicate n ⟨false, false⟩ ++ fs⟩ (List.replicate n (.operator .closeParen)) =
      finish ⟨.operator false, false, fs⟩
  | 0 => rfl
  | n + 1 => run_closes fs n

/-- However much room there is for the check, it is too small for a number in parentheses enough,
which is a condition all the same. -/
theorem checkByDescent_nested {room n : Nat} (h : room ≤ 8 * n) :
    check (nested n) true = .ok () ∧ checkByDescent room (nested n) true = .error .tooDeep := by
  have htokens : tokens (stripBraces (nested n)) = .ok (nestedTokens n) := by
    have hlone : ∀ p, nestedTokens n ≠ [.reference p] := by
      cases n <;> simp [nestedTokens, List.replicate_succ]
    rw [stripBraces_of_tokens (tokens_nested n) hlone, tokens_trim, tokens_nested]
  have hne : (nestedTokens n).isEmpty = false := by simp [nestedTokens]
  constructor
  · show checkExpression (stripBraces (nested n)) = _
    rw [checkExpression, htokens]
    show checkTokens (nestedTokens n) = _
    rw [checkTokens, hne, if_neg Bool.false_ne_true, nestedTokens]
    show run ⟨.operand true, false, []⟩ _ = _
    rw [run_opens]
    show run ⟨.operator false, false, _⟩ _ = _
    rw [run_closes]
    rfl
  · have hopens : Descent.Opens (nestedTokens n) n {} := by
      intro i hi
      show (nestedTokens n)[0 + i]? = _
      rw [Nat.zero_add, nestedTokens, List.getElem?_append_left (by rwa [List.length_replicate]),
        List.getElem?_replicate, if_pos hi]
    obtain ⟨c, hdeep⟩ :=
      Descent.exhausted_of_opens room .disjunction n {} (by simp) hopens (Nat.add_le_add_right h 8)
    rw [checkByDescent, if_pos rfl, htokens]
    dsimp only
    rw [Descent.result, Descent.check, hne, if_neg Bool.false_ne_true, Descent.bind_apply, hdeep]

end LangGen.Condition
