/-
Variations and their grammar. The check of a variation is one pass with the delimiters that are
open. What it accepts are the texts in which delimiters are paired and nested and no braces hold
blanks only (`check_wellDelimited`): the pass over such a text leaves the open delimiters as they
were, but for what it has seen between them (`problemFrom_append`), and where a pass ends without a
problem, such texts stand before, between and behind the delimiters that it has closed
(`closes_of_problemFrom`).
-/
import LangGen.Catalog.Reading
import LangGen.Proofs.Text.Trim

namespace LangGen.Variation

variable {d : Delimiter} {o : Opened} {os stack : List Opened} {c : Char} {inner p r s w : Text}

/-! ## The grammar -/

/-- Texts in which delimiters are paired and nested, and a backslash takes the next character with it. -/
inductive Delimited : Text → Prop
  | nil : Delimited []
  | char {c : Char} {s : Text} : c ∉ ['\\', '{', '}', '[', ']'] → Delimited s → Delimited (c :: s)
  | escaped (c : Char) {s : Text} : Delimited s → Delimited ('\\' :: c :: s)
  | bracket {inner s : Text} : Delimited inner → Delimited s → Delimited ('[' :: (inner ++ ']' :: s))
  | brace {inner s : Text} : Delimited inner → Text.trim inner ≠ [] → Delimited s →
      Delimited ('{' :: (inner ++ '}' :: s))

/-- A text that is not blank and, up to a backslash at its very end that takes no character with it,
delimited. -/
def WellDelimited (s : Text) : Prop := Text.trim s ≠ [] ∧ ∃ w, Delimited w ∧ (s = w ∨ s = w ++ ['\\'])

theorem Delimited.pair (hinner : Delimited inner) (hblank : d = .brace → Text.allBlank inner = false)
    (hs : Delimited s) : Delimited (d.opener :: (inner ++ d.closer :: s)) := by
  cases d with
  | brace => exact .brace hinner (Text.trim_eq_nil_iff.not.2 (by simp [hblank rfl])) hs
  | bracket => exact .bracket hinner hs

/-! ## One step of the pass -/

theorem problemFrom_char (hc : c ∉ ['\\', '{', '}', '[', ']']) (stack : List Opened) (r : Text) :
    problemFrom false stack (c :: r) = problemFrom false (touch c stack) r := by
  simp only [List.mem_cons, List.not_mem_nil, or_false, not_or] at hc
  obtain ⟨hback, hbrace, hbrace', hbracket, hbracket'⟩ := hc
  simp [problemFrom, Delimiter.ofOpener?, Delimiter.ofCloser?, hback, hbrace, hbrace', hbracket, hbracket']

theorem problemFrom_opener (d : Delimiter) (stack : List Opened) (r : Text) :
    problemFrom false stack (d.opener :: r) = problemFrom false (⟨d, true⟩ :: touch d.opener stack) r := by
  cases d <;> rfl

theorem problemFrom_closer_nil (d : Delimiter) (r : Text) :
    problemFrom false [] (d.closer :: r) = some (.unbalanced d.closer) := by
  cases d <;> rfl

theorem problemFrom_closer (d : Delimiter) (o : Opened) (os : List Opened) (r : Text) :
    problemFrom false (o :: os) (d.closer :: r) =
      if o.kind ≠ d then some (.unbalanced d.closer)
      else if d = .brace ∧ o.blank then some .emptyBraces
      else problemFrom false (touch d.closer os) r := by
  cases d <;> rfl

/-- Every character is a plain one, a backslash or a delimiter. -/
theorem char_cases (c : Char) :
    c ∉ ['\\', '{', '}', '[', ']'] ∨ c = '\\' ∨ ∃ d : Delimiter, c = d.opener ∨ c = d.closer := by
  by_cases hc : c ∈ ['\\', '{', '}', '[', ']']
  · simp only [List.mem_cons, List.not_mem_nil, or_false] at hc
    rcases hc with rfl | rfl | rfl | rfl | rfl
    · exact .inr (.inl rfl)
    · exact .inr (.inr ⟨.brace, .inl rfl⟩)
    · exact .inr (.inr ⟨.brace, .inr rfl⟩)
    · exact .inr (.inr ⟨.bracket, .inl rfl⟩)
    · exact .inr (.inr ⟨.bracket, .inr rfl⟩)
  · exact .inl hc

/-! ## What has been seen -/

/-- The open delimiters after a text inside the innermost of them. -/
def mark (p : Text) : List Opened → List Opened
  | [] => []
  | o :: os => { o with blank := o.blank && Text.allBlank p } :: os

theorem touch_eq_mark (c : Char) (stack : List Opened) : touch c stack = mark [c] stack := by
  cases stack <;> simp [touch, mark, Text.allBlank]

theorem mark_mark (p q : Text) (stack : List Opened) : mark q (mark p stack) = mark (p ++ q) stack := by
  cases stack <;> simp [mark, Text.allBlank, Bool.and_assoc]

@[simp] theorem mark_nil (stack : List Opened) : mark [] stack = stack := by
  cases stack <;> simp [mark, Text.allBlank]

/-- An opening delimiter is no blank, so what comes behind it does not change what has been seen. -/
theorem mark_opener (d : Delimiter) (p q : Text) (stack : List Opened) :
    mark (d.opener :: p) stack = mark (d.opener :: q) stack := by
  have hopener : Text.isBlank d.opener = false := by cases d <;> decide
  cases stack <;> simp [mark, Text.allBlank, hopener]

/-- A delimited text is passed over. -/
theorem problemFrom_append (h : Delimited w) : ∀ (stack : List Opened) (r : Text),
    problemFrom false stack (w ++ r) = problemFrom false (mark w stack) r := by
  have hpair : ∀ {inner s : Text} (d : Delimiter), (d = .brace → Text.allBlank inner = false) →
      (∀ stack r, problemFrom false stack (inner ++ r) = problemFrom false (mark inner stack) r) →
      (∀ stack r, problemFrom false stack (s ++ r) = problemFrom false (mark s stack) r) →
      ∀ stack r, problemFrom false stack (d.opener :: (inner ++ d.closer :: s) ++ r) =
        problemFrom false (mark (d.opener :: (inner ++ d.closer :: s)) stack) r := by
    intro inner s d hblank hinner hs stack r
    have hseen : ¬ (d = .brace ∧ (true && Text.allBlank inner) = true) := by
      rintro ⟨hd, hall⟩
      rw [hblank hd] at hall
      cases hall
    calc problemFrom false stack (d.opener :: (inner ++ d.closer :: s) ++ r)
        = problemFrom false (⟨d, true⟩ :: touch d.opener stack) (inner ++ d.closer :: (s ++ r)) := by
          rw [List.cons_append, problemFrom_opener, List.append_assoc, List.cons_append]
      _ = problemFrom false (touch d.closer (touch d.opener stack)) (s ++ r) := by
          rw [hinner, mark, problemFrom_closer, if_neg (not_not.2 rfl), if_neg hseen]
      _ = problemFrom false (mark (d.opener :: (inner ++ d.closer :: s)) stack) r := by
          rw [hs, touch_eq_mark, touch_eq_mark, mark_mark, mark_mark]
          exact congrArg (problemFrom false · r) (mark_opener d _ _ stack)
  induction h with
  | nil => intro stack r; rw [mark_nil]; rfl
  | char hc _ ih =>
    intro stack r
    rw [List.cons_append, problemFrom_char hc, ih, touch_eq_mark, mark_mark]
    rfl
  | escaped c _ ih =>
    intro stack r
    show problemFrom false (touch c (touch '\\' stack)) (_ ++ r) = _
    rw [ih, touch_eq_mark, touch_eq_mark, mark_mark, mark_mark]
    rfl
  | bracket _ _ hinner hs => exact hpair .bracket (by simp) hinner hs
  | brace _ hblank _ hinner hs =>
    exact hpair .brace (fun _ => by simpa using Text.trim_eq_nil_iff.not.1 hblank) hinner hs

/-! ## What closes open delimiters -/

/-- What may come behind open delimiters: delimited texts with the closing delimiters between them,
so that no braces hold blanks only. -/
inductive Closes : List Opened → Text → Prop
  | done {w : Text} : Delimited w → Closes [] w
  | cut {w : Text} : Delimited w → Closes [] (w ++ ['\\'])
  | close {o : Opened} {os : List Opened} {w r : Text} : Delimited w →
      (o.kind = .brace → (o.blank && Text.allBlank w) = false) → Closes (touch o.kind.closer os) r →
      Closes (o :: os) (w ++ o.kind.closer :: r)

/-- What closes delimiters may have a text in front that delimited texts may have in front. -/
theorem Closes.prepend (hp : ∀ w, Delimited w → Delimited (p ++ w)) (h : Closes (mark p stack) r) :
    Closes stack (p ++ r) := by
  cases stack with
  | nil =>
    cases h with
    | done hw => exact .done (hp _ hw)
    | cut hw => rw [← List.append_assoc]; exact .cut (hp _ hw)
  | cons o os =>
    cases h with
    | close hw hblank hr =>
      rw [← List.append_assoc]
      refine .close (hp _ hw) (fun ho => ?_) hr
      rw [← hblank ho, Text.allBlank, List.all_append, ← Bool.and_assoc]
      rfl

/-- A pass that ends without a problem has closed what was open. -/
theorem closes_of_problemFrom : ∀ (s : Text) (escaped : Bool) (stack : List Opened),
    problemFrom escaped (if escaped then touch '\\' stack else stack) s = none →
      Closes stack (if escaped then '\\' :: s else s)
  | [], false, [], _ => .done .nil
  | [], true, [], _ => .cut .nil
  | [], false, _ :: _, h => by cases h
  | [], true, _ :: _, h => by cases h
  | c :: r, true, stack, h => by
    have hr := closes_of_problemFrom r false (touch c (touch '\\' stack)) h
    rw [touch_eq_mark, touch_eq_mark, mark_mark] at hr
    exact hr.prepend (p := ['\\', c]) fun w hw => .escaped c hw
  | c :: r, false, stack, h => by
    change problemFrom false stack (c :: r) = none at h
    show Closes stack (c :: r)
    rcases char_cases c with hc | rfl | ⟨d, rfl | rfl⟩
    · rw [problemFrom_char hc] at h
      have hr := closes_of_problemFrom r false (touch c stack) h
      rw [touch_eq_mark] at hr
      exact hr.prepend (p := [c]) fun w hw => .char hc hw
    · exact closes_of_problemFrom r true stack h
    · -- what closes the new delimiter first goes between the pair
      rw [problemFrom_opener] at h
      have hr := closes_of_problemFrom r false (⟨d, true⟩ :: touch d.opener stack) h
      cases hr with
      | @close _ _ w r hw hblank hr =>
        have hmark : touch d.closer (touch d.opener stack) = mark (d.opener :: (w ++ [d.closer])) stack := by
          rw [touch_eq_mark, touch_eq_mark, mark_mark]
          exact mark_opener d _ _ stack
        rw [hmark] at hr
        have hpair := hr.prepend fun v hv => by
          have hdelimited := hw.pair (d := d) (fun hd => by simpa using hblank hd) hv
          simpa using hdelimited
        simpa using hpair
    · cases stack with
      | nil => rw [problemFrom_closer_nil] at h; cases h
      | cons o os =>
        rw [problemFrom_closer] at h
        split at h
        · cases h
        split at h
        · cases h
        rename_i hkind hblank
        obtain rfl := not_not.1 hkind
        have hr := closes_of_problemFrom r false (touch o.kind.closer os) h
        refine .close .nil (fun ho => ?_) hr
        simpa [ho, Text.allBlank] using hblank

/-! ## Variations -/

theorem problem?_eq_none_iff (s : Text) : problem? s = none ↔ WellDelimited s := by
  unfold problem? WellDelimited
  rw [ne_eq, Text.trim_eq_nil_iff]
  by_cases hblank : Text.allBlank s = true
  · rw [if_pos hblank]
    exact iff_of_false (by simp) fun h => h.1 hblank
  rw [if_neg hblank]
  constructor
  · intro h
    refine ⟨hblank, ?_⟩
    cases closes_of_problemFrom s false [] h with
    | done hw => exact ⟨s, hw, .inl rfl⟩
    | @cut w hw => exact ⟨w, hw, .inr rfl⟩
  · rintro ⟨-, w, hw, rfl | rfl⟩
    · rw [← List.append_nil s, problemFrom_append hw]
      rfl
    · rw [problemFrom_append hw]
      rfl

/-- The check accepts the well-delimited texts and no others. A text that is refused is left out,
or, when strict, it is reported as it is, together with what is wrong with it. -/
theorem check_wellDelimited (s : Text) :
    (problem? s = none ↔ WellDelimited s) ∧
      (WellDelimited s → ∀ strict, check strict s = .ok true) ∧
      (¬ WellDelimited s → check false s = .ok false ∧
        ∃ p, problem? s = some p ∧ check true s = .error p ∧
          ∀ b : Body, b.addVariation true s = ⟨b, some { fault := .invalidVariation s p.message }⟩) := by
  refine ⟨problem?_eq_none_iff s, fun h strict => ?_, fun h => ?_⟩
  · rw [check, (problem?_eq_none_iff s).2 h]
  · obtain ⟨p, hp⟩ := Option.ne_none_iff_exists'.1 fun hnone => h ((problem?_eq_none_iff s).1 hnone)
    have hcheck : ∀ strict, check strict s = if strict then .error p else .ok false := fun strict => by
      rw [check, hp]
    refine ⟨hcheck false, p, hp, hcheck true, fun b => ?_⟩
    rw [Body.addVariation, hcheck true]
    rfl

/-- The brace behind the backslash opens nothing, the backslash at the end takes nothing with it,
and the braces in the brackets hold a tab only. -/
theorem check_wellDelimited_emptyBraces :
    let s := "\\\x7b [see \x7b\t\x7d]\\".toList
    ¬ WellDelimited s ∧ check false s = .ok false ∧ check true s = .error .emptyBraces ∧
      ∀ b : Body, b.addVariation true s = ⟨b, some { fault := .invalidVariation s Problem.emptyBraces.message }⟩ := by
  intro s
  have hproblem : problem? s = some .emptyBraces := by decide
  obtain ⟨hiff, -, hrefused⟩ := check_wellDelimited s
  have hnot : ¬ WellDelimited s := fun h => by rw [hiff.2 h] at hproblem; cases hproblem
  obtain ⟨hlenient, p, hp, hstrict, hfault⟩ := hrefused hnot
  obtain rfl : Problem.emptyBraces = p := Option.some.inj (hproblem.symm.trans hp)
  exact ⟨hnot, hlenient, hstrict, hfault⟩

end LangGen.Variation
