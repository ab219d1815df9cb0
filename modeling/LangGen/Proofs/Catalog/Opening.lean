/-
Which lines open a branch. A branch that is there is opened again without a check of the text, so it
must be known which conditions can be there: well-formed expressions, and the word of the default
branch (`Body.Reachable.condition_cases`). So a branch is opened exactly if its text passes the
check, or if it passes the check of the other kind of branch and such a branch is there. The line of
a default branch cannot get there by an expression, but the line of a condition gets to the default
branch by the word for it (`Body.opens_iff_check`).
-/
import LangGen.Proofs.Catalog.Admission
import LangGen.Proofs.Catalog.Clean
import LangGen.Proofs.Condition.Spacing

namespace LangGen

open Line

/-! ## The word of the default branch -/

/-- What starts with the word of the default branch is no expression: no token starts with a colon. -/
theorem check_trim_elseWord (rest : Text) : Condition.check (Text.trim (elseWord ++ rest)) true ≠ .ok () := by
  have hname : Text.Dotted ['E', 'L', 'S', 'E'] := Text.dotted_iff.2 ⟨by decide, by decide +kernel⟩
  have hends : Text.EndsName (':' :: rest) := by intro c hc; cases hc; decide +kernel
  have hcolon : Condition.tokens (':' :: rest) = .error ':' :=
    Condition.tokens_of_first?_eq_none (by decide)
      (Condition.Token.first?_of_start (by decide) (by decide +kernel) (by decide +kernel) rest)
  have htokens : Condition.tokens (elseWord ++ rest) = .error ':' := by
    have hword := Condition.tokens_of_longest (Condition.longest_name hname hends)
    rw [hcolon] at hword
    exact hword
  -- the text starts with a letter, so there are no braces to take off
  have hstrip : Condition.stripBraces (Text.trim (elseWord ++ rest)) = Text.trim (elseWord ++ rest) := by
    rcases Condition.stripBraces_cases (Text.trim (elseWord ++ rest)) with ⟨e, he, -⟩ | ⟨-, hstrip⟩
    · have hhead : Text.trim (elseWord ++ rest) = 'E' :: _ :=
        Text.trimEnd_cons (by decide) (['L', 'S', 'E', ':'] ++ rest)
      rw [Text.trim_trim, hhead] at he
      cases he
    · rw [hstrip, Text.trim_trim]
  intro h
  have hbare : Condition.Bare (Condition.stripBraces (Text.trim (elseWord ++ rest))) := h
  rw [hstrip, Condition.bare_trim] at hbare
  obtain ⟨ts, hts⟩ := hbare.tokens
  rw [htokens] at hts
  cases hts

/-! ## Where reading leads -/

namespace Body

/-- The bodies that reading leads to: that of a template before its first line, after any readings
and merges of catalogs that were empty, and what a further line makes of one of them. -/
inductive Reachable : Body → Prop
  | start (steps : List Shelf.Step) (slot : Nat) {header name : Text} (hname : name = Text.trim header)
      (h0 : name ≠ []) : Reachable
        ⟨(Shelf.run steps slot).entities, ⟨(Shelf.run steps slot).templateOr name, .template⟩⟩
  | line {b : Body} (strict : Bool) (line : Text) (h : b.Reachable) : Reachable (b.readLine strict line).state

variable {b : Body}

theorem Reachable.clean (h : b.Reachable) : b.Clean := by
  induction h with
  | @start steps slot header name hname h0 =>
    have hc : (Shelf.run steps slot).Clean :=
      Shelf.run_keeps Catalog.Clean.empty (fun _ _ _ => .effect) (fun _ _ h => h.merge) steps slot
    refine ⟨hc.entities, ?_, fun _ h => by cases h⟩
    show ((Shelf.run steps slot).templateOr name).Clean (Shelf.run steps slot).known
    unfold Catalog.templateOr
    cases hfound : (Shelf.run steps slot).lastTemplate? name with
    | none => exact clean_named hname h0
    | some t => exact hc.templates t (Catalog.lastTemplate?_eq_some hfound).1
  | line strict line _ ih => exact ih.readLine line

/-- The conditions that are there, the one of a branch that is still open included. -/
theorem Reachable.condition_cases (h : b.Reachable) {condition : Text} (hc : condition ∈ b.draft.conditions) :
    condition = elseWord ∨ Condition.check condition true = .ok () := by
  obtain ⟨branch, hbranch, rfl⟩ := List.mem_map.1 hc
  have hclean := (h.clean.draft.settle.template.branches branch hbranch).condition
  by_cases hword : branch.condition = elseWord
  · exact .inl hword
  · exact .inr (not_not.1 (mt hclean.2 hword))

end Body

/-! ## Opening a branch -/

/-- What is wrong with a branch that is not opened is what the check of its text says. -/
theorem Draft.openBranch_problem {d : Draft} {condition : Text} {needs : Bool} {p : Condition.Problem}
    (h : (d.openBranch condition needs).2 = some p) : Condition.check condition needs = .error p := by
  unfold openBranch at h
  dsimp only at h
  split at h
  · cases h
  · split at h
    · rename_i q hq
      cases h
      exact hq
    · cases h

theorem default_of_payload? {line condition : Text} {p : Payload} (hp : payload? line = some p)
    (hbranch : p.branch? = some (condition, false)) : ∃ rest, condition = Text.trim (elseWord ++ rest) := by
  obtain ⟨-, mark, payload, -, htext⟩ := payload?_eq_some hp
  cases p with
  | condition text => cases hbranch
  | variation text => cases hbranch
  | default text =>
    cases hbranch
    exact ofText_eq_default htext

theorem Body.Reachable.openBranch_succeeds {b : Body} (h : b.Reachable) (condition : Text) (needs : Bool) :
    (b.draft.openBranch condition needs).2 = none ↔ Condition.check condition needs = .ok () ∨
      condition ∈ b.draft.conditions ∧ (needs = true ∧ condition = elseWord ∨
        needs = false ∧ Condition.check condition true = .ok ()) := by
  rw [Draft.openBranch_succeeds]
  constructor
  · rintro (hthere | hok)
    · rcases h.condition_cases hthere with rfl | hexpression
      · cases needs with
        | true => exact .inr ⟨hthere, .inl ⟨rfl, rfl⟩⟩
        | false => exact .inl (by decide)
      · cases needs with
        | true => exact .inl hexpression
        | false => exact .inr ⟨hthere, .inr ⟨rfl, hexpression⟩⟩
    · exact .inl hok
  · rintro (hok | ⟨hthere, -⟩)
    · exact .inr hok
    · exact .inl hthere

/-- A line that says a branch is read as its text says, on its own: it is the text of a branch of
its kind, or else the line needs a condition, its text is the word of the default branch, and the
default branch is there. -/
theorem Body.Reachable.readLine_branch {b : Body} (h : b.Reachable) (strict : Bool) {line condition : Text}
    {p : Payload} {needs : Bool} (hp : payload? line = some p) (hbranch : p.branch? = some (condition, needs)) :
    (b.readLine strict line).failure = none ↔ Condition.check condition needs = .ok () ∨
      needs = true ∧ condition = elseWord ∧ elseWord ∈ b.draft.conditions := by
  have hread : (b.readLine strict line).failure = none ↔ (b.draft.openBranch condition needs).2 = none := by
    rw [readLine_of_payload? strict b hp, readPayload_of_branch? _ _ hbranch, openBranch_failure,
      Option.map_eq_none_iff]
  rw [hread, h.openBranch_succeeds]
  refine or_congr_right ⟨?_, fun ⟨hneeds, hword, hthere⟩ => ⟨hword ▸ hthere, .inl ⟨hneeds, hword⟩⟩⟩
  rintro ⟨hthere, ⟨hneeds, rfl⟩ | ⟨rfl, hexpression⟩⟩
  · exact ⟨hneeds, rfl, hthere⟩
  · obtain ⟨rest, rfl⟩ := default_of_payload? hp hbranch
    exact absurd hexpression (check_trim_elseWord rest)

/-- Wherever reading has led, a branch is opened exactly if the check of its text says so, or if the
text is the condition of a branch that is there and passes the check of the other kind; if it is not
opened, the problem is the one that the check tells. Among lines, only one that needs a condition
can pass in this way, with the word of the default branch for a text, where the default branch is
there. -/
theorem Body.opens_iff_check {b : Body} (h : b.Reachable) :
    (∀ condition needs, ((b.draft.openBranch condition needs).2 = none ↔
        Condition.check condition needs = .ok () ∨ condition ∈ b.draft.conditions ∧
          (needs = true ∧ condition = elseWord ∨ needs = false ∧ Condition.check condition true = .ok ())) ∧
      ∀ p, (b.draft.openBranch condition needs).2 = some p → Condition.check condition needs = .error p) ∧
      ∀ strict line p condition needs, payload? line = some p → p.branch? = some (condition, needs) →
        ((b.readLine strict line).failure = none ↔ Condition.check condition needs = .ok () ∨
          needs = true ∧ condition = elseWord ∧ elseWord ∈ b.draft.conditions) ∧
        ∀ f, (b.readLine strict line).failure = some f → ∃ q, Condition.check condition needs = .error q ∧
          f = { fault := .invalidCondition condition q.message } := by
  refine ⟨fun condition needs => ⟨h.openBranch_succeeds condition needs, fun p => Draft.openBranch_problem⟩, ?_⟩
  intro strict line p condition needs hp hbranch
  refine ⟨h.readLine_branch strict hp hbranch, fun f hf => ?_⟩
  rw [readLine_of_payload? strict b hp, readPayload_of_branch? _ _ hbranch, openBranch_failure] at hf
  obtain ⟨q, hq, rfl⟩ := Option.map_eq_some_iff.1 hf
  exact ⟨q, Draft.openBranch_problem hq, rfl⟩

/-- A line that needs a condition gets to the default branch of its template by the word for it.
Without that branch the same line fails. -/
theorem Body.opens_iff_check_reopened :
    let fresh : Body := ⟨(Shelf.run [] 0).entities, ⟨(Shelf.run [] 0).templateOr "A".toList, .template⟩⟩
    let b := (fresh.readLine false "- ELSE:".toList).state
    let line := "- IF: ELSE:".toList
    (b.readLine false line).failure = none ∧ ∃ q, Condition.check elseWord true = .error q ∧
      (fresh.readLine false line).failure = some { fault := .invalidCondition elseWord q.message } := by
  intro fresh b line
  have hfresh : fresh.Reachable := @Body.Reachable.start [] 0 " A".toList "A".toList (by decide +kernel) (by decide)
  have hb : b.Reachable := .line false "- ELSE:".toList hfresh
  have hp : payload? line = some (.condition elseWord) := by decide +kernel
  have hthere : elseWord ∈ b.draft.conditions := by decide +kernel
  have hopened := ((Body.opens_iff_check hb).2 false line _ elseWord true hp rfl).1.2 (.inr ⟨rfl, rfl, hthere⟩)
  refine ⟨hopened, ?_⟩
  -- without the default branch nothing but the check can let the line pass
  obtain ⟨hiff, hfault⟩ := (Body.opens_iff_check hfresh).2 false line _ elseWord true hp rfl
  have hfails : (fresh.readLine false line).failure ≠ none := by decide +kernel
  obtain ⟨f, hf⟩ := Option.ne_none_iff_exists'.1 hfails
  obtain ⟨q, hq, rfl⟩ := hfault f hf
  exact ⟨q, hq, hf⟩

/-- The check of its text alone does not tell whether a branch is opened. -/
theorem Body.reopens_unchecked :
    ¬ ∀ b : Body, b.Reachable → ∀ condition needs, Text.trim condition = condition →
      ((b.draft.openBranch condition needs).2 = none ↔ Condition.check condition needs = .ok ()) := by
  intro h
  have hfresh : Body.Reachable ⟨(Shelf.run [] 0).entities, ⟨(Shelf.run [] 0).templateOr "A".toList, .template⟩⟩ :=
    @Body.Reachable.start [] 0 " A".toList "A".toList (by decide +kernel) (by decide)
  have hb := hfresh.line false "- ELSE:".toList
  have hchecked : Condition.check elseWord true = .ok () :=
    (h _ hb elseWord true (by decide)).1 (by decide +kernel)
  exact absurd hchecked (by decide +kernel)

end LangGen
