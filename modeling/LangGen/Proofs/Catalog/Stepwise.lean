/-
Reading step by step runs into no mishap but one: the check of a condition may need more room for
its calls than there is. Of a template that is being read, plain lines go to a branch exactly while
one is active, and a branch that is pending is the one that is active, is found by its condition,
and is not yet among the branches of the template (`Draft.Sound`); every line keeps this, wherever
it ends, so a variation always finds where it goes. Members of lists are taken from places that have
been seen to be there, and tokens likewise. A run therefore ends as reading without all this ends,
unless it comes to a condition that nests too deeply (`readChunks_comesTo`).
-/
import LangGen.Catalog.Stepwise
import LangGen.Proofs.Catalog.Indexed
import LangGen.Proofs.Condition.Descent
import LangGen.Proofs.Text.Lines

namespace LangGen.Stepwise

open Indexed (Index Rows)
open Condition.Descent (Cursor Safe perform safe_perform check safe_check)

/-! ## Runs -/

/-- What each reading keeps a run keeps, wherever it ends. -/
theorem readEach_keeps {σ α : Type} {read : Nat → σ → α → Run σ} {P : σ → Prop}
    (h : ∀ n s x, P s → P (read n s x).state) : ∀ (xs : List α) (n : Nat) (s : σ), P s → P (readEach read n s xs).state
  | [], _, _, hs => hs
  | x :: xs, n, s, hs => by
    have hs' := h n s x hs
    rw [readEach]
    revert hs'
    rcases read n s x with ⟨s', _ | e⟩
    · exact fun hs' => readEach_keeps h xs (n + 1) s' hs'
    · exact id

/-- A run comes to an outcome, unless it ends at a condition that nests deeply for want of room. -/
def Run.ComesTo {σ : Type} (room : Nat) (r : Run σ) (o : Outcome σ) : Prop :=
  r = .of o ∨ ∃ condition, r.ending = some (.mishap (.tooDeep condition)) ∧ Condition.Deep room condition

section Runs

variable {σ τ : Type} {room : Nat} {r : Run σ} {o : Outcome σ}

theorem Run.ComesTo.within (h : r.ComesTo room o) (p : Place) : (r.within p).ComesTo room (o.within p) := by
  rcases h with rfl | ⟨condition, hending, hdeep⟩
  · refine .inl ?_
    obtain ⟨s, _ | f⟩ := o <;> rfl
  · refine .inr ⟨condition, ?_, hdeep⟩
    unfold Run.within
    rw [hending]
    rfl

/-- Readings that come to outcomes, up to the way the state is seen, make runs that come to outcomes. -/
theorem readEach_comesTo {α : Type} (read : Nat → σ → α → Outcome σ) {read' : Nat → τ → α → Run τ} {f : σ → τ}
    (h : ∀ n s x, (read' n (f s) x).ComesTo room ((read n s x).map f)) :
    ∀ (xs : List α) (n : Nat) (s : σ), (readEach read' n (f s) xs).ComesTo room ((LangGen.readEach read n s xs).map f)
  | [], _, _ => .inl rfl
  | x :: xs, n, s => by
    rw [readEach, readEach_cons]
    rcases h n s x with hread | ⟨condition, hending, hdeep⟩
    · rw [hread]
      rcases read n s x with ⟨s', _ | e⟩
      · exact readEach_comesTo read h xs (n + 1) s'
      · exact .inl rfl
    · refine .inr ⟨condition, ?_, hdeep⟩
      revert hending
      rcases read' n (f s) x with ⟨s', _ | e⟩
      · exact nofun
      · exact id

end Runs

/-! ## Members of lists -/

theorem item?_eq (line : Text) : item? line = .ok (Line.item? line) := by
  unfold item? Line.item?
  cases Text.trimStart line <;> rfl

theorem problemFrom_eq (s : Text) : ∀ (escaped : Bool) (stack : List Variation.Opened),
    problemFrom escaped stack s = .ok (Variation.problemFrom escaped stack s) := by
  induction s with
  | nil =>
    intro escaped stack
    unfold problemFrom Variation.problemFrom
    cases stack <;> rfl
  | cons c r ih =>
    intro escaped stack
    unfold problemFrom Variation.problemFrom
    simp only [ih]
    split
    · rfl
    split
    · rfl
    cases Variation.Delimiter.ofOpener? c with
    | some kind => rfl
    | none =>
      cases Variation.Delimiter.ofCloser? c with
      | none => rfl
      | some kind =>
        cases stack with
        | nil => rfl
        | cons o os =>
          show (if o.kind ≠ kind then _ else _ : Except Mishap (Option Variation.Problem)) = _
          dsimp only
          split_ifs <;> rfl

theorem problem?_eq (s : Text) : problem? s = .ok (Variation.problem? s) := by
  unfold problem? Variation.problem?
  rw [problemFrom_eq]
  split_ifs <;> rfl

theorem member_append {α : Type} {xs ys : List α} {i : Nat} {y : α} (h : ys[i]? = some y) :
    member (xs ++ ys) (xs.length + i) = .ok y := by
  unfold member
  rw [List.getElem?_append_right (Nat.le_add_right _ _), Nat.add_sub_cancel_left, h]

/-- The attributes in the words from a place on, in groups of three. -/
theorem mapM_attributeAt (before : List Text) : ∀ words : List Text,
    (List.range' before.length ((words.length + 2) / 3) 3).mapM (attributeAt (before ++ words)) =
      .ok (LangGen.Catalog.attributesOf words)
  | [] => rfl
  | key :: words => by
    have hkey : member (before ++ key :: words) before.length = .ok key := member_append (i := 0) rfl
    match words with
    | [] | [_] => simp [attributeAt, hkey, List.range'_succ, LangGen.Catalog.attributesOf]
    | mark :: value :: rest =>
      have hvalue : member (before ++ key :: mark :: value :: rest) (before.length + 2) = .ok value :=
        member_append rfl
      have hfirst : attributeAt (before ++ key :: mark :: value :: rest) before.length = .ok ⟨key, some value⟩ := by
        unfold attributeAt
        rw [hkey, hvalue]
        show (if before.length + 2 < (before ++ key :: mark :: value :: rest).length then _ else _ :
          Except Mishap Attribute) = _
        rw [if_pos (by simp)]
        rfl
      have hrest : (List.range' (before.length + 3) ((rest.length + 2) / 3) 3).mapM
          (attributeAt (before ++ key :: mark :: value :: rest)) = .ok (LangGen.Catalog.attributesOf rest) := by
        simpa using mapM_attributeAt (before ++ [key, mark, value]) rest
      have hcount : ((key :: mark :: value :: rest).length + 2) / 3 = (rest.length + 2) / 3 + 1 := by
        simp only [List.length_cons]
        omega
      rw [hcount, List.range'_succ, List.mapM_cons, hfirst, hrest]
      rfl

theorem attributesOf_cons (type : Text) (words : List Text) :
    attributesOf (type :: words) = .ok (LangGen.Catalog.attributesOf words) := mapM_attributeAt [type] words

theorem entityOf?_eq (line : Text) : entityOf? line = .ok (LangGen.Catalog.entityOf? line) := by
  unfold entityOf? LangGen.Catalog.entityOf?
  rcases (line.drop 1).splitOn ':' with _ | ⟨name, _ | ⟨definition, _ | ⟨more, parts⟩⟩⟩
  · rfl
  · rfl
  · show (if (Text.trim name).isEmpty = true ∨ (Text.words definition).isEmpty = true then _ else _ :
      Except Mishap (Option Entity)) = _
    dsimp only
    cases Text.trim name with
    | nil => rfl
    | cons ch chs =>
      cases Text.words definition with
      | nil => rfl
      | cons type rest =>
        rw [if_neg (by simp), attributesOf_cons]
        rfl
  · rfl

/-! ## Drafts -/

namespace Draft

/-- What holds of a template at every step of its reading. -/
structure Sound (d : Draft) : Prop where
  /-- Plain lines go to a branch exactly if one is active. -/
  conditional_iff : d.mode = .conditional ↔ d.active.isSome = true
  active_lt : ∀ i ∈ d.active, i < d.made.length
  pending_active : ∀ i ∈ d.pending, d.active = some i
  /-- A branch that is still to join is found by its condition. -/
  pending_indexed : ∀ i ∈ d.pending, ∃ b, d.made[i]? = some b ∧ d.conditions.place? b.condition = some i
  /-- A branch that is still to join has not joined before. -/
  pending_new : ∀ i ∈ d.pending, i ∉ d.branches
  branches_lt : ∀ i ∈ d.branches, i < d.made.length
  indexed_lt : ∀ condition i, d.conditions.place? condition = some i → i < d.made.length

variable {d : Draft}

theorem settle_pending (d : Draft) : d.settle.pending = none := by
  unfold settle
  cases h : d.pending with
  | none => exact h
  | some i => rfl

theorem Sound.start (t : Template) : (start t).Sound where
  conditional_iff := ⟨nofun, nofun⟩
  active_lt := nofun
  pending_active := nofun
  pending_indexed := nofun
  pending_new := nofun
  branches_lt _ hi := List.mem_range.1 hi
  indexed_lt _ _ hi := (Index.place?_lt hi).trans_eq (List.length_map _)

theorem Sound.settle (h : d.Sound) : d.settle.Sound := by
  unfold Draft.settle
  cases hp : d.pending with
  | none => exact h
  | some i =>
    have hi : i < d.made.length := h.active_lt i (h.pending_active i hp)
    refine ⟨h.conditional_iff, h.active_lt, nofun, nofun, nofun, fun j hj => ?_, h.indexed_lt⟩
    rcases List.mem_append.1 hj with hj | hj
    · exact h.branches_lt j hj
    · rwa [List.mem_singleton.1 hj]

/-- A draft stays sound when a branch is opened, also if the check of its condition ends otherwise. -/
theorem Sound.openBranch (h : d.Sound) (room : Nat) (condition : Text) (needs : Bool) :
    (d.openBranch room condition needs).1.Sound := by
  have hs := h.settle
  have hpending := settle_pending d
  unfold Draft.openBranch
  dsimp only
  generalize d.settle = d at hs hpending
  cases hplace : d.conditions.place? condition with
  | some i =>
    refine ⟨⟨fun _ => rfl, fun _ => rfl⟩, fun j hj => ?_, ?_, ?_, ?_, hs.branches_lt, hs.indexed_lt⟩
    · cases hj
      exact hs.indexed_lt condition i hplace
    all_goals
      intro j hj
      rw [hpending] at hj
      cases hj
  | none =>
    dsimp only
    cases Condition.checkByDescent room condition needs with
    | error stop => exact hs
    | ok u =>
      have hlt : ∀ {i}, i < d.made.length → i < (d.made ++ [(⟨condition, []⟩ : Branch)]).length := fun hi => by
        rw [List.length_append]
        exact Nat.lt_add_right _ hi
      have hnew : d.made.length < (d.made ++ [(⟨condition, []⟩ : Branch)]).length := by simp
      refine ⟨⟨fun _ => rfl, fun _ => rfl⟩, fun j hj => ?_, fun j hj => ?_, fun j hj => ?_, fun j hj hmem => ?_,
        fun j hj => hlt (hs.branches_lt j hj), fun other j hj => ?_⟩
      · cases hj
        exact hnew
      · cases hj
        rfl
      · cases hj
        refine ⟨⟨condition, []⟩, List.getElem?_concat_length, ?_⟩
        rw [Index.place?_cons, if_pos rfl]
      · cases hj
        exact absurd (hs.branches_lt _ hmem) (Nat.lt_irrefl _)
      · rw [Index.place?_cons] at hj
        split at hj
        · cases hj
          exact hnew
        · exact hlt (hs.indexed_lt other j hj)

/-- A variation finds where it goes. -/
theorem Sound.addVariation (h : d.Sound) (v : Text) : ∃ d', d.addVariation v = .ok d' ∧ d'.Sound := by
  unfold Draft.addVariation
  cases hmode : d.mode with
  | flat =>
    exact ⟨_, rfl, hmode ▸ h.conditional_iff, h.active_lt, h.pending_active, h.pending_indexed, h.pending_new,
      h.branches_lt, h.indexed_lt⟩
  | conditional =>
    obtain ⟨i, hi⟩ := Option.isSome_iff_exists.1 (h.conditional_iff.1 hmode)
    rw [hi]
    have hlength : (d.made.modify i (·.addVariation v)).length = d.made.length := List.length_modify _ _ _
    refine ⟨_, rfl, ⟨fun _ => rfl, fun _ => rfl⟩, fun j hj => ?_, fun j hj => hi.symm.trans (h.pending_active j hj),
      fun j hj => ?_, h.pending_new, ?_, ?_⟩
    · rw [hlength]
      exact h.active_lt j (hi.trans hj)
    · -- a branch keeps its condition
      obtain ⟨b, hb, hplace⟩ := h.pending_indexed j hj
      refine ⟨if i = j then b.addVariation v else b, ?_, ?_⟩
      · rw [List.getElem?_modify, hb]
        split_ifs <;> rfl
      · split_ifs <;> exact hplace
    · simpa only [hlength] using h.branches_lt
    · simpa only [hlength] using h.indexed_lt

example : ({ start { name := [] } with mode := .conditional } : Draft).addVariation [] = .error .noBranch := rfl

end Draft

/-! ## Lines -/

namespace Body

variable {b : Body} (room : Nat) (strict : Bool)

theorem openBranch_keeps (h : b.draft.Sound) (condition : Text) (needs : Bool) :
    (b.openBranch room condition needs).state.draft.Sound := by
  have hopen := h.openBranch room condition needs
  unfold openBranch
  revert hopen
  rcases b.draft.openBranch room condition needs with ⟨d, _ | _⟩ <;> exact id

theorem addVariation_keeps (h : b.draft.Sound) (v : Text) : (b.addVariation strict v).state.draft.Sound := by
  obtain ⟨d, hadd, hd⟩ := h.addVariation v
  unfold addVariation
  rw [problem?_eq, hadd]
  cases Variation.problem? v with
  | some p => exact h
  | none => exact hd

theorem readPayload_keeps (h : b.draft.Sound) (payload : Line.Payload) :
    (b.readPayload room strict payload).state.draft.Sound := by
  cases payload with
  | condition text => exact openBranch_keeps room h text true
  | default text => exact openBranch_keeps room h text false
  | variation text => exact addVariation_keeps strict h text

/-- A line keeps what holds of the draft, whatever comes of it. -/
theorem readLine_keeps (h : b.draft.Sound) (line : Text) : (b.readLine room strict line).state.draft.Sound := by
  unfold readLine
  split
  · exact h
  · dsimp only
    rw [item?_eq]
    cases Line.item? (Line.collapseLinks line) with
    | none => exact h
    | some item =>
      let mentioned := (Line.mentions (Line.collapseLinks line)).foldl Indexed.Body.addMention b.entities
      exact readPayload_keeps (b := ⟨mentioned, b.draft⟩) room strict h (.ofText item.2)

end Body

/-- However many lines of a template are read, its draft is sound. -/
theorem readLines_keeps (room : Nat) (strict : Bool) (c : Indexed.Catalog) (t : Template) (lines : List Text) :
    (readLines room strict c t lines).state.draft.Sound := by
  have hline : ∀ (n : Nat) (b : Body) (line : Text), b.draft.Sound →
      (b.readNumbered room strict n line).state.draft.Sound :=
    fun _ _ line h => Body.readLine_keeps room strict h line
  exact readEach_keeps (P := fun b : Body => b.draft.Sound) hline lines 2 ⟨c.entities, .start t⟩ (Draft.Sound.start t)

/-! ## With indexes alone -/

theorem filterMap_range_getElem? {α : Type} (xs : List α) :
    ∀ n ≤ xs.length, (List.range n).filterMap (xs[·]?) = xs.take n := by
  intro n
  induction n with
  | zero => exact fun _ => rfl
  | succ n ih =>
    intro hn
    have hget : xs[n]? = some xs[n] := List.getElem?_eq_getElem hn
    rw [List.range_succ, List.filterMap_append, ih (Nat.le_of_succ_le hn), List.take_add_one, hget,
      List.filterMap_cons_some hget]
    rfl

namespace Draft

/-- A draft that was read with indexes, with the branches that it has made. -/
def of (d : Indexed.Draft) : Draft :=
  match d.target with
  | .template => { start d.template with conditions := d.conditions }
  | .branch i => { start d.template with conditions := d.conditions, mode := .conditional, active := some i }
  | .fresh b =>
    { start d.template with
      made := d.template.branches ++ [b]
      conditions := d.conditions
      mode := .conditional
      active := some d.template.branches.length
      pending := some d.template.branches.length }

theorem of_template (d : Indexed.Draft) : (of d).template = d.template := by
  rcases d with ⟨⟨name, variations, branches⟩, conditions, _ | i | b⟩
  all_goals
    simp only [of, start, template]
    rw [filterMap_range_getElem? _ _ (by simp)]
    simp

theorem of_settle (d : Indexed.Draft) : of d.settle = (of d).settle := by
  rcases d with ⟨⟨name, variations, branches⟩, conditions, _ | i | b⟩
  · rfl
  · rfl
  · simp [of, Indexed.Draft.settle, settle, start, List.range_succ]

theorem of_settle_template (d : Indexed.Draft) : (of d).settle.template = d.settle.template := by
  rw [← of_settle, of_template]

/-- A branch is opened as with indexes alone, or the room for the check of its condition is too small. -/
theorem of_openBranch (room : Nat) (d : Indexed.Draft) (condition : Text) (needs : Bool) :
    (of d).openBranch room condition needs = (of (d.openBranch condition needs).1,
        (d.openBranch condition needs).2.elim (.ok ()) fun p => .error (.refused p.message)) ∨
      ((of d).openBranch room condition needs).2 = .error .tooDeep ∧ Condition.Deep room condition := by
  unfold openBranch Indexed.Draft.openBranch
  dsimp only
  rw [← of_settle]
  -- a settled draft has made no branch outside of its template
  have hsettled : ∀ b, d.settle.target ≠ .fresh b := by
    rcases d with ⟨t, conditions, _ | i | b⟩ <;> exact nofun
  generalize d.settle = d at hsettled
  rcases d with ⟨t, conditions, _ | i | b⟩
  case fresh => exact absurd rfl (hsettled b)
  all_goals
    dsimp only [of]
    cases conditions.place? condition with
    | some i => exact .inl rfl
    | none =>
      dsimp only
      rcases Condition.checkByDescent_cases room condition needs with hcheck | ⟨hcheck, hdeep⟩
      · rw [hcheck]
        cases Condition.check condition needs <;> exact .inl rfl
      · rw [hcheck]
        exact .inr ⟨rfl, hdeep⟩

theorem of_addVariation (d : Indexed.Draft) (v : Text) : (of d).addVariation v = .ok (of (d.addVariation v)) := by
  rcases d with ⟨⟨name, variations, branches⟩, conditions, _ | i | b⟩
  · rfl
  · simp [of, addVariation, start, Indexed.Draft.addVariation]
  · simp [of, addVariation, start, Indexed.Draft.addVariation, Indexed.modify_concat_length]

end Draft

namespace Body

/-- What the lines of a template change, with the branches that have been made. -/
def of (b : Indexed.Body) : Body := ⟨b.entities, .of b.draft⟩

variable (room : Nat) (strict : Bool)

theorem openBranch_comesTo (b : Indexed.Body) (condition : Text) (needs : Bool) :
    ((of b).openBranch room condition needs).ComesTo room ((b.openBranch condition needs).map of) := by
  unfold openBranch Indexed.Body.openBranch
  rw [show (of b).draft = .of b.draft from rfl]
  rcases Draft.of_openBranch room b.draft condition needs with hopen | ⟨hopen, hdeep⟩
  · rw [hopen]
    rcases b.draft.openBranch condition needs with ⟨d, _ | p⟩ <;> exact .inl rfl
  · refine .inr ⟨condition, ?_, hdeep⟩
    revert hopen
    rcases (Draft.of b.draft).openBranch room condition needs with ⟨d, stop | _⟩
    · rintro ⟨⟩
      rfl
    · exact nofun

theorem of_addVariation (b : Indexed.Body) (v : Text) :
    (of b).addVariation strict v = .of ((b.addVariation strict v).map of) := by
  unfold addVariation Indexed.Body.addVariation Variation.check
  rw [show (of b).draft = .of b.draft from rfl, problem?_eq, Draft.of_addVariation]
  cases Variation.problem? v with
  | none => rfl
  | some p => cases strict <;> rfl

theorem readPayload_comesTo (b : Indexed.Body) (payload : Line.Payload) :
    ((of b).readPayload room strict payload).ComesTo room ((b.readPayload strict payload).map of) := by
  cases payload with
  | condition text => exact openBranch_comesTo room b text true
  | default text => exact openBranch_comesTo room b text false
  | variation text => exact .inl (of_addVariation strict b text)

theorem readLine_comesTo (b : Indexed.Body) (line : Text) :
    ((of b).readLine room strict line).ComesTo room ((b.readLine strict line).map of) := by
  unfold readLine Indexed.Body.readLine
  split
  · exact .inl rfl
  · dsimp only
    rw [item?_eq]
    cases Line.item? (Line.collapseLinks line) with
    | none => exact .inl rfl
    | some item => exact readPayload_comesTo room strict { b with entities := _ } (.ofText item.2)

end Body

/-! ## Chunks -/

variable (room : Nat) (strict : Bool) (c : Indexed.Catalog)

/-- Lines are read into a template as with indexes alone. -/
theorem readLines_comesTo (t : Template) (lines : List Text) :
    (readLines room strict c t lines).ComesTo room
      ((LangGen.readEach (Indexed.Body.readNumbered strict) 2 ⟨c.entities, .start t⟩ lines).map Body.of) :=
  readEach_comesTo (Indexed.Body.readNumbered strict) (f := Body.of)
    (fun _ b line => (Body.readLine_comesTo room strict b line).within _) lines 2 ⟨c.entities, .start t⟩

theorem extendTemplate_comesTo (place : Nat) (t : Template) (body : List Text) :
    (extendTemplate room strict c place t body).ComesTo room (c.extendTemplate strict place t body) := by
  unfold extendTemplate Indexed.Catalog.extendTemplate
  dsimp only
  rcases readLines_comesTo room strict c t body with hlines | ⟨condition, hending, hdeep⟩
  · rw [hlines]
    generalize LangGen.readEach (Indexed.Body.readNumbered strict) 2 ⟨c.entities, .start t⟩ body = o
    refine .inl ?_
    obtain ⟨b, _ | f⟩ := o
    · simp only [Run.of, Outcome.map, Body.of, Option.map_none, Draft.of_settle_template]
      split_ifs <;> rfl
    · simp only [Run.of, Outcome.map, Body.of, Option.map_some, Draft.of_template]
  · rw [hending]
    exact .inr ⟨condition, rfl, hdeep⟩

theorem newTemplate_comesTo (name : Text) (body : List Text) :
    (newTemplate room strict c name body).ComesTo room (c.newTemplate strict name body) := by
  unfold newTemplate Indexed.Catalog.newTemplate
  dsimp only
  rcases readLines_comesTo room strict c { name := name } body with hlines | ⟨condition, hending, hdeep⟩
  · rw [hlines]
    generalize LangGen.readEach (Indexed.Body.readNumbered strict) 2 ⟨c.entities, .start { name := name }⟩ body = o
    refine .inl ?_
    obtain ⟨b, _ | f⟩ := o
    · simp only [Run.of, Outcome.map, Body.of, Option.map_none, Draft.of_settle_template]
      split_ifs <;> rfl
    · rfl
  · rw [hending]
    exact .inr ⟨condition, rfl, hdeep⟩

/-- A template that the index has is where it says. -/
theorem readTemplate_comesTo (c : Catalog) (header : Text) (body : List Text) :
    (readTemplate room strict (.of c) (header :: body)).ComesTo room
      ((Indexed.Catalog.of c).readTemplate strict header body) := by
  show Run.ComesTo room (if (Text.trim (header.drop 1)).isEmpty = true then _ else _) _
  unfold Indexed.Catalog.readTemplate
  dsimp only
  split
  · exact .inl rfl
  · cases hplace : (Indexed.Catalog.of c).templates.index.place? (Text.trim (header.drop 1)) with
    | none => exact newTemplate_comesTo room strict _ _ body
    | some place =>
      have hlt : place < c.templates.length := (Index.place?_lt hplace).trans_eq (List.length_map _)
      have hget : (Indexed.Catalog.of c).templates.members[place]? = some c.templates[place] :=
        List.getElem?_eq_getElem hlt
      simp only [member, hget, Option.bind_some, Option.map_some]
      exact extendTemplate_comesTo room strict _ place _ body

theorem readEntity_eq (line : Text) : readEntity c line = .of (c.readEntity line) := by
  unfold readEntity Indexed.Catalog.readEntity
  rw [entityOf?_eq]
  cases LangGen.Catalog.entityOf? line <;> rfl

/-- A chunk is read as with indexes alone; its text has a first line. -/
theorem readChunk_comesTo (c : Catalog) (chunk : Text) :
    (readChunk room strict (.of c) chunk).ComesTo room ((Indexed.Catalog.of c).readChunk strict chunk) := by
  unfold readChunk Indexed.Catalog.readChunk
  dsimp only
  obtain ⟨line, body, hlines⟩ := List.exists_cons_of_ne_nil (Text.lines_ne_nil (Text.trim chunk))
  rw [hlines]
  rcases Chunk.classify (Text.trim chunk) with f | kind
  · exact .inl rfl
  cases kind with
  | template => exact readTemplate_comesTo room strict c line body
  | reference => exact .inl rfl
  | entity => exact .inl (readEntity_eq _ line)

/-- Reading runs into no mishap but one. Whatever the lines of a template are, and wherever reading
them ends, the draft is sound, before a last branch joins it and then, and a variation would find
where it goes; a check of a condition starts within its tokens, and neither it nor a procedure of it
takes a token that is not there, however much room there is. So a run of chunks ends as it ends
without all this, with what has been read or with a failure, unless it comes to a condition that
nests deeply: then the room may be too small for the calls of the check, and there are such
conditions for every room. -/
theorem readChunks_comesTo :
    (∀ (c : Indexed.Catalog) (t : Template) (lines : List Text), let d := (readLines room strict c t lines).state.draft
      d.Sound ∧ d.settle.Sound ∧ ∀ v, ∃ d', d.addVariation v = .ok d') ∧
      (∀ ts : List Condition.Token, Cursor.Within ts {} ∧ (∀ n p, Safe ts (perform ts n p)) ∧
        Safe ts (check ts room)) ∧
      (∀ (source : Option Text) (c : Catalog) (chunks : List Text),
        (readChunks room strict source c chunks).ComesTo room (c.readChunks strict source chunks)) ∧
      ∃ condition, Condition.check condition true = .ok () ∧
        Condition.checkByDescent room condition true = .error .tooDeep := by
  refine ⟨fun c t lines => ?_, fun ts => ⟨.start, safe_perform, safe_check room⟩, fun source c chunks => ?_,
    Condition.nested room, Condition.checkByDescent_nested (by omega)⟩
  · have hsound := readLines_keeps room strict c t lines
    exact ⟨hsound, hsound.settle, fun v => (hsound.addVariation v).imp fun _ h => h.1⟩
  · let read (n : Nat) (c : Catalog) (chunk : Text) : Outcome Catalog :=
      (LangGen.Catalog.readChunk strict c chunk).within { file := source, chunk := some n }
    let read' (n : Nat) (c : Indexed.Catalog) (chunk : Text) : Run Indexed.Catalog :=
      (readChunk room strict c chunk).within { file := source, chunk := some n }
    have hread : ∀ n c chunk, (read' n (.of c) chunk).ComesTo room ((read n c chunk).map .of) := by
      intro n c chunk
      have h := (readChunk_comesTo room strict c chunk).within { file := source, chunk := some n }
      rwa [Indexed.Catalog.readChunk_of] at h
    rcases readEach_comesTo read hread chunks 0 c with h | ⟨condition, hending, hdeep⟩
    · refine .inl ?_
      unfold readChunks LangGen.Catalog.readChunks
      dsimp only
      rw [h]
      rfl
    · exact .inr ⟨condition, hending, hdeep⟩

/-- Where there is room for a thousand calls, a condition in 125 pairs of parentheses ends the
reading of its chunk without a failure. -/
theorem readChunks_nested :
    readChunks 1000 false none {} ["# A\n- IF: ".toList ++ Condition.nested 125 ++ "\n- a".toList] =
      ⟨{}, some (.mishap (.tooDeep (Condition.nested 125)))⟩ := by
  decide +kernel

end LangGen.Stepwise
