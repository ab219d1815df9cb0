/-
What the body of a template means. Each variation belongs to the condition of the nearest branch
line above it, or to the template when there is none; the template so grouped is the old one with
the new variations and branches appended, each once and in the order of the lines. A body that is
read without failure stores exactly that template.

The proof reads a settled draft as the grouping of the payloads read so far: one payload moves both
in the same way (`grouped_concat`, `settle_readPayload`).
-/
import LangGen.Proofs.Catalog.Reading

namespace LangGen

open Line

/-! ## The grouping -/

namespace Line

/-- The condition that a payload sets for the variations below it. -/
def Payload.condition? (p : Payload) : Option Text := p.branch?.map (·.1)

/-- The conditions that payloads set, in order. -/
def opened (ps : List Payload) : List Text := ps.filterMap Payload.condition?

/-- Each variation among the payloads, with the last condition that is set before it. -/
def governed (ps : List Payload) : List (Option Text × Text) :=
  ps.zipIdx.filterMap fun (p, i) =>
    match p with
    | .variation v => some ((opened (ps.take i)).getLast?, v)
    | _ => none

/-- The well delimited variations under a condition, or under none. -/
def carried (condition : Option Text) (ps : List Payload) : List Text :=
  (governed ps).filterMap fun (c, v) =>
    if c = condition ∧ Variation.problem? v = none then some v else none

end Line

/-- The branch with those of the variations that it does not have, each once. -/
def Branch.extend (b : Branch) (vs : List Text) : Branch :=
  { b with variations := b.variations ++ news b.variations vs }

/-- The template with payloads grouped into it. -/
def Template.grouped (t : Template) (ps : List Payload) : Template where
  name := t.name
  variations := t.variations ++ news t.variations (carried none ps)
  branches :=
    (t.branches ++ (news (t.branches.map Branch.condition) (opened ps)).map (Branch.mk · [])).map
      fun b => b.extend (carried (some b.condition) ps)

/-! ## One more payload -/

namespace Line

theorem opened_concat (ps : List Payload) (p : Payload) :
    opened (ps ++ [p]) = opened ps ++ p.condition?.toList := by
  unfold opened
  rw [List.filterMap_append]
  cases hp : p.condition? <;> simp [hp]

theorem governed_concat (ps : List Payload) (p : Payload) :
    governed (ps ++ [p]) = governed ps ++
      match p with
      | .variation v => [((opened ps).getLast?, v)]
      | _ => [] := by
  unfold governed
  rw [List.zipIdx_append, List.filterMap_append]
  congr 1
  · -- the places before the last one see the same payloads above them
    refine List.filterMap_congr fun q hq => ?_
    obtain ⟨q, i⟩ := q
    have hi : i < ps.length := by simpa using List.snd_lt_of_mem_zipIdx hq
    dsimp only
    rw [List.take_append_of_le_length (Nat.le_of_lt hi)]
  · cases p <;> simp

theorem carried_concat_variation (c : Option Text) (ps : List Payload) (v : Text) :
    carried c (ps ++ [.variation v]) =
      if (opened ps).getLast? = c ∧ Variation.problem? v = none then carried c ps ++ [v]
      else carried c ps := by
  unfold carried
  rw [governed_concat, List.filterMap_append]
  by_cases h : (opened ps).getLast? = c ∧ Variation.problem? v = none <;> simp [h]

theorem carried_concat_branch (c : Option Text) (ps : List Payload) {p : Payload} {condition : Text}
    (hp : p.condition? = some condition) : carried c (ps ++ [p]) = carried c ps := by
  unfold carried
  rw [governed_concat]
  cases p with
  | variation v => cases hp
  | _ => simp

theorem mem_opened_of_governed {ps : List Payload} {c v : Text} (h : (some c, v) ∈ governed ps) :
    c ∈ opened ps := by
  unfold governed at h
  obtain ⟨⟨p, i⟩, -, hp⟩ := List.mem_filterMap.1 h
  cases p with
  | variation w =>
    simp only [Option.some.injEq, Prod.mk.injEq] at hp
    have hc : c ∈ opened (ps.take i) := List.mem_of_getLast? hp.1
    exact ((List.take_sublist i ps).filterMap _).subset hc
  | _ => simp at hp

/-- A condition that is not set carries nothing. -/
theorem carried_eq_nil {ps : List Payload} {c : Text} (h : c ∉ opened ps) :
    carried (some c) ps = [] := by
  unfold carried
  rw [List.filterMap_eq_nil_iff]
  rintro ⟨c', v⟩ hv
  dsimp only
  rw [if_neg]
  rintro ⟨rfl, -⟩
  exact h (mem_opened_of_governed hv)

end Line

namespace Draft

/-- A settled draft after one more payload that is not refused. -/
def absorb (d : Draft) : Payload → Draft
  | .condition c | .default c =>
    ⟨{ d.template with
        branches := if c ∈ d.template.branches.map Branch.condition then d.template.branches
          else d.template.branches ++ [⟨c, []⟩] }, .branch c⟩
  | .variation v => if Variation.problem? v = none then d.addVariation v else d

theorem absorb_branch (d : Draft) {p : Payload} {c : Text} (hp : p.condition? = some c) :
    d.absorb p =
      ⟨{ d.template with
          branches := if c ∈ d.template.branches.map Branch.condition then d.template.branches
            else d.template.branches ++ [⟨c, []⟩] }, .branch c⟩ := by
  cases p <;> cases hp <;> rfl

/-- Where variations go after the payloads. -/
def targetAfter (ps : List Payload) : Target :=
  match (opened ps).getLast? with
  | none => .template
  | some c => .branch c

end Draft

namespace Template

theorem conditions_grouped (t : Template) (ps : List Payload) :
    (t.grouped ps).branches.map Branch.condition =
      unite (t.branches.map Branch.condition) (opened ps) := by
  rw [unite_eq_append_news]
  simp [grouped, Branch.extend, Function.comp_def]

theorem grouped_nil (t : Template) : t.grouped [] = t := by
  have hb : ∀ b : Branch, b.extend [] = b := fun b => by simp [Branch.extend, news]
  simp [grouped, carried, governed, opened, news, hb]

/-- A variation under no condition is added to the template, and one under a condition to its branch. -/
theorem grouped_concat_variation {t : Template} (ht : (t.branches.map Branch.condition).Nodup)
    (ps : List Payload) {v : Text} (hv : Variation.problem? v = none) :
    (⟨t.grouped ps, Draft.targetAfter ps⟩ : Draft).addVariation v =
      ⟨t.grouped (ps ++ [.variation v]), Draft.targetAfter (ps ++ [.variation v])⟩ := by
  have hopened : opened (ps ++ [.variation v]) = opened ps := by
    simp [opened_concat, Payload.condition?, Payload.branch?]
  have hnodup : ((t.grouped ps).branches.map Branch.condition).Nodup := by
    rw [conditions_grouped]; exact nodup_unite ht _
  cases hg : (opened ps).getLast? with
  | none =>
    have hsome : ∀ c : Text, carried (some c) (ps ++ [.variation v]) = carried (some c) ps := by
      intro c; simp [carried_concat_variation, hg]
    have hnone : carried none (ps ++ [.variation v]) = carried none ps ++ [v] := by
      simp [carried_concat_variation, hg, hv]
    simp only [Draft.addVariation, Draft.targetAfter, hopened, hg, addVariation, grouped, hsome, hnone]
    rw [← unite_eq_append_news, ← unite_eq_append_news, unite_concat]
  | some c =>
    have hnone : carried none (ps ++ [.variation v]) = carried none ps := by
      simp [carried_concat_variation, hg]
    have hsome : ∀ b : Branch, b.extend (carried (some b.condition) (ps ++ [.variation v])) =
        if b.condition = c then (b.extend (carried (some b.condition) ps)).addVariation v
        else b.extend (carried (some b.condition) ps) := by
      intro b
      rw [carried_concat_variation]
      by_cases hb : b.condition = c
      · simp only [hg, hb, hv, and_self, if_true, Branch.extend, Branch.addVariation]
        rw [← unite_eq_append_news, ← unite_eq_append_news, unite_concat]
      · simp [hg, hb, Ne.symm hb]
    simp only [Draft.addVariation, Draft.targetAfter, hopened, hg]
    rw [changeLast_eq_map (fun b => beq_iff_eq) hnodup]
    simp only [grouped, hopened, hnone, hsome, List.map_map]
    rfl

/-- A branch line adds its branch unless the template has it. -/
theorem grouped_concat_branch (t : Template) (ps : List Payload) {p : Payload} {c : Text}
    (hp : p.condition? = some c) :
    (⟨t.grouped ps, Draft.targetAfter ps⟩ : Draft).absorb p =
      ⟨t.grouped (ps ++ [p]), Draft.targetAfter (ps ++ [p])⟩ := by
  have hopened : opened (ps ++ [p]) = opened ps ++ [c] := by simp [opened_concat, hp]
  have hmem : c ∈ (t.grouped ps).branches.map Branch.condition ↔
      c ∈ t.branches.map Branch.condition ∨ c ∈ opened ps := by
    rw [conditions_grouped, mem_unite]
  rw [Draft.absorb_branch _ hp]
  simp only [Draft.targetAfter, hopened, List.getLast?_append, List.getLast?_singleton, Option.some_or,
    Draft.mk.injEq, and_true]
  simp only [hmem]
  simp only [grouped, hopened, news_concat, carried_concat_branch _ ps hp, Template.mk.injEq, true_and]
  by_cases h : c ∈ t.branches.map Branch.condition ∨ c ∈ opened ps
  · simp only [if_pos h]
  · -- the new branch is still empty: nothing was carried by its condition before
    have hnil : carried (some c) ps = [] := carried_eq_nil fun hc => h (.inr hc)
    have hnew : Branch.extend ⟨c, []⟩ (carried (some c) ps) = ⟨c, []⟩ := by rw [hnil]; rfl
    simp only [if_neg h, List.map_append, List.map_cons, List.map_nil, List.append_assoc, hnew]

/-- One more payload moves the settled draft from one grouping to the next. -/
theorem grouped_concat {t : Template} (ht : (t.branches.map Branch.condition).Nodup)
    (ps : List Payload) (p : Payload) :
    (⟨t.grouped ps, Draft.targetAfter ps⟩ : Draft).absorb p =
      ⟨t.grouped (ps ++ [p]), Draft.targetAfter (ps ++ [p])⟩ := by
  cases p with
  | condition c => exact grouped_concat_branch t ps rfl
  | default c => exact grouped_concat_branch t ps rfl
  | variation v =>
    cases hv : Variation.problem? v with
    | none => rw [Draft.absorb, if_pos hv]; exact grouped_concat_variation ht ps hv
    | some q =>
      have hopened : opened (ps ++ [.variation v]) = opened ps := by
        simp [opened_concat, Payload.condition?, Payload.branch?]
      have hcarried : ∀ c, carried c (ps ++ [.variation v]) = carried c ps := by
        intro c; simp [carried_concat_variation, hv]
      simp [Draft.absorb, hv, grouped, hcarried, hopened, Draft.targetAfter]

/-- The settled drafts of a run are the groupings of what has been read. -/
theorem foldl_absorb {t : Template} (ht : (t.branches.map Branch.condition).Nodup)
    (ps : List Payload) :
    ps.foldl Draft.absorb ⟨t, .template⟩ = ⟨t.grouped ps, Draft.targetAfter ps⟩ := by
  induction ps using List.reverseRecOn with
  | nil => rw [List.foldl_nil, grouped_nil]; rfl
  | append_singleton ps p ih => rw [List.foldl_append, ih]; exact grouped_concat ht ps p

end Template

/-! ## Lines -/

namespace Draft

theorem settle_addVariation (d : Draft) (v : Text) :
    (d.addVariation v).settle = d.settle.addVariation v := by
  rcases d with ⟨t, _ | c | b⟩
  · rfl
  · rfl
  · simp only [addVariation, settle, Branch.addVariation]
    rw [changeLast_concat (by simp)]

theorem settle_openBranch {d : Draft} {p : Payload} {c : Text} {needs : Bool}
    (hp : p.branch? = some (c, needs)) (hok : (d.openBranch c needs).2 = none) :
    (d.openBranch c needs).1.settle = d.settle.absorb p := by
  rw [absorb_branch _ (show p.condition? = some c by rw [Payload.condition?, hp]; rfl)]
  unfold openBranch at hok ⊢
  dsimp only at hok ⊢
  have hany : (d.settle.template.branches.any (·.condition == c)) = true ↔
      c ∈ d.settle.template.branches.map Branch.condition := by simp [List.any_eq_true]
  by_cases h : c ∈ d.settle.template.branches.map Branch.condition
  · rw [if_pos (hany.2 h), if_pos h]; rfl
  · rw [if_neg (mt hany.1 h)] at hok ⊢
    rw [if_neg h]
    split
    · rename_i q hq
      rw [hq] at hok; cases hok
    · rfl

end Draft

namespace Body

theorem settle_readPayload {strict : Bool} {b : Body} {p : Payload}
    (hok : (b.readPayload strict p).failure = none) :
    (b.readPayload strict p).state.draft.settle = b.draft.settle.absorb p := by
  have hopen : ∀ c needs, p.branch? = some (c, needs) → (b.openBranch c needs).failure = none →
      (b.openBranch c needs).state.draft.settle = b.draft.settle.absorb p := by
    intro c needs hp hok
    have h := Draft.settle_openBranch (d := b.draft) hp
    unfold openBranch at hok ⊢
    rcases hd : b.draft.openBranch c needs with ⟨d, _ | q⟩ <;> rw [hd] at h hok
    · exact h rfl
    · cases hok
  cases p with
  | condition text => exact hopen text true rfl hok
  | default text => exact hopen text false rfl hok
  | variation v =>
    rw [readPayload] at hok ⊢
    cases hv : Variation.problem? v with
    | none =>
      rw [addVariation_of_none strict b hv, Draft.absorb, if_pos hv]
      exact Draft.settle_addVariation ..
    | some q => simp [addVariation_of_some strict b hv, Draft.absorb, hv]

/-- A line that does not fail is blank, or an item whose payload the draft absorbs. -/
theorem settle_readLine {strict : Bool} {b : Body} {line : Text}
    (hok : (b.readLine strict line).failure = none) :
    (Text.allBlank line = false → (payload? line).isSome) ∧
      (b.readLine strict line).state.draft.settle =
        (payload? line).toList.foldl Draft.absorb b.draft.settle := by
  have hread := readLine_lineRead strict b line
  generalize b.readLine strict line = o at hread hok ⊢
  cases hread with
  | blank hblank => simp [hblank, payload?]
  | undecorated => cases hok
  | payload hp => exact ⟨fun _ => by rw [hp]; rfl, by rw [hp]; exact settle_readPayload hok⟩

/-- A body that is read without failure absorbs the payloads of its lines. -/
theorem settle_readLines {strict : Bool} :
    ∀ (lines : List Text) (n : Nat) (b : Body),
      (readEach (readNumbered strict) n b lines).failure = none →
      (∀ line ∈ lines, Text.allBlank line = false → (payload? line).isSome) ∧
        (readEach (readNumbered strict) n b lines).state.draft.settle =
          (lines.filterMap payload?).foldl Draft.absorb b.draft.settle
  | [], n, b, _ => ⟨by simp, rfl⟩
  | line :: lines, n, b, hok => by
    rw [readEach_cons] at hok ⊢
    cases hf : (readNumbered strict n b line).failure with
    | some f =>
      rw [hf] at hok
      have hnone : (readNumbered strict n b line).failure = none := hok
      rw [hf] at hnone
      cases hnone
    | none =>
      rw [hf] at hok
      have hfline : (b.readLine strict line).failure = none :=
        (Outcome.within_failure_eq_none _ _).1 hf
      obtain ⟨hline, hsettle⟩ := settle_readLine hfline
      obtain ⟨hlines, hrest⟩ := settle_readLines lines (n + 1) _ hok
      refine ⟨List.forall_mem_cons.2 ⟨hline, hlines⟩, hrest.trans ?_⟩
      have hstate : (readNumbered strict n b line).state.draft.settle =
          (payload? line).toList.foldl Draft.absorb b.draft.settle := hsettle
      rw [hstate, ← List.foldl_append]
      congr 1
      cases hp : payload? line <;> simp [hp]

end Body

/-! ## Templates -/

namespace Catalog

theorem lastTemplate?_putTemplate {c : Catalog} {t t' : Template} {name : Text}
    (ht : c.lastTemplate? name = some t) (hname : t'.name = name) :
    (c.putTemplate t').lastTemplate? name = some t' := by
  subst hname
  exact findLast?_changeLast ht fun _ _ => beq_self_eq_true _

/-- The payloads of a body that is read into `t` without failure are grouped into `t`. -/
theorem grouped_of_readLines {strict : Bool} {es : List Entity} {t : Template}
    (ht : (t.branches.map Branch.condition).Nodup) {body : List Text}
    (hok : (readEach (Body.readNumbered strict) 2 ⟨es, ⟨t, .template⟩⟩ body).failure = none) :
    (readEach (Body.readNumbered strict) 2 ⟨es, ⟨t, .template⟩⟩ body).state.draft.settle.template =
        t.grouped (body.filterMap payload?) ∧
      ∀ line ∈ body, Text.allBlank line = false → (payload? line).isSome := by
  obtain ⟨hlines, hsettle⟩ := Body.settle_readLines body 2 _ hok
  refine ⟨?_, hlines⟩
  rw [hsettle]
  exact congrArg Draft.template (Template.foldl_absorb ht _)

theorem lastTemplate?_extendTemplate {strict : Bool} {c : Catalog} {t : Template} {body : List Text}
    (hc : c.lastTemplate? t.name = some t) (ht : (t.branches.map Branch.condition).Nodup)
    (hok : (c.extendTemplate strict t body).failure = none) :
    (c.extendTemplate strict t body).state.lastTemplate? t.name =
        some (t.grouped (body.filterMap payload?)) ∧
      ∀ line ∈ body, Text.allBlank line = false → (payload? line).isSome := by
  unfold extendTemplate at hok ⊢
  dsimp only at hok ⊢
  split at hok
  · cases hok
  · rename_i hbody
    obtain ⟨hgrouped, hlines⟩ := grouped_of_readLines ht hbody
    rw [hgrouped]
    exact ⟨lastTemplate?_putTemplate hc rfl, hlines⟩

theorem lastTemplate?_newTemplate {strict : Bool} {c : Catalog} {name : Text} {body : List Text}
    (hok : (c.newTemplate strict name body).failure = none) :
    (c.newTemplate strict name body).state.lastTemplate? name =
        some (({ name := name } : Template).grouped (body.filterMap payload?)) ∧
      ∀ line ∈ body, Text.allBlank line = false → (payload? line).isSome := by
  unfold newTemplate at hok ⊢
  dsimp only at hok ⊢
  split at hok
  · cases hok
  · rename_i hbody
    obtain ⟨hgrouped, hlines⟩ := grouped_of_readLines (t := { name := name }) List.nodup_nil hbody
    rw [hgrouped]
    exact ⟨findLast?_concat (by simp [Template.grouped]), hlines⟩

/-- A template that is read without failure is stored as the grouping of its payloads, into the
template that already has its name or into a new one; every line that is not blank has a payload. -/
theorem readTemplate_stores_grouped {strict : Bool} {c : Catalog} {header : Text} {body : List Text}
    (hdistinct : ∀ t, c.lastTemplate? (Text.trim (header.drop 1)) = some t →
      (t.branches.map Branch.condition).Nodup)
    (hok : (c.readTemplate strict header body).failure = none) :
    let name := Text.trim (header.drop 1)
    let old := (c.lastTemplate? name).getD { name := name }
    (c.readTemplate strict header body).state.lastTemplate? name =
        some (old.grouped (body.filterMap payload?)) ∧
      ∀ line ∈ body, Text.allBlank line = false → (payload? line).isSome := by
  intro name old
  unfold readTemplate at hok ⊢
  dsimp only at hok ⊢
  split at hok
  · cases hok
  · rename_i h0
    rw [if_neg h0]
    cases hc : c.lastTemplate? name with
    | some t =>
      have hname : t.name = name := (lastTemplate?_eq_some hc).2
      rw [show c.lastTemplate? (Text.trim (header.drop 1)) = some t from hc] at hok
      rw [show old = t from by simp only [old, hc, Option.getD_some], ← hname]
      exact lastTemplate?_extendTemplate (by rw [hname]; exact hc) (hdistinct t hc) hok
    | none =>
      rw [show c.lastTemplate? (Text.trim (header.drop 1)) = none from hc] at hok
      rw [show old = { name := name } from by simp only [old, hc, Option.getD_none]]
      exact lastTemplate?_newTemplate hok

/-- A branch that is opened again, one that stays empty, a link, a variation that is not well
delimited and one that is met twice, read into a template that has variations and a branch. -/
theorem readTemplate_stores_grouped_resumed :
    let c : Catalog :=
      { templates := [⟨"t".toList, ["x".toList], [⟨"a > 1".toList, ["p".toList]⟩]⟩] }
    let body := ["- x", " * see [it](u) \x7bn\x7d", "- IF: a > 1", "- p", "- q", "", "- IF: b", "- ELSE:", "- \x7b",
      "- q", "- q", "- ELSEIF: a > 1", "+ r", "- DEFAULT:", "- p"].map String.toList
    (c.readTemplate false "# t".toList body).failure = none ∧
      (c.readTemplate false "# t".toList body).state.lastTemplate? "t".toList =
        some ⟨"t".toList, ["x", "see [it] \x7bn\x7d"].map String.toList,
          [⟨"a > 1".toList, ["p", "q", "r"].map String.toList⟩, ⟨"b".toList, []⟩,
            ⟨"ELSE:".toList, ["q", "p"].map String.toList⟩]⟩ := by
  intro c body
  have hdistinct : ∀ t, c.lastTemplate? (Text.trim ("# t".toList.drop 1)) = some t →
      (t.branches.map Branch.condition).Nodup := by
    intro t ht
    have htc : t ∈ c.templates := (lastTemplate?_eq_some ht).1
    rw [List.mem_singleton.1 htc]
    decide
  have hok : (c.readTemplate false "# t".toList body).failure = none := by decide +kernel
  refine ⟨hok, (readTemplate_stores_grouped hdistinct hok).1.trans ?_⟩
  decide +kernel

end Catalog

end LangGen
