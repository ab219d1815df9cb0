/-
What is sent to a translator. Which text a line asks for is settled by the line and the settings
alone (`Asks`), and lines are taken in order; so the requests of a file are those of the lines
before the point where the work ends, and the one that failed if that is why it ends (`content_requests`).
-/
import LangGen.Proofs.Localization.Site

namespace LangGen.Localization

open Line

/-! ## What lines ask for -/

/-- The texts that a line asks for: the body of a comment and the label of a file reference where
the settings have them translated, and the payload of a list item that opens no branch. -/
inductive Asks (s : Settings) (raw : Text) : Text → Prop
  | comment (hon : s.translateComments = true) (hlead : lead? raw = some commentMark)
      (hne : Text.trim ((Text.trim raw).drop 1) ≠ []) : Asks s raw (Text.trim ((Text.trim raw).drop 1))
  | label {label target : Text} (hon : s.translateLinkText = true)
      (href : fileReference? raw = some (label, target)) (hlabel : Text.allBlank label = false) : Asks s raw label
  | variation {mark : Char} {payload : Text} (hitem : item? raw = some (mark, payload)) (hne : payload ≠ [])
      (hwords : ∀ word ∈ conditionWords ++ defaultWords, ¬ word <+: payload) : Asks s raw payload

/-- The text that is planned to be asked for. -/
def Plan.asked? : Plan → Option Text
  | .ask _ text => some text
  | _ => none

/-- The text that a line asks for, if any. -/
def asked? (s : Settings) (raw : Text) : Option Text := (plan s raw).asked?

/-- The failure of a line that is nothing known. -/
def unrecognizedLine (raw : Text) : Failure :=
  { fault := .unrecognized (Text.trim raw) (some "Invalid line detected".toList) }

section Lines

variable {s : Settings} {raw text : Text}

theorem ofText_eq_variation_iff {payload : Text} :
    Payload.ofText payload = .variation payload ↔ ∀ word ∈ conditionWords ++ defaultWords, ¬ word <+: payload := by
  refine ⟨fun h => (ofText_eq_variation h).2, fun h => ?_⟩
  have hnone : ∀ words ⊆ conditionWords ++ defaultWords, Text.leadOf? words payload = none := by
    intro words hwords
    unfold Text.leadOf?
    rw [List.find?_eq_none]
    intro word hword
    rw [List.isPrefixOf_iff_prefix]
    exact h word (hwords hword)
  unfold Payload.ofText
  rw [hnone _ (List.subset_append_left _ _), hnone _ (List.subset_append_right _ _)]

theorem asked?_planComment (line : Text) : (planComment s line).asked? = some text ↔
    s.translateComments = true ∧ Text.trim (line.drop 1) ≠ [] ∧ text = Text.trim (line.drop 1) := by
  unfold planComment
  cases s.translateComments <;> cases Text.trim (line.drop 1) <;> simp [Plan.asked?, eq_comm]

theorem asked?_planReference (line : Text) : (planReference s line).asked? = some text ↔
    s.translateLinkText = true ∧ Text.allBlank text = false ∧
      ∃ target, fileReference? line = some (text, target) := by
  unfold planReference
  cases s.translateLinkText with
  | false => simp [Plan.asked?]
  | true =>
    cases fileReference? line with
    | none => simp [Plan.asked?]
    | some p =>
      obtain ⟨label, target⟩ := p
      cases hlabel : Text.allBlank label with
      | true =>
        simp only [hlabel, if_true, Plan.asked?, reduceCtorEq, Option.some.injEq, Prod.mk.injEq, true_and, false_iff]
        rintro ⟨htext, -, rfl, -⟩
        rw [hlabel] at htext
        cases htext
      | false =>
        simp only [hlabel, Bool.false_eq_true, if_false, Plan.asked?, Option.some.injEq, Prod.mk.injEq, true_and]
        constructor
        · rintro rfl
          exact ⟨hlabel, target, rfl, rfl⟩
        · rintro ⟨-, -, rfl, -⟩
          rfl

theorem asked?_planItem (line : Text) (mark : Char) (payload : Text) :
    (planItem line mark payload).asked? = some text ↔
      payload ≠ [] ∧ (∀ word ∈ conditionWords ++ defaultWords, ¬ word <+: payload) ∧ text = payload := by
  rw [← ofText_eq_variation_iff]
  rcases planItem_cases line mark payload with hcopy | ⟨hne, hof, hask⟩
  · rw [hcopy]
    refine iff_of_false (by simp [Plan.asked?]) ?_
    rintro ⟨hne, hof, -⟩
    obtain ⟨c, r, rfl⟩ := List.exists_cons_of_ne_nil hne
    simp [planItem, hof] at hcopy
  · rw [hask]
    simp [Plan.asked?, hne, hof, eq_comm]

theorem item?_eq_none_iff {c : Char} (h : lead? raw = some c) : item? raw = none ↔ isItemMark c = false := by
  constructor
  · intro hitem
    refine Bool.eq_false_iff.2 fun hmark => ?_
    obtain ⟨payload, hpayload⟩ := item?_of_lead? h hmark
    rw [hpayload] at hitem
    cases hitem
  · intro hmark
    refine Option.eq_none_iff_forall_ne_some.2 fun p hp => ?_
    obtain ⟨hlead, hmark'⟩ := lead?_of_item? hp
    cases h.symm.trans hlead
    rw [hmark] at hmark'
    cases hmark'

theorem plan_of_blank (h : lead? raw = none) : plan s raw = .copy [] := by
  rw [lead?_eq_head?_trim, List.head?_eq_none_iff] at h
  unfold plan
  rw [h]

/-- A line is planned by the character that it leads with. -/
theorem plan_of_lead? {c : Char} (h : lead? raw = some c) :
    plan s raw =
      if c = commentMark then planComment s (Text.trim raw)
      else if c = referenceMark then planReference s (Text.trim raw)
      else if c = entityMark ∨ c = templateMark then .copy (Text.trim raw)
      else
        match item? raw with
        | some (mark, payload) => planItem (Text.trim raw) mark payload
        | none => .refuse (unrecognizedLine raw) := by
  rw [lead?_eq_head?_trim] at h
  rw [← item?_trim]
  unfold unrecognizedLine plan
  generalize Text.trim raw = line at h ⊢
  cases line with
  | nil => cases h
  | cons d r => cases h; rfl

/-- A line asks for what its lead says. -/
theorem Asks.leads (h : Asks s raw text) :
    lead? raw = some commentMark ∨ lead? raw = some referenceMark ∨
      ∃ c, lead? raw = some c ∧ isItemMark c = true := by
  cases h with
  | comment _ hlead _ => exact .inl hlead
  | label _ href _ => exact .inr (.inl (lead?_of_fileReference? href))
  | variation hitem _ _ => exact .inr (.inr ⟨_, lead?_of_item? hitem⟩)

theorem asks_of_comment (h : lead? raw = some commentMark) :
    Asks s raw text ↔ s.translateComments = true ∧ Text.trim ((Text.trim raw).drop 1) ≠ [] ∧
      text = Text.trim ((Text.trim raw).drop 1) := by
  refine ⟨fun hasks => ?_, fun ⟨hon, hne, htext⟩ => htext ▸ .comment hon h hne⟩
  cases hasks with
  | comment hon _ hne => exact ⟨hon, hne, rfl⟩
  | label _ href _ => exact absurd (h.symm.trans (lead?_of_fileReference? href)) (by decide)
  | variation hitem _ _ =>
    obtain ⟨hlead, hmark⟩ := lead?_of_item? hitem
    cases h.symm.trans hlead
    exact absurd hmark (by decide)

theorem asks_of_reference (h : lead? raw = some referenceMark) :
    Asks s raw text ↔ s.translateLinkText = true ∧ Text.allBlank text = false ∧
      ∃ target, fileReference? raw = some (text, target) := by
  refine ⟨fun hasks => ?_, fun ⟨hon, hlabel, _, href⟩ => .label hon href hlabel⟩
  cases hasks with
  | comment _ hlead _ => exact absurd (h.symm.trans hlead) (by decide)
  | label hon href hlabel => exact ⟨hon, hlabel, _, href⟩
  | variation hitem _ _ =>
    obtain ⟨hlead, hmark⟩ := lead?_of_item? hitem
    cases h.symm.trans hlead
    exact absurd hmark (by decide)

theorem asks_of_item {mark : Char} {payload : Text} (h : item? raw = some (mark, payload)) :
    Asks s raw text ↔
      payload ≠ [] ∧ (∀ word ∈ conditionWords ++ defaultWords, ¬ word <+: payload) ∧ text = payload := by
  obtain ⟨hlead, hmark⟩ := lead?_of_item? h
  refine ⟨fun hasks => ?_, fun ⟨hne, hwords, htext⟩ => htext ▸ .variation h hne hwords⟩
  cases hasks with
  | comment _ hcomment _ =>
    cases hlead.symm.trans hcomment
    exact absurd hmark (by decide)
  | label _ href _ =>
    cases hlead.symm.trans (lead?_of_fileReference? href)
    exact absurd hmark (by decide)
  | variation hitem hne hwords =>
    cases h.symm.trans hitem
    exact ⟨hne, hwords, rfl⟩

/-- What is planned to be asked for is what the line asks for. -/
theorem asked?_eq_some_iff : asked? s raw = some text ↔ Asks s raw text := by
  have hother : (∀ c, lead? raw = some c → c ≠ commentMark ∧ c ≠ referenceMark ∧ isItemMark c = false) →
      ¬ Asks s raw text := by
    intro hno hasks
    rcases hasks.leads with h | h | ⟨c, h, hmark⟩
    · exact (hno _ h).1 rfl
    · exact (hno _ h).2.1 rfl
    · rw [(hno _ h).2.2] at hmark
      cases hmark
  unfold asked?
  cases hlead : lead? raw with
  | none =>
    rw [plan_of_blank hlead]
    exact iff_of_false nofun (hother fun c hc => by rw [hlead] at hc; cases hc)
  | some c =>
    rw [plan_of_lead? hlead]
    split_ifs with hcomment href hcopy
    · rw [hcomment] at hlead
      rw [asked?_planComment, asks_of_comment hlead]
    · rw [href] at hlead
      rw [asked?_planReference, asks_of_reference hlead, fileReference?_trim]
    · refine iff_of_false nofun (hother fun d hd => ?_)
      cases hlead.symm.trans hd
      rcases hcopy with rfl | rfl <;> decide
    · cases hitem : item? raw with
      | none =>
        refine iff_of_false nofun (hother fun d hd => ?_)
        cases hlead.symm.trans hd
        exact ⟨hcomment, href, (item?_eq_none_iff hlead).1 hitem⟩
      | some p =>
        rw [asked?_planItem, asks_of_item hitem]

theorem known_some_iff {c : Char} : Known (some c) ↔
    c = commentMark ∨ c = referenceMark ∨ (c = entityMark ∨ c = templateMark) ∨ isItemMark c = true := by
  unfold Known opensChunk
  simp only [Bool.or_eq_true, beq_iff_eq]
  tauto

/-- A line that is nothing known is refused. -/
theorem plan_of_unknown (h : ¬ Known (lead? raw)) : plan s raw = .refuse (unrecognizedLine raw) := by
  cases hlead : lead? raw with
  | none =>
    rw [hlead] at h
    exact absurd trivial h
  | some c =>
    rw [hlead, known_some_iff, not_or, not_or, not_or] at h
    obtain ⟨hcomment, href, hcopy, hmark⟩ := h
    rw [plan_of_lead? hlead, if_neg hcomment, if_neg href, if_neg hcopy,
      (item?_eq_none_iff hlead).2 (Bool.eq_false_iff.2 hmark)]

/-- Only lines that are nothing known are refused. -/
theorem plan_ne_refuse (h : Known (lead? raw)) (f : Failure) : plan s raw ≠ .refuse f := by
  intro hplan
  cases hlead : lead? raw with
  | none =>
    rw [plan_of_blank hlead] at hplan
    cases hplan
  | some c =>
    rw [hlead, known_some_iff] at h
    rw [plan_of_lead? hlead] at hplan
    split_ifs at hplan with hcomment href hcopy
    · rcases planComment_cases s (Text.trim raw) with hc | hc <;> rw [hc] at hplan <;> cases hplan
    · rcases planReference_cases s (Text.trim raw) with hc | ⟨_, _, _, hc | hc⟩ <;> rw [hc] at hplan <;> cases hplan
    · have hmark : isItemMark c = true := ((h.resolve_left hcomment).resolve_left href).resolve_left hcopy
      obtain ⟨payload, hitem⟩ := item?_of_lead? hlead hmark
      rw [hitem] at hplan
      change planItem (Text.trim raw) c payload = .refuse f at hplan
      rcases planItem_cases (Text.trim raw) c payload with hc | ⟨_, _, hc⟩ <;> rw [hc] at hplan <;> cases hplan

end Lines

/-! ## What is sent -/

/-- The request for a text, in the languages of the settings. -/
def request (s : Settings) (text : Text) : Request := ⟨text, s.toLang, s.fromLang⟩

/-- The requests for what lines ask for. -/
def requestsOf (s : Settings) (raws : List Text) : List Request := (raws.filterMap (asked? s)).map (request s)

@[simp] theorem requestsOf_nil (s : Settings) : requestsOf s [] = [] := rfl

theorem requestsOf_cons_none {s : Settings} {raw : Text} (h : asked? s raw = none) (raws : List Text) :
    requestsOf s (raw :: raws) = requestsOf s raws := by
  rw [requestsOf, List.filterMap_cons_none h, requestsOf]

theorem requestsOf_cons_some {s : Settings} {raw text : Text} (h : asked? s raw = some text) (raws : List Text) :
    requestsOf s (raw :: raws) = request s text :: requestsOf s raws := by
  rw [requestsOf, List.filterMap_cons_some h, List.map_cons, requestsOf]

/-- Whether all lines are known, and all that they ask for is answered. -/
structure Passes (s : Settings) (tr : Translator) (before : List Request) (raws : List Text) : Prop where
  known : ∀ raw ∈ raws, Known (lead? raw)
  answered : ∀ earlier r later, requestsOf s raws = earlier ++ r :: later →
    ∃ reply, tr (before ++ earlier) r = .ok reply

/-- How the work on lines ends when it goes no further: with no line left, at one that is nothing
known, or at one for which the translator fails. -/
inductive Stops (s : Settings) (tr : Translator) (before : List Request) : List Text → Traced Failure Text → Prop
  | done {out : Text} : Stops s tr before [] ⟨.ok out, before⟩
  | unrecognized {raw : Text} {later : List Text} (h : ¬ Known (lead? raw)) :
      Stops s tr before (raw :: later) ⟨.error (unrecognizedLine raw), before⟩
  | failed {raw text : Text} {later : List Text} {f : Failure} (h : Asks s raw text)
      (hf : tr before (request s text) = .error f) :
      Stops s tr before (raw :: later) ⟨.error f, before ++ [request s text]⟩

section Runs

variable {s : Settings} {tr : Translator} {before : List Request} {raw text : Text} {raws rest : List Text}

theorem line_of_unknown (h : ¬ Known (lead? raw)) :
    line s tr before raw = ⟨.error (unrecognizedLine raw), before⟩ := by
  rw [line_eq_run, plan_of_unknown h]
  rfl

theorem line_of_asked?_none (h : asked? s raw = none) (hknown : Known (lead? raw)) (tr : Translator)
    (before : List Request) : ∃ l, line s tr before raw = ⟨.ok l, before⟩ := by
  rw [line_eq_run]
  unfold asked? at h
  cases hplan : plan s raw with
  | copy l => exact ⟨l, rfl⟩
  | ask site text => rw [hplan] at h; cases h
  | refuse f => exact absurd hplan (plan_ne_refuse hknown f)

theorem line_of_asked?_some (h : asked? s raw = some text) (tr : Translator) (before : List Request) :
    ∃ paste : Text → Text, line s tr before raw =
      ⟨(tr before (request s text)).map paste, before ++ [request s text]⟩ := by
  rw [line_eq_run]
  unfold asked? at h
  cases hplan : plan s raw with
  | copy l => rw [hplan] at h; cases h
  | ask site text' => rw [hplan] at h; cases h; exact ⟨site.paste, rfl⟩
  | refuse f => rw [hplan] at h; cases h

theorem Stops.map {out : Traced Failure Text} (h : Stops s tr before rest out) (f : Text → Text) :
    Stops s tr before rest (out.map f) := by
  cases h with
  | done => exact .done
  | unrecognized h => exact .unrecognized h
  | failed h hf => exact .failed h hf

theorem passes_nil : Passes s tr before [] where
  known raw hraw := by cases hraw
  answered earlier r later h := by simp at h

theorem Passes.skip (h : Passes s tr before raws) (hknown : Known (lead? raw)) (hasked : asked? s raw = none) :
    Passes s tr before (raw :: raws) where
  known := List.forall_mem_cons.2 ⟨hknown, h.known⟩
  answered := by
    rw [requestsOf_cons_none hasked]
    exact h.answered

theorem Passes.ask {reply : Text} (h : Passes s tr (before ++ [request s text]) raws)
    (hknown : Known (lead? raw)) (hasked : asked? s raw = some text)
    (hreply : tr before (request s text) = .ok reply) : Passes s tr before (raw :: raws) where
  known := List.forall_mem_cons.2 ⟨hknown, h.known⟩
  answered := by
    rw [requestsOf_cons_some hasked]
    intro earlier r later heq
    cases earlier with
    | nil =>
      cases heq
      exact ⟨reply, by rw [List.append_nil]; exact hreply⟩
    | cons first earlier =>
      obtain ⟨rfl, hrest⟩ := List.cons.inj heq
      obtain ⟨reply', hreply'⟩ := h.answered earlier r later hrest
      exact ⟨reply', by rw [← hreply', List.append_assoc, List.singleton_append]⟩

/-- Work on lines passes some of them and stops. -/
theorem lines_stops (s : Settings) (tr : Translator) : ∀ (before : List Request) (raws : List Text),
    ∃ passed rest, raws = passed ++ rest ∧ Passes s tr before passed ∧
      Stops s tr (before ++ requestsOf s passed) rest (lines s tr before raws)
  | before, [] => by
    refine ⟨[], [], rfl, passes_nil, ?_⟩
    rw [requestsOf_nil, List.append_nil, lines]
    exact .done
  | before, raw :: raws => by
    -- where the work stops at the first of the lines, none is passed
    have hstop (h : Stops s tr before (raw :: raws) (lines s tr before (raw :: raws))) :
        ∃ passed rest, raw :: raws = passed ++ rest ∧ Passes s tr before passed ∧
          Stops s tr (before ++ requestsOf s passed) rest (lines s tr before (raw :: raws)) := by
      refine ⟨[], raw :: raws, rfl, passes_nil, ?_⟩
      rw [requestsOf_nil, List.append_nil]
      exact h
    by_cases hknown : Known (lead? raw)
    · cases hasked : asked? s raw with
      | none =>
        obtain ⟨l, hl⟩ := line_of_asked?_none hasked hknown tr before
        obtain ⟨passed, rest, rfl, hpasses, hstops⟩ := lines_stops s tr before raws
        refine ⟨raw :: passed, rest, rfl, hpasses.skip hknown hasked, ?_⟩
        rw [lines, hl, requestsOf_cons_none hasked]
        exact hstops.map _
      | some text =>
        obtain ⟨paste, hl⟩ := line_of_asked?_some hasked tr before
        cases hreply : tr before (request s text) with
        | error f =>
          refine hstop ?_
          rw [lines, hl, hreply]
          exact .failed (asked?_eq_some_iff.1 hasked) hreply
        | ok reply =>
          obtain ⟨passed, rest, rfl, hpasses, hstops⟩ := lines_stops s tr (before ++ [request s text]) raws
          refine ⟨raw :: passed, rest, rfl, hpasses.ask hknown hasked hreply, ?_⟩
          rw [List.append_assoc] at hstops
          rw [lines, hl, hreply, requestsOf_cons_some hasked]
          exact hstops.map _
    · refine hstop ?_
      rw [lines, line_of_unknown hknown]
      exact .unrecognized hknown

/-- What localizing a text sends. A line asks for one text at most, in the way `Asks` tells. Some
lines of the text are passed, each of which is known and has what it asks for answered; and the work
stops behind them. -/
theorem content_requests (s : Settings) (tr : Translator) (before : List Request) (text : Text) :
    (∀ raw asked, asked? s raw = some asked ↔ Asks s raw asked) ∧
      ∃ passed rest, Text.lines text = passed ++ rest ∧ Passes s tr before passed ∧
        Stops s tr (before ++ requestsOf s passed) rest (content s tr before text) :=
  ⟨fun _ _ => asked?_eq_some_iff, lines_stops s tr before (Text.lines text)⟩

/-- A comment is left out, and the work ends at the failed request for the label: the item behind it
is not sent. -/
example : (content { toLang := "de".toList, translateLinkText := true }
    (fun before r => if before.isEmpty then .ok r.text else .error { fault := .serviceFailed [] none }) []
    "> note\n- hi\n[a](b)\n- bye".toList).requests =
      [⟨"hi".toList, "de".toList, none⟩, ⟨"a".toList, "de".toList, none⟩] := rfl

end Runs

end LangGen.Localization
