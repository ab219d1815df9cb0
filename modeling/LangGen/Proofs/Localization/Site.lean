/-
Where replies go. What a line asks of the translator, and where the reply is pasted, is decided
before the translator is asked (`plan`); a localized text is the lines of the plans, with a reply
pasted into those that ask for one (`content_pasted`).
-/
import LangGen.Localization.Content
import LangGen.Proofs.Line.Piece
import LangGen.Proofs.Line.Reference
import LangGen.Proofs.Text.Lines

namespace LangGen.Localization

open Line

/-! ## Plans -/

/-- Where a reply is pasted. -/
inductive Site
  /-- Behind the mark of a comment. -/
  | comment
  /-- As the label of a reference to this target. -/
  | label (target : Text)
  /-- Behind this mark of a list item. -/
  | item (mark : Char)
  deriving DecidableEq, Repr

/-- The line with a text pasted into its site. -/
def Site.paste : Site → Text → Text
  | .comment, r => '>' :: ' ' :: r
  | .label target, r => '[' :: (r ++ ']' :: '(' :: (target ++ [')']))
  | .item mark, r => '\t' :: mark :: ' ' :: r

/-- What becomes of a line. -/
inductive Plan
  | copy (line : Text)
  | ask (site : Site) (text : Text)
  | refuse (f : Failure)
  deriving DecidableEq, Repr

/-- What becomes of a comment, which is trimmed and starts with its mark. -/
def planComment (s : Settings) (line : Text) : Plan :=
  let body := Text.trim (line.drop 1)
  if !s.translateComments || body.isEmpty then .copy line else .ask .comment body

/-- What becomes of a trimmed line that starts with the mark of a file reference. -/
def planReference (s : Settings) (line : Text) : Plan :=
  match s.translateLinkText, fileReference? line with
  | true, some (label, target) =>
    if Text.allBlank label then .copy ((Site.label target).paste label) else .ask (.label target) label
  | _, _ => .copy line

/-- What becomes of a trimmed list item with this mark and payload. -/
def planItem (line : Text) (mark : Char) (payload : Text) : Plan :=
  match Payload.ofText payload with
  | .variation text@(_ :: _) => .ask (.item mark) text
  | _ => .copy line

/-- What becomes of a line. -/
def plan (s : Settings) (raw : Text) : Plan :=
  let line := Text.trim raw
  match line with
  | [] => .copy []
  | c :: _ =>
    if c = commentMark then planComment s line
    else if c = referenceMark then planReference s line
    else if c = entityMark ∨ c = templateMark then .copy line
    else
      match item? line with
      | some (mark, payload) => planItem line mark payload
      | none => .refuse { fault := .unrecognized line (some "Invalid line detected".toList) }

/-- Carries out a plan. -/
def Plan.run (s : Settings) (tr : Translator) (before : List Request) : Plan → Traced Failure Text
  | .copy line => .pure before line
  | .ask site text => (translate s tr before text).map site.paste
  | .refuse f => ⟨.error f, before⟩

variable {s : Settings} {tr : Translator} {before : List Request}

theorem comment_eq_run (line : Text) : comment s tr before line = (planComment s line).run s tr before := by
  unfold comment planComment
  dsimp only
  split <;> rfl

theorem reference_eq_run (line : Text) :
    reference s tr before line = (planReference s line).run s tr before := by
  have hpaste : ∀ target r, '[' :: r ++ [']', '('] ++ target ++ [')'] = (Site.label target).paste r := by
    intro target r; simp [Site.paste]
  unfold reference planReference
  cases s.translateLinkText with
  | false => rfl
  | true =>
    cases fileReference? line with
    | none => rfl
    | some p =>
      simp only [hpaste]
      split <;> rfl

theorem item_eq_run (line : Text) (mark : Char) (payload : Text) :
    item s tr before line mark payload = (planItem line mark payload).run s tr before := by
  unfold item planItem
  rcases Payload.ofText payload with _ | _ | _ | ⟨c, r⟩ <;> rfl

/-- A line is localized as planned. -/
theorem line_eq_run (s : Settings) (tr : Translator) (before : List Request) (raw : Text) :
    line s tr before raw = (plan s raw).run s tr before := by
  unfold line plan
  dsimp only
  generalize Text.trim raw = line
  cases line with
  | nil => rfl
  | cons c r =>
    dsimp only
    split
    · exact comment_eq_run _
    split
    · exact reference_eq_run _
    split
    · rfl
    cases item? (c :: r) with
    | none => rfl
    | some p => exact item_eq_run _ p.1 p.2

/-! ## What plans tell of a line -/

theorem planComment_cases (s : Settings) (line : Text) :
    planComment s line = .copy line ∨ planComment s line = .ask .comment (Text.trim (line.drop 1)) := by
  unfold planComment
  dsimp only
  split
  · exact .inl rfl
  · exact .inr rfl

theorem planReference_cases (s : Settings) (line : Text) :
    planReference s line = .copy line ∨ ∃ label target, fileReference? line = some (label, target) ∧
      (planReference s line = .copy ((Site.label target).paste label) ∨
        planReference s line = .ask (.label target) label) := by
  unfold planReference
  split
  · rename_i label target _ href
    refine .inr ⟨label, target, href, ?_⟩
    split
    · exact .inl rfl
    · exact .inr rfl
  · exact .inl rfl

theorem planItem_cases (line : Text) (mark : Char) (payload : Text) :
    planItem line mark payload = .copy line ∨
      payload ≠ [] ∧ Payload.ofText payload = .variation payload ∧
        planItem line mark payload = .ask (.item mark) payload := by
  unfold planItem
  split
  · rename_i x t hof
    obtain ⟨rfl, -⟩ := ofText_eq_variation hof
    exact .inr ⟨List.cons_ne_nil x t, hof, rfl⟩
  · exact .inl rfl

/-- What becomes of a line is decided by the character that it leads with. -/
theorem plan_cases (s : Settings) (raw : Text) :
    (lead? raw = none ∧ plan s raw = .copy (Text.trim raw)) ∨
      (lead? raw = some commentMark ∧ plan s raw = planComment s (Text.trim raw)) ∨
      (lead? raw = some referenceMark ∧ plan s raw = planReference s (Text.trim raw)) ∨
      ((lead? raw = some entityMark ∨ lead? raw = some templateMark) ∧ plan s raw = .copy (Text.trim raw)) ∨
      (∃ mark payload, item? raw = some (mark, payload) ∧ plan s raw = planItem (Text.trim raw) mark payload) ∨
        ∃ f, plan s raw = .refuse f := by
  rw [lead?_eq_head?_trim, ← item?_trim]
  unfold plan
  dsimp only
  generalize Text.trim raw = line
  cases line with
  | nil => exact .inl ⟨rfl, rfl⟩
  | cons c r =>
    dsimp only [List.head?_cons]
    split
    · rename_i hc
      exact .inr (.inl ⟨congrArg some hc, rfl⟩)
    split
    · rename_i hc
      exact .inr (.inr (.inl ⟨congrArg some hc, rfl⟩))
    split
    · rename_i hc
      exact .inr (.inr (.inr (.inl ⟨hc.imp (congrArg some) (congrArg some), rfl⟩)))
    split
    · exact .inr (.inr (.inr (.inr (.inl ⟨_, _, ‹_›, rfl⟩))))
    · exact .inr (.inr (.inr (.inr (.inr ⟨_, rfl⟩))))

/-- Whether a line that leads with this character is something known. -/
def Known : Option Char → Prop
  | none => True
  | some c => c = commentMark ∨ opensChunk c = true ∨ isItemMark c = true

/-- A line that is copied is trimmed, or a reference that is written anew around its own label. -/
theorem plan_eq_copy {raw l : Text} (h : plan s raw = .copy l) :
    (l = Text.trim raw ∧ Known (lead? raw)) ∨
      ∃ label target, fileReference? raw = some (label, target) ∧ l = (Site.label target).paste label := by
  rcases plan_cases s raw with ⟨hlead, hplan⟩ | ⟨hlead, hplan⟩ | ⟨hlead, hplan⟩ | ⟨hlead, hplan⟩ |
    ⟨mark, payload, hitem, hplan⟩ | ⟨f, hplan⟩ <;> rw [hplan] at h
  · cases h
    rw [hlead]
    exact .inl ⟨rfl, trivial⟩
  · rw [hlead]
    rcases planComment_cases s (Text.trim raw) with hcopy | hask
    · rw [hcopy] at h
      cases h
      exact .inl ⟨rfl, .inl rfl⟩
    · rw [hask] at h
      cases h
  · rcases planReference_cases s (Text.trim raw) with hcopy | ⟨label, target, href, hcopy | hask⟩
    · rw [hcopy] at h
      cases h
      rw [hlead]
      exact .inl ⟨rfl, .inr (.inl rfl)⟩
    · rw [hcopy] at h
      cases h
      rw [fileReference?_trim] at href
      exact .inr ⟨label, target, href, rfl⟩
    · rw [hask] at h
      cases h
  · cases h
    refine .inl ⟨rfl, ?_⟩
    rcases hlead with hlead | hlead <;> rw [hlead] <;> exact .inr (.inl rfl)
  · rcases planItem_cases (Text.trim raw) mark payload with hcopy | ⟨-, -, hask⟩
    · rw [hcopy] at h
      cases h
      obtain ⟨hlead, hmark⟩ := lead?_of_item? hitem
      rw [hlead]
      exact .inl ⟨rfl, .inr (.inr hmark)⟩
    · rw [hask] at h
      cases h
  · cases h

/-- What a line with a site for a text is. -/
def Site.Of (raw text : Text) : Site → Prop
  | .comment => lead? raw = some commentMark ∧ (Text.Unbroken raw → Text.Unbroken text)
  | .label target => fileReference? raw = some (text, target)
  | .item mark => item? raw = some (mark, text) ∧ text ≠ [] ∧ Payload.ofText text = .variation text

theorem plan_eq_ask {raw text : Text} {site : Site} (h : plan s raw = .ask site text) : site.Of raw text := by
  rcases plan_cases s raw with ⟨-, hplan⟩ | ⟨hlead, hplan⟩ | ⟨-, hplan⟩ | ⟨-, hplan⟩ |
    ⟨mark, payload, hitem, hplan⟩ | ⟨f, hplan⟩ <;> rw [hplan] at h
  · cases h
  · rcases planComment_cases s (Text.trim raw) with hcopy | hask
    · rw [hcopy] at h
      cases h
    · rw [hask] at h
      cases h
      exact ⟨hlead, fun hraw => (hraw.trim.of_subset (List.drop_subset 1 _)).trim⟩
  · rcases planReference_cases s (Text.trim raw) with hcopy | ⟨label, target, href, hcopy | hask⟩
    · rw [hcopy] at h
      cases h
    · rw [hcopy] at h
      cases h
    · rw [hask] at h
      cases h
      rwa [fileReference?_trim] at href
  · cases h
  · rcases planItem_cases (Text.trim raw) mark payload with hcopy | ⟨hne, hof, hask⟩
    · rw [hcopy] at h
      cases h
    · rw [hask] at h
      cases h
      exact ⟨hitem, hne, hof⟩
  · cases h

/-! ## What lines are read as -/

theorem item?_paste_item {mark : Char} (hmark : isItemMark mark = true) (r : Text) :
    item? ((Site.item mark).paste r) = some (mark, Text.trim r) := by
  have hblank : ∀ c ∈ ['\t'], Text.isBlank c = true := List.forall_mem_singleton.2 rfl
  have hitem := item?_cons (r := ' ' :: r) hblank hmark
  rw [Site.paste]
  exact hitem

/-- A reference is written anew around a label that does not close its bracket. -/
theorem fileReference?_paste_label {raw text target r : Text} (h : fileReference? raw = some (text, target))
    (hr : ']' ∉ r) : fileReference? ((Site.label target).paste r) = some (r, target) := by
  obtain ⟨-, -, -, hclose, hline, htrim⟩ := fileReference?_parts h
  unfold Site.paste
  rw [fileReference?_cons]
  exact linkParts?_relabel hclose hline htrim hr

/-! ## Replies -/

/-- The reply that a line asks for, with its site. -/
def reply? (s : Settings) (tr : Translator) (before : List Request) (raw : Text) : Option (Site × Text) :=
  match plan s raw with
  | .ask site text => (translate s tr before text).result.toOption.map (site, ·)
  | _ => none

/-- The reply for each line, if it asks for one. -/
def replies (s : Settings) (tr : Translator) : List Request → List Text → List (Option (Site × Text))
  | _, [] => []
  | before, raw :: rest => reply? s tr before raw :: replies s tr (line s tr before raw).requests rest

/-- What a line is written as, with or without a reply. -/
inductive Pasted (s : Settings) (tr : Translator) (raw : Text) : Option (Site × Text) → Text → Prop
  | copied {l : Text} (h : plan s raw = .copy l) : Pasted s tr raw none l
  | asked {site : Site} {text r : Text} {before : List Request} (h : plan s raw = .ask site text)
      (hr : tr before ⟨text, s.toLang, s.fromLang⟩ = .ok r) : Pasted s tr raw (some (site, r)) (site.paste r)

theorem line_pasted {raw l : Text} (h : (line s tr before raw).result = .ok l) :
    Pasted s tr raw (reply? s tr before raw) l := by
  rw [line_eq_run] at h
  unfold reply?
  cases hplan : plan s raw with
  | copy l' =>
    rw [hplan] at h
    cases h
    exact .copied hplan
  | ask site text =>
    rw [hplan] at h
    cases hr : tr before ⟨text, s.toLang, s.fromLang⟩ with
    | error f => simp [Plan.run, translate, Translator.ask, Traced.map, hr, Except.map] at h
    | ok r =>
      have hl : site.paste r = l := by
        simpa [Plan.run, translate, Translator.ask, Traced.map, hr, Except.map] using h
      rw [← hl]
      simpa [translate, Translator.ask, hr, Except.toOption] using Pasted.asked hplan hr
  | refuse f =>
    rw [hplan] at h
    cases h

/-- Localized lines are written as their plans and the replies have it, and end in CR LF each. -/
theorem lines_pasted : ∀ {raws : List Text} {before : List Request} {out : Text},
    (lines s tr before raws).result = .ok out → ∃ ls, out = Text.terminated ls ∧
      List.Forall₂ (fun p l => Pasted s tr p.1 p.2 l) (raws.zip (replies s tr before raws)) ls
  | [], before, out, h => by
    cases h
    exact ⟨[], rfl, .nil⟩
  | raw :: rest, before, out, h => by
    rw [lines] at h
    cases hl : line s tr before raw with
    | mk result requests =>
      rw [hl] at h
      cases result with
      | error f => cases h
      | ok l =>
        have hrest : ∃ out', (lines s tr requests rest).result = .ok out' ∧ out = l ++ '\r' :: '\n' :: out' := by
          cases hout : (lines s tr requests rest).result with
          | error f => simp [Traced.map, hout, Except.map] at h
          | ok out' =>
            refine ⟨out', rfl, ?_⟩
            simpa [Traced.map, hout, Except.map, eq_comm] using h
        obtain ⟨out', hout, rfl⟩ := hrest
        obtain ⟨ls, rfl, hls⟩ := lines_pasted hout
        refine ⟨l :: ls, by simp [Text.terminated], ?_⟩
        rw [replies, hl]
        exact .cons (line_pasted (by rw [hl])) hls

theorem length_replies : ∀ (raws : List Text) (before : List Request),
    (replies s tr before raws).length = raws.length
  | [], _ => rfl
  | raw :: rest, before => by rw [replies, List.length_cons, length_replies rest, List.length_cons]

/-! ## Line ends -/

theorem unbroken_paste_label {raw label target : Text} (h : fileReference? raw = some (label, target))
    (hraw : Text.Unbroken raw) (r : Text) :
    Text.Unbroken ((Site.label target).paste r) ↔ Text.Unbroken r := by
  have htarget := hraw.of_subset (fileReference?_parts h).2.1
  simp [Site.paste, htarget, Text.unbroken_nil]

theorem unbroken_paste {raw text : Text} {site : Site} (h : site.Of raw text) (hraw : Text.Unbroken raw)
    (r : Text) : Text.Unbroken (site.paste r) ↔ Text.Unbroken r := by
  cases site with
  | comment => simp [Site.paste]
  | label target => exact unbroken_paste_label h hraw r
  | item mark =>
    have hmark := (lead?_of_item? h.1).2
    have hend : mark ≠ '\r' ∧ mark ≠ '\n' := by constructor <;> (rintro rfl; cases hmark)
    simp [Site.paste, hend]

/-- A line is written with a line end in it only if its reply holds one. -/
theorem unbroken_iff {raw l : Text} {a : Option (Site × Text)} (h : Pasted s tr raw a l)
    (hraw : Text.Unbroken raw) :
    Text.Unbroken l ↔ ∀ site r, a = some (site, r) → Text.Unbroken r := by
  cases h with
  | copied hplan =>
    refine iff_of_true ?_ fun _ _ h => by cases h
    rcases plan_eq_copy hplan with ⟨rfl, -⟩ | ⟨label, target, href, rfl⟩
    · exact hraw.trim
    · exact (unbroken_paste_label href hraw label).2 (hraw.of_subset (fileReference?_parts href).1)
  | asked hplan hr =>
    rw [unbroken_paste (plan_eq_ask hplan) hraw]
    constructor
    · rintro hr _ _ ⟨⟩; exact hr
    · intro hr; exact hr _ _ rfl

/-- What holds of a line exactly if something holds of its reply, holds of all lines exactly if that
holds of all replies. -/
theorem forall₂_iff_replies {P : Text → Text → Prop} {Q : Site → Text → Prop} :
    ∀ {raws : List Text} {as : List (Option (Site × Text))} {ls : List Text},
    (∀ raw ∈ raws, ∀ a l, Pasted s tr raw a l → (P raw l ↔ ∀ site r, a = some (site, r) → Q site r)) →
    as.length = raws.length → List.Forall₂ (fun p l => Pasted s tr p.1 p.2 l) (raws.zip as) ls →
      (List.Forall₂ P raws ls ↔ ∀ site r, some (site, r) ∈ as → Q site r)
  | [], [], _, _, _, h => by cases h; simp
  | raw :: raws, a :: as, _, hiff, hlen, .cons hl hls => by
    have hrest := forall₂_iff_replies (fun x hx => hiff x (.tail raw hx)) (Nat.succ.inj hlen) hls
    rw [List.forall₂_cons, hiff raw List.mem_cons_self a _ hl, hrest]
    simp only [List.mem_cons]
    constructor
    · rintro ⟨h1, h2⟩ site r (ha | ha)
      · exact h1 site r ha.symm
      · exact h2 site r ha
    · intro hall
      exact ⟨fun site r ha => hall site r (.inl ha.symm), fun site r ha => hall site r (.inr ha)⟩

theorem forall₂_right_iff {α β : Type} {P : β → Prop} : ∀ {xs : List α} {ys : List β},
    xs.length = ys.length → (List.Forall₂ (fun _ y => P y) xs ys ↔ ∀ y ∈ ys, P y)
  | [], [], _ => by simp
  | x :: xs, y :: ys, h => by
    rw [List.forall₂_cons, forall₂_right_iff (Nat.succ.inj h), List.forall_mem_cons]

section Content

variable {text out : Text}

/-- The lines of a text that is localized, and their replies. -/
theorem content_pasted (h : (content s tr before text).result = .ok out) :
    ∃ ls, out = Text.terminated ls ∧ ls.length = (Text.lines text).length ∧
      List.Forall₂ (fun p l => Pasted s tr p.1 p.2 l)
        ((Text.lines text).zip (replies s tr before (Text.lines text))) ls := by
  obtain ⟨ls, hout, hls⟩ := lines_pasted h
  refine ⟨ls, hout, ?_, hls⟩
  rw [← hls.length_eq, List.length_zip, length_replies, Nat.min_self]

theorem forall_unbroken_iff {ls : List Text} (hlen : ls.length = (Text.lines text).length)
    (hls : List.Forall₂ (fun p l => Pasted s tr p.1 p.2 l)
      ((Text.lines text).zip (replies s tr before (Text.lines text))) ls) :
    (∀ l ∈ ls, Text.Unbroken l) ↔
      ∀ site r, some (site, r) ∈ replies s tr before (Text.lines text) → Text.Unbroken r := by
  rw [← forall₂_right_iff hlen.symm]
  refine forall₂_iff_replies (fun raw hraw a l hl => ?_) (length_replies _ _) hls
  exact unbroken_iff hl (Text.unbroken_of_mem_lines hraw)

/-- A text that is localized has one line for each line that it had and an empty one behind them,
when no reply ends a line. -/
theorem lines_content (h : (content s tr before text).result = .ok out)
    (hr : ∀ site r, some (site, r) ∈ replies s tr before (Text.lines text) → Text.Unbroken r) :
    ∃ ls, Text.lines out = ls ++ [[]] ∧ ls.length = (Text.lines text).length ∧
      List.Forall₂ (fun p l => Pasted s tr p.1 p.2 l)
        ((Text.lines text).zip (replies s tr before (Text.lines text))) ls := by
  obtain ⟨ls, rfl, hlen, hls⟩ := content_pasted h
  refine ⟨ls, ?_, hlen, hls⟩
  rw [Text.lines_terminated, Text.flatMap_lines_of_unbroken ((forall_unbroken_iff hlen hls).2 hr)]

end Content

end LangGen.Localization
