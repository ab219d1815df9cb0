/-
What localizing keeps of a file, line by line. Replies are pasted as they are, so the lines and
their kinds are kept exactly if each reply fits its site: it ends no line, a label does not close
its brackets to another target, and a variation stays one (`keepsLines_iff`).
-/
import LangGen.Proofs.Localization.Site

namespace LangGen.Localization

open Line

/-! ## Kinds of lines -/

/-- Whether a line is copied but for the blanks around it: a header, an entity definition, or an
item that opens a branch. -/
def Verbatim (raw : Text) : Prop :=
  lead? raw = some templateMark ∨ lead? raw = some entityMark ∨
    ∃ mark payload, item? raw = some (mark, payload) ∧ ∀ v, Payload.ofText payload ≠ .variation v

/-- Whether a line keeps its kind when it is written as `l`. -/
structure Kept (raw l : Text) : Prop where
  blank : Text.allBlank raw = true → Text.allBlank l = true
  comment : lead? raw = some commentMark → lead? l = some commentMark
  verbatim : Verbatim raw → l = Text.trim raw
  /-- A reference keeps its target, whatever its label. -/
  reference : ∀ label target, fileReference? raw = some (label, target) →
    ∃ label', fileReference? l = some (label', target)
  /-- A variation keeps its mark, and its payload is still a variation. -/
  variation : ∀ mark text, item? raw = some (mark, text) → text ≠ [] →
    Payload.ofText text = .variation text →
      ∃ text', item? l = some (mark, text') ∧ text' ≠ [] ∧ Payload.ofText text' = .variation text'

/-- Whether a text keeps its lines, with one empty line behind them. -/
def KeepsLines (text out : Text) : Prop :=
  ∃ ls, Text.lines out = ls ++ [[]] ∧ List.Forall₂ Kept (Text.lines text) ls

section Kinds

variable {raw l : Text}

theorem kept_trim (raw : Text) : Kept raw (Text.trim raw) where
  blank h := by rw [← lead?_eq_none] at h ⊢; rw [lead?_trim, h]
  comment h := by rw [lead?_trim, h]
  verbatim _ := rfl
  reference label target h := ⟨label, by rw [fileReference?_trim, h]⟩
  variation mark text h h0 hof := ⟨text, by rw [item?_trim, h], h0, hof⟩

theorem kept_comment (h : lead? raw = some commentMark) (hl : lead? l = some commentMark) : Kept raw l where
  blank hb := by rw [← lead?_eq_none, h] at hb; cases hb
  comment _ := hl
  verbatim hv := by
    rcases hv with hv | hv | ⟨mark, payload, hi, -⟩
    · rw [h] at hv; exact absurd hv (by decide)
    · rw [h] at hv; exact absurd hv (by decide)
    · obtain ⟨hmark, hitem⟩ := lead?_of_item? hi
      rw [h] at hmark; cases hmark; exact absurd hitem (by decide)
  reference label target hr := by
    have hlead := lead?_of_fileReference? hr
    rw [h] at hlead; exact absurd hlead (by decide)
  variation mark text hi _ _ := by
    obtain ⟨hmark, hitem⟩ := lead?_of_item? hi
    rw [h] at hmark; cases hmark; exact absurd hitem (by decide)

theorem kept_reference {label target : Text} (h : fileReference? raw = some (label, target)) :
    Kept raw l ↔ ∃ label', fileReference? l = some (label', target) := by
  have hlead := lead?_of_fileReference? h
  have hnoitem : ∀ mark text, item? raw ≠ some (mark, text) := by
    intro mark text hi
    obtain ⟨hmark, hitem⟩ := lead?_of_item? hi
    rw [hlead] at hmark; cases hmark; exact absurd hitem (by decide)
  refine ⟨fun hk => hk.reference label target h, fun hl => ⟨?_, ?_, ?_, ?_, ?_⟩⟩
  · intro hb; rw [← lead?_eq_none, hlead] at hb; cases hb
  · intro hc; rw [hlead] at hc; exact absurd hc (by decide)
  · rintro (hv | hv | ⟨mark, payload, hi, -⟩)
    · rw [hlead] at hv; exact absurd hv (by decide)
    · rw [hlead] at hv; exact absurd hv (by decide)
    · exact absurd hi (hnoitem mark payload)
  · intro label₁ target₁ h₁
    rw [h] at h₁; cases h₁; exact hl
  · intro mark text hi
    exact absurd hi (hnoitem mark text)

theorem kept_variation {mark : Char} {text : Text} (h : item? raw = some (mark, text)) (h0 : text ≠ [])
    (hof : Payload.ofText text = .variation text) :
    Kept raw l ↔
      ∃ text', item? l = some (mark, text') ∧ text' ≠ [] ∧ Payload.ofText text' = .variation text' := by
  obtain ⟨hlead, hmark⟩ := lead?_of_item? h
  have hne : ∀ c, isItemMark c = false → lead? raw ≠ some c := by
    rintro c hc hl
    rw [hlead] at hl; cases hl
    rw [hmark] at hc; cases hc
  refine ⟨fun hk => hk.variation mark text h h0 hof, fun hl => ⟨?_, ?_, ?_, ?_, ?_⟩⟩
  · intro hb; rw [← lead?_eq_none, hlead] at hb; cases hb
  · exact fun hc => absurd hc (hne _ (by decide))
  · rintro (hv | hv | ⟨mark', payload, hi, hv⟩)
    · exact absurd hv (hne _ (by decide))
    · exact absurd hv (hne _ (by decide))
    · rw [h] at hi; cases hi
      exact absurd hof (hv text)
  · exact fun label target hr => absurd (lead?_of_fileReference? hr) (hne _ (by decide))
  · intro mark' text' hi _ _
    rw [h] at hi; cases hi; exact hl

end Kinds

/-! ## Replies that fit -/

/-- Whether a line keeps its kind with this reply pasted into the site. -/
def Site.Takes (r : Text) : Site → Prop
  | .comment => True
  | .label target => ']' ∉ r ∨ ∃ label, fileReference? ('[' :: r) = some (label, target)
  | .item _ => Text.trim r ≠ [] ∧ Payload.ofText (Text.trim r) = .variation (Text.trim r)

/-- Whether a reply fits its site: it ends no line, and the line keeps its kind with it. -/
structure Site.Fits (site : Site) (r : Text) : Prop where
  unbroken : Text.Unbroken r
  takes : site.Takes r

section Lines

variable {s : Settings} {tr : Translator} {raw l r text : Text} {a : Option (Site × Text)} {site : Site}

theorem fileReference?_paste_iff {target : Text} (h : fileReference? raw = some (text, target)) :
    (∃ label, fileReference? ((Site.label target).paste r) = some (label, target)) ↔
      (Site.label target).Takes r := by
  obtain ⟨-, -, -, hclose, hline, htrim⟩ := fileReference?_parts h
  unfold Site.paste Site.Takes
  rw [fileReference?_cons, fileReference?_cons]
  exact linkParts?_relabel_iff hclose hline htrim

theorem kept_paste (h : site.Of raw text) : Kept raw (site.paste r) ↔ site.Takes r := by
  cases site with
  | comment => exact ⟨fun _ => trivial, fun _ => kept_comment h.1 rfl⟩
  | label target => rw [kept_reference h, fileReference?_paste_iff h]
  | item mark =>
    obtain ⟨hitem, h0, hof⟩ := h
    rw [kept_variation hitem h0 hof, item?_paste_item (lead?_of_item? hitem).2]
    constructor
    · rintro ⟨text', heq, h0', hof'⟩
      cases heq
      exact ⟨h0', hof'⟩
    · rintro ⟨h0', hof'⟩
      exact ⟨_, rfl, h0', hof'⟩

theorem kept_copied {l : Text} (h : plan s raw = .copy l) : Kept raw l := by
  rcases plan_eq_copy h with ⟨rfl, -⟩ | ⟨label, target, href, rfl⟩
  · exact kept_trim raw
  · obtain ⟨-, -, hlabel, -⟩ := fileReference?_parts href
    exact (kept_reference href).2 ⟨label, fileReference?_paste_label href hlabel⟩

/-- A line for which the translator is not asked keeps its kind, and one with a reply does so
exactly if the site takes it. -/
theorem kept_iff (h : Pasted s tr raw a l) :
    Kept raw l ↔ ∀ site r, a = some (site, r) → site.Takes r := by
  cases h with
  | copied hplan => exact iff_of_true (kept_copied hplan) fun _ _ h => by cases h
  | asked hplan hr =>
    rw [kept_paste (plan_eq_ask hplan)]
    constructor
    · rintro htakes _ _ ⟨⟩; exact htakes
    · intro htakes; exact htakes _ _ rfl

end Lines

/-! ## Files -/

section Files

variable {s : Settings} {tr : Translator} {before : List Request} {text out : Text}

theorem forall₂_kept_iff {ls : List Text} (hls : List.Forall₂ (fun p l => Pasted s tr p.1 p.2 l)
    ((Text.lines text).zip (replies s tr before (Text.lines text))) ls) :
    List.Forall₂ Kept (Text.lines text) ls ↔
      ∀ site r, some (site, r) ∈ replies s tr before (Text.lines text) → site.Takes r :=
  forall₂_iff_replies (fun _ _ _ _ hl => kept_iff hl) (length_replies _ _) hls

/-- The lines and their kinds are kept exactly if every reply fits its site. -/
theorem keepsLines_iff (h : (content s tr before text).result = .ok out) :
    KeepsLines text out ↔
      ∀ site r, some (site, r) ∈ replies s tr before (Text.lines text) → site.Fits r := by
  constructor
  · rintro ⟨ls', hlines, hkept⟩
    obtain ⟨ls, rfl, hlen, hls⟩ := content_pasted h
    rw [Text.lines_terminated, List.append_cancel_right_eq] at hlines
    -- as many lines as texts, so no text ends a line
    have hcount : (ls.flatMap Text.lines).length = ls.length := by
      rw [hlines, ← hkept.length_eq, hlen]
    have hunbroken := Text.length_flatMap_lines.1 hcount
    rw [Text.flatMap_lines_of_unbroken hunbroken] at hlines
    rw [← hlines] at hkept
    intro site r hr
    exact ⟨(forall_unbroken_iff hlen hls).1 hunbroken site r hr, (forall₂_kept_iff hls).1 hkept site r hr⟩
  · intro hfits
    obtain ⟨ls, hlines, -, hls⟩ := lines_content h fun site r hr => (hfits site r hr).unbroken
    exact ⟨ls, hlines, (forall₂_kept_iff hls).2 fun site r hr => (hfits site r hr).takes⟩

/-- As long as no reply ends a line, a text has one line for each line that it had and an empty one
behind them. Each line for itself keeps its kind exactly if it has no reply or its site takes the
reply, so that all are kept exactly if every site takes its reply. -/
theorem content_keepsLines (h : (content s tr before text).result = .ok out)
    (hr : ∀ site r, some (site, r) ∈ replies s tr before (Text.lines text) → Text.Unbroken r) :
    (∃ ls, Text.lines out = ls ++ [[]] ∧ ls.length = (Text.lines text).length ∧
        List.Forall₂ (fun p l => Kept p.1 l ↔ ∀ site r, p.2 = some (site, r) → site.Takes r)
          ((Text.lines text).zip (replies s tr before (Text.lines text))) ls) ∧
      (KeepsLines text out ↔
        ∀ site r, some (site, r) ∈ replies s tr before (Text.lines text) → site.Takes r) := by
  constructor
  · obtain ⟨ls, hlines, hlen, hls⟩ := lines_content h hr
    exact ⟨ls, hlines, hlen, hls.imp fun _ _ => kept_iff⟩
  · rw [keepsLines_iff h]
    constructor
    · intro hfits site r hmem; exact (hfits site r hmem).takes
    · intro htakes site r hmem; exact ⟨hr site r hmem, htakes site r hmem⟩

end Files

/-- Gives this reply to every request. -/
def answering (r : String) : Translator := fun _ _ => .ok r.toList

/-- A header, a comment and a variation keep their kinds. -/
theorem content_keepsLines_greeting :
    let text := "# Greeting\n> Say hello.\n- hi".toList
    let out := "# Greeting\r\n> hallo\r\n\t- hallo\r\n".toList
    (content { toLang := "de".toList, translateComments := true } (answering "hallo") [] text).result = .ok out ∧
      KeepsLines text out := by
  have hreplies : replies { toLang := "de".toList, translateComments := true } (answering "hallo") []
      (Text.lines "# Greeting\n> Say hello.\n- hi".toList) =
        [none, some (.comment, "hallo".toList), some (.item '-', "hallo".toList)] := rfl
  have hmem : ∀ site r, some (site, r) ∈ replies { toLang := "de".toList, translateComments := true }
      (answering "hallo") [] (Text.lines "# Greeting\n> Say hello.\n- hi".toList) →
        (site = .comment ∨ site = .item '-') ∧ r = "hallo".toList := by
    intro site r hr
    rw [hreplies] at hr
    simp only [List.mem_cons, Option.some.injEq, Prod.mk.injEq, List.not_mem_nil, or_false, reduceCtorEq,
      false_or] at hr
    rcases hr with ⟨rfl, rfl⟩ | ⟨rfl, rfl⟩ <;> simp
  refine ⟨rfl, (@content_keepsLines { toLang := "de".toList, translateComments := true } (answering "hallo")
    [] _ _ rfl fun site r hr => ?_).2.2 fun site r hr => ?_⟩
  · obtain ⟨-, rfl⟩ := hmem site r hr
    decide
  · obtain ⟨rfl | rfl, rfl⟩ := hmem site r hr
    · trivial
    · exact ⟨by decide, rfl⟩

/-- A reply that ends a line, a blank one, one that opens a branch, and one that closes the label of
a reference and opens another target. -/
theorem content_not_keepsLines :
    (∃ out, (content { toLang := "de".toList } (answering "a\nb") [] "- hi".toList).result = .ok out ∧
        ¬ KeepsLines "- hi".toList out) ∧
      (∃ out, (content { toLang := "de".toList } (answering " ") [] "- hi".toList).result = .ok out ∧
        ¬ KeepsLines "- hi".toList out) ∧
      (∃ out, (content { toLang := "de".toList } (answering "IF: b") [] "- hi".toList).result = .ok out ∧
        ¬ KeepsLines "- hi".toList out) ∧
      ∃ out, (content { toLang := "de".toList, translateLinkText := true } (answering "x](c)[") []
        "[a](b)".toList).result = .ok out ∧ ¬ KeepsLines "[a](b)".toList out := by
  refine ⟨⟨_, rfl, fun hk => ?_⟩, ⟨_, rfl, fun hk => ?_⟩, ⟨_, rfl, fun hk => ?_⟩, ⟨_, rfl, fun hk => ?_⟩⟩
  · have hfits := (@keepsLines_iff { toLang := "de".toList } (answering "a\nb") [] _ _ rfl).1 hk (.item '-') _
      List.mem_cons_self
    exact absurd hfits.unbroken (by decide)
  · have hfits := (@keepsLines_iff { toLang := "de".toList } (answering " ") [] _ _ rfl).1 hk (.item '-') _
      List.mem_cons_self
    exact hfits.takes.1 rfl
  · have hfits := (@keepsLines_iff { toLang := "de".toList } (answering "IF: b") [] _ _ rfl).1 hk (.item '-') _
      List.mem_cons_self
    exact absurd hfits.takes.2 (by decide)
  · have hfits := (@keepsLines_iff { toLang := "de".toList, translateLinkText := true } (answering "x](c)[") []
      _ _ rfl).1 hk (.label "b".toList) _ List.mem_cons_self
    rcases hfits.takes with hmem | ⟨label, href⟩
    · exact absurd hmem (by decide)
    · have htarget : fileReference? "[x](c)[".toList = some ("x".toList, "c".toList) := rfl
      have hsame := htarget.symm.trans href
      cases hsame

end LangGen.Localization
