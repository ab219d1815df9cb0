/-
A file that is localized by a translator that returns each text as it is means what it meant before.
Lines are written anew, with other blanks around them and without what follows a reference, but each
is read as the same thing (`Echoed`); so the chunks are made up of the same items, and are read alike.
-/
import LangGen.Proofs.Catalog.Alike
import LangGen.Proofs.Chunk
import LangGen.Proofs.Localization.Site

namespace LangGen

open Line

/-! ## Items -/

namespace Line

/-- Two list items with one mark and one payload. -/
inductive SameItem : Text → Text → Prop
  | intro {a b a' b' payload : Text} {mark : Char} (hmark : isItemMark mark = true)
      (ha : ∀ c ∈ a, Text.isBlank c = true) (hb : ∀ c ∈ b, Text.isBlank c = true)
      (ha' : ∀ c ∈ a', Text.isBlank c = true) (hb' : ∀ c ∈ b', Text.isBlank c = true) :
      SameItem (a ++ mark :: (b ++ payload)) (a' ++ mark :: (b' ++ payload))

/-- An item without the blanks at its end. -/
theorem trimEnd_item {line payload : Text} {mark : Char} (h : item? line = some (mark, payload)) :
    ∃ a b, Text.trimEnd line = a ++ mark :: (b ++ payload) ∧ (∀ c ∈ a, Text.isBlank c = true) ∧
      ∀ c ∈ b, Text.isBlank c = true := by
  obtain ⟨r, hstart, hmark, rfl⟩ := item?_eq_some_iff.1 h
  have hblank := isBlank_of_isItemMark hmark
  have hend : Text.trimEnd (mark :: r) = mark :: Text.trimEnd r := Text.trimEnd_cons hblank r
  refine ⟨line.takeWhile Text.isBlank, (Text.trimEnd r).takeWhile Text.isBlank, ?_,
    fun c hc => List.mem_takeWhile_imp hc, fun c hc => List.mem_takeWhile_imp hc⟩
  have hr : (Text.trimEnd r).takeWhile Text.isBlank ++ Text.trim r = Text.trimEnd r := by
    rw [← Text.trimStart_trimEnd]
    exact List.takeWhile_append_dropWhile
  have hline : line = line.takeWhile Text.isBlank ++ mark :: r := by
    rw [← hstart]
    exact List.takeWhile_append_dropWhile.symm
  rw [hr, ← hend, ← Text.trimEnd_append (by rw [hend]; exact List.cons_ne_nil _ _), ← hline]

theorem sameItem_trimEnd {line line' payload : Text} {mark : Char} (h : item? line = some (mark, payload))
    (h' : item? line' = some (mark, payload)) : SameItem (Text.trimEnd line) (Text.trimEnd line') := by
  obtain ⟨a, b, hline, ha, hb⟩ := trimEnd_item h
  obtain ⟨a', b', hline', ha', hb'⟩ := trimEnd_item h'
  rw [hline, hline']
  exact .intro (lead?_of_item? h).2 ha hb ha' hb'

/-- A text that neither closes a label nor has to do with mentions. -/
def Inert (s : Text) : Prop := ∀ c ∈ s, c ≠ ']' ∧ c ≠ '{' ∧ c ≠ '\\'

theorem inert_blanks {s : Text} (h : ∀ c ∈ s, Text.isBlank c = true) : Inert s := by
  intro c hc
  have hblank := h c hc
  refine ⟨?_, ?_, ?_⟩ <;> (rintro rfl; exact absurd hblank (by decide))

theorem inert_item {a b : Text} {mark : Char} (hmark : isItemMark mark = true)
    (ha : ∀ c ∈ a, Text.isBlank c = true) (hb : ∀ c ∈ b, Text.isBlank c = true) :
    Inert (a ++ mark :: b) := by
  intro c hc
  rcases List.mem_append.1 hc with hc | hc
  · exact inert_blanks ha c hc
  · rcases List.mem_cons.1 hc with rfl | hc
    · refine ⟨?_, ?_, ?_⟩ <;> (rintro rfl; exact absurd hmark (by decide))
    · exact inert_blanks hb c hc

theorem collapseLinks_append {w : Text} (hw : Inert w) (s : Text) :
    collapseLinks (w ++ s) = w ++ collapseLinks s := by
  induction w with
  | nil => rfl
  | cons c w ih =>
    have hc : (c == ']') = false := by simpa using (hw c List.mem_cons_self).1
    have hrest := ih fun x hx => hw x (.tail c hx)
    unfold collapseLinks at hrest ⊢
    rw [List.cons_append, collapseFrom, hc]
    simpa using hrest

/-- What stands before the payload opens no link, so that links are those of the payload. -/
theorem item?_collapseLinks {a b : Text} {mark : Char} (hmark : isItemMark mark = true)
    (ha : ∀ c ∈ a, Text.isBlank c = true) (hb : ∀ c ∈ b, Text.isBlank c = true) (payload : Text) :
    collapseLinks (a ++ mark :: (b ++ payload)) = a ++ mark :: (b ++ collapseLinks payload) ∧
      item? (collapseLinks (a ++ mark :: (b ++ payload))) = some (mark, Text.trim (collapseLinks payload)) := by
  have hsplit : ∀ s, a ++ mark :: (b ++ s) = (a ++ mark :: b) ++ s := fun s => by simp
  have hcollapse : collapseLinks (a ++ mark :: (b ++ payload)) = a ++ mark :: (b ++ collapseLinks payload) := by
    rw [hsplit, hsplit, collapseLinks_append (inert_item hmark ha hb)]
  exact ⟨hcollapse, by rw [hcollapse, item?_cons ha hmark, Text.trim_blanks_append hb]⟩

theorem mentions_append {w : Text} (hw : Inert w) (s : Text) : mentions (w ++ s) = mentions s := by
  have hfrom : mentionsFrom false (w ++ s) = mentionsFrom false s := by
    induction w with
    | nil => rfl
    | cons c w ih =>
      obtain ⟨-, hbrace, hslash⟩ := hw c List.mem_cons_self
      have h1 : (c == '{') = false := by simpa using hbrace
      have h2 : (c == '\\') = false := by simpa using hslash
      rw [List.cons_append, mentionsFrom, h1, h2]
      exact ih fun x hx => hw x (.tail c hx)
  unfold mentions
  rw [hfrom]

end Line

/-- An item is read by its payload, whatever its mark and the blanks around it. -/
theorem Body.readLine_item (strict : Bool) (body : Body) {a b : Text} {mark : Char}
    (hmark : isItemMark mark = true) (ha : ∀ c ∈ a, Text.isBlank c = true)
    (hb : ∀ c ∈ b, Text.isBlank c = true) (payload : Text) :
    body.readLine strict (a ++ mark :: (b ++ payload)) =
      Body.readPayload strict
        { body with entities := (mentions (collapseLinks payload)).foldl addMention body.entities }
        (.ofText (Text.trim (collapseLinks payload))) := by
  obtain ⟨hcollapse, hitem⟩ := item?_collapseLinks hmark ha hb payload
  have hmentions : mentions (collapseLinks (a ++ mark :: (b ++ payload))) = mentions (collapseLinks payload) := by
    rw [hcollapse, show a ++ mark :: (b ++ collapseLinks payload) = (a ++ mark :: b) ++ collapseLinks payload by simp,
      mentions_append (inert_item hmark ha hb)]
  have hnonblank : Text.allBlank (a ++ mark :: (b ++ payload)) = false := by
    simp [Text.allBlank, isBlank_of_isItemMark hmark]
  unfold readLine
  rw [hnonblank, if_neg Bool.false_ne_true]
  dsimp only
  rw [hmentions, hitem]

theorem Body.readLine_sameItem {x y : Text} (h : SameItem x y) (strict : Bool) (body : Body) :
    body.readLine strict x = body.readLine strict y := by
  cases h with
  | intro hmark ha hb ha' hb' => rw [readLine_item strict body hmark ha hb, readLine_item strict body hmark ha' hb']

/-! ## Chunks -/

namespace Chunk

/-- Two chunks that are read alike. -/
inductive Same : List Text → List Text → Prop
  | entry {head : Text} {body body' : List Text} (h : List.Forall₂ SameItem body body') :
      Same (head :: body) (head :: body')
  /-- Of a file reference, the label and the target count. -/
  | reference {head head' label target : Text} {body body' : List Text}
      (h : fileReference? head = some (label, target)) (h' : fileReference? head' = some (label, target)) :
      Same (head :: body) (head' :: body')
  /-- Items before the first chunk are of no kind. -/
  | stray {head head' : Text} {body body' : List Text} (h : kind? head = none) (h' : kind? head' = none) :
      Same (head :: body) (head' :: body')

theorem Tidy.kind?_reference {head label target : Text} {body : List Text} (h : Tidy (head :: body))
    (href : fileReference? head = some (label, target)) : kind? head = some .reference := by
  have hlead := lead?_of_fileReference? href
  cases h with
  | intro hhead htrim _ =>
    rw [lead?_eq_head?_trim, htrim] at hlead
    obtain ⟨r, rfl⟩ := List.head?_eq_some_iff.1 hlead
    rfl

end Chunk

theorem Catalog.readChunk_same {chunk chunk' : List Text} (h : Chunk.Same chunk chunk')
    (hchunk : Chunk.Tidy chunk) (hchunk' : Chunk.Tidy chunk') (strict : Bool) (c : Catalog) :
    (c.readChunk strict (Text.joinLines chunk)).Alike (c.readChunk strict (Text.joinLines chunk')) := by
  cases h with
  | entry hbody =>
    rw [readChunk_joinLines strict c hchunk, readChunk_joinLines strict c hchunk']
    split
    · refine readTemplate_alike (fun b x y hxy => ?_) hbody _
      rw [b.readLine_sameItem hxy strict]
      exact .refl _
    · exact .refl _
    · exact .refl _
    · exact ⟨rfl, .some ⟨rfl, rfl, rfl⟩⟩
  | reference href href' =>
    rw [readChunk_joinLines strict c hchunk, readChunk_joinLines strict c hchunk',
      hchunk.kind?_reference href, hchunk'.kind?_reference href']
    exact readReference_alike href href'
  | stray hkind hkind' =>
    rw [readChunk_joinLines strict c hchunk, readChunk_joinLines strict c hchunk', hkind, hkind']
    exact ⟨rfl, .some ⟨rfl, rfl, rfl⟩⟩

/-- Two texts whose chunks are the same are read alike. -/
theorem Catalog.readContent_same {content content' : Text}
    (h : List.Forall₂ Chunk.Same (Chunk.linesOf content) (Chunk.linesOf content')) (strict : Bool)
    (source : Option Text) (c : Catalog) :
    (readContent strict source c content).Alike (readContent strict source c content') := by
  -- `Same` alone does not do: the texts of the chunks are read back only if their lines are tidy
  have htidy := (List.forall₂_and_left (p := Chunk.Tidy) _ _).2 ⟨fun _ => Chunk.tidy_of_mem_linesOf, h⟩
  have htidy' := (List.forall₂_and_left (p := Chunk.Tidy) _ _).2 ⟨fun _ => Chunk.tidy_of_mem_linesOf, htidy.flip⟩
  unfold readContent readChunks Chunk.split
  refine readEach_alike (R := fun x y => ∀ c : Catalog, (c.readChunk strict x).Alike (c.readChunk strict y))
    (fun n c x y hxy => ?_) 0 c ?_
  · exact (hxy c).within rfl rfl
  · rw [List.forall₂_map_left_iff, List.forall₂_map_right_iff]
    refine htidy'.flip.imp ?_
    rintro chunk chunk' ⟨hchunk', hchunk, hsame⟩ c
    exact readChunk_same hsame hchunk hchunk' strict c

/-! ## Lines -/

namespace Localization

/-- A line and one that is read as the same thing. -/
inductive Echoed (raw l : Text) : Prop
  | skipped (h : Chunk.counts raw = false) (h' : Chunk.counts l = false)
  | header (h : Chunk.opens raw = true) (h' : l = Text.trim raw)
  | reference {label target : Text} (h : fileReference? raw = some (label, target))
      (h' : fileReference? l = some (label, target))
  | item {payload : Text} {mark : Char} (h : item? raw = some (mark, payload))
      (h' : item? l = some (mark, payload))

/-- A translator that returns each text as it is. -/
def echo : Translator := fun _ r => .ok r.text

variable {s : Settings} {before : List Request} {raw l : Text} {a : Option (Site × Text)}

theorem echoed_trim (h : Known (lead? raw)) : Echoed raw (Text.trim raw) := by
  cases hlead : lead? raw with
  | none => exact .skipped (by rw [Chunk.counts_eq, hlead]; rfl) (by rw [Chunk.counts_eq, lead?_trim, hlead]; rfl)
  | some c =>
    rw [hlead] at h
    rcases h with rfl | hopens | hmark
    · exact .skipped (by rw [Chunk.counts_eq, hlead]; rfl) (by rw [Chunk.counts_eq, lead?_trim, hlead]; rfl)
    · exact .header (by rw [Chunk.opens_eq, hlead]; exact hopens) rfl
    · obtain ⟨payload, hitem⟩ := item?_of_lead? hlead hmark
      exact .item hitem (by rw [item?_trim, hitem])

theorem echoed_of_pasted (h : Pasted s echo raw a l) : Echoed raw l := by
  cases h with
  | copied hplan =>
    rcases plan_eq_copy hplan with ⟨rfl, hknown⟩ | ⟨label, target, href, rfl⟩
    · exact echoed_trim hknown
    · exact .reference href (fileReference?_paste_label href (fileReference?_parts href).2.2.1)
  | @asked site text r before hplan hr =>
    have hsite := plan_eq_ask hplan
    cases hr
    cases site with
    | comment =>
      refine .skipped ?_ rfl
      rw [Chunk.counts_eq, hsite.1]
      rfl
    | label target => exact .reference hsite (fileReference?_paste_label hsite (fileReference?_parts hsite).2.2.1)
    | item mark =>
      obtain ⟨hitem, -, -⟩ := hsite
      refine .item hitem ?_
      rw [item?_paste_item (lead?_of_item? hitem).2, (item?_eq_some hitem).2]

theorem Echoed.counts_eq (h : Echoed raw l) : Chunk.counts l = Chunk.counts raw := by
  cases h with
  | skipped h h' => rw [h, h']
  | header _ h' => rw [h', Chunk.counts_eq, Chunk.counts_eq, lead?_trim]
  | reference h h' =>
    rw [Chunk.counts_eq, Chunk.counts_eq, lead?_of_fileReference? h, lead?_of_fileReference? h']
  | item h h' => rw [Chunk.counts_eq, Chunk.counts_eq, (lead?_of_item? h).1, (lead?_of_item? h').1]

theorem opens_of_fileReference? {line : Text} {p : Text × Text} (h : fileReference? line = some p) :
    Chunk.opens line = true := by
  rw [Chunk.opens_eq, lead?_of_fileReference? h]
  rfl

theorem opens_of_item? {line payload : Text} {mark : Char} (h : item? line = some (mark, payload)) :
    Chunk.opens line = false := by
  obtain ⟨hlead, hmark⟩ := lead?_of_item? h
  rw [Chunk.opens_eq, hlead]
  unfold isItemMark at hmark
  simp only [Bool.or_eq_true, beq_iff_eq] at hmark
  rcases hmark with (rfl | rfl) | rfl <;> rfl

/-- Lines that are read as the same things are grouped to the same chunks. -/
theorem group_echoed : ∀ {raws ls : List Text}, List.Forall₂ Echoed raws ls →
    List.Forall₂ SameItem (Chunk.group (raws.filter Chunk.counts)).1 (Chunk.group (ls.filter Chunk.counts)).1 ∧
      List.Forall₂ Chunk.Same (Chunk.group (raws.filter Chunk.counts)).2
        (Chunk.group (ls.filter Chunk.counts)).2
  | [], [], _ => ⟨.nil, .nil⟩
  | raw :: raws, l :: ls, .cons h hrest => by
    obtain ⟨hbody, hchunks⟩ := group_echoed hrest
    cases hcounts : Chunk.counts raw with
    | false =>
      rw [List.filter_cons_of_neg (by simp [hcounts]), List.filter_cons_of_neg (by simp [h.counts_eq, hcounts])]
      exact ⟨hbody, hchunks⟩
    | true =>
      rw [List.filter_cons_of_pos hcounts, List.filter_cons_of_pos (by rw [h.counts_eq, hcounts])]
      cases h with
      | skipped h _ => rw [hcounts] at h; cases h
      | header hopens hl =>
        have hopens' : Chunk.opens l = true := by rw [hl, Chunk.opens_eq, lead?_trim, ← Chunk.opens_eq, hopens]
        rw [Chunk.group_cons_opens hopens, Chunk.group_cons_opens hopens', hl, Text.trim_trim]
        exact ⟨.nil, .cons (.entry hbody) hchunks⟩
      | reference href href' =>
        rw [Chunk.group_cons_opens (opens_of_fileReference? href),
          Chunk.group_cons_opens (opens_of_fileReference? href')]
        rw [← fileReference?_trim] at href href'
        exact ⟨.nil, .cons (.reference href href') hchunks⟩
      | item hitem hitem' =>
        rw [Chunk.group_cons (opens_of_item? hitem), Chunk.group_cons (opens_of_item? hitem')]
        exact ⟨.cons (sameItem_trimEnd hitem hitem') hbody, hchunks⟩

theorem kind?_of_item {line line' : Text} (h : SameItem line line') :
    Chunk.kind? (Text.trimStart line) = none ∧ Chunk.kind? (Text.trimStart line') = none := by
  have hitem : ∀ {a r : Text} {mark : Char}, isItemMark mark = true → (∀ c ∈ a, Text.isBlank c = true) →
      Chunk.kind? (Text.trimStart (a ++ mark :: r)) = none := by
    intro a r mark hmark ha
    rw [trimStart_cons ha (isBlank_of_isItemMark hmark)]
    unfold isItemMark at hmark
    simp only [Bool.or_eq_true, beq_iff_eq] at hmark
    rcases hmark with (rfl | rfl) | rfl <;> rfl
  cases h with
  | intro hmark ha _ ha' _ => exact ⟨hitem hmark ha, hitem hmark ha'⟩

theorem linesOf_echoed {text out : Text} {ls : List Text} (hout : Text.lines out = ls ++ [[]])
    (h : List.Forall₂ Echoed (Text.lines text) ls) :
    List.Forall₂ Chunk.Same (Chunk.linesOf text) (Chunk.linesOf out) := by
  obtain ⟨hbody, hchunks⟩ := group_echoed h
  -- the empty line at the end does not count
  have hfilter : (Text.lines out).filter Chunk.counts = ls.filter Chunk.counts := by
    rw [hout, List.filter_append]
    exact List.append_nil _
  unfold Chunk.linesOf
  rw [hfilter]
  generalize Chunk.group ((Text.lines text).filter Chunk.counts) = g at hbody hchunks
  generalize Chunk.group (ls.filter Chunk.counts) = g' at hbody hchunks
  obtain ⟨body, chunks⟩ := g
  obtain ⟨body', chunks'⟩ := g'
  cases hbody with
  | nil => exact hchunks
  | cons hitem _ => exact .cons (.stray (kind?_of_item hitem).1 (kind?_of_item hitem).2) hchunks

/-! ## Files -/

theorem Site.Of.unbroken {text : Text} {site : Site} (h : site.Of raw text) (hraw : Text.Unbroken raw) :
    Text.Unbroken text := by
  cases site with
  | comment => exact h.2 hraw
  | label target => exact hraw.of_subset (fileReference?_parts h).1
  | item mark =>
    obtain ⟨a, b, hraw', -⟩ := (item?_eq_some h.1).1
    exact hraw.of_subset fun c hc => by rw [hraw']; simp [hc]

/-- A file that is localized by a translator that returns each text as it is is read as before:
either both readings succeed, or they fail alike, and they leave the same behind. -/
theorem readContent_echo {s : Settings} {before : List Request} {text out : Text}
    (h : (content s echo before text).result = .ok out) (strict : Bool) (source : Option Text) (base : Catalog) :
    (Catalog.readContent strict source base text).Alike (Catalog.readContent strict source base out) := by
  obtain ⟨ls, -, hlen, hls⟩ := content_pasted h
  -- a reply is a piece of its line and ends no line, so that the lines are those of the plans
  have hreplies : ∀ site r, some (site, r) ∈ replies s echo before (Text.lines text) → Text.Unbroken r := by
    refine (forall₂_iff_replies (P := fun _ _ => True) (fun raw hraw a l hl => ?_) (length_replies _ _) hls).1
      ((forall₂_right_iff hlen.symm).2 fun _ _ => trivial)
    refine iff_of_true trivial fun site r ha => ?_
    cases hl with
    | copied => cases ha
    | asked hplan hr =>
      cases ha
      cases hr
      exact (plan_eq_ask hplan).unbroken (Text.unbroken_of_mem_lines hraw)
  obtain ⟨ls, hout, hlen, hls⟩ := lines_content h hreplies
  refine Catalog.readContent_same (linesOf_echoed hout ?_) strict source base
  exact (forall₂_iff_replies (Q := fun _ _ => True)
    (fun raw hraw a l hl => iff_of_true (echoed_of_pasted hl) fun _ _ _ => trivial) (length_replies _ _) hls).2
      fun _ _ _ => trivial

/-- Blanks are moved, and what follows a reference is lost. -/
theorem readContent_echo_greeting :
    let text := "> Say  hello.\n[l] (t.lg) more\n# Greeting\n  -  hi {x}\n".toList
    let out := "> Say  hello.\r\n[l](t.lg)\r\n# Greeting\r\n\t- hi {x}\r\n\r\n".toList
    (content { toLang := "de".toList, translateComments := true, translateLinkText := true } echo []
        text).result = .ok out ∧
      (Catalog.readContent true none {} text).Alike (Catalog.readContent true none {} out) :=
  ⟨rfl, @readContent_echo { toLang := "de".toList, translateComments := true, translateLinkText := true } [] _ _ rfl
    true none {}⟩

end Localization

end LangGen
