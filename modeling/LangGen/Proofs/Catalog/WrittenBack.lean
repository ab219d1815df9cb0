/-
Variations that are written back. What a template stores comes from lines that were read into it
(`Catalog.readChunks_each`), and such a variation is trimmed, unbroken and opens no branch; so,
written as a line of its own, it is read again, and only links can make it another one. One pass
over a line may have left a link in it, and that goes with the next pass
(`Catalog.readChunks_writtenBack`).
-/
import LangGen.Proofs.Catalog.Origin
import LangGen.Proofs.Catalog.Progress
import LangGen.Proofs.Line.Link

namespace LangGen

open Line

/-! ## Where variations come from -/

/-- All variations of a template, its own and those of its branches. -/
structure Template.Each (P : Text → Prop) (t : Template) : Prop where
  variations : ∀ v ∈ t.variations, P v
  branches : ∀ b ∈ t.branches, ∀ v ∈ b.variations, P v

/-- A line says a variation that has no problem. -/
def Line.Says (line v : Text) : Prop := payload? line = some (.variation v) ∧ Variation.problem? v = none

variable {P : Text → Prop}

theorem Template.Each.of_holds {t : Template} {v : Text} (h : t.Each P) (hv : t.Holds (.variation v)) : P v := by
  rcases hv with hv | ⟨b, hb, hv⟩
  · exact h.variations v hv
  · exact h.branches b hb v hv

namespace Draft

variable {d d' : Draft} {p : Payload} {v : Text}

theorem each_of_settle (h : d.settle.template.Each P) : d.template.Each P := by
  rcases d with ⟨t, _ | _ | b⟩
  · exact h
  · exact h
  · exact ⟨h.variations, fun b' hb' => h.branches b' (List.mem_append_left _ hb')⟩

theorem each_addVariation (h : d.settle.template.Each P) (hv : P v) :
    (d.addVariation v).settle.template.Each P := by
  rcases d with ⟨t, _ | condition | b⟩
  · exact ⟨forall_mem_addNew h.variations hv, h.branches⟩
  · refine ⟨h.variations, forall_mem_changeLast h.branches fun b hb _ => ?_⟩
    exact forall_mem_addNew (h.branches b hb) hv
  · refine ⟨h.variations, fun b' hb' => ?_⟩
    rcases List.mem_append.1 hb' with hb' | hb'
    · exact h.branches b' (List.mem_append_left _ hb')
    · rw [List.mem_singleton.1 hb']
      exact forall_mem_addNew (h.branches b (List.mem_append_right _ (List.mem_singleton_self b))) hv

/-- The branch that is not in the template yet counts as one of its branches. -/
theorem Step.each (h : Step d p d') (hd : d.settle.template.Each P)
    (hp : ∀ v, p = .variation v → Variation.problem? v = none → P v) : d'.settle.template.Each P := by
  cases h with
  | ignored => exact hd
  | added hv => exact each_addVariation hd (hp _ rfl hv)
  | reopened => exact hd
  | opened =>
    refine ⟨hd.variations, fun b hb v hv => ?_⟩
    rcases List.mem_append.1 hb with hb | hb
    · exact hd.branches b hb v hv
    · rw [List.mem_singleton.1 hb] at hv
      cases hv
  | refused =>
    rcases d with ⟨t, _ | _ | b⟩ <;> exact hd

end Draft

theorem Body.after_each {strict : Bool} {b : Body} {lines : List Text} (hb : b.draft.settle.template.Each P)
    (hlines : ∀ line ∈ lines, ∀ v, Says line v → P v) : (b.after strict lines).draft.settle.template.Each P := by
  refine readEach_keeps_of_mem (P := fun b : Body => b.draft.settle.template.Each P) ?_ hb
  intro line hline n b' hb'
  show (b'.readLine strict line).state.draft.settle.template.Each P
  rcases readLine_cases strict b' line with hs | ⟨-, hs | ⟨p, hp, hs⟩⟩
  · rw [hs]
    exact hb'
  · rw [hs]
    exact hb'
  · exact hs.each hb' fun v hv hok => hlines line hline v ⟨hv ▸ hp, hok⟩

namespace Catalog

variable {strict : Bool} {source : Option Text} {c : Catalog} {chunk name v : Text} {chunks : List Text}

theorem readChunk_each (hc : ∀ t ∈ c.templates, t.Each P) (hlines : ∀ line ∈ bodyOf chunk, ∀ v, Says line v → P v) :
    ∀ t ∈ (c.readChunk strict chunk).state.templates, t.Each P := by
  cases htemplate : Chunk.template? chunk with
  | none =>
    obtain ⟨o, hwhole, ho⟩ := readChunk_whole (c := c) htemplate
    rw [ho]
    cases hwhole with
    | refused => exact hc
    | referred => exact hc
    | defined =>
      rw [defineEntity_templates]
      exact hc
  | some template =>
    obtain ⟨name, body⟩ := template
    rw [bodyOf_of_template? htemplate] at hlines
    have hstart : (c.start name).draft.settle.template.Each P := by
      show (c.templateOr name).Each P
      unfold templateOr
      cases hlast : c.lastTemplate? name with
      | none => exact ⟨fun v hv => (by cases hv), fun b hb => by cases hb⟩
      | some t => exact hc t (lastTemplate?_eq_some hlast).1
    have hbody : (c.readBody strict name body).state.draft.settle.template.Each P := Body.after_each hstart hlines
    rw [readChunk_of_template? htemplate]
    dsimp only
    split
    · exact forall_mem_changeLast hc fun _ _ _ => Draft.each_of_settle hbody
    · unfold finish
      dsimp only
      split
      · exact forall_mem_changeLast hc fun _ _ _ => hbody
      · intro t ht
        rcases List.mem_append.1 ht with ht | ht
        · exact hc t ht
        · rw [List.mem_singleton.1 ht]
          exact hbody

/-- What holds of all variations that are there, and of those that the lines say, holds of all that
are stored. -/
theorem readChunks_each (hc : ∀ t ∈ c.templates, t.Each P)
    (hlines : ∀ line ∈ chunks.flatMap bodyOf, ∀ v, Says line v → P v) :
    ∀ t ∈ (readChunks strict source c chunks).state.templates, t.Each P := by
  refine readEach_keeps_of_mem (P := fun c : Catalog => ∀ t ∈ c.templates, t.Each P) ?_ hc
  intro chunk hchunk n c' hc'
  exact readChunk_each hc' fun line hline => hlines line (List.mem_flatMap.2 ⟨chunk, hchunk, hline⟩)

end Catalog

/-! ## Written as a line -/

namespace Line

variable {line v : Text}

/-- The line that a variation is written as. -/
def asItem (v : Text) : Text := '-' :: ' ' :: v

theorem payload?_asItem (v : Text) : payload? (asItem v) = some (.ofText (Text.trim (collapseLinks v))) := by
  have hblank : ∀ c ∈ [' '], Text.isBlank c = true := List.forall_mem_singleton.2 (by decide)
  have hitem := (item?_collapseLinks (a := []) (show isItemMark '-' = true by decide) (by simp) hblank v).2
  have hnonblank : Text.allBlank (asItem v) = false := rfl
  rw [payload?, hnonblank, if_neg Bool.false_ne_true]
  exact congrArg (Option.map fun p => Payload.ofText p.2) hitem

theorem ofText_of_plain (h : ∀ w ∈ conditionWords ++ defaultWords, ¬ w <+: v) : Payload.ofText v = .variation v := by
  have hlead : ∀ ws ⊆ conditionWords ++ defaultWords, Text.leadOf? ws v = none := fun ws hws =>
    List.find?_eq_none.2 fun w hw => by simpa using h w (hws hw)
  unfold Payload.ofText
  rw [hlead _ (List.subset_append_left _ _), hlead _ (List.subset_append_right _ _)]

/-- What a line says, written as a line of its own, says it again exactly if it has no link. -/
theorem Says.asItem_iff (h : Says line v) : Says (asItem v) v ↔ ¬ HasLink v := by
  obtain ⟨-, mark, payload, hitem, hpayload⟩ := payload?_eq_some h.1
  obtain ⟨rfl, hplain⟩ := ofText_eq_variation hpayload
  have htrim := (item?_eq_some hitem).2
  rw [Says, and_iff_left h.2, payload?_asItem, ← collapseLinks_eq_self_iff, Option.some.injEq]
  constructor
  · intro hv
    have hv := (ofText_eq_variation hv).1
    -- neither trimming nor the pass adds anything, so neither has taken anything away
    obtain ⟨a, b, hsplit, -⟩ := Text.trim_split (collapseLinks v)
    refine (collapseLinks_sublist v).eq_of_length_le ?_
    rw [hsplit, ← hv]
    simp only [List.length_append]
    omega
  · intro hv
    rw [hv, htrim, ofText_of_plain hplain]

/-- A variation has a link only if the line that says it has one that is followed by a text in
parentheses. -/
theorem Says.chained (h : Says line v) (hv : HasLink v) : Chained line := by
  obtain ⟨-, mark, payload, hitem, hpayload⟩ := payload?_eq_some h.1
  obtain ⟨rfl, -⟩ := ofText_eq_variation hpayload
  obtain ⟨⟨a, b, hsplit, -⟩, -⟩ := item?_eq_some hitem
  obtain ⟨x, t, y, rfl, hline⟩ := hv
  exact (hasLink_collapseLinks line).1 ⟨a ++ x, t, y ++ b, by simpa using hsplit, hline⟩

theorem Says.neat (h : Says line v) : Text.Neat v := by
  obtain ⟨-, mark, payload, hitem, hpayload⟩ := payload?_eq_some h.1
  obtain ⟨rfl, -⟩ := ofText_eq_variation hpayload
  refine ⟨?_, (item?_eq_some hitem).2⟩
  rintro rfl
  cases h.2

theorem Says.unbroken (h : Says line v) (hline : Text.Unbroken line) : Text.Unbroken v := by
  obtain ⟨-, mark, payload, hitem, hpayload⟩ := payload?_eq_some h.1
  obtain ⟨rfl, -⟩ := ofText_eq_variation hpayload
  obtain ⟨⟨a, b, hsplit, -⟩, -⟩ := item?_eq_some hitem
  refine hline.of_subset fun c hc => (collapseLinks_sublist line).subset ?_
  rw [hsplit]
  exact List.mem_append_left _ (List.mem_append_right _ hc)

end Line

/-! ## Written as a template -/

namespace Chunk

variable {mark : Char} {name s v : Text}

/-- The chunk of a template that has one variation. -/
def ofVariation (name v : Text) : Text := Text.joinLines [templateMark :: ' ' :: name, asItem v]

theorem solid_marked (hmark : Text.isBlank mark = false) (hs : Text.Neat s) (hline : Text.Unbroken s) :
    Solid (mark :: ' ' :: s) ∧ Text.trim (mark :: ' ' :: s) = mark :: ' ' :: s := by
  have hmarked : Text.Neat (mark :: ' ' :: s) := hs.marked hmark
  have hbreak : mark ≠ '\r' ∧ mark ≠ '\n' := by
    constructor <;> rintro rfl <;> cases hmark
  refine ⟨⟨hmarked.1, ?_, hmarked.trimEnd_eq⟩, hmarked.2⟩
  simp only [Text.unbroken_cons]
  exact ⟨hbreak, by decide, hline⟩

theorem template?_ofVariation (hname : Text.Neat name) (hname' : Text.Unbroken name) (hv : Text.Neat v)
    (hv' : Text.Unbroken v) : template? (ofVariation name v) = some (name, [asItem v]) := by
  obtain ⟨hheader, htrim⟩ := solid_marked (show Text.isBlank templateMark = false by decide) hname hname'
  have htidy : Tidy [templateMark :: ' ' :: name, asItem v] :=
    .intro hheader htrim fun l hl => by
      rw [List.mem_singleton.1 hl]
      exact (solid_marked (show Text.isBlank '-' = false by decide) hv hv').1
  refine template?_eq_some.2 ⟨?_, hname.1, templateMark :: ' ' :: name, ?_, ?_⟩
  · rw [ofVariation, trim_joinLines htidy, kind?_joinLines (List.cons_ne_nil _ _)]
    rfl
  · rw [ofVariation, trim_joinLines htidy, lines_joinLines htidy]
  · exact (Text.trim_blanks_append (List.forall_mem_singleton.2 (by decide)) name).trans hname.2

end Chunk

namespace Catalog

variable {strict : Bool} {source : Option Text} {base : Catalog} {chunk name v : Text} {chunks : List Text}

theorem readChunks_of_said (hsaid : Says (asItem v) v) (h : Chunk.template? chunk = some (name, [asItem v])) :
    readChunks strict source {} [chunk] = ⟨⟨[⟨name, [v], []⟩], Body.known [] (asItem v), []⟩, none⟩ := by
  have hline : Body.readLine strict (start {} name) (asItem v) =
      ⟨⟨Body.known [] (asItem v), ⟨⟨name, [v], []⟩, .template⟩⟩, none⟩ := by
    rw [Body.readLine_of_payload? strict _ hsaid.1, Body.readPayload, Body.addVariation_of_none strict _ hsaid.2]
    rfl
  have hbody : readBody strict {} name [asItem v] =
      ⟨⟨Body.known [] (asItem v), ⟨⟨name, [v], []⟩, .template⟩⟩, none⟩ := by
    refine (readEach_singleton ..).trans ?_
    rw [Body.readNumbered]
    exact (congrArg (Outcome.within · _) hline).trans rfl
  have hchunk : readChunk strict {} chunk = ⟨⟨[⟨name, [v], []⟩], Body.known [] (asItem v), []⟩, none⟩ := by
    rw [readChunk_of_template? h, hbody]
    rfl
  refine (readEach_singleton ..).trans ?_
  rw [hchunk]
  rfl

/-- A template with one line stores a variation exactly if the line says it. -/
theorem readChunks_stores_iff (h : Chunk.template? chunk = some (name, [asItem v])) :
    (readChunks strict source {} [chunk]).state.templates = [⟨name, [v], []⟩] ↔ Says (asItem v) v := by
  constructor
  · intro hread
    have heach : ∀ t ∈ (readChunks strict source {} [chunk]).state.templates, t.Each (Says (asItem v)) := by
      refine readChunks_each (fun t ht => by cases ht) fun line hline w hsaid => ?_
      rw [List.flatMap_singleton, bodyOf_of_template? h, List.mem_singleton] at hline
      exact hline ▸ hsaid
    rw [hread] at heach
    exact (heach _ (List.mem_singleton_self _)).variations v (List.mem_singleton_self v)
  · intro hsaid
    rw [readChunks_of_said hsaid h]

theorem unbroken_of_mem_bodyOf {line : Text} (h : line ∈ chunks.flatMap bodyOf) : Text.Unbroken line := by
  obtain ⟨chunk, -, hline⟩ := List.mem_flatMap.1 h
  obtain ⟨header, body, -, hlines, hline⟩ := mem_bodyOf hline
  exact Text.unbroken_of_mem_lines (by rw [hlines]; exact .tail _ hline)

/-- How far one pass over the links of a line goes. It leaves a link exactly where one is followed
by a text in parentheses, and only there would another pass change the line. A variation that has
been stored can be written back as a line of its own and is read again, unless it has a link; then
it is read as another one, and the line that it came from was one of those. -/
theorem readChunks_writtenBack (strict : Bool) (source : Option Text) (base : Catalog) (chunks : List Text) :
    (∀ s, (HasLink (collapseLinks s) ↔ Chained s) ∧
        (collapseLinks (collapseLinks s) = collapseLinks s ↔ ¬ Chained s)) ∧
      ∀ t ∈ (readChunks strict source base chunks).state.templates, ∀ v, t.Holds (.variation v) →
        (∀ u ∈ base.templates, ¬ u.Holds (.variation v)) →
          (¬ HasLink v → ∀ strict' (b : Body), b.readLine strict' (asItem v) =
            ⟨⟨Body.known b.entities (asItem v), b.draft.addVariation v⟩, none⟩) ∧
          (∀ strict' name, Text.Neat name → Text.Unbroken name →
            ((readChunks strict' none {} [Chunk.ofVariation name v]).state.templates = [⟨name, [v], []⟩] ↔
              ¬ HasLink v)) ∧
          (HasLink v → ∃ line ∈ chunks.flatMap bodyOf, payload? line = some (.variation v) ∧ Chained line) := by
  refine ⟨fun s => ⟨hasLink_collapseLinks s, ?_⟩, fun t ht v hv hnew => ?_⟩
  · rw [collapseLinks_eq_self_iff, hasLink_collapseLinks]
  have heach : t.Each fun v => (∃ u ∈ base.templates, u.Holds (.variation v)) ∨
      ∃ line ∈ chunks.flatMap bodyOf, Says line v := by
    refine readChunks_each (fun u hu => ⟨fun v hv => ?_, fun b hb v hv => ?_⟩) (fun line hline v hsaid => ?_) t ht
    · exact .inl ⟨u, hu, .inl hv⟩
    · exact .inl ⟨u, hu, .inr ⟨b, hb, hv⟩⟩
    · exact .inr ⟨line, hline, hsaid⟩
  obtain ⟨line, hline, hsaid⟩ := (heach.of_holds hv).resolve_left fun ⟨u, hu, hold⟩ => hnew u hu hold
  refine ⟨fun hlink strict' b => ?_, fun strict' name hname hname' => ?_, fun hlink => ?_⟩
  · have hagain := hsaid.asItem_iff.2 hlink
    rw [Body.readLine_of_payload? strict' b hagain.1, Body.readPayload, Body.addVariation_of_none strict' _ hagain.2]
  · have htemplate := Chunk.template?_ofVariation hname hname' hsaid.neat
      (hsaid.unbroken (unbroken_of_mem_bodyOf hline))
    rw [readChunks_stores_iff htemplate, hsaid.asItem_iff]
  · exact ⟨line, hline, hsaid.1, hsaid.chained hlink⟩

/-- A variation whose links are all gone is read again; so is the template that it is written to. -/
theorem readChunks_writtenBack_plain :
    let v := "see [x] and [y]".toList
    let stored := (readChunks true none {} ["# A\n- see [x](a) and [y](b)".toList]).state
    stored.templates = [⟨"A".toList, [v], []⟩] ∧ ¬ HasLink v ∧
      (∀ strict (b : Body), b.readLine strict (asItem v) =
        ⟨⟨Body.known b.entities (asItem v), b.draft.addVariation v⟩, none⟩) ∧
      (readChunks true none {} [Chunk.ofVariation "A".toList v]).state.templates = stored.templates := by
  intro v stored
  have hstored : stored.templates = [⟨"A".toList, [v], []⟩] := by decide +kernel
  have hlink : ¬ HasLink v := (collapseLinks_eq_self_iff v).1 (by decide +kernel)
  obtain ⟨hline, hchunk, -⟩ := (readChunks_writtenBack true none {} ["# A\n- see [x](a) and [y](b)".toList]).2
    ⟨"A".toList, [v], []⟩ (by unfold stored at hstored; rw [hstored]; exact List.mem_singleton_self _) v
    (.inl (List.mem_singleton_self v)) (fun u hu => by cases hu)
  refine ⟨hstored, hlink, hline hlink, ?_⟩
  rw [hstored]
  exact (hchunk true "A".toList ⟨by decide, by decide +kernel⟩ ⟨by decide, by decide⟩).2 hlink

/-- A label with two texts in parentheses behind it keeps one of them, and what is stored so is read
as another variation when it is written back. -/
theorem collapseLinks_chained :
    let line := "[x](a)(b)".toList
    HasLink (collapseLinks line) ∧ collapseLinks (collapseLinks line) ≠ collapseLinks line ∧
      ∃ v, (readChunks false none {} ["# A\n- [x](a)(b)".toList]).state.templates = [⟨"A".toList, [v], []⟩] ∧
        (readChunks false none {} [Chunk.ofVariation "A".toList v]).state.templates ≠ [⟨"A".toList, [v], []⟩] := by
  intro line
  refine ⟨⟨"[x".toList, "b".toList, [], by decide +kernel, by decide⟩, by decide +kernel, "[x](b)".toList,
    by decide +kernel, by decide +kernel⟩

end Catalog

end LangGen
