/-
Where the entities of a catalog come from. A line makes known what it mentions before it is seen
what the line is, so it must be asked of each kind of line whether the mention stays. What is taken
off a line to get its payload mentions nothing (`Line.mentions_payload`), and a payload is stored
unless it is a variation with a problem; so each name that is known has a definition, or stands in
the text of a template, or in a variation that was left out (`Catalog.entity_origin`). When strict,
no variation is left out.
-/
import LangGen.Proofs.Catalog.Declaration
import LangGen.Proofs.Catalog.Items

namespace LangGen

open Line

/-! ## Mentions of a line and of its payload -/

namespace Line

/-- The text that a payload carries. -/
def Payload.text : Payload → Text
  | .condition text | .default text | .variation text => text

theorem mentionsFrom_blanks {t : Text} (ht : ∀ c ∈ t, Text.isBlank c = true) (escaped : Bool) :
    mentionsFrom escaped t = [] := by
  induction t generalizing escaped with
  | nil => rfl
  | cons c t ih =>
    rw [List.forall_mem_cons] at ht
    have hbrace : (c == '{') = false := by
      rw [beq_eq_false_iff_ne]
      rintro rfl
      exact absurd ht.1 (by decide)
    rw [mentionsFrom, hbrace]
    exact ih ht.2 _

theorem mentionsFrom_append_blanks {t : Text} (ht : ∀ c ∈ t, Text.isBlank c = true) (s : Text) (escaped : Bool) :
    mentionsFrom escaped (s ++ t) = mentionsFrom escaped s := by
  induction s generalizing escaped with
  | nil => exact mentionsFrom_blanks ht escaped
  | cons c r ih =>
    rw [List.cons_append, mentionsFrom, mentionsFrom, ih, Text.bracedName?_append_blanks r ht, Option.map_map]
    rfl

theorem mentions_trim (s : Text) : mentions (Text.trim s) = mentions s := by
  obtain ⟨a, b, hs, ha, hb⟩ := Text.trim_split s
  have hend : mentions (Text.trim s ++ b) = mentions (Text.trim s) := by
    unfold mentions
    rw [mentionsFrom_append_blanks hb]
  rw [← hend, ← mentions_append (inert_blanks ha), ← List.append_assoc, ← hs]

/-- A word that opens a branch is taken off, and another one may be put in its place, without a
change of what is mentioned. -/
theorem mentions_ofText (payload : Text) : mentions (Payload.ofText payload).text = mentions payload := by
  have hinert : ∀ w ∈ conditionWords ++ defaultWords, Inert w := by
    have hall : ∀ w ∈ conditionWords ++ defaultWords,
        (w.all fun c => c != ']' && c != '{' && c != '\\') = true := by decide
    intro w hw c hc
    simpa [and_assoc] using List.all_eq_true.1 (hall w hw) c hc
  have hdropped : ∀ {ws : List Text} {w : Text}, ws ⊆ conditionWords ++ defaultWords →
      Text.leadOf? ws payload = some w → mentions (payload.drop w.length) = mentions payload := by
    intro ws w hws hw
    have hlead : w <+: payload := by simpa using List.find?_some hw
    have hmem : w ∈ ws := List.mem_of_find?_eq_some hw
    obtain ⟨rest, rfl⟩ := hlead
    rw [List.drop_left, mentions_append (hinert w (hws hmem))]
  unfold Payload.ofText
  split
  · rename_i hw
    exact (mentions_trim _).trans (hdropped (List.subset_append_left _ _) hw)
  · split
    · rename_i hw
      have helse : Inert elseWord := hinert elseWord (by decide)
      exact (mentions_trim _).trans ((mentions_append helse _).trans (hdropped (List.subset_append_right _ _) hw))
    · rfl

/-- A payload mentions what its line does. -/
theorem mentions_payload {line : Text} {p : Payload} (h : payload? line = some p) :
    mentions p.text = mentions (collapseLinks line) := by
  obtain ⟨-, mark, payload, hitem, rfl⟩ := payload?_eq_some h
  obtain ⟨r, hstart, hmark, rfl⟩ := item?_eq_some_iff.1 hitem
  obtain ⟨a, hsplit, ha⟩ := Text.exists_blanks_trimStart (collapseLinks line)
  have hlead : Inert (a ++ [mark]) := inert_item hmark ha fun c hc => by cases hc
  calc mentions (Payload.ofText (Text.trim r)).text
      = mentions (Text.trim r) := mentions_ofText _
    _ = mentions r := mentions_trim r
    _ = mentions ((a ++ [mark]) ++ r) := (mentions_append hlead r).symm
    _ = mentions (collapseLinks line) := by rw [← List.append_cons, ← hstart, ← hsplit]

end Line

/-! ## Texts of a template -/

/-- All that is stored of a template but its name: its variations, and the conditions and variations
of its branches. -/
def Template.texts (t : Template) : List Text :=
  t.variations ++ t.branches.flatMap fun b => b.condition :: b.variations

theorem Template.Holds.mem_texts {t : Template} {p : Payload} (h : t.Holds p) : p.text ∈ t.texts := by
  have hcondition : ∀ c ∈ t.branches.map Branch.condition, c ∈ t.texts := by
    intro c hc
    obtain ⟨b, hb, rfl⟩ := List.mem_map.1 hc
    exact List.mem_append_right _ (List.mem_flatMap.2 ⟨b, hb, List.mem_cons_self⟩)
  cases p with
  | condition c => exact hcondition c h
  | default c => exact hcondition c h
  | variation v =>
    rcases h with h | ⟨b, hb, hv⟩
    · exact List.mem_append_left _ h
    · exact List.mem_append_right _ (List.mem_flatMap.2 ⟨b, hb, List.mem_cons_of_mem _ hv⟩)

/-! ## Origins -/

/-- The variation that a line says, if it has a problem. -/
def Line.leftOut? (line : Text) : Option Text :=
  match payload? line with
  | some (.variation v) => if Variation.problem? v = none then none else some v
  | _ => none

namespace Catalog

/-- The variations of a template chunk that have a problem, and are left out unless that is a failure. -/
def leftOut (chunk : Text) : List Text := (bodyOf chunk).filterMap leftOut?

variable {strict : Bool} {source : Option Text} {chunks : List Text}

/-- What is mentioned in chunks that are read without failure stands in a template or in what is
left out. -/
theorem mention_origin (hok : (readChunks strict source {} chunks).failure = none) {chunk name : Text}
    (hchunk : chunk ∈ chunks) (hname : name ∈ mentionedBy chunk) :
    (∃ t ∈ (readChunks strict source {} chunks).state.templates, ∃ s ∈ t.texts, name ∈ mentions s) ∨
      strict = false ∧ ∃ v ∈ leftOut chunk, name ∈ mentions v := by
  obtain ⟨line, hbody, hname⟩ := List.mem_flatMap.1 hname
  obtain ⟨header, body, hkind, hlines, hline⟩ := mem_bodyOf hbody
  obtain ⟨c, hread⟩ := readTemplate_of_mem_chunks hok hchunk hkind hlines
  rcases admitted_of_readTemplate hread hline with hblank | ⟨p, conditions, hp, hadmitted⟩
  · rw [mentionedIn, if_pos hblank] at hname
    cases hname
  have htext : name ∈ mentions p.text := by
    rw [mentionedIn, if_neg (by rw [(payload?_eq_some hp).1]; exact Bool.false_ne_true), ← mentions_payload hp] at hname
    exact hname
  by_cases hwell : ∀ v, p = .variation v → Variation.problem? v = none
  · obtain ⟨t, ht, -, hholds⟩ := holds_of_mem_chunks hok hchunk hkind hlines hline hp hwell
    exact .inl ⟨t, ht, p.text, hholds.mem_texts, htext⟩
  · push Not at hwell
    obtain ⟨v, rfl, hv⟩ := hwell
    refine .inr ⟨by simpa using mt hadmitted hv, v, List.mem_filterMap.2 ⟨line, hbody, ?_⟩, htext⟩
    rw [leftOut?, hp]
    exact if_neg hv

/-- Each entity after chunks that are read without failure has a definition in them, or its name is
mentioned in a text of a template that is stored. Only when not strict there are others, whose names
are mentioned in variations that were left out. -/
theorem entity_origin (hok : (readChunks strict source {} chunks).failure = none) :
    ∀ e ∈ (readChunks strict source {} chunks).state.entities,
      (∃ chunk ∈ chunks, ∃ d, definition? chunk = some d ∧ d.name = e.name) ∨
        (∃ t ∈ (readChunks strict source {} chunks).state.templates, ∃ s ∈ t.texts, e.name ∈ mentions s) ∨
          strict = false ∧ ∃ chunk ∈ chunks, ∃ v ∈ leftOut chunk, e.name ∈ mentions v := by
  intro e he
  rw [entities_readChunks hok] at he
  obtain ⟨s, hs, rfl⟩ := List.mem_map.1 he
  obtain ⟨s', hs', hsame⟩ := List.mem_map.1 (Sighting.mem_names_joined.1 (List.mem_map_of_mem hs))
  obtain ⟨chunk, hchunk, hs'⟩ := List.mem_flatMap.1 hs'
  rw [Sighting.entity_name, ← hsame]
  rw [sightings_eq, List.mem_append, List.mem_map, List.mem_map] at hs'
  rcases hs' with ⟨name, hname, rfl⟩ | ⟨d, hd, rfl⟩
  · exact .inr ((mention_origin hok hchunk hname).imp id fun ⟨hlenient, hleft⟩ => ⟨hlenient, chunk, hchunk, hleft⟩)
  · exact .inl ⟨chunk, hchunk, d, Option.mem_toList.1 hd, rfl⟩

/-- An entity of a variation that is left out, of a condition, of a variation that is stored, and of
a definition. -/
theorem entity_origin_leftOut :
    let chunks := ["# A\n- {x} \x7d\n- IF: {y}\n- {z}", "$ w : int"].map String.toList
    let result := readChunks false none {} chunks
    result.failure = none ∧ result.state.entities.map Entity.name = ["x", "y", "z", "w"].map String.toList ∧
      ∀ e ∈ result.state.entities,
        (∃ chunk ∈ chunks, ∃ d, definition? chunk = some d ∧ d.name = e.name) ∨
          (∃ t ∈ result.state.templates, ∃ s ∈ t.texts, e.name ∈ mentions s) ∨
            ∃ chunk ∈ chunks, ∃ v ∈ leftOut chunk, e.name ∈ mentions v := by
  intro chunks result
  have hok : (readChunks false none {} chunks).failure = none := by decide +kernel
  exact ⟨hok, by decide +kernel, fun e he => (entity_origin hok e he).imp id fun h => h.imp id And.right⟩

/-- A name may be known that has no definition and is mentioned in no text that is stored. -/
theorem entity_of_leftOut :
    ¬ ∀ (strict : Bool) (source : Option Text) (chunks : List Text),
      (readChunks strict source {} chunks).failure = none →
        ∀ e ∈ (readChunks strict source {} chunks).state.entities,
          (∃ chunk ∈ chunks, ∃ d, definition? chunk = some d ∧ d.name = e.name) ∨
            ∃ t ∈ (readChunks strict source {} chunks).state.templates, ∃ s ∈ t.texts, e.name ∈ mentions s := by
  intro h
  have hundefined : definition? "# A\n- {x} \x7d\n- hi".toList = none := by decide +kernel
  -- the first variation has a brace too many and is left out
  rcases h false none ["# A\n- {x} \x7d\n- hi".toList] (by decide +kernel) { name := "x".toList } (by decide +kernel)
    with ⟨chunk, hchunk, d, hd, -⟩ | hstored
  · rw [List.mem_singleton.1 hchunk, hundefined] at hd
    cases hd
  · exact absurd hstored (by decide +kernel)

end Catalog

end LangGen
