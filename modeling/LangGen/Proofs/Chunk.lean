/-
The chunks of a text and their lines. Joining the lines of a chunk loses nothing: no line is empty
or holds a line end, and no blank stands where trimming would cut it off, so that a chunk is read
line by line as it was grouped (`readChunk_joinLines`).
-/
import LangGen.Chunk
import LangGen.Catalog.Reading
import LangGen.Proofs.Line.Reference
import LangGen.Proofs.Text.Lines

namespace LangGen

namespace Chunk

open Line

theorem counts_eq (line : Text) : counts line = (lead? line).elim false (· != commentMark) := by
  unfold counts lead?
  cases Text.trimStart line <;> rfl

theorem opens_eq (line : Text) : opens line = (lead? line).elim false opensChunk := by
  unfold opens lead?
  cases Text.trimStart line <;> rfl

theorem group_cons_opens {line : Text} (h : opens line = true) (rest : List Text) :
    group (line :: rest) = ([], (Text.trim line :: (group rest).1) :: (group rest).2) := by
  rw [group]
  simp [h]

theorem group_cons {line : Text} (h : opens line = false) (rest : List Text) :
    group (line :: rest) = (Text.trimEnd line :: (group rest).1, (group rest).2) := by
  rw [group]
  simp [h]

/-! ## Grouped lines -/

theorem counts_of_opens {line : Text} (h : opens line = true) : counts line = true := by
  rw [opens_eq] at h
  rw [counts_eq]
  cases hlead : lead? line with
  | none => rw [hlead] at h; cases h
  | some c =>
    rw [hlead] at h
    show (c != commentMark) = true
    rw [bne_iff_ne]
    rintro rfl
    exact absurd h (by decide)

theorem opens_trimEnd (line : Text) : opens (Text.trimEnd line) = opens line := by
  rw [opens_eq, opens_eq, lead?_eq_head?_trim line, ← Text.trimStart_trimEnd]
  rfl

theorem kind?_trimStart {line : Text} : kind? (Text.trimStart line) = none ↔ opens line = false := by
  unfold opens opensChunk
  cases Text.trimStart line with
  | nil => simp [kind?]
  | cons c r =>
    simp only [kind?, Bool.or_eq_false_iff, beq_eq_false_iff_ne]
    split_ifs with ht hr he
    · simp [ht]
    · simp [hr]
    · simp [he]
    · simp [ht, hr, he]

theorem exists_kind?_trim {header : Text} (h : opens header = true) :
    ∃ kind, kind? (Text.trim header) = some kind := by
  rw [← Option.ne_none_iff_exists', ne_eq, ← Text.trimStart_trimEnd, kind?_trimStart, opens_trimEnd, h]
  exact Bool.noConfusion

theorem opens_of_mem_group : ∀ {ls : List Text} {l : Text}, l ∈ (group ls).1 → opens l = false
  | line :: rest, l, h => by
    cases hopens : opens line with
    | true => rw [group_cons_opens hopens] at h; cases h
    | false =>
      rw [group_cons hopens] at h
      rcases List.mem_cons.1 h with rfl | h
      · rw [opens_trimEnd, hopens]
      · exact opens_of_mem_group h

/-- Lines that open no chunk belong to the chunk above them. -/
theorem group_append_body (rest : List Text) : ∀ {body : List Text}, (∀ l ∈ body, opens l = false) →
    group (body ++ rest) = (body.map Text.trimEnd ++ (group rest).1, (group rest).2)
  | [], _ => rfl
  | l :: body, h => by
    rw [List.cons_append, group_cons (h l List.mem_cons_self),
      group_append_body rest fun x hx => h x (.tail l hx)]
    rfl

/-- A line that opens a chunk ends the one above it. -/
theorem group_append_opens {header : Text} (h : opens header = true) (rest : List Text) : ∀ above : List Text,
    group (above ++ header :: rest) =
      ((group above).1, (group above).2 ++ (Text.trim header :: (group rest).1) :: (group rest).2)
  | [] => by rw [List.nil_append, group_cons_opens h]; rfl
  | l :: above => by
    rw [List.cons_append]
    cases hl : opens l with
    | true => rw [group_cons_opens hl, group_cons_opens hl, group_append_opens h rest above]; rfl
    | false => rw [group_cons hl, group_cons hl, group_append_opens h rest above]

/-! ## Lines of chunks -/

/-- A line of a chunk: neither empty nor broken, and without blanks at its end. -/
structure Solid (line : Text) : Prop where
  ne_nil : line ≠ []
  unbroken : Text.Unbroken line
  trimEnd : Text.trimEnd line = line

/-- The lines of a chunk. The first one has no blanks around it. -/
inductive Tidy : List Text → Prop
  | intro {head : Text} {body : List Text} (hhead : Solid head) (htrim : Text.trim head = head)
      (hbody : ∀ line ∈ body, Solid line) : Tidy (head :: body)

theorem trim_ne_nil_of_counts {line : Text} (h : counts line = true) : Text.trim line ≠ [] := by
  rw [counts_eq] at h
  intro h0
  rw [lead?_eq_head?_trim, h0] at h
  cases h

theorem solid_trim {line : Text} (hcounts : counts line = true) (hline : Text.Unbroken line) :
    Solid (Text.trim line) where
  ne_nil := trim_ne_nil_of_counts hcounts
  unbroken := hline.trim
  trimEnd := List.rdropWhile_idempotent Text.isBlank (Text.trimStart line)

theorem solid_trimEnd {line : Text} (hcounts : counts line = true) (hline : Text.Unbroken line) :
    Solid (Text.trimEnd line) where
  ne_nil h := by
    refine trim_ne_nil_of_counts hcounts ?_
    rw [← Text.trimStart_trimEnd, h]
    rfl
  unbroken := hline.of_subset (List.rdropWhile_prefix Text.isBlank line).subset
  trimEnd := List.rdropWhile_idempotent Text.isBlank line

theorem group_tidy : ∀ {ls : List Text}, (∀ l ∈ ls, counts l = true ∧ Text.Unbroken l) →
    (∀ l ∈ (group ls).1, Solid l) ∧ ∀ chunk ∈ (group ls).2, Tidy chunk
  | [], _ => ⟨by simp [group], by simp [group]⟩
  | line :: rest, h => by
    obtain ⟨hcounts, hline⟩ := h line List.mem_cons_self
    obtain ⟨hbody, hchunks⟩ := group_tidy fun l hl => h l (.tail line hl)
    cases hopens : opens line with
    | true =>
      rw [group_cons_opens hopens]
      refine ⟨by simp, fun chunk hchunk => ?_⟩
      rcases List.mem_cons.1 hchunk with rfl | hchunk
      · exact .intro (solid_trim hcounts hline) (Text.trim_trim line) hbody
      · exact hchunks chunk hchunk
    | false =>
      rw [group_cons hopens]
      refine ⟨fun l hl => ?_, hchunks⟩
      rcases List.mem_cons.1 hl with rfl | hl
      · exact solid_trimEnd hcounts hline
      · exact hbody l hl

/-- The lines of a text that count. -/
def countedLines (content : Text) : List Text := (Text.lines content).filter counts

theorem counted_of_mem {content l : Text} (h : l ∈ countedLines content) :
    counts l = true ∧ Text.Unbroken l := by
  obtain ⟨hl, hcounts⟩ := List.mem_filter.1 h
  exact ⟨hcounts, Text.unbroken_of_mem_lines hl⟩

/-! ## Joined lines -/

theorem getLast?_of_solid {line : Text} (h : Solid line) :
    ∃ c, line.getLast? = some c ∧ Text.isBlank c = false := by
  have hlast := List.rdropWhile_eq_self_iff.1 h.trimEnd h.ne_nil
  exact ⟨line.getLast h.ne_nil, List.getLast?_eq_some_getLast h.ne_nil, by simpa using hlast⟩

theorem getLast?_joinLines : ∀ {ls : List Text}, ls ≠ [] → (∀ l ∈ ls, Solid l) →
    ∃ c, (Text.joinLines ls).getLast? = some c ∧ Text.isBlank c = false
  -- the last character of the last line is no blank
  | [l], _, h => getLast?_of_solid (h l List.mem_cons_self)
  | l :: l' :: ls, _, h => by
    obtain ⟨c, hc, hblank⟩ := getLast?_joinLines (List.cons_ne_nil l' ls) fun x hx => h x (.tail l hx)
    refine ⟨c, ?_, hblank⟩
    have hjoin : Text.joinLines (l :: l' :: ls) = (l ++ ['\n']) ++ Text.joinLines (l' :: ls) := by
      simp [Text.joinLines, Text.join]
    rw [hjoin, List.getLast?_append, hc]
    rfl

theorem joinLines_cons (head : Text) (body : List Text) :
    ∃ rest, Text.joinLines (head :: body) = head ++ rest := by
  cases body with
  | nil => exact ⟨[], by simp [Text.joinLines, Text.join]⟩
  | cons l ls => exact ⟨'\n' :: Text.joinLines (l :: ls), by simp [Text.joinLines, Text.join]⟩

theorem Solid.trimStart {line : Text} (h : Solid line) : Text.trimStart line = Text.trim line := by
  rw [← Text.trimStart_trimEnd, h.trimEnd]

/-- The chunks of a text that starts with one. -/
theorem linesOf_of_nil {content : Text} (h : (group (countedLines content)).1 = []) :
    linesOf content = (group (countedLines content)).2 := by
  unfold countedLines at h ⊢
  unfold linesOf
  generalize group ((Text.lines content).filter counts) = g at h ⊢
  obtain ⟨body, chunks⟩ := g
  dsimp only at h
  rw [h]

/-- The chunks of a text with lines before the first one. -/
theorem linesOf_of_cons {content l : Text} {body : List Text} (h : (group (countedLines content)).1 = l :: body) :
    linesOf content = (Text.trimStart l :: body) :: (group (countedLines content)).2 := by
  unfold countedLines at h ⊢
  unfold linesOf
  generalize group ((Text.lines content).filter counts) = g at h ⊢
  obtain ⟨stray, chunks⟩ := g
  dsimp only at h
  rw [h]

/-- The lines of a text make up chunks that can be joined. -/
theorem tidy_of_mem_linesOf {content : Text} {chunk : List Text} (h : chunk ∈ linesOf content) : Tidy chunk := by
  obtain ⟨hbody, hchunks⟩ := @group_tidy (countedLines content) fun l hl => counted_of_mem hl
  cases hstray : (group (countedLines content)).1 with
  | nil =>
    rw [linesOf_of_nil hstray] at h
    exact hchunks chunk h
  | cons line body =>
    rw [linesOf_of_cons hstray] at h
    rw [hstray] at hbody
    rcases List.mem_cons.1 h with rfl | h
    · have hline := hbody line List.mem_cons_self
      rw [hline.trimStart]
      obtain ⟨c, hlast, hblank⟩ := getLast?_of_solid hline
      have hne : Text.trim line ≠ [] := by
        intro h0
        rw [Text.forall_blank_of_trim h0 c (List.mem_of_getLast? hlast)] at hblank
        cases hblank
      exact .intro ⟨hne, hline.unbroken.trim, List.rdropWhile_idempotent Text.isBlank _⟩ (Text.trim_trim line)
        fun l hl => hbody l (.tail line hl)
    · exact hchunks chunk h

theorem Tidy.forall_solid {chunk : List Text} (h : Tidy chunk) : ∀ l ∈ chunk, Solid l := by
  cases h with
  | intro hhead _ hbody => exact List.forall_mem_cons.2 ⟨hhead, hbody⟩

theorem Tidy.ne_nil {chunk : List Text} (h : Tidy chunk) : chunk ≠ [] := by
  cases h; exact List.cons_ne_nil _ _

/-- A joined chunk has no blanks around it. -/
theorem trim_joinLines {chunk : List Text} (h : Tidy chunk) :
    Text.trim (Text.joinLines chunk) = Text.joinLines chunk := by
  obtain ⟨c, hlast, hblank⟩ := getLast?_joinLines h.ne_nil h.forall_solid
  have hstart : Text.trimStart (Text.joinLines chunk) = Text.joinLines chunk := by
    cases h with
    | @intro head body hhead htrim hbody =>
      obtain ⟨rest, hrest⟩ := joinLines_cons head body
      obtain ⟨x, hx⟩ := Option.isSome_iff_exists.1 (List.isSome_head?.2 hhead.ne_nil)
      have hxblank : Text.isBlank x = false := by
        refine @isBlank_of_lead? head _ ?_
        rw [lead?_eq_head?_trim, htrim, hx]
      apply Text.trimStart_of_forall
      intro y hy
      rw [hrest, List.head?_append, hx] at hy
      cases hy
      exact hxblank
  unfold Text.trim
  rw [hstart, Text.trimEnd_eq, List.rdropWhile_eq_self_iff]
  intro hne
  rw [List.getLast?_eq_some_getLast hne] at hlast
  cases hlast
  simp [hblank]

theorem lines_joinLines {chunk : List Text} (h : Tidy chunk) : Text.lines (Text.joinLines chunk) = chunk :=
  Text.lines_joinLines h.ne_nil fun l hl => (h.forall_solid l hl).unbroken

theorem kind?_joinLines {head : Text} (h : head ≠ []) (body : List Text) :
    kind? (Text.joinLines (head :: body)) = kind? head := by
  obtain ⟨rest, hrest⟩ := joinLines_cons head body
  rw [hrest]
  cases head with
  | nil => exact absurd rfl h
  | cons c r => rfl

end Chunk

/-- A chunk whose lines have been joined is read by them. -/
theorem Catalog.readChunk_joinLines (strict : Bool) (c : Catalog) {head : Text} {body : List Text}
    (h : Chunk.Tidy (head :: body)) :
    c.readChunk strict (Text.joinLines (head :: body)) =
      match Chunk.kind? head with
      | some .template => c.readTemplate strict head body
      | some .reference => c.readReference head
      | some .entity => c.readEntity head
      | none => ⟨c, some { fault := .unrecognized (Text.joinLines (head :: body)) none }⟩ := by
  have hhead : head ≠ [] := by
    cases h with
    | intro hhead _ _ => exact hhead.ne_nil
  unfold readChunk Chunk.classify
  dsimp only
  rw [Chunk.trim_joinLines h, Chunk.kind?_joinLines hhead, Chunk.lines_joinLines h]
  cases Chunk.kind? head with
  | none => rfl
  | some kind => cases kind <;> rfl

end LangGen
