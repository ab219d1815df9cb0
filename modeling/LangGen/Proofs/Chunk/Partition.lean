/-
Chunks as a partition. The lines of a text that count, cut in front of each line that opens a chunk,
are the chunks: each part is trimmed, joined and nothing else (`linesOf_eq_of_cut`). Which parts
there are is settled by the lines alone, so chunks that are joined again are cut where they were cut
(`split_faithful`).
-/
import LangGen.Proofs.Chunk

namespace LangGen.Chunk

open Line

/-! ## Which lines count -/

/-- Whether a line is neither blank nor a comment. -/
def Significant (line : Text) : Prop := Text.trim line ≠ [] ∧ (Text.trim line).head? ≠ some '>'

instance (line : Text) : Decidable (Significant line) := inferInstanceAs (Decidable (_ ∧ _))

theorem counts_eq_decide (line : Text) : counts line = decide (Significant line) := by
  rw [counts_eq, lead?_eq_head?_trim, Bool.eq_iff_iff, decide_eq_true_iff]
  unfold Significant
  cases Text.trim line with
  | nil => simp
  | cons c r => simp [commentMark]

theorem countedLines_eq (content : Text) :
    countedLines content = (Text.lines content).filter fun line => Significant line := by
  unfold countedLines
  rw [show counts = fun line => decide (Significant line) from funext counts_eq_decide]

/-- Whether a text starts with a mark that opens a chunk. -/
def Marked (s : Text) : Prop := ∃ c ∈ ['#', '$', '['], s.head? = some c

theorem opens_iff (line : Text) : opens line = true ↔ Marked (Text.trim line) := by
  rw [opens_eq, lead?_eq_head?_trim, Marked]
  cases Text.trim line with
  | nil => simp
  | cons c r => simp [opensChunk, templateMark, entityMark, referenceMark, or_assoc]

theorem marked_joinLines {head : Text} (h : head ≠ []) (body : List Text) :
    Marked (Text.joinLines (head :: body)) ↔ Marked head := by
  obtain ⟨rest, hrest⟩ := joinLines_cons head body
  obtain ⟨c, r, rfl⟩ := List.exists_cons_of_ne_nil h
  rw [hrest]
  rfl

/-! ## Cuts -/

/-- The lines of a chunk as they stand in it: the first one is trimmed, the others at their end. -/
def trimmed : List Text → List Text
  | [] => []
  | first :: others => Text.trim first :: others.map Text.trimEnd

/-- Lines that are cut in front of each line that opens a chunk, and nowhere else. -/
structure Cut (ls : List Text) (parts : List (List Text)) : Prop where
  flatten : parts.flatten = ls
  ne_nil : ∀ part ∈ parts, part ≠ []
  headed : ∀ part ∈ parts.tail, ∀ line, part.head? = some line → opens line = true
  closed : ∀ part ∈ parts, ∀ line ∈ part.tail, opens line = false

theorem exists_cut : ∀ ls : List Text, ∃ parts, Cut ls parts
  | [] => ⟨[], rfl, by simp, by simp, by simp⟩
  | line :: rest => by
    obtain ⟨parts, hflat, hne, hheaded, hclosed⟩ := exists_cut rest
    cases parts with
    | nil => exact ⟨[[line]], by simp [← hflat], by simp, by simp, by simp⟩
    | cons part parts =>
      obtain ⟨next, body, rfl⟩ := List.exists_cons_of_ne_nil (hne part List.mem_cons_self)
      cases hnext : opens next with
      | true =>
        refine ⟨[line] :: (next :: body) :: parts, by simp [← hflat], ?_, ?_, ?_⟩
        · exact List.forall_mem_cons.2 ⟨List.cons_ne_nil _ _, hne⟩
        · exact List.forall_mem_cons.2 ⟨fun l hl => by cases hl; exact hnext, hheaded⟩
        · exact List.forall_mem_cons.2 ⟨by simp, hclosed⟩
      | false =>
        refine ⟨(line :: next :: body) :: parts, by simp [← hflat], ?_, hheaded, ?_⟩
        · exact List.forall_mem_cons.2 ⟨List.cons_ne_nil _ _, fun p hp => hne p (.tail _ hp)⟩
        · rw [List.forall_mem_cons] at hclosed ⊢
          exact ⟨List.forall_mem_cons.2 ⟨hnext, hclosed.1⟩, hclosed.2⟩

theorem group_flatten : ∀ {parts : List (List Text)}, (∀ part ∈ parts, part ≠ []) →
    (∀ part ∈ parts, ∀ line, part.head? = some line → opens line = true) →
    (∀ part ∈ parts, ∀ line ∈ part.tail, opens line = false) →
    group parts.flatten = ([], parts.map trimmed)
  | [], _, _, _ => rfl
  | part :: parts, hne, hheaded, hclosed => by
    rw [List.forall_mem_cons] at hne hheaded hclosed
    obtain ⟨header, body, rfl⟩ := List.exists_cons_of_ne_nil hne.1
    have hbody : ∀ line ∈ body, opens line = false := hclosed.1
    rw [List.flatten_cons, List.cons_append, group_cons_opens (hheaded.1 header rfl),
      group_append_body _ hbody, group_flatten hne.2 hheaded.2 hclosed.2, List.append_nil]
    rfl

/-- The parts of a cut are the chunks. -/
theorem linesOf_eq_of_cut {content : Text} {parts : List (List Text)} (h : Cut (countedLines content) parts) :
    linesOf content = parts.map trimmed := by
  obtain ⟨hflat, hne, hheaded, hclosed⟩ := h
  cases parts with
  | nil => rw [linesOf_of_nil (by rw [← hflat]; rfl), ← hflat]; rfl
  | cons part parts =>
    obtain ⟨first, body, rfl⟩ := List.exists_cons_of_ne_nil (hne part List.mem_cons_self)
    rw [List.forall_mem_cons] at hne
    have hrest := group_flatten hne.2 hheaded fun p hp => hclosed p (.tail _ hp)
    cases hfirst : opens first with
    | true =>
      have hall : group (countedLines content) = ([], ((first :: body) :: parts).map trimmed) := by
        rw [← hflat]
        exact group_flatten (List.forall_mem_cons.2 hne)
          (List.forall_mem_cons.2 ⟨fun l hl => by cases hl; exact hfirst, hheaded⟩) hclosed
      rw [linesOf_of_nil (by rw [hall]), hall]
    | false =>
      -- the first part comes before any line that opens a chunk
      have hpart : ∀ line ∈ first :: body, opens line = false :=
        List.forall_mem_cons.2 ⟨hfirst, hclosed _ List.mem_cons_self⟩
      have hstray : group (countedLines content) =
          (Text.trimEnd first :: body.map Text.trimEnd, parts.map trimmed) := by
        rw [← hflat, List.flatten_cons, group_append_body _ hpart, hrest, List.append_nil]
        rfl
      rw [linesOf_of_cons (by rw [hstray]), hstray, Text.trimStart_trimEnd]
      rfl

/-! ## Texts in two parts -/

/-- Cuts of two lists of lines make one cut where the second list starts with a line that opens a
chunk. -/
theorem Cut.append {ls₁ ls₂ : List Text} {parts₁ parts₂ : List (List Text)} (h₁ : Cut ls₁ parts₁)
    (h₂ : Cut ls₂ parts₂) (hseam : ∀ line, ls₂.head? = some line → opens line = true) :
    Cut (ls₁ ++ ls₂) (parts₁ ++ parts₂) := by
  refine ⟨by rw [List.flatten_append, h₁.flatten, h₂.flatten], List.forall_mem_append.2 ⟨h₁.ne_nil, h₂.ne_nil⟩,
    fun part hpart line hline => ?_, List.forall_mem_append.2 ⟨h₁.closed, h₂.closed⟩⟩
  have hpart : part ∈ parts₁.tail ∨ part ∈ parts₂ := by
    cases parts₁ with
    | nil => exact .inr (List.mem_of_mem_tail hpart)
    | cons first parts₁ => exact List.mem_append.1 hpart
  rcases hpart with hpart | hpart
  · exact h₁.headed part hpart line hline
  · cases hparts : parts₂ with
    | nil => rw [hparts] at hpart; cases hpart
    | cons first others =>
      rw [hparts] at hpart
      rcases List.mem_cons.1 hpart with rfl | hother
      · -- the first part starts with the first line
        refine hseam line ?_
        rw [← h₂.flatten, hparts, List.flatten_cons, List.head?_append, hline]
        rfl
      · exact h₂.headed part (by rw [hparts]; exact hother) line hline

theorem countedLines_append (a b : Text) :
    countedLines (a ++ '\n' :: b) = countedLines a ++ countedLines b :=
  Text.filter_lines_append_newline rfl a b

/-- A text whose lines start with one that opens a chunk adds its chunks to those of the text before
it. -/
theorem split_append {a b : Text} (hb : ∀ line, (countedLines b).head? = some line → opens line = true) :
    split (a ++ '\n' :: b) = split a ++ split b := by
  obtain ⟨parts₁, h₁⟩ := exists_cut (countedLines a)
  obtain ⟨parts₂, h₂⟩ := exists_cut (countedLines b)
  have h := h₁.append h₂ hb
  rw [← countedLines_append] at h
  unfold split
  rw [linesOf_eq_of_cut h₁, linesOf_eq_of_cut h₂, linesOf_eq_of_cut h, List.map_append, List.map_append]

/-! ## Chunks joined again -/

@[simp] theorem counts_trim (line : Text) : counts (Text.trim line) = counts line := by
  rw [counts_eq, counts_eq, lead?_trim]

@[simp] theorem opens_trim (line : Text) : opens (Text.trim line) = opens line := by
  rw [opens_eq, opens_eq, lead?_trim]

theorem counts_trimEnd (line : Text) : counts (Text.trimEnd line) = counts line := by
  rw [counts_eq, counts_eq, lead?_eq_head?_trim line, ← Text.trimStart_trimEnd]
  rfl

theorem trimmed_trimmed (part : List Text) : trimmed (trimmed part) = trimmed part := by
  cases part with
  | nil => rfl
  | cons first others =>
    have hend : Text.trimEnd ∘ Text.trimEnd = Text.trimEnd :=
      funext fun line => List.rdropWhile_idempotent Text.isBlank line
    simp only [trimmed, Text.trim_trim, List.map_map, hend]

/-- Trimming the parts does not move the cuts. -/
theorem Cut.trimmed {ls : List Text} {parts : List (List Text)} (h : Cut ls parts) :
    Cut (parts.map trimmed).flatten (parts.map trimmed) := by
  obtain ⟨-, hne, hheaded, hclosed⟩ := h
  refine ⟨rfl, ?_, ?_, ?_⟩
  · rw [List.forall_mem_map]
    intro part hpart
    obtain ⟨first, others, rfl⟩ := List.exists_cons_of_ne_nil (hne part hpart)
    exact List.cons_ne_nil _ _
  · rw [← List.map_tail, List.forall_mem_map]
    intro part hpart line hline
    obtain ⟨first, others, rfl⟩ := List.exists_cons_of_ne_nil (hne part (List.mem_of_mem_tail hpart))
    cases hline
    rw [opens_trim]
    exact hheaded _ hpart first rfl
  · rw [List.forall_mem_map]
    intro part hpart
    obtain ⟨first, others, rfl⟩ := List.exists_cons_of_ne_nil (hne part hpart)
    show ∀ line ∈ others.map Text.trimEnd, opens line = false
    rw [List.forall_mem_map]
    intro line hline
    rw [opens_trimEnd]
    exact hclosed _ hpart line hline

theorem countedLines_joinLines : ∀ texts : List Text,
    countedLines (Text.joinLines texts) = texts.flatMap countedLines
  | [] => rfl
  | [s] => by simp [Text.joinLines, Text.join]
  | s :: s' :: texts => by
    have hjoin : Text.joinLines (s :: s' :: texts) = s ++ '\n' :: Text.joinLines (s' :: texts) := by
      simp [Text.joinLines, Text.join]
    rw [hjoin, countedLines_append, countedLines_joinLines (s' :: texts)]
    rfl

/-- The lines of a chunk all count. -/
theorem countedLines_of_mem_linesOf {content : Text} {chunk : List Text} (h : chunk ∈ linesOf content) :
    countedLines (Text.joinLines chunk) = chunk := by
  obtain ⟨parts, hcut⟩ := exists_cut (countedLines content)
  unfold countedLines
  rw [lines_joinLines (tidy_of_mem_linesOf h), List.filter_eq_self]
  rw [linesOf_eq_of_cut hcut] at h
  obtain ⟨part, hpart, rfl⟩ := List.mem_map.1 h
  have hcounts : ∀ line ∈ part, counts line = true := by
    intro line hline
    have hmem : line ∈ countedLines content := hcut.flatten ▸ List.mem_flatten.2 ⟨part, hpart, hline⟩
    exact (counted_of_mem hmem).1
  cases part with
  | nil => simp [Chunk.trimmed]
  | cons first others =>
    rw [List.forall_mem_cons] at hcounts
    refine List.forall_mem_cons.2 ⟨by rw [counts_trim]; exact hcounts.1, ?_⟩
    rw [List.forall_mem_map]
    intro line hline
    rw [counts_trimEnd]
    exact hcounts.2 line hline

/-- Chunks that are joined again are chunked as they were. -/
theorem split_joinLines_split (content : Text) : split (Text.joinLines (split content)) = split content := by
  obtain ⟨parts, hcut⟩ := exists_cut (countedLines content)
  have hchunks := linesOf_eq_of_cut hcut
  have hcounted : countedLines (Text.joinLines (split content)) = (parts.map trimmed).flatten := by
    have hlines : (linesOf content).map (countedLines ∘ Text.joinLines) = (linesOf content).map id :=
      List.map_congr_left fun chunk hchunk => countedLines_of_mem_linesOf hchunk
    rw [countedLines_joinLines, split, List.flatMap_map, List.flatMap_def, ← hchunks]
    exact congrArg List.flatten (hlines.trans (List.map_id _))
  have hagain : linesOf (Text.joinLines (split content)) = (parts.map trimmed).map trimmed :=
    linesOf_eq_of_cut (hcounted ▸ hcut.trimmed)
  have hsame : linesOf (Text.joinLines (split content)) = linesOf content := by
    rw [hagain, hchunks, List.map_map]
    exact List.map_congr_left fun part _ => trimmed_trimmed part
  unfold split at hsame ⊢
  rw [hsame]

/-- The chunks of a text are its lines that are neither blank nor comments, in order: those of a
chunk are trimmed at their end, and the first of them on both sides. Each chunk but the first starts
with a mark that opens one, no other line does, and chunks that are joined again are chunked as they
were. -/
theorem split_faithful (content : Text) :
    (∃ parts : List (List Text),
      parts.flatten = (Text.lines content).filter (fun line => Significant line) ∧
      (split content).map Text.lines = parts.map trimmed ∧
      split content = (parts.map trimmed).map Text.joinLines) ∧
    (∀ chunk ∈ split content, chunk ≠ []) ∧
    (∀ chunk ∈ (split content).tail, Marked chunk) ∧
    (∀ chunk ∈ split content, ∀ line ∈ (Text.lines chunk).tail, ¬ Marked (Text.trim line)) ∧
    split (Text.joinLines (split content)) = split content := by
  obtain ⟨parts, hcut⟩ := exists_cut (countedLines content)
  have hchunks := linesOf_eq_of_cut hcut
  have hparts : Cut (linesOf content).flatten (linesOf content) := hchunks ▸ hcut.trimmed
  have hlines : (split content).map Text.lines = linesOf content := by
    unfold split
    rw [List.map_map]
    exact (List.map_congr_left fun chunk hchunk => lines_joinLines (tidy_of_mem_linesOf hchunk)).trans
      (List.map_id _)
  refine ⟨⟨parts, ?_, by rw [hlines, hchunks], by rw [← hchunks]; rfl⟩, ?_, ?_, ?_, split_joinLines_split content⟩
  · rw [hcut.flatten, countedLines_eq]
  · intro chunk hchunk
    obtain ⟨ls, hls, rfl⟩ := List.mem_map.1 hchunk
    obtain ⟨c, hlast, -⟩ := getLast?_joinLines (tidy_of_mem_linesOf hls).ne_nil (tidy_of_mem_linesOf hls).forall_solid
    rintro hnil
    rw [hnil] at hlast
    cases hlast
  · unfold split
    rw [← List.map_tail, List.forall_mem_map]
    intro ls hls
    have htidy := tidy_of_mem_linesOf (List.mem_of_mem_tail hls)
    cases htidy with
    | @intro head body hhead htrim _ =>
      have hopens := hparts.headed _ hls head rfl
      rw [opens_iff, htrim] at hopens
      exact (marked_joinLines hhead.ne_nil body).2 hopens
  · intro chunk hchunk line hline
    obtain ⟨ls, hls, rfl⟩ := List.mem_map.1 hchunk
    rw [lines_joinLines (tidy_of_mem_linesOf hls)] at hline
    rw [← opens_iff, hparts.closed ls hls line hline]
    exact Bool.false_ne_true

end LangGen.Chunk
