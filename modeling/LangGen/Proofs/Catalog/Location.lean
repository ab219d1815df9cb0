/-
Where a failure says it is. A chunk that fails does so at a line that reading it comes to, and then
tells the number and the text of that line, or as a whole, and then tells no line
(`Catalog.readChunk_failure_place`). A run adds the source and the number of the chunk, so the place
of its failure is that of the first chunk that fails, and of the first line in it
(`Catalog.readChunks_failure_place`).
-/
import LangGen.Proofs.Catalog.Indexed
import LangGen.Proofs.Catalog.Progress

namespace LangGen

/-- The line with number `n` of a chunk, counted from 1, blanks around the chunk left out. -/
def Chunk.line? (chunk : Text) (n : Nat) : Option Text := (Text.lines (Text.trim chunk))[n - 1]?

namespace Catalog

variable {strict : Bool} {source : Option Text} {base c : Catalog} {chunk : Text} {chunks : List Text}

/-! ## Chunks -/

/-- The lines that reading a chunk comes to stand below its first one. -/
theorem ReachesLine.line?_eq {n : Nat} {b : Body} {line : Text} (h : c.ReachesLine strict chunk n b line) :
    2 ≤ n ∧ n ≤ (Text.lines (Text.trim chunk)).length ∧ Chunk.line? chunk n = some line := by
  obtain ⟨name, body, htemplate, hreached⟩ := h
  obtain ⟨-, -, header, hlines, -⟩ := Chunk.template?_eq_some.1 htemplate
  obtain ⟨before, after, rfl, rfl, -⟩ := hreached.split
  have hplace : 2 + before.length - 1 = before.length + 1 := by omega
  refine ⟨by omega, ?_, ?_⟩
  · rw [hlines, List.length_cons, List.length_append, List.length_cons]
    omega
  · rw [Chunk.line?, hlines, hplace, List.getElem?_cons_succ, List.getElem?_append_right (Nat.le_refl _), Nat.sub_self]
    rfl

/-- A chunk that fails tells a line exactly if reading it comes to a line that fails, and it tells
that one. -/
theorem readChunk_failure_place {f : Failure} (h : (c.readChunk strict chunk).failure = some f) :
    (f.place = none ∧ ∀ n b line, c.ReachesLine strict chunk n b line → (b.readLine strict line).failure = none) ∨
      ∃ n b line, c.ReachesLine strict chunk n b line ∧
        (b.readLine strict line).failure = some { fault := f.fault } ∧ Text.trim line ≠ [] ∧
          f.place = some { line := some n, lineText := some (Text.trim line) } := by
  cases htemplate : Chunk.template? chunk with
  | none =>
    obtain ⟨o, hwhole, ho⟩ := readChunk_whole (c := c) htemplate
    rw [ho] at h
    refine .inl ⟨?_, ?_⟩
    · cases hwhole with
      | refused => cases h; rfl
      | referred => cases h
      | defined => cases h
    · rintro n b line ⟨name, body, htemplate', -⟩
      rw [htemplate] at htemplate'
      cases htemplate'
  | some template =>
    obtain ⟨name, body⟩ := template
    rw [readChunk_of_template? htemplate] at h
    dsimp only at h
    cases hbody : (c.readBody strict name body).failure with
    | some g =>
      rw [hbody] at h
      cases h
      obtain ⟨n, b, line, hreached, hline⟩ := exists_reached_of_failure hbody
      obtain ⟨hblank, fault, hfails, rfl⟩ := Body.readNumbered_failure hline
      exact .inr ⟨n, b, line, ⟨name, body, htemplate, hreached⟩, hfails, hblank, rfl⟩
    | none =>
      rw [hbody] at h
      refine .inl ⟨?_, fun n b line hline => ?_⟩
      · dsimp only at h
        split at h
        · cases h; rfl
        · cases h
      · -- a line that failed would have ended the body
        by_contra hfails
        obtain ⟨name', body', htemplate', hreached⟩ := hline
        rw [htemplate] at htemplate'
        cases htemplate'
        have hnumbered : (Body.readNumbered strict n b line).failure ≠ none :=
          mt (Outcome.within_failure_eq_none _ _).1 hfails
        have hend : c.readBody strict name body = Body.readNumbered strict n b line := hreached.readEach_eq hnumbered
        exact hnumbered (by rw [← hend]; exact hbody)

/-! ## Runs -/

/-- What a chunk tells as one of several: the source, its own number, and the line that failed, if
one did. Only the number depends on the chunks before it. -/
theorem readPlaced_failure_place {k : Nat} {f : Failure} (h : (readPlaced strict source k c chunk).failure = some f) :
    f.chunk? = some (k : Int) ∧ f.file? = source ∧
      (∃ g, (readPlaced strict source 0 c chunk).failure = some g ∧ f = g.behind k) ∧
      ((f.place = some ⟨source, some k, none, none⟩ ∧
          ∀ n b line, c.ReachesLine strict chunk n b line → (b.readLine strict line).failure = none) ∨
        ∃ n b line, c.ReachesLine strict chunk n b line ∧
          (b.readLine strict line).failure = some { fault := f.fault } ∧
            f.place = some ⟨source, some k, some n, some (Text.trim line)⟩) := by
  obtain ⟨g, hg, rfl⟩ := Option.map_eq_some_iff.1 h
  have hinner := readChunk_failure_inner hg
  have hbehind := hinner.within_behind source 0 k
  rw [Nat.zero_add] at hbehind
  refine ⟨?_, Failure.file?_within hinner.file _, ⟨g.within { file := source, chunk := some 0 }, ?_, hbehind⟩, ?_⟩
  · rw [Failure.chunk?_within, hinner.chunk]
    rfl
  · unfold readPlaced Outcome.within
    rw [hg]
    rfl
  · rcases readChunk_failure_place hg with ⟨hplace, hlines⟩ | ⟨n, b, line, hline, hfails, hblank, hplace⟩
    · refine .inl ⟨?_, hlines⟩
      rw [Failure.within, hplace]
      rfl
    · refine .inr ⟨n, b, line, hline, hfails, ?_⟩
      rw [Failure.within, hplace]
      -- a text that is empty would not be kept
      cases htrim : Text.trim line with
      | nil => exact absurd htrim hblank
      | cons ch t => rfl

/-- The place of a failure. The chunks before the one it tells are read without failure, and that
one, alone and into what they leave, fails alike. The source is the one that is given. A line is
told exactly if one fails that reading the chunk comes to: its number counts the lines of the chunk
from 1, blanks around the chunk left out, and with it stands the line, trimmed. -/
theorem readChunks_failure_place {f : Failure} (h : (readChunks strict source base chunks).failure = some f) :
    ∃ (k : Nat) (chunk : Text), f.chunk? = some (k : Int) ∧ chunks[k]? = some chunk ∧
      let before := readChunks strict source base (chunks.take k)
      let alone := readChunks strict source before.state [chunk]
      before.failure = none ∧ alone.state = (readChunks strict source base chunks).state ∧
        (∃ g, alone.failure = some g ∧ f = g.behind k) ∧ f.file? = source ∧
        ((f.place = some ⟨source, some k, none, none⟩ ∧
            ∀ n b line, before.state.ReachesLine strict chunk n b line → (b.readLine strict line).failure = none) ∨
          ∃ n b line, before.state.ReachesLine strict chunk n b line ∧
            (b.readLine strict line).failure = some { fault := f.fault } ∧
              f.place = some ⟨source, some k, some n, some (Text.trim line)⟩ ∧
                2 ≤ n ∧ n ≤ (Text.lines (Text.trim chunk)).length ∧ Chunk.line? chunk n = some line) := by
  obtain ⟨k, c, chunk, hreached, hplaced⟩ := exists_reached_of_failure h
  have hwhole : readChunks strict source base chunks = readPlaced strict source k c chunk :=
    hreached.readEach_eq (by rw [hplaced]; exact Option.some_ne_none f)
  obtain ⟨before, after, rfl, hk, hbefore⟩ := hreached.split
  obtain rfl : k = before.length := hk.trans (Nat.zero_add _)
  obtain ⟨hchunk, hfile, hbehind, hplace⟩ := readPlaced_failure_place hplaced
  refine ⟨before.length, chunk, hchunk, ?_, ?_⟩
  · rw [List.getElem?_append_right (Nat.le_refl _), Nat.sub_self]
    rfl
  · intro first alone
    have hfirst : first = ⟨c, none⟩ := by
      unfold first
      rw [List.take_left]
      exact hbefore
    have halone : alone = readPlaced strict source 0 c chunk := by
      unfold alone
      rw [hfirst]
      exact readEach_singleton ..
    rw [hfirst, halone, hwhole]
    refine ⟨rfl, rfl, hbehind, hfile, hplace.imp id ?_⟩
    rintro ⟨n, b, line, hline, hfails, htold⟩
    exact ⟨n, b, line, hline, hfails, htold, hline.line?_eq⟩

/-- The third line of the second chunk is no list item; blanks stand before the chunk, and its lines
end in different ways. -/
theorem readChunks_failure_place_line :
    let chunks := ["$ x : int", "\n # A\r\n- a\r IF: x \n- b\n"].map String.toList
    let f : Failure := ⟨.undecoratedLine "IF: x".toList,
      some ⟨some "a.lg".toList, some 1, some 3, some "IF: x".toList⟩⟩
    let first := readChunks false (some "a.lg".toList) {} (chunks.take 1)
    (readChunks false (some "a.lg".toList) {} chunks).failure = some f ∧ first.failure = none ∧
      ∃ chunk b, chunks[1]? = some chunk ∧ first.state.ReachesLine false chunk 3 b " IF: x ".toList ∧
        (b.readLine false " IF: x ".toList).failure = some { fault := f.fault } := by
  intro chunks f first
  have hf : (readChunks false (some "a.lg".toList) {} chunks).failure = some f := by decide +kernel
  obtain ⟨k, chunk, hk, hchunk, hbefore, -, -, -, hlines⟩ := readChunks_failure_place hf
  obtain rfl : 1 = k := Int.ofNat_inj.1 (Option.some.inj hk)
  refine ⟨hf, hbefore, chunk, ?_⟩
  rcases hlines with ⟨hplace, -⟩ | ⟨n, b, line, hreached, hfails, hplace, -, -, hline⟩
  · cases hplace
  · obtain rfl : 3 = n := Int.ofNat_inj.1 (congrArg (fun p => (p.bind Place.line).getD 0) hplace)
    have hsecond : chunk = "\n # A\r\n- a\r IF: x \n- b\n".toList := Option.some.inj hchunk.symm
    rw [hsecond] at hline
    have htext : line = " IF: x ".toList := Option.some.inj (hline.symm.trans (by decide +kernel))
    rw [htext] at hreached hfails
    exact ⟨b, hchunk, hreached, hfails⟩

end Catalog

end LangGen
