/-
Texts put together. A text that starts with a chunk of its own, behind another one and a line feed,
adds its chunks to those of the other, whatever line end the two make at the seam. So reading both
in one go is reading one after the other (`readContent_append`).
-/
import LangGen.Proofs.Catalog.Indexed
import LangGen.Proofs.Chunk.Partition

namespace LangGen.Catalog

/-- The number of a chunk counts for the place of its failure only. -/
theorem readChunk_behind (strict : Bool) (source : Option Text) (m n : Nat) (c : Catalog) (chunk : Text) :
    (c.readChunk strict chunk).within { file := source, chunk := some ((n + m : Nat) : Int) } =
      ⟨((c.readChunk strict chunk).within { file := source, chunk := some (n : Int) }).state,
        ((c.readChunk strict chunk).within { file := source, chunk := some (n : Int) }).failure.map
          (Failure.behind m)⟩ := by
  unfold Outcome.within
  cases hf : (c.readChunk strict chunk).failure with
  | none => rfl
  | some f => simp only [Option.map_some, (readChunk_failure_inner hf).within_behind]

/-- Chunks that are read without failure leave a catalog that the chunks behind them are read into. -/
theorem readChunks_append {strict : Bool} {source : Option Text} {c : Catalog} {chunks₁ : List Text}
    (h : (readChunks strict source c chunks₁).failure = none) (chunks₂ : List Text) :
    readChunks strict source c (chunks₁ ++ chunks₂) =
      ⟨(readChunks strict source (readChunks strict source c chunks₁).state chunks₂).state,
        (readChunks strict source (readChunks strict source c chunks₁).state chunks₂).failure.map
          (Failure.behind chunks₁.length)⟩ := by
  unfold readChunks at h ⊢
  rw [readEach_append, h]
  exact readEach_add (readChunk_behind strict source chunks₁.length) chunks₂ 0 _

/-- A text whose first line that counts opens a chunk is chunked apart from the text before it, and
reading the two of them is reading the second one into what the first one leaves. -/
theorem readContent_append {a b : Text}
    (hb : ∀ line, (Text.lines b).find? (fun line => Chunk.Significant line) = some line →
      Chunk.Marked (Text.trim line)) :
    Chunk.split (a ++ '\n' :: b) = Chunk.split a ++ Chunk.split b ∧
      ∀ (strict : Bool) (source : Option Text) (base : Catalog),
        let first := readContent strict source base a
        let second := readContent strict source first.state b
        first.failure = none → readContent strict source base (a ++ '\n' :: b) =
          ⟨second.state, second.failure.map (Failure.behind (Chunk.split a).length)⟩ := by
  have hsplit : Chunk.split (a ++ '\n' :: b) = Chunk.split a ++ Chunk.split b := by
    refine Chunk.split_append fun line hline => ?_
    rw [Chunk.countedLines_eq, List.head?_filter] at hline
    exact (Chunk.opens_iff line).2 (hb line hline)
  refine ⟨hsplit, ?_⟩
  intro strict source base first second hfirst
  unfold first readContent at hfirst
  unfold second first readContent
  rw [hsplit, readChunks_append hfirst]

/-- The carriage return and the line feed at the seam make one line end, and the second text fails. -/
theorem readContent_append_fused :
    let a := "# A\r- IF: x\r- a\r".toList
    let b := "> c\n\n# A\n- IF: x\n- b\n- \x7d".toList
    let first := readContent true none {} a
    let second := readContent true none first.state b
    Chunk.split (a ++ '\n' :: b) = Chunk.split a ++ Chunk.split b ∧ second.failure ≠ none ∧
      readContent true none {} (a ++ '\n' :: b) =
        ⟨second.state, second.failure.map (Failure.behind (Chunk.split a).length)⟩ := by
  intro a b first second
  have hb : ∀ line, (Text.lines b).find? (fun line => Chunk.Significant line) = some line →
      Chunk.Marked (Text.trim line) := by
    intro line hline
    obtain rfl : "# A".toList = line := Option.some.inj (hline ▸ by decide +kernel)
    exact ⟨'#', by decide, by decide +kernel⟩
  have happend := readContent_append (a := a) hb
  exact ⟨happend.1, by decide +kernel, happend.2 true none {} (by decide +kernel)⟩

end LangGen.Catalog
