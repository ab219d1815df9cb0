/-
What failures tell of their place. A line that fails tells its number and its text, a chunk that
fails adds its own number and the source, and no level takes back what a level below has told.
-/
import LangGen.Proofs.Catalog.Reading

namespace LangGen

/-- What fails a run has failed one of its inputs, read with its own number. -/
theorem readEach_failure {σ α : Type} {read : Nat → σ → α → Outcome σ} {f : Failure} :
    ∀ (xs : List α) (n : Nat) (s : σ), (readEach read n s xs).failure = some f →
      ∃ k < xs.length, ∃ s' x, (read (n + k) s' x).failure = some f
  | [], _, _, h => by cases h
  | x :: xs, n, s, h => by
    rw [readEach_cons] at h
    cases hx : (read n s x).failure with
    | none =>
      rw [hx] at h
      obtain ⟨k, hk, s', x', hf⟩ := readEach_failure xs (n + 1) _ h
      exact ⟨k + 1, Nat.succ_lt_succ hk, s', x', by rwa [Nat.add_right_comm] at hf⟩
    | some e =>
      rw [hx] at h
      exact ⟨0, Nat.succ_pos _, s, x, h⟩

/-! ## Places -/

namespace Failure

/-- The file that a failure tells. -/
def file? (f : Failure) : Option Text := f.place.bind Place.file

/-- The number of the chunk that a failure tells. -/
def chunk? (f : Failure) : Option Int := f.place.bind Place.chunk

/-- The number of the line that a failure tells. -/
def line? (f : Failure) : Option Int := f.place.bind Place.line

/-- A failure that tells neither a file nor a chunk yet. -/
structure Inner (f : Failure) : Prop where
  file : f.file? = none
  chunk : f.chunk? = none

theorem Inner.of_place {f : Failure} (h : f.place = none) : f.Inner :=
  ⟨by rw [file?, h, Option.bind_none], by rw [chunk?, h, Option.bind_none]⟩

theorem chunk?_within (f : Failure) (p : Place) : (f.within p).chunk? = (f.chunk? <|> p.chunk) := by
  rcases f with ⟨fault, _ | q⟩ <;> rfl

theorem line?_within (f : Failure) (p : Place) : (f.within p).line? = (f.line? <|> p.line) := by
  rcases f with ⟨fault, _ | q⟩ <;> rfl

theorem file?_within {f : Failure} (h : f.file? = none) (p : Place) : (f.within p).file? = p.file := by
  rcases f with ⟨fault, _ | q⟩
  · rfl
  · have hq : q.file = none := h
    simp [file?, within, Place.orElse, Place.firstText, Place.known?, hq]

end Failure

/-! ## Lines and chunks -/

namespace Body

theorem openBranch_failure_place {b : Body} {condition : Text} {needs : Bool} {f : Failure}
    (h : (b.openBranch condition needs).failure = some f) : f.place = none := by
  rw [openBranch_failure] at h
  obtain ⟨p, -, rfl⟩ := Option.map_eq_some_iff.1 h
  rfl

theorem addVariation_failure_place {strict : Bool} {b : Body} {v : Text} {f : Failure}
    (h : (b.addVariation strict v).failure = some f) : f.place = none := by
  unfold addVariation at h
  split at h
  · cases h
  · cases h
  · cases h; rfl

theorem readLine_failure_place {strict : Bool} {b : Body} {line : Text} {f : Failure}
    (h : (b.readLine strict line).failure = some f) : f.place = none := by
  have hread := readLine_lineRead strict b line
  generalize b.readLine strict line = o at hread h
  cases hread with
  | blank => cases h
  | undecorated => cases h; rfl
  | @payload p =>
    cases p with
    | condition => exact openBranch_failure_place h
    | default => exact openBranch_failure_place h
    | variation => exact addVariation_failure_place h

theorem readNumbered_failure_inner {strict : Bool} {n : Nat} {b : Body} {line : Text} {f : Failure}
    (h : (readNumbered strict n b line).failure = some f) : f.Inner := by
  unfold readNumbered Outcome.within at h
  obtain ⟨f', hf', rfl⟩ := Option.map_eq_some_iff.1 h
  rw [Failure.within, readLine_failure_place hf']
  exact ⟨rfl, rfl⟩

theorem readLines_failure_inner {strict : Bool} {b : Body} {lines : List Text} {f : Failure}
    (h : (readEach (readNumbered strict) 2 b lines).failure = some f) : f.Inner := by
  obtain ⟨k, -, b', line, hf⟩ := readEach_failure lines 2 b h
  exact readNumbered_failure_inner hf

end Body

/-- Reading a chunk, as such, does not tell its number. -/
theorem Catalog.readChunk_failure_inner {strict : Bool} {c : Catalog} {chunk : Text} {f : Failure}
    (h : (c.readChunk strict chunk).failure = some f) : f.Inner := by
  have hbare : ∀ (p : Prop) [Decidable p] (fault : Fault),
      (if p then some { fault := fault } else none : Option Failure) = some f → f.Inner := by
    intro p _ fault h
    split at h
    · cases h; exact .of_place rfl
    · cases h
  unfold readChunk Chunk.classify at h
  dsimp only at h
  split at h
  · rename_i hclass
    split at hclass
    · cases hclass
    · cases hclass; cases h; exact .of_place rfl
  · unfold readTemplate extendTemplate newTemplate at h
    dsimp only at h
    split at h
    · cases h; exact .of_place rfl
    · split at h
      all_goals
        split at h
        · rename_i f' hf'
          cases h
          exact Body.readLines_failure_inner hf'
        · exact hbare _ _ h
  · unfold readReference at h
    split at h
    · cases h
    · cases h; exact .of_place rfl
  · unfold readEntity at h
    split at h
    · cases h
    · cases h; exact .of_place rfl
  · cases h

end LangGen
