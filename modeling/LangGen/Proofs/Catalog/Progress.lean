/-
How readings get on. A run comes to an input once all inputs before it have been read without
failure (`Reached`); if it fails, it fails as the last input that it comes to does, and it depends
on no input that it does not come to (`readEach_congr`). On this rest two views of reading. A chunk
with the name of a template reads its lines into a body, and the catalog holds what they have
changed so far (`Catalog.readChunk_of_template?`); any other chunk is read or refused as a whole
(`Catalog.readChunk_whole`). And a run over chunks comes to the lines of their templates one by one
(`Catalog.Visits`); where one of them fails, the run ends there (`Catalog.Visits.readChunks_eq`).
-/
import Mathlib.Data.Nat.Find
import LangGen.Proofs.Catalog.Declaration
import LangGen.Proofs.Catalog.Place

namespace LangGen

open Line

/-! ## Runs -/

section Runs

variable {σ α : Type}

/-- A run that starts with number `n` in state `s` comes to an input with a number and in a state:
all inputs before it are read without failure. -/
inductive Reached (read : Nat → σ → α → Outcome σ) : Nat → σ → List α → Nat → σ → α → Prop
  | here {n : Nat} {s : σ} {x : α} {xs : List α} : Reached read n s (x :: xs) n s x
  | next {n m : Nat} {s s' : σ} {x y : α} {xs : List α} (hy : (read n s y).failure = none)
      (hx : Reached read (n + 1) (read n s y).state xs m s' x) : Reached read n s (y :: xs) m s' x

variable {read read' : Nat → σ → α → Outcome σ} {n m : Nat} {s s' : σ} {x : α} {xs : List α}

theorem readEach_singleton (read : Nat → σ → α → Outcome σ) (n : Nat) (s : σ) (x : α) :
    readEach read n s [x] = read n s x := by
  rcases h : read n s x with ⟨t, _ | f⟩ <;> simp [readEach, h]

/-- What the readings of some inputs keep, a run over them keeps, up to the point where it ends. -/
theorem readEach_keeps_of_mem {P : σ → Prop} : ∀ {xs : List α} {n : Nat} {s : σ},
    (∀ x ∈ xs, ∀ n s, P s → P (read n s x).state) → P s → P (readEach read n s xs).state
  | [], _, _, _, h => h
  | x :: xs, n, s, hread, h => by
    rw [List.forall_mem_cons] at hread
    rw [readEach_cons]
    split
    · exact readEach_keeps_of_mem hread.2 (hread.1 n s h)
    · exact hread.1 n s h

theorem Reached.le (h : Reached read n s xs m s' x) : n ≤ m := by
  induction h with
  | here => exact Nat.le_refl _
  | next _ _ ih => omega

/-- What a run comes to is told by the part of the inputs before it. -/
theorem Reached.split (h : Reached read n s xs m s' x) : ∃ before after, xs = before ++ x :: after ∧
    m = n + before.length ∧ readEach read n s before = ⟨s', none⟩ := by
  induction h with
  | @here n s x xs => exact ⟨[], xs, rfl, rfl, rfl⟩
  | @next n m s s' x y xs hy hx ih =>
    obtain ⟨before, after, rfl, rfl, hbefore⟩ := ih
    exact ⟨y :: before, after, rfl, by simp [Nat.add_assoc, Nat.add_comm 1], by
      rw [readEach_cons_of_succeeds hy, hbefore]⟩

theorem Reached.mem (h : Reached read n s xs m s' x) : x ∈ xs := by
  obtain ⟨before, after, rfl, -⟩ := h.split
  exact List.mem_append_right _ List.mem_cons_self

/-- A run that fails ends with an input that it comes to and that fails. -/
theorem exists_reached_of_failure {f : Failure} : ∀ {xs : List α} {n : Nat} {s : σ},
    (readEach read n s xs).failure = some f →
      ∃ m s' x, Reached read n s xs m s' x ∧ (read m s' x).failure = some f
  | [], _, _, h => by cases h
  | y :: ys, n, s, h => by
    rw [readEach_cons] at h
    cases hy : (read n s y).failure with
    | none =>
      rw [hy] at h
      obtain ⟨m, s', x, hx, hf⟩ := exists_reached_of_failure h
      exact ⟨m, s', x, .next hy hx, hf⟩
    | some g =>
      rw [hy] at h
      exact ⟨n, s, y, .here, h⟩

/-- Where an input fails that a run comes to, the run ends. -/
theorem Reached.readEach_eq (h : Reached read n s xs m s' x) (hf : (read m s' x).failure ≠ none) :
    readEach read n s xs = read m s' x := by
  induction h with
  | here =>
    obtain ⟨f, hf⟩ := Option.ne_none_iff_exists'.1 hf
    rw [readEach_cons, hf]
  | next hy _ ih => rw [readEach_cons_of_succeeds hy, ih hf]

/-- Of one number, a run comes to one input only. -/
theorem Reached.unique {t : σ} {y : α} (h : Reached read n s xs m s' x) (h' : Reached read n s xs m t y) :
    s' = t ∧ x = y := by
  induction h with
  | here =>
    cases h' with
    | here => exact ⟨rfl, rfl⟩
    | next _ hx =>
      have hle := hx.le
      omega
  | next _ hx ih =>
    cases h' with
    | here =>
      have hle := hx.le
      omega
    | next _ hy => exact ih hy

/-- Two readings that agree on the inputs before one that the first of them comes to both come to it. -/
theorem Reached.congr (h : Reached read n s xs m s' x)
    (hread : ∀ k < m, ∀ t y, Reached read n s xs k t y → read' k t y = read k t y) :
    Reached read' n s xs m s' x := by
  induction h with
  | here => exact .here
  | @next n m s s' x y xs hy hx ih =>
    have hfirst : read' n s y = read n s y := hread n hx.le s y .here
    have hrest := ih fun k hk t z hz => hread k hk t z (.next hy hz)
    rw [← hfirst] at hrest hy
    exact .next hy hrest

/-- Two readings that agree on what the first of them comes to agree on the run. -/
theorem readEach_congr : ∀ {xs : List α} {n : Nat} {s : σ},
    (∀ m t x, Reached read n s xs m t x → read' m t x = read m t x) → readEach read' n s xs = readEach read n s xs
  | [], _, _, _ => rfl
  | y :: ys, n, s, h => by
    rw [readEach_cons, readEach_cons, h n s y .here]
    cases hy : (read n s y).failure with
    | none => exact readEach_congr fun m t x hx => h m t x (.next hy hx)
    | some f => rfl

/-- The first of some inputs that a run comes to. -/
theorem exists_first_reached {P : Nat → σ → α → Prop} (h : ∃ m t x, Reached read n s xs m t x ∧ P m t x) :
    ∃ m t x, Reached read n s xs m t x ∧ P m t x ∧ ∀ k < m, ∀ u y, Reached read n s xs k u y → ¬ P k u y := by
  classical
  obtain ⟨t, x, hx, hP⟩ := Nat.find_spec h
  refine ⟨Nat.find h, t, x, hx, hP, fun k hk u y hy hPy => ?_⟩
  exact Nat.find_min h hk ⟨u, y, hy, hPy⟩

end Runs

/-! ## Lines -/

namespace Body

variable {strict : Bool} {n : Nat} {b : Body} {line : Text} {f : Failure}

/-- A line that fails tells its number and its text, which is not empty. -/
theorem readNumbered_failure (h : (readNumbered strict n b line).failure = some f) :
    Text.trim line ≠ [] ∧ ∃ fault, (b.readLine strict line).failure = some { fault := fault } ∧
      f = ⟨fault, some { line := some n, lineText := some (Text.trim line) }⟩ := by
  obtain ⟨g, hg, rfl⟩ := Option.map_eq_some_iff.1 h
  refine ⟨fun hblank => ?_, g.fault, ?_, ?_⟩
  · rw [readLine, if_pos (Text.trim_eq_nil_iff.1 hblank)] at hg
    cases hg
  · rw [hg, ← readLine_failure_place hg]
  · rw [Failure.within, readLine_failure_place hg]
    rfl

end Body

/-! ## Chunks -/

/-- The name and the lines of a template chunk, if it has a name. -/
def Chunk.template? (chunk : Text) : Option (Text × List Text) :=
  match kind? (Text.trim chunk), Text.lines (Text.trim chunk) with
  | some .template, header :: body =>
    let name := Text.trim (header.drop 1)
    if name.isEmpty then none else some (name, body)
  | _, _ => none

theorem Chunk.template?_eq_some {chunk name : Text} {body : List Text} : template? chunk = some (name, body) ↔
    kind? (Text.trim chunk) = some .template ∧ name ≠ [] ∧
      ∃ header, Text.lines (Text.trim chunk) = header :: body ∧ Text.trim (header.drop 1) = name := by
  unfold template?
  split
  · rename_i header body' hkind hlines
    rw [hkind, hlines]
    dsimp only
    split
    · rename_i hempty
      simp only [reduceCtorEq, List.cons.injEq, true_and, false_iff, not_and, not_exists]
      rintro h0 _ ⟨rfl, -⟩ rfl
      exact h0 (List.isEmpty_iff.1 hempty)
    · rename_i hempty
      simp only [Option.some.injEq, Prod.mk.injEq, List.cons.injEq, true_and]
      constructor
      · rintro ⟨rfl, rfl⟩
        exact ⟨by simpa using hempty, header, ⟨rfl, rfl⟩, rfl⟩
      · rintro ⟨-, _, ⟨rfl, rfl⟩, rfl⟩
        exact ⟨rfl, rfl⟩
  · rename_i hnot
    simp only [reduceCtorEq, false_iff]
    rintro ⟨hkind, -, header, hlines, -⟩
    exact hnot header body hkind hlines

namespace Catalog

/-- Where the lines of a template start: with what the catalog has of its name. -/
def start (c : Catalog) (name : Text) : Body := ⟨c.entities, ⟨c.templateOr name, .template⟩⟩

/-- What a catalog holds while the lines of a template are read into it: the entities that they have
mentioned, and what they have changed in a template that was there. A new template is not in it yet,
and neither is the branch that was opened last, if that is new. -/
def during (c : Catalog) (b : Body) : Catalog := putTemplate { c with entities := b.entities } b.draft.template

/-- What a catalog holds when the lines of a template have been read to their end. -/
def finish (c : Catalog) (b : Body) : Catalog :=
  let t := b.draft.settle.template
  match c.lastTemplate? t.name with
  | some _ => putTemplate { c with entities := b.entities } t
  | none => { c with entities := b.entities, templates := c.templates ++ [t] }

variable {strict : Bool} {c : Catalog} {chunk name : Text} {body : List Text}

theorem bodyOf_of_template? (h : Chunk.template? chunk = some (name, body)) : bodyOf chunk = body := by
  obtain ⟨hkind, -, header, hlines, -⟩ := Chunk.template?_eq_some.1 h
  unfold bodyOf
  rw [hkind, hlines]

theorem templateOr_name (c : Catalog) (name : Text) : (c.templateOr name).name = name := by
  unfold templateOr
  cases h : c.lastTemplate? name with
  | none => rfl
  | some t => exact (lastTemplate?_eq_some h).2

theorem readBody_name (strict : Bool) (c : Catalog) (name : Text) (body : List Text) :
    (c.readBody strict name body).state.draft.template.name = name :=
  (Body.after_name strict (c.start name) body).trans (c.templateOr_name name)

/-- No template of the catalog changes for one that is not in it. -/
theorem putTemplate_of_not_mem {t : Template} (h : c.lastTemplate? t.name = none) : c.putTemplate t = c := by
  unfold putTemplate
  rw [changeLast_of_forall_not (findLast?_eq_none h)]

/-- A template chunk with a name is read by its lines. -/
theorem readChunk_of_template? (h : Chunk.template? chunk = some (name, body)) :
    c.readChunk strict chunk =
      let o := c.readBody strict name body
      match o.failure with
      | some f => ⟨c.during o.state, some f⟩
      | none => ⟨c.finish o.state,
          if o.state.draft.settle.template.isEmpty then some { fault := .emptyTemplate name none } else none⟩ := by
  obtain ⟨hkind, h0, header, hlines, hname⟩ := Chunk.template?_eq_some.1 h
  have hread : c.readChunk strict chunk = c.readTemplate strict header body := by
    unfold readChunk Chunk.classify
    dsimp only
    rw [hkind, hlines]
  have hbody := readBody_name strict c name body
  rw [hread]
  unfold readTemplate
  dsimp only
  rw [hname, if_neg (by simpa using h0)]
  generalize ho : c.readBody strict name body = o at hbody
  have hsettled := (Draft.settle_name o.state.draft).trans hbody
  unfold readBody templateOr at ho
  cases hlast : c.lastTemplate? name with
  | some t =>
    rw [hlast, Option.getD_some] at ho
    unfold extendTemplate finish
    dsimp only
    rw [ho, hsettled, hlast]
    rfl
  | none =>
    rw [hlast, Option.getD_none] at ho
    unfold newTemplate finish
    dsimp only
    rw [ho, hsettled, hlast]
    cases o.failure with
    | some f =>
      have hput : putTemplate { c with entities := o.state.entities } o.state.draft.template =
          { c with entities := o.state.entities } :=
        putTemplate_of_not_mem (c := { c with entities := o.state.entities }) (by rw [hbody]; exact hlast)
      exact congrArg (Outcome.mk · (some f)) hput.symm
    | none => rfl

/-- What a chunk comes to that is not a template with a name. -/
inductive Whole (c : Catalog) (chunk : Text) : Outcome Catalog → Prop
  | refused (fault : Fault) : Whole c chunk ⟨c, some { fault := fault }⟩
  | referred (target : Text) : Whole c chunk ⟨{ c with references := c.references ++ [target] }, none⟩
  | defined {e : Entity} (h : definition? chunk = some e) : Whole c chunk ⟨c.defineEntity e, none⟩

/-- A chunk that is not a template with a name is read or refused as a whole, strict or not. -/
theorem readChunk_whole (h : Chunk.template? chunk = none) :
    ∃ o, c.Whole chunk o ∧ ∀ strict, c.readChunk strict chunk = o := by
  unfold readChunk Chunk.classify
  dsimp only
  cases hlines : Text.lines (Text.trim chunk) with
  | nil => exact absurd hlines (Text.lines_ne_nil _)
  | cons line body =>
    cases hkind : Chunk.kind? (Text.trim chunk) with
    | none => exact ⟨_, .refused _, fun _ => rfl⟩
    | some kind =>
      cases kind with
      | template =>
        have hempty : Text.trim (line.drop 1) = [] := by
          by_contra h0
          rw [Chunk.template?_eq_some.2 ⟨hkind, h0, line, hlines, rfl⟩] at h
          cases h
        dsimp only [readTemplate]
        rw [hempty]
        exact ⟨_, .refused _, fun _ => rfl⟩
      | reference =>
        refine ⟨c.readReference line, ?_, fun _ => rfl⟩
        unfold readReference
        split
        · exact .referred _
        · exact .refused _
      | entity =>
        refine ⟨c.readEntity line, ?_, fun _ => rfl⟩
        unfold readEntity
        split
        · rename_i e hdef
          refine .defined ?_
          unfold definition?
          rw [hkind, hlines]
          exact hdef
        · exact .refused _

/-! ## Lines of a run -/

variable {source : Option Text} {chunks : List Text} {k n : Nat} {b : Body} {line : Text}

/-- Reading a chunk comes to a line: the chunk is a template with a name, and its lines before are
read without failure. -/
def ReachesLine (strict : Bool) (c : Catalog) (chunk : Text) (n : Nat) (b : Body) (line : Text) : Prop :=
  ∃ name body, Chunk.template? chunk = some (name, body) ∧
    Reached (Body.readNumbered strict) 2 (c.start name) body n b line

/-- Where a line fails that reading a chunk comes to, the chunk fails, and leaves what the line leaves. -/
theorem ReachesLine.readChunk_eq (h : c.ReachesLine strict chunk n b line) {f : Failure}
    (hf : (Body.readNumbered strict n b line).failure = some f) :
    c.readChunk strict chunk = ⟨c.during (b.readLine strict line).state, some f⟩ := by
  obtain ⟨name, body, hchunk, hline⟩ := h
  have hbody : c.readBody strict name body = Body.readNumbered strict n b line :=
    hline.readEach_eq (by rw [hf]; exact Option.some_ne_none f)
  rw [readChunk_of_template? hchunk, hbody]
  dsimp only
  rw [hf]
  rfl

/-- A run over chunks comes to a line of one of them: the chunk, counted from 0, the line in it, the
catalog that the chunk is read into and the body that the line is read into. -/
def Visits (strict : Bool) (source : Option Text) (base : Catalog) (chunks : List Text) (k n : Nat) (c : Catalog)
    (b : Body) (line : Text) : Prop :=
  ∃ chunk, Reached (readPlaced strict source) 0 base chunks k c chunk ∧ c.ReachesLine strict chunk n b line

/-- A run comes to lines of templates that its chunks are. -/
theorem Visits.mem {base : Catalog} (h : Visits strict source base chunks k n c b line) :
    line ∈ chunks.flatMap bodyOf := by
  obtain ⟨chunk, hchunk, name, body, htemplate, hline⟩ := h
  refine List.mem_flatMap.2 ⟨chunk, hchunk.mem, ?_⟩
  rw [bodyOf_of_template? htemplate]
  exact hline.mem

/-- Where a line fails that a run comes to, the run ends with that line as the place of its failure. -/
theorem Visits.readChunks_eq {base : Catalog} (h : Visits strict source base chunks k n c b line) {f : Failure}
    (hf : (b.readLine strict line).failure = some f) :
    readChunks strict source base chunks = ⟨c.during (b.readLine strict line).state,
      some ⟨f.fault, some ⟨source, some k, some n, some (Text.trim line)⟩⟩⟩ := by
  obtain ⟨chunk, hchunk, hline⟩ := h
  have hplaced : (Body.readNumbered strict n b line).failure =
      some ⟨f.fault, some { line := some n, lineText := some (Text.trim line) }⟩ := by
    unfold Body.readNumbered Outcome.within
    rw [hf, Option.map_some, Failure.within, Body.readLine_failure_place hf]
    rfl
  have hblank := (Body.readNumbered_failure hplaced).1
  have hread : readPlaced strict source k c chunk = ⟨c.during (b.readLine strict line).state,
      some ⟨f.fault, some ⟨source, some k, some n, some (Text.trim line)⟩⟩⟩ := by
    unfold readPlaced
    rw [hline.readChunk_eq hplaced]
    cases htrim : Text.trim line with
    | nil => exact absurd htrim hblank
    | cons ch t => rfl
  rw [← hread]
  exact hchunk.readEach_eq (by rw [hread]; exact Option.some_ne_none _)

end Catalog

end LangGen
