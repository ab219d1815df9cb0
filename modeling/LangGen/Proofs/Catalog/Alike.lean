/-
Outcomes that are alike: they leave the same behind, and if they have failed, they have failed for
the same kind of reason at the same chunk and line. Readings that are alike on each input are alike
on runs, and a chunk is read alike from bodies whose lines are.
-/
import LangGen.Proofs.Catalog.Place

namespace LangGen

/-- Two failures of one kind, chunk and line. The texts that they quote may differ, and the file. -/
structure Failure.Alike (f g : Failure) : Prop where
  kind : f.fault.ctorIdx = g.fault.ctorIdx
  chunk : f.chunk? = g.chunk?
  line : f.line? = g.line?

theorem Failure.Alike.refl (f : Failure) : f.Alike f := ⟨rfl, rfl, rfl⟩

theorem Failure.Alike.within {f g : Failure} (h : f.Alike g) {p q : Place} (hchunk : p.chunk = q.chunk)
    (hline : p.line = q.line) : (f.within p).Alike (g.within q) where
  kind := h.kind
  chunk := by rw [chunk?_within, chunk?_within, h.chunk, hchunk]
  line := by rw [line?_within, line?_within, h.line, hline]

namespace Outcome

variable {σ : Type} {o o' : Outcome σ}

/-- Two outcomes with one state that both succeed, or fail alike. -/
structure Alike (o o' : Outcome σ) : Prop where
  state : o.state = o'.state
  failure : Option.Rel Failure.Alike o.failure o'.failure

theorem Alike.refl (o : Outcome σ) : o.Alike o :=
  ⟨rfl, by cases o.failure with
    | none => exact .none
    | some f => exact .some (.refl f)⟩

theorem Alike.cases (h : o.Alike o') : o.failure = none ∧ o'.failure = none ∨
    ∃ f g, o.failure = some f ∧ o'.failure = some g ∧ f.Alike g := by
  rcases o with ⟨s, _ | f⟩ <;> rcases o' with ⟨s', _ | g⟩
  · exact .inl ⟨rfl, rfl⟩
  · cases h.failure
  · cases h.failure
  · cases h.failure with
    | some hfg => exact .inr ⟨f, g, rfl, rfl, hfg⟩

theorem Alike.within (h : o.Alike o') {p q : Place} (hchunk : p.chunk = q.chunk) (hline : p.line = q.line) :
    (o.within p).Alike (o'.within q) := by
  refine ⟨h.state, ?_⟩
  rcases h.cases with ⟨ho, ho'⟩ | ⟨f, g, ho, ho', hfg⟩
  · simp only [Outcome.within, ho, ho', Option.map_none]
    exact .none
  · simp only [Outcome.within, ho, ho', Option.map_some]
    exact .some (hfg.within hchunk hline)

end Outcome

/-- Readings that are alike on inputs that correspond are alike on runs. -/
theorem readEach_alike {σ α : Type} {R : α → α → Prop} {read read' : Nat → σ → α → Outcome σ}
    (hread : ∀ n s x y, R x y → (read n s x).Alike (read' n s y)) :
    ∀ {xs ys : List α} (n : Nat) (s : σ), List.Forall₂ R xs ys →
      (readEach read n s xs).Alike (readEach read' n s ys)
  | [], [], _, s, _ => .refl ⟨s, none⟩
  | x :: xs, y :: ys, n, s, .cons hx hxs => by
    have h := hread n s x y hx
    rw [readEach_cons, readEach_cons]
    rcases h.cases with ⟨ho, ho'⟩ | ⟨f, g, ho, ho', -⟩
    · rw [ho, ho', ← h.state]
      exact readEach_alike hread (n + 1) _ hxs
    · rw [ho, ho']
      exact h

namespace Catalog

variable {strict : Bool} {c : Catalog}

section Bodies

variable {R : Text → Text → Prop} {body body' : List Text}
  (hline : ∀ b x y, R x y → (Body.readLine strict b x).Alike (Body.readLine strict b y))
  (h : List.Forall₂ R body body')

include hline h

theorem readLines_alike (b : Body) : (readEach (Body.readNumbered strict) 2 b body).Alike
    (readEach (Body.readNumbered strict) 2 b body') := by
  refine readEach_alike (fun n b x y hxy => ?_) 2 b h
  exact (hline b x y hxy).within rfl rfl

theorem extendTemplate_alike (t : Template) :
    (c.extendTemplate strict t body).Alike (c.extendTemplate strict t body') := by
  have hlines := readLines_alike hline h ⟨c.entities, ⟨t, .template⟩⟩
  unfold extendTemplate
  dsimp only
  rw [hlines.state]
  rcases hlines.cases with ⟨ho, ho'⟩ | ⟨f, g, ho, ho', hfg⟩
  · rw [ho, ho']
    exact .refl _
  · rw [ho, ho']
    exact ⟨rfl, .some hfg⟩

theorem newTemplate_alike (name : Text) :
    (c.newTemplate strict name body).Alike (c.newTemplate strict name body') := by
  have hlines := readLines_alike hline h ⟨c.entities, ⟨{ name := name }, .template⟩⟩
  unfold newTemplate
  dsimp only
  rw [hlines.state]
  rcases hlines.cases with ⟨ho, ho'⟩ | ⟨f, g, ho, ho', hfg⟩
  · rw [ho, ho']
    exact .refl _
  · rw [ho, ho']
    exact ⟨rfl, .some hfg⟩

theorem readTemplate_alike (header : Text) :
    (c.readTemplate strict header body).Alike (c.readTemplate strict header body') := by
  unfold readTemplate
  dsimp only
  split
  · exact .refl _
  · split
    · exact extendTemplate_alike hline h _
    · exact newTemplate_alike hline h _

end Bodies

theorem readReference_alike {line line' label target : Text} (h : Line.fileReference? line = some (label, target))
    (h' : Line.fileReference? line' = some (label, target)) :
    (c.readReference line).Alike (c.readReference line') := by
  unfold readReference
  rw [h, h']
  cases target with
  | nil => exact ⟨rfl, .some ⟨rfl, rfl, rfl⟩⟩
  | cons r rs => exact .refl _

/-- A source changes what a failure tells of its file, and nothing else. -/
theorem readContent_alike (strict : Bool) (source source' : Option Text) (c : Catalog) (content : Text) :
    (readContent strict source c content).Alike (readContent strict source' c content) := by
  unfold readContent readChunks
  refine readEach_alike (R := Eq) ?_ 0 c (List.forall₂_refl _)
  rintro n c chunk _ rfl
  exact (Outcome.Alike.refl _).within rfl rfl

end Catalog

end LangGen
