/-
What strictness changes. Reading when strict and when not differ in one kind of line only, in those
whose variation has a problem: the one fails there and the other leaves the variation out, and both
make known what the line mentions (`Body.readLine_of_problem`). So the two are one run up to the
first such line that the run comes to, and there the strict one ends (`Catalog.readChunks_strict`).
-/
import LangGen.Proofs.Catalog.Origin
import LangGen.Proofs.Catalog.Progress

namespace LangGen

open Line

/-! ## Lines -/

theorem Line.leftOut?_eq_some {line v : Text} : leftOut? line = some v ↔
    ∃ q, payload? line = some (.variation v) ∧ Variation.problem? v = some q := by
  unfold leftOut?
  constructor
  · intro h
    split at h
    · rename_i w hp
      split at h
      · cases h
      · rename_i hw
        cases h
        obtain ⟨q, hq⟩ := Option.ne_none_iff_exists'.1 hw
        exact ⟨q, hp, hq⟩
    · cases h
  · rintro ⟨q, hp, hq⟩
    rw [hp]
    dsimp only
    rw [hq, if_neg (Option.some_ne_none q)]

namespace Body

/-- A line whose variation has a problem makes known what it mentions, and is a failure when strict. -/
theorem readLine_of_problem (strict : Bool) (b : Body) {line v : Text} {q : Variation.Problem}
    (hp : payload? line = some (.variation v)) (hq : Variation.problem? v = some q) :
    b.readLine strict line = ⟨{ b with entities := known b.entities line },
      if strict then some { fault := .invalidVariation v q.message } else none⟩ := by
  rw [readLine_of_payload? strict b hp, readPayload, addVariation_of_some strict _ hq]

/-- Any other line is read alike when strict and when not. -/
theorem readLine_strict_of_leftOut? {b : Body} {line : Text} (h : leftOut? line = none) :
    b.readLine true line = b.readLine false line := by
  cases hp : payload? line with
  | none => rw [readLine_of_payload?_none true b hp, readLine_of_payload?_none false b hp]
  | some p =>
    rw [readLine_of_payload? true b hp, readLine_of_payload? false b hp]
    cases p with
    | condition text => rfl
    | default text => rfl
    | variation v =>
      cases hv : Variation.problem? v with
      | none => rw [readPayload, readPayload, addVariation_of_none true _ hv, addVariation_of_none false _ hv]
      | some q =>
        rw [leftOut?_eq_some.2 ⟨q, hp, hv⟩] at h
        cases h

theorem readNumbered_strict_of_leftOut? {n : Nat} {b : Body} {line : Text} (h : leftOut? line = none) :
    readNumbered true n b line = readNumbered false n b line := by
  unfold readNumbered
  rw [readLine_strict_of_leftOut? h]

end Body

/-! ## Chunks -/

namespace Catalog

/-- A chunk is read alike when strict and when not, unless that comes to a variation with a problem. -/
theorem readChunk_strict_of_leftOut? {c : Catalog} {chunk : Text}
    (h : ∀ n b line, c.ReachesLine false chunk n b line → leftOut? line = none) :
    c.readChunk true chunk = c.readChunk false chunk := by
  cases htemplate : Chunk.template? chunk with
  | none =>
    obtain ⟨o, -, ho⟩ := readChunk_whole (c := c) htemplate
    rw [ho, ho]
  | some template =>
    obtain ⟨name, body⟩ := template
    have hbody : c.readBody true name body = c.readBody false name body :=
      readEach_congr fun n b line hline =>
        Body.readNumbered_strict_of_leftOut? (h n b line ⟨name, body, htemplate, hline⟩)
    rw [readChunk_of_template? htemplate, readChunk_of_template? htemplate, hbody]

/-! ## Runs -/

variable {source : Option Text} {base : Catalog} {chunks : List Text}

/-- Of the variations with a problem that a run comes to there is a first one, and the strict run
comes to it too. -/
theorem exists_first_leftOut {k n : Nat} {c : Catalog} {b : Body} {line : Text}
    (h : Visits false source base chunks k n c b line) (hline : leftOut? line ≠ none) :
    ∃ k n c b line, Visits false source base chunks k n c b line ∧ Visits true source base chunks k n c b line ∧
      leftOut? line ≠ none ∧ ∀ k' n' c' b' line', Visits false source base chunks k' n' c' b' line' →
        k' < k ∨ k' = k ∧ n' < n → leftOut? line' = none := by
  obtain ⟨chunk, hchunk, hreached⟩ := h
  -- the first chunk that has one, and then the first one in that chunk
  obtain ⟨k, c, chunk, hchunk, ⟨n, b, line, ⟨name, body, htemplate, hreached⟩, hline⟩, hchunks⟩ :=
    exists_first_reached (P := fun _ c chunk => ∃ n b line, c.ReachesLine false chunk n b line ∧ leftOut? line ≠ none)
      ⟨k, c, chunk, hchunk, n, b, line, hreached, hline⟩
  obtain ⟨n, b, line, hreached, hline, hlines⟩ :=
    exists_first_reached (P := fun _ _ line => leftOut? line ≠ none) ⟨n, b, line, hreached, hline⟩
  have hstrict : Reached (readPlaced true source) 0 base chunks k c chunk := by
    refine hchunk.congr fun k' hk' c' chunk' hbefore => ?_
    have hnone := hchunks k' hk' c' chunk' hbefore
    unfold readPlaced
    rw [readChunk_strict_of_leftOut? fun n' b' line' hline' => by
      by_contra hleft
      exact hnone ⟨n', b', line', hline', hleft⟩]
  have hstrict' : Reached (Body.readNumbered true) 2 (c.start name) body n b line := by
    refine hreached.congr fun n' hn' b' line' hbefore => ?_
    exact Body.readNumbered_strict_of_leftOut? (not_not.1 (hlines n' hn' b' line' hbefore))
  refine ⟨k, n, c, b, line, ⟨chunk, hchunk, name, body, htemplate, hreached⟩,
    ⟨chunk, hstrict, name, body, htemplate, hstrict'⟩, hline, ?_⟩
  rintro k' n' c' b' line' ⟨chunk', hchunk', hline'⟩ (hk | ⟨rfl, hn⟩)
  · by_contra hleft
    exact hchunks k' hk c' chunk' hchunk' ⟨n', b', line', hline', hleft⟩
  · obtain ⟨rfl, rfl⟩ := hchunk.unique hchunk'
    obtain ⟨name', body', htemplate', hline'⟩ := hline'
    rw [htemplate] at htemplate'
    cases htemplate'
    exact not_not.1 (hlines n' hn b' line' hline')

/-- Reading when strict and when not are one run. If the run that is not strict comes to no
variation with a problem, the other one is the same, in what it leaves as in its failure. Else the
strict one fails at the first of them, there where the other one leaves it out and goes on, and it
leaves what that one has just after it. -/
theorem readChunks_strict (source : Option Text) (base : Catalog) (chunks : List Text) :
    let lenient := readChunks false source base chunks
    let strict := readChunks true source base chunks
    ((∀ k n c b line, Visits false source base chunks k n c b line → leftOut? line = none) → strict = lenient) ∧
      ((∃ k n c b line, Visits false source base chunks k n c b line ∧ leftOut? line ≠ none) →
        ∃ k n c b line v q, Visits false source base chunks k n c b line ∧
          payload? line = some (.variation v) ∧ Variation.problem? v = some q ∧
          (∀ k' n' c' b' line', Visits false source base chunks k' n' c' b' line' →
            k' < k ∨ k' = k ∧ n' < n → leftOut? line' = none) ∧
          (b.readLine false line).failure = none ∧
          strict = ⟨c.during (b.readLine false line).state, some
            ⟨.invalidVariation v q.message, some ⟨source, some k, some n, some (Text.trim line)⟩⟩⟩) := by
  intro lenient strict
  constructor
  · intro hnone
    refine readEach_congr fun k c chunk hchunk => ?_
    rw [readChunk_strict_of_leftOut? fun n b line hline => hnone k n c b line ⟨chunk, hchunk, hline⟩]
  · rintro ⟨k, n, c, b, line, hvisits, hline⟩
    obtain ⟨k, n, c, b, line, hvisits, hvisits', hline, hfirst⟩ := exists_first_leftOut hvisits hline
    obtain ⟨v, hv⟩ := Option.ne_none_iff_exists'.1 hline
    obtain ⟨q, hp, hq⟩ := leftOut?_eq_some.1 hv
    have hlenient := Body.readLine_of_problem false b hp hq
    have hstrict := Body.readLine_of_problem true b hp hq
    refine ⟨k, n, c, b, line, v, q, hvisits, hp, hq, hfirst, by rw [hlenient]; rfl, ?_⟩
    have hfails : (b.readLine true line).failure = some { fault := .invalidVariation v q.message } := by
      rw [hstrict]
      rfl
    refine (hvisits'.readChunks_eq hfails).trans ?_
    rw [hstrict, hlenient]

/-- No variation has a problem; and one has, while the branch that it would go to is not yet in the
template. -/
theorem readChunks_strict_pending :
    let base : Catalog := { templates := [⟨"A".toList, ["a".toList], []⟩] }
    let delimited := ["# A\n- {x}".toList]
    let chunks := ["$ x : int", "# A\n- IF: x\n- b\n- {y} \x7d\n- c\n- \x7d"].map String.toList
    readChunks true none base delimited = readChunks false none base delimited ∧
      ∃ c b line, Visits false none base chunks 1 4 c b line ∧ (b.readLine false line).failure = none ∧
        (readChunks true none base chunks).state = c.during (b.readLine false line).state ∧
        (readChunks true none base chunks).state = { base with
          entities := [{ name := "x".toList, type := .int }, { name := "y".toList }] } := by
  intro base delimited chunks
  have hnone : ∀ line ∈ delimited.flatMap bodyOf, leftOut? line = none := by decide +kernel
  obtain ⟨k, n, c, b, line, v, q, hvisits, -, -, -, hok, hstrict⟩ := (readChunks_strict none base chunks).2
    ⟨1, 4, _, _, "- {y} \x7d".toList, ⟨"# A\n- IF: x\n- b\n- {y} \x7d\n- c\n- \x7d".toList,
      .next (by decide +kernel) .here, "A".toList, ["- IF: x", "- b", "- {y} \x7d", "- c", "- \x7d"].map String.toList,
      by decide +kernel, .next (by decide +kernel) (.next (by decide +kernel) .here)⟩, by decide +kernel⟩
  have hplace : (readChunks true none base chunks).failure.bind Failure.chunk? = some 1 ∧
      (readChunks true none base chunks).failure.bind Failure.line? = some 4 := by decide +kernel
  rw [hstrict] at hplace
  obtain ⟨hk, hn⟩ := hplace
  obtain rfl : k = 1 := Int.ofNat_inj.1 (Option.some.inj hk)
  obtain rfl : n = 4 := Int.ofNat_inj.1 (Option.some.inj hn)
  exact ⟨(readChunks_strict none base delimited).1 fun _ _ _ _ line hline => hnone line hline.mem,
    c, b, line, hvisits, hok, congrArg Outcome.state hstrict, by decide +kernel⟩

end Catalog

end LangGen
