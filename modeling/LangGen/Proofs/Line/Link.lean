/-
What is left of a text when its links are collapsed. One pass leaves out the targets of links and
keeps all else; where a link is followed by a text in parentheses, that text is kept right behind
the bracket and reads as a target of its own. So a link is left exactly if the text has such a place
(`hasLink_collapseLinks`), and only where a link is left does another pass change anything
(`collapseLinks_eq_self_iff`).

The proofs follow the pass: a text is empty, or it starts with a link, or with a character that
starts none (`link_induction`).
-/
import LangGen.Proofs.Line.Reference

namespace LangGen.Line

/-! ## Links -/

/-- A link stands in the text: a closing bracket and right behind it, in parentheses, a target that
holds no line feed. -/
def HasLink (s : Text) : Prop := ∃ a t b, s = a ++ ']' :: '(' :: (t ++ ')' :: b) ∧ '\n' ∉ t

/-- The text ends in the target of a link: the next closing parenthesis closes the link. -/
def InTarget (s : Text) : Prop := ∃ a t, s = a ++ ']' :: '(' :: t ∧ ')' ∉ t ∧ '\n' ∉ t

/-- The text has a closing parenthesis that closes no link, and no line feed before it. -/
def Closes (s : Text) : Prop := ∃ b c, s = b ++ ')' :: c ∧ '\n' ∉ b ∧ ¬ InTarget b

/-- Right behind a link stands an opening parenthesis, which a later one closes. -/
def Chained (s : Text) : Prop := ∃ a r, s = a ++ ')' :: '(' :: r ∧ InTarget a ∧ Closes r

theorem targetOf?_isSome_iff {s : Text} : (targetOf? s).isSome = true ↔ ∃ b c, s = b ++ ')' :: c ∧ '\n' ∉ b := by
  rw [Option.isSome_iff_exists]
  constructor
  · rintro ⟨t, ht⟩
    obtain ⟨-, hline, u, rfl⟩ := targetOf?_eq_some.1 ht
    exact ⟨t, u, rfl, hline⟩
  · rintro ⟨b, c, rfl, hline⟩
    -- the target ends at the first closing parenthesis, which may stand in `b`
    obtain ⟨t, u, hsplit, hclose⟩ := List.eq_append_cons_of_mem (@List.mem_concat_self _ b ')')
    refine ⟨t, targetOf?_eq_some.2 ⟨hclose, fun hmem => hline ?_, u ++ c, ?_⟩⟩
    · have hmem' : '\n' ∈ b ++ [')'] := by rw [hsplit]; exact List.mem_append_left _ hmem
      simpa using hmem'
    · calc b ++ ')' :: c = (b ++ [')']) ++ c := by simp
        _ = t ++ ')' :: (u ++ c) := by rw [hsplit]; simp

theorem startsTarget_iff {s : Text} : startsTarget s = true ↔ ∃ b c, s = '(' :: (b ++ ')' :: c) ∧ '\n' ∉ b := by
  unfold startsTarget
  split
  · rw [targetOf?_isSome_iff]
    simp
  · rename_i hs
    simp only [Bool.false_eq_true, false_iff]
    rintro ⟨b, c, rfl, -⟩
    exact hs _ rfl

theorem not_hasLink_nil : ¬ HasLink [] := by
  rintro ⟨a, t, b, h, -⟩
  cases a <;> cases h

theorem not_inTarget_nil : ¬ InTarget [] := by
  rintro ⟨a, t, h, -⟩
  cases a <;> cases h

theorem hasLink_cons {c : Char} {r : Text} : HasLink (c :: r) ↔ (c = ']' ∧ startsTarget r = true) ∨ HasLink r := by
  rw [startsTarget_iff]
  constructor
  · rintro ⟨_ | ⟨x, a⟩, t, b, h, hline⟩
    · cases h
      exact .inl ⟨rfl, t, b, rfl, hline⟩
    · cases h
      exact .inr ⟨a, t, b, rfl, hline⟩
  · rintro (⟨rfl, t, b, rfl, hline⟩ | ⟨a, t, b, rfl, hline⟩)
    · exact ⟨[], t, b, rfl, hline⟩
    · exact ⟨c :: a, t, b, rfl, hline⟩

theorem inTarget_cons {c : Char} {r : Text} :
    InTarget (c :: r) ↔ (c = ']' ∧ ∃ t, r = '(' :: t ∧ ')' ∉ t ∧ '\n' ∉ t) ∨ InTarget r := by
  constructor
  · rintro ⟨_ | ⟨x, a⟩, t, h, ht⟩
    · cases h
      exact .inl ⟨rfl, t, rfl, ht⟩
    · cases h
      exact .inr ⟨a, t, rfl, ht⟩
  · rintro (⟨rfl, t, rfl, ht⟩ | ⟨a, t, rfl, ht⟩)
    · exact ⟨[], t, rfl, ht⟩
    · exact ⟨c :: a, t, rfl, ht⟩

/-- A closing parenthesis ends every target that is open there. -/
theorem inTarget_close {s t : Text} : InTarget (s ++ ')' :: t) ↔ InTarget t := by
  induction s with
  | nil => simp [inTarget_cons]
  | cons c s ih =>
    rw [List.cons_append, inTarget_cons, ih, or_iff_right]
    rintro ⟨-, u, hu, hclose, -⟩
    have hmem : ')' ∈ '(' :: u := by rw [← hu]; simp
    simp [hclose] at hmem

/-- Two cuts of one text at a character: the second one is at the first place where it stands, or
behind that. -/
theorem cut_cases {x : Char} {a b r s : Text} (h : a ++ x :: r = b ++ x :: s) (ha : x ∉ a) :
    (b = a ∧ r = s) ∨ ∃ b', b = a ++ x :: b' ∧ r = b' ++ x :: s := by
  induction a generalizing b with
  | nil =>
    cases b with
    | nil => exact .inl ⟨rfl, (List.cons.inj h).2⟩
    | cons y b =>
      obtain ⟨rfl, rfl⟩ := List.cons.inj h
      exact .inr ⟨b, rfl, rfl⟩
  | cons y a ih =>
    rw [List.mem_cons, not_or] at ha
    cases b with
    | nil => exact absurd (List.cons.inj h).1.symm ha.1
    | cons z b =>
      obtain ⟨rfl, htail⟩ := List.cons.inj h
      rcases ih htail ha.2 with ⟨rfl, rfl⟩ | ⟨b', rfl, rfl⟩
      · exact .inl ⟨rfl, rfl⟩
      · exact .inr ⟨b', rfl, rfl⟩

/-! ## One pass -/

/-- Inside a target all is left out up to its closing parenthesis. -/
theorem collapseFrom_target {t : Text} (h : ')' ∉ t) (r : Text) :
    collapseFrom true (t ++ ')' :: r) = collapseFrom false r := by
  induction t with
  | nil => rfl
  | cons c t ih =>
    rw [List.mem_cons, not_or] at h
    have hc : (c != ')') = true := by simpa using Ne.symm h.1
    rw [List.cons_append, collapseFrom, if_pos rfl, hc, ih h.2]

theorem collapseLinks_link {t : Text} (hclose : ')' ∉ t) (hline : '\n' ∉ t) (r : Text) :
    collapseLinks (']' :: '(' :: (t ++ ')' :: r)) = ']' :: collapseLinks r := by
  have hstarts : startsTarget ('(' :: (t ++ ')' :: r)) = true := startsTarget_iff.2 ⟨t, r, rfl, hline⟩
  have htarget : collapseFrom true ('(' :: (t ++ ')' :: r)) = collapseFrom false r :=
    collapseFrom_target (t := '(' :: t) (by simpa using hclose) r
  unfold collapseLinks
  rw [collapseFrom, hstarts, if_neg Bool.false_ne_true]
  exact congrArg (']' :: ·) htarget

theorem collapseLinks_char {c : Char} {r : Text} (h : ¬ (c = ']' ∧ startsTarget r = true)) :
    collapseLinks (c :: r) = c :: collapseLinks r := by
  have hnot : (c == ']' && startsTarget r) = false := by
    rw [← Bool.not_eq_true, Bool.and_eq_true, beq_iff_eq]
    exact h
  unfold collapseLinks
  rw [collapseFrom, hnot, if_neg Bool.false_ne_true]

/-- What a pass comes to at each place: a link, or a character that starts none. -/
theorem link_induction {P : Text → Prop} (nil : P [])
    (char : ∀ c r, ¬ (c = ']' ∧ startsTarget r = true) → P r → P (c :: r))
    (link : ∀ t r, ')' ∉ t → '\n' ∉ t → P r → P (']' :: '(' :: (t ++ ')' :: r))) (s : Text) : P s := by
  induction hn : s.length using Nat.strong_induction_on generalizing s with
  | _ n ih =>
    subst hn
    cases s with
    | nil => exact nil
    | cons c r =>
      by_cases h : c = ']' ∧ startsTarget r = true
      · obtain ⟨rfl, hstarts⟩ := h
        unfold startsTarget at hstarts
        split at hstarts
        · obtain ⟨t, ht⟩ := Option.isSome_iff_exists.1 hstarts
          obtain ⟨hclose, hline, u, rfl⟩ := targetOf?_eq_some.1 ht
          exact link t u hclose hline (ih u.length (by simp; omega) u rfl)
        · cases hstarts
      · exact char c r h (ih r.length (by simp) r rfl)

/-! ## What is left -/

/-- A closing parenthesis is kept exactly if it closes no link. -/
theorem targetOf?_collapseLinks (s : Text) : (targetOf? (collapseLinks s)).isSome = true ↔ Closes s := by
  induction s using link_induction with
  | nil =>
    refine iff_of_false (by simp [collapseLinks, collapseFrom, targetOf?]) ?_
    rintro ⟨b, c, h, -⟩
    cases b <;> cases h
  | char c r hc ih =>
    rw [collapseLinks_char hc, targetOf?]
    by_cases hclose : c = ')'
    · subst hclose
      exact iff_of_true rfl ⟨[], r, rfl, List.not_mem_nil, not_inTarget_nil⟩
    rw [if_neg hclose]
    by_cases hline : c = '\n'
    · subst hline
      refine iff_of_false (by simp) ?_
      rintro ⟨_ | ⟨x, b⟩, c, h, hb, -⟩
      · cases h
      · obtain ⟨rfl, -⟩ := List.cons.inj h
        exact hb List.mem_cons_self
    rw [if_neg hline, Option.isSome_map, ih]
    constructor
    · rintro ⟨b, d, rfl, hb, hopen⟩
      refine ⟨c :: b, d, rfl, by simp [Ne.symm hline, hb], fun hin => ?_⟩
      rcases inTarget_cons.1 hin with ⟨rfl, t, rfl, -, ht⟩ | hin
      · exact hc ⟨rfl, startsTarget_iff.2 ⟨t, d, rfl, ht⟩⟩
      · exact hopen hin
    · rintro ⟨_ | ⟨x, b⟩, d, h, hb, hopen⟩
      · exact absurd (List.cons.inj h).1 hclose
      · obtain ⟨rfl, rfl⟩ := List.cons.inj h
        exact ⟨b, d, rfl, fun hmem => hb (.tail _ hmem), fun hin => hopen (inTarget_cons.2 (.inr hin))⟩
  | link t r hclose hline ih =>
    have hnot : ')' ∉ ']' :: '(' :: t := by simpa using hclose
    rw [collapseLinks_link hclose hline, targetOf?, if_neg (by decide), if_neg (by decide), Option.isSome_map, ih]
    constructor
    · rintro ⟨b, d, rfl, hb, hopen⟩
      refine ⟨']' :: '(' :: (t ++ ')' :: b), d, by simp, by simp [hline, hb], ?_⟩
      exact mt (inTarget_close (s := ']' :: '(' :: t)).1 hopen
    · rintro ⟨b, d, h, hb, hopen⟩
      rcases cut_cases (a := ']' :: '(' :: t) h hnot with ⟨rfl, -⟩ | ⟨b', rfl, rfl⟩
      · exact absurd ⟨[], t, rfl, hclose, hline⟩ hopen
      · exact ⟨b', d, rfl, fun hmem => hb (by simp [hmem]), mt inTarget_close.2 hopen⟩

/-- What starts as a target after a pass starts with a parenthesis before it, too. -/
theorem startsTarget_collapseLinks (s : Text) :
    startsTarget (collapseLinks s) = true ↔ ∃ r, s = '(' :: r ∧ Closes r := by
  have hopen : ∀ r, collapseLinks ('(' :: r) = '(' :: collapseLinks r := fun r =>
    collapseLinks_char fun h => absurd h.1 (by decide)
  constructor
  · intro h
    -- the first character is kept, whatever it is
    obtain ⟨r, rfl⟩ : ∃ r, s = '(' :: r := by
      cases s using link_induction with
      | nil => cases h
      | char c r hc _ =>
        rw [collapseLinks_char hc] at h
        obtain ⟨b, d, hhead, -⟩ := startsTarget_iff.1 h
        exact ⟨r, by rw [(List.cons.inj hhead).1]⟩
      | link t r hclose hline _ =>
        rw [collapseLinks_link hclose hline] at h
        obtain ⟨b, d, hhead, -⟩ := startsTarget_iff.1 h
        cases hhead
    rw [hopen] at h
    exact ⟨r, rfl, (targetOf?_collapseLinks r).1 h⟩
  · rintro ⟨r, rfl, hr⟩
    rw [hopen]
    exact (targetOf?_collapseLinks r).2 hr

theorem chained_cons {c : Char} {r : Text} (h : ¬ (c = ']' ∧ startsTarget r = true)) :
    Chained (c :: r) ↔ Chained r := by
  constructor
  · rintro ⟨_ | ⟨x, a⟩, u, hsplit, hin, hu⟩
    · exact absurd hin not_inTarget_nil
    · obtain ⟨rfl, rfl⟩ := List.cons.inj hsplit
      rcases inTarget_cons.1 hin with ⟨rfl, t, rfl, -, ht⟩ | hin
      · exact absurd ⟨rfl, startsTarget_iff.2 ⟨t, _, rfl, ht⟩⟩ h
      · exact ⟨a, u, rfl, hin, hu⟩
  · rintro ⟨a, u, rfl, hin, hu⟩
    exact ⟨c :: a, u, rfl, inTarget_cons.2 (.inr hin), hu⟩

theorem chained_link {t : Text} (hclose : ')' ∉ t) (hline : '\n' ∉ t) (r : Text) :
    Chained (']' :: '(' :: (t ++ ')' :: r)) ↔ (∃ u, r = '(' :: u ∧ Closes u) ∨ Chained r := by
  have hnot : ')' ∉ ']' :: '(' :: t := by simpa using hclose
  constructor
  · rintro ⟨a, u, h, hin, hu⟩
    rcases cut_cases (a := ']' :: '(' :: t) h hnot with ⟨rfl, rfl⟩ | ⟨a', rfl, rfl⟩
    · exact .inl ⟨u, rfl, hu⟩
    · exact .inr ⟨a', u, rfl, inTarget_close.1 hin, hu⟩
  · rintro (⟨u, rfl, hu⟩ | ⟨a, u, rfl, hin, hu⟩)
    · exact ⟨']' :: '(' :: t, u, rfl, ⟨[], t, rfl, hclose, hline⟩, hu⟩
    · exact ⟨']' :: '(' :: (t ++ ')' :: a), u, by simp, (inTarget_close (s := ']' :: '(' :: t)).2 hin, hu⟩

/-- A pass leaves a link exactly where one is followed by a text in parentheses. -/
theorem hasLink_collapseLinks (s : Text) : HasLink (collapseLinks s) ↔ Chained s := by
  induction s using link_induction with
  | nil =>
    refine iff_of_false not_hasLink_nil ?_
    rintro ⟨a, r, h, -⟩
    cases a <;> cases h
  | char c r hc ih =>
    rw [collapseLinks_char hc, hasLink_cons, ih, chained_cons hc, or_iff_right]
    rintro ⟨rfl, hstarts⟩
    -- the bracket opens no link before the pass, and nothing is taken away that keeps it from doing so
    obtain ⟨u, rfl, b, d, rfl, hline, -⟩ := (startsTarget_collapseLinks r).1 hstarts
    exact hc ⟨rfl, startsTarget_iff.2 ⟨b, d, rfl, hline⟩⟩
  | link t r hclose hline ih =>
    rw [collapseLinks_link hclose hline, hasLink_cons, ih, chained_link hclose hline, startsTarget_collapseLinks]
    simp

/-- A pass only leaves out. -/
theorem collapseLinks_sublist (s : Text) : (collapseLinks s).Sublist s := by
  induction s using link_induction with
  | nil => exact List.Sublist.refl []
  | char c r hc ih =>
    rw [collapseLinks_char hc]
    exact ih.cons_cons c
  | link t r hclose hline ih =>
    rw [collapseLinks_link hclose hline]
    have hrest : r.Sublist ('(' :: (t ++ ')' :: r)) :=
      (List.sublist_append_of_sublist_right (List.sublist_cons_self ')' r)).cons '('
    exact (ih.trans hrest).cons_cons ']'

/-- A pass changes a text exactly if it has a link. -/
theorem collapseLinks_eq_self_iff (s : Text) : collapseLinks s = s ↔ ¬ HasLink s := by
  induction s using link_induction with
  | nil => exact iff_of_true rfl not_hasLink_nil
  | char c r hc ih =>
    rw [collapseLinks_char hc, List.cons_inj_right, ih, hasLink_cons, or_iff_right hc]
  | link t r hclose hline ih =>
    refine iff_of_false (fun h => ?_) (not_not_intro ⟨[], t, r, rfl, hline⟩)
    have hlength := congrArg List.length h
    have hle := (collapseLinks_sublist r).length_le
    rw [collapseLinks_link hclose hline] at hlength
    simp only [List.length_cons, List.length_append] at hlength
    omega

end LangGen.Line
