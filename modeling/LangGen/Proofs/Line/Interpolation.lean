/-
Mentions and the braces of a variation. The check of a variation can tell of each closing brace
which one it closes (`Variation.pairsFrom`). The names that are mentioned in a variation without a
problem are the contents of such pairs that are names up to blanks, except for the pairs right
behind two backslashes: the check reads there that the first one takes the second one with it, and
the brace opens a pair; a mention only looks at the second one (`Line.mentions_iff_interpolation`).
-/
import LangGen.Proofs.Line.Piece
import LangGen.Proofs.Text.Dotted
import LangGen.Proofs.Variation

namespace LangGen

/-! ## The pairs of braces that the check matches -/

namespace Variation

/-- A delimiter that is open, and what stands before it. -/
structure Frame where
  kind : Delimiter
  before : Text
  deriving DecidableEq, Repr

/-- A pair of braces: what stands before it, and what stands in it. -/
structure Interpolation where
  before : Text
  content : Text
  deriving DecidableEq, Repr

/-- What has been read since a delimiter opened. -/
def Frame.content (f : Frame) (read : Text) : Text := read.drop (f.before.length + 1)

/-- The check of a variation that has come to the end of `read`, and collects the pairs of braces as
they close. -/
def pairsFrom (read : Text) (escaped : Bool) (frames : List Frame) : Text → Except Problem (List Interpolation)
  | [] =>
    match frames with
    | [] => .ok []
    | f :: _ => .error (.unclosed f.kind.opener)
  | c :: r =>
    if escaped then pairsFrom (read ++ [c]) false frames r
    else if c = '\\' then pairsFrom (read ++ [c]) true frames r
    else
      match Delimiter.ofOpener? c with
      | some kind => pairsFrom (read ++ [c]) false (⟨kind, read⟩ :: frames) r
      | none =>
        match Delimiter.ofCloser? c with
        | none => pairsFrom (read ++ [c]) false frames r
        | some kind =>
          match frames with
          | [] => .error (.unbalanced c)
          | f :: fs =>
            if f.kind ≠ kind then .error (.unbalanced c)
            else if kind = .brace ∧ Text.allBlank (f.content read) then .error .emptyBraces
            else
              let closed := if kind = .brace then [⟨f.before, f.content read⟩] else []
              (pairsFrom (read ++ [c]) false fs r).map (closed ++ ·)

/-- The pairs of braces of a variation; one with a problem has none. -/
def interpolations (s : Text) : List Interpolation :=
  match pairsFrom [] false [] s with
  | .ok ps => ps
  | .error _ => []

variable {c : Char} {f : Frame} {frames : List Frame} {ps : List Interpolation} {escaped : Bool}
  {read r s t : Text}

theorem pairsFrom_char (hc : c ∉ ['\\', '{', '}', '[', ']']) (read : Text) (frames : List Frame) (r : Text) :
    pairsFrom read false frames (c :: r) = pairsFrom (read ++ [c]) false frames r := by
  simp only [List.mem_cons, List.not_mem_nil, or_false, not_or] at hc
  obtain ⟨hback, hbrace, hbrace', hbracket, hbracket'⟩ := hc
  simp [pairsFrom, Delimiter.ofOpener?, Delimiter.ofCloser?, hback, hbrace, hbrace', hbracket, hbracket']

theorem pairsFrom_opener (d : Delimiter) (read : Text) (frames : List Frame) (r : Text) :
    pairsFrom read false frames (d.opener :: r) = pairsFrom (read ++ [d.opener]) false (⟨d, read⟩ :: frames) r := by
  cases d <;> rfl

theorem pairsFrom_closer_nil (d : Delimiter) (read r : Text) :
    pairsFrom read false [] (d.closer :: r) = .error (.unbalanced d.closer) := by
  cases d <;> rfl

theorem pairsFrom_closer (d : Delimiter) (read : Text) (f : Frame) (fs : List Frame) (r : Text) :
    pairsFrom read false (f :: fs) (d.closer :: r) =
      if f.kind ≠ d then .error (.unbalanced d.closer)
      else if d = .brace ∧ Text.allBlank (f.content read) then .error .emptyBraces
      else (pairsFrom (read ++ [d.closer]) false fs r).map
        ((if d = .brace then [⟨f.before, f.content read⟩] else []) ++ ·) := by
  cases d <;> rfl

/-! ### Frames -/

/-- Each frame was opened in what had been read when the next one inside it opened. -/
def Nested : Text → List Frame → Prop
  | _, [] => True
  | read, f :: fs => f.before ++ [f.kind.opener] <+: read ∧ Nested f.before fs

theorem Nested.mono (h : Nested read frames) (hs : read <+: s) : Nested s frames := by
  cases frames with
  | nil => trivial
  | cons f fs => exact ⟨h.1.trans hs, h.2⟩

theorem Nested.concat (h : Nested read frames) (c : Char) : Nested (read ++ [c]) frames :=
  h.mono (List.prefix_append _ _)

theorem Nested.push (h : Nested read frames) (d : Delimiter) :
    Nested (read ++ [d.opener]) (⟨d, read⟩ :: frames) :=
  ⟨List.prefix_refl _, h⟩

theorem Nested.pop (h : Nested read (f :: frames)) : Nested read frames :=
  h.2.mono ((List.prefix_append _ _).trans h.1)

theorem Nested.forall_prefix (h : Nested read frames) : ∀ g ∈ frames, g.before ++ [g.kind.opener] <+: read := by
  induction frames generalizing read with
  | nil => intro g hg; cases hg
  | cons f fs ih => exact List.forall_mem_cons.2 ⟨h.1, ih h.pop⟩

theorem Frame.content_append (f : Frame) (d : Char) (t : Text) : f.content (f.before ++ [d] ++ t) = t := by
  have hlength : f.before.length + 1 = (f.before ++ [d]).length := by rw [List.length_append, List.length_singleton]
  rw [content, hlength, List.drop_left]

/-- A frame as the check keeps it. -/
def Frame.opened (read : Text) (f : Frame) : Opened := ⟨f.kind, Text.allBlank (f.content read)⟩

/-- What is read counts for the innermost frame only; the other ones hold its opening delimiter,
which is no blank. -/
theorem Nested.touch (h : Nested read frames) (c : Char) :
    touch c (frames.map (Frame.opened read)) = frames.map (Frame.opened (read ++ [c])) := by
  cases frames with
  | nil => rfl
  | cons f fs =>
    obtain ⟨⟨t, rfl⟩, hfs⟩ := h
    have hopener : ∀ d : Delimiter, Text.isBlank d.opener = false := by intro d; cases d <;> decide
    rw [List.map_cons, List.map_cons, Variation.touch]
    congr 1
    · unfold Frame.opened
      rw [List.append_assoc _ t, f.content_append, f.content_append]
      simp [Text.allBlank]
    · refine List.map_congr_left fun g hg => ?_
      obtain ⟨u, hu⟩ := hfs.forall_prefix g hg
      have hread : ∀ v,
          f.before ++ [f.kind.opener] ++ v = g.before ++ [g.kind.opener] ++ (u ++ f.kind.opener :: v) := by
        intro v
        rw [← hu]
        simp
      unfold Frame.opened
      rw [List.append_assoc _ t, hread, hread, g.content_append, g.content_append]
      simp [Text.allBlank, hopener]

/-- Collecting the pairs of braces is checking. -/
theorem pairsFrom_check (h : Nested read frames) :
    (pairsFrom read escaped frames s).map (fun _ => ()) =
      (problemFrom escaped (frames.map (Frame.opened read)) s).elim (.ok ()) .error := by
  induction s generalizing read escaped frames with
  | nil => cases frames <;> rfl
  | cons c r ih =>
    cases escaped with
    | true =>
      show (pairsFrom (read ++ [c]) false frames r).map _ = (problemFrom false (touch c _) r).elim _ _
      rw [h.touch, ih (h.concat c)]
    | false =>
      rcases char_cases c with hc | rfl | ⟨d, rfl | rfl⟩
      · rw [pairsFrom_char hc, problemFrom_char hc, h.touch, ih (h.concat c)]
      · show (pairsFrom (read ++ ['\\']) true frames r).map _ = (problemFrom true (touch '\\' _) r).elim _ _
        rw [h.touch, ih (h.concat _)]
      · have hframe : Frame.opened (read ++ [d.opener]) ⟨d, read⟩ = ⟨d, true⟩ := by
          unfold Frame.opened
          rw [← List.append_nil (read ++ [d.opener]), Frame.content_append ⟨d, read⟩]
          rfl
        rw [pairsFrom_opener, problemFrom_opener, h.touch, ih (h.push d), List.map_cons, hframe]
      · cases frames with
        | nil => rw [pairsFrom_closer_nil, List.map_nil, problemFrom_closer_nil]; rfl
        | cons f fs =>
          rw [pairsFrom_closer, List.map_cons, problemFrom_closer, h.pop.touch]
          have hopened : Frame.opened read f = ⟨f.kind, Text.allBlank (f.content read)⟩ := rfl
          rw [hopened]
          dsimp only
          split
          · rfl
          split
          · rfl
          rw [← ih (h.pop.concat _)]
          cases pairsFrom (read ++ [d.closer]) false fs r <;> rfl

theorem pairsFrom_of_problem? (h : problem? s = none) : pairsFrom [] false [] s = .ok (interpolations s) := by
  unfold problem? at h
  split at h
  · cases h
  have hcheck : (pairsFrom [] false [] s).map (fun _ => ()) = (problemFrom false [] s).elim (.ok ()) .error :=
    pairsFrom_check (show Nested [] [] from trivial)
  rw [h] at hcheck
  unfold interpolations
  cases hpairs : pairsFrom [] false [] s with
  | ok ps => rfl
  | error p => rw [hpairs] at hcheck; cases hcheck

/-! ### Steps -/

/-- What one character can do to the frames, where `read` stands before it, and the pairs that it
closes. -/
inductive Step (read : Text) : Bool → List Frame → Char → Bool → List Frame → List Interpolation → Prop
  | taken (frames : List Frame) (c : Char) : Step read true frames c false frames []
  | backslash (frames : List Frame) : Step read false frames '\\' true frames []
  | plain {c : Char} (hc : c ∉ ['\\', '{', '}', '[', ']']) (frames : List Frame) :
      Step read false frames c false frames []
  | opens (d : Delimiter) (frames : List Frame) : Step read false frames d.opener false (⟨d, read⟩ :: frames) []
  | closes {f : Frame} {frames : List Frame} {closed : List Interpolation}
      (hclosed : ∀ p ∈ closed, f.kind = .brace ∧ p = ⟨f.before, f.content read⟩) :
      Step read false (f :: frames) f.kind.closer false frames closed

theorem pairsFrom_cons (h : pairsFrom read escaped frames (c :: r) = .ok ps) :
    ∃ escaped' frames' closed ps', Step read escaped frames c escaped' frames' closed ∧
      pairsFrom (read ++ [c]) escaped' frames' r = .ok ps' ∧ ps = closed ++ ps' := by
  cases escaped with
  | true => exact ⟨_, _, _, _, .taken frames c, h, rfl⟩
  | false =>
    rcases char_cases c with hc | rfl | ⟨d, rfl | rfl⟩
    · rw [pairsFrom_char hc] at h
      exact ⟨_, _, _, _, .plain hc frames, h, rfl⟩
    · exact ⟨_, _, _, _, .backslash frames, h, rfl⟩
    · rw [pairsFrom_opener] at h
      exact ⟨_, _, _, _, .opens d frames, h, rfl⟩
    · cases frames with
      | nil => rw [pairsFrom_closer_nil] at h; cases h
      | cons f fs =>
        rw [pairsFrom_closer] at h
        split at h
        · cases h
        split at h
        · cases h
        rename_i hkind _
        obtain rfl := not_not.1 hkind
        cases hrest : pairsFrom (read ++ [f.kind.closer]) false fs r with
        | error p => rw [hrest] at h; cases h
        | ok ps' =>
          rw [hrest] at h
          cases h
          refine ⟨_, _, _, ps', .closes fun p hp => ?_, hrest, rfl⟩
          split at hp
          · rename_i hbrace
            exact ⟨hbrace, List.mem_singleton.1 hp⟩
          · cases hp

theorem Step.nested {escaped' : Bool} {frames' : List Frame} {closed : List Interpolation}
    (hstep : Step read escaped frames c escaped' frames' closed) (h : Nested read frames) :
    Nested (read ++ [c]) frames' := by
  cases hstep with
  | taken => exact h.concat c
  | backslash => exact h.concat _
  | plain => exact h.concat c
  | opens d => exact h.push d
  | closes => exact h.pop.concat _

/-- A pair of braces stands where it says. -/
theorem pairsFrom_split (h : pairsFrom read escaped frames s = .ok ps) (hframes : Nested read frames) :
    ∀ p ∈ ps, ∃ after, read ++ s = p.before ++ '{' :: (p.content ++ '}' :: after) := by
  induction s generalizing read escaped frames ps with
  | nil =>
    intro p hp
    cases frames with
    | nil => cases h; cases hp
    | cons f fs => cases h
  | cons c r ih =>
    obtain ⟨escaped', frames', closed, ps', hstep, hrest, rfl⟩ := pairsFrom_cons h
    intro p hp
    rcases List.mem_append.1 hp with hp | hp
    · cases hstep with
      | taken | backslash | plain | opens => cases hp
      | closes hclosed =>
        rename_i f
        obtain ⟨hbrace, rfl⟩ := hclosed p hp
        obtain ⟨t, rfl⟩ := hframes.1
        refine ⟨r, ?_⟩
        rw [f.content_append, hbrace]
        simp [Delimiter.opener, Delimiter.closer]
    · obtain ⟨after, hafter⟩ := ih hrest (hstep.nested hframes) p hp
      exact ⟨after, by rw [← hafter, List.append_assoc, List.singleton_append]⟩

/-! ### Backslashes -/

/-- What stands before a character that no backslash takes with it: a backslash at its end has been
taken itself. -/
def Live (before : Text) : Prop := before.getLast? = some '\\' → ['\\', '\\'] <:+ before

/-- What is read up to an escaped character ends with the backslash that escapes it, and is live up
to another one. -/
def Escaping (escaped : Bool) (read : Text) : Prop := if escaped then read.getLast? = some '\\' else Live read

theorem live_concat (hc : c ≠ '\\') (read : Text) : Live (read ++ [c]) := by
  intro h
  rw [List.getLast?_concat] at h
  exact absurd (Option.some.inj h) hc

theorem Step.escaping {escaped' : Bool} {frames' : List Frame} {closed : List Interpolation}
    (hstep : Step read escaped frames c escaped' frames' closed) (h : Escaping escaped read) :
    Escaping escaped' (read ++ [c]) := by
  cases hstep with
  | taken =>
    intro hlast
    rw [List.getLast?_concat] at hlast
    obtain rfl := Option.some.inj hlast
    obtain ⟨t, rfl⟩ := List.getLast?_eq_some_iff.1 h
    exact ⟨t, by simp⟩
  | backslash => exact List.getLast?_concat
  | plain hc => exact live_concat (by rintro rfl; exact hc List.mem_cons_self) read
  | opens d => exact live_concat (by cases d <;> decide) read
  | closes =>
    rename_i f _
    exact live_concat (by cases f.kind <;> decide) read

theorem Step.live {escaped' : Bool} {frames' : List Frame} {closed : List Interpolation}
    (hstep : Step read escaped frames c escaped' frames' closed) (h : Escaping escaped read)
    (hframes : ∀ f ∈ frames, Live f.before) : ∀ f ∈ frames', Live f.before := by
  cases hstep with
  | taken | backslash | plain => exact hframes
  | opens d => exact List.forall_mem_cons.2 ⟨h, hframes⟩
  | closes => exact (List.forall_mem_cons.1 hframes).2

/-- No backslash takes the opening brace of a pair with it. -/
theorem pairsFrom_live (h : pairsFrom read escaped frames s = .ok ps) (hread : Escaping escaped read)
    (hframes : ∀ f ∈ frames, Live f.before) : ∀ p ∈ ps, Live p.before := by
  induction s generalizing read escaped frames ps with
  | nil =>
    cases frames with
    | nil => cases h; exact fun p hp => by cases hp
    | cons f fs => cases h
  | cons c r ih =>
    obtain ⟨escaped', frames', closed, ps', hstep, hrest, rfl⟩ := pairsFrom_cons h
    refine List.forall_mem_append.2 ⟨fun p hp => ?_, ih hrest (hstep.escaping hread) (hstep.live hread hframes)⟩
    cases hstep with
    | taken | backslash | plain | opens => cases hp
    | closes hclosed =>
      obtain ⟨-, rfl⟩ := hclosed p hp
      exact (List.forall_mem_cons.1 hframes).1

/-! ### Braces with plain characters -/

/-- A text without backslashes and delimiters. -/
def Plain (t : Text) : Prop := ∀ c ∈ t, c ∉ ['\\', '{', '}', '[', ']']

theorem Plain.append (hs : Plain s) (ht : Plain t) : Plain (s ++ t) := List.forall_mem_append.2 ⟨hs, ht⟩

theorem plain_of_dotted {name : Text} (h : Text.Dotted name) : Plain name := by
  intro c hc hmem
  have hword : (['\\', '{', '}', '[', ']'].all fun d => !Text.isWordChar d) = true := by decide +kernel
  have hnot := List.all_eq_true.1 hword c hmem
  rcases h.mem c hc with hchar | rfl
  · rw [hchar] at hnot; cases hnot
  · exact absurd hmem (by decide)

theorem plain_of_blank {s : Text} (h : ∀ c ∈ s, Text.isBlank c = true) : Plain s := by
  intro c hc hmem
  have hblank : (['\\', '{', '}', '[', ']'].all fun d => !Text.isBlank d) = true := by decide
  have hnot := List.all_eq_true.1 hblank c hmem
  rw [h c hc] at hnot
  cases hnot

/-- Plain characters are passed over. -/
theorem pairsFrom_append (ht : Plain t) (read : Text) (frames : List Frame) (r : Text) :
    pairsFrom read false frames (t ++ r) = pairsFrom (read ++ t) false frames r := by
  induction t generalizing read with
  | nil => rw [List.append_nil]; rfl
  | cons c t ih =>
    obtain ⟨hc, ht⟩ := List.forall_mem_cons.1 ht
    rw [List.cons_append, pairsFrom_char hc, ih ht, ← List.append_cons]

/-- Braces with plain characters in them are a pair. -/
theorem pairsFrom_braces (ht : Plain t) (read : Text) (frames : List Frame) (r : Text) :
    pairsFrom read false frames ('{' :: (t ++ '}' :: r)) =
      if Text.allBlank t then .error .emptyBraces
      else (pairsFrom (read ++ ['{'] ++ t ++ ['}']) false frames r).map (⟨read, t⟩ :: ·) := by
  have hopened : pairsFrom read false frames ('{' :: (t ++ '}' :: r)) =
      pairsFrom (read ++ ['{'] ++ t) false (⟨.brace, read⟩ :: frames) ('}' :: r) := by
    rw [show '{' = Delimiter.brace.opener from rfl, pairsFrom_opener, pairsFrom_append ht]
  have hcontent : Frame.content ⟨.brace, read⟩ (read ++ ['{'] ++ t) = t := Frame.content_append ⟨.brace, read⟩ '{' t
  have hclosed := pairsFrom_closer .brace (read ++ ['{'] ++ t) ⟨.brace, read⟩ frames r
  rw [hcontent] at hclosed
  rw [hopened]
  exact hclosed.trans (by simp [Delimiter.closer])

/-- Such braces are found wherever they stand, unless a backslash stands right before them. -/
theorem mem_pairsFrom {before after : Text} {behind : Bool} (ht : Plain t)
    (hbehind : escaped = true → behind = true) (hbefore : Line.escapes behind before = false)
    (h : pairsFrom read escaped frames (before ++ '{' :: (t ++ '}' :: after)) = .ok ps) :
    ⟨read ++ before, t⟩ ∈ ps := by
  induction before generalizing read escaped frames ps behind with
  | nil =>
    obtain rfl : behind = false := hbefore
    obtain rfl : escaped = false := Bool.eq_false_iff.2 fun hescaped => Bool.false_ne_true (hbehind hescaped)
    rw [List.nil_append, pairsFrom_braces ht] at h
    split at h
    · cases h
    cases hrest : pairsFrom (read ++ ['{'] ++ t ++ ['}']) false frames after with
    | error p => rw [hrest] at h; cases h
    | ok ps' =>
      rw [hrest] at h
      cases h
      rw [List.append_nil]
      exact List.mem_cons_self
  | cons c before ih =>
    obtain ⟨escaped', frames', closed, ps', hstep, hrest, rfl⟩ := pairsFrom_cons h
    have hbehind' : escaped' = true → (c == '\\') = true := by
      intro hescaped
      cases hstep with
      | backslash => rfl
      | taken | plain | opens | closes => cases hescaped
    have hmem := ih hbehind' hbefore hrest
    rw [← List.append_cons] at hmem
    exact List.mem_append_right _ hmem

end Variation

/-! ## Mentions -/

namespace Line

/-- A variation without a problem mentions the names that fill one of its pairs of braces up to
blanks, except for the pairs right behind two backslashes. -/
theorem mentions_iff_interpolation {s : Text} (h : Variation.problem? s = none) (name : Text) :
    name ∈ mentions s ↔ ∃ p ∈ Variation.interpolations s, Text.trim p.content = name ∧ Text.Dotted name ∧
      ¬ ['\\', '\\'] <:+ p.before := by
  have hpairs := Variation.pairsFrom_of_problem? h
  rw [mem_mentions_iff, mem_mentionsFrom_iff]
  constructor
  · rintro ⟨before, r, rest, rfl, hbefore, hr⟩
    have hname := Text.dotted_of_bracedName? hr
    obtain ⟨a, b, rfl, ha, hb⟩ := Text.bracedName?_split hr
    have hplain : Variation.Plain (a ++ name ++ b) :=
      ((Variation.plain_of_blank ha).append (Variation.plain_of_dotted hname)).append (Variation.plain_of_blank hb)
    refine ⟨⟨before, a ++ name ++ b⟩, Variation.mem_pairsFrom hplain (fun h => h) hbefore hpairs, ?_, hname,
      fun hdoubled => escapes_eq_false_iff.1 hbefore ?_⟩
    · rw [Text.trim_append_blanks _ hb, Text.trim_blanks_append ha]
      exact (Text.neat_of_bracedName? hr).2
    · obtain ⟨t, rfl⟩ := hdoubled
      rw [List.getLast?_append]
      rfl
  · rintro ⟨p, hp, rfl, hname, hbefore⟩
    obtain ⟨after, hsplit⟩ := Variation.pairsFrom_split hpairs trivial p hp
    obtain ⟨a, b, hcontent, ha, hb⟩ := Text.trim_split p.content
    have hlive : Variation.Live p.before :=
      Variation.pairsFrom_live hpairs (show Variation.Live [] from fun h => by cases h) (fun f hf => by cases hf) p hp
    refine ⟨p.before, p.content ++ '}' :: after, after, hsplit,
      escapes_eq_false_iff.2 fun hlast => hbefore (hlive hlast),
      ?_⟩
    have hfound := hname.bracedName? ha hb after
    rwa [← hcontent] at hfound

/-- Of two pairs of braces and two escaped braces, only the pair with no backslashes before it is a
mention. -/
theorem mentions_iff_interpolation_doubled :
    let s := "\\\\\x7bx\x7d \\\x7bz\\\x7d \x7b y\t\x7d".toList
    Variation.problem? s = none ∧ "y".toList ∈ mentions s ∧ "x".toList ∉ mentions s ∧
      (Variation.interpolations s).map (fun p => Text.trim p.content) = ["x".toList, "y".toList] := by
  intro s
  have hs : Variation.problem? s = none := by decide +kernel
  have hname : Text.Dotted "y".toList := Text.dotted_iff.2 ⟨by decide, by decide +kernel⟩
  refine ⟨hs, (mentions_iff_interpolation hs _).2 ?_, fun h => ?_, by decide +kernel⟩
  · exact ⟨⟨"\\\\\x7bx\x7d \\\x7bz\\\x7d ".toList, " y\t".toList⟩, by decide +kernel, by decide, hname, by decide⟩
  · obtain ⟨p, hp, hx, -, hbefore⟩ := (mentions_iff_interpolation hs _).1 h
    have hbehind : ∀ p ∈ Variation.interpolations s, Text.trim p.content = "x".toList →
        ['\\', '\\'] <:+ p.before := by decide +kernel
    exact hbefore (hbehind p hp hx)

/-- A pair of braces of a variation may be overlooked. -/
theorem interpolation_overlooked :
    ¬ ∀ s : Text, Variation.problem? s = none → ∀ name, name ∈ mentions s ↔
      ∃ p ∈ Variation.interpolations s, Text.trim p.content = name ∧ Text.Dotted name := by
  intro h
  have hname : Text.Dotted "x".toList := Text.dotted_iff.2 ⟨by decide, by decide +kernel⟩
  have hmentioned : "x".toList ∈ mentions "\\\\\x7bx\x7d".toList :=
    (h "\\\\\x7bx\x7d".toList (by decide) _).2 ⟨⟨"\\\\".toList, "x".toList⟩, by decide, by decide, hname⟩
  exact absurd hmentioned (by decide +kernel)

end Line

end LangGen
