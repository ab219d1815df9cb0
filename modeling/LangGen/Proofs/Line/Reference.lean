/-
Leads and file references. What a line is shows in its first character that is not blank. A file
reference is read off the line behind its opening bracket, and neither the blanks around a line nor
what comes behind the closing parenthesis counts.
-/
import LangGen.Line.Item
import LangGen.Line.Reference
import LangGen.Proofs.Text.Trim

namespace LangGen.Line

/-! ## Leads -/

/-- The first character of a line that is not blank. -/
def lead? (line : Text) : Option Char := (Text.trimStart line).head?

theorem isBlank_of_lead? {line : Text} {c : Char} (h : lead? line = some c) : Text.isBlank c = false :=
  Text.isBlank_of_head?_trimStart h

theorem lead?_eq_none {line : Text} : lead? line = none ↔ Text.allBlank line = true := by
  unfold lead? Text.trimStart Text.allBlank
  rw [List.head?_eq_none_iff, List.dropWhile_eq_nil_iff, List.all_eq_true]

/-- Blanks before the first other character do not count. -/
theorem trimStart_cons {a r : Text} {c : Char} (ha : ∀ x ∈ a, Text.isBlank x = true)
    (hc : Text.isBlank c = false) : Text.trimStart (a ++ c :: r) = c :: r := by
  rw [Text.trimStart_blanks_append ha]
  exact Text.trimStart_of_forall fun d hd => by cases hd; exact hc

/-- A line with a lead, in its parts. -/
theorem lead?_split {line : Text} {c : Char} (h : lead? line = some c) :
    ∃ a r, line = a ++ c :: r ∧ (∀ x ∈ a, Text.isBlank x = true) ∧ Text.trimStart line = c :: r := by
  unfold lead? at h
  obtain ⟨r, hr⟩ := List.head?_eq_some_iff.1 h
  obtain ⟨a, hsplit, ha⟩ := Text.exists_blanks_trimStart line
  exact ⟨a, r, hr ▸ hsplit, ha, hr⟩

/-- Trimming a line with a lead cuts blanks off the end of what follows the lead. -/
theorem trim_cons {c : Char} (hc : Text.isBlank c = false) (r : Text) :
    ∃ b, r = (Text.trim (c :: r)).tail ++ b ∧ (∀ x ∈ b, Text.isBlank x = true) ∧
      Text.trim (c :: r) = c :: (Text.trim (c :: r)).tail := by
  obtain ⟨a, b, hs, ha, hb⟩ := Text.trim_split (c :: r)
  have ha0 : a = [] := by
    cases a with
    | nil => rfl
    | cons x a =>
      have hx : c = x := List.head_eq_of_cons_eq hs
      rw [hx, ha x List.mem_cons_self] at hc
      cases hc
  rw [ha0, List.nil_append] at hs
  cases htrim : Text.trim (c :: r) with
  | nil =>
    have hblank := Text.forall_blank_of_trim htrim c List.mem_cons_self
    rw [hblank] at hc
    cases hc
  | cons x t =>
    rw [htrim] at hs
    cases hs
    exact ⟨b, rfl, hb, rfl⟩

theorem trim_eq_trim_trimStart (s : Text) : Text.trim s = Text.trim (Text.trimStart s) := by
  unfold Text.trim Text.trimStart
  rw [List.dropWhile_idempotent Text.isBlank s]

theorem lead?_eq_head?_trim (line : Text) : lead? line = (Text.trim line).head? := by
  cases h : lead? line with
  | none =>
    have hstart : Text.trimStart line = [] := List.head?_eq_none_iff.1 h
    unfold Text.trim
    rw [hstart]
    rfl
  | some c =>
    obtain ⟨a, r, -, -, hstart⟩ := lead?_split h
    obtain ⟨b, -, -, htrim⟩ := trim_cons (isBlank_of_lead? h) r
    rw [trim_eq_trim_trimStart, hstart, htrim]
    rfl

@[simp] theorem lead?_trim (line : Text) : lead? (Text.trim line) = lead? line := by
  rw [lead?_eq_head?_trim, Text.trim_trim, ← lead?_eq_head?_trim]

/-! ## Items -/

theorem item?_eq_some_iff {line payload : Text} {mark : Char} :
    item? line = some (mark, payload) ↔
      ∃ r, Text.trimStart line = mark :: r ∧ isItemMark mark = true ∧ payload = Text.trim r := by
  unfold item?
  cases Text.trimStart line with
  | nil => simp
  | cons c r =>
    dsimp only
    constructor
    · intro h
      split at h
      · rename_i hc; cases h; exact ⟨r, rfl, hc, rfl⟩
      · cases h
    · rintro ⟨_, ⟨⟩, hmark, rfl⟩
      rw [if_pos hmark]

theorem lead?_of_item? {line payload : Text} {mark : Char} (h : item? line = some (mark, payload)) :
    lead? line = some mark ∧ isItemMark mark = true := by
  obtain ⟨r, hr, hmark, -⟩ := item?_eq_some_iff.1 h
  exact ⟨by rw [lead?, hr]; rfl, hmark⟩

/-- A line that leads with the mark of an item is one. -/
theorem item?_of_lead? {line : Text} {mark : Char} (h : lead? line = some mark)
    (hmark : isItemMark mark = true) : ∃ payload, item? line = some (mark, payload) := by
  obtain ⟨a, r, -, -, hr⟩ := lead?_split h
  exact ⟨Text.trim r, item?_eq_some_iff.2 ⟨r, hr, hmark, rfl⟩⟩

theorem isBlank_of_isItemMark {c : Char} (h : isItemMark c = true) : Text.isBlank c = false := by
  unfold isItemMark at h
  simp only [Bool.or_eq_true, beq_iff_eq] at h
  rcases h with (rfl | rfl) | rfl <;> decide

theorem item?_cons {a r : Text} {mark : Char} (ha : ∀ x ∈ a, Text.isBlank x = true)
    (hmark : isItemMark mark = true) : item? (a ++ mark :: r) = some (mark, Text.trim r) :=
  item?_eq_some_iff.2 ⟨r, trimStart_cons ha (isBlank_of_isItemMark hmark), hmark, rfl⟩

@[simp] theorem item?_trim (line : Text) : item? (Text.trim line) = item? line := by
  cases h : lead? line with
  | none =>
    have hstart : Text.trimStart line = [] := List.head?_eq_none_iff.1 h
    unfold Text.trim item?
    rw [hstart]
    rfl
  | some c =>
    obtain ⟨a, r, -, -, hstart⟩ := lead?_split h
    have hc := isBlank_of_lead? h
    obtain ⟨b, hr, hb, htrim⟩ := trim_cons hc r
    have hstart' : Text.trimStart (Text.trim line) = c :: (Text.trim (c :: r)).tail := by
      rw [trim_eq_trim_trimStart, hstart, htrim]
      exact trimStart_cons (a := []) (by simp) hc
    have hpayload : Text.trim r = Text.trim (Text.trim (c :: r)).tail := by
      conv_lhs => rw [hr]
      exact Text.trim_append_blanks _ hb
    unfold item?
    rw [hstart, hstart']
    dsimp only
    rw [hpayload]

/-! ## References -/

/-- The label and the target of a reference, read off the text behind its opening bracket. -/
def linkParts? (s : Text) : Option (Text × Text) :=
  match s.drop (s.takeWhile (· != ']')).length with
  | ']' :: r =>
    match Text.trimStart r with
    | '(' :: t => (targetOf? t).map fun target => (s.takeWhile (· != ']'), Text.trim target)
    | _ => none
  | _ => none

theorem fileReference?_eq (line : Text) :
    fileReference? line = match Text.trim line with
      | '[' :: s => linkParts? s
      | _ => none := rfl

@[simp] theorem fileReference?_trim (line : Text) : fileReference? (Text.trim line) = fileReference? line := by
  rw [fileReference?_eq, fileReference?_eq, Text.trim_trim]

theorem lead?_of_fileReference? {line : Text} {p : Text × Text} (h : fileReference? line = some p) :
    lead? line = some referenceMark := by
  rw [fileReference?_eq] at h
  rw [lead?_eq_head?_trim]
  split at h
  · rename_i hline; rw [hline]; rfl
  · cases h

theorem targetOf?_eq_some {s target : Text} :
    targetOf? s = some target ↔ ')' ∉ target ∧ '\n' ∉ target ∧ ∃ u, s = target ++ ')' :: u := by
  induction s generalizing target with
  | nil => simp [targetOf?]
  | cons c r ih =>
    unfold targetOf?
    split
    · rename_i hc
      subst hc
      cases target with
      | nil => simp
      | cons x t =>
        simp only [Option.some.injEq, List.nil_eq, reduceCtorEq, List.mem_cons, not_or, false_iff, not_and]
        rintro ⟨hx, -⟩ - ⟨u, hu⟩
        exact hx (List.head_eq_of_cons_eq hu)
    · rename_i hclose
      split
      · rename_i hc
        subst hc
        cases target with
        | nil => simp
        | cons x t =>
          simp only [reduceCtorEq, List.mem_cons, not_or, false_iff, not_and]
          rintro - ⟨hx, -⟩ ⟨u, hu⟩
          exact hx (List.head_eq_of_cons_eq hu)
      · rename_i hline
        rw [Option.map_eq_some_iff]
        constructor
        · rintro ⟨t, ht, rfl⟩
          obtain ⟨h1, h2, u, rfl⟩ := ih.1 ht
          exact ⟨by simp [h1, Ne.symm hclose], by simp [h2, Ne.symm hline], u, rfl⟩
        · rintro ⟨h1, h2, u, hu⟩
          cases target with
          | nil => exact absurd (List.head_eq_of_cons_eq hu) hclose
          | cons x t =>
            cases hu
            exact ⟨t, ih.2 ⟨fun h => h1 (.tail _ h), fun h => h2 (.tail _ h), u, rfl⟩, rfl⟩

/-- Where a character stands first, a text is cut in one way only. -/
theorem cut_unique {c : Char} : ∀ {a a' r r' : Text}, c ∉ a → c ∉ a' → a ++ c :: r = a' ++ c :: r' →
    a = a' ∧ r = r'
  | [], [], r, r', _, _, h => ⟨rfl, by simpa using h⟩
  | [], x :: a', r, r', _, h', h => by
    have hx : c = x := List.head_eq_of_cons_eq h
    exact absurd (hx ▸ List.mem_cons_self) h'
  | x :: a, [], r, r', ha, _, h => by
    have hx : x = c := List.head_eq_of_cons_eq h
    exact absurd (hx ▸ List.mem_cons_self) ha
  | x :: a, y :: a', r, r', ha, ha', h => by
    obtain ⟨hxy, htail⟩ := List.cons.inj h
    obtain ⟨haa, hrr⟩ := cut_unique (fun hc => ha (.tail _ hc)) (fun hc => ha' (.tail _ hc)) htail
    exact ⟨by rw [hxy, haa], hrr⟩

theorem takeWhile_cut {c : Char} {a : Text} (ha : c ∉ a) (r : Text) :
    (a ++ c :: r).takeWhile (· != c) = a := by
  rw [List.takeWhile_append_of_pos fun x hx => by simpa using fun h : x = c => ha (h ▸ hx)]
  simp

/-- A label ends at the first closing bracket, and a target at the first closing parenthesis. -/
theorem linkParts?_eq_some {s label target : Text} :
    linkParts? s = some (label, target) ↔
      ∃ b t u, s = label ++ ']' :: (b ++ '(' :: (t ++ ')' :: u)) ∧ ']' ∉ label ∧
        (∀ c ∈ b, Text.isBlank c = true) ∧ ')' ∉ t ∧ '\n' ∉ t ∧ target = Text.trim t := by
  constructor
  · intro h
    unfold linkParts? at h
    split at h
    · rename_i r hdrop
      split at h
      · rename_i t hstart
        obtain ⟨target', htarget, hp⟩ := Option.map_eq_some_iff.1 h
        cases hp
        obtain ⟨h1, h2, u, rfl⟩ := targetOf?_eq_some.1 htarget
        refine ⟨r.takeWhile Text.isBlank, target', u, ?_, ?_, fun c hc => List.mem_takeWhile_imp hc, h1, h2, rfl⟩
        · have hs : s.takeWhile (· != ']') ++ s.drop (s.takeWhile (· != ']')).length = s :=
            List.prefix_iff_eq_append.1 (List.takeWhile_prefix _)
          have hr : r.takeWhile Text.isBlank ++ '(' :: (target' ++ ')' :: u) = r := by
            rw [← hstart]
            exact List.takeWhile_append_dropWhile
          rw [hr, ← hdrop]
          exact hs.symm
        · intro hc
          simpa using List.mem_takeWhile_imp hc
      · cases h
    · cases h
  · rintro ⟨b, t, u, rfl, hlabel, hb, h1, h2, rfl⟩
    unfold linkParts?
    rw [takeWhile_cut hlabel, List.drop_left]
    simp only [trimStart_cons hb (show Text.isBlank '(' = false by decide),
      targetOf?_eq_some.2 ⟨h1, h2, u, rfl⟩, Option.map_some]

/-- What stands behind the closing parenthesis does not count. -/
theorem linkParts?_append {s : Text} {p : Text × Text} (h : linkParts? s = some p) (u : Text) :
    linkParts? (s ++ u) = some p := by
  obtain ⟨b, t, u', rfl, hlabel, hb, h1, h2, htarget⟩ := linkParts?_eq_some.1 h
  exact linkParts?_eq_some.2 ⟨b, t, u' ++ u, by simp, hlabel, hb, h1, h2, htarget⟩

/-- Blanks at the end do not count. -/
theorem linkParts?_append_blanks (s : Text) {u : Text} (hu : ∀ c ∈ u, Text.isBlank c = true) :
    linkParts? (s ++ u) = linkParts? s := by
  cases h : linkParts? s with
  | some p => exact linkParts?_append h u
  | none =>
    rw [Option.eq_none_iff_forall_ne_some]
    rintro ⟨label, target⟩ hp
    obtain ⟨b, t, u', hs, hlabel, hb, h1, h2, htarget⟩ := linkParts?_eq_some.1 hp
    -- the closing parenthesis is not blank, so that it stands in front of the blanks
    have hclose : ∃ u'', s = label ++ ']' :: (b ++ '(' :: (t ++ ')' :: u'')) := by
      have hs' : s ++ u = (label ++ ']' :: (b ++ '(' :: t)) ++ ')' :: u' := by simpa using hs
      rcases List.append_eq_append_iff.1 hs' with ⟨a, hx, ha⟩ | ⟨a, hx, ha⟩
      · rw [ha] at hu
        exact absurd (hu ')' (by simp)) (by decide)
      · cases a with
        | nil =>
          rw [List.nil_append] at ha
          rw [← ha] at hu
          exact absurd (hu ')' List.mem_cons_self) (by decide)
        | cons x a =>
          cases ha
          exact ⟨a, by rw [hx]; simp⟩
    obtain ⟨u'', hs''⟩ := hclose
    rw [linkParts?_eq_some.2 ⟨b, t, u'', hs'', hlabel, hb, h1, h2, htarget⟩] at h
    cases h

theorem fileReference?_cons (s : Text) : fileReference? ('[' :: s) = linkParts? s := by
  obtain ⟨b, hs, hb, htrim⟩ := trim_cons (c := '[') (by decide) s
  rw [fileReference?_eq, htrim]
  calc linkParts? (Text.trim ('[' :: s)).tail
      = linkParts? ((Text.trim ('[' :: s)).tail ++ b) := (linkParts?_append_blanks _ hb).symm
    _ = linkParts? s := by rw [← hs]

/-- The parts of a reference are parts of the line. -/
theorem fileReference?_parts {line label target : Text} (h : fileReference? line = some (label, target)) :
    label ⊆ line ∧ target ⊆ line ∧ ']' ∉ label ∧ ')' ∉ target ∧ '\n' ∉ target ∧
      Text.trim target = target := by
  rw [fileReference?_eq] at h
  split at h
  · rename_i s hline
    obtain ⟨b, t, u, rfl, hlabel, hb, h1, h2, rfl⟩ := linkParts?_eq_some.1 h
    have hsub := Text.trim_subset t
    have hline' := Text.trim_subset line
    rw [hline] at hline'
    refine ⟨fun c hc => hline' (by simp [hc]), fun c hc => hline' ?_, hlabel, fun hc => h1 (hsub hc),
      fun hc => h2 (hsub hc), Text.trim_trim t⟩
    have hct := hsub hc
    simp [hct]
  · cases h

/-! ## References with another label -/

theorem filter_eq_nil_of_blank {s : Text} (h : ∀ c ∈ s, Text.isBlank c = true) :
    s.filter (!Text.isBlank ·) = [] := by
  rw [List.filter_eq_nil_iff]
  intro c hc
  simp [h c hc]

theorem filter_trim (s : Text) :
    (Text.trim s).filter (!Text.isBlank ·) = s.filter (!Text.isBlank ·) := by
  obtain ⟨a, b, hs, ha, hb⟩ := Text.trim_split s
  conv_rhs => rw [hs]
  rw [List.filter_append, List.filter_append, filter_eq_nil_of_blank ha, filter_eq_nil_of_blank hb,
    List.nil_append, List.append_nil]

/-- A target that takes in two more characters than it had is another one. -/
theorem ne_trim_of_longer {b r t target : Text} (hb : ∀ c ∈ b, Text.isBlank c = true)
    (h : r ++ ']' :: '(' :: target = b ++ '(' :: t) : target ≠ Text.trim t := by
  intro ht
  have htarget : target.filter (!Text.isBlank ·) = t.filter (!Text.isBlank ·) := by
    conv_lhs => rw [ht]
    exact filter_trim t
  have hlen := congrArg (fun s => (s.filter (!Text.isBlank ·)).length) h
  simp only [List.filter_append, filter_eq_nil_of_blank hb, List.nil_append, List.filter_cons,
    List.length_append, show (!Text.isBlank ']') = true by decide, show (!Text.isBlank '(') = true by decide,
    if_true, List.length_cons, htarget] at hlen
  omega

section Relabel

variable {r target : Text} (hclose : ')' ∉ target) (hline : '\n' ∉ target) (htrim : Text.trim target = target)

include hclose hline htrim

theorem linkParts?_relabel (hr : ']' ∉ r) :
    linkParts? (r ++ ']' :: '(' :: (target ++ [')'])) = some (r, target) :=
  linkParts?_eq_some.2 ⟨[], target, [], by simp, hr, by simp, hclose, hline, htrim.symm⟩

/-- A text put in the place of the label leaves the target as it is exactly if it does not close the
label, or is a reference to this target already. -/
theorem linkParts?_relabel_iff :
    (∃ l, linkParts? (r ++ ']' :: '(' :: (target ++ [')'])) = some (l, target)) ↔
      ']' ∉ r ∨ ∃ l, linkParts? r = some (l, target) := by
  constructor
  · rintro ⟨l, hl⟩
    by_cases hmem : ']' ∈ r
    · refine .inr ⟨l, ?_⟩
      obtain ⟨b, t, u, hs, hlabel, hb, h1, h2, ht⟩ := linkParts?_eq_some.1 hl
      obtain ⟨l', r₂, rfl, hl'⟩ := List.eq_append_cons_of_mem hmem
      -- the label is what the text has before its own closing bracket
      rw [List.append_assoc, List.cons_append] at hs
      obtain ⟨rfl, hrest⟩ := cut_unique hl' hlabel hs
      have hopen : ')' ∉ b ++ '(' :: t := by
        intro hc
        rcases List.mem_append.1 hc with hc | hc
        · exact absurd (hb _ hc) (by decide)
        · rcases List.mem_cons.1 hc with hc | hc
          · exact absurd hc (by decide)
          · exact h1 hc
      have hrest' : r₂ ++ ']' :: '(' :: (target ++ [')']) = (b ++ '(' :: t) ++ ')' :: u := by simpa using hrest
      by_cases hr₂ : ')' ∈ r₂
      · obtain ⟨x, r₃, rfl, hx⟩ := List.eq_append_cons_of_mem hr₂
        rw [List.append_assoc, List.cons_append] at hrest'
        obtain ⟨rfl, -⟩ := cut_unique hx hopen hrest'
        exact linkParts?_eq_some.2 ⟨b, t, r₃, by simp, hlabel, hb, h1, h2, ht⟩
      · -- else the target takes in the end of the text, and is longer than it was
        have hx : ')' ∉ r₂ ++ ']' :: '(' :: target := by simp [hr₂, hclose]
        have hcut : (r₂ ++ ']' :: '(' :: target) ++ ')' :: [] = (b ++ '(' :: t) ++ ')' :: u := by
          rw [← hrest']; simp
        obtain ⟨hsame, -⟩ := cut_unique hx hopen hcut
        exact absurd ht (ne_trim_of_longer hb hsame)
    · exact .inl hmem
  · rintro (hmem | ⟨l, hl⟩)
    · exact ⟨r, linkParts?_relabel hclose hline htrim hmem⟩
    · exact ⟨l, linkParts?_append hl _⟩

end Relabel

end LangGen.Line
