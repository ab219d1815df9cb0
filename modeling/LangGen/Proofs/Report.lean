/-
What a report tells in the end. Of each thing that can be known of a place, the first that is known
counts, among the place that the report was made with and the ones that it was told, in order
(`Told.first`). This holds although the places are shared and one of them is filled in on the way:
what is filled in comes from places that have been told. The message that was made last is therefore
the one of the failure to which the same places have been added one by one.
-/
import LangGen.Report
import Mathlib.Data.List.Induction

namespace LangGen

/-! ## Places -/

namespace Place

/-- Something that is known of a place is kept when more is added, and added where it was not known. -/
def Keeps {α : Type} (f : Place → Option α) : Prop := ∀ p q : Place, f (p.orElse q) = (f p <|> f q)

theorem known?_firstText (a b : Option Text) : known? (firstText a b) = (known? a <|> known? b) := by
  rcases a with _ | _ | ⟨c, r⟩ <;> rfl

theorem keeps_chunk : Keeps chunk := fun _ _ => rfl

theorem keeps_line : Keeps line := fun _ _ => rfl

theorem keeps_file : Keeps fun p => known? p.file := fun p q => known?_firstText p.file q.file

theorem keeps_lineText : Keeps fun p => known? p.lineText := fun p q => known?_firstText p.lineText q.lineText

theorem ne_nil_of_mem_reportLines {p : Place} {l : Text} (h : l ∈ p.reportLines) : l ≠ [] := by
  unfold reportLines at h
  simp only [List.mem_append, Option.mem_toList, Option.map_eq_some_iff] at h
  rcases h with (⟨_, -, rfl⟩ | ⟨_, -, rfl⟩) | ⟨_, -, rfl⟩ <;> simp

theorem reportLines_congr {p q : Place} (hfile : known? p.file = known? q.file) (hchunk : p.chunk = q.chunk)
    (hline : p.line = q.line) (htext : known? p.lineText = known? q.lineText) : p.reportLines = q.reportLines := by
  unfold reportLines
  rw [hfile, hchunk, hline, htext]

end Place

/-! ## Failures -/

namespace Failure

variable {α : Type} {f : Place → Option α}

/-- The message is the text of the fault and the lines that tell its place. -/
theorem message_eq (e : Failure) :
    e.message = Text.joinLines (e.fault.text :: e.place.elim [] Place.reportLines) := by
  have hplace : e.place.elim [] Place.report = Text.joinLines (e.place.elim [] Place.reportLines) := by
    cases e.place <;> rfl
  unfold message
  rw [hplace]
  have hlines : ∀ l ∈ e.place.elim [] Place.reportLines, l ≠ [] := by
    cases e.place with
    | none => simp
    | some p => exact fun l => Place.ne_nil_of_mem_reportLines
  generalize e.place.elim [] Place.reportLines = lines at hlines
  match lines with
  | [] => rfl
  | [l] =>
    obtain ⟨c, r, rfl⟩ := List.exists_cons_of_ne_nil (hlines l (by simp))
    simp [Text.joinLines, Text.join]
  | l :: l' :: ls =>
    obtain ⟨c, r, rfl⟩ := List.exists_cons_of_ne_nil (hlines l (by simp))
    simp [Text.joinLines, Text.join]

theorem bind_within (hf : Place.Keeps f) (e : Failure) (p : Place) :
    (e.within p).place.bind f = (e.place.bind f <|> f p) := by
  rcases e with ⟨fault, _ | q⟩
  · cases h : f p <;> simp [within, h]
  · exact hf q p

theorem findSome?_toList (o : Option Place) : o.toList.findSome? f = o.bind f := by
  cases o <;> simp

/-- Of places that are added one by one, what is known first counts. -/
theorem bind_foldl_within (hf : Place.Keeps f) (ps : List Place) (e : Failure) :
    (ps.foldl within e).place.bind f = (e.place.toList ++ ps).findSome? f := by
  induction ps generalizing e with
  | nil => rw [List.foldl_nil, List.append_nil, findSome?_toList]
  | cons p ps ih =>
    rw [List.foldl_cons, ih, List.findSome?_append, List.findSome?_append, findSome?_toList, findSome?_toList,
      bind_within hf, List.findSome?_cons]
    cases e.place.bind f <;> cases f p <;> rfl

theorem fault_foldl_within (ps : List Place) (e : Failure) : (ps.foldl within e).fault = e.fault := by
  induction ps generalizing e with
  | nil => rfl
  | cons p ps ih => rw [List.foldl_cons, ih]; rfl

/-- Where no place is known, nothing is known of it. -/
theorem bind_eq_getD (hf : f {} = none) (o : Option Place) : o.bind f = f (o.getD {}) := by
  cases o with
  | none => exact hf.symm
  | some p => rfl

theorem elim_reportLines (o : Option Place) : o.elim [] Place.reportLines = (o.getD {}).reportLines := by
  cases o <;> rfl

/-- Failures with the same fault have the same message where the same is known of their places. -/
theorem message_congr {e e' : Failure} (hfault : e.fault = e'.fault)
    (h : ∀ {α : Type} {f : Place → Option α}, Place.Keeps f → e.place.bind f = e'.place.bind f) :
    e.message = e'.message := by
  have hlines : e.place.elim [] Place.reportLines = e'.place.elim [] Place.reportLines := by
    rw [elim_reportLines, elim_reportLines]
    apply Place.reportLines_congr
    · exact (bind_eq_getD rfl e.place).symm.trans ((h Place.keeps_file).trans (bind_eq_getD rfl e'.place))
    · exact (bind_eq_getD rfl e.place).symm.trans ((h Place.keeps_chunk).trans (bind_eq_getD rfl e'.place))
    · exact (bind_eq_getD rfl e.place).symm.trans ((h Place.keeps_line).trans (bind_eq_getD rfl e'.place))
    · exact (bind_eq_getD rfl e.place).symm.trans ((h Place.keeps_lineText).trans (bind_eq_getD rfl e'.place))
  rw [message_eq, message_eq, hfault, hlines]

end Failure

/-! ## Reports -/

namespace Report

theorem Places.put_same (ps : Places) (i : Nat) (p : Place) : ps.put i p i = p := if_pos rfl

theorem Places.put_other (ps : Places) {i j : Nat} (p : Place) (h : j ≠ i) : ps.put i p j = ps j := if_neg h

/-- What holds of a report of a fault that has been told these places, `ps` being the places as they
were. -/
structure Told (ps : Places) (fault : Fault) (numbers : List Nat) (s : Places × Report) : Prop where
  fault : s.2.fault = fault
  holds : s.2.place = numbers.head?
  others : ∀ i, s.2.place ≠ some i → s.1 i = ps i
  first : ∀ {α : Type} {f : Place → Option α}, Place.Keeps f →
    (s.2.place.map s.1).bind f = (numbers.map ps).findSome? f
  message : s.2.message = (s.2.failure s.1).message

theorem told_make (ps : Places) (fault : Fault) (place : Option Nat) :
    Told ps fault place.toList (ps, make ps fault place) where
  fault := rfl
  holds := by cases place <;> rfl
  others _ _ := rfl
  first _ := by cases place <;> simp [make, remake]
  message := rfl

theorem Told.tell {ps : Places} {fault : Fault} {numbers : List Nat} {s : Places × Report}
    (h : Told ps fault numbers s) (i : Nat) : Told ps fault (numbers ++ [i]) (tell s i) := by
  obtain ⟨ps', r⟩ := s
  cases hplace : r.place with
  | none =>
    have hnumbers : numbers = [] := List.head?_eq_none_iff.1 (h.holds.symm.trans hplace)
    subst hnumbers
    have htell : Report.tell (ps', r) i = (ps', remake ps' { r with place := some i }) := by
      unfold Report.tell
      rw [hplace]
    have hsame : ∀ j, ps' j = ps j := fun j => h.others j (by rw [hplace]; exact fun heq => by cases heq)
    rw [htell]
    exact
      { fault := h.fault
        holds := rfl
        others := fun j _ => hsame j
        first := fun _ => by simp [remake, hsame]
        message := rfl }
  | some own =>
    have htell : Report.tell (ps', r) i = (ps'.put own ((ps' own).orElse (ps' i)),
        remake (ps'.put own ((ps' own).orElse (ps' i))) r) := by
      unfold Report.tell
      rw [hplace]
    have hown : numbers.head? = some own := h.holds.symm.trans hplace
    rw [htell]
    refine ⟨h.fault, ?_, ?_, ?_, rfl⟩
    · show r.place = (numbers ++ [i]).head?
      rw [hplace, List.head?_append, hown]
      rfl
    · intro j hj
      have hne : j ≠ own := by
        rintro rfl
        exact hj hplace
      exact (Places.put_other ps' _ hne).trans (h.others j hj)
    · intro α f hf
      have hfirst := h.first hf
      show (r.place.map (ps'.put own ((ps' own).orElse (ps' i)))).bind f = _
      rw [hplace] at hfirst ⊢
      rw [Option.map_some, Option.bind_some, Places.put_same, hf, List.map_append, List.findSome?_append]
      rw [Option.map_some, Option.bind_some] at hfirst
      rw [hfirst]
      by_cases hi : i = own
      · -- the place of the report itself is told again: what it knows has been known before
        subst hi
        have hmem : ps i ∈ numbers.map ps := List.mem_map_of_mem (List.mem_of_mem_head? hown)
        rw [hfirst]
        cases hnone : (numbers.map ps).findSome? f with
        | some a => rfl
        | none => simp [List.findSome?_eq_none_iff.1 hnone (ps i) hmem]
      · have hsame : ps' i = ps i := h.others i (by rw [hplace]; exact fun heq => hi (Option.some.inj heq).symm)
        rw [hsame]
        cases (numbers.map ps).findSome? f <;> simp

theorem told_told (ps : Places) (fault : Fault) (place : Option Nat) (later : List Nat) :
    Told ps fault (place.toList ++ later) (told ps fault place later) := by
  induction later using List.reverseRecOn with
  | nil =>
    rw [List.append_nil]
    exact told_make ps fault place
  | append_singleton later i ih =>
    rw [told, List.foldl_append, ← List.append_assoc]
    exact ih.tell i

/-- Whatever places a report is told, one after the other and any of them more than once: it knows
the first chunk and the first line that one of them knows, in order, and the first file and the
first text of a line that are not empty. Its fault is the one that it was made with, and so are its
entries. Its message is the text of the fault and the lines that tell the place as it is now, which
is the message of the failure to which the same places are added. -/
theorem told_first (ps : Places) (fault : Fault) (place : Option Nat) (later : List Nat) :
    let layers := (place.toList ++ later).map ps
    let s := told ps fault place later
    let p? := s.2.place.map s.1
    p?.bind Place.chunk = layers.findSome? Place.chunk ∧ p?.bind Place.line = layers.findSome? Place.line ∧
      p?.bind (fun p => Place.known? p.file) = layers.findSome? (fun p => Place.known? p.file) ∧
      p?.bind (fun p => Place.known? p.lineText) = layers.findSome? (fun p => Place.known? p.lineText) ∧
      s.2.fault = fault ∧ s.2.entries = (make ps fault place).entries ∧
      s.2.message = Text.joinLines (fault.text :: p?.elim [] Place.reportLines) ∧
      s.2.message = ((later.map ps).foldl Failure.within ⟨fault, place.map ps⟩).message := by
  intro layers s p?
  have h : Told ps fault (place.toList ++ later) s := told_told ps fault place later
  refine ⟨h.first Place.keeps_chunk, h.first Place.keeps_line, h.first Place.keeps_file, h.first Place.keeps_lineText,
    h.fault, ?_, ?_, ?_⟩
  · unfold entries
    rw [h.fault]
    rfl
  · rw [h.message, Failure.message_eq]
    show Text.joinLines (s.2.fault.text :: _) = _
    rw [h.fault]
    rfl
  · rw [h.message]
    apply Failure.message_congr
    · rw [Failure.fault_foldl_within]
      exact h.fault
    · intro α f hf
      rw [Failure.bind_foldl_within hf]
      refine (h.first hf).trans ?_
      cases place <;> rfl

end Report

end LangGen
