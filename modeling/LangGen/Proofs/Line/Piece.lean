/-
Pieces of a line. What is stored of a line is a piece of it that does not stand behind a backslash,
and whatever such a piece mentions is mentioned in the line.
-/
import LangGen.Line.Item
import LangGen.Line.Mention
import LangGen.Proofs.Keyed
import LangGen.Proofs.Text.Name

namespace LangGen.Line

/-- A part of a text that does not stand right behind a backslash. -/
def Piece (x s : Text) : Prop := ∃ a b, s = a ++ x ++ b ∧ a.getLast? ≠ some '\\'

theorem Piece.trans {x y s : Text} (hxy : Piece x y) (hys : Piece y s) : Piece x s := by
  obtain ⟨a, b, rfl, ha⟩ := hxy
  obtain ⟨a', b', rfl, ha'⟩ := hys
  refine ⟨a' ++ a, b ++ b', by simp, ?_⟩
  rw [List.getLast?_append]
  cases h : a.getLast? with
  | none => exact ha'
  | some c => rw [h] at ha; exact ha

theorem piece_trim (s : Text) : Piece (Text.trim s) s := by
  obtain ⟨a, b, hs, ha, -⟩ := Text.trim_split s
  refine ⟨a, b, hs, fun h => ?_⟩
  have hblank := ha '\\' (List.mem_of_getLast? h)
  exact absurd hblank (by decide)

theorem piece_drop {w s : Text} (h : w <+: s) (hw : w.getLast? ≠ some '\\') :
    Piece (s.drop w.length) s := by
  obtain ⟨t, rfl⟩ := h
  exact ⟨w, [], by simp, hw⟩

/-! ## Mentions -/

/-- Whether a backslash stands last in a text, or before it when it is empty. -/
def escapes (escaped : Bool) (s : Text) : Bool := s.foldl (fun _ c => c == '\\') escaped

theorem escapes_eq_false_iff {s : Text} : escapes false s = false ↔ s.getLast? ≠ some '\\' := by
  rcases List.eq_nil_or_concat s with rfl | ⟨t, c, rfl⟩
  · simp [escapes]
  · rw [List.concat_eq_append, List.getLast?_concat]
    simp [escapes]

theorem mem_mentionsFrom_of_append {a s : Text} {escaped : Bool} {name : Text}
    (h : name ∈ mentionsFrom (escapes escaped a) s) : name ∈ mentionsFrom escaped (a ++ s) := by
  induction a generalizing escaped with
  | nil => exact h
  | cons c a ih =>
    rw [List.cons_append, mentionsFrom, List.mem_append]
    exact .inr (ih h)

/-- Where a mention stands. -/
theorem mem_mentionsFrom_iff {s name : Text} {escaped : Bool} :
    name ∈ mentionsFrom escaped s ↔ ∃ before r rest, s = before ++ '{' :: r ∧ escapes escaped before = false ∧
      Text.bracedName? r = some (name, rest) := by
  constructor
  · intro h
    induction s generalizing escaped with
    | nil => cases h
    | cons c r ih =>
      rw [mentionsFrom, List.mem_append] at h
      rcases h with h | h
      · split at h
        · rename_i hc
          simp only [Bool.and_eq_true, beq_iff_eq, Bool.not_eq_true'] at hc
          obtain ⟨rfl, rfl⟩ := hc
          obtain ⟨⟨_, rest⟩, hr, rfl⟩ := Option.map_eq_some_iff.1 (Option.mem_toList.1 h)
          exact ⟨[], r, rest, rfl, rfl, hr⟩
        · cases h
      · obtain ⟨before, r', rest, rfl, hbefore, hr⟩ := ih h
        exact ⟨c :: before, r', rest, rfl, hbefore, hr⟩
  · rintro ⟨before, r, rest, rfl, hbefore, hr⟩
    apply mem_mentionsFrom_of_append
    rw [hbefore, mentionsFrom, hr]
    exact List.mem_append_left _ (List.mem_singleton_self name)

/-- A mention closes before the end of the text, so what follows the text does not count. -/
theorem mem_mentionsFrom_append {s : Text} {escaped : Bool} {name : Text}
    (h : name ∈ mentionsFrom escaped s) (t : Text) : name ∈ mentionsFrom escaped (s ++ t) := by
  obtain ⟨before, r, rest, rfl, hbefore, hr⟩ := mem_mentionsFrom_iff.1 h
  exact mem_mentionsFrom_iff.2 ⟨before, r ++ t, rest ++ t, by simp, hbefore, Text.bracedName?_append hr t⟩

theorem mem_mentions_iff {s name : Text} : name ∈ mentions s ↔ name ∈ mentionsFrom false s := by
  rw [mentions, mem_unite]
  simp

/-- What a piece mentions, the text mentions. -/
theorem mentions_piece {x s name : Text} (h : Piece x s) (hname : name ∈ mentions x) :
    name ∈ mentions s := by
  obtain ⟨a, b, rfl, ha⟩ := h
  rw [mem_mentions_iff] at hname ⊢
  rw [List.append_assoc]
  apply mem_mentionsFrom_of_append
  rw [escapes_eq_false_iff.2 ha]
  exact mem_mentionsFrom_append hname b

/-- A name that is mentioned is not empty and has no blanks around it. -/
theorem neat_of_mem_mentions {s name : Text} (h : name ∈ mentions s) : Text.Neat name := by
  obtain ⟨before, r, rest, -, -, hr⟩ := mem_mentionsFrom_iff.1 (mem_mentions_iff.1 h)
  exact Text.neat_of_bracedName? hr

/-! ## Items -/

theorem item?_eq_some {line payload : Text} {mark : Char} (h : item? line = some (mark, payload)) :
    Piece payload line ∧ Text.trim payload = payload := by
  unfold item? at h
  split at h
  · cases h
  · rename_i c r hline
    split at h
    · rename_i hmark
      cases h
      refine ⟨?_, Text.trim_trim r⟩
      have hr : Piece r line := by
        refine ⟨line.takeWhile Text.isBlank ++ [mark], [], ?_, ?_⟩
        · unfold Text.trimStart at hline
          rw [List.append_nil, List.append_assoc, List.singleton_append, ← hline,
            List.takeWhile_append_dropWhile]
        · rw [List.getLast?_concat]
          rintro ⟨⟩
          exact absurd hmark (by decide)
      exact (piece_trim r).trans hr
    · cases h

/-- A payload that starts with none of the words is a variation. -/
theorem ofText_eq_variation {payload v : Text} (h : Payload.ofText payload = .variation v) :
    v = payload ∧ ∀ w ∈ conditionWords ++ defaultWords, ¬ w <+: payload := by
  unfold Payload.ofText at h
  split at h
  · cases h
  · rename_i hcondition
    split at h
    · cases h
    · rename_i hdefault
      cases h
      refine ⟨rfl, fun w hw => ?_⟩
      rw [← List.isPrefixOf_iff_prefix]
      rcases List.mem_append.1 hw with hw | hw
      · exact List.find?_eq_none.1 hcondition w hw
      · exact List.find?_eq_none.1 hdefault w hw

theorem ofText_eq_condition {payload text : Text} (h : Payload.ofText payload = .condition text) :
    Piece text payload := by
  unfold Payload.ofText at h
  split at h
  · rename_i w hw
    cases h
    have hfound : conditionWords.find? (·.isPrefixOf payload) = some w := hw
    have hprefix : w <+: payload := by simpa using List.find?_some hfound
    have hlast : ∀ w ∈ conditionWords, w.getLast? ≠ some '\\' := by decide
    exact (piece_trim _).trans (piece_drop hprefix (hlast w (List.mem_of_find?_eq_some hfound)))
  · split at h <;> cases h

theorem ofText_eq_default {payload text : Text} (h : Payload.ofText payload = .default text) :
    ∃ rest, text = Text.trim (elseWord ++ rest) := by
  unfold Payload.ofText at h
  split at h
  · cases h
  · split at h
    · cases h; exact ⟨_, rfl⟩
    · cases h

end LangGen.Line
