/-
What a call of the text service comes to. Whatever comes back, the result is the value that a good
reply holds as the text of its first translation, or else a failure of the service, which tells a
status exactly if the reply had a bad one (`translate_spec`). The reader does not look at that
value: it need not be a string.
-/
import LangGen.Backend.TextService

namespace LangGen.Backend

/-! ## Parts of a value -/

theorem firstItem_eq_ok_iff {j item : Json} : firstItem j = .ok item ↔
    (∃ items, j = .array (item :: items)) ∨ ∃ c s, j = .string (c :: s) ∧ item = .string [c] := by
  fun_cases firstItem j with
  | case1 first items => simp [eq_comm]
  | case2 => simp
  | case3 c s => simp [eq_comm]
  | case4 => simp
  | case5 members => simp
  | case6 j harray _ hstring =>
    simp only [reduceCtorEq, false_iff]
    rintro (⟨items, rfl⟩ | ⟨c, s, rfl, -⟩)
    · exact harray item items rfl
    · exact hstring c s rfl

theorem memberAt_eq_ok_iff {key : Text} {j value : Json} : memberAt key j = .ok value ↔
    ∃ members, j = .object members ∧ Json.member? members key = some value := by
  fun_cases memberAt key j with
  | case1 members => cases h : Json.member? members key <;> simp [h]
  | case2 => simp
  | case3 => simp
  | case4 j hobject =>
    simp only [reduceCtorEq, false_iff]
    rintro ⟨members, rfl, -⟩
    exact hobject members rfl

/-- A member of the first item is found in an array of objects only: the first character of a string
has no members. -/
theorem memberAt_firstItem_eq_ok_iff {key : Text} {j value : Json} :
    (firstItem j).bind (memberAt key) = .ok value ↔
      ∃ members items, j = .array (.object members :: items) ∧ Json.member? members key = some value := by
  constructor
  · intro h
    cases hitem : firstItem j with
    | error why =>
      rw [hitem] at h
      cases h
    | ok item =>
      rw [hitem] at h
      obtain ⟨members, rfl, hmember⟩ := memberAt_eq_ok_iff.1 h
      rcases firstItem_eq_ok_iff.1 hitem with ⟨items, rfl⟩ | ⟨c, s, -, hstring⟩
      · exact ⟨members, items, rfl, hmember⟩
      · cases hstring
  · rintro ⟨members, items, rfl, hmember⟩
    exact memberAt_eq_ok_iff.2 ⟨members, rfl, hmember⟩

/-! ## Replies -/

/-- Whether a body has this value as the text of its first translation of its first element. -/
def HasText (body value : Json) : Prop :=
  ∃ members items, body = .array (.object members :: items) ∧
    ∃ members' items', Json.member? members "translations".toList = some (.array (.object members' :: items')) ∧
      Json.member? members' "text".toList = some value

theorem translationIn_eq_ok_iff {body value : Json} : translationIn body = .ok value ↔ HasText body value := by
  unfold translationIn
  constructor
  · intro h
    cases htranslations : (firstItem body).bind (memberAt "translations".toList) with
    | error why =>
      rw [htranslations] at h
      cases h
    | ok translations =>
      rw [htranslations] at h
      obtain ⟨members', items', rfl, htext⟩ := memberAt_firstItem_eq_ok_iff.1 h
      obtain ⟨members, items, rfl, hmember⟩ := memberAt_firstItem_eq_ok_iff.1 htranslations
      exact ⟨members, items, rfl, members', items', hmember, htext⟩
  · rintro ⟨members, items, rfl, members', items', hmember, htext⟩
    rw [memberAt_firstItem_eq_ok_iff.2 ⟨members, items, rfl, hmember⟩]
    exact memberAt_firstItem_eq_ok_iff.2 ⟨members', items', rfl, htext⟩

namespace Reply

/-- Whether a reply is a good one with this value as the text of its first translation. -/
def Holds (reply : Reply) (value : Json) : Prop :=
  ∃ code reason body, reply = .status true code reason (.ok body) ∧ HasText body value

/-- The status of a reply that refuses the request. -/
def badStatus? : Reply → Option Int
  | unreachable _ => none
  | status ok code _ _ => if ok then none else some code

end Reply

/-- A reply comes to the value that it holds, or to a failure of the service. -/
theorem translationOf_cases (reply : Reply) :
    (∃ value, reply.Holds value ∧ translationOf reply = .ok value) ∨
    (∀ value, ¬ reply.Holds value) ∧ ∃ message,
      translationOf reply = .error { fault := .serviceFailed message reply.badStatus? } := by
  cases reply with
  | unreachable why =>
    refine .inr ⟨?_, _, rfl⟩
    rintro value ⟨code, reason, body, h, -⟩
    cases h
  | status ok code reason body =>
    cases ok with
    | false =>
      refine .inr ⟨?_, _, rfl⟩
      rintro value ⟨code', reason', body', h, -⟩
      cases h
    | true =>
      unfold translationOf
      dsimp only
      rw [if_pos rfl]
      cases hread : body.bind translationIn with
      | ok value =>
        cases body with
        | error why => cases hread
        | ok body => exact .inl ⟨value, ⟨code, reason, body, rfl, translationIn_eq_ok_iff.1 hread⟩, rfl⟩
      | error why =>
        refine .inr ⟨?_, _, rfl⟩
        rintro value ⟨code', reason', body', h, htext⟩
        cases h
        rw [Except.bind, translationIn_eq_ok_iff.2 htext] at hread
        cases hread

theorem translationOf_eq_ok_iff {reply : Reply} {value : Json} :
    translationOf reply = .ok value ↔ reply.Holds value := by
  constructor
  · intro h
    rcases translationOf_cases reply with ⟨value', hholds, hok⟩ | ⟨-, message, herror⟩
    · rw [hok] at h
      cases h
      exact hholds
    · rw [herror] at h
      cases h
  · rintro ⟨code, reason, body, rfl, htext⟩
    unfold translationOf
    dsimp only
    rw [if_pos rfl, Except.bind, translationIn_eq_ok_iff.2 htext]

/-! ## Calls -/

/-- A call returns the value that the reply to its request holds, whatever value that is, and if the
reply holds none the call fails with a failure of the service, which tells the status of a reply
that refuses the request. So it returns a text or fails in this way exactly if the reply does not
hold a value that is no string. -/
theorem TextService.translate_spec (s : TextService) (send : Post → Reply) (r : Request) :
    (∀ value, s.translate send r = .ok value ↔ (send (s.post r)).Holds value) ∧
    ((∃ value, s.translate send r = .ok value) ∨ ∃ message,
      s.translate send r = .error { fault := .serviceFailed message (send (s.post r)).badStatus? }) ∧
    (((∃ text, s.translate send r = .ok (.string text)) ∨ ∃ message status,
        s.translate send r = .error { fault := .serviceFailed message status }) ↔
      ∀ value, (send (s.post r)).Holds value → ∃ text, value = .string text) := by
  have hok : ∀ value, s.translate send r = .ok value ↔ (send (s.post r)).Holds value :=
    fun value => translationOf_eq_ok_iff
  have htotal : (∃ value, s.translate send r = .ok value) ∨ ∃ message,
      s.translate send r = .error { fault := .serviceFailed message (send (s.post r)).badStatus? } := by
    rcases translationOf_cases (send (s.post r)) with ⟨value, -, h⟩ | ⟨-, message, h⟩
    · exact .inl ⟨value, h⟩
    · exact .inr ⟨message, h⟩
  refine ⟨hok, htotal, ?_, ?_⟩
  · rintro (⟨text, h⟩ | ⟨message, status, h⟩) value hvalue
    · rw [← hok, h] at hvalue
      cases hvalue
      exact ⟨text, rfl⟩
    · rw [← hok, h] at hvalue
      cases hvalue
  · intro hstring
    rcases htotal with ⟨value, h⟩ | ⟨message, h⟩
    · obtain ⟨text, rfl⟩ := hstring value ((hok value).1 h)
      exact .inl ⟨text, h⟩
    · exact .inr ⟨message, _, h⟩

/-- A translation whose text is null is returned as it is. -/
theorem TextService.translate_null :
    let body : Json := .array [.object [("translations".toList, .array [.object [("text".toList, .null)]])]]
    let s : TextService := ⟨"k".toList, "https://h/translate".toList, none⟩
    let result := s.translate (fun _ => .status true 200 "OK".toList (.ok body)) ⟨"hi".toList, "de".toList, none⟩
    result = .ok .null ∧ (∀ text, result ≠ .ok (.string text)) ∧
      ∀ message status, result ≠ .error { fault := .serviceFailed message status } := by
  intro body s result
  have hresult : result = .ok .null := rfl
  rw [hresult]
  exact ⟨rfl, by nofun, by nofun⟩

end LangGen.Backend
