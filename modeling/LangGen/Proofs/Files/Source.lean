/-
What a template file is read as. The bytes of a text are read as that text, without one byte order
mark and with LF at the end of each line; other bytes are refused, naming the file and where they
stop being those of a text. Only a file that ends inside the mark is read as an empty one
(`readText_spec`).
-/
import LangGen.Files.Source
import LangGen.Proofs.Text.Lines
import LangGen.Proofs.Text.WellFormed

namespace LangGen.Files

open Text.Utf8 (Bytes encode unmarked WellFormed CutMark BreaksOff)

section

variable {t : Tree} {p : Path} {bytes : Bytes}

/-- The failure of a file whose bytes break off behind a text. -/
def brokenOff (p : Path) (reason : Text.Utf8.Reason) (s : Text) : Failure where
  fault := illFormed reason (encode (unmarked s)).length
  place := some { file := some p.text }

theorem readText_of_ok {s : Text} (hread : t.read p = .ok bytes) (hdecode : Text.Utf8.decodeFile bytes = .ok s) :
    readText t p = .ok (Text.unixLines s) := by
  unfold readText textOf
  rw [hread]
  dsimp only
  rw [hdecode]

theorem readText_of_error {reason : Text.Utf8.Reason} {offset : Nat} (hread : t.read p = .ok bytes)
    (hdecode : Text.Utf8.decodeFile bytes = .error (reason, offset)) :
    readText t p = .error (.failure { fault := illFormed reason offset, place := some { file := some p.text } }) := by
  unfold readText textOf
  rw [hread]
  dsimp only
  rw [hdecode]

/-- A file is read as the text that its bytes are those of, or as none where it ends inside the
mark, or else it is refused at the end of the text that it starts with. -/
theorem readText_cases (hread : t.read p = .ok bytes) :
    (∃ s, bytes = encode s ∧ readText t p = .ok (Text.unixLines (unmarked s))) ∨
    (CutMark bytes ∧ readText t p = .ok []) ∨
    ¬ CutMark bytes ∧ ∃ s rest reason, BreaksOff bytes s rest ∧ reason.Tells rest ∧
      readText t p = .error (.failure (brokenOff p reason s)) := by
  rcases Text.Utf8.decodeFile_cases bytes with ⟨s, hs, hok⟩ | ⟨hcut, hok⟩ |
    ⟨hcut, s, rest, reason, hoff, htells, herror⟩
  · exact .inl ⟨s, hs, readText_of_ok hread hok⟩
  · exact .inr (.inl ⟨hcut, readText_of_ok hread hok⟩)
  · exact .inr (.inr ⟨hcut, s, rest, reason, hoff, htells, readText_of_error hread herror⟩)

/-- A file is read exactly if its bytes are those of a text or end inside the byte order mark. Of a
text it is read as that text without a mark at its start and with LF for CR LF and for CR; a file
that ends inside the mark is that of no text, and it is read as an empty one. Every other file is
refused: the failure names the file, the offset at which the first sequence starts that is ill
formed, not counting a mark, and what is wrong with that sequence. -/
theorem readText_spec (hread : t.read p = .ok bytes) :
    ((∃ text, readText t p = .ok text) ↔ WellFormed bytes ∨ CutMark bytes) ∧
    (∀ s, bytes = encode s → readText t p = .ok (Text.unixLines (unmarked s))) ∧
    (CutMark bytes → ¬ WellFormed bytes ∧ readText t p = .ok []) ∧
    ∀ h, readText t p = .error h → ∃ s rest reason, BreaksOff bytes s rest ∧ reason.Tells rest ∧
      h = .failure (brokenOff p reason s) := by
  rcases readText_cases hread with ⟨s, hs, hok⟩ | ⟨hcut, hok⟩ | ⟨hcut, s, rest, reason, hoff, htells, herror⟩
  · refine ⟨⟨fun _ => .inl ⟨s, hs⟩, fun _ => ⟨_, hok⟩⟩, ?_, fun hcut => absurd ⟨s, hs⟩ hcut.not_wellFormed, ?_⟩
    · intro s' hs'
      rw [Text.Utf8.encode_injective (hs'.symm.trans hs), hok]
    · intro h herror
      rw [hok] at herror
      cases herror
  · refine ⟨⟨fun _ => .inr hcut, fun _ => ⟨[], hok⟩⟩, ?_, fun _ => ⟨hcut.not_wellFormed, hok⟩, ?_⟩
    · intro s hs
      exact absurd ⟨s, hs⟩ hcut.not_wellFormed
    · intro h herror
      rw [hok] at herror
      cases herror
  · refine ⟨⟨?_, ?_⟩, ?_, fun h => absurd h hcut, ?_⟩
    · rintro ⟨text, hok⟩
      rw [herror] at hok
      cases hok
    · rintro (h | h)
      · exact absurd h hoff.not_wellFormed
      · exact absurd h hcut
    · intro s' hs'
      exact absurd ⟨s', hs'⟩ hoff.not_wellFormed
    · intro h hh
      rw [herror] at hh
      cases hh
      exact ⟨s, rest, reason, hoff, htells, rfl⟩

end

/-- The tree with one file, of these bytes. -/
def holding (bytes : Bytes) : Tree where
  files := [(⟨["a.lg".toList]⟩, bytes)]

/-- A mark, one letter, and a byte that starts no character: the letter alone counts for the offset. -/
theorem readText_spec_marked :
    let bytes : Bytes := [0xEF, 0xBB, 0xBF, 0x61, 0xFF]
    let p := Path.ofText "a.lg".toList
    (holding bytes).read p = .ok bytes ∧
      readText (holding bytes) p = .error (.failure (brokenOff p .invalidStart "a".toList)) ∧ ¬ WellFormed bytes := by
  intro bytes p
  have hread : (holding bytes).read p = .ok bytes := rfl
  have herror : readText (holding bytes) p = .error (.failure (brokenOff p .invalidStart "a".toList)) := rfl
  refine ⟨hread, herror, fun h => ?_⟩
  obtain ⟨text, hok⟩ := (readText_spec hread).1.2 (.inl h)
  rw [herror] at hok
  cases hok

/-- The first byte of a mark alone is that of no text, and is read as one. -/
theorem readText_cut :
    (holding [0xEF]).read (Path.ofText "a.lg".toList) = .ok [0xEF] ∧ ¬ WellFormed [0xEF] ∧
      readText (holding [0xEF]) (Path.ofText "a.lg".toList) = .ok [] := by
  have hcut : CutMark [0xEF] := Text.Utf8.cutMark_iff.2 (.inl rfl)
  exact ⟨rfl, hcut.not_wellFormed, rfl⟩

end LangGen.Files
