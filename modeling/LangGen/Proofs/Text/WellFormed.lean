/-
Well-formed bytes are those of some text, and the decoder takes exactly these (`decode_eq_ok_iff`).
Of other bytes it tells how long the text is that they start with, and what is wrong with the
sequence behind it (`BreaksOff.decode`); both are said of the bytes alone, without the tables of the
decoder.

The bytes of a file are decoded likewise, and the text goes without one byte order mark
(`decodeFile_cases`). Only bytes that end inside the mark are taken too, though they are those of no text.
-/
import LangGen.Proofs.Text.Utf8
import Mathlib.Algebra.Group.Nat.Defs

namespace LangGen.Text.Utf8

/-! ## The bytes that follow a lead -/

/-- The last bytes of the encoding of a number, six bits in each. -/
def tail (n : Nat) : Nat → Bytes
  | 0 => []
  | more + 1 => UInt8.ofNat (n / 64 ^ more % 64 + 128) :: tail n more

@[simp] theorem length_tail (n more : Nat) : (tail n more).length = more := by
  induction more with
  | zero => rfl
  | succ more ih => rw [tail, List.length_cons, ih]

/-- What is read behind a lead are the last bytes of the number read, and the first of them is
within the bounds. -/
theorem follow_eq_ok : ∀ {low high more bits n : Nat} {rest : Bytes}, 0x80 ≤ low → high ≤ 0xBF →
    follow low high more bits rest = .ok n →
      n / 64 ^ more = bits ∧ tail n more <+: rest ∧
        ∀ m, more = m + 1 → low ≤ n / 64 ^ m % 64 + 128 ∧ n / 64 ^ m % 64 + 128 ≤ high
  | low, high, 0, bits, n, rest, _, _, h => by
    cases h
    exact ⟨by rw [pow_zero, Nat.div_one], List.nil_prefix, by nofun⟩
  | low, high, more + 1, bits, n, [], _, _, h => by cases h
  | low, high, more + 1, bits, n, byte :: rest, hlow, hhigh, h => by
    rw [follow] at h
    split_ifs at h with hbyte
    obtain ⟨hbits, htail, -⟩ := follow_eq_ok (Nat.le_refl _) (Nat.le_refl _) h
    have hlast : n / 64 ^ more % 64 + 128 = byte.toNat := by omega
    refine ⟨?_, ?_, ?_⟩
    · rw [pow_succ, ← Nat.div_div_eq_div_mul]
      omega
    · rw [tail, hlast, UInt8.ofNat_toNat]
      exact List.cons_prefix_cons.2 ⟨rfl, htail⟩
    · rintro m hm
      obtain rfl : more = m := by omega
      rw [hlast]
      exact hbyte

/-- A lead that wants more bytes than there are can have them: with some bytes more there is a number. -/
theorem follow_completes : ∀ {low high more bits : Nat} {rest : Bytes}, low ≤ high → high < 256 →
    follow low high more bits rest = .error .unexpectedEnd →
      ∃ fill n, (rest ++ fill).length = more ∧ follow low high more bits (rest ++ fill) = .ok n
  | low, high, 0, bits, rest, _, _, h => by cases h
  | low, high, 1, bits, [], hle, hlt, _ => by
    refine ⟨[UInt8.ofNat low], bits * 64 + low % 64, rfl, ?_⟩
    rw [List.nil_append, follow_ofNat (Nat.le_refl _) hle (by omega), follow]
  | low, high, more + 2, bits, [], hle, hlt, _ => by
    have hend : follow 0x80 0xBF (more + 1) (bits * 64 + low % 64) [] = .error .unexpectedEnd := rfl
    obtain ⟨fill, n, hlength, hfill⟩ := follow_completes (by omega) (by omega) hend
    rw [List.nil_append] at hlength hfill
    refine ⟨UInt8.ofNat low :: fill, n, ?_, ?_⟩
    · rw [List.nil_append, List.length_cons, hlength]
    · rw [List.nil_append, follow_ofNat (Nat.le_refl _) hle (by omega), hfill]
  | low, high, more + 1, bits, byte :: rest, hle, hlt, h => by
    rw [follow] at h
    split_ifs at h with hbyte
    · obtain ⟨fill, n, hlength, hfill⟩ := follow_completes (by omega) (by omega) h
      refine ⟨fill, n, ?_, ?_⟩
      · rw [List.cons_append, List.length_cons, hlength]
      · rw [List.cons_append, follow, if_pos hbyte, hfill]
    · cases h

/-- A byte out of bounds stays so, whatever comes behind. -/
theorem follow_append_of_invalid : ∀ {low high more bits : Nat} {rest : Bytes} (later : Bytes),
    follow low high more bits rest = .error .invalidContinuation →
      follow low high more bits (rest ++ later) = .error .invalidContinuation
  | low, high, 0, bits, rest, _, h => by cases h
  | low, high, more + 1, bits, [], _, h => by cases h
  | low, high, more + 1, bits, byte :: rest, later, h => by
    rw [List.cons_append, follow]
    rw [follow] at h
    split_ifs at h ⊢ with hbyte
    · exact follow_append_of_invalid later h
    · rfl

theorem follow_ne_invalidStart (low high more bits : Nat) (rest : Bytes) :
    follow low high more bits rest ≠ .error .invalidStart := by
  fun_induction follow low high more bits rest with
  | case1 => simp
  | case2 => simp
  | case3 low high bits more byte r hbyte ih => exact ih
  | case4 => simp

/-! ## Leads -/

/-- The bounds that a lead sets leave room for a byte that follows. -/
theorem lead?_bounds {byte : UInt8} {l : Lead} (h : lead? byte = some l) :
    0x80 ≤ l.low ∧ l.low ≤ l.high ∧ l.high ≤ 0xBF := by
  unfold lead? at h
  dsimp only at h
  split_ifs at h <;> cases h <;> dsimp only <;> omega

/-- A lead tells the first bits of a number, and which of them need a second byte within narrower
bounds. -/
theorem lead?_cases {byte : UInt8} {l : Lead} (h : lead? byte = some l) :
    (l.more = 0 ∧ byte.toNat = l.bits ∧ l.bits < 0x80) ∨
    (l.more = 1 ∧ byte.toNat = l.bits + 0xC0 ∧ 2 ≤ l.bits ∧ l.bits < 0x20) ∨
    (l.more = 2 ∧ byte.toNat = l.bits + 0xE0 ∧ l.bits < 0x10 ∧
      (l.bits = 0 → 0xA0 ≤ l.low) ∧ (l.bits = 0xD → l.high ≤ 0x9F)) ∨
    (l.more = 3 ∧ byte.toNat = l.bits + 0xF0 ∧ l.bits < 5 ∧
      (l.bits = 0 → 0x90 ≤ l.low) ∧ (l.bits = 4 → l.high ≤ 0x8F)) := by
  unfold lead? at h
  dsimp only at h
  split_ifs at h <;> cases h <;> dsimp only <;> omega

/-! ## Characters -/

theorem utf8EncodeChar_ofNat {n : Nat} (h : n.isValidChar) : String.utf8EncodeChar (Char.ofNat n) =
    if n ≤ 0x7F then [UInt8.ofNat n]
    else if n ≤ 0x7FF then UInt8.ofNat (n / 64 % 32 + 192) :: tail n 1
    else if n ≤ 0xFFFF then UInt8.ofNat (n / 4096 % 16 + 224) :: tail n 2
    else UInt8.ofNat (n / 262144 % 8 + 240) :: tail n 3 := by
  have hcode : (Char.ofNat n).val.toNat = n := by
    unfold Char.ofNat
    rw [dif_pos h]
    rfl
  unfold String.utf8EncodeChar
  rw [hcode]
  simp [tail]

/-- A lead and the number read behind it make up the encoding of a character. -/
theorem utf8EncodeChar_of_lead? {byte : UInt8} {l : Lead} {rest : Bytes} {n : Nat} (hlead : lead? byte = some l)
    (hfollow : follow l.low l.high l.more l.bits rest = .ok n) :
    String.utf8EncodeChar (Char.ofNat n) = byte :: tail n l.more := by
  obtain ⟨hlow, -, hhigh⟩ := lead?_bounds hlead
  obtain ⟨hbits, -, hsecond⟩ := follow_eq_ok hlow hhigh hfollow
  have hbyte : ∀ m, m = byte.toNat → UInt8.ofNat m = byte := by
    rintro m rfl
    exact UInt8.ofNat_toNat
  rcases lead?_cases hlead with ⟨hmore, hlast, hlt⟩ | ⟨hmore, hlast, hle, hlt⟩ | ⟨hmore, hlast, hlt, hzero, htop⟩ |
    ⟨hmore, hlast, hlt, hzero, htop⟩
  · rw [hmore, pow_zero, Nat.div_one] at hbits
    rw [utf8EncodeChar_ofNat (by unfold Nat.isValidChar; omega), if_pos (by omega), hmore, hbyte n (by omega), tail]
  · rw [hmore, pow_one] at hbits
    rw [utf8EncodeChar_ofNat (by unfold Nat.isValidChar; omega), if_neg (by omega), if_pos (by omega), hmore,
      hbyte _ (by omega)]
  · -- the second byte tells overlong forms and surrogates
    have hbound := hsecond 1 hmore
    rw [hmore] at hbits
    rw [utf8EncodeChar_ofNat (by unfold Nat.isValidChar; omega), if_neg (by omega), if_neg (by omega),
      if_pos (by omega), hmore, hbyte _ (by omega)]
  · -- the second byte tells overlong forms and numbers beyond the last code point
    have hbound := hsecond 2 hmore
    rw [hmore] at hbits
    rw [utf8EncodeChar_ofNat (by unfold Nat.isValidChar; omega), if_neg (by omega), if_neg (by omega),
      if_neg (by omega), hmore, hbyte _ (by omega)]

/-- What is read at a lead is what the bytes behind it make of it. -/
theorem first?_eq_map {byte : UInt8} {l : Lead} (hlead : lead? byte = some l) (rest : Bytes) :
    first? byte rest = (follow l.low l.high l.more l.bits rest).map fun n => (Char.ofNat n, l.more) := by
  unfold first?
  rw [hlead]

theorem first?_eq_invalidStart {byte : UInt8} (hnone : lead? byte = none) (rest : Bytes) :
    first? byte rest = .error .invalidStart := by
  unfold first?
  rw [hnone]

/-- A character that is read is the one whose bytes are there. -/
theorem first?_eq_ok {byte : UInt8} {rest : Bytes} {c : Char} {more : Nat} (h : first? byte rest = .ok (c, more)) :
    ∃ t later, String.utf8EncodeChar c = byte :: t ∧ t.length = more ∧ rest = t ++ later := by
  cases hlead : lead? byte with
  | none =>
    rw [first?_eq_invalidStart hlead] at h
    cases h
  | some l =>
    rw [first?_eq_map hlead] at h
    cases hfollow : follow l.low l.high l.more l.bits rest with
    | error reason =>
      rw [hfollow] at h
      cases h
    | ok n =>
      rw [hfollow] at h
      cases h
      obtain ⟨hlow, -, hhigh⟩ := lead?_bounds hlead
      obtain ⟨-, ⟨later, hlater⟩, -⟩ := follow_eq_ok hlow hhigh hfollow
      exact ⟨tail n l.more, later, utf8EncodeChar_of_lead? hlead hfollow, length_tail n l.more, hlater.symm⟩

/-- Where a character starts it is read. -/
theorem first?_of_eq {c : Char} {byte : UInt8} {t : Bytes} (h : String.utf8EncodeChar c = byte :: t) (later : Bytes) :
    first? byte (t ++ later) = .ok (c, t.length) := by
  obtain ⟨b, t', hc, hfirst⟩ := first?_utf8EncodeChar c later
  rw [hc] at h
  cases h
  exact hfirst

/-! ## What is wrong with a sequence -/

/-- What a reason says of bytes at which no character starts: no character has the first of them for
its first, the bytes behind it end too early, or they go on as no character does. -/
def Reason.Tells : Reason → Bytes → Prop
  | invalidStart, rest => ∀ c, (String.utf8EncodeChar c).head? ≠ rest.head?
  | unexpectedEnd, rest => ∃ c, rest <+: String.utf8EncodeChar c
  | invalidContinuation, rest =>
    (∃ c, (String.utf8EncodeChar c).head? = rest.head?) ∧ ∀ c, ¬ rest <+: String.utf8EncodeChar c

/-- No character starts with a byte that is no lead. -/
theorem tells_of_lead?_eq_none {byte : UInt8} (hnone : lead? byte = none) (rest : Bytes) :
    Reason.invalidStart.Tells (byte :: rest) := by
  intro c hc
  obtain ⟨t, ht⟩ := List.head?_eq_some_iff.1 hc
  have hok := first?_of_eq ht []
  rw [first?_eq_invalidStart hnone] at hok
  cases hok

section Lead

variable {byte : UInt8} {l : Lead} {rest : Bytes}

/-- Bytes that end too early are the start of a character. -/
theorem tells_of_unexpectedEnd (hlead : lead? byte = some l)
    (hfollow : follow l.low l.high l.more l.bits rest = .error .unexpectedEnd) :
    Reason.unexpectedEnd.Tells (byte :: rest) := by
  obtain ⟨hlow, hle, hhigh⟩ := lead?_bounds hlead
  obtain ⟨fill, n, hlength, hfill⟩ := follow_completes hle (by omega) hfollow
  obtain ⟨-, htail, -⟩ := follow_eq_ok hlow hhigh hfill
  refine ⟨Char.ofNat n, ?_⟩
  rw [utf8EncodeChar_of_lead? hlead hfill, htail.eq_of_length (by rw [length_tail, hlength])]
  exact List.cons_prefix_cons.2 ⟨rfl, List.prefix_append rest fill⟩

/-- Some character starts with a byte that is a lead. -/
theorem exists_char_of_lead? (hlead : lead? byte = some l) :
    ∃ c, (String.utf8EncodeChar c).head? = some byte := by
  obtain ⟨-, hle, hhigh⟩ := lead?_bounds hlead
  have hnumber : ∃ fill n, follow l.low l.high l.more l.bits fill = .ok n := by
    cases l.more with
    | zero => exact ⟨[], l.bits, rfl⟩
    | succ m =>
      have hend : follow l.low l.high (m + 1) l.bits [] = .error .unexpectedEnd := rfl
      obtain ⟨fill, n, -, hfill⟩ := follow_completes hle (by omega) hend
      exact ⟨fill, n, hfill⟩
  obtain ⟨fill, n, hfill⟩ := hnumber
  refine ⟨Char.ofNat n, ?_⟩
  rw [utf8EncodeChar_of_lead? hlead hfill]
  rfl

/-- Bytes with one that is out of bounds are the start of no character, though some character has
their lead. -/
theorem tells_of_invalidContinuation (hlead : lead? byte = some l)
    (hfollow : follow l.low l.high l.more l.bits rest = .error .invalidContinuation) :
    Reason.invalidContinuation.Tells (byte :: rest) := by
  refine ⟨exists_char_of_lead? hlead, ?_⟩
  rintro c ⟨later, hlater⟩
  rw [List.cons_append] at hlater
  have hok := first?_of_eq hlater.symm []
  rw [first?_eq_map hlead, List.append_nil, follow_append_of_invalid later hfollow] at hok
  cases hok

end Lead

/-- At bytes that are not read no character starts, and the reason given is what is wrong with them. -/
theorem first?_eq_error {byte : UInt8} {rest : Bytes} {reason : Reason} (h : first? byte rest = .error reason) :
    (∀ c, ¬ String.utf8EncodeChar c <+: byte :: rest) ∧ reason.Tells (byte :: rest) := by
  constructor
  · rintro c ⟨later, hlater⟩
    obtain ⟨b, t, hc, hok⟩ := first?_utf8EncodeChar c later
    rw [hc, List.cons_append] at hlater
    cases hlater
    rw [hok] at h
    cases h
  cases hlead : lead? byte with
  | none =>
    rw [first?_eq_invalidStart hlead] at h
    cases h
    exact tells_of_lead?_eq_none hlead rest
  | some l =>
    rw [first?_eq_map hlead] at h
    cases hfollow : follow l.low l.high l.more l.bits rest with
    | ok n =>
      rw [hfollow] at h
      cases h
    | error =>
      rw [hfollow] at h
      cases h
      cases reason with
      | invalidStart => exact absurd hfollow (follow_ne_invalidStart _ _ _ _ _)
      | unexpectedEnd => exact tells_of_unexpectedEnd hlead hfollow
      | invalidContinuation => exact tells_of_invalidContinuation hlead hfollow

/-! ## Texts -/

/-- Whether some bytes are those of a text. -/
def WellFormed (bytes : Bytes) : Prop := ∃ s, bytes = encode s

/-- The longest text that some bytes start with, and the bytes behind it, at which no character starts. -/
structure BreaksOff (bytes : Bytes) (s : Text) (rest : Bytes) : Prop where
  split : bytes = encode s ++ rest
  rest_ne : rest ≠ []
  no_char : ∀ c, ¬ String.utf8EncodeChar c <+: rest

/-- Bytes are those of a text, or else a text and then a sequence that is ill formed. -/
theorem wellFormed_or_breaksOff : ∀ bytes : Bytes, WellFormed bytes ∨ ∃ s rest, BreaksOff bytes s rest
  | [] => .inl ⟨[], rfl⟩
  | byte :: rest => by
    cases hfirst : first? byte rest with
    | error reason => exact .inr ⟨[], byte :: rest, rfl, List.cons_ne_nil byte rest, (first?_eq_error hfirst).1⟩
    | ok found =>
      obtain ⟨c, more⟩ := found
      obtain ⟨t, later, hc, -, hrest⟩ := first?_eq_ok hfirst
      have hshorter : later.length < (byte :: rest).length := by
        rw [hrest, List.length_cons, List.length_append]
        omega
      have hbytes : byte :: rest = String.utf8EncodeChar c ++ later := by
        rw [hc, hrest, List.cons_append]
      rcases wellFormed_or_breaksOff later with ⟨s, hs⟩ | ⟨s, rest', hs, hne, hno⟩
      · refine .inl ⟨c :: s, ?_⟩
        rw [hbytes, hs, encode_cons]
      · refine .inr ⟨c :: s, rest', ?_, hne, hno⟩
        rw [hbytes, hs, encode_cons, List.append_assoc]
termination_by bytes => bytes.length

/-- Bytes that break off are decoded up to there, and the decoder tells what is wrong behind that. -/
theorem BreaksOff.decode {bytes rest : Bytes} {s : Text} (h : BreaksOff bytes s rest) :
    ∃ reason, reason.Tells rest ∧ decode bytes = .error (reason, (encode s).length) := by
  obtain ⟨rfl, hne, hno⟩ := h
  obtain ⟨byte, r, rfl⟩ := List.exists_cons_of_ne_nil hne
  cases hfirst : first? byte r with
  | ok found =>
    obtain ⟨c, more⟩ := found
    obtain ⟨t, later, hc, -, hr⟩ := first?_eq_ok hfirst
    exact absurd ⟨later, by rw [hc, hr, List.cons_append]⟩ (hno c)
  | error reason =>
    refine ⟨reason, (first?_eq_error hfirst).2, ?_⟩
    rw [Utf8.decode, decodeFrom_encode_append, Nat.zero_add, decodeFrom, hfirst]
    rfl

/-- Bytes that break off are those of no text. -/
theorem BreaksOff.not_wellFormed {bytes rest : Bytes} {s : Text} (h : BreaksOff bytes s rest) : ¬ WellFormed bytes := by
  rintro ⟨s', rfl⟩
  obtain ⟨reason, -, herror⟩ := h.decode
  rw [decode_encode] at herror
  cases herror

/-- The decoder takes the bytes of texts and no others. -/
theorem decode_eq_ok_iff {bytes : Bytes} {s : Text} : decode bytes = .ok s ↔ bytes = encode s := by
  constructor
  · intro h
    rcases wellFormed_or_breaksOff bytes with ⟨s', rfl⟩ | ⟨s', rest, hoff⟩
    · rw [decode_encode] at h
      cases h
      rfl
    · obtain ⟨reason, -, herror⟩ := hoff.decode
      rw [herror] at h
      cases h
  · rintro rfl
    exact decode_encode s

/-- No two texts have the same bytes. -/
theorem encode_injective : Function.Injective encode := by
  intro s s' h
  have hs := decode_eq_ok_iff.2 h
  rw [decode_encode] at hs
  cases hs
  rfl

/-! ## Files -/

/-- A text without the character of the byte order mark at its start. -/
def unmarked : Text → Text
  | [] => []
  | c :: s => if c = markChar then s else c :: s

@[simp] theorem unmarked_mark (s : Text) : unmarked (markChar :: s) = s := by
  rw [unmarked, if_pos rfl]

theorem unmarked_eq_self {s : Text} (h : s.head? ≠ some markChar) : unmarked s = s := by
  cases s with
  | nil => rfl
  | cons c s => exact if_neg fun hc => h (congrArg some hc)

theorem encode_mark (s : Text) : encode (markChar :: s) = mark ++ encode s := encode_cons markChar s

/-- Whether some bytes end inside the byte order mark: they are its first byte or its first two. -/
def CutMark (bytes : Bytes) : Prop := bytes ≠ [] ∧ bytes <+: mark ∧ bytes.length < 3

theorem cutMark_iff {bytes : Bytes} : CutMark bytes ↔ bytes = [0xEF] ∨ bytes = [0xEF, 0xBB] := by
  constructor
  · rintro ⟨hne, hprefix, hlength⟩
    rw [List.prefix_iff_eq_take] at hprefix
    have hpos := List.length_pos_iff.2 hne
    have hcases : bytes.length = 1 ∨ bytes.length = 2 := by omega
    rcases hcases with h | h
    · rw [h] at hprefix
      exact .inl hprefix
    · rw [h] at hprefix
      exact .inr hprefix
  · rintro (rfl | rfl)
    · exact ⟨by decide, by decide, by decide⟩
    · exact ⟨by decide, by decide, by decide⟩

/-- Bytes that end inside the mark are those of no text. -/
theorem CutMark.not_wellFormed {bytes : Bytes} (h : CutMark bytes) : ¬ WellFormed bytes := by
  rintro ⟨s, hs⟩
  have hdecode := decode_eq_ok_iff.2 hs
  rcases cutMark_iff.1 h with rfl | rfl
  · cases hdecode
  · cases hdecode

/-- What breaks off behind the mark breaks off there with the mark. -/
theorem BreaksOff.mark {bytes rest : Bytes} {s : Text} (h : BreaksOff bytes s rest) :
    BreaksOff (mark ++ bytes) (markChar :: s) rest :=
  ⟨by rw [h.split, encode_mark, List.append_assoc], h.rest_ne, h.no_char⟩

/-- The bytes of a text are read as that text without a mark; bytes that end inside the mark are
read as no text at all; and of others the reader tells where and why they break off, not counting a
mark. -/
theorem decodeFile_cases (bytes : Bytes) :
    (∃ s, bytes = encode s ∧ decodeFile bytes = .ok (unmarked s)) ∨
    (CutMark bytes ∧ decodeFile bytes = .ok []) ∨
    ¬ CutMark bytes ∧ ∃ s rest reason, BreaksOff bytes s rest ∧ reason.Tells rest ∧
      decodeFile bytes = .error (reason, (encode (unmarked s)).length) := by
  have hshort : CutMark bytes → bytes.length < 3 ∧ bytes.isPrefixOf mark :=
    fun h => ⟨h.2.2, List.isPrefixOf_iff_prefix.2 h.2.1⟩
  unfold decodeFile
  split_ifs with hcut hmark
  · obtain ⟨hlength, hprefix⟩ := hcut
    by_cases hnil : bytes = []
    · exact .inl ⟨[], hnil, rfl⟩
    · exact .inr (.inl ⟨⟨hnil, List.isPrefixOf_iff_prefix.1 hprefix, hlength⟩, rfl⟩)
  · have hnot : ¬ CutMark bytes := fun h => hcut (hshort h)
    obtain ⟨bytes', rfl⟩ := List.isPrefixOf_iff_prefix.1 hmark
    have hdrop : (mark ++ bytes').drop 3 = bytes' := rfl
    rw [hdrop]
    rcases wellFormed_or_breaksOff bytes' with ⟨s, rfl⟩ | ⟨s, rest, hoff⟩
    · refine .inl ⟨markChar :: s, (encode_mark s).symm, ?_⟩
      rw [decode_encode, unmarked_mark]
    · obtain ⟨reason, htells, herror⟩ := hoff.decode
      refine .inr (.inr ⟨hnot, markChar :: s, rest, reason, hoff.mark, htells, ?_⟩)
      rw [herror, unmarked_mark]
  · have hnot : ¬ CutMark bytes := fun h => hcut (hshort h)
    have hhead : ∀ s rest, bytes = encode s ++ rest → s.head? ≠ some markChar := by
      rintro s rest rfl hs
      obtain ⟨s', rfl⟩ := List.head?_eq_some_iff.1 hs
      rw [encode_mark, List.append_assoc] at hmark
      exact hmark (List.isPrefixOf_iff_prefix.2 (List.prefix_append _ _))
    rcases wellFormed_or_breaksOff bytes with ⟨s, rfl⟩ | ⟨s, rest, hoff⟩
    · refine .inl ⟨s, rfl, ?_⟩
      rw [decode_encode, unmarked_eq_self (hhead s [] (List.append_nil _).symm)]
    · obtain ⟨reason, htells, herror⟩ := hoff.decode
      refine .inr (.inr ⟨hnot, s, rest, reason, hoff, htells, ?_⟩)
      rw [herror, unmarked_eq_self (hhead s rest hoff.split)]

end LangGen.Text.Utf8
