/-
UTF-8, there and back. The bytes of a text are decoded to the text (`decode_encode`), also as the
bytes of a file, unless the text starts with the character of the byte order mark (`decodeFile_encode`).
-/
import LangGen.Text.Utf8
import Mathlib.Tactic.SplitIfs

namespace LangGen.Text.Utf8

/-! ## Characters -/

/-- A byte that follows, in the bounds that its lead sets, adds six bits. -/
theorem follow_ofNat {low high n : Nat} (hlow : low ≤ n) (hhigh : n ≤ high) (hn : n < 256) (more bits : Nat)
    (r : Bytes) : follow low high (more + 1) bits (UInt8.ofNat n :: r) =
      follow 0x80 0xBF more (bits * 64 + n % 64) r := by
  rw [follow, UInt8.toNat_ofNat_of_lt' hn, if_pos ⟨hlow, hhigh⟩]

theorem first?_of_lead? {byte : UInt8} {rest : Bytes} {l : Lead} {n : Nat} (hlead : lead? byte = some l)
    (hfollow : follow l.low l.high l.more l.bits rest = .ok n) : first? byte rest = .ok (Char.ofNat n, l.more) := by
  unfold first?
  rw [hlead]
  dsimp only
  rw [hfollow]
  rfl

theorem lead?_ofNat {n : Nat} (h : n < 256) : lead? (UInt8.ofNat n) =
    if n < 0x80 then some { more := 0, bits := n }
    else if n < 0xC2 then none
    else if n < 0xE0 then some { more := 1, bits := n - 0xC0 }
    else if n = 0xE0 then some { more := 2, low := 0xA0, bits := 0 }
    else if n = 0xED then some { more := 2, high := 0x9F, bits := 0xD }
    else if n < 0xF0 then some { more := 2, bits := n - 0xE0 }
    else if n = 0xF0 then some { more := 3, low := 0x90, bits := 0 }
    else if n = 0xF4 then some { more := 3, high := 0x8F, bits := 4 }
    else if n < 0xF5 then some { more := 3, bits := n - 0xF0 }
    else none := by
  unfold lead?
  rw [UInt8.toNat_ofNat_of_lt' h]

/-- The lead of two bytes. -/
theorem lead?_two {n : Nat} (h : 0x7F < n) (h' : n ≤ 0x7FF) :
    lead? (UInt8.ofNat (n / 64 % 32 + 192)) = some { more := 1, bits := n / 64 } := by
  have hbits : n / 64 % 32 + 192 - 0xC0 = n / 64 := by omega
  rw [lead?_ofNat (by omega), if_neg (by omega), if_neg (by omega), if_pos (by omega), hbits]

/-- The lead of three bytes bounds the second one such that no shorter sequence would do and no
surrogate is meant. -/
theorem lead?_three {n : Nat} (h : 0x7FF < n) (h' : n ≤ 0xFFFF) (hvalid : n < 0xD800 ∨ 0xDFFF < n) :
    ∃ l, lead? (UInt8.ofNat (n / 4096 % 16 + 224)) = some l ∧ l.more = 2 ∧ l.bits = n / 4096 ∧
      l.low ≤ n / 64 % 64 + 128 ∧ n / 64 % 64 + 128 ≤ l.high := by
  rw [lead?_ofNat (by omega), if_neg (by omega), if_neg (by omega), if_neg (by omega)]
  split_ifs
  · exact ⟨_, rfl, rfl, by dsimp only; omega, by dsimp only; omega, by dsimp only; omega⟩
  · exact ⟨_, rfl, rfl, by dsimp only; omega, by dsimp only; omega, by dsimp only; omega⟩
  · exact ⟨_, rfl, rfl, by dsimp only; omega, by dsimp only; omega, by dsimp only; omega⟩
  all_goals omega

/-- The lead of four bytes bounds the second one such that no shorter sequence would do and the
number is that of a character. -/
theorem lead?_four {n : Nat} (h : 0xFFFF < n) (h' : n < 0x110000) :
    ∃ l, lead? (UInt8.ofNat (n / 262144 % 8 + 240)) = some l ∧ l.more = 3 ∧ l.bits = n / 262144 ∧
      l.low ≤ n / 4096 % 64 + 128 ∧ n / 4096 % 64 + 128 ≤ l.high := by
  rw [lead?_ofNat (by omega), if_neg (by omega), if_neg (by omega), if_neg (by omega), if_neg (by omega),
    if_neg (by omega), if_neg (by omega)]
  split_ifs
  · exact ⟨_, rfl, rfl, by dsimp only; omega, by dsimp only; omega, by dsimp only; omega⟩
  · exact ⟨_, rfl, rfl, by dsimp only; omega, by dsimp only; omega, by dsimp only; omega⟩
  · exact ⟨_, rfl, rfl, by dsimp only; omega, by dsimp only; omega, by dsimp only; omega⟩
  all_goals omega

/-- The first character is read back from its bytes, whatever follows them. -/
theorem first?_utf8EncodeChar (c : Char) (rest : Bytes) :
    ∃ byte more, String.utf8EncodeChar c = byte :: more ∧ first? byte (more ++ rest) = .ok (c, more.length) := by
  have hvalid : c.toNat < 0xD800 ∨ 0xDFFF < c.toNat ∧ c.toNat < 0x110000 := c.valid
  have hchar : ∀ n, n = c.toNat → Char.ofNat n = c := by
    rintro n rfl
    exact Char.ofNat_toNat c
  have hcode : c.val.toNat = c.toNat := rfl
  unfold String.utf8EncodeChar
  rw [hcode]
  generalize c.toNat = n at hvalid hchar
  dsimp only
  split_ifs with h1 h2 h3
  · refine ⟨_, [], rfl, ?_⟩
    have hlead : lead? (UInt8.ofNat n) = some { more := 0, bits := n } := by
      rw [lead?_ofNat (by omega), if_pos (by omega)]
    rw [first?_of_lead? hlead rfl, hchar n rfl]
    rfl
  · refine ⟨_, [_], rfl, ?_⟩
    have hfollow : follow 0x80 0xBF 1 (n / 64) ([UInt8.ofNat (n % 64 + 128)] ++ rest) =
        .ok (n / 64 * 64 + (n % 64 + 128) % 64) := by
      rw [List.singleton_append, follow_ofNat (by omega) (by omega) (by omega)]
      rfl
    rw [first?_of_lead? (lead?_two (by omega) h2) hfollow, hchar _ (by omega)]
    rfl
  · obtain ⟨l, hlead, hmore, hbits, hlow, hhigh⟩ := lead?_three (n := n) (by omega) h3 (by omega)
    refine ⟨_, [_, _], rfl, ?_⟩
    have hfollow : follow l.low l.high l.more l.bits
        ([UInt8.ofNat (n / 64 % 64 + 128), UInt8.ofNat (n % 64 + 128)] ++ rest) =
          .ok ((n / 4096 * 64 + (n / 64 % 64 + 128) % 64) * 64 + (n % 64 + 128) % 64) := by
      rw [hmore, hbits, List.cons_append, List.singleton_append, follow_ofNat hlow hhigh (by omega),
        follow_ofNat (by omega) (by omega) (by omega)]
      rfl
    rw [first?_of_lead? hlead hfollow, hchar _ (by omega), hmore]
    rfl
  · obtain ⟨l, hlead, hmore, hbits, hlow, hhigh⟩ := lead?_four (n := n) (by omega) (by omega)
    refine ⟨_, [_, _, _], rfl, ?_⟩
    have hfollow : follow l.low l.high l.more l.bits
        ([UInt8.ofNat (n / 4096 % 64 + 128), UInt8.ofNat (n / 64 % 64 + 128), UInt8.ofNat (n % 64 + 128)] ++ rest) =
          .ok (((n / 262144 * 64 + (n / 4096 % 64 + 128) % 64) * 64 + (n / 64 % 64 + 128) % 64) * 64 +
            (n % 64 + 128) % 64) := by
      rw [hmore, hbits, List.cons_append, List.cons_append, List.singleton_append, follow_ofNat hlow hhigh (by omega),
        follow_ofNat (by omega) (by omega) (by omega), follow_ofNat (by omega) (by omega) (by omega)]
      rfl
    rw [first?_of_lead? hlead hfollow, hchar _ (by omega), hmore]
    rfl

/-! ## Texts -/

@[simp] theorem encode_nil : encode [] = [] := rfl

theorem encode_cons (c : Char) (s : Text) : encode (c :: s) = String.utf8EncodeChar c ++ encode s := by
  rw [encode, List.flatMap_cons, encode]

theorem decodeFrom_append : ∀ (skipped : Bytes) (offset : Nat) (rest : Bytes),
    decodeFrom skipped.length offset (skipped ++ rest) = decodeFrom 0 (offset + skipped.length) rest
  | [], _, _ => rfl
  | _ :: skipped, offset, rest => by
    rw [List.length_cons, List.cons_append, decodeFrom, decodeFrom_append skipped]
    congr 1
    omega

/-- A text at the start of some bytes is read, and then the bytes behind it. -/
theorem decodeFrom_encode_append : ∀ (s : Text) (offset : Nat) (rest : Bytes),
    decodeFrom 0 offset (encode s ++ rest) = (decodeFrom 0 (offset + (encode s).length) rest).map (s ++ ·)
  | [], offset, rest => by
    rw [encode_nil, List.nil_append, List.length_nil, Nat.add_zero]
    cases decodeFrom 0 offset rest <;> rfl
  | c :: s, offset, rest => by
    obtain ⟨byte, t, hc, hfirst⟩ := first?_utf8EncodeChar c (encode s ++ rest)
    have hlength : offset + (encode (c :: s)).length = offset + 1 + t.length + (encode s).length := by
      rw [encode_cons, hc, List.length_append, List.length_cons]
      omega
    rw [hlength, encode_cons, hc, List.append_assoc, List.cons_append, decodeFrom, hfirst]
    dsimp only
    rw [decodeFrom_append, decodeFrom_encode_append s]
    cases decodeFrom 0 (offset + 1 + t.length + (encode s).length) rest <;> rfl

/-- The bytes of a text are those of that text. -/
theorem decode_encode (s : Text) : decode (encode s) = .ok s := by
  have h := decodeFrom_encode_append s 0 []
  rw [List.append_nil] at h
  rw [decode, h, decodeFrom, Except.map, List.append_nil]

/-- The character of the byte order mark. -/
def markChar : Char := Char.ofNat 0xFEFF

/-- Bytes that start with the byte order mark are those of a text that starts with its character. -/
theorem decode_mark (bytes : Bytes) :
    ∃ offset, decode (mark ++ bytes) = (decodeFrom 0 offset bytes).map (markChar :: ·) := ⟨3, rfl⟩

/-- The bytes of a text that does not start with the character of the byte order mark are read as
that text. -/
theorem decodeFile_encode {s : Text} (h : s.head? ≠ some markChar) : decodeFile (encode s) = .ok s := by
  have hdecode := decode_encode s
  unfold decodeFile
  split_ifs with hshort hmark
  · -- no text but the empty one has a part of the mark for its bytes
    obtain ⟨hlen, hprefix⟩ := hshort
    generalize encode s = bytes at hdecode hlen hprefix
    match bytes, hlen, hprefix with
    | [], _, _ => exact hdecode
    | [a], _, hprefix =>
      obtain rfl : a = 0xEF := by simpa [mark, List.isPrefixOf] using hprefix
      cases hdecode
    | [a, b], _, hprefix =>
      obtain ⟨rfl, rfl⟩ : a = 0xEF ∧ b = 0xBB := by simpa [mark, List.isPrefixOf] using hprefix
      cases hdecode
  · obtain ⟨rest, hrest⟩ := List.isPrefixOf_iff_prefix.1 hmark
    obtain ⟨offset, hoffset⟩ := decode_mark rest
    rw [← hrest, hoffset] at hdecode
    cases hs : decodeFrom 0 offset rest with
    | error e => rw [hs] at hdecode; cases hdecode
    | ok s' =>
      rw [hs] at hdecode
      cases hdecode
      exact absurd rfl h
  · exact hdecode

end LangGen.Text.Utf8
