/-
UTF-8: the bytes of a text, and the text of well-formed bytes. Of bytes that are ill formed the
first sequence that is so is told by its offset, together with what is wrong with it.
-/
import LangGen.Text.Basic

namespace LangGen.Text.Utf8

/-- A sequence of bytes. -/
abbrev Bytes := List UInt8

/-- What is wrong with a sequence. -/
inductive Reason
  | invalidStart
  | invalidContinuation
  | unexpectedEnd
  deriving DecidableEq, Repr

/-- How a reason is reported. -/
def Reason.message : Reason → Text
  | invalidStart => "invalid start byte".toList
  | invalidContinuation => "invalid continuation byte".toList
  | unexpectedEnd => "unexpected end of data".toList

/-- What the first byte of a sequence says: how many bytes follow, between which bounds the first of
them lies, and the leading bits of the code point. -/
structure Lead where
  more : Nat
  low : Nat := 0x80
  high : Nat := 0xBF
  bits : Nat
  deriving DecidableEq, Repr

/-- Reads the first byte of a sequence. The bounds leave out overlong sequences, surrogates and
numbers beyond the last code point. -/
def lead? (byte : UInt8) : Option Lead :=
  let b := byte.toNat
  if b < 0x80 then some { more := 0, bits := b }
  else if b < 0xC2 then none
  else if b < 0xE0 then some { more := 1, bits := b - 0xC0 }
  else if b = 0xE0 then some { more := 2, low := 0xA0, bits := 0 }
  else if b = 0xED then some { more := 2, high := 0x9F, bits := 0xD }
  else if b < 0xF0 then some { more := 2, bits := b - 0xE0 }
  else if b = 0xF0 then some { more := 3, low := 0x90, bits := 0 }
  else if b = 0xF4 then some { more := 3, high := 0x8F, bits := 4 }
  else if b < 0xF5 then some { more := 3, bits := b - 0xF0 }
  else none

/-- Reads `more` bytes after the ones that gave `bits`; the first of them lies between the bounds. -/
def follow (low high : Nat) : Nat → Nat → Bytes → Except Reason Nat
  | 0, bits, _ => .ok bits
  | _ + 1, _, [] => .error .unexpectedEnd
  | more + 1, bits, byte :: r =>
    if low ≤ byte.toNat ∧ byte.toNat ≤ high then
      follow 0x80 0xBF more (bits * 64 + byte.toNat % 64) r
    else .error .invalidContinuation

/-- The first character of some bytes, and how many bytes it takes after its first one. -/
def first? (byte : UInt8) (rest : Bytes) : Except Reason (Char × Nat) :=
  match lead? byte with
  | none => .error .invalidStart
  | some l => (follow l.low l.high l.more l.bits rest).map fun n => (Char.ofNat n, l.more)

/-- The text of the bytes after the first `skip`, which start at `offset`. -/
def decodeFrom : Nat → Nat → Bytes → Except (Reason × Nat) Text
  | _, _, [] => .ok []
  | skip + 1, offset, _ :: r => decodeFrom skip (offset + 1) r
  | 0, offset, byte :: r =>
    match first? byte r with
    | .error reason => .error (reason, offset)
    | .ok (c, more) => (decodeFrom more (offset + 1) r).map (c :: ·)

/-- The text of some bytes, or the first ill-formed sequence. -/
def decode (bytes : Bytes) : Except (Reason × Nat) Text := decodeFrom 0 0 bytes

/-- The bytes of a text. -/
def encode (s : Text) : Bytes := s.flatMap String.utf8EncodeChar

/-- The byte order mark. -/
def mark : Bytes := [0xEF, 0xBB, 0xBF]

/-- The text of the bytes of a file, without one byte order mark at their start. A file that ends
inside the mark has no text, and offsets count from the end of the mark. -/
def decodeFile (bytes : Bytes) : Except (Reason × Nat) Text :=
  if bytes.length < 3 ∧ bytes.isPrefixOf mark then .ok []
  else if mark.isPrefixOf bytes then decode (bytes.drop 3)
  else decode bytes

end LangGen.Text.Utf8
