/-!
# UTF-8

Bytes are decoded by a machine that reads one at a time. A character is either complete with its
first byte or leaves a `Tail`: the value so far, the number of bytes still owed, and the range that
the next one must lie in. The range is narrower behind a first byte that could start an overlong
form, a surrogate or a number above U+10FFFF, so every value that is completed is a character.

A byte that starts no character, a tail that meets a byte out of its range and a tail that meets the
end are each one malformed part. The byte out of range is read again as a first byte.
-/

namespace EpubStyle.Bytes.Utf8

/-- A character whose first bytes have been read. -/
structure Tail where
  /-- The value of the bits read so far. -/
  value : Nat
  /-- Number of bytes still owed. -/
  owed : Nat
  /-- The least value that the next byte may have. -/
  low : Nat
  /-- The greatest value that the next byte may have. -/
  high : Nat
  deriving DecidableEq, Repr, Inhabited

/-- What a byte amounts to. -/
inductive Reading where
  | char (c : Char)
  | tail (t : Tail)
  | malformed
  deriving DecidableEq, Repr, Inhabited

/-- Read the first byte of a character. -/
def first (byte : UInt8) : Reading :=
  let b := byte.toNat
  if b < 0x80 then .char (Char.ofNat b)
  else if b < 0xC2 then .malformed
  else if b < 0xE0 then .tail ⟨b - 0xC0, 1, 0x80, 0xBF⟩
  else if b == 0xE0 then .tail ⟨0, 2, 0xA0, 0xBF⟩
  else if b == 0xED then .tail ⟨0xD, 2, 0x80, 0x9F⟩
  else if b < 0xF0 then .tail ⟨b - 0xE0, 2, 0x80, 0xBF⟩
  else if b == 0xF0 then .tail ⟨0, 3, 0x90, 0xBF⟩
  else if b < 0xF4 then .tail ⟨b - 0xF0, 3, 0x80, 0xBF⟩
  else if b == 0xF4 then .tail ⟨4, 3, 0x80, 0x8F⟩
  else .malformed

namespace Tail

/-- Read a further byte of a character. -/
def next (t : Tail) (byte : UInt8) : Reading :=
  let b := byte.toNat
  if t.low ≤ b && b ≤ t.high then
    let value := 64 * t.value + (b - 0x80)
    if t.owed ≤ 1 then .char (Char.ofNat value) else .tail ⟨value, t.owed - 1, 0x80, 0xBF⟩
  else .malformed

end Tail

/-- Decode bytes behind a tail, if there is one. A malformed part is an absent character. -/
def decodeFrom : Option Tail → List UInt8 → List (Option Char)
  | none, [] => []
  | some _, [] => [none]
  | none, b :: bs =>
      match first b with
      | .char c => some c :: decodeFrom none bs
      | .tail t => decodeFrom (some t) bs
      | .malformed => none :: decodeFrom none bs
  | some t, b :: bs =>
      match t.next b with
      | .char c => some c :: decodeFrom none bs
      | .tail t => decodeFrom (some t) bs
      | .malformed =>
          none ::
            match first b with
            | .char c => some c :: decodeFrom none bs
            | .tail t => decodeFrom (some t) bs
            | .malformed => none :: decodeFrom none bs

/-- The characters of bytes, with an absent one for each malformed part. -/
def decode (bytes : List UInt8) : List (Option Char) := decodeFrom none bytes

/-- The text of bytes that have no malformed part. -/
def strict? (bytes : List UInt8) : Option String :=
  ((decode bytes).mapM id).map String.ofList

/-- The bytes of a text. -/
def encode (text : String) : List UInt8 := text.toUTF8.toList

end EpubStyle.Bytes.Utf8
