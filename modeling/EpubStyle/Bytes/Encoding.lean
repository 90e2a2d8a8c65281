import EpubStyle.Bytes.Utf8
import EpubStyle.Text.Chars

/-!
# Character encodings

Seven encodings are supported. Decoding never fails: whatever denotes no character becomes U+FFFD,
and so does an incomplete unit at the end. A byte order mark at the start of a source names one of
the five Unicode encodings; `ByteOrderMark.detect` tries the longest marks first, since one of them
begins with a shorter one.
-/

namespace EpubStyle.Bytes

/-- The encodings that can be decoded. -/
inductive Encoding where
  | utf8
  | utf16be
  | utf16le
  | utf32be
  | utf32le
  | latin1
  | ascii
  deriving DecidableEq, Repr, Inhabited

/-- Which end of a unit comes first. -/
inductive ByteOrder where
  | bigEndian
  | littleEndian
  deriving DecidableEq, Repr, Inhabited

/-- The number that the bytes of a unit denote. -/
def ByteOrder.value (order : ByteOrder) (bytes : List UInt8) : Nat :=
  let significantFirst :=
    match order with
    | bigEndian => bytes
    | littleEndian => bytes.reverse
  significantFirst.foldl (fun n b => 256 * n + b.toNat) 0

/-! ## UTF-16 and UTF-32 -/

/-- The units of two bytes, with an absent one for a byte that is left over. -/
def units16 (order : ByteOrder) : List UInt8 → List (Option Nat)
  | [] => []
  | [_] => [none]
  | a :: b :: bytes => some (order.value [a, b]) :: units16 order bytes

/-- The units of four bytes, with an absent one for bytes that are left over. -/
def units32 (order : ByteOrder) : List UInt8 → List (Option Nat)
  | [] => []
  | a :: b :: c :: d :: bytes => some (order.value [a, b, c, d]) :: units32 order bytes
  | _ => [none]

/-- The unit is the first of a surrogate pair. -/
def isHighSurrogate (u : Nat) : Bool := 0xD800 ≤ u && u < 0xDC00

/-- The unit is the second of a surrogate pair. -/
def isLowSurrogate (u : Nat) : Bool := 0xDC00 ≤ u && u < 0xE000

/-- The character with a code, if there is one. -/
def charOfUnit (u : Nat) : Option Char :=
  if u.isValidChar then some (Char.ofNat u) else none

/-- The characters of units of UTF-16, with an absent one for each unit that denotes none. -/
def decodeUnits16 : List (Option Nat) → List (Option Char)
  | [] => []
  | [u] => [u.bind charOfUnit]
  | u :: v :: units =>
      match u, v with
      | some u, some v =>
          if isHighSurrogate u && isLowSurrogate v then
            some (Char.ofNat (0x10000 + 0x400 * (u - 0xD800) + (v - 0xDC00))) ::
              decodeUnits16 units
          else charOfUnit u :: decodeUnits16 (some v :: units)
      | u, v => u.bind charOfUnit :: decodeUnits16 (v :: units)

namespace Encoding

/-- The characters of bytes, with an absent one for each part that denotes none. -/
def characters : Encoding → List UInt8 → List (Option Char)
  | utf8, bytes => Utf8.decode bytes
  | utf16be, bytes => decodeUnits16 (units16 .bigEndian bytes)
  | utf16le, bytes => decodeUnits16 (units16 .littleEndian bytes)
  | utf32be, bytes => (units32 .bigEndian bytes).map (·.bind charOfUnit)
  | utf32le, bytes => (units32 .littleEndian bytes).map (·.bind charOfUnit)
  | latin1, bytes => bytes.map (fun b => some (Char.ofNat b.toNat))
  | ascii, bytes => bytes.map (fun b => if b < 0x80 then some (Char.ofNat b.toNat) else none)

/-- The text of bytes. -/
def decode (e : Encoding) (bytes : List UInt8) : String :=
  String.ofList ((e.characters bytes).map (fun c => c.getD '\uFFFD'))

/-- The canonical name of an encoding. -/
def name : Encoding → String
  | utf8 => "UTF-8"
  | utf16be => "UTF-16BE"
  | utf16le => "UTF-16LE"
  | utf32be => "UTF-32BE"
  | utf32le => "UTF-32LE"
  | latin1 => "ISO-8859-1"
  | ascii => "US-ASCII"

/-- The labels that name an encoding. -/
def labels : List (String × Encoding) :=
  [("utf-8", utf8), ("utf8", utf8), ("unicode-1-1-utf-8", utf8), ("utf-16", utf16be),
    ("utf-16be", utf16be), ("utf-16le", utf16le), ("utf-32", utf32be), ("utf-32be", utf32be),
    ("utf-32le", utf32le), ("iso-8859-1", latin1), ("iso8859-1", latin1), ("iso_8859-1", latin1),
    ("latin1", latin1), ("l1", latin1), ("cp819", latin1), ("us-ascii", ascii), ("ascii", ascii),
    ("iso646-us", ascii)]

/-- The encoding that a label names, in any case and with white space around it. -/
def ofLabel? (label : String) : Option Encoding :=
  let label := Text.trimSpace label
  (labels.find? (fun entry => Text.sameText entry.1 label)).map Prod.snd

end Encoding

/-! ## Byte order marks -/

/-- The marks at the start of a source that name its encoding. -/
inductive ByteOrderMark where
  | utf8
  | utf16be
  | utf16le
  | utf32be
  | utf32le
  deriving DecidableEq, Repr, Inhabited

namespace ByteOrderMark

/-- The bytes of a mark. -/
def bytes : ByteOrderMark → List UInt8
  | utf8 => [0xEF, 0xBB, 0xBF]
  | utf16be => [0xFE, 0xFF]
  | utf16le => [0xFF, 0xFE]
  | utf32be => [0x00, 0x00, 0xFE, 0xFF]
  | utf32le => [0xFF, 0xFE, 0x00, 0x00]

/-- Number of bytes of a code unit. -/
def unitWidth : ByteOrderMark → Nat
  | utf8 => 1
  | utf16be | utf16le => 2
  | utf32be | utf32le => 4

/-- The least significant byte of a unit comes first. -/
def isLittleEndian : ByteOrderMark → Bool
  | utf16le | utf32le => true
  | utf8 | utf16be | utf32be => false

/-- The encoding that a mark names. -/
def encoding : ByteOrderMark → Encoding
  | utf8 => .utf8
  | utf16be => .utf16be
  | utf16le => .utf16le
  | utf32be => .utf32be
  | utf32le => .utf32le

/-- The marks in the order in which they are tried. -/
def order : List ByteOrderMark := [utf32be, utf32le, utf8, utf16be, utf16le]

/-- The mark at the start of bytes. -/
def detect (bytes : List UInt8) : Option ByteOrderMark :=
  order.find? (fun m => m.bytes.isPrefixOf bytes)

end ByteOrderMark

end EpubStyle.Bytes
