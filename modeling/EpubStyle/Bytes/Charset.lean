import EpubStyle.Bytes.Encoding

/-!
# Sniffing a charset

A source may declare its encoding by a rule `@charset "name";` at its very start. A `Sniffer` reads
byte by byte until it is certain: it finds the name between the first pair of equal quotation
marks, or gives up. It gives up at a first character that is no at sign, at a semicolon or a brace,
at eight characters that do not spell the rule, and at the limit of bytes.

Units are as wide as the byte order mark says, and only the low byte of each is looked at.
-/

namespace EpubStyle.Bytes

/-- Sniffing looks at fewer bytes than this. -/
def maxCharsetSniff : Nat := 256

/-- A sniffer that has read some bytes. -/
structure Sniffer where
  mark : Option ByteOrderMark
  /-- The bytes of an incomplete unit, latest first. -/
  unit : List UInt8 := []
  /-- Number of bytes read. -/
  consumed : Nat := 0
  /-- The characters read, latest first. -/
  seen : List Char := []
  /-- The opening quotation mark and the characters behind it, latest first. -/
  quoted : Option (Char × List Char) := none
  deriving DecidableEq, Repr, Inhabited

/-- Where sniffing stands after a byte. -/
inductive Sniffing where
  | pending (s : Sniffer)
  | found (charset : String)
  | failed
  deriving DecidableEq, Repr, Inhabited

namespace Sniffer

/-- Number of bytes of a code unit. -/
def width (s : Sniffer) : Nat := (s.mark.map ByteOrderMark.unitWidth).getD 1

/-- The character of a complete unit, whose bytes are given latest first. -/
def lowByte (s : Sniffer) (unit : List UInt8) : Char :=
  let byte := if s.mark.any ByteOrderMark.isLittleEndian then unit.getLast? else unit.head?
  Char.ofNat (byte.getD 0).toNat

/-- Take one more character. -/
def takeChar (s : Sniffer) (c : Char) : Sniffing :=
  let s := { s with unit := [], seen := c :: s.seen }
  if s.seen.length == 1 && c != '@' then .failed
  else if Text.isTerminator c then .failed
  else if s.seen.length == 8 && s.seen.reverse != ['@', 'c', 'h', 'a', 'r', 's', 'e', 't'] then
    .failed
  else
    match s.quoted with
    | none => .pending (if Text.isQuote c then { s with quoted := some (c, []) } else s)
    | some (quote, name) =>
        if c == quote then .found (String.ofList name.reverse)
        else .pending { s with quoted := some (quote, c :: name) }

/-- Take one more byte. -/
def take (s : Sniffer) (byte : UInt8) : Sniffing :=
  let s := { s with unit := byte :: s.unit, consumed := s.consumed + 1 }
  if s.unit.length < s.width then .pending s
  else if maxCharsetSniff ≤ s.consumed then .failed
  else s.takeChar (s.lowByte s.unit)

/-- Take bytes until sniffing is decided; without a decision there is no charset. -/
def run (s : Sniffer) : List UInt8 → Option String
  | [] => none
  | b :: bytes =>
      match s.take b with
      | .pending s => s.run bytes
      | .found charset => some charset
      | .failed => none

end Sniffer

/-- The charset declared at the start of bytes, which follow the byte order mark `mark`. -/
def sniffCharset (bytes : List UInt8) (mark : Option ByteOrderMark) : Option String :=
  Sniffer.run { mark := mark } bytes

/-- The encoding of a source: that of its byte order mark, or else that of its charset if it is
known, or else UTF-8. -/
def resolveEncoding (mark : Option ByteOrderMark) (charset : Option String) : Encoding :=
  match mark with
  | some m => m.encoding
  | none => (charset.bind Encoding.ofLabel?).getD .utf8

end EpubStyle.Bytes
