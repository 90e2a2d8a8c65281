import EpubStyle.Bytes.Charset
import EpubStyle.Bytes.Feed

/-!
# Style sheet sources

A `Source` is the body of a style sheet in bytes together with what its start says about the
encoding. It is made from bytes in memory, from text, or from a feed.

A `DetectingStream` wraps a feed. When it is opened it reads just enough to find a byte order mark
and a charset, and keeps what it read beyond the mark to be read again, so later reads deliver every
byte except those of the mark.
-/

namespace EpubStyle.Bytes

/-- A style sheet in bytes with its encoding. -/
structure Source where
  /-- The name used in locations. -/
  name : String
  mark : Option ByteOrderMark
  /-- The declared charset, as written. -/
  charset : Option String
  encoding : Encoding
  /-- The bytes behind the byte order mark. -/
  body : List UInt8
  deriving DecidableEq, Repr, Inhabited

namespace Source

/-- The source with a given mark, charset and body. -/
def ofParts (name : String) (mark : Option ByteOrderMark) (charset : Option String)
    (body : List UInt8) : Source :=
  ⟨name, mark, charset, resolveEncoding mark charset, body⟩

/-- The source of bytes that may start with a mark and a charset. -/
def ofBytes (name : String) (bytes : List UInt8) : Source :=
  let mark := ByteOrderMark.detect bytes
  let body := bytes.drop ((mark.map (fun m => m.bytes.length)).getD 0)
  ofParts name mark (sniffCharset body mark) body

/-- The source of a text, which is not searched for a mark or charset. -/
def ofText (name text : String) : Source :=
  ⟨name, none, none, .utf8, Utf8.encode text⟩

/-- Number of bytes of the body. -/
def size (s : Source) : Nat := s.body.length

/-- The text of a source. -/
def text (s : Source) : String := s.encoding.decode s.body

end Source

/-! ## Streams -/

/-- The most bytes that a stream keeps to be read again. -/
def streamCapacity : Nat := maxCharsetSniff + 4

/-- The message of a stream that would have to keep more bytes than it can. -/
def streamFull : String := "charset pushback buffer full"

/-- A feed whose start has been examined. -/
structure DetectingStream (σ : Type) where
  inner : σ
  /-- The bytes that were examined and not yet read again. -/
  pending : List UInt8
  mark : Option ByteOrderMark
  charset : Option String
  deriving DecidableEq, Repr

namespace DetectingStream

variable {σ : Type}

/-- Read up to `n` bytes, fewer at the end of the feed. -/
def readHead (f : Feed σ) : Nat → σ → Except String (List UInt8) × σ
  | 0, s => (.ok [], s)
  | n + 1, s =>
      match f.readByte s with
      | (.error message, s) => (.error message, s)
      | (.ok none, s) => (.ok [], s)
      | (.ok (some b), s) =>
          match readHead f n s with
          | (.ok bytes, s) => (.ok (b :: bytes), s)
          | (.error message, s) => (.error message, s)

/-- Sniff over bytes that have been read already. Without a decision, the sniffer is left. -/
def sniffKept (s : Sniffer) : List UInt8 → Sniffing
  | [] => .pending s
  | b :: bytes =>
      match s.take b with
      | .pending s => sniffKept s bytes
      | decided => decided

/-- Sniff on over a feed, keeping the bytes read behind `kept`, for at most `budget` bytes. -/
def sniffOn (f : Feed σ) (sniffer : Sniffer) (kept : List UInt8) :
    Nat → σ → Except String (Option String × List UInt8) × σ
  | 0, s =>
      match f.readByte s with
      | (.error message, s) => (.error message, s)
      | (.ok none, s) => (.ok (none, kept), s)
      | (.ok (some _), s) => (.error streamFull, s)
  | budget + 1, s =>
      match f.readByte s with
      | (.error message, s) => (.error message, s)
      | (.ok none, s) => (.ok (none, kept), s)
      | (.ok (some b), s) =>
          let kept := kept ++ [b]
          match sniffer.take b with
          | .pending sniffer => sniffOn f sniffer kept budget s
          | .found charset => (.ok (some charset, kept), s)
          | .failed => (.ok (none, kept), s)

/-- Open a feed: find its mark and its charset. -/
def openFeed (f : Feed σ) (s : σ) : Except String (DetectingStream σ) × σ :=
  match readHead f 4 s with
  | (.error message, s) => (.error message, s)
  | (.ok head, s) =>
      let mark := ByteOrderMark.detect head
      let kept := head.drop ((mark.map (fun m => m.bytes.length)).getD 0)
      match sniffKept { mark := mark } kept with
      | .found charset => (.ok ⟨s, kept, mark, some charset⟩, s)
      | .failed => (.ok ⟨s, kept, mark, none⟩, s)
      | .pending sniffer =>
          match sniffOn f sniffer kept (streamCapacity - kept.length) s with
          | (.error message, s) => (.error message, s)
          | (.ok (charset, kept), s) => (.ok ⟨s, kept, mark, charset⟩, s)

/-- Read at most `n` bytes: first those kept, then those of the feed. -/
def read (f : Feed σ) (n : Nat) (d : DetectingStream σ) : Reply × DetectingStream σ :=
  match d.pending with
  | [] =>
      let (reply, s) := f.read n d.inner
      (reply, { d with inner := s })
  | _ :: _ => (.bytes (d.pending.take n), { d with pending := d.pending.drop n })

end DetectingStream

namespace Source

/-- Number of bytes that a whole feed is read in at a time. -/
def chunkSize : Nat := 8192

/-- The source of everything that a feed delivers. -/
def ofFeed {σ : Type} (name : String) (f : Feed σ) (s : σ) : Except String Source :=
  match DetectingStream.openFeed f s with
  | (.error message, _) => .error message
  | (.ok d, _) =>
      match f.readAll chunkSize d.inner with
      | (.ok rest, _) => .ok (ofParts name d.mark d.charset (d.pending ++ rest))
      | (.error message, _) => .error message

end Source

end EpubStyle.Bytes
