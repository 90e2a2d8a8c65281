import EpubStyle.Bytes.Utf8
import EpubStyle.Markup.Attribute
import EpubStyle.Markup.EmbeddedStyle

/-!
# A plain library for XML

`plainXml` is the library that reads documents here. It reads bytes as far as finding styles needs
it. `readParts` cuts a document into tags, text, references and the rest, and stops at the first
place that is not well formed: an unfinished construct, a reference without its semicolon, or an end
tag that does not match the innermost open element. Elements that are never closed are not a fault.

Offsets count bytes from the start of the document, without a byte order mark of UTF-8. Tags end at
the first `>` outside quotation marks. A document type does so as well up to its internal subset;
behind the subset its first `>` is its end.
-/

namespace EpubStyle.Markup

/-- A part of a document as it stands. -/
inductive Part where
  /-- A start tag, with its name, what follows the name, and the offset behind the tag. -/
  | startTag (name rest : List UInt8) (stop : Nat)
  /-- The tag of an empty element, likewise. -/
  | emptyTag (name rest : List UInt8) (stop : Nat)
  | endTag (name : List UInt8)
  | text (bytes : List UInt8)
  | characterData (bytes : List UInt8)
  /-- A reference to an entity or a character. -/
  | reference (name : List UInt8)
  /-- A comment, a processing instruction or a document type. -/
  | other
  deriving DecidableEq, Repr, Inhabited

/-- A part of a document and the number of its bytes, or the distance of a fault from its start. -/
abbrev Reading := Except Nat (Part × Nat)

/-! ## Ends -/

/-- The number of bytes before the `>` that ends a tag, outside quotation marks. -/
def tagEnd (quote : Option UInt8) : List UInt8 → Option Nat
  | [] => none
  | b :: bs =>
      match quote with
      | some q => (tagEnd (if b == q then none else some q) bs).map (· + 1)
      | none =>
          if b == byte '>' then some 0
          else (tagEnd (if isQuote b then some b else none) bs).map (· + 1)

/-- The number of bytes before the first `>` that comes after at least `least` bytes and right
behind `closing`. The bytes `seen` before the list are given latest first, and `closing` likewise.
-/
def closedEnd (closing : List UInt8) (least : Nat) (seen : List UInt8) : List UInt8 → Option Nat
  | [] => none
  | b :: bs =>
      if b == byte '>' && least ≤ seen.length && closing.isPrefixOf seen then some seen.length
      else closedEnd closing least (b :: seen) bs

/-- Where a document type is being read. -/
inductive DoctypePhase where
  /-- Before the internal subset, inside quotation marks or not. -/
  | opening (quote : Option UInt8)
  | subset
  /-- In a declaration of the subset that may quote, inside quotation marks or not. -/
  | declaration (quote : Option UInt8)
  /-- In other markup of the subset. It ends at the first `>` that comes after at least `least`
  bytes of the document type and right behind `closing`, latest first. -/
  | bounded (closing : List UInt8) (least : Nat)
  /-- Behind the internal subset. -/
  | trailing
  deriving DecidableEq, Repr, Inhabited

namespace DoctypePhase

/-- The phase behind a bracket in the subset, with `offset` bytes before it and the bytes `ahead`
behind it. A comment and an instruction end with marks of their own, which share nothing with those
that they start with. Only declarations that may hold literals quote; any other markup, of whatever
kind, ends at its first `>`. -/
def ofMarkup (offset : Nat) (ahead : List UInt8) : DoctypePhase :=
  if (word "!--").isPrefixOf ahead then bounded (word "--") (offset + 6)
  else if (word "?").isPrefixOf ahead then bounded (word "?") (offset + 3)
  else if ["!ENTITY", "!ATTLIST", "!NOTATION"].any (fun w => (word w).isPrefixOf ahead) then
    declaration none
  else bounded [] 0

/-- The phase after one more byte of a document type, with the bytes `ahead` behind it and the bytes
`seen` before it, latest first. -/
def step (seen : List UInt8) (b : UInt8) (ahead : List UInt8) : DoctypePhase → DoctypePhase
  | opening (some q) => opening (if b == q then none else some q)
  | opening none =>
      if b == byte '[' then subset else opening (if isQuote b then some b else none)
  | subset =>
      if b == byte ']' then trailing
      else if b == byte '<' then ofMarkup seen.length ahead
      else subset
  | declaration (some q) => declaration (if b == q then none else some q)
  | declaration none =>
      if b == byte '>' then subset else declaration (if isQuote b then some b else none)
  | bounded closing least =>
      if b == byte '>' && least ≤ seen.length && closing.isPrefixOf seen then subset
      else bounded closing least
  | trailing => trailing

/-- Whether a `>` ends the document type. -/
def isLast : DoctypePhase → Bool
  | opening none | trailing => true
  | _ => false

end DoctypePhase

/-- The number of bytes before the `>` that ends a document type. -/
def doctypeEnd (phase : DoctypePhase) (seen : List UInt8) : List UInt8 → Option Nat
  | [] => none
  | b :: bs =>
      if phase.isLast && b == byte '>' then some seen.length
      else doctypeEnd (phase.step seen b bs) (b :: seen) bs

/-! ## Parts that start with a bracket -/

/-- The name of a tag: everything before the first white space. -/
def tagName (content : List UInt8) : List UInt8 := content.takeWhile (fun b => !isSpace b)

/-- The part of a name behind its first colon, or the whole name. -/
def localName (name : List UInt8) : List UInt8 :=
  match name.dropWhile (· != byte ':') with
  | [] => name
  | _ :: rest => rest

/-- A name without white space behind it; white space alone is kept. -/
def trimName (name : List UInt8) : List UInt8 :=
  if name.all isSpace then name else (name.reverse.dropWhile isSpace).reverse

/-- A letter in lower case. -/
def lowerByte (b : UInt8) : UInt8 :=
  if byte 'A' ≤ b && b ≤ byte 'Z' then b + 32 else b

/-- The construct behind `<!`, given from the exclamation mark on. -/
def readDeclaration (bytes : List UInt8) : Reading :=
  match bytes.tail.head? with
  | none => .error 0
  | some b =>
      if b == byte '[' then
        match closedEnd (word "]]") 0 [] bytes with
        | some n =>
            if (word "![CDATA[").isPrefixOf (bytes.take n) then
              .ok (.characterData ((bytes.take (n - 2)).drop 8), n + 2)
            else .error 0
        | none => .error 0
      else if b == byte '-' then
        match closedEnd (word "--") 5 [] bytes with
        | some n => if (word "!--").isPrefixOf bytes then .ok (.other, n + 2) else .error 0
        | none => .error 0
      else if lowerByte b == byte 'd' then
        match doctypeEnd (.opening none) [] bytes with
        | some n =>
            let content := bytes.take n
            if (word "!doctype").isPrefixOf (content.map lowerByte) then
              if (content.drop 8).all isSpace then .error (n + 1) else .ok (.other, n + 2)
            else .error 0
        | none => .error 0
      else .error 0

/-- The construct behind `<`, inside the elements `opened`, innermost first. -/
def readBracket (opened : List (List UInt8)) (offset : Nat) (bytes : List UInt8) : Reading :=
  match bytes.head? with
  | none => .error 0
  | some b =>
      if b == byte '!' then readDeclaration bytes
      else if b == byte '?' then
        match closedEnd (word "?") 0 [] bytes with
        | some n => if 1 < n then .ok (.other, n + 2) else .error 0
        | none => .error 0
      else
        match tagEnd none bytes with
        | none => .error 0
        | some n =>
            let content := bytes.take n
            if b == byte '/' then
              let name := trimName content.tail
              if opened.head? == some name then .ok (.endTag name, n + 2) else .error 0
            else if content.getLast? == some (byte '/') then
              let content := content.dropLast
              let name := tagName content
              .ok (.emptyTag name (content.drop name.length) (offset + n + 2), n + 2)
            else
              let name := tagName content
              .ok (.startTag name (content.drop name.length) (offset + n + 2), n + 2)

/-! ## Documents -/

/-- The part of a document that starts with the byte `b`, before the bytes `bs`. -/
def readPart (opened : List (List UInt8)) (offset : Nat) (b : UInt8) (bs : List UInt8) : Reading :=
  if b == byte '<' then readBracket opened offset bs
  else if b == byte '&' then
    let name := bs.takeWhile (fun x => x != byte ';' && x != byte '&' && x != byte '<')
    match bs.drop name.length with
    | x :: _ => if x == byte ';' then .ok (.reference name, name.length + 2) else .error 0
    | [] => .error 0
  else
    let more := bs.takeWhile (fun x => x != byte '<' && x != byte '&')
    .ok (.text (b :: more), more.length + 1)

/-- The elements open behind a part. -/
def Part.reopen (opened : List (List UInt8)) : Part → List (List UInt8)
  | startTag name _ _ => name :: opened
  | endTag _ => opened.tail
  | _ => opened

/-- The parts of a document from an offset on, and the offset of a fault. -/
def readFrom (opened : List (List UInt8)) (offset : Nat) : List UInt8 → List Part × Option Nat
  | [] => ([], none)
  | b :: bs =>
      match readPart opened offset b bs with
      | .error distance => ([], some (offset + distance))
      | .ok (part, length) =>
          let (parts, fault) :=
            readFrom (part.reopen opened) (offset + length) (bs.drop (length - 1))
          (part :: parts, fault)
  termination_by bytes => bytes.length
  decreasing_by simp only [List.length_drop, List.length_cons]; omega

/-- The parts of a document, and the offset of a fault. -/
def readParts (document : List UInt8) : List Part × Option Nat :=
  let mark : List UInt8 := [0xEF, 0xBB, 0xBF]
  readFrom [] 0 (if mark.isPrefixOf document then document.drop 3 else document)

/-! ## The library -/

/-- The tag with this name and what follows the name. -/
def Tag.ofParts (name rest : List UInt8) : Tag := ⟨Markup.localName name, Markup.attributes [] rest⟩

/-- What a part is to those who use the library. -/
def Part.event : Part → Event
  | startTag name rest stop => .startTag (.ofParts name rest) stop
  | emptyTag name rest stop => .emptyTag (.ofParts name rest) stop
  | endTag name => .endTag (Markup.localName name)
  | text bytes => .text bytes
  | characterData bytes => .characterData bytes
  | reference name => .reference name
  | other => .other

/-- The library that reads documents here. -/
def plainXml : XmlLibrary where
  read document := ((readParts document).1.map Part.event, (readParts document).2)
  decode := Bytes.Utf8.strict?
  unescape text := (unescape text.toList).map String.ofList

/-- The styles of a document that is read by this library. -/
def extractStyles (document : List UInt8) : Except MarkupFault (List EmbeddedStyle) :=
  plainXml.extractStyles document

end EpubStyle.Markup
