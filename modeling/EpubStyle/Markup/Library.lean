/-!
# What a library for XML yields

Documents are cut into parts by a library that reads XML. An `XmlLibrary` is what is used of one:
the parts of a document, the text of bytes, and a text with its references replaced. What follows
about embedded styles is said of any such library.

Offsets count bytes from the start of the document.
-/

namespace EpubStyle.Markup

/-- The byte of an ASCII character. -/
def byte (c : Char) : UInt8 := UInt8.ofNat c.toNat

/-- The bytes of an ASCII text. -/
def word (s : String) : List UInt8 := s.toList.map byte

/-- A space, a tab, a carriage return or a line feed. -/
def isSpace (b : UInt8) : Bool :=
  b == byte ' ' || b == byte '\t' || b == byte '\r' || b == byte '\n'

/-- A single or a double quotation mark. -/
def isQuote (b : UInt8) : Bool := b == byte '\x22' || b == byte '\x27'

/-- An attribute with its raw value. -/
structure Attribute where
  key : List UInt8
  value : List UInt8
  deriving DecidableEq, Repr, Inhabited

/-- The tag of an element. -/
structure Tag where
  /-- The name of the element without its prefix. -/
  localName : List UInt8
  /-- The attributes in their order, or none for one that is not well formed. -/
  attributes : List (Option Attribute)
  deriving DecidableEq, Repr, Inhabited

/-- A part of a document. -/
inductive Event where
  /-- A start tag and the offset behind it. -/
  | startTag (tag : Tag) (stop : Nat)
  /-- The tag of an empty element, likewise. -/
  | emptyTag (tag : Tag) (stop : Nat)
  | endTag (localName : List UInt8)
  | text (bytes : List UInt8)
  | characterData (bytes : List UInt8)
  /-- A reference to an entity or a character. -/
  | reference (name : List UInt8)
  /-- A comment, a processing instruction or a document type. -/
  | other
  deriving DecidableEq, Repr, Inhabited

/-- What is used of a library that reads XML. -/
structure XmlLibrary where
  /-- The parts of a document, and the offset of the fault at which they end, if there is one. -/
  read : List UInt8 → List Event × Option Nat
  /-- The text of bytes. -/
  decode : List UInt8 → Option String
  /-- A text with its references replaced. -/
  unescape : String → Option String

end EpubStyle.Markup
