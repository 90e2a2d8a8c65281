import EpubStyle.Bytes.Utf8
import EpubStyle.Failure
import EpubStyle.Markup.Library
import EpubStyle.Text.Chars

/-!
# Embedded styles

A document holds styles in `style` elements and in `style` attributes. `XmlLibrary.extractStyles`
lists them in document order, each with its text, in which references are replaced, and with the
line and column of its first character. The document is read by a library for XML, which may be any.

The text of an element is the text, the character data and the replaced references up to its end
tag; tags inside contribute nothing. For an attribute the place of the value is found in the bytes
of the tag. Lines end at line feeds, and columns count characters.
-/

namespace EpubStyle.Markup

/-- Where an embedded style stands. -/
inductive StyleKind where
  | element
  | attribute
  deriving DecidableEq, Repr, Inhabited

/-- A style in a document. -/
structure EmbeddedStyle where
  kind : StyleKind
  /-- The local name of the element, in lower case. -/
  element : String
  css : String
  /-- The line of the first character of the style. -/
  line : Nat
  /-- The column of the first character of the style. -/
  column : Nat
  deriving DecidableEq, Repr, Inhabited

/-! ## Places -/

/-- The line and the column of the byte at an offset. -/
def lineColumn (document : List UInt8) (offset : Nat) : Nat × Nat :=
  let before := document.take offset
  let lastLine := (before.reverse.takeWhile (· != byte '\n')).reverse
  (before.count (byte '\n') + 1, (Bytes.Utf8.decode lastLine).length + 1)

/-- White space, a form feed included. -/
def isTagSpace (b : UInt8) : Bool := isSpace b || b == byte '\x0c'

/-- The offset of a quoted value behind an equals sign, if there is one. -/
def quotedValueOffset (bytes : List UInt8) : Option Nat :=
  let gap := (bytes.takeWhile isTagSpace).length
  match bytes.drop gap with
  | [] => none
  | x :: rest =>
      if x == byte '=' then
        let space := (rest.takeWhile isTagSpace).length
        if (rest.drop space).head?.any isQuote then some (gap + 1 + space + 1) else none
      else none

/-- The offset of the value of the attribute `name` in a tag, from the byte at `offset` on. The byte
before it is `previous`, and quoted text is passed over. -/
def valueOffset (name : List UInt8) (previous quote : Option UInt8) (offset : Nat) :
    List UInt8 → Option Nat
  | [] => none
  | b :: bs =>
      match quote with
      | some q => valueOffset name (some b) (if b == q then none else some q) (offset + 1) bs
      | none =>
          if isQuote b then valueOffset name (some b) (some b) (offset + 1) bs
          else if previous.any isTagSpace && name.isPrefixOf (b :: bs) then
            match quotedValueOffset ((b :: bs).drop name.length) with
            | some n => some (offset + name.length + n)
            | none => valueOffset name (some b) none (offset + 1) bs
          else valueOffset name (some b) none (offset + 1) bs

/-- The line and the column of the value of the `style` attribute in the tag that ends before the
offset `stop`. -/
def stylePlace (document : List UInt8) (stop : Nat) : Nat × Nat :=
  let before := document.take stop
  let tail := (before.reverse.takeWhile (· != byte '<')).reverse
  let start := if before.contains (byte '<') then before.length - tail.length - 1 else 0
  lineColumn document
    (start + (valueOffset (word "style") none none 0 (before.drop start)).getD 0)

/-! ## Styles -/

/-- A `style` element that has not ended. -/
structure OpenStyle where
  css : String
  line : Nat
  column : Nat
  deriving DecidableEq, Repr, Inhabited

/-- An open element with more text. -/
def OpenStyle.add (s : OpenStyle) (text : String) : OpenStyle := { s with css := s.css ++ text }

/-- The `style` element that is open behind a start tag. -/
def openStyle (document : List UInt8) (element : String) (stop : Nat) :
    Option OpenStyle → Option OpenStyle
  | some s => some s
  | none =>
      if element == "style" then
        let place := lineColumn document stop
        some ⟨"", place.1, place.2⟩
      else none

/-- Add to the open `style` element, if there is one, a text that is worked out only then. -/
def addText (current : Option OpenStyle) (text : Unit → Except MarkupFault String) :
    Except MarkupFault (Option OpenStyle) :=
  match current with
  | none => .ok none
  | some s => (text ()).map (fun t => some (s.add t))

namespace XmlLibrary

variable (xml : XmlLibrary)

/-- The text of bytes, which the library must be able to decode. -/
def text? (bytes : List UInt8) : Except MarkupFault String :=
  match xml.decode bytes with
  | some s => .ok s
  | none => .error .undecodable

/-- A text with its references replaced, all of which the library must know. -/
def unescaped? (raw : String) : Except MarkupFault String :=
  match xml.unescape raw with
  | some s => .ok s
  | none => .error .badReference

/-- The local name of an element in lower case. -/
def elementName (localName : List UInt8) : Except MarkupFault String :=
  (xml.text? localName).map Text.lowerCase

/-- The text that an entity reference stands for. -/
def resolve (name : List UInt8) : Except MarkupFault String := do
  let name ← xml.text? name
  xml.unescaped? ("&" ++ name ++ ";")

/-- The styles in the attributes of a tag that ends before the offset `stop`. An attribute that is
not well formed is passed over. -/
def attributeStyles (document : List UInt8) (element : String) (stop : Nat) :
    List (Option Attribute) → Except MarkupFault (List EmbeddedStyle)
  | [] => .ok []
  | none :: rest => attributeStyles document element stop rest
  | some a :: rest =>
      if a.key == word "style" then do
        let raw ← xml.text? a.value
        let css ← xml.unescaped? raw
        let place := stylePlace document stop
        let others ← attributeStyles document element stop rest
        .ok (⟨.attribute, element, css, place.1, place.2⟩ :: others)
      else attributeStyles document element stop rest

/-- The `style` element that is open behind an event, and the styles that end with it. -/
def styleStep (document : List UInt8) (current : Option OpenStyle) :
    Event → Except MarkupFault (Option OpenStyle × List EmbeddedStyle)
  | .startTag tag stop => do
      let element ← xml.elementName tag.localName
      let styles ← xml.attributeStyles document element stop tag.attributes
      .ok (openStyle document element stop current, styles)
  | .emptyTag tag stop => do
      let element ← xml.elementName tag.localName
      let styles ← xml.attributeStyles document element stop tag.attributes
      .ok (current, styles)
  | .endTag localName => do
      let element ← xml.elementName localName
      match current, element == "style" with
      | some s, true => .ok (none, [⟨.element, element, s.css, s.line, s.column⟩])
      | _, _ => .ok (current, [])
  | .text bytes => do
      let current ← addText current (fun _ => xml.text? bytes)
      .ok (current, [])
  | .characterData bytes => do
      let current ← addText current (fun _ => xml.text? bytes)
      .ok (current, [])
  | .reference name => do
      let current ← addText current (fun _ => xml.resolve name)
      .ok (current, [])
  | .other => .ok (current, [])

/-- The styles of a document whose events remain, ending in a fault at an offset or not. -/
def stylesFrom (document : List UInt8) (fault : Option Nat) (current : Option OpenStyle) :
    List Event → Except MarkupFault (List EmbeddedStyle)
  | [] =>
      match fault with
      | some offset => .error (.malformed offset)
      | none => if current.isSome then .error .unclosedStyle else .ok []
  | e :: events => do
      let (current, styles) ← xml.styleStep document current e
      let others ← stylesFrom document fault current events
      .ok (styles ++ others)

/-- The styles of a document, in document order. -/
def extractStyles (document : List UInt8) : Except MarkupFault (List EmbeddedStyle) :=
  let (events, fault) := xml.read document
  xml.stylesFrom document fault none events

end XmlLibrary

end EpubStyle.Markup
