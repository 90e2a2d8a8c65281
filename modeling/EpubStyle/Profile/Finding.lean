import EpubStyle.Bytes.Encoding
import EpubStyle.Token.Basic

/-!
# Findings

A `Finding` is something about a style sheet that the EPUB style sheet profile has an opinion on. It
carries what its wording needs; its code, its severity, its message and the advice that goes with it
are functions of it. Only the message of a syntax error depends on the locale.
-/

namespace EpubStyle

/-- How serious a finding is. -/
inductive Severity where
  /-- A requirement is violated. -/
  | error
  /-- Reading systems may not do what is expected. -/
  | warning
  /-- Worth knowing, and no fault by itself. -/
  | info
  deriving DecidableEq, Repr, Inhabited

/-- The name of a severity in reports. -/
def Severity.name : Severity → String
  | error => "error"
  | warning => "warning"
  | info => "info"

/-- What can be found in a style sheet. -/
inductive Finding where
  /-- A property that sets the direction of text. -/
  | directionProperty (name : String)
  | emptyReference
  /-- A charset that is neither UTF-8 nor UTF-16. -/
  | foreignCharset (label : String)
  /-- A byte order mark of UTF-32. -/
  | foreignMark (mark : Bytes.ByteOrderMark)
  | fixedPosition
  /-- A font of a type that is not one of fonts. -/
  | fontType (resource mediaType : String)
  | syntaxError (p : Problem)
  /-- A declaration of this property is important. -/
  | important (name : String)
  /-- A font face without declarations. -/
  | emptyFontFace
  | mediaRule
  deriving DecidableEq, Repr, Inhabited

namespace Finding

/-- The stable code of a finding. -/
def code : Finding → String
  | directionProperty _ => "CSS-001"
  | emptyReference => "CSS-002"
  | foreignCharset _ => "CSS-003"
  | foreignMark _ => "CSS-004"
  | fixedPosition => "CSS-006"
  | fontType .. => "CSS-007"
  | syntaxError _ => "CSS-008"
  | important _ => "CSS-013"
  | emptyFontFace => "CSS-019"
  | mediaRule => "CSS-023"

/-- How serious a finding is. -/
def severity : Finding → Severity
  | directionProperty _ | emptyReference | foreignCharset _ | foreignMark _
  | syntaxError _ => .error
  | fixedPosition | emptyFontFace => .warning
  | fontType .. | important _ | mediaRule => .info

/-- The wording of a finding. -/
def message (locale : Locale) : Finding → String
  | directionProperty name =>
      "The `" ++ name ++ "` property must not be included in an EPUB style sheet."
  | emptyReference => "Empty or NULL reference found."
  | foreignCharset label =>
      "Only UTF-8 and UTF-16 encodings are allowed, detected `" ++ label ++ "` in @charset."
  | foreignMark mark =>
      "Only UTF-8 and UTF-16 encodings are allowed, detected a " ++ mark.encoding.name ++
        " byte order mark."
  | fixedPosition => "The `fixed` value of the `position` property is not supported."
  | fontType resource mediaType =>
      "Font-face reference `" ++ resource ++ "` refers to non-standard font type `" ++ mediaType ++
        "`."
  | syntaxError p => "An error occurred while parsing the CSS: " ++ p.message locale
  | important name => "`!important` used on property `" ++ name ++ "`."
  | emptyFontFace => "@font-face declaration has no attributes."
  | mediaRule => "@media rule found."

/-- The part of the specification that a finding rests on. -/
def specification? : Finding → Option String
  | directionProperty _ | emptyReference | foreignCharset _ | foreignMark _ | fixedPosition =>
      some "EPUB 3 CSS profile"
  | fontType .. => some "EPUB 3 core media types"
  | syntaxError _ | important _ | emptyFontFace | mediaRule => none

/-- What may be done about a finding. -/
def hint? : Finding → Option String
  | directionProperty _ => some "Set text direction with the `dir` attribute in markup."
  | foreignCharset _ =>
      some "Re-encode the style sheet as UTF-8 and drop the @charset rule."
  | syntaxError p => some ("parser code `" ++ p.code.key ++ "`")
  | emptyFontFace => some "Remove the rule or add font descriptors."
  | emptyReference | foreignMark _ | fixedPosition | fontType .. | important _ | mediaRule => none

end Finding

end EpubStyle
