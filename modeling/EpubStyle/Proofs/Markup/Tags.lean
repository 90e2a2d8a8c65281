import EpubStyle.Markup.EmbeddedStyle

/-!
# Tags as they are written

A `WrittenTag` is a tag whose attributes all have quoted values: each attribute stands behind white
space or directly behind the value before it, there may be white space on either side of its equals
sign, and its value is made of any bytes but the quotation mark around it. Nothing of the name and
of the keys is white space, a quotation mark, an equals sign or a bracket. A key may stand more than
once.

What a library yields for such a tag is an assumption on the library. The key and the raw value are
`WrittenAttribute.raw`, and what is yielded for them is counted with `isStyle`.
-/

set_option autoImplicit false

namespace EpubStyle.Markup

/-! ## Attributes -/

/-- A byte of the name of an element or an attribute. -/
def isNameByte (b : UInt8) : Bool :=
  !isTagSpace b && !isQuote b && b != byte '=' && b != byte '<'

/-- An attribute with a quoted value. -/
structure WrittenAttribute where
  /-- The white space before the key. -/
  gap : List UInt8
  key : List UInt8
  /-- The white space before the equals sign. -/
  before : List UInt8
  /-- The white space behind the equals sign. -/
  behind : List UInt8
  quote : UInt8
  value : List UInt8
  gap_space : ∀ b ∈ gap, isSpace b = true
  key_ne_nil : key ≠ []
  key_name : ∀ b ∈ key, isNameByte b = true
  before_space : ∀ b ∈ before, isSpace b = true
  behind_space : ∀ b ∈ behind, isSpace b = true
  isQuote_quote : isQuote quote = true
  quote_not_mem : quote ∉ value

namespace WrittenAttribute

/-- What stands between the white space before an attribute and its value. -/
def introduction (a : WrittenAttribute) : List UInt8 :=
  a.key ++ a.before ++ byte '=' :: a.behind ++ [a.quote]

/-- An attribute up to its value. -/
def opening (a : WrittenAttribute) : List UInt8 := a.gap ++ a.introduction

/-- An attribute with its value. -/
def bytes (a : WrittenAttribute) : List UInt8 := a.opening ++ a.value ++ [a.quote]

/-- The key and the raw value. -/
def raw (a : WrittenAttribute) : Attribute := ⟨a.key, a.value⟩

end WrittenAttribute

/-! ## Tags -/

/-- A `style` attribute is yielded. -/
def isStyle (yielded : Option Attribute) : Bool := yielded.any (·.key == word "style")

/-- A tag whose attributes all have quoted values. -/
structure WrittenTag where
  name : List UInt8
  attributes : List WrittenAttribute
  /-- The white space behind the last attribute. -/
  trailing : List UInt8
  /-- The tag is that of an empty element. -/
  isEmpty : Bool
  name_name : ∀ b ∈ name, isNameByte b = true
  trailing_space : ∀ b ∈ trailing, isSpace b = true

namespace WrittenTag

/-- What follows the name of a tag. -/
def rest (t : WrittenTag) : List UInt8 :=
  t.attributes.flatMap WrittenAttribute.bytes ++ t.trailing

/-- What closes a tag. -/
def close (t : WrittenTag) : List UInt8 := if t.isEmpty then word "/>" else word ">"

/-- A tag from bracket to bracket. -/
def bytes (t : WrittenTag) : List UInt8 := byte '<' :: (t.name ++ (t.rest ++ t.close))

/-- A tag up to the value of an attribute, which stands behind the attributes `front`. -/
def upTo (t : WrittenTag) (front : List WrittenAttribute) (a : WrittenAttribute) : List UInt8 :=
  byte '<' :: (t.name ++ (front.flatMap WrittenAttribute.bytes ++ a.opening))

theorem close_cases (t : WrittenTag) : t.close = word "/>" ∨ t.close = word ">" := by
  unfold close
  split
  · exact .inl rfl
  · exact .inr rfl

/-- What stands behind the opening of an attribute. -/
theorem bytes_eq {t : WrittenTag} {front behind : List WrittenAttribute} {a : WrittenAttribute}
    (h : t.attributes = front ++ a :: behind) :
    t.bytes = t.upTo front a ++ (a.value ++ a.quote ::
      (behind.flatMap WrittenAttribute.bytes ++ (t.trailing ++ t.close))) := by
  simp [bytes, upTo, rest, h, WrittenAttribute.bytes]

end WrittenTag

end EpubStyle.Markup
