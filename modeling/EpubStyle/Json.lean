import EpubStyle.Text.Chars

/-!
# JSON

The values that reports are made of, and their written forms. The compact form has no blanks; the
pretty form has every item and member on a line of its own, two spaces deeper than what it is in.
Strings are written with the escapes that are necessary and no others.
-/

namespace EpubStyle

/-- A JSON value. The members of an object keep their order, and numbers are counts. -/
inductive JsonValue where
  | null
  | bool (b : Bool)
  | num (n : Nat)
  | str (s : String)
  | arr (items : List JsonValue)
  | obj (members : List (String × JsonValue))
  deriving Repr, Inhabited

namespace JsonValue

/-- A string, or `null` where there is none. -/
def ofString? : Option String → JsonValue
  | some s => str s
  | none => null

/-! ## Strings -/

/-- A lower-case hexadecimal digit. -/
def hexDigit (n : Nat) : Char := ("0123456789abcdef".toList)[n]?.getD '0'

/-- A character inside quotation marks. -/
def escapeChar (c : Char) : List Char :=
  if c == '\x22' then ['\\', '\x22']
  else if c == '\\' then ['\\', '\\']
  else if c == '\n' then ['\\', 'n']
  else if c == '\r' then ['\\', 'r']
  else if c == '\t' then ['\\', 't']
  else if c.toNat < 0x20 then
    ['\\', 'u', '0', '0', hexDigit (c.toNat / 16), hexDigit (c.toNat % 16)]
  else [c]

/-- A text in quotation marks. -/
def quoted (s : String) : List Char :=
  '\x22' :: s.toList.flatMap escapeChar ++ ['\x22']

/-! ## Values -/

/-- How a value is laid out. -/
inductive Layout where
  | compact
  | pretty
  deriving DecidableEq, Repr, Inhabited

namespace Layout

/-- What starts a line at a depth. -/
def lineBreak (l : Layout) (depth : Nat) : List Char :=
  match l with
  | compact => []
  | pretty => '\n' :: List.replicate (2 * depth) ' '

/-- What stands between a key and its value. -/
def colon : Layout → List Char
  | compact => [':']
  | pretty => [':', ' ']

end Layout

mutual

/-- A value at a depth. -/
def write (l : Layout) (depth : Nat) : JsonValue → List Char
  | null => "null".toList
  | bool true => "true".toList
  | bool false => "false".toList
  | num n => (toString n).toList
  | str s => quoted s
  | arr [] => ['[', ']']
  | arr (item :: items) =>
      '[' :: l.lineBreak (depth + 1) ++ write l (depth + 1) item ++
        writeItems l (depth + 1) items ++ l.lineBreak depth ++ [']']
  | obj [] => ['\x7b', '\x7d']
  | obj ((key, value) :: members) =>
      '\x7b' :: l.lineBreak (depth + 1) ++ quoted key ++ l.colon ++ write l (depth + 1) value ++
        writeMembers l (depth + 1) members ++ l.lineBreak depth ++ ['\x7d']

/-- Items behind the first of an array. -/
def writeItems (l : Layout) (depth : Nat) : List JsonValue → List Char
  | [] => []
  | item :: items =>
      ',' :: l.lineBreak depth ++ write l depth item ++ writeItems l depth items

/-- Members behind the first of an object. -/
def writeMembers (l : Layout) (depth : Nat) : List (String × JsonValue) → List Char
  | [] => []
  | (key, value) :: members =>
      ',' :: l.lineBreak depth ++ quoted key ++ l.colon ++ write l depth value ++
        writeMembers l depth members

end

/-- The written form of a value. -/
def render (j : JsonValue) (l : Layout) : String := String.ofList (j.write l 0)

end JsonValue

end EpubStyle
