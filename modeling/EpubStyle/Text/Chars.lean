/-!
# Character classes of style sheet text

Every test on characters that the lexical level makes is one of the predicates below. Letters and
digits are those of ASCII; every character from U+0080 on counts as a name character.
-/

namespace EpubStyle.Text

/-- A line feed, a carriage return or a form feed. -/
def isLineBreak (c : Char) : Bool :=
  c == '\n' || c == '\r' || c == '\x0c'

/-- A space, a tab or a line break. -/
def isBlank (c : Char) : Bool :=
  c == ' ' || c == '\t' || isLineBreak c

/-- A hexadecimal digit of either case. -/
def isHexDigit (c : Char) : Bool :=
  c.isDigit || ('a' ≤ c && c ≤ 'f') || ('A' ≤ c && c ≤ 'F')

/-- The value of a hexadecimal digit; zero for any other character. -/
def hexDigitValue (c : Char) : Nat :=
  if c.isDigit then c.toNat - '0'.toNat
  else if 'a' ≤ c && c ≤ 'f' then c.toNat - 'a'.toNat + 10
  else if 'A' ≤ c && c ≤ 'F' then c.toNat - 'A'.toNat + 10
  else 0

/-- The number that a list of digits denotes in base sixteen. -/
def hexValue (digits : List Char) : Nat :=
  digits.foldl (fun value c => 16 * value + hexDigitValue c) 0

/-- A character that may start a name. -/
def isNameStart (c : Char) : Bool :=
  c.isAlpha || c == '_' || 0x80 ≤ c.toNat

/-- A character that may continue a name. -/
def isNameChar (c : Char) : Bool :=
  isNameStart c || c.isDigit || c == '-'

/-- A plus or a minus sign. -/
def isSign (c : Char) : Bool :=
  c == '+' || c == '-'

/-- A character that may start the unit behind a number. -/
def isUnitStart (c : Char) : Bool :=
  isNameStart c || c == '%'

/-- A character of a Unicode range: a hexadecimal digit, a wildcard or the hyphen. -/
def isRangeChar (c : Char) : Bool :=
  isHexDigit c || c == '?' || c == '-'

/-- A character that ends a statement or delimits a block. -/
def isTerminator (c : Char) : Bool :=
  c == ';' || c == '{' || c == '}'

/-- A single or a double quotation mark. -/
def isQuote (c : Char) : Bool :=
  c == '\x22' || c == '\x27'

/-! ## Comparison up to ASCII case -/

/-- Two characters agree up to ASCII case. -/
def sameLetter (a b : Char) : Bool :=
  a.toLower == b.toLower

/-- Two texts agree up to ASCII case. -/
def sameWord : List Char → List Char → Bool
  | [], [] => true
  | a :: as, b :: bs => sameLetter a b && sameWord as bs
  | _, _ => false

/-- The text `word` stands at the front of the second text, up to ASCII case. -/
def startsWord : List Char → List Char → Bool
  | [], _ => true
  | a :: as, b :: bs => sameLetter a b && startsWord as bs
  | _ :: _, [] => false

/-- A text in ASCII lower case; other characters are kept. -/
def lowerCase (s : String) : String :=
  s.map Char.toLower

/-- Two strings agree up to ASCII case. -/
def sameText (a b : String) : Bool :=
  sameWord a.toList b.toList

/-! ## White space of Unicode -/

/-- The characters that Unicode gives the property White_Space. -/
def isUnicodeSpace (c : Char) : Bool :=
  let n := c.toNat
  (0x09 ≤ n && n ≤ 0x0D) || n == 0x20 || n == 0x85 || n == 0xA0 || n == 0x1680 ||
    (0x2000 ≤ n && n ≤ 0x200A) || n == 0x2028 || n == 0x2029 || n == 0x202F || n == 0x205F ||
    n == 0x3000

/-- A list without the members at either end that satisfy `p`. -/
def trimBy {α : Type} (p : α → Bool) (xs : List α) : List α :=
  ((xs.dropWhile p).reverse.dropWhile p).reverse

/-- A text without Unicode white space at either end. -/
def trimSpace (s : String) : String :=
  String.ofList (trimBy isUnicodeSpace s.toList)

end EpubStyle.Text
