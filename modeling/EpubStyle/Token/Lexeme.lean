import EpubStyle.Token.Piece

/-!
# Lexemes

`Lexeme.read` reads one token from a nonempty text. The kinds are tried in a fixed order, since
`-->`, the words `only`, `not` and `and`, the opening `url(` and the opening `U+` all begin like
names. Any character that starts nothing else is a token by itself, so a lexeme always takes at
least one character and reading never fails; what is wrong with it is a note.

The sections below give one reader for each kind that is longer than a fixed spelling. They take the
text behind the part that decided the kind.
-/

namespace EpubStyle

open Text

/-- A piece with the kind of token it makes. -/
structure Lexeme where
  kind : TokenKind
  piece : Piece
  deriving DecidableEq, Repr, Inhabited

namespace Lexeme

/-! ## Lookahead -/

/-- An escape stands at the front of the text. -/
def escapeAhead : List Char → Bool
  | '\\' :: cs =>
      match Escape.read cs with
      | .escape _ => true
      | .endOfInput | .lineBreak => false
  | _ => false

/-- A character that may start a name stands at the front of the text. -/
def nameStartAhead (cs : List Char) : Bool := cs.head?.any isNameStart

/-- The text starts with a digit. -/
def digitAhead (cs : List Char) : Bool := cs.head?.any Char.isDigit

/-- A point and a digit stand at the front of the text. -/
def fractionAhead : List Char → Bool
  | '.' :: cs => digitAhead cs
  | _ => false

/-- The text continues the word `first`, `rest` of which `c` is the first letter, and the word ends
there or before a blank. -/
def wordAhead (first : Char) (rest : List Char) (c : Char) (cs : List Char) : Bool :=
  sameLetter c first && startsWord rest cs && (cs.drop rest.length).head?.all isBlank

/-- A name or function starts at `c`. -/
def identAhead (c : Char) (cs : List Char) : Bool :=
  isNameStart c || (c == '-' && (nameStartAhead cs || escapeAhead cs)) || escapeAhead (c :: cs)

/-- A name stands behind an at sign. -/
def atKeywordAhead (cs : List Char) : Bool :=
  nameStartAhead cs || escapeAhead cs ||
    (cs.head? == some '-' && (nameStartAhead cs.tail || escapeAhead cs.tail))

/-- A name character or an escape stands behind a hash sign or a point. -/
def nameAhead (cs : List Char) : Bool := cs.head?.any isNameChar || escapeAhead cs

/-- A number starts at `c`. -/
def numberAhead (c : Char) (cs : List Char) : Bool :=
  c.isDigit || ((c == '.' || isSign c) && digitAhead cs) || (isSign c && fractionAhead cs)

/-- The text behind `U` opens a Unicode range. -/
def rangeAhead : List Char → Bool
  | '+' :: c :: _ => isHexDigit c || c == '?'
  | _ => false

/-- What happens while a token that starts with `c` is told from a name. A backslash at the end of
the text is a fault, and a backslash further ahead is given back. -/
def probe (c : Char) (cs : List Char) : List Note :=
  if c == '\\' then
    match cs with
    | [] => [.fault 1 .lexicalEnd []]
    | _ :: _ => []
  else if c == '-' || c == '#' || c == '.' then
    if cs.head? == some '\\' then [.stepBack 1] else []
  else if c == '@' then
    match cs with
    | '\\' :: _ => [.stepBack 1]
    | '-' :: '\\' :: _ => [.stepBack 2]
    | _ => []
  else []

/-! ## Names -/

/-- The first character of an identifier together with those before its run of name characters: `c`
itself, decoded if it opens an escape, and behind a hyphen one character more. -/
def identStart (c : Char) (cs : List Char) : Piece :=
  if c == '\\' then (Piece.escape? isNameStart cs).getD (Piece.ofChar c)
  else if c == '-' then Piece.ofChar c ++ Piece.first isNameStart cs
  else Piece.ofChar c

/-- An identifier, or a function if a parenthesis follows at once. -/
def ident (c : Char) (cs : List Char) : Lexeme :=
  let start := identStart c cs
  let name := start ++ Piece.run isNameChar ((c :: cs).drop start.length)
  match (c :: cs).drop name.length with
  | '(' :: _ => ⟨.function, name ++ Piece.ofChar '('⟩
  | _ => ⟨.ident, name⟩

/-- The name behind an at sign, which one hyphen may precede. -/
def atKeyword : List Char → Lexeme
  | '-' :: cs => ⟨.atKeyword, Piece.ofText ['@', '-'] ++ Piece.name cs⟩
  | cs => ⟨.atKeyword, Piece.ofChar '@' ++ Piece.name cs⟩

/-- The name behind a hash sign. -/
def hashName (cs : List Char) : Lexeme :=
  ⟨.hashName, Piece.ofChar '#' ++ Piece.run isNameChar cs⟩

/-- The name behind a point. -/
def className (cs : List Char) : Lexeme :=
  ⟨.className, Piece.ofChar '.' ++ Piece.name cs⟩

/-! ## Numbers -/

/-- The digits that continue a number, with at most one point before a digit, and whether the number
has a point by then. -/
def digits (real : Bool) : List Char → List Char × Bool
  | [] => ([], real)
  | c :: cs =>
      if c.isDigit then
        let r := digits real cs
        (c :: r.1, r.2)
      else if c == '.' && !real && digitAhead cs then
        let r := digits true cs
        (c :: r.1, r.2)
      else ([], real)

/-- The unit behind a number, if one is there. A backslash that was looked at is given back. -/
def unit : List Char → Option Piece
  | [] => none
  | c :: cs =>
      if c == '%' then some (Piece.ofChar c)
      else if isNameStart c then some (Piece.name (c :: cs))
      else if escapeAhead (c :: cs) then some (Piece.stepBack 1 ++ Piece.name (c :: cs))
      else none

/-- The unit spelled canonically, and what it measures. -/
def measure (suffix : List Char) : List Char × Measure :=
  let known :=
    if suffix.length ≤ Measure.longestSuffix then Measure.ofSuffix? (String.ofList suffix) else none
  match known with
  | some (canonical, m) => (canonical.toList, m)
  | none => (suffix, .dimension)

/-- A number that starts with `c`, with its unit. -/
def number (c : Char) (cs : List Char) : Lexeme :=
  let more := digits (c == '.') cs
  let numeral := c :: more.1
  let after := cs.drop more.1.length
  match unit after with
  | some suffix =>
      let spelled := measure suffix.text
      ⟨.quantity spelled.2, Piece.ofText numeral ++ suffix.withText spelled.1⟩
  | none =>
      let probed := if after.head? == some '\\' then Piece.stepBack 1 else {}
      ⟨.quantity (if more.2 then .number else .integer), Piece.ofText numeral ++ probed⟩

/-! ## Comments, strings and addresses -/

/-- The text of a comment up to and including its end. -/
def commentBody : List Char → Piece
  | [] => Piece.fault 1 .lexicalEnd []
  | c :: cs =>
      if c == '*' && cs.head? == some '/' then Piece.silent 2
      else Piece.ofChar c ++ commentBody cs

/-- The text of a string up to and including its closing quotation mark. A backslash hides the
character behind it; before a line break both vanish. A bare line break ends the string with a
fault, and what follows is skipped up to the next terminator. -/
def stringBody (quote : Char) : List Char → Piece
  | [] => Piece.fault 1 .lexicalEnd []
  | c :: cs =>
      if isLineBreak c then
        ⟨[], 1 + distanceTo isTerminator (some c) cs,
          [.fault 1 .illegalChar [.phrase .newline, .phrase .stringToken]]⟩
      else if c == '\\' then
        match cs with
        | [] => Piece.ofChar c ++ Piece.fault 1 .lexicalEnd []
        | '\r' :: '\n' :: cs => Piece.silent 3 ++ stringBody quote cs
        | d :: cs =>
            if isLineBreak d then Piece.silent 2 ++ stringBody quote cs
            else Piece.ofText [c, d] ++ stringBody quote cs
      else if c == quote then Piece.silent 1
      else Piece.ofChar c ++ stringBody quote cs

/-- The text of an address without quotation marks, up to and including the parenthesis. A backslash
hides the character behind it and stays. -/
def bareAddress : List Char → Piece
  | [] => Piece.fault 1 .lexicalEnd []
  | c :: cs =>
      if c == ')' then Piece.silent 1
      else if c == '\\' then
        match cs with
        | [] => Piece.ofChar c ++ Piece.fault 2 .lexicalEnd []
        | d :: cs => Piece.ofText [c, d] ++ bareAddress cs
      else Piece.ofChar c ++ bareAddress cs

/-- The parenthesis behind a quoted address. If it is missing that is a fault, unless the address
has one already; for a wrong character the fault is at the character before it. -/
def addressClose (clean : Bool) : List Char → Piece
  | [] => if clean then Piece.fault 1 .lexicalEnd [] else {}
  | c :: _ =>
      if c == ')' then Piece.silent 1
      else if clean then Piece.fault 0 .illegalSyntax [.verbatim (String.singleton c)]
      else {}

/-- A quoted address behind its opening quotation mark. -/
def quotedAddress (quote : Char) (cs : List Char) : Piece :=
  let body := stringBody quote cs
  let after := cs.drop body.length
  let gap := (after.takeWhile isBlank).length
  body ++ Piece.silent gap ++ addressClose body.notes.isEmpty (after.drop gap)

/-- An address behind the opening parenthesis. Quotation marks become single ones, and blanks around
the address are dropped. -/
def address (cs : List Char) : Piece :=
  let gap := (cs.takeWhile isBlank).length
  match cs.drop gap with
  | [] => Piece.silent gap ++ Piece.fault 1 .lexicalEnd []
  | c :: rest =>
      if isQuote c then
        let body := quotedAddress c rest
        Piece.silent (gap + 1) ++ body.withText ('\x27' :: (body.text ++ ['\x27']))
      else
        let body := bareAddress (c :: rest)
        Piece.silent gap ++
          body.withText ((body.text.reverse.dropWhile isBlank).reverse)

/-- An address token behind its first letter. -/
def uri (cs : List Char) : Lexeme :=
  let opening := ['u', 'r', 'l', '(']
  let body := address (cs.drop 3)
  ⟨.uri, Piece.ofText opening ++ body.withText (body.text ++ [')'])⟩

/-! ## Unicode ranges -/

/-- The characters of a Unicode range behind `seen`, which is its text so far in reverse. A seventh
digit in a row is a fault. -/
def rangeBody (seen : List Char) (count : Nat) : List Char → Piece
  | [] => {}
  | c :: cs =>
      if isRangeChar c then
        let count := if c == '-' then 0 else count + 1
        let seen := c :: seen
        let notes :=
          if count == 7 then
            [Note.fault 1 .illegalUnicodeRange [.verbatim (String.ofList seen.reverse)]]
          else []
        (⟨[c], 1, notes⟩ : Piece) ++ rangeBody seen count cs
      else {}

/-- A Unicode range behind its first letter. -/
def range (cs : List Char) : Lexeme :=
  ⟨.unicodeRange, Piece.ofText ['U', '+'] ++ rangeBody ['+', 'U'] 0 (cs.drop 1)⟩

/-! ## Importance and operators -/

/-- The number of characters of the word `important` behind an exclamation mark, with the blanks
before it; absent if the word is not there. -/
def importantAhead (cs : List Char) : Option Nat :=
  let gap := (cs.takeWhile isBlank).length
  let word := ['i', 'm', 'p', 'o', 'r', 't', 'a', 'n', 't']
  if startsWord word (cs.drop gap) then some (gap + word.length) else none

/-- The operator that `c` makes with an equals sign behind it. -/
def operator (c : Char) (cs : List Char) : Option TokenKind :=
  if cs.head? == some '=' then
    match c with
    | '~' => some .includes
    | '|' => some .dashMatch
    | '^' => some .frontMatch
    | '$' => some .backMatch
    | '*' => some .substringMatch
    | _ => none
  else none

/-! ## All tokens -/

/-- A token of one spelling. -/
def fixed (kind : TokenKind) (text : List Char) : Lexeme := ⟨kind, Piece.ofText text⟩

/-- The token that starts with a character which starts no name. -/
def readSymbol (c : Char) (cs : List Char) : Lexeme :=
  if c == '<' && startsWord ['!', '-', '-'] cs then fixed .commentOpen ['<', '!', '-', '-']
  else if c == '/' && cs.head? == some '*' then
    ⟨.comment, Piece.silent 2 ++ commentBody cs.tail⟩
  else if isQuote c then ⟨.string, Piece.silent 1 ++ stringBody c cs⟩
  else if c == '#' && nameAhead cs then hashName cs
  else if c == '.' && nameAhead cs then className cs
  else
    match (if c == '!' then importantAhead cs else none) with
    | some n =>
        ⟨.important, (Piece.silent (n + 1)).withText
          ['!', 'i', 'm', 'p', 'o', 'r', 't', 'a', 'n', 't']⟩
    | none =>
        match operator c cs with
        | some kind => fixed kind [c, '=']
        | none => fixed .char [c]

/-- The token at the front of `c :: cs`, without the notes on telling it from a name. -/
def readBody (c : Char) (cs : List Char) : Lexeme :=
  if isBlank c then ⟨.space, (Piece.silent (1 + (cs.takeWhile isBlank).length)).withText [' ']⟩
  else if c == '-' && startsWord ['-', '>'] cs then fixed .commentClose ['-', '-', '>']
  else if wordAhead 'o' ['n', 'l', 'y'] c cs then fixed .only (c :: cs.take 3)
  else if wordAhead 'n' ['o', 't'] c cs then fixed .not (c :: cs.take 2)
  else if wordAhead 'a' ['n', 'd'] c cs then fixed .and (c :: cs.take 2)
  else if sameLetter c 'u' && startsWord ['r', 'l', '('] cs then uri cs
  else if sameLetter c 'u' && rangeAhead cs then range cs
  else if identAhead c cs then ident c cs
  else if c == '@' && atKeywordAhead cs then atKeyword cs
  else if numberAhead c cs then number c cs
  else readSymbol c cs

/-- The token at the front of `c :: cs`. -/
def read (c : Char) (cs : List Char) : Lexeme :=
  let body := readBody c cs
  { body with piece := { body.piece with notes := probe c cs ++ body.piece.notes } }

end Lexeme

end EpubStyle
