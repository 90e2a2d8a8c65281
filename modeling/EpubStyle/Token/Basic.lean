import EpubStyle.Problem.Code
import EpubStyle.Text.Location
import EpubStyle.Token.Measure

/-!
# Tokens

A token has a kind, the text that stands for it, the location of its first character and the lexical
faults found in it. The text is normalised: white space is one space, strings and comments come
without their delimiters, a quoted address has single quotes, and units are spelled canonically.

A `Fault` is an error at a location. A `Problem` is a fault together with the token that is to
blame, where there is one.
-/

namespace EpubStyle

/-- The kinds of token. -/
inductive TokenKind where
  /-- A run of white space. -/
  | space
  | comment
  /-- The opening `<!--`. -/
  | commentOpen
  /-- The closing `-->`. -/
  | commentClose
  | ident
  /-- An identifier with the parenthesis right behind it. -/
  | function
  | atKeyword
  | string
  | uri
  | hashName
  | className
  | unicodeRange
  /-- The operator `~=`. -/
  | includes
  /-- The operator `|=`. -/
  | dashMatch
  /-- The operator `^=`. -/
  | frontMatch
  /-- The operator `$=`. -/
  | backMatch
  /-- The operator `*=`. -/
  | substringMatch
  /-- A number with what it measures. -/
  | quantity (measure : Measure)
  /-- The word `only` of media queries. -/
  | only
  /-- The word `not` of media queries. -/
  | not
  /-- The word `and` of media queries. -/
  | and
  | important
  /-- Any other single character. -/
  | char
  deriving DecidableEq, Repr, Inhabited

namespace TokenKind

/-- The short name of a kind of token. -/
def name : TokenKind → String
  | space => "S"
  | comment => "COMMENT"
  | commentOpen => "CDO"
  | commentClose => "CDC"
  | ident => "IDENT"
  | function => "FUNCTION"
  | atKeyword => "ATKEYWORD"
  | string => "STRING"
  | uri => "URI"
  | hashName => "HASHNAME"
  | className => "CLASSNAME"
  | unicodeRange => "URANGE"
  | includes => "INCLUDES"
  | dashMatch => "DASHMATCH"
  | frontMatch => "PREFIXMATCH"
  | backMatch => "SUFFIXMATCH"
  | substringMatch => "SUBSTRINGMATCH"
  | quantity .dimension => "QNTY_DIMEN"
  | quantity .percentage => "QNTY_PERCENTAGE"
  | quantity .length => "QNTY_LENGTH"
  | quantity .ems => "QNTY_EMS"
  | quantity .exs => "QNTY_EXS"
  | quantity .angle => "QNTY_ANGLE"
  | quantity .time => "QNTY_TIME"
  | quantity .frequency => "QNTY_FREQ"
  | quantity .resolution => "QNTY_RESOLUTION"
  | quantity .rems => "QNTY_REMS"
  | quantity .number => "NUMBER"
  | quantity .integer => "INTEGER"
  | only => "ONLY"
  | not => "NOT"
  | and => "AND"
  | important => "IMPORTANT"
  | char => "CHAR"

end TokenKind

/-! ## Faults and problems -/

/-- An error at a location. -/
structure Fault where
  code : Code
  location : Location
  /-- The arguments of the message, in the order of the template. -/
  arguments : List Wording
  deriving DecidableEq, Repr, Inhabited

/-- A token of a style sheet. -/
structure Token where
  kind : TokenKind
  /-- The normalised text. -/
  text : String
  /-- The location of the first character. -/
  location : Location
  /-- The lexical faults found in this token. -/
  faults : List Fault
  deriving DecidableEq, Repr, Inhabited

/-- A fault with the token that is to blame. -/
structure Problem extends Fault where
  token : Option Token
  deriving DecidableEq, Repr, Inhabited

namespace Fault

/-- The message of a fault. -/
def message (f : Fault) (locale : Locale) : String :=
  f.code.message locale (f.arguments.map (Wording.text locale))

/-- The message followed by the location in parentheses. -/
def display (f : Fault) (locale : Locale) : String :=
  f.message locale ++ " (" ++ f.location.display ++ ")"

/-- A fault for which no token is to blame. -/
def toProblem (f : Fault) : Problem := { f with token := none }

end Fault

namespace Problem

/-- The token `t` is not allowed where it stands. -/
def unexpected (t : Token) : Problem where
  code := .unexpectedToken
  location := t.location
  arguments := [.verbatim t.text]
  token := some t

/-- The token `t` stands where something else must stand. -/
def expecting (t : Token) (what : Wording) : Problem where
  code := .expectingToken
  location := t.location
  arguments := [.verbatim t.text, what]
  token := some t

/-- The input ends behind `location` where something must still come. -/
def premature (location : Location) (what : Wording) : Problem where
  code := .grammaticalEnd
  location := location
  arguments := [what]
  token := none

end Problem

/-! ## Operations on tokens -/

namespace Token

/-- The token is the single character `c`. -/
def isChar (t : Token) (c : Char) : Bool :=
  t.kind == .char && t.text.toList == [c]

/-- The token is one of the single characters `cs`. -/
def isOneOf (t : Token) (cs : List Char) : Bool :=
  cs.any t.isChar

/-- The character of a single-character token. -/
def char? (t : Token) : Option Char :=
  if t.kind == .char then t.text.toList.head? else none

/-- The token is white space or a comment. -/
def isBlank (t : Token) : Bool :=
  t.kind == .space || t.kind == .comment

/-- The kind and the text, as diagnostics for people show them. -/
def display (t : Token) : String :=
  t.kind.name ++ " '" ++ t.text ++ "'"

end Token

/-! ## Attribute match operators -/

/-- The operators between the name and the value of an attribute selector. -/
inductive MatchOperator where
  | equals
  | includes
  | dashMatch
  | frontMatch
  | backMatch
  | substringMatch
  deriving DecidableEq, Repr, Inhabited

namespace MatchOperator

/-- The spelling of an operator. -/
def spelling : MatchOperator → String
  | equals => "="
  | includes => "~="
  | dashMatch => "|="
  | frontMatch => "^="
  | backMatch => "$="
  | substringMatch => "*="

/-- The operator that a token is. -/
def ofToken? (t : Token) : Option MatchOperator :=
  match t.kind with
  | .includes => some includes
  | .dashMatch => some dashMatch
  | .frontMatch => some frontMatch
  | .backMatch => some backMatch
  | .substringMatch => some substringMatch
  | .char => if t.isChar '=' then some equals else none
  | _ => none

end MatchOperator

/-! ## Classes of tokens -/

/-- A class of tokens, given by its test. -/
abbrev TokenClass := Token → Bool

namespace TokenClass

/-- A semicolon or an opening brace. -/
def semicolonOrOpenBrace : TokenClass := fun t => t.isOneOf [';', '{']

/-- A semicolon or a closing brace. -/
def semicolonOrCloseBrace : TokenClass := fun t => t.isOneOf [';', '}']

/-- A comma or an opening brace. -/
def commaOrOpenBrace : TokenClass := fun t => t.isOneOf [',', '{']

/-- A colon. -/
def colon : TokenClass := fun t => t.isChar ':'

/-- A vertical bar. -/
def bar : TokenClass := fun t => t.isChar '|'

/-- A semicolon. -/
def semicolon : TokenClass := fun t => t.isChar ';'

/-- A comma. -/
def comma : TokenClass := fun t => t.isChar ','

/-- An opening brace. -/
def openBrace : TokenClass := fun t => t.isChar '{'

/-- A closing brace. -/
def closeBrace : TokenClass := fun t => t.isChar '}'

/-- An opening parenthesis. -/
def openParenthesis : TokenClass := fun t => t.isChar '('

/-- A closing parenthesis. -/
def closeParenthesis : TokenClass := fun t => t.isChar ')'

/-- An opening bracket. -/
def openBracket : TokenClass := fun t => t.isChar '['

/-- A closing bracket. -/
def closeBracket : TokenClass := fun t => t.isChar ']'

/-- A star. -/
def star : TokenClass := fun t => t.isChar '*'

/-- A star or a vertical bar. -/
def starOrBar : TokenClass := fun t => t.isOneOf ['*', '|']

/-- A character that writes a combinator. -/
def combinator : TokenClass := fun t => t.isOneOf ['>', '+', '~']

/-- A string or an identifier. -/
def stringOrIdent : TokenClass := fun t => t.kind == .string || t.kind == .ident

/-- An operator of attribute selectors. -/
def attributeMatch : TokenClass := fun t => (MatchOperator.ofToken? t).isSome

/-- Every token that is neither white space nor a comment. -/
def significant : TokenClass := fun t => !t.isBlank

/-- The tokens that may start a statement outside every block: comment delimiters do not. -/
def topLevel : TokenClass :=
  fun t => !t.isBlank && t.kind != .commentOpen && t.kind != .commentClose

/-- Every token. -/
def all : TokenClass := fun _ => true

end TokenClass

end EpubStyle
