import EpubStyle.Token.Basic

/-!
# Constructs

A `Construct` is what the grammar builds from tokens: an atom from a single token, or a composed
construct with its members in source order. Each knows the location of its first token. Selectors,
declarations and at-rules also exist as structures of their own, since they are what an event
carries; each of them is a construct through `toConstruct`.
-/

namespace EpubStyle

/-- The constructs that are a single piece of text. -/
inductive AtomKind where
  /-- A quoted string; the text has no quotation marks. -/
  | string
  /-- An identifier, or one of the words of media queries. -/
  | keyword
  | hashName
  | className
  | unicodeRange
  /-- An address with its `url` and parentheses. -/
  | uri
  /-- A single character without a structural meaning where it stands. -/
  | symbol
  /-- The name of an element type, or a star, with an optional namespace. -/
  | typeSelector
  deriving DecidableEq, Repr, Inhabited

/-- The relation between two sequences of simple selectors. -/
inductive Combinator where
  | descendant
  | child
  | adjacent
  | general
  deriving DecidableEq, Repr, Inhabited

namespace Combinator

/-- The combinator that a character writes. -/
def ofChar? : Char → Option Combinator
  | '>' => some child
  | '+' => some adjacent
  | '~' => some general
  | _ => none

/-- The spelling of a combinator, a single space for a descendant. -/
def spelling : Combinator → String
  | descendant => " "
  | child => ">"
  | adjacent => "+"
  | general => "~"

end Combinator

/-- The delimiters of a group. -/
inductive Delimiter where
  | parenthesis
  | bracket
  deriving DecidableEq, Repr, Inhabited

namespace Delimiter

/-- The spelling of the opening delimiter. -/
def opening : Delimiter → String
  | parenthesis => "("
  | bracket => "["

/-- The spelling of the closing delimiter. -/
def closing : Delimiter → String
  | parenthesis => ")"
  | bracket => "]"

end Delimiter

/-- Pseudo-elements have two colons and pseudo-classes one. -/
inductive PseudoKind where
  | pseudoElement
  | pseudoClass
  deriving DecidableEq, Repr, Inhabited

namespace PseudoKind

/-- The colons before the name. -/
def colons : PseudoKind → String
  | pseudoElement => "::"
  | pseudoClass => ":"

end PseudoKind

/-- What the grammar builds from tokens. -/
inductive Construct where
  | atom (kind : AtomKind) (value : String) (location : Location)
  | combinator (kind : Combinator) (location : Location)
  /-- The operator of an attribute selector. -/
  | matching (operator : MatchOperator) (location : Location)
  | quantity (value : String) (measure : Measure) (location : Location)
  | atRule (name : String) (parameters : List Construct) (hasBlock : Bool) (location : Location)
  /-- A function with its name in lower case. -/
  | function (name : String) (arguments : List Construct) (location : Location)
  | declaration (name : String) (value : List Construct) (important : Bool) (location : Location)
  /-- Sequences of simple selectors with combinators between them. -/
  | selector (components : List Construct) (location : Location)
  /-- Simple selectors with nothing between them. -/
  | sequence (components : List Construct) (location : Location)
  | attributeSelector (components : List Construct) (location : Location)
  | group (delimiter : Delimiter) (components : List Construct) (location : Location)
  /-- A pseudo-element or pseudo-class without arguments; the name includes the colons. -/
  | pseudo (kind : PseudoKind) (name : String) (location : Location)
  /-- A pseudo-element or pseudo-class with arguments; the name includes the colons. -/
  | pseudoFunction (kind : PseudoKind) (name : String) (arguments : List Construct)
      (location : Location)
  deriving Repr, Inhabited

/-- A property with its value. -/
structure Declaration where
  /-- The name in lower case. -/
  name : String
  value : List Construct
  important : Bool
  /-- The location of the name. -/
  location : Location
  deriving Repr, Inhabited

/-- An at-rule up to its block or its end. -/
structure AtRule where
  /-- The name in lower case, with the at sign. -/
  name : String
  parameters : List Construct
  hasBlock : Bool
  /-- The location of the name. -/
  location : Location
  deriving Repr, Inhabited

/-- A selector of a rule set. -/
structure Selector where
  /-- Sequences and combinators in turn. -/
  components : List Construct
  /-- The location of the first token. -/
  location : Location
  deriving Repr, Inhabited

/-- A declaration is a construct. -/
def Declaration.toConstruct (d : Declaration) : Construct :=
  .declaration d.name d.value d.important d.location

/-- An at-rule is a construct. -/
def AtRule.toConstruct (r : AtRule) : Construct :=
  .atRule r.name r.parameters r.hasBlock r.location

/-- A selector is a construct. -/
def Selector.toConstruct (s : Selector) : Construct :=
  .selector s.components s.location

namespace Construct

/-- The location of the first token. -/
def location : Construct → Location
  | atom _ _ l | combinator _ l | matching _ l | quantity _ _ l | atRule _ _ _ l
  | function _ _ l | declaration _ _ _ l | selector _ l | sequence _ l | attributeSelector _ l
  | group _ _ l | pseudo _ _ l | pseudoFunction _ _ _ l => l

/-- The construct is the keyword `word`, in any case. -/
def isKeyword (c : Construct) (word : String) : Bool :=
  match c with
  | atom .keyword value _ => Text.sameText value word
  | _ => false

/-- The construct is the symbol `x`. -/
def isSymbol (c : Construct) (x : Char) : Bool :=
  match c with
  | atom .symbol value _ => value.toList == [x]
  | _ => false

/-- The construct is a type selector. -/
def isTypeSelector : Construct → Bool
  | atom .typeSelector _ _ => true
  | _ => false

/-- The construct is a pseudo-element. -/
def isPseudoElement : Construct → Bool
  | pseudo .pseudoElement _ _ | pseudoFunction .pseudoElement _ _ _ => true
  | _ => false

/-- The construct is a negation, `:not` with an argument. -/
def isNegation : Construct → Bool
  | pseudoFunction _ name _ _ => Text.sameText name ":not"
  | _ => false

/-- The text behind the first `n` bytes, if they are whole characters. -/
def dropBytes : Nat → List Char → Option (List Char)
  | 0, cs => some cs
  | _ + 1, [] => none
  | n + 1, c :: cs => if c.utf8Size ≤ n + 1 then dropBytes (n + 1 - c.utf8Size) cs else none

/-- The address of a `url` construct: the text behind the four bytes of its opening and before the
one of its parenthesis, without quotation marks and blanks at either end. It is empty if the text
has no such opening and parenthesis. -/
def address (value : String) : String :=
  match dropBytes 4 value.toList with
  | none => ""
  | some cs =>
      if cs.getLast?.any (fun c => c.utf8Size == 1) then
        String.ofList (Text.trimBy (fun c => Text.isQuote c || Text.isBlank c) cs.dropLast)
      else ""

/-- The members of a sequence of simple selectors. -/
def sequenceMembers? : Construct → Option (List Construct)
  | sequence components _ => some components
  | _ => none

end Construct

namespace Selector

/-- The sequences of simple selectors, each as the list of its members. -/
def sequences (s : Selector) : List (List Construct) :=
  s.components.filterMap Construct.sequenceMembers?

end Selector

end EpubStyle
