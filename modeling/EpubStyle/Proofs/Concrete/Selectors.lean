import EpubStyle.Grammar.Selecting
import EpubStyle.Proofs.Concrete.Tokens

/-!
# Selectors as they are written

Trees that hold the tokens of a list of selectors in order. From the inside out: the name of a type
(`TypeName`), a simple selector that is no negation (`Plain`), any simple selector (`Simple`), the
members of a sequence (`Members`), the sequences with their combinators (`LinkedSelector`), and the
list (`SelectorList`). What comes before the last sequence of a selector is its `Lead`, what comes
before the last selector of a list is its `Earlier`; both may be empty.

The conditions of the grammar are part of the trees: a type selector is the first member of its
sequence, a negation holds a simple selector that it permits, and a `Legal` selector has at most one
pseudo-element, in its last sequence.
-/

set_option autoImplicit false

namespace EpubStyle

namespace Concrete

/-! ## Simple selectors -/

/-- An identifier or a star. -/
abbrev NameOrStar := { t : Token // t.kind = .ident ∨ t.isChar '*' = true }

/-- The name of an element type or an attribute. -/
inductive TypeName : Type
  | plain (t : NameOrStar)
  /-- A name in no namespace, behind a bar. -/
  | bare (bar : Mark '|') (t : Word .ident)
  | qualified (space : NameOrStar) (bar : Mark '|') (t : NameOrStar)

namespace TypeName

/-- The first token. -/
def first : TypeName → Token
  | plain t => t.1
  | bare bar _ => bar.1
  | qualified space _ _ => space.1

/-- The tokens behind the first. -/
def rest : TypeName → List Token
  | plain _ => []
  | bare _ t => [t.1]
  | qualified _ bar t => [bar.1, t.1]

/-- The text of the type selector. -/
def text : TypeName → String
  | plain t => t.1.text
  | bare _ t => "|" ++ t.1.text
  | qualified space _ t => space.1.text ++ "|" ++ t.1.text

/-- All tokens. -/
def tokens (n : TypeName) : List Token := n.first :: n.rest

/-- The type selector. -/
def construct (n : TypeName) : Construct := .atom .typeSelector n.text n.first.location

end TypeName

/-- The operator and the value of an attribute selector, with what separates them. -/
structure AttributeTest where
  operator : Token
  matching : MatchOperator
  isOperator : MatchOperator.ofToken? operator = some matching
  gap : Gap
  value : Token
  construct : Construct
  isValue : value.valueStart = .atom construct
  permitted : Context.attributeValue.permits construct = true
  after : Gap

namespace AttributeTest

/-- The tokens of a test. -/
def tokens (a : AttributeTest) : List Token :=
  a.operator :: (a.gap.1 ++ a.value :: a.after.1)

/-- The operator and the value. -/
def parts (a : AttributeTest) : List Construct :=
  [.matching a.matching a.operator.location, a.construct]

end AttributeTest

/-- The colons before the name of a pseudo selector. -/
inductive Colons : Type
  | one (colon : Mark ':')
  | two (colon second : Mark ':')

namespace Colons

/-- The first colon. -/
def first : Colons → Token
  | one colon | two colon _ => colon.1

/-- The second colon, if there is one. -/
def rest : Colons → List Token
  | one _ => []
  | two _ second => [second.1]

/-- The kind of pseudo selector. -/
def kind : Colons → PseudoKind
  | one _ => .pseudoClass
  | two _ _ => .pseudoElement

/-- What a reader knows of a pseudo selector behind its colons. -/
def head (c : Colons) : PseudoHead := ⟨c.kind, c.first.location⟩

end Colons

/-- The arguments of a pseudo selector, with what separates them. -/
inductive Arguments : Type
  | nil
  | blank (before : Arguments) (t : Token) (fits : t.isBlank = true)
  | atom (before : Arguments) (t : Token) (c : Construct) (fits : t.valueStart = .atom c)
      (permitted : Context.pseudoArgument.permits c = true) (goes : t.isChar ')' = false)

namespace Arguments

/-- The tokens of the arguments. -/
def tokens : Arguments → List Token
  | nil => []
  | blank before t _ | atom before t _ _ _ _ => before.tokens ++ [t]

/-- The arguments, latest first. -/
def latest : Arguments → List Construct
  | nil => []
  | blank before _ _ => before.latest
  | atom before _ c _ _ _ => c :: before.latest

end Arguments

/-- A simple selector that is no negation. -/
inductive Plain : Type
  | type (n : TypeName)
  | hashName (t : Word .hashName)
  | className (t : Word .className)
  | percentage (t : Word (.quantity .percentage))
  | attributed (bracket : Mark '[') (before : Gap) (name : TypeName) (after : Gap)
      (test : Option AttributeTest) (closer : Mark ']')
  | pseudo (colons : Colons) (name : Word .ident)
  | functional (colons : Colons) (f : Word .function) (notNegation : f.1.functionName ≠ "not")
      (arguments : Arguments) (closer : Mark ')')

namespace Plain

/-- The first token. -/
def first : Plain → Token
  | type n => n.first
  | hashName t | className t | percentage t => t.1
  | attributed bracket _ _ _ _ _ => bracket.1
  | pseudo colons _ | functional colons _ _ _ _ => colons.first

/-- The tokens behind the first. -/
def rest : Plain → List Token
  | type n => n.rest
  | hashName _ | className _ | percentage _ => []
  | attributed _ before name after test closer =>
      before.1 ++ (name.tokens ++ (after.1 ++ ((test.map AttributeTest.tokens).getD [] ++
        [closer.1])))
  | pseudo colons name => colons.rest ++ [name.1]
  | functional colons f _ arguments closer =>
      colons.rest ++ f.1 :: (arguments.tokens ++ [closer.1])

/-- All tokens. -/
def tokens (p : Plain) : List Token := p.first :: p.rest

/-- The simple selector. -/
def construct : Plain → Construct
  | type n => n.construct
  | hashName t => .atom .hashName t.1.text t.1.location
  | className t => .atom .className t.1.text t.1.location
  | percentage t => .quantity t.1.text .percentage t.1.location
  | attributed bracket _ name _ test _ =>
      .attributeSelector (name.construct :: (test.map AttributeTest.parts).getD [])
        bracket.1.location
  | pseudo colons name =>
      .pseudo colons.kind (colons.kind.colons ++ name.1.text) colons.first.location
  | functional colons f _ arguments _ =>
      .pseudoFunction colons.kind (colons.kind.colons ++ f.1.functionName)
        arguments.latest.reverse colons.first.location

end Plain

/-- A simple selector. -/
inductive Simple : Type
  | plain (p : Plain)
  | negation (colons : Colons) (f : Word .function) (isNegation : f.1.functionName = "not")
      (before : Gap) (argument : Plain)
      (permitted : Context.negation.permits argument.construct = true) (after : Gap)
      (closer : Mark ')')

namespace Simple

/-- The first token. -/
def first : Simple → Token
  | plain p => p.first
  | negation colons _ _ _ _ _ _ _ => colons.first

/-- The tokens behind the first. -/
def rest : Simple → List Token
  | plain p => p.rest
  | negation colons f _ before argument _ after closer =>
      colons.rest ++ f.1 :: (before.1 ++ (argument.tokens ++ (after.1 ++ [closer.1])))

/-- All tokens. -/
def tokens (s : Simple) : List Token := s.first :: s.rest

/-- The simple selector. -/
def construct : Simple → Construct
  | plain p => p.construct
  | negation colons _ _ _ argument _ _ _ =>
      .pseudoFunction colons.kind (colons.kind.colons ++ "not") [argument.construct]
        colons.first.location

end Simple

/-! ## Sequences -/

/-- The members of a sequence; a type selector can only be the first. -/
inductive Members : Type
  | one (s : Simple)
  | more (before : Members) (s : Simple) (notType : s.construct.isTypeSelector = false)

namespace Members

/-- The first token. -/
def first : Members → Token
  | one s => s.first
  | more before _ _ => before.first

/-- The tokens behind the first. -/
def rest : Members → List Token
  | one s => s.rest
  | more before s _ => before.rest ++ s.tokens

/-- All tokens. -/
def tokens (m : Members) : List Token := m.first :: m.rest

/-- The members, latest first. -/
def latest : Members → List Construct
  | one s => [s.construct]
  | more before s _ => s.construct :: before.latest

/-- The sequence. -/
def sequence (m : Members) : Construct := .sequence m.latest.reverse m.first.location

end Members

/-! ## Selectors -/

/-- A combinator with what separates it from the sequences around it. -/
inductive Link : Type
  /-- White space right behind the sequence before, and nothing else. -/
  | descendant (space : Word .space) (after : Gap)
  | written (before : Gap) (c : Char) (k : Combinator)
      (isCombinator : Combinator.ofChar? c = some k) (t : Mark c) (after : Gap)

namespace Link

/-- The tokens of a combinator. -/
def tokens : Link → List Token
  | descendant space after => space.1 :: after.1
  | written before _ _ _ t after => before.1 ++ t.1 :: after.1

/-- The combinator before a sequence that starts at `next`. -/
def construct (next : Location) : Link → Construct
  | descendant _ _ => .combinator .descendant next
  | written _ _ k _ t _ => .combinator k t.1.location

end Link

/-- The sequences of a selector that have a combinator behind them. -/
inductive Lead : Type
  | start
  | link (before : Lead) (m : Members) (l : Link)

namespace Lead

/-- All tokens. -/
def tokens : Lead → List Token
  | start => []
  | link before m l => before.tokens ++ (m.tokens ++ l.tokens)

/-- The sequences and combinators before a sequence that starts at `next`, latest first. -/
def components (next : Location) : Lead → List Construct
  | start => []
  | link before m l =>
      l.construct next :: m.sequence :: before.components m.first.location

/-- Where a selector starts whose last sequence starts at `next`. -/
def location (next : Location) : Lead → Location
  | start => next
  | link before m _ => before.location m.first.location

end Lead

/-- A selector with any pseudo-elements. -/
structure LinkedSelector where
  lead : Lead
  last : Members

namespace LinkedSelector

/-- All tokens. -/
def tokens (c : LinkedSelector) : List Token := c.lead.tokens ++ c.last.tokens

/-- The sequences and combinators, latest first. -/
def components (c : LinkedSelector) : List Construct :=
  c.last.sequence :: c.lead.components c.last.first.location

/-- The selector. -/
def selector (c : LinkedSelector) : Selector :=
  ⟨c.components.reverse, c.lead.location c.last.first.location⟩

end LinkedSelector

/-- A selector with at most one pseudo-element, in its last sequence. -/
abbrev Legal := { c : LinkedSelector // c.selector.pseudoElementFault? = none }

/-- The selectors of a list that have a comma behind them. -/
inductive Earlier : Type
  | start
  | comma (before : Earlier) (s : Legal) (gap : Gap) (t : Mark ',') (after : Gap)

namespace Earlier

/-- All tokens. -/
def tokens : Earlier → List Token
  | start => []
  | comma before s gap t after => before.tokens ++ (s.1.tokens ++ (gap.1 ++ t.1 :: after.1))

/-- The selectors, latest first. -/
def latest : Earlier → List Selector
  | start => []
  | comma before s _ _ _ => s.1.selector :: before.latest

end Earlier

/-- The selectors of a rule set, up to its opening brace. -/
structure SelectorList where
  earlier : Earlier
  last : Legal
  gap : Gap

namespace SelectorList

/-- All tokens. -/
def tokens (l : SelectorList) : List Token :=
  l.earlier.tokens ++ (l.last.1.tokens ++ l.gap.1)

/-- The selectors. -/
def selectors (l : SelectorList) : List Selector :=
  (l.last.1.selector :: l.earlier.latest).reverse

end SelectorList

end Concrete

end EpubStyle
