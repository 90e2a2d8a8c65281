import EpubStyle.Construct.Basic
import EpubStyle.Token.Walk

/-!
# Building values from tokens

Values nest: functions and groups hold further values. They are built one token at a time with a
stack of those that are open. `Nesting.start` looks at the first token of a value: it is an atom and
complete at once, it opens a function or group, or it starts no value. `Nesting.step` gives a token
to the innermost open function or group.

A `Context` says which constructs a place takes; it may be any test, and the places of the grammar
have one each. Members of the outermost function or group must suit the context of the value itself;
deeper ones only that of function arguments. A limit is a class of tokens that end the surrounding
statement, so a value in which one turns up cannot be built.

`Construct.build` runs the stack over the tokens of a walk.
-/

namespace EpubStyle

/-- A place in the grammar, by the constructs that it takes. -/
structure Context where
  /-- The construct is allowed in the context. -/
  permits : Construct → Bool

namespace Context

/-- Arguments of functions are anything but at-rules. -/
def functionArgument : Context where
  permits
    | .atRule .. => false
    | _ => true

/-- Values of properties are anything but at-rules. -/
def propertyValue : Context where
  permits
    | .atRule .. => false
    | _ => true

/-- Parameters of at-rules are anything. -/
def atRuleParameter : Context where
  permits _ := true

/-- The value that an attribute is compared with is a word or a string. -/
def attributeValue : Context where
  permits
    | .atom .keyword _ _ | .atom .string _ _ => true
    | _ => false

/-- Arguments of pseudo-classes are words, strings, numbers and signs. -/
def pseudoArgument : Context where
  permits
    | .atom .keyword _ _ | .atom .string _ _ | .quantity .. => true
    | c => c.isSymbol '+' || c.isSymbol '-'

/-- The argument of a negation is a simple selector that is no negation itself. -/
def negation : Context where
  permits
    | .atom .typeSelector _ _ | .atom .hashName _ _ | .atom .className _ _ => true
    | .attributeSelector .. | .pseudo .pseudoClass _ _ => true
    | .pseudoFunction .pseudoClass name arguments l =>
        !(Construct.pseudoFunction .pseudoClass name arguments l).isNegation
    | _ => false

/-- The contexts of the grammar. -/
def all : List Context :=
  [functionArgument, propertyValue, atRuleParameter, attributeValue, pseudoArgument, negation]

end Context

/-! ## Single tokens -/

/-- The name of a function token, in lower case and without the parenthesis. -/
def Token.functionName (t : Token) : String :=
  let cs := t.text.toList
  Text.lowerCase (String.ofList (if cs.getLast? == some '(' then cs.dropLast else cs))

/-- What the first token of a value is. -/
inductive ValueStart where
  | atom (c : Construct)
  | function (name : String)
  | group (delimiter : Delimiter)
  /-- The token starts no value. -/
  | nothing
  deriving Repr, Inhabited

/-- What a token is at the start of a value. -/
def Token.valueStart (t : Token) : ValueStart :=
  let atom (kind : AtomKind) := ValueStart.atom (.atom kind t.text t.location)
  match t.kind with
  | .ident | .and | .not | .only => atom .keyword
  | .uri => atom .uri
  | .string => atom .string
  | .unicodeRange => atom .unicodeRange
  | .hashName => atom .hashName
  | .className => atom .className
  | .quantity m => .atom (.quantity t.text m t.location)
  | .function => .function t.functionName
  | .char =>
      match t.text.toList.head? with
      | none | some '{' | some '}' | some ';' => .nothing
      | some '(' => .group .parenthesis
      | some '[' => .group .bracket
      | some _ => atom .symbol
  | _ => .nothing

/-! ## Open functions and groups -/

/-- What a function or group was opened by. -/
inductive Opening where
  | function (name : String)
  | group (delimiter : Delimiter)
  deriving DecidableEq, Repr, Inhabited

/-- An open function or group. -/
structure Frame where
  opening : Opening
  /-- The location of the token that opened it. -/
  location : Location
  /-- The members read so far, latest first. -/
  members : List Construct
  deriving Repr, Inhabited

namespace Frame

/-- The token closes the function or group. -/
def closedBy (f : Frame) (t : Token) : Bool :=
  match f.opening with
  | .function _ => t.isChar ')'
  | .group .parenthesis => t.isChar ')'
  | .group .bracket => t.isChar ']'

/-- The function or group once it is closed. -/
def close (f : Frame) : Construct :=
  match f.opening with
  | .function name => .function name f.members.reverse f.location
  | .group delimiter => .group delimiter f.members.reverse f.location

/-- One more member. -/
def push (f : Frame) (c : Construct) : Frame := { f with members := c :: f.members }

end Frame

/-- The open functions and groups of a value: the innermost one and those around it. -/
structure Nesting where
  inner : Frame
  outer : List Frame
  deriving Repr, Inhabited

/-- What a token does to a value. -/
inductive Building where
  /-- The value ends with this token. -/
  | complete (c : Construct)
  /-- A function or group is still open. -/
  | pending (n : Nesting)
  /-- No value can be built here. -/
  | rejected
  deriving Repr, Inhabited

namespace Nesting

/-- The context that members of the innermost function or group must suit. -/
def memberContext (context : Context) (n : Nesting) : Context :=
  if n.outer.isEmpty then context else .functionArgument

/-- Take a construct into the innermost function or group. -/
def place (context : Context) (n : Nesting) (c : Construct) : Building :=
  if (n.memberContext context).permits c then .pending { n with inner := n.inner.push c }
  else .rejected

/-- Give the first token of a value. -/
def start (context : Context) (t : Token) : Building :=
  match t.valueStart with
  | .atom c => if context.permits c then .complete c else .rejected
  | .function name => .pending ⟨⟨.function name, t.location, []⟩, []⟩
  | .group delimiter => .pending ⟨⟨.group delimiter, t.location, []⟩, []⟩
  | .nothing => .rejected

/-- Open a function or group inside the innermost one. -/
def nest (n : Nesting) (opening : Opening) (location : Location) : Nesting :=
  ⟨⟨opening, location, []⟩, n.inner :: n.outer⟩

/-- Close the innermost function or group. -/
def close (context : Context) (n : Nesting) : Building :=
  match n.outer with
  | [] => if context.permits n.inner.close then .complete n.inner.close else .rejected
  | f :: outer => place context ⟨f, outer⟩ n.inner.close

/-- Give one more token to a value with open functions or groups. -/
def step (context : Context) (limit : TokenClass) (n : Nesting) (t : Token) : Building :=
  if n.inner.closedBy t then n.close context
  else if limit t then .rejected
  else
    match t.valueStart with
    | .atom c => n.place context c
    | .function name => .pending (n.nest (.function name) t.location)
    | .group delimiter => .pending (n.nest (.group delimiter) t.location)
    | .nothing => .rejected

/-- Run a value with open functions or groups over the significant tokens ahead, behind the tokens
`passed`. The value is absent if none can be built. If the tokens run out first there is no answer,
and the walk stays at `here`, behind the last significant token. -/
def run (context : Context) (limit : TokenClass) (n : Nesting) (here : Walk)
    (passed : List Token) : List Token → Option (Option Construct) × Walk
  | [] => (none, here)
  | t :: ahead =>
      if t.isBlank then n.run context limit here (t :: passed) ahead
      else
        match n.step context limit t with
        | .complete c => (some (some c), ⟨t :: passed, ahead⟩)
        | .rejected => (some none, ⟨t :: passed, ahead⟩)
        | .pending n' => n'.run context limit ⟨t :: passed, ahead⟩ (t :: passed) ahead

end Nesting

/-- Build the value that starts with the token `start`, from the tokens of a walk. The value is
absent if none can be built. There is no answer if the tokens run out first. -/
def Construct.build (context : Context) (limit : TokenClass) (start : Token) (w : Walk) :
    Option (Option Construct) × Walk :=
  match Nesting.start context start with
  | .complete c => (some (some c), w)
  | .rejected => (some none, w)
  | .pending n => n.run context limit w w.passed w.ahead

end EpubStyle
