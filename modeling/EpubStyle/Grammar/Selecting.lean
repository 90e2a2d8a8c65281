import EpubStyle.Construct.Nesting
import EpubStyle.Construct.Printer

/-!
# Selectors in the making

The selectors of a rule set are read one token at a time, up to its opening brace. A `Selecting`
holds the selectors that are finished, the sequences and combinators of the current one, the members
of the current sequence, and the negations that are open. Its phase says what may come next.

Some things are decided by the token behind them: a type selector ends where no bar follows, and a
leading bar must have an identifier right behind it. `Selecting.settle` decides these before the
token itself is taken, so that it can take its place in whatever comes next. `Selecting.step` then
takes the token.

White space and comments separate, so most phases skip them. The exceptions are the phases inside a
sequence and inside the name of a type or pseudo selector (`Phase.isTight`).
-/

namespace EpubStyle

/-- How far a type selector has been read. -/
inductive TypePhase where
  /-- A name or a star; a bar would make it a namespace. -/
  | name (text : String)
  /-- A bar with no namespace; a name must follow. -/
  | bar
  /-- A namespace and its bar; a name or a star must follow. -/
  | qualified (text : String)
  deriving DecidableEq, Repr, Inhabited

/-- What a type selector is read for. -/
inductive TypeUse where
  /-- A simple selector. -/
  | simple
  /-- The name of an attribute, behind the bracket at this location. -/
  | attribute (bracket : Location)
  deriving DecidableEq, Repr, Inhabited

/-- A pseudo selector whose colons have been read, or the first of them. -/
structure PseudoHead where
  kind : PseudoKind
  /-- The location of the first colon. -/
  location : Location
  deriving DecidableEq, Repr, Inhabited

/-- What may come next in a list of selectors. -/
inductive SelectorPhase where
  /-- A sequence must start with the next token. -/
  | opening
  /-- A sequence may go on right here. -/
  | member
  /-- A sequence has ended, with white space right behind it or not. -/
  | between (spaced : Bool)
  /-- A type selector that starts with the token `start`. -/
  | typing (phase : TypePhase) (start : Token) (use : TypeUse)
  /-- The name of an attribute. -/
  | attributeName (bracket : Location)
  /-- An operator, or the bracket that closes the attribute selector. -/
  | attributeOperator (bracket : Location) (name : Construct)
  /-- The value of an attribute. -/
  | attributeValue (bracket : Location) (parts : List Construct)
  /-- A function or group that stands for the value of an attribute and starts with `start`. -/
  | attributeNested (bracket : Location) (parts : List Construct) (start : Token) (n : Nesting)
  /-- The bracket that closes the attribute selector. -/
  | attributeClose (bracket : Location) (parts : List Construct)
  /-- The name of a pseudo selector, or its second colon. -/
  | pseudo (head : PseudoHead)
  /-- Arguments of a pseudo selector, latest first. -/
  | arguments (head : PseudoHead) (name : String) (members : List Construct)
  /-- A function or group among the arguments of a pseudo selector. -/
  | argumentNested (head : PseudoHead) (name : String) (members : List Construct) (n : Nesting)
  /-- The argument of the innermost negation. -/
  | negated
  /-- The parenthesis that closes the innermost negation. -/
  | negationClose (argument : Construct)
  deriving Repr, Inhabited

namespace SelectorPhase

/-- White space and comments matter in this phase. -/
def isTight : SelectorPhase → Bool
  | member | typing .. | pseudo _ => true
  | _ => false

end SelectorPhase

/-- The selectors of a rule set, read up to some point. -/
structure Selecting where
  /-- The selectors that are finished, latest first. -/
  finished : List Selector
  /-- The location of the current selector. -/
  location : Location
  /-- The sequences and combinators of the current selector, latest first. -/
  components : List Construct
  /-- The members of the current sequence, latest first. -/
  sequence : List Construct
  /-- The location of the current sequence. -/
  sequenceStart : Location
  /-- The negations that are open, innermost first. -/
  negations : List PseudoHead
  phase : SelectorPhase
  deriving Repr, Inhabited

/-- What a token does to a list of selectors. -/
inductive SelectingStep where
  | pending (s : Selecting)
  /-- The token opens the block. -/
  | complete (list : List Selector)
  | rejected (p : Problem)
  deriving Repr, Inhabited

/-! ## Pseudo-elements -/

namespace Selector

/-- What is wrong with the pseudo-elements of a selector: more than one, or one that is not in the
last sequence. -/
def pseudoElementFault? (s : Selector) : Option Phrase :=
  if 1 < s.sequences.flatten.countP Construct.isPseudoElement then some .multiplePseudoElements
  else if s.sequences.dropLast.any (fun members => members.any Construct.isPseudoElement) then
    some .misplacedPseudoElement
  else none

end Selector

namespace Selecting

/-- Before the first selector of a rule set that starts at `location`. -/
def ofLocation (location : Location) : Selecting :=
  ⟨[], location, [], [], location, [], .opening⟩

/-- The same selectors in another phase. -/
def enter (s : Selecting) (phase : SelectorPhase) : SelectingStep :=
  .pending { s with phase := phase }

/-- A finished simple selector goes to the innermost negation, which takes only some, or to the
current sequence, where a type selector must come first. `blame` is the token to report. -/
def place (s : Selecting) (c : Construct) (blame : Token) : SelectingStep :=
  match s.negations with
  | [] =>
      if c.isTypeSelector && !s.sequence.isEmpty then .rejected (.unexpected blame)
      else .pending { s with sequence := c :: s.sequence, phase := .member }
  | _ :: _ =>
      if Context.negation.permits c then s.enter (.negationClose c)
      else .rejected (.unexpected blame)

/-- A finished type selector. -/
def placeType (s : Selecting) (start : Token) (use : TypeUse) (text : String) : SelectingStep :=
  let c := Construct.atom .typeSelector text start.location
  match use with
  | .simple => s.place c start
  | .attribute bracket => s.enter (.attributeOperator bracket c)

/-- Start a type selector, if the token can. -/
def startType? (s : Selecting) (use : TypeUse) (t : Token) : Option SelectingStep :=
  if t.kind == .ident || t.isChar '*' then some (s.enter (.typing (.name t.text) t use))
  else if t.isChar '|' then some (s.enter (.typing .bar t use))
  else none

/-- Start a simple selector. -/
def startSimple (s : Selecting) (t : Token) : SelectingStep :=
  match s.startType? .simple t with
  | some step => step
  | none =>
      match t.kind with
      | .hashName => s.place (.atom .hashName t.text t.location) t
      | .className => s.place (.atom .className t.text t.location) t
      | .quantity .percentage => s.place (.quantity t.text .percentage t.location) t
      | _ =>
          if t.isChar '[' then s.enter (.attributeName t.location)
          else if t.isChar ':' then s.enter (.pseudo ⟨.pseudoClass, t.location⟩)
          else .rejected (.unexpected t)

/-- Start a sequence, and with it a selector if none is under way. -/
def startSequence (s : Selecting) (t : Token) : SelectingStep :=
  let s := { s with sequence := [], sequenceStart := t.location }
  if s.components.isEmpty then ({ s with location := t.location }).startSimple t
  else s.startSimple t

/-- The current sequence joins its selector. -/
def endSequence (s : Selecting) : Selecting :=
  { s with components := .sequence s.sequence.reverse s.sequenceStart :: s.components }

/-- The current selector. -/
def current (s : Selecting) : Selector := ⟨s.components.reverse, s.location⟩

/-- The current selector joins the list, unless its pseudo-elements are wrong. -/
def endSelector (s : Selecting) : Except Problem Selecting :=
  match s.current.pseudoElementFault? with
  | some phrase =>
      .error
        { code := .invalidSelector
          location := s.location
          arguments := [.verbatim s.current.toCss, .phrase phrase]
          token := none }
  | none => .ok { s with finished := s.current :: s.finished, components := [], phase := .opening }

/-- The token behind a sequence: it ends the list or the selector, or it is or follows a
combinator. -/
def stepBetween (s : Selecting) (spaced : Bool) (t : Token) : SelectingStep :=
  let s := s.endSequence
  if t.isChar '{' then
    match s.endSelector with
    | .ok s => .complete s.finished.reverse
    | .error p => .rejected p
  else if t.isChar ',' then
    match s.endSelector with
    | .ok s => .pending s
    | .error p => .rejected p
  else
    match t.char?.bind Combinator.ofChar? with
    | some kind =>
        .pending { s with components := .combinator kind t.location :: s.components,
                          phase := .opening }
    | none =>
        if spaced then
          startSequence
            { s with components := .combinator .descendant t.location :: s.components } t
        else .rejected (.unexpected t)

/-- The token behind the first part of a type selector. -/
def stepTyping (s : Selecting) (start : Token) (use : TypeUse) (t : Token) :
    TypePhase → SelectingStep
  | .name text => s.enter (.typing (.qualified (text ++ "|")) start use)
  | .bar => s.placeType start use ("|" ++ t.text)
  | .qualified text =>
      if t.kind == .ident || t.isChar '*' then s.placeType start use (text ++ t.text)
      else .rejected (.expecting t (.phrase .typeOrUniversalSelector))

/-- The token behind the colons of a pseudo selector. -/
def stepPseudo (s : Selecting) (head : PseudoHead) (t : Token) : SelectingStep :=
  if t.isChar ':' && head.kind == .pseudoClass then
    s.enter (.pseudo { head with kind := .pseudoElement })
  else
    match t.kind with
    | .ident => s.place (.pseudo head.kind (head.kind.colons ++ t.text) head.location) t
    | .function =>
        if t.functionName == "not" then
          .pending { s with negations := head :: s.negations, phase := .negated }
        else s.enter (.arguments head (head.kind.colons ++ t.functionName) [])
    | _ => .rejected (.unexpected t)

/-- A value as an argument of a pseudo selector. -/
def stepArgument (s : Selecting) (head : PseudoHead) (name : String) (members : List Construct)
    (t : Token) : Building → SelectingStep
  | .complete c => s.enter (.arguments head name (c :: members))
  | .pending n => s.enter (.argumentNested head name members n)
  | .rejected => .rejected (.unexpected t)

/-- A value as the value of an attribute; `start` is its first token. -/
def stepAttributeValue (s : Selecting) (bracket : Location) (parts : List Construct)
    (start : Token) : Building → SelectingStep
  | .complete c => s.enter (.attributeClose bracket (parts ++ [c]))
  | .pending n => s.enter (.attributeNested bracket parts start n)
  | .rejected => .rejected (.expecting start (.phrase .stringOrIdentifier))

/-- Close the innermost negation. -/
def closeNegation (s : Selecting) (argument : Construct) (t : Token) : SelectingStep :=
  match s.negations with
  | [] => .rejected (.unexpected t)
  | head :: outer =>
      place { s with negations := outer }
        (.pseudoFunction head.kind (head.kind.colons ++ "not") [argument] head.location) t

/-- Decide what the next token, if there is one, ends without belonging to it. -/
def settle (s : Selecting) (next : Option Token) : SelectingStep :=
  match s.phase with
  | .typing (.name text) start use =>
      if next.any (·.isChar '|') then .pending s else s.placeType start use text
  | .typing .bar _ _ =>
      match next with
      | some t =>
          if t.kind == .ident then .pending s
          else .rejected (.expecting t (.phrase .typeOrUniversalSelector))
      | none => .pending s
  | _ => .pending s

/-- Take one more token, in a phase that it does not end. -/
def step (s : Selecting) (t : Token) : SelectingStep :=
  match s.phase with
  | .opening => s.startSequence t
  | .member =>
      if t.kind == .space then s.enter (.between true)
      else if t.kind == .comment then s.enter (.between false)
      else if t.isOneOf [',', '{', '>', '+', '~'] then s.stepBetween false t
      else s.startSimple t
  | .between spaced => s.stepBetween spaced t
  | .typing phase start use => s.stepTyping start use t phase
  | .attributeName bracket =>
      match s.startType? (.attribute bracket) t with
      | some step => step
      | none => .rejected (.expecting t (.phrase .typeOrUniversalSelector))
  | .attributeOperator bracket name =>
      if t.isChar ']' then s.place (.attributeSelector [name] bracket) t
      else
        match MatchOperator.ofToken? t with
        | some operator => s.enter (.attributeValue bracket [name, .matching operator t.location])
        | none => .rejected (.expecting t (.phrase .attributeValueMatcher))
  | .attributeValue bracket parts =>
      s.stepAttributeValue bracket parts t (Nesting.start .attributeValue t)
  | .attributeNested bracket parts start n =>
      s.stepAttributeValue bracket parts start
        (n.step .attributeValue TokenClass.closeBracket t)
  | .attributeClose bracket parts =>
      if t.isChar ']' then s.place (.attributeSelector parts bracket) t
      else .rejected (.expecting t (.verbatim "']'"))
  | .pseudo head => s.stepPseudo head t
  | .arguments head name members =>
      if t.isChar ')' then
        s.place (.pseudoFunction head.kind name members.reverse head.location) t
      else if t.isChar '{' then .rejected (.unexpected t)
      else s.stepArgument head name members t (Nesting.start .pseudoArgument t)
  | .argumentNested head name members n =>
      s.stepArgument head name members t (n.step .pseudoArgument TokenClass.openBrace t)
  | .negated => s.startSimple t
  | .negationClose argument =>
      if t.isChar ')' then s.closeNegation argument t else .rejected (.unexpected t)

end Selecting

end EpubStyle
