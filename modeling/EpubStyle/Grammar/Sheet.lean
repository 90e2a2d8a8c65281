import EpubStyle.Grammar.Draft
import EpubStyle.Grammar.Event
import EpubStyle.Grammar.Selecting

/-!
# The grammar of style sheets

A style sheet is read by a pushdown machine that takes one token a step. Its stack holds the names
of the at-rules whose blocks contain statements; its phase says what is under way inside the
innermost one. A step delivers signals: events of the sheet and problems with it. The only
lookahead is at the brace of an at-rule, where `holdsStatements` decides what kind of block opens.

After a problem the machine skips what the problem spoils, and no more: a rule set up to the end of
its block, a declaration up to its semicolon or the end of the block around it, an at-rule up to its
semicolon or the end of its block. Each way of skipping is a phase with a count of open braces.

`Sheet.finish` says what happens where the tokens end. If anything is open, that is one problem, and
whatever had been opened by an event is closed.
-/

namespace EpubStyle

/-- What a block of declarations belongs to. -/
inductive BlockOwner where
  | selectors (list : List Selector)
  | atRule (name : String)
  deriving Repr, Inhabited

/-- The event that ends a block. -/
def BlockOwner.closing : BlockOwner → Event
  | selectors list => .endSelectors list
  | atRule name => .endAtRule name

/-- What is under way in a block of declarations. -/
inductive BlockPhase where
  /-- The block has just been opened. -/
  | opened
  /-- A declaration or the end of the block must follow. -/
  | between
  | reading (r : Reading)
  /-- Skipping a declaration, with `depth` open braces. -/
  | skipping (depth : Nat)
  /-- Skipping a declaration from inside `depth` open parentheses and brackets. -/
  | skippingNested (depth : Nat)
  deriving Repr, Inhabited

/-- What is under way in a style sheet. -/
inductive SheetPhase where
  /-- A statement must follow. -/
  | statement
  | selecting (s : Selecting)
  /-- Skipping a rule set, with `depth` open braces. -/
  | skippingRule (depth : Nat)
  /-- The parameters of an at-rule, latest first, with a function or group that may be open. -/
  | header (name : String) (location : Location) (parameters : List Construct)
      (nesting : Option Nesting)
  /-- Skipping an at-rule, with `depth` open braces. -/
  | skippingAtRule (depth : Nat)
  | block (owner : BlockOwner) (phase : BlockPhase)
  deriving Repr, Inhabited

/-- A style sheet that has been read up to some token. -/
structure Sheet where
  /-- The token taken last. -/
  last : Option Token
  /-- The at-rules whose blocks hold the statements being read, innermost first. -/
  enclosing : List String
  phase : SheetPhase
  deriving Repr, Inhabited

/-- A state with the signals that led to it. -/
abbrev SheetStep := Sheet × List Signal

/-- The block whose tokens follow holds statements: another block opens before the first
semicolon or closing brace. -/
def holdsStatements : List Token → Bool
  | [] => false
  | t :: ts =>
      if t.isChar '{' then true
      else if t.isOneOf [';', '}'] then false
      else holdsStatements ts

namespace Sheet

/-- Before the first token. -/
def initial : Sheet := ⟨none, [], .statement⟩

/-- The location of the token taken last. -/
def lastLocation (m : Sheet) : Location := (m.last.map Token.location).getD Location.start

/-- Go on to another phase. -/
def enter (m : Sheet) (phase : SheetPhase) (signals : List Signal) : SheetStep :=
  ({ m with phase := phase }, signals)

/-- A token that separates others in the present phase and is not taken. -/
def ignores (m : Sheet) (t : Token) : Bool :=
  match m.phase with
  | .statement => if m.enclosing.isEmpty then !TokenClass.topLevel t else t.isBlank
  | .selecting s => t.isBlank && !s.phase.isTight
  | _ => t.isBlank

/-! ## Rule sets -/

/-- Skip a rule set rejected at the token `t`. -/
def skipRule (m : Sheet) (t : Token) (signals : List Signal) : SheetStep :=
  if t.isChar '}' then m.enter .statement signals
  else m.enter (.skippingRule (if t.isChar '{' then 1 else 0)) signals

/-- What becomes of a rule set whose selectors have been given the token `t`. -/
def afterSelecting (m : Sheet) (t : Token) : SelectingStep → SheetStep
  | .pending s => m.enter (.selecting s) []
  | .complete list => m.enter (.block (.selectors list) .opened) [.event (.selectors list)]
  | .rejected p => m.skipRule t [.problem p]

/-- Skip one more token of a rejected rule set. -/
def stepSkippingRule (m : Sheet) (depth : Nat) (t : Token) : SheetStep :=
  if t.isChar '{' then m.enter (.skippingRule (depth + 1)) []
  else if t.isChar '}' then
    if depth ≤ 1 then m.enter .statement [] else m.enter (.skippingRule (depth - 1)) []
  else (m, [])

/-! ## Blocks of declarations -/

/-- The block ends. -/
def closeBlock (m : Sheet) (owner : BlockOwner) (signals : List Signal) : SheetStep :=
  m.enter .statement (signals ++ [.event owner.closing])

/-- Skip a declaration rejected at the token `t`, with `depth` open parentheses and brackets before
it. -/
def skipDeclaration (m : Sheet) (owner : BlockOwner) (t : Token) (p : Problem) (depth : Nat) :
    SheetStep :=
  if t.isChar '}' then m.closeBlock owner [.problem p]
  else if t.isChar ';' then
    m.enter (.block owner (if depth = 0 then .between else .skippingNested depth)) [.problem p]
  else m.enter (.block owner (.skipping (if t.isChar '{' then 1 else 0))) [.problem p]

/-- A declaration starts with the token `t`, or the block ends. -/
def startDeclaration (m : Sheet) (owner : BlockOwner) (t : Token) : SheetStep :=
  if t.isChar '}' then m.closeBlock owner []
  else if t.kind == .ident then m.enter (.block owner (.reading (.named t))) []
  else m.skipDeclaration owner t (.expecting t (.phrase .propertyName)) 0

/-- What becomes of a block whose declaration has been given the token `t`. -/
def afterReading (m : Sheet) (owner : BlockOwner) (t : Token) : ReadingStep → SheetStep
  | .pending r => m.enter (.block owner (.reading r)) []
  | .complete d =>
      if t.isChar '}' then m.closeBlock owner [.event (.declaration d)]
      else m.enter (.block owner .between) [.event (.declaration d)]
  | .rejected p depth => m.skipDeclaration owner t p depth

/-- Take one more token in a block of declarations. -/
def stepBlock (m : Sheet) (owner : BlockOwner) (t : Token) : BlockPhase → SheetStep
  | .opened | .between => m.startDeclaration owner t
  | .reading r => m.afterReading owner t (r.step .block (m.last.getD t) t)
  | .skipping depth =>
      if t.isChar '{' then m.enter (.block owner (.skipping (depth + 1))) []
      else if t.isChar '}' then
        if depth = 0 then m.closeBlock owner []
        else m.enter (.block owner (.skipping (depth - 1))) []
      else if t.isChar ';' && depth == 0 then m.enter (.block owner .between) []
      else (m, [])
  | .skippingNested depth =>
      if t.isChar '}' then m.closeBlock owner []
      else
        let depth := nestingStep depth t
        if depth == 0 && t.isChar ';' then m.enter (.block owner .between) []
        else m.enter (.block owner (.skippingNested depth)) []

/-! ## At-rules -/

/-- The event that opens an at-rule. -/
def atRuleEvent (name : String) (location : Location) (parameters : List Construct)
    (hasBlock : Bool) : Signal :=
  .event (.atRule ⟨name, parameters.reverse, hasBlock, location⟩)

/-- What becomes of an at-rule whose parameters have been given the token `t`. -/
def afterParameter (m : Sheet) (name : String) (location : Location)
    (parameters : List Construct) (t : Token) : Building → SheetStep
  | .complete c => m.enter (.header name location (c :: parameters) none) []
  | .pending n => m.enter (.header name location parameters (some n)) []
  | .rejected =>
      m.enter (if t.isChar '}' then .statement else .skippingAtRule 0) [.problem (.unexpected t)]

/-- Take one more token in the parameters of an at-rule. The tokens `ahead` decide what kind of
block a brace opens. -/
def stepHeader (m : Sheet) (name : String) (location : Location) (parameters : List Construct)
    (nesting : Option Nesting) (t : Token) (ahead : List Token) : SheetStep :=
  match nesting with
  | some n =>
      m.afterParameter name location parameters t
        (n.step .atRuleParameter TokenClass.semicolonOrOpenBrace t)
  | none =>
      if t.isChar ';' then
        m.enter .statement
          [atRuleEvent name location parameters false, .event (.endAtRule name)]
      else if t.isChar '{' then
        let opening := [atRuleEvent name location parameters true]
        if holdsStatements ahead then
          ({ m with enclosing := name :: m.enclosing, phase := .statement }, opening)
        else m.enter (.block (.atRule name) .opened) opening
      else
        m.afterParameter name location parameters t (Nesting.start .atRuleParameter t)

/-- Skip one more token of a rejected at-rule. -/
def stepSkippingAtRule (m : Sheet) (depth : Nat) (t : Token) : SheetStep :=
  if t.isChar ';' && depth == 0 then m.enter .statement []
  else if t.isChar '{' then m.enter (.skippingAtRule (depth + 1)) []
  else if t.isChar '}' then
    if depth ≤ 1 then m.enter .statement [] else m.enter (.skippingAtRule (depth - 1)) []
  else (m, [])

/-! ## Statements -/

/-- A statement starts with the token `t`, or the block around the statements ends. -/
def stepStatement (m : Sheet) (t : Token) : SheetStep :=
  match m.enclosing, t.isChar '}' with
  | name :: outer, true => ({ m with enclosing := outer }, [.event (.endAtRule name)])
  | _, _ =>
      if t.kind == .atKeyword then
        m.enter (.header (Text.lowerCase t.text) t.location [] none) []
      else m.afterSelecting t ((Selecting.ofLocation t.location).step t)

/-- Decide what the next token, if there is one, ends without belonging to it. -/
def settle (m : Sheet) (next : Option Token) : SheetStep :=
  match m.phase with
  | .selecting s =>
      match s.settle next with
      | .pending s => m.enter (.selecting s) []
      | .complete _ => (m, [])
      | .rejected p => m.enter (.skippingRule 0) [.problem p]
  | _ => (m, [])

/-- Take the token `t`, with the tokens `ahead` behind it. -/
def take (m : Sheet) (t : Token) (ahead : List Token) : SheetStep :=
  let taken : SheetStep :=
    match m.phase with
    | .statement => m.stepStatement t
    | .selecting s => m.afterSelecting t (s.step t)
    | .skippingRule depth => m.stepSkippingRule depth t
    | .header name location parameters nesting =>
        m.stepHeader name location parameters nesting t ahead
    | .skippingAtRule depth => m.stepSkippingAtRule depth t
    | .block owner phase => m.stepBlock owner t phase
  let last :=
    match taken.1.phase with
    | .selecting s =>
        match s.phase with
        | .between _ => if t.isBlank then m.last else some t
        | _ => some t
    | _ => some t
  ({ taken.1 with last := last }, taken.2)

/-- One step of the machine: settle what the token `t` ends, then take it unless it only
separates. -/
def step (m : Sheet) (t : Token) (ahead : List Token) : SheetStep :=
  let (m, settled) := m.settle (some t)
  if m.ignores t then (m, settled)
  else
    let (m, taken) := m.take t ahead
    (m, settled ++ taken)

/-! ## The end of the tokens -/

/-- What must still come where the tokens end, if anything. -/
def expected? (m : Sheet) : Option Wording :=
  match m.phase with
  | .statement => if m.enclosing.isEmpty then none else some (.verbatim "'\x7d'")
  | .selecting _ => some (.verbatim "'\x7b'")
  | .skippingRule _ => some (.verbatim "'\x7d'")
  | .header .. => some (.either "';'" "'\x7b'")
  | .skippingAtRule depth =>
      some (if depth = 0 then .either "';'" "'\x7b'" else .verbatim "'\x7d'")
  | .block _ .opened => some (.verbatim "'\x7d'")
  | .block _ (.reading r) => some r.expected
  | .block _ _ => some (.either "';'" "'\x7d'")

/-- The events that the end of the tokens still calls for before its problem. -/
def unopened (m : Sheet) : List Signal :=
  match m.phase with
  | .header name location parameters _ => [atRuleEvent name location parameters false]
  | _ => []

/-- The events that close what is open, innermost first. -/
def closings (m : Sheet) : List Signal :=
  let inner :=
    match m.phase with
    | .header name .. => [Event.endAtRule name]
    | .block owner _ => [owner.closing]
    | _ => []
  (inner ++ m.enclosing.map Event.endAtRule).map Signal.event

/-- What happens where the tokens end. -/
def finish (m : Sheet) : List Signal :=
  let (m, settled) := m.settle none
  let problem :=
    match m.expected? with
    | some what => [Signal.problem (.premature m.lastLocation what)]
    | none => []
  settled ++ m.unopened ++ problem ++ m.closings

/-- Run the machine over the tokens and finish. -/
def run (m : Sheet) : List Token → List Signal
  | [] => m.finish
  | t :: ahead =>
      let (m, signals) := m.step t ahead
      signals ++ m.run ahead

/-- Everything that happens while a style sheet with the given tokens is read. -/
def signals (tokens : List Token) : List Signal :=
  .event .start :: (initial.run tokens ++ [.event .finish])

end Sheet

end EpubStyle
