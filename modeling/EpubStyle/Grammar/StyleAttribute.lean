import EpubStyle.Grammar.Draft
import EpubStyle.Grammar.Event

/-!
# The grammar of style attributes

A style attribute holds declarations with semicolons between them. One semicolon may stand before
the first, and the last needs none. The first rejected declaration ends the reading; only where it
was rejected at a semicolon inside parentheses or brackets does the reader go on to where these are
closed, because the text may end before that.
-/

namespace EpubStyle

/-- What is under way in a style attribute. -/
inductive AttributePhase where
  /-- Before the first token. -/
  | leading
  /-- A declaration may follow. -/
  | between
  | reading (r : Reading)
  /-- Skipping a declaration from inside `depth` open parentheses and brackets. -/
  | skippingNested (depth : Nat)
  /-- A declaration was rejected. -/
  | stopped
  deriving Repr, Inhabited

/-- A style attribute that has been read up to some token. -/
structure StyleAttribute where
  /-- The token taken last. -/
  last : Option Token
  phase : AttributePhase
  deriving Repr, Inhabited

namespace StyleAttribute

/-- Before the first token. -/
def initial : StyleAttribute := ⟨none, .leading⟩

/-- A declaration starts with the token `t`. -/
def startDeclaration (t : Token) : AttributePhase × List Signal :=
  if t.kind == .ident then (.reading (.named t), [])
  else (.stopped, [.problem (.expecting t (.phrase .propertyName))])

/-- What becomes of a declaration that has been given the token `t`. -/
def afterReading (t : Token) : ReadingStep → AttributePhase × List Signal
  | .pending r => (.reading r, [])
  | .complete d => (.between, [.event (.declaration d)])
  | .rejected p depth =>
      (if t.isChar ';' && depth != 0 then .skippingNested depth else .stopped, [.problem p])

/-- Take one more significant token. -/
def take (m : StyleAttribute) (t : Token) : AttributePhase × List Signal :=
  match m.phase with
  | .leading => if t.isChar ';' then (.between, []) else startDeclaration t
  | .between => startDeclaration t
  | .reading r => afterReading t (r.step .attribute (m.last.getD t) t)
  | .skippingNested depth =>
      if t.isChar '}' then (.stopped, [])
      else
        let depth := nestingStep depth t
        if depth == 0 && t.isChar ';' then (.stopped, []) else (.skippingNested depth, [])
  | .stopped => (.stopped, [])

/-- One step: take the token unless it only separates. -/
def step (m : StyleAttribute) (t : Token) : StyleAttribute × List Signal :=
  if t.isBlank then (m, [])
  else
    let (phase, signals) := m.take t
    (⟨some t, phase⟩, signals)

/-- The location of the token taken last. -/
def lastLocation (m : StyleAttribute) : Location :=
  (m.last.map Token.location).getD Location.start

/-- What happens where the tokens end: a declaration with a value is complete, anything else under
way is a problem. -/
def finish (m : StyleAttribute) : List Signal :=
  let premature (what : Wording) := [Signal.problem (.premature m.lastLocation what)]
  match m.phase with
  | .leading | .between | .stopped => []
  | .reading (.valued d) =>
      if !d.value.isEmpty then [.event (.declaration d.toDeclaration)]
      else if d.important then (m.last.map (fun t => Signal.problem (.unexpected t))).toList
      else premature (Reading.expected (.valued d))
  | .reading r => premature r.expected
  | .skippingNested _ => premature (.either "';'" "'\x7d'")

/-- Run over the tokens and finish. -/
def run (m : StyleAttribute) : List Token → List Signal
  | [] => m.finish
  | t :: ahead =>
      let (m, signals) := m.step t
      signals ++ m.run ahead

/-- Everything that happens while a style attribute with the given tokens is read. -/
def signals (tokens : List Token) : List Signal :=
  .event .start :: (initial.run tokens ++ [.event .finish])

end StyleAttribute

end EpubStyle
