import EpubStyle.Bytes.Source
import EpubStyle.Failure
import EpubStyle.Grammar.Sheet
import EpubStyle.Grammar.StyleAttribute
import EpubStyle.Token.Scan

/-!
# Parsing

A parse is scanning and then reading by a grammar. Everything that happens is one list of signals,
the lexical ones first. `deliver` hands it to a handler: events are passed on, problems are
collected or dropped, and the handler may give up at a problem, which cuts the list off there. A
step back over the capacity of the reader cuts it off as well. The handlers that come with the
parser are a `Handler` each, and any other one is an `ErrorHandler`.

Styles come from text, from a source of bytes, or from a style attribute. Each is rejected before
anything happens if it is larger than the limit.
-/

namespace EpubStyle

/-! ## Options and handlers -/

/-- The options of a parse. -/
structure ParseOptions where
  /-- The language of messages. -/
  locale : Locale
  /-- The number of characters that the reader may step back over. -/
  capacity : Nat
  /-- The greatest size of a source in bytes. -/
  maxBytes : Option Nat
  deriving DecidableEq, Repr

namespace ParseOptions

/-- Messages in English, and sources of at most sixteen mebibytes. -/
def default : ParseOptions := ⟨.english, Text.Cursor.defaultCapacity, some (16 * 1024 * 1024)⟩

/-- The failure of a source that is too large. -/
def sizeFailure? (o : ParseOptions) (size : Nat) : Option Failure :=
  match o.maxBytes with
  | some limit => if limit < size then some (.tooLarge size limit) else none
  | none => none

end ParseOptions

/-- What is done about problems. -/
inductive Handler where
  /-- Collect problems, and give up at the one that comes when `limit` have been collected. -/
  | collecting (limit : Option Nat)
  /-- Give up at the first problem. -/
  | strict
  /-- Drop every problem. -/
  | forgiving
  deriving DecidableEq, Repr, Inhabited

/-- What a handler does with one problem. -/
inductive Response where
  | collect
  | drop
  | giveUp
  deriving DecidableEq, Repr, Inhabited

/-- The response of a handler that has collected `collected` problems. -/
def Handler.respond (h : Handler) (collected : Nat) : Response :=
  match h with
  | collecting none => .collect
  | collecting (some limit) => if collected < limit then .collect else .giveUp
  | strict => .giveUp
  | forgiving => .drop

/-! ## Delivery -/

/-- What a handler received. -/
structure Delivery where
  events : List Event
  /-- The problems collected. -/
  problems : List Problem
  failure : Option Failure
  deriving Repr, Inhabited

namespace Delivery

/-- Nothing was received. -/
def empty : Delivery := ⟨[], [], none⟩

/-- Nothing was received because of a failure. -/
def failed (f : Failure) : Delivery := ⟨[], [], some f⟩

end Delivery

/-- Hand signals to a handler that has collected `collected` problems. -/
def deliver (h : Handler) (capacity : Nat) (collected : Nat) : List Signal → Delivery
  | [] => .empty
  | .event e :: signals =>
      let d := deliver h capacity collected signals
      { d with events := e :: d.events }
  | .problem p :: signals =>
      match h.respond collected with
      | .collect =>
          let d := deliver h capacity (collected + 1) signals
          { d with problems := p :: d.problems }
      | .drop => deliver h capacity collected signals
      | .giveUp => .failed (.aborted p)
  | .stepBack distance :: signals =>
      if distance ≤ capacity then deliver h capacity collected signals
      else .failed (.overrun distance capacity)

/-! ## Handlers of any kind -/

/-- A handler of problems with states of its own. At a problem it changes its state, and it gives up
if it returns a problem, the same or another one. -/
structure ErrorHandler (σ : Type) where
  error : σ → Problem → σ × Option Problem

/-- The handlers above. Their states are the problems collected. -/
def Handler.errorHandler (h : Handler) : ErrorHandler (List Problem) where
  error collected p :=
    match h.respond collected.length with
    | .collect => (collected ++ [p], none)
    | .drop => (collected, none)
    | .giveUp => (collected, some p)

/-- What was received of a parse, with the last state of the handler of problems. -/
structure Receipt (σ : Type) where
  events : List Event
  state : σ
  failure : Option Failure

/-- Hand signals to a handler in the state `state`. -/
def ErrorHandler.receive {σ : Type} (h : ErrorHandler σ) (capacity : Nat) (state : σ) :
    List Signal → Receipt σ
  | [] => ⟨[], state, none⟩
  | .event e :: signals =>
      let r := h.receive capacity state signals
      { r with events := e :: r.events }
  | .problem p :: signals =>
      match h.error state p with
      | (state', none) => h.receive capacity state' signals
      | (state', some q) => ⟨[], state', some (.aborted q)⟩
  | .stepBack distance :: signals =>
      if distance ≤ capacity then h.receive capacity state signals
      else ⟨[], state, some (.overrun distance capacity)⟩

/-- What happened while a text was scanned, as a signal. -/
def ScanEvent.toSignal : ScanEvent → Signal
  | fault f => .problem f.toProblem
  | stepBack distance => .stepBack distance

/-- What happened while tokens were scanned. -/
def scanSignals (tokens : List Scanned) : List Signal :=
  tokens.flatMap (fun t => t.events.map ScanEvent.toSignal)

/-! ## Parsing -/

/-- The grammars that a text can be read by. -/
inductive Grammar where
  | sheet
  | styleAttribute
  deriving DecidableEq, Repr, Inhabited

/-- Everything that happens while tokens are read by a grammar. -/
def Grammar.signals : Grammar → List Token → List Signal
  | sheet, tokens => Sheet.signals tokens
  | styleAttribute, tokens => StyleAttribute.signals tokens

/-- Everything that happens while a text is scanned and read by a grammar. -/
def parseSignals (g : Grammar) (text source : String) : List Signal :=
  let tokens := scan text source
  scanSignals tokens ++ g.signals (tokens.map Scanned.token)

/-- Read a text of any size by a grammar. -/
def parseAny (o : ParseOptions) (h : Handler) (g : Grammar) (text source : String) : Delivery :=
  deliver h o.capacity 0 (parseSignals g text source)

/-- Parse a text by a grammar. -/
def parseText (o : ParseOptions) (h : Handler) (g : Grammar) (text source : String) : Delivery :=
  match o.sizeFailure? text.utf8ByteSize with
  | some failure => .failed failure
  | none => parseAny o h g text source

/-- Parse a text by a grammar, with any handler. -/
def ErrorHandler.parseText {σ : Type} (h : ErrorHandler σ) (state : σ) (o : ParseOptions)
    (g : Grammar) (text source : String) : Receipt σ :=
  match o.sizeFailure? text.utf8ByteSize with
  | some failure => ⟨[], state, some failure⟩
  | none => h.receive o.capacity state (parseSignals g text source)

/-- Parse the style sheet in a source. -/
def parseSource (o : ParseOptions) (h : Handler) (s : Bytes.Source) : Delivery :=
  match o.sizeFailure? s.size with
  | some failure => .failed failure
  | none => parseAny o h .sheet s.text s.name

/-- The tokens of a text and the problems that a handler collected while they were scanned. -/
def scanText (o : ParseOptions) (h : Handler) (text source : String) : List Token × Delivery :=
  match o.sizeFailure? text.utf8ByteSize with
  | some failure => ([], .failed failure)
  | none =>
      let tokens := scan text source
      (tokens.map Scanned.token, deliver h o.capacity 0 (scanSignals tokens))

end EpubStyle
