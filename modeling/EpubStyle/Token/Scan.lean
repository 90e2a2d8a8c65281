import EpubStyle.Token.Lexeme

/-!
# Scanning a text

`scan` cuts a text into tokens. Each is a lexeme placed in the source: its location is that of its
first character, and each of its faults gets the location reached when it was found. `Scanned` keeps
a token together with everything that happened while it was read, in order.
-/

namespace EpubStyle

open Text

/-- What happens while a text is scanned. -/
inductive ScanEvent where
  | fault (f : Fault)
  /-- The reader went back by this number of characters. -/
  | stepBack (distance : Nat)
  deriving DecidableEq, Repr, Inhabited

namespace ScanEvent

/-- The fault that was found, if any. -/
def fault? : ScanEvent → Option Fault
  | fault f => some f
  | stepBack _ => none

/-- A note on a token that starts behind the place `p`, where the text is `cs`. -/
def ofNote (source : String) (p : Place) (cs : List Char) : Note → ScanEvent
  | .fault steps code arguments => fault ⟨code, (p.advance steps cs).location source, arguments⟩
  | .stepBack distance => stepBack distance

end ScanEvent

/-- A token and what happened while it was read. -/
structure Scanned where
  token : Token
  events : List ScanEvent
  deriving DecidableEq, Repr, Inhabited

namespace Scanned

/-- A lexeme read behind the place `p`, where the text is `cs`. -/
def ofLexeme (source : String) (p : Place) (cs : List Char) (l : Lexeme) : Scanned :=
  let events := l.piece.notes.map (ScanEvent.ofNote source p cs)
  { token :=
      { kind := l.kind
        text := String.ofList l.piece.text
        location := (p.advance 1 cs).location source
        faults := events.filterMap ScanEvent.fault? }
    events := events }

end Scanned

/-- Scan the text `cs` behind the place `p`. -/
def scanFrom (source : String) (p : Place) : List Char → List Scanned
  | [] => []
  | c :: cs =>
      let l := Lexeme.read c cs
      Scanned.ofLexeme source p (c :: cs) l ::
        scanFrom source (p.advance l.piece.length (c :: cs)) (cs.drop (l.piece.length - 1))
  termination_by cs => cs.length
  decreasing_by simp only [List.length_drop, List.length_cons]; omega

/-- The tokens of a text with what happened while they were read. -/
def scan (text source : String) : List Scanned :=
  scanFrom source {} text.toList

end EpubStyle
