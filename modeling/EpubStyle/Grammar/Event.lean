import EpubStyle.Construct.Basic

/-!
# Events

Reading a style sheet delivers events in document order. A rule set is its selectors, its
declarations and the same selectors again; an at-rule is its opening, the contents of its block and
its name again. Problems are reported between the events, where they are found, so a whole run is
one list of signals. A signal can also say that the reader stepped back, which matters only where
the distance is limited.
-/

namespace EpubStyle

/-- What a style sheet consists of, in document order. -/
inductive Event where
  | start
  | finish
  | atRule (r : AtRule)
  | endAtRule (name : String)
  | selectors (list : List Selector)
  | endSelectors (list : List Selector)
  | declaration (d : Declaration)
  deriving Repr, Inhabited

/-- What happens while a style sheet is read. -/
inductive Signal where
  | event (e : Event)
  | problem (p : Problem)
  /-- The reader went back by this number of characters. -/
  | stepBack (distance : Nat)
  deriving Repr, Inhabited

end EpubStyle
