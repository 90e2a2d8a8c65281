import EpubStyle.Token.Basic

/-!
# Walking over a list of tokens

A `Walk` is a position in a list of tokens: those passed, latest first, and those ahead. A step goes
to the next token of a class and passes all before it. The token returned last is the latest one
passed.
-/

namespace EpubStyle

/-- A position in a list of tokens. -/
structure Walk where
  /-- The tokens passed, latest first. -/
  passed : List Token
  ahead : List Token
  deriving DecidableEq, Repr, Inhabited

namespace Walk

/-- The position before the first token. -/
def ofList (tokens : List Token) : Walk := ⟨[], tokens⟩

/-- Go to the first token of a class among `ahead`. -/
def seek (accept : TokenClass) (passed : List Token) : List Token → Option (Token × Walk)
  | [] => none
  | t :: ahead =>
      if accept t then some (t, ⟨t :: passed, ahead⟩) else seek accept (t :: passed) ahead

/-- Go to the next token of a class. -/
def next? (w : Walk) (accept : TokenClass) : Option (Token × Walk) :=
  seek accept w.passed w.ahead

/-- The next token of a class. -/
def peek? (w : Walk) (accept : TokenClass) : Option Token :=
  w.ahead.find? accept

/-- A token of the class is ahead. -/
def hasNext (w : Walk) (accept : TokenClass) : Bool :=
  w.ahead.any accept

/-- The token returned last. -/
def last? (w : Walk) : Option Token := w.passed.head?

/-- The number of the token returned last, counted from zero. -/
def index? (w : Walk) : Option Nat :=
  match w.passed with
  | [] => none
  | _ :: earlier => some earlier.length

/-- The token with a number, passed or ahead. -/
def get? (w : Walk) (n : Nat) : Option Token := (w.passed.reverse ++ w.ahead)[n]?

/-- White space stands right behind the token returned last. -/
def spaceFollows (w : Walk) : Bool :=
  !w.passed.isEmpty && w.ahead.head?.any (fun t => t.kind == .space)

end Walk

end EpubStyle
