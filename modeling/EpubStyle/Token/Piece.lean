import EpubStyle.Text.Escape
import EpubStyle.Token.Basic

/-!
# Pieces of a token

A token is read as a sequence of pieces. A `Piece` has the normalised text it contributes, the
number of characters it takes from the source, and notes on what happened: lexical faults and
characters given back after looking ahead. A fault is placed by the number of steps from the start
of its piece, so joining two pieces shifts the notes of the second by the length of the first.

Names are the pieces shared by most tokens. `Piece.run` takes characters of a class and decodes
escapes on the way; `Piece.name` reads one character that may start a name and then a run of name
characters.
-/

namespace EpubStyle

open Text

/-- Something that happens while a token is read. -/
inductive Note where
  /-- A fault at the character reached after `steps` steps, counted from the start of the piece. -/
  | fault (steps : Nat) (code : Code) (arguments : List Wording)
  /-- Characters that were looked at and given back. -/
  | stepBack (distance : Nat)
  deriving DecidableEq, Repr, Inhabited

namespace Note

/-- The note of a piece that starts `n` characters later. -/
def shift (n : Nat) : Note → Note
  | fault steps code arguments => fault (n + steps) code arguments
  | stepBack distance => stepBack distance

end Note

/-- A part of a token. -/
structure Piece where
  /-- The normalised text. -/
  text : List Char := []
  /-- Number of characters of the source. -/
  length : Nat := 0
  notes : List Note := []
  deriving DecidableEq, Repr, Inhabited

namespace Piece

/-- One piece after the other. -/
def append (p q : Piece) : Piece where
  text := p.text ++ q.text
  length := p.length + q.length
  notes := p.notes ++ q.notes.map (Note.shift p.length)

instance : Append Piece := ⟨append⟩

/-- A character that stands for itself. -/
def ofChar (c : Char) : Piece := ⟨[c], 1, []⟩

/-- A text that stands for itself. -/
def ofText (cs : List Char) : Piece := ⟨cs, cs.length, []⟩

/-- Characters that contribute no text. -/
def silent (n : Nat) : Piece := ⟨[], n, []⟩

/-- A fault found `steps` steps further on, without taking a character. -/
def fault (steps : Nat) (code : Code) (arguments : List Wording) : Piece :=
  ⟨[], 0, [.fault steps code arguments]⟩

/-- Characters that were looked at and given back. -/
def stepBack (distance : Nat) : Piece := ⟨[], 0, [.stepBack distance]⟩

/-- The same characters with another normalised text. -/
def withText (p : Piece) (text : List Char) : Piece := { p with text := text }

/-- The piece of an escape, decoded where `literal` allows its character to stand by itself. A
malformed escape is a fault at its backslash. -/
def ofEscape (literal : Char → Bool) (e : Escape) : Piece where
  text := (e.renderOnto [] literal).1
  length := (e.renderOnto [] literal).2 + 1
  notes :=
    if e.malformed then [.fault 1 .malformedEscape [.verbatim (String.ofList e.bare)]] else []

/-- The escape behind a backslash, if there is one; otherwise the backslash is given back. -/
def escape? (literal : Char → Bool) (cs : List Char) : Option Piece :=
  match Escape.read cs with
  | .escape e => some (ofEscape literal e)
  | .endOfInput | .lineBreak => none

/-- The first character of a name: a name character, or an escape decoded by `literal`. -/
def first (literal : Char → Bool) : List Char → Piece
  | [] => {}
  | c :: cs =>
      if c == '\\' then (escape? literal cs).getD (stepBack 1)
      else if isNameChar c then ofChar c
      else {}

/-- The longest run of characters that `accept` takes, escapes included. -/
def run (accept : Char → Bool) : List Char → Piece
  | [] => {}
  | c :: cs =>
      if c == '\\' then
        match Escape.read cs with
        | .escape e => ofEscape accept e ++ run accept (cs.drop e.length)
        | .endOfInput | .lineBreak => stepBack 1
      else if accept c then ofChar c ++ run accept cs
      else {}
  termination_by cs => cs.length
  decreasing_by
    · simp only [List.length_drop, List.length_cons]; omega
    · simp

/-- A name: a character that may start it, then a run of name characters. -/
def name (cs : List Char) : Piece :=
  let start := first isNameStart cs
  start ++ run isNameChar (cs.drop start.length)

end Piece

end EpubStyle
