import EpubStyle.Text.Chars
import EpubStyle.Text.Cursor

/-!
# Backslash escapes

A backslash stands before one character that is taken literally, or before one to six hexadecimal
digits and at most one blank, where a carriage return with its line feed counts as one. Before a
line break it is no escape, and at the end of the text it is an error. Digits that denote zero, a
surrogate or a number above U+10FFFF make a malformed escape, which stands for U+FFFD.

Eight characters decide an escape: six digits and a blank of two. `Escape.read` looks at no more.
-/

namespace EpubStyle.Text

/-- The character that stands for one that cannot be represented. -/
def replacementChar : Char := '\uFFFD'

/-- An escape that was read. -/
structure Escape where
  /-- The characters after the backslash. -/
  written : List Char
  /-- The character that is meant. -/
  character : Char
  /-- The digits denote no character. -/
  malformed : Bool
  deriving DecidableEq, Repr, Inhabited

namespace Escape

/-- What stands at a backslash. -/
inductive Reading where
  /-- Nothing follows the backslash. -/
  | endOfInput
  /-- A line break follows, so this is no escape. -/
  | lineBreak
  | escape (e : Escape)
  deriving DecidableEq, Repr, Inhabited

/-- The character with the code `n`, if `n` is the code of a character other than U+0000. -/
def charOfCode (n : Nat) : Option Char :=
  if n ≠ 0 ∧ n.isValidChar then some (Char.ofNat n) else none

/-- The blank that ends the digits of an escape and belongs to it. -/
def closingBlank : List Char → List Char
  | '\r' :: '\n' :: _ => ['\r', '\n']
  | c :: _ => if isBlank c then [c] else []
  | [] => []

/-- The escape with the given digits and closing blank. -/
def ofDigits (digits blank : List Char) : Escape :=
  match charOfCode (hexValue digits) with
  | some c => ⟨digits ++ blank, c, false⟩
  | none => ⟨digits ++ blank, replacementChar, true⟩

/-- Decide what a backslash before the text `cs` is. -/
def decode : List Char → Reading
  | [] => .endOfInput
  | c :: cs =>
      if isLineBreak c then .lineBreak
      else if isHexDigit c then
        let digits := ((c :: cs).take 6).takeWhile isHexDigit
        .escape (ofDigits digits (closingBlank ((c :: cs).drop digits.length)))
      else .escape ⟨[c], c, false⟩

/-- The number of characters after a backslash that decide what it is. -/
def window : Nat := 8

/-- What the backslash before the text `cs` is, seen through the window. -/
def read (cs : List Char) : Reading := decode (cs.take window)

/-- What stands at a cursor: absent unless its current character is a backslash. -/
def atCursor (c : Cursor) : Option Reading :=
  if c.current == some '\\' then some (decode (c.ahead window)) else none

/-- The escape as written, backslash included. -/
def sequence (e : Escape) : List Char := '\\' :: e.written

/-- Number of characters after the backslash. -/
def length (e : Escape) : Nat := e.written.length

/-- The character meant where `literal` allows it to stand unescaped, otherwise the escape as
written. A malformed escape always stays as written. -/
def render (e : Escape) (literal : Char → Bool) : List Char :=
  if !e.malformed && literal e.character then [e.character] else e.sequence

/-- Write an escape behind the text `out`. The number is that of the characters behind the
backslash, over which a reader then goes. -/
def renderOnto (e : Escape) (out : List Char) (literal : Char → Bool) : List Char × Nat :=
  (out ++ e.render literal, e.length)

/-- The digits of a malformed escape behind its backslash, without the closing blank. -/
def bare (e : Escape) : List Char := '\\' :: e.written.takeWhile (fun c => !isBlank c)

end Escape

end EpubStyle.Text
