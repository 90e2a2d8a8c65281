import EpubStyle.Text.Chars
import EpubStyle.Text.Location

/-!
# Reading text character by character

A `Place` says where a reader stands: the character just read, the one before it, and the
coordinates of the former. `Place.step` is the rule for coordinates. A line feed, a carriage return
or a form feed starts a new line for the character after it; the pair carriage return, line feed
counts once, so its second half changes nothing. Reading at the end of the text still counts as a
step.

A `Cursor` adds the text that is left and a bound on how far a reader may step back. A mark is a
saved cursor. `Cursor.reset` goes back to a mark, and fails with the distance when it exceeds the
bound.
-/

namespace EpubStyle.Text

/-- Where a reader stands. -/
structure Place where
  /-- The character read last, absent at the start and past the end. -/
  current : Option Char := none
  /-- The character read before it. -/
  previous : Option Char := none
  line : Nat := 1
  column : Nat := 1
  /-- The line of the character before the latest line break. -/
  brokenLine : Nat := 1
  /-- Number of steps taken. -/
  offset : Nat := 0
  deriving DecidableEq, Repr, Inhabited

namespace Place

/-- The place after one more step, which read `c` or found the end of the text. -/
def step (p : Place) (c : Option Char) : Place :=
  let moved : Place := { p with previous := p.current, current := c, offset := p.offset + 1 }
  if c == some '\n' && p.current == some '\r' then moved
  else if c == some '\n' || c == some '\r' || c == some '\x0c' then
    { moved with brokenLine := p.line, line := p.line + 1 }
  else if p.brokenLine < p.line then
    { moved with column := 1, brokenLine := p.line }
  else if 1 < moved.offset then
    { moved with column := p.column + 1 }
  else moved

/-- The place after `n` steps over the text `cs`; steps past its end read nothing. -/
def advance (p : Place) : Nat → List Char → Place
  | 0, _ => p
  | n + 1, [] => (p.step none).advance n []
  | n + 1, c :: cs => (p.step (some c)).advance n cs

/-- The location of the character read last. -/
def location (p : Place) (source : String) : Location :=
  ⟨p.line, p.column, p.offset, source⟩

end Place

/-- How far a reader of the text `cs`, whose last character is `current`, goes before a character
that `stop` accepts and no backslash precedes; the whole text if there is none. -/
def distanceTo (stop : Char → Bool) : Option Char → List Char → Nat
  | _, [] => 0
  | current, c :: cs =>
      if stop c && current != some '\\' then 0 else distanceTo stop (some c) cs + 1

/-- A reader over a text. -/
structure Cursor where
  /-- The name of the source. -/
  source : String
  /-- The greatest distance that `reset` may go back. -/
  capacity : Nat
  /-- The text that is left. -/
  rest : List Char
  /-- Number of characters read. -/
  taken : Nat := 0
  place : Place := {}
  deriving Repr, Inhabited

namespace Cursor

/-- The number of characters that a reader may step back over unless told otherwise. -/
def defaultCapacity : Nat := 8096

/-- A reader at the start of `text`. -/
def ofString (text source : String) (capacity : Nat) : Cursor where
  source := source
  capacity := capacity
  rest := text.toList

/-- Read one more character, if there is one. -/
def next (c : Cursor) : Cursor :=
  match c.rest with
  | [] => { c with place := c.place.step none }
  | x :: xs => { c with rest := xs, taken := c.taken + 1, place := c.place.step (some x) }

/-- Read `n` times. -/
def advance (c : Cursor) : Nat → Cursor
  | 0 => c
  | n + 1 => c.next.advance n

/-- The character read last. -/
def current (c : Cursor) : Option Char := c.place.current

/-- The character read before the last one. -/
def previous (c : Cursor) : Option Char := c.place.previous

/-- The character that `next` would read. -/
def peek (c : Cursor) : Option Char := c.rest.head?

/-- Up to `n` characters that are next to be read. -/
def ahead (c : Cursor) (n : Nat) : List Char := c.rest.take n

/-- The `n`th character ahead, the current one for zero. -/
def at? (c : Cursor) : Nat → Option Char
  | 0 => c.current
  | n + 1 => c.rest[n]?

/-- The characters next to be read are those of `text`, up to ASCII case if that is to be ignored.
-/
def startsWith (c : Cursor) (text : List Char) (ignoreCase : Bool) : Bool :=
  if ignoreCase then startsWord text c.rest else text.isPrefixOf c.rest

/-- Read `n` characters, or as many as are left. -/
def forward (c : Cursor) (n : Nat) : Cursor :=
  c.advance (min n c.rest.length)

/-- Read up to the character before the first one that `stop` accepts behind no backslash. -/
def forwardUntil (c : Cursor) (stop : Char → Bool) : Cursor :=
  c.advance (distanceTo stop c.current c.rest)

/-- The location of the character read last. -/
def location (c : Cursor) : Location := c.place.location c.source

/-- Go back to the cursor `mark`, unless that gives back more characters than the capacity. The
error is the distance. -/
def reset (c mark : Cursor) : Except Nat Cursor :=
  let distance := c.taken - mark.taken
  if distance ≤ c.capacity then .ok { mark with capacity := c.capacity, source := c.source }
  else .error distance

end Cursor

/-- The wording for a reader that was to step back `distance` characters over its `capacity`. -/
def overrunMessage (distance capacity : Nat) : String :=
  "reset of " ++ toString distance ++ " characters exceeds pushback capacity " ++ toString capacity

end EpubStyle.Text
