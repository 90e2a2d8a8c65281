/-!
# Locations

A location names a character of a source by its line, its column and the number of characters read
up to it. Lines and columns count from one; before anything is read the offset is zero.
-/

namespace EpubStyle

/-- A position in a named source. -/
structure Location where
  /-- Line, counted from one. -/
  line : Nat
  /-- Column, counted from one. -/
  column : Nat
  /-- Characters read up to and including the one at this position. -/
  offset : Nat
  /-- The name of the source, a path or an address, used in messages only. -/
  source : String
  deriving DecidableEq, Repr, Inhabited

namespace Location

/-- The start of a source without a name. -/
def start : Location := ⟨1, 1, 0, ""⟩

/-- The written form: source, line and column with colons between them. -/
def display (l : Location) : String :=
  l.source ++ ":" ++ toString l.line ++ ":" ++ toString l.column

/-- The same place of the same source at other coordinates. -/
def relocate (l : Location) (line column : Nat) : Location :=
  { l with line := line, column := column }

end Location

end EpubStyle
