import EpubStyle.Text.Chars

/-!
# Units of measure

A number may carry a suffix. A known suffix puts it into one of the classes below, in its canonical
spelling; an unknown one makes it a mere dimension. Numbers without a suffix are reals or integers.
-/

namespace EpubStyle

/-- What a number measures. -/
inductive Measure where
  /-- A number with an unknown suffix. -/
  | dimension
  | percentage
  | length
  | ems
  | exs
  | angle
  | time
  | frequency
  | resolution
  | rems
  /-- A number with a fraction and without a suffix. -/
  | number
  /-- A number with neither fraction nor suffix. -/
  | integer
  deriving DecidableEq, Repr, Inhabited

namespace Measure

/-- The known suffixes in canonical spelling. -/
def suffixes : List (String × Measure) :=
  [("dpcm", resolution), ("dppx", resolution), ("grad", angle), ("turn", angle),
    ("vmin", length), ("deg", angle), ("rad", angle), ("dpi", resolution), ("khz", frequency),
    ("rem", rems), ("cm", length), ("px", length), ("mm", length), ("in", length),
    ("pt", length), ("pc", length), ("ch", length), ("vw", length), ("vh", length),
    ("em", ems), ("ex", exs), ("ms", time), ("hz", frequency), ("s", time), ("%", percentage)]

/-- The canonical spelling and the class of a suffix written in any case. -/
def ofSuffix? (suffix : String) : Option (String × Measure) :=
  suffixes.find? (fun entry => Text.sameText entry.1 suffix)

/-- The greatest number of characters of a known suffix. -/
def longestSuffix : Nat := 4

end Measure

end EpubStyle
