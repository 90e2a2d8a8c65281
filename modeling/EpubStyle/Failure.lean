import EpubStyle.Text.Cursor
import EpubStyle.Token.Basic

/-!
# Failures

A `Failure` is why a whole operation has no result: the bytes could not be read, the handler of
problems gave up, the markup around a style is not well formed, the source is too large, or the
reader had to step back too far.
-/

namespace EpubStyle

/-- What is wrong with markup. -/
inductive MarkupFault where
  /-- The markup is not well formed at this offset in bytes. -/
  | malformed (offset : Nat)
  /-- Text that is not UTF-8. -/
  | undecodable
  /-- A reference to an unknown entity or to no character. -/
  | badReference
  /-- A `style` element without an end. -/
  | unclosedStyle
  deriving DecidableEq, Repr, Inhabited

/-- The wording of a markup fault. -/
def MarkupFault.message : MarkupFault → String
  | malformed offset => "XML error at byte " ++ toString offset
  | undecodable => "Decode error"
  | badReference => "Unescape error"
  | unclosedStyle => "Unclosed <style> element"

/-- Why an operation has no result. -/
inductive Failure where
  /-- Reading bytes failed with this message. -/
  | io (message : String)
  /-- The handler gave up at this problem. -/
  | aborted (p : Problem)
  | markup (fault : MarkupFault)
  /-- A source of `size` bytes exceeds the limit. -/
  | tooLarge (size limit : Nat)
  /-- The reader was to step back `distance` characters over its capacity. -/
  | overrun (distance capacity : Nat)
  deriving DecidableEq, Repr, Inhabited

/-- The wording of a failure. -/
def Failure.message (locale : Locale) : Failure → String
  | io message => "I/O error: " ++ message
  | aborted p => "Parse aborted: " ++ p.display locale
  | markup fault => "XHTML error: " ++ fault.message
  | tooLarge size limit =>
      "Style sheet is " ++ toString size ++ " bytes, exceeding the limit of " ++ toString limit ++
        " bytes"
  | overrun distance capacity => Text.overrunMessage distance capacity

end EpubStyle
