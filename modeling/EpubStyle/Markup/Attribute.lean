import EpubStyle.Markup.Library
import EpubStyle.Text.Escape

/-!
# Attributes and references

`attributes` lists the attributes of a tag. One that is not well formed is listed as such: a key
without an equals sign, a key that has occurred before, or a value without quotation marks. A value
that is missing or has no end hides whatever follows.

`unescape` replaces the references in a text. Only the five entities that every document has and
references to characters are known; any other is a fault.
-/

namespace EpubStyle.Markup

/-- What is left behind a place in a list is shorter than the list. -/
theorem length_lt_of_dropWhile {α : Type} {p : α → Bool} {xs ys : List α} {y : α}
    (h : xs.dropWhile p = y :: ys) : ys.length < xs.length := by
  have hle := (List.dropWhile_suffix (l := xs) p).length_le
  rw [h] at hle
  exact Nat.lt_of_succ_le hle

/-- The bytes of a key behind its first: everything before an equals sign or white space. -/
def isKeyByte (b : UInt8) : Bool := b != byte '=' && !isSpace b

/-- The bytes from the next white space on. -/
def toSpace (bytes : List UInt8) : List UInt8 := bytes.dropWhile (fun b => !isSpace b)

/-- The bytes from the next white space on are no more than all. -/
theorem length_toSpace_le (bytes : List UInt8) : (toSpace bytes).length ≤ bytes.length :=
  (List.dropWhile_suffix _).length_le

/-- What stands at the front of a list of attributes. -/
inductive AttributeReading where
  /-- Nothing that can be read, and nothing can be read behind it. -/
  | nothing
  /-- Something that is not well formed. These keys have occurred, and the rest can be read. -/
  | skipped (seen : List (List UInt8)) (rest : List UInt8)
  | found (key value rest : List UInt8)
  deriving DecidableEq, Repr, Inhabited

/-- Read what stands at the front of a list of attributes. The keys `seen` have occurred before. -/
def readAttribute (seen : List (List UInt8)) (bytes : List UInt8) : AttributeReading :=
  match bytes.dropWhile isSpace with
  | [] => .nothing
  | b :: bs =>
      let key := b :: bs.takeWhile isKeyByte
      match (bs.dropWhile isKeyByte).dropWhile isSpace with
      | [] => .nothing
      | x :: value =>
          if x != byte '=' then .skipped seen (x :: value)
          else if seen.contains key then .skipped seen (toSpace value)
          else
            match value.dropWhile isSpace with
            | [] => .nothing
            | q :: quoted =>
                if isQuote q then
                  match quoted.dropWhile (· != q) with
                  | [] => .nothing
                  | _ :: rest => .found key (quoted.takeWhile (· != q)) rest
                else .skipped (key :: seen) (toSpace (q :: quoted))

/-- The bytes that can still be read. -/
def AttributeReading.rest? : AttributeReading → Option (List UInt8)
  | nothing => none
  | skipped _ rest | found _ _ rest => some rest

/-- Reading an attribute takes at least one byte. -/
theorem length_rest_lt {seen : List (List UInt8)} {bytes rest : List UInt8}
    (h : (readAttribute seen bytes).rest? = some rest) : rest.length < bytes.length := by
  unfold readAttribute at h
  split at h
  · cases h
  · next b bs hkey =>
    have hrest := length_lt_of_dropWhile hkey
    have hbehind := (List.dropWhile_suffix (l := bs) isKeyByte).length_le
    dsimp only at h
    split at h
    · cases h
    · next x value hsign =>
      have hvalue := length_lt_of_dropWhile hsign
      have hunread := length_toSpace_le value
      split at h
      · cases h
        simp only [List.length_cons]
        omega
      · split at h
        · cases h
          omega
        · split at h
          · cases h
          · next q quoted hquote =>
            have hquoted := length_lt_of_dropWhile hquote
            split at h
            · split at h
              · cases h
              · next hend =>
                have hafter := length_lt_of_dropWhile hend
                cases h
                omega
            · have hword := length_toSpace_le (q :: quoted)
              simp only [List.length_cons] at hword
              cases h
              omega

/-- The attributes in their order, or none for one that is not well formed. The keys `seen` have
occurred before. -/
def attributes (seen : List (List UInt8)) (bytes : List UInt8) : List (Option Attribute) :=
  match h : readAttribute seen bytes with
  | .nothing => []
  | .skipped seen rest =>
      have : rest.length < bytes.length := length_rest_lt (congrArg AttributeReading.rest? h)
      none :: attributes seen rest
  | .found key value rest =>
      have : rest.length < bytes.length := length_rest_lt (congrArg AttributeReading.rest? h)
      some ⟨key, value⟩ :: attributes (key :: seen) rest
  termination_by bytes.length

/-! ## References -/

/-- The number written by digits that `isDigit` accepts, in the given base. -/
def number? (base : Nat) (isDigit : Char → Bool) (digits : List Char) : Option Nat :=
  if digits.isEmpty || !digits.all isDigit then none
  else some (digits.foldl (fun n c => base * n + Text.hexDigitValue c) 0)

/-- The text that a reference with the given name stands for. -/
def entity? : List Char → Option (List Char)
  | '#' :: 'x' :: digits =>
      ((number? 16 Text.isHexDigit digits).bind Text.Escape.charOfCode).map ([·])
  | '#' :: digits =>
      ((number? 10 Char.isDigit digits).bind Text.Escape.charOfCode).map ([·])
  | name =>
      if name == "lt".toList then some ['<']
      else if name == "gt".toList then some ['>']
      else if name == "amp".toList then some ['&']
      else if name == "apos".toList then some ['\x27']
      else if name == "quot".toList then some ['\x22']
      else none

/-- What is left behind a place in a list is shorter than the list. -/
theorem length_lt_of_drop {α : Type} {n : Nat} {xs ys : List α} {y : α}
    (h : xs.drop n = y :: ys) : ys.length < xs.length := by
  have hle := (List.drop_suffix n xs).length_le
  rw [h] at hle
  exact Nat.lt_of_succ_le hle

/-- A text with its references replaced, unless one of them is unknown or has no semicolon. -/
def unescape : List Char → Option (List Char)
  | [] => some []
  | c :: cs =>
      if c == '&' then
        let name := cs.takeWhile (fun x => x != ';' && x != '&')
        match h : cs.drop name.length with
        | ';' :: rest =>
            have : rest.length < cs.length := length_lt_of_drop h
            (entity? name).bind (fun value => (unescape rest).map (value ++ ·))
        | _ => none
      else (unescape cs).map (c :: ·)
  termination_by cs => cs.length

end EpubStyle.Markup
