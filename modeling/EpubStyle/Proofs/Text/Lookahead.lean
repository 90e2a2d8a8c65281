import Mathlib.Data.List.Induction
import Mathlib.Data.Nat.Digits.Defs
import EpubStyle.Proofs.Text.Escapes
import EpubStyle.Proofs.Text.Positions

/-!
# Looking ahead for an escape

What a backslash is, is a matter of all the text behind it: nothing, a line break, a character that
stands for itself, or the longest run of one to six hexadecimal digits together with the longest
blank that may end it. `Escape.Meaning` says so, with no bound on what is seen. A reader sees eight
characters.

## What this module delivers

- `Escape.read_eq_iff`: eight characters tell what the whole text tells.
- `Escape.decode_take_iff`: no smaller number of them does.
- `Escape.hexValue_eq`: digits denote their number in base sixteen, each being worth its place in
  the row from `0` to `f`. `Escape.Denotes` says which character an escape has from that number, or
  that there is none.
- `Session.atCursor_meaning_of_run`: wherever a reader gets to a backslash, it finds there what the
  text means; and if that is an escape, going forward by the number that comes with its rendering
  leads to its last character.
-/

set_option autoImplicit false

namespace EpubStyle.Text

/-! ## The longest front of a kind -/

/-- The longest text with the property `P` at the front of a text. -/
structure LongestFront (P : List Char → Prop) (run cs : List Char) : Prop where
  holds : P run
  front : run <+: cs
  longest : ∀ other, P other → other <+: cs → other.length ≤ run.length

/-- There is at most one. -/
theorem LongestFront.unique {P : List Char → Prop} {run other cs : List Char}
    (h : LongestFront P run cs) (h' : LongestFront P other cs) : run = other := by
  have hle := h.longest other h'.holds h'.front
  have hge := h'.longest run h.holds h.front
  exact (List.prefix_of_prefix_length_le h.front h'.front hge).eq_of_length
    (Nat.le_antisymm hge hle)

namespace Escape

/-- One to six hexadecimal digits. -/
structure DigitRun (ds : List Char) : Prop where
  ne_nil : ds ≠ []
  length_le : ds.length ≤ 6
  hex : ∀ d ∈ ds, isHexDigit d = true

/-- Nothing, or one blank, where a carriage return and a line feed are one. -/
def Terminator (blank : List Char) : Prop := blank = [] ∨ ClosingBlank blank

/-- The digits that an escape takes are the longest run. -/
theorem longestFront_digitsAhead {c : Char} (cs : List Char) (h : isHexDigit c = true) :
    LongestFront DigitRun (digitsAhead (c :: cs)) (c :: cs) where
  holds :=
    { ne_nil := digitsAhead_ne_nil cs h
      length_le := length_digitsAhead_le _
      hex := fun _ => isHexDigit_of_mem_digitsAhead }
  front := (List.takeWhile_prefix _).trans (List.take_prefix _ _)
  longest := by
    intro other hother hfront
    -- A run is within the first six characters, and all of it is taken.
    obtain ⟨rest, hrest⟩ := List.prefix_take_iff.2 ⟨hfront, hother.length_le⟩
    rw [digitsAhead, ← hrest, List.takeWhile_append_of_pos hother.hex, List.length_append]
    exact Nat.le_add_right _ _

/-- The blank that an escape takes is the longest one. -/
theorem longestFront_closingBlank (cs : List Char) :
    LongestFront Terminator (closingBlank cs) cs where
  holds := closingBlank_eq_nil_or cs
  front := by
    obtain ⟨⟨rest, hrest⟩, -⟩ := closingBlank_prefix cs
    exact ⟨rest, hrest.symm⟩
  longest := by
    rintro other (rfl | hother) ⟨rest, rfl⟩
    · exact Nat.zero_le _
    · cases hother with
      | pair => exact Nat.le_refl 2
      | single b hb =>
          -- A single blank is taken, or a pair that it begins.
          rw [List.singleton_append]
          unfold closingBlank
          split <;> simp_all

/-! ## What digits denote -/

/-- The digits of base sixteen, from the least to the greatest. -/
def sixteenDigits : List Char := "0123456789abcdef".toList

/-- The number that digits denote in base sixteen. -/
def codeOf (ds : List Char) : Nat :=
  Nat.ofDigits 16 (ds.reverse.map fun d => sixteenDigits.idxOf d.toLower)

/-- A digit is worth its place among the sixteen. -/
theorem hexDigitValue_eq {d : Char} (h : isHexDigit d = true) :
    hexDigitValue d = sixteenDigits.idxOf d.toLower := by
  have hall : ∀ n ≤ 'f'.toNat, isHexDigit (Char.ofNat n) = true →
      hexDigitValue (Char.ofNat n) = sixteenDigits.idxOf (Char.ofNat n).toLower := by
    decide +kernel
  have hle : d.toNat ≤ 'f'.toNat := by
    simp only [isHexDigit, Char.isDigit, Bool.or_eq_true, Bool.and_eq_true, decide_eq_true_eq] at h
    rcases h with (⟨-, h⟩ | ⟨-, h⟩) | ⟨-, h⟩
    all_goals exact Nat.le_trans h (by decide)
  have hd := hall d.toNat hle
  rw [Char.ofNat_toNat] at hd
  exact hd h

/-- **Digits denote their number in base sixteen.** -/
theorem hexValue_eq {ds : List Char} (h : ∀ d ∈ ds, isHexDigit d = true) :
    hexValue ds = codeOf ds := by
  -- From the end, where the fold takes a digit in and the least place of the number is.
  induction ds using List.reverseRecOn with
  | nil => rfl
  | append_singleton ds d ih =>
      have hfront : hexValue ds = codeOf ds := by
        apply ih
        intro x hx
        exact h x (List.mem_append_left _ hx)
      have hd := hexDigitValue_eq (h d (by simp))
      rw [codeOf, List.reverse_concat, List.map_cons, Nat.ofDigits_cons, ← codeOf, ← hfront, ← hd,
        hexValue, List.foldl_concat, Nat.add_comm]
      rfl

/-- What the number `n` makes of an escape: the character with that code. For zero, for surrogates
and above U+10FFFF there is none; such an escape is malformed, and U+FFFD stands for it. -/
structure Denotes (e : Escape) (n : Nat) : Prop where
  malformed_iff : e.malformed = true ↔ n = 0 ∨ (0xD800 ≤ n ∧ n ≤ 0xDFFF) ∨ 0x10FFFF < n
  code : e.malformed = false → e.character.toNat = n
  replaced : e.malformed = true → e.character = '\uFFFD'

theorem denotes_ofDigits (ds blank : List Char) : (ofDigits ds blank).Denotes (hexValue ds) := by
  unfold ofDigits charOfCode
  generalize hexValue ds = n
  by_cases hn : n ≠ 0 ∧ n.isValidChar
  · rw [if_pos hn]
    obtain ⟨hzero, hvalid⟩ := hn
    constructor
    · refine iff_of_false Bool.false_ne_true ?_
      simp only [Nat.isValidChar] at hvalid
      omega
    · intro _
      change (Char.ofNat n).toNat = n
      rw [Char.ofNat, dif_pos hvalid]
      rfl
    · intro hmalformed
      cases hmalformed
  · rw [if_neg hn]
    constructor
    · refine iff_of_true rfl ?_
      simp only [Nat.isValidChar] at hn
      omega
    · intro hmalformed
      cases hmalformed
    · exact fun _ => rfl

/-- An escape is told by what is written of it and by what it denotes. -/
theorem Denotes.unique {e e' : Escape} {n : Nat} (h : e.Denotes n) (h' : e'.Denotes n)
    (hwritten : e.written = e'.written) : e = e' := by
  have hmalformed : e.malformed = e'.malformed := by
    rw [Bool.eq_iff_iff, h.malformed_iff, h'.malformed_iff]
  have hcharacter : e.character = e'.character := by
    cases hcase : e.malformed with
    | true => rw [h.replaced hcase, h'.replaced (hmalformed ▸ hcase)]
    | false => rw [← Char.toNat_inj, h.code hcase, h'.code (hmalformed ▸ hcase)]
  cases e
  cases e'
  simp_all

/-! ## What a backslash means -/

/-- What a backslash before the text `cs` is, by all of that text. -/
inductive Meaning : List Char → Reading → Prop
  | endOfInput : Meaning [] .endOfInput
  | lineBreak (c : Char) (cs : List Char) (h : isLineBreak c = true) :
      Meaning (c :: cs) .lineBreak
  | character (c : Char) (cs : List Char) (hbreak : isLineBreak c = false)
      (hhex : isHexDigit c = false) : Meaning (c :: cs) (.escape ⟨[c], c, false⟩)
  | digits (cs ds blank : List Char) (e : Escape) (hdigits : LongestFront DigitRun ds cs)
      (hblank : LongestFront Terminator blank (cs.drop ds.length))
      (hwritten : e.written = ds ++ blank) (hcode : e.Denotes (codeOf ds)) :
      Meaning cs (.escape e)

/-- What is read is what the text means. -/
theorem meaning_read (cs : List Char) : Meaning cs (Escape.read cs) := by
  cases cs with
  | nil => exact .endOfInput
  | cons c cs =>
      cases hhex : isHexDigit c with
      | true =>
          have hdigits := longestFront_digitsAhead cs hhex
          rw [read_digits hhex]
          refine .digits _ _ _ _ hdigits (longestFront_closingBlank _) (written_ofDigits _ _) ?_
          rw [← hexValue_eq hdigits.holds.hex]
          exact denotes_ofDigits _ _
      | false =>
          cases hbreak : isLineBreak c with
          | true =>
              rw [read_lineBreak cs hbreak]
              exact .lineBreak c cs hbreak
          | false =>
              rw [read_single cs hbreak hhex]
              exact .character c cs hbreak hhex

/-- What the text means is read. -/
theorem Meaning.read_eq {cs : List Char} {r : Reading} (h : Meaning cs r) :
    Escape.read cs = r := by
  cases h with
  | endOfInput => rfl
  | lineBreak c cs h => exact read_lineBreak cs h
  | character c cs hbreak hhex => exact read_single cs hbreak hhex
  | digits _ ds blank e hdigits hblank hwritten hcode =>
      -- The text begins with a digit, so it is read as digits; and those are the longest run.
      obtain ⟨d, ds, rfl⟩ := List.exists_cons_of_ne_nil hdigits.holds.ne_nil
      obtain ⟨rest, rfl⟩ := hdigits.front
      have hd : isHexDigit d = true := hdigits.holds.hex d (List.mem_cons_self ..)
      have hrun := (longestFront_digitsAhead (ds ++ rest) hd).unique hdigits
      have hclosing := (longestFront_closingBlank _).unique hblank
      rw [List.cons_append, read_digits hd, hrun, ← List.cons_append, hclosing]
      congr 1
      refine (denotes_ofDigits _ _).unique ?_ (by rw [written_ofDigits, hwritten])
      rw [hexValue_eq hdigits.holds.hex]
      exact hcode

/-- **Eight characters tell what the whole text tells.** -/
theorem read_eq_iff {cs : List Char} {r : Reading} : Escape.read cs = r ↔ Meaning cs r :=
  ⟨fun h => h ▸ meaning_read cs, Meaning.read_eq⟩

/-- **No smaller number of characters does.** Of six digits, a carriage return and a line feed none
can be missed. -/
theorem decode_take_iff {n : Nat} : (∀ cs, decode (cs.take n) = decode cs) ↔ window ≤ n := by
  constructor
  · intro h
    have hall : ∀ n < window, decode ("000041\r\n".toList.take n) ≠ decode "000041\r\n".toList := by
      decide
    apply Nat.le_of_not_lt
    intro hlt
    exact hall n hlt (h _)
  · intro h cs
    exact decode_take cs h

end Escape

/-! ## Readers on a backslash -/

namespace Escape

variable {cs : List Char} {e : Escape}

theorem length_le_of_read (h : Escape.read cs = .escape e) : e.length ≤ cs.length := by
  obtain ⟨⟨rest, rfl⟩, -⟩ := written_of_read h
  rw [List.length_append]
  exact Nat.le_add_right _ _

/-- An escape is the backslash and as many characters behind it as its length says. -/
theorem sequence_of_read (h : Escape.read cs = .escape e) :
    e.sequence = ('\\' :: cs).take (e.length + 1) := by
  obtain ⟨⟨rest, rfl⟩, -⟩ := written_of_read h
  rw [List.take_succ_cons, Escape.length, List.take_left]
  rfl

end Escape

namespace Cursor

variable {c : Cursor}

theorem atCursor_eq (h : c.current = some '\\') :
    Escape.atCursor c = some (Escape.read c.rest) := by
  rw [Escape.atCursor, h]
  rfl

/-- As long as there is text left, a reader goes forward by reading. -/
theorem forward_eq {n : Nat} (h : n ≤ c.rest.length) : c.forward n = c.advance n := by
  rw [forward, Nat.min_eq_left h]

/-- **A reader that goes forward by the length of an escape** is on its last character. -/
theorem current_forward {e : Escape} (h : Escape.read c.rest = .escape e) :
    (c.forward e.length).current = e.sequence.getLast? := by
  -- There is at least one character behind the backslash, so the last one is not the backslash.
  obtain ⟨n, hn⟩ : ∃ n, e.length = n + 1 :=
    Nat.exists_eq_add_one.2 (List.length_pos_of_ne_nil (Escape.written_of_escape h).ne_nil)
  obtain ⟨⟨rest, hrest⟩, -⟩ := Escape.written_of_read h
  have hlt : n < e.written.length := by
    rw [← Escape.length, hn]
    exact Nat.lt_succ_self n
  rw [forward_eq (Escape.length_le_of_read h), current, place_advanced, hn, Place.current_advance,
    hrest, List.getElem?_append_left hlt, Escape.sequence, List.getLast?_eq_getElem?]
  rw [List.length_cons, Nat.add_sub_cancel, ← Escape.length, hn, List.getElem?_cons_succ]

/-- The character that a reader is on stands before the text that is left. -/
theorem exists_before {text source : String} {capacity n : Nat} {x : Char}
    (h : ((ofString text source capacity).advance n).current = some x) :
    ∃ before, n = before.length + 1 ∧
      text.toList = before ++ x :: ((ofString text source capacity).advance n).rest := by
  rw [current, place_advanced] at h
  cases n with
  | zero => cases h
  | succ n =>
      rw [Place.current_advance] at h
      obtain ⟨hlt, hx⟩ := List.getElem?_eq_some_iff.1 h
      have hlength : n < text.toList.length := hlt
      refine ⟨text.toList.take n, ?_, ?_⟩
      · rw [List.length_take_of_le (Nat.le_of_lt hlength)]
      · rw [rest_advance, ← hx]
        change text.toList =
          text.toList.take n ++ text.toList[n] :: text.toList.drop (n + 1)
        rw [← List.drop_eq_getElem_cons hlength, List.take_append_drop]

end Cursor

namespace Session

/-- **Eight characters of lookahead are exact.**

Whatever moves brought a reader to a backslash, it finds there what all of the text behind means,
and that means nothing else. If it is an escape, its sequence is the backslash and as many
characters of the text behind it as its length says. That length comes with its rendering, whatever
it is rendered behind and whatever may stand unescaped, and going forward by it leads to the last
character of the sequence. -/
theorem atCursor_meaning_of_run {text source : String} {capacity : Nat} {moves : List Move}
    {s : Session} (h : (ofString text source capacity).run moves = some s)
    (hcurrent : s.cursor.current = some '\\') :
    ∃ before r, text.toList = before ++ '\\' :: s.cursor.rest ∧
      Escape.atCursor s.cursor = some r ∧
      (∀ r', Escape.Meaning s.cursor.rest r' ↔ r' = r) ∧
      ∀ e, r = .escape e →
        e.sequence = (text.toList.drop before.length).take (e.length + 1) ∧
        ∀ out literal, (e.renderOnto out literal).2 = e.length ∧
          (s.cursor.forward (e.renderOnto out literal).2).current = e.sequence.getLast? ∧
          s.cursor.forward (e.renderOnto out literal).2 =
            (Cursor.ofString text source capacity).advance
              (before.length + e.sequence.length) := by
  -- The reader is as if it had read on to the backslash, which cuts the text.
  obtain ⟨n, hn⟩ := exists_advance_of_run h
  have hsplit := hcurrent
  rw [hn] at hsplit
  obtain ⟨before, hlength, htext⟩ := Cursor.exists_before hsplit
  rw [← hn] at htext
  have hmeaning (r : Escape.Reading) :
      Escape.Meaning s.cursor.rest r ↔ r = Escape.read s.cursor.rest :=
    Escape.read_eq_iff.symm.trans eq_comm
  refine ⟨before, _, htext, Cursor.atCursor_eq hcurrent, hmeaning, ?_⟩
  intro e hread
  constructor
  · rw [htext, List.drop_left]
    exact Escape.sequence_of_read hread
  · intro out literal
    refine ⟨rfl, Cursor.current_forward hread, ?_⟩
    have hforward := Cursor.forward_eq (Escape.length_le_of_read hread)
    refine hforward.trans ?_
    rw [hn, Cursor.advance_advance, hlength, Escape.sequence, List.length_cons, ← Escape.length,
      Nat.add_right_comm, Nat.add_assoc]

/-- All eight characters are needed: six digits, a carriage return and a line feed. The reader has
looked at them before and has come back. -/
theorem atCursor_meaning_of_run_pair :
    ∃ s, (ofString "a\\00002F\r\n1" "t.css" 9).run
        [.next, .mark, .forward 9, .reset 0, .next] = some s ∧
      s.cursor.current = some '\\' ∧
      Escape.Meaning s.cursor.rest (.escape ⟨"00002F\r\n".toList, '/', false⟩) ∧
      (s.cursor.forward 8).current = some '\n' := by
  obtain ⟨s, hrun, hcurrent, hfound⟩ : ∃ s, (ofString "a\\00002F\r\n1" "t.css" 9).run
      [.next, .mark, .forward 9, .reset 0, .next] = some s ∧ s.cursor.current = some '\\' ∧
        Escape.atCursor s.cursor = some (.escape ⟨"00002F\r\n".toList, '/', false⟩) :=
    ⟨_, rfl, rfl, rfl⟩
  obtain ⟨before, r, -, hr, hmeaning, hescape⟩ := atCursor_meaning_of_run hrun hcurrent
  obtain rfl := Option.some.inj (hfound.symm.trans hr)
  exact ⟨s, hrun, hcurrent, (hmeaning _).2 rfl, ((hescape _ rfl).2 [] isNameChar).2.1⟩

end Session

end EpubStyle.Text
