import Mathlib.Data.List.Basic
import EpubStyle.Text.Cursor

/-!
# Positions in a text

The coordinates that a reader counts step by step are those of the text. The line of a character is
one more than the number of line breaks before it (`lineBreaks`, where a carriage return with a line
feed behind it is one), and its column is one more than the number of characters behind the last of
them (`currentLine`). `Place.Counts` relates what a reader knows to the text that it has read, on
line breaks too, and every step keeps it (`Place.Counts.step`).

A reader may also skip ahead, and go back to marks. A `Session` is a reader with the marks that were
set, and a `Move` is anything that can be done with it. Wherever it gets to, a reader is as if it
had read on to there, with as many steps as its location says (`Session.eq_advance_of_run`): going
back, even between the two halves of a line break or from behind the end, leaves no trace.
-/

set_option autoImplicit false

namespace EpubStyle.Text

/-! ## Lines of a text -/

/-- Number of line breaks of a text. A carriage return and the line feed behind it are one. -/
def lineBreaks : List Char → Nat
  | [] => 0
  | '\r' :: '\n' :: cs => lineBreaks cs + 1
  | c :: cs => lineBreaks cs + if isLineBreak c then 1 else 0

/-- The characters behind the last line break. -/
def currentLine (cs : List Char) : List Char := (cs.reverse.takeWhile (!isLineBreak ·)).reverse

/-- The line feed `c` belongs to the carriage return at the end of `cs`. -/
def completesBreak (cs : List Char) (c : Char) : Bool := c == '\n' && cs.getLast? == some '\r'

theorem completesBreak_iff {cs : List Char} {c : Char} :
    completesBreak cs c = true ↔ c = '\n' ∧ cs.getLast? = some '\r' := by
  simp [completesBreak]

/-- It matters only whether the last character is a carriage return. -/
theorem completesBreak_congr {cs ds : List Char} (c : Char)
    (h : cs.getLast? = some '\r' ↔ ds.getLast? = some '\r') :
    completesBreak cs c = completesBreak ds c := by
  rw [Bool.eq_iff_iff, completesBreak_iff, completesBreak_iff, h]

/-- A character that begins no pair is a line break of its own or none. -/
theorem lineBreaks_cons {c : Char} {cs : List Char} (h : c = '\r' → cs.head? ≠ some '\n') :
    lineBreaks (c :: cs) = lineBreaks cs + if isLineBreak c then 1 else 0 := by
  apply lineBreaks.eq_3
  rintro rest rfl rfl
  exact h rfl rfl

/-- One more character is a line break of its own, or the second half of one, or none. -/
theorem lineBreaks_concat (cs : List Char) (c : Char) :
    lineBreaks (cs ++ [c]) =
      lineBreaks cs + if isLineBreak c && !completesBreak cs c then 1 else 0 := by
  -- The text ends, or begins with a pair, or with a character of its own. Only where that is the
  -- last one before `c` may the two be a pair that is new.
  fun_induction lineBreaks cs with
  | case1 => simp [lineBreaks, completesBreak]
  | case2 cs ih =>
      have hlast : completesBreak ('\r' :: '\n' :: cs) c = completesBreak cs c := by
        apply completesBreak_congr
        cases cs <;> simp
      rw [List.cons_append, List.cons_append, lineBreaks, ih, hlast, Nat.add_right_comm]
  | case3 d cs hpair ih =>
      cases cs with
      | nil =>
          cases hlast : completesBreak [d] c with
          | true =>
              obtain ⟨rfl, hd⟩ := completesBreak_iff.1 hlast
              obtain rfl : d = '\r' := by simpa using hd
              rfl
          | false =>
              have hhead : d = '\r' → [c].head? ≠ some '\n' := by
                rintro rfl hc
                obtain rfl : c = '\n' := by simpa using hc
                cases hlast
              rw [List.singleton_append, lineBreaks_cons hhead]
              simp [lineBreaks, Nat.add_comm]
      | cons e cs =>
          have hhead : d = '\r' → ((e :: cs) ++ [c]).head? ≠ some '\n' := by
            rintro hd he
            obtain rfl : e = '\n' := by simpa using he
            exact hpair cs hd rfl
          have hlast : completesBreak (d :: e :: cs) c = completesBreak (e :: cs) c := by
            apply completesBreak_congr
            rw [List.getLast?_cons_cons]
          rw [List.cons_append, lineBreaks_cons hhead, ih, hlast, Nat.add_right_comm]

/-- One more character ends the line or belongs to it. -/
theorem currentLine_concat (cs : List Char) (c : Char) :
    currentLine (cs ++ [c]) = if isLineBreak c then [] else currentLine cs ++ [c] := by
  cases hc : isLineBreak c <;> simp [currentLine, hc]

theorem length_currentLine_concat (cs : List Char) {c : Char} (hc : isLineBreak c = false) :
    (currentLine (cs ++ [c])).length = (currentLine cs).length + 1 := by
  rw [currentLine_concat, hc, if_neg Bool.false_ne_true, List.length_append]
  rfl

/-! ## Places -/

namespace Place

/-- A reader has taken as many steps as it was told to. -/
theorem offset_step (p : Place) (c : Option Char) : (p.step c).offset = p.offset + 1 := by
  simp only [step]
  repeat' split
  all_goals rfl

/-- Every step is counted, those behind the end too. -/
theorem offset_advance (p : Place) (n : Nat) (cs : List Char) :
    (p.advance n cs).offset = p.offset + n := by
  induction n generalizing p cs with
  | zero => rfl
  | succ n ih => cases cs <;> rw [advance, ih, offset_step, Nat.add_right_comm, Nat.add_assoc]

/-- The character of a step is the current one. -/
theorem current_step (p : Place) (c : Option Char) : (p.step c).current = c := by
  simp only [step]
  repeat' split
  all_goals rfl

/-- Steps may be taken in two parts. -/
theorem advance_add (p : Place) (m n : Nat) (cs : List Char) :
    p.advance (m + n) cs = (p.advance m cs).advance n (cs.drop m) := by
  induction m generalizing p cs with
  | zero => rw [Nat.zero_add]; rfl
  | succ m ih =>
      rw [Nat.add_right_comm]
      cases cs with
      | nil => rw [advance, advance, ih, List.drop_nil, List.drop_nil]
      | cons c cs => rw [advance, advance, ih, List.drop_succ_cons]

/-- The current character is that of the last step; behind the end there is none. -/
theorem current_advance (p : Place) (n : Nat) (cs : List Char) :
    (p.advance (n + 1) cs).current = cs[n]? := by
  induction n generalizing p cs with
  | zero => cases cs <;> exact current_step _ _
  | succ n ih =>
      cases cs with
      | nil => rw [advance, ih]; rfl
      | cons c cs => rw [advance, ih, List.getElem?_cons_succ]

/-- What a reader knows behind the text `cs`. -/
structure Counts (p : Place) (cs : List Char) : Prop where
  current : p.current = cs.getLast?
  offset : p.offset = cs.length
  line : p.line = lineBreaks cs + 1
  /-- Behind a line break the column is to be set back at the next character. -/
  broken : ∀ c ∈ cs.getLast?, isLineBreak c = true → p.brokenLine < p.line
  /-- Otherwise it is that of the last character, or of the first one if there is none yet. -/
  unbroken : (∀ c ∈ cs.getLast?, isLineBreak c = false) →
    p.brokenLine = p.line ∧ p.column = max 1 (currentLine cs).length

/-- What a reader knows at the start. -/
theorem counts_nil : Counts {} [] where
  current := rfl
  offset := rfl
  line := rfl
  broken := by simp
  unbroken := fun _ => ⟨rfl, rfl⟩

namespace Counts

variable {p : Place} {cs : List Char} {c : Char}

/-- The second half of a line break changes nothing. -/
theorem step_completes (h : p.Counts cs) (hc : completesBreak cs c = true) :
    (p.step (some c)).Counts (cs ++ [c]) := by
  have hcount := lineBreaks_concat cs c
  rw [hc, Bool.not_true, Bool.and_false] at hcount
  obtain ⟨rfl, hlast⟩ := completesBreak_iff.1 hc
  have hstep : p.step (some '\n') =
      { p with previous := p.current, current := some '\n', offset := p.offset + 1 } := by
    simp [step, h.current, hlast]
  rw [hstep]
  constructor
  · simp
  · simp [h.offset]
  · rw [hcount]
    exact h.line
  · intro _ _ _
    exact h.broken '\r' hlast rfl
  · intro hother
    exact absurd (hother '\n' (by simp)) (by decide)

/-- Any other line break is counted where it starts. -/
theorem step_breaks (h : p.Counts cs) (hc : isLineBreak c = true)
    (hpair : completesBreak cs c = false) : (p.step (some c)).Counts (cs ++ [c]) := by
  have hcount := lineBreaks_concat cs c
  rw [hc, hpair] at hcount
  have hstep : p.step (some c) =
      { p with
        previous := p.current, current := some c, offset := p.offset + 1
        brokenLine := p.line, line := p.line + 1 } := by
    have hcurrent : (c == '\n' && p.current == some '\r') = false := by
      rw [h.current]
      exact hpair
    have hbreak : (c == '\n' || c == '\r' || c == '\x0c') = true := hc
    simp only [step, Option.some_beq_some, hcurrent, hbreak, if_true, Bool.false_eq_true, if_false]
  rw [hstep]
  constructor
  · simp
  · simp [h.offset]
  · rw [hcount]
    exact congrArg (· + 1) h.line
  · intro _ _ _
    exact Nat.lt_succ_self _
  · intro hother
    rw [hother c (by simp)] at hc
    cases hc

/-- Where a character that is no line break leads: to the column behind those of its line. -/
theorem step_eq (h : p.Counts cs) (hc : isLineBreak c = false) :
    p.step (some c) =
      { p with
        previous := p.current, current := some c, offset := p.offset + 1
        column := (currentLine cs).length + 1, brokenLine := p.line } := by
  have hpair : (c == '\n' && p.current == some '\r') = false := by
    rw [Bool.and_eq_false_iff]
    refine .inl (beq_eq_false_iff_ne.2 ?_)
    rintro rfl
    cases hc
  have hbreak : (c == '\n' || c == '\r' || c == '\x0c') = false := hc
  by_cases hbroken : ∃ d ∈ cs.getLast?, isLineBreak d = true
  · -- The first character behind a line break: the column is set back.
    obtain ⟨d, hd, hdBreak⟩ := hbroken
    obtain ⟨before, rfl⟩ := List.getLast?_eq_some_iff.1 hd
    have hempty : currentLine (before ++ [d]) = [] := by
      rw [currentLine_concat, hdBreak, if_pos rfl]
    simp [Place.step, hpair, hbreak, h.broken d hd hdBreak, hempty]
  · have hlast : ∀ d ∈ cs.getLast?, isLineBreak d = false := by
      intro d hd
      rw [← Bool.not_eq_true]
      exact fun hdBreak => hbroken ⟨d, hd, hdBreak⟩
    obtain ⟨hsame, hcolumn⟩ := h.unbroken hlast
    -- The first character of all does not move the column.
    rcases List.eq_nil_or_concat' cs with rfl | ⟨before, d, rfl⟩
    · simp [Place.step, hpair, hbreak, hsame, h.offset, hcolumn, currentLine]
    · rw [length_currentLine_concat before (hlast d (by simp))] at hcolumn ⊢
      simp [Place.step, hpair, hbreak, hsame, h.offset, hcolumn]

/-- A character that is no line break is the first of its line or follows another one. -/
theorem step_other (h : p.Counts cs) (hc : isLineBreak c = false) :
    (p.step (some c)).Counts (cs ++ [c]) := by
  have hcount := lineBreaks_concat cs c
  rw [hc, Bool.false_and] at hcount
  rw [h.step_eq hc]
  constructor
  · simp
  · simp [h.offset]
  · rw [hcount]
    exact h.line
  · intro d hd hdBreak
    obtain rfl : c = d := by simpa using hd
    rw [hc] at hdBreak
    cases hdBreak
  · intro _
    refine ⟨rfl, ?_⟩
    rw [length_currentLine_concat cs hc]
    exact (Nat.max_eq_right (Nat.le_add_left 1 _)).symm

/-- **One more character is counted**, whatever it is. -/
theorem step (h : p.Counts cs) (c : Char) : (p.step (some c)).Counts (cs ++ [c]) := by
  cases hc : isLineBreak c with
  | false => exact h.step_other hc
  | true =>
      cases hpair : completesBreak cs c with
      | false => exact h.step_breaks hc hpair
      | true => exact h.step_completes hpair

/-- **A text is counted character by character.** -/
theorem advance {n : Nat} {ds : List Char} (h : p.Counts cs) (hn : n ≤ ds.length) :
    (p.advance n ds).Counts (cs ++ ds.take n) := by
  induction n generalizing p cs ds with
  | zero => simpa [Place.advance] using h
  | succ n ih =>
      obtain ⟨d, ds, rfl⟩ := List.exists_cons_of_length_pos (Nat.lt_of_lt_of_le n.succ_pos hn)
      have hrest := ih (h.step d) (Nat.le_of_succ_le_succ hn)
      rw [List.append_assoc] at hrest
      exact hrest

/-- **The position of a character that is no line break** is told by what stands before it. -/
theorem location (h : p.Counts (cs ++ [c])) (hc : isLineBreak c = false) (source : String) :
    p.location source =
      ⟨lineBreaks cs + 1, (currentLine cs).length + 1, cs.length + 1, source⟩ := by
  have hline := h.line
  have hoffset := h.offset
  obtain ⟨-, hcolumn⟩ := h.unbroken (by simpa using hc)
  rw [lineBreaks_concat, hc, Bool.false_and] at hline
  rw [length_currentLine_concat cs hc] at hcolumn
  rw [List.length_append, List.length_singleton] at hoffset
  rw [Place.location, hline, hoffset, hcolumn, Nat.max_eq_right (Nat.le_add_left 1 _)]
  rfl

end Counts

/-- **The position of a character that is no line break**, wherever it is in a text. -/
theorem location_advance {cs : List Char} {n : Nat} {c : Char} (hc : cs[n]? = some c)
    (hbreak : isLineBreak c = false) (source : String) :
    (advance {} (n + 1) cs).location source =
      ⟨lineBreaks (cs.take n) + 1, (currentLine (cs.take n)).length + 1, n + 1, source⟩ := by
  obtain ⟨hlt, rfl⟩ := List.getElem?_eq_some_iff.1 hc
  have hcounts := counts_nil.advance (Nat.succ_le_of_lt hlt)
  rw [List.nil_append, List.take_succ_eq_append_getElem hlt] at hcounts
  rw [hcounts.location hbreak, List.length_take_of_le (Nat.le_of_lt hlt)]

end Place

/-! ## Cursors -/

namespace Cursor

/-- A cursor keeps count of the text that it has read. -/
theorem place_advanced (c : Cursor) (n : Nat) :
    (c.advance n).place = c.place.advance n c.rest := by
  induction n generalizing c with
  | zero => rfl
  | succ n ih =>
      rw [Cursor.advance, ih]
      rcases hrest : c.rest with - | ⟨x, xs⟩ <;> simp [Cursor.next, Place.advance, hrest]

/-- What a cursor has read is gone from the text that is left. -/
theorem rest_advance (c : Cursor) (n : Nat) : (c.advance n).rest = c.rest.drop n := by
  induction n generalizing c with
  | zero => rfl
  | succ n ih =>
      rw [Cursor.advance, ih]
      rcases hrest : c.rest with - | ⟨x, xs⟩ <;> simp [Cursor.next, hrest]

theorem advance_advance (c : Cursor) (m n : Nat) : (c.advance m).advance n = c.advance (m + n) := by
  induction m generalizing c with
  | zero => rw [Nat.zero_add]; rfl
  | succ m ih => rw [Nat.add_right_comm, Cursor.advance, Cursor.advance, ih]

/-- Reading changes neither the source nor the capacity. -/
theorem source_advance (c : Cursor) (n : Nat) :
    (c.advance n).source = c.source ∧ (c.advance n).capacity = c.capacity := by
  induction n generalizing c with
  | zero => exact ⟨rfl, rfl⟩
  | succ n ih =>
      obtain ⟨hsource, hcapacity⟩ := ih c.next
      rw [Cursor.advance, hsource, hcapacity, Cursor.next]
      cases c.rest <;> exact ⟨rfl, rfl⟩

end Cursor

/-! ## Sessions -/

/-- What can be done with a reader. -/
inductive Move where
  | next
  | forward (n : Nat)
  | forwardUntil (stop : Char → Bool)
  /-- Set a mark where the reader stands. -/
  | mark
  /-- Go back to a mark, counted from the first one that was set. -/
  | reset (k : Nat)

/-- A reader and the marks that were set, the first one first. -/
structure Session where
  cursor : Cursor
  marks : List Cursor := []

namespace Session

/-- A reader at the start of a text. -/
def ofString (text source : String) (capacity : Nat) : Session where
  cursor := Cursor.ofString text source capacity

/-- One move. A move to a mark fails if there is none or if it is out of reach. -/
def move (s : Session) : Move → Option Session
  | .next => some { s with cursor := s.cursor.next }
  | .forward n => some { s with cursor := s.cursor.forward n }
  | .forwardUntil stop => some { s with cursor := s.cursor.forwardUntil stop }
  | .mark => some { s with marks := s.marks ++ [s.cursor] }
  | .reset k => do
      let mark ← s.marks[k]?
      let cursor ← (s.cursor.reset mark).toOption
      some { s with cursor := cursor }

/-- Only a move to a mark can fail: there is no such mark, or it is too far back. -/
theorem move_eq_none_iff {s : Session} {m : Move} :
    s.move m = none ↔
      ∃ k, m = .reset k ∧
        ∀ mark ∈ s.marks[k]?, s.cursor.capacity < s.cursor.taken - mark.taken := by
  cases m with
  | reset k =>
      simp only [move, Option.bind_eq_bind, Move.reset.injEq, exists_eq_left']
      cases s.marks[k]? with
      | none => simp
      | some mark =>
          simp only [Option.bind_some, Option.mem_some_iff, forall_eq', Cursor.reset]
          split
          case isTrue hle => simp [Except.toOption, Nat.not_lt_of_le hle]
          case isFalse hlt => simp [Except.toOption, Nat.lt_of_not_le hlt]
  | _ => simp [move]

/-- Moves one after the other. -/
def run (s : Session) : List Move → Option Session
  | [] => some s
  | m :: moves => do
      let s ← s.move m
      s.run moves

/-- The reader and all its marks are where a reader gets by reading on from `start`. -/
structure From (start : Cursor) (s : Session) : Prop where
  cursor : ∃ n, s.cursor = start.advance n
  marks : ∀ m ∈ s.marks, ∃ n, m = start.advance n

/-- **Every move leads to where reading on leads.** -/
theorem From.move {start : Cursor} {s s' : Session} (h : s.From start) {m : Move}
    (hm : s.move m = some s') : s'.From start := by
  obtain ⟨n, hn⟩ := h.cursor
  cases m with
  | next =>
      obtain rfl := Option.some.inj hm
      refine ⟨⟨n + 1, ?_⟩, h.marks⟩
      rw [← Cursor.advance_advance, ← hn]
      rfl
  | forward k =>
      obtain rfl := Option.some.inj hm
      refine ⟨⟨n + min k s.cursor.rest.length, ?_⟩, h.marks⟩
      rw [← Cursor.advance_advance, ← hn]
      rfl
  | forwardUntil stop =>
      obtain rfl := Option.some.inj hm
      refine ⟨⟨n + distanceTo stop s.cursor.current s.cursor.rest, ?_⟩, h.marks⟩
      rw [← Cursor.advance_advance, ← hn]
      rfl
  | mark =>
      obtain rfl := Option.some.inj hm
      refine ⟨h.cursor, fun m hmem => ?_⟩
      rcases List.mem_append.1 hmem with hmem | hmem
      · exact h.marks m hmem
      · rw [List.mem_singleton.1 hmem]
        exact h.cursor
  | reset k =>
      obtain ⟨mark, hmark, hm⟩ := Option.bind_eq_some_iff.1 hm
      obtain ⟨cursor, hcursor, hm⟩ := Option.bind_eq_some_iff.1 hm
      obtain rfl := Option.some.inj hm
      refine ⟨?_, h.marks⟩
      obtain ⟨k', rfl⟩ := h.marks mark (List.mem_of_getElem? hmark)
      -- The mark has the source and the capacity that the reader has.
      have hstart := start.source_advance k'
      have hnow := start.source_advance n
      rw [← hn] at hnow
      simp only [Cursor.reset] at hcursor
      split at hcursor
      · obtain rfl := Option.some.inj hcursor
        refine ⟨k', ?_⟩
        rw [hnow.1, hnow.2, ← hstart.1, ← hstart.2]
      · cases hcursor

/-- Moves lead to where reading on leads. -/
theorem From.run {start : Cursor} {s s' : Session} (h : s.From start) {moves : List Move}
    (hrun : s.run moves = some s') : s'.From start := by
  induction moves generalizing s with
  | nil =>
      obtain rfl := Option.some.inj hrun
      exact h
  | cons m moves ih =>
      obtain ⟨t, ht, hrest⟩ := Option.bind_eq_some_iff.1 hrun
      exact ih (h.move ht) hrest

/-- A reader that started at a text is where reading on leads. -/
theorem exists_advance_of_run {text source : String} {capacity : Nat} {moves : List Move}
    {s : Session} (h : (ofString text source capacity).run moves = some s) :
    ∃ n, s.cursor = (Cursor.ofString text source capacity).advance n := by
  have hstart : From (Cursor.ofString text source capacity) (ofString text source capacity) :=
    ⟨⟨0, rfl⟩, by simp [ofString]⟩
  exact (hstart.run h).cursor

/-- **The state of a reader is told by its location**, and the location by the text.

Whatever moves were made, a reader is where another one gets that reads as many characters as the
offset says. If it stands on a character that is no line break, that is the character of the text at
the offset, its line is one more than the number of line breaks before it, and its column one more
than the number of characters behind the last of them. -/
theorem eq_advance_of_run {text source : String} {capacity : Nat} {moves : List Move} {s : Session}
    (h : (ofString text source capacity).run moves = some s) :
    s.cursor = (Cursor.ofString text source capacity).advance s.cursor.location.offset ∧
      ∀ c, s.cursor.current = some c → isLineBreak c = false →
        ∃ before after, text.toList = before ++ c :: after ∧
          s.cursor.location =
            ⟨lineBreaks before + 1, (currentLine before).length + 1, before.length + 1,
              source⟩ := by
  obtain ⟨n, hn⟩ := exists_advance_of_run h
  have hplace : s.cursor.place = Place.advance {} n text.toList := by
    rw [hn, Cursor.place_advanced]
    rfl
  -- The offset counts the steps, so it tells how far the reader has got.
  have hoffset : s.cursor.location.offset = n := by
    have hcount := Place.offset_advance {} n text.toList
    rw [← hplace] at hcount
    exact hcount.trans (Nat.zero_add n)
  rw [hoffset]
  refine ⟨hn, ?_⟩
  intro c hcurrent hc
  have hsource : s.cursor.source = source := by
    rw [hn]
    exact (Cursor.source_advance _ n).1
  rw [Cursor.current, hplace] at hcurrent
  rw [Cursor.location, hplace, hsource]
  cases n with
  | zero => cases hcurrent
  | succ n =>
      rw [Place.current_advance] at hcurrent
      obtain ⟨hlt, htext⟩ := List.getElem?_eq_some_iff.1 hcurrent
      refine ⟨text.toList.take n, text.toList.drop (n + 1), ?_, ?_⟩
      · rw [← htext, ← List.drop_eq_getElem_cons hlt, List.take_append_drop]
      · rw [Place.location_advance hcurrent hc, List.length_take_of_le (Nat.le_of_lt hlt)]

/-- A mark between the halves of a line break, from which the reader goes behind the end of the text
and comes back. -/
theorem eq_advance_of_run_brokenPair :
    ∃ s, (ofString "a\r\nb\x0cc" "t.css" 4).run
        [.next, .forwardUntil (· == '\n'), .mark, .forward 9, .next, .reset 0, .next, .next] =
          some s ∧
      s.cursor.current = some 'b' ∧
      s.cursor = (Cursor.ofString "a\r\nb\x0cc" "t.css" 4).advance s.cursor.location.offset ∧
      ∃ before after, "a\r\nb\x0cc".toList = before ++ 'b' :: after ∧
        s.cursor.location =
          ⟨lineBreaks before + 1, (currentLine before).length + 1, before.length + 1, "t.css"⟩ := by
  obtain ⟨s, hrun, hcurrent⟩ : ∃ s, (ofString "a\r\nb\x0cc" "t.css" 4).run
      [.next, .forwardUntil (· == '\n'), .mark, .forward 9, .next, .reset 0, .next, .next] =
        some s ∧ s.cursor.current = some 'b' := ⟨_, rfl, rfl⟩
  obtain ⟨hread, hlocation⟩ := eq_advance_of_run hrun
  exact ⟨s, hrun, hcurrent, hread, hlocation 'b' hcurrent rfl⟩

end Session

end EpubStyle.Text
