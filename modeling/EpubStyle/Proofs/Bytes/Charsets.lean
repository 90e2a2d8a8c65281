import EpubStyle.Proofs.Bytes.Streams

/-!
# Which bytes declare a charset

Sniffing looks at the low-order bytes of the complete units behind a byte order mark
(`lowCharacters`) and asks for the first text between equal quotation marks. `Quotes` says where
that text stands: behind an opening and characters that are neither quotation marks nor terminators.

A charset is declared if the opening is `@charset` and the closing quotation mark lies within the
limit of bytes (`DeclaresCharset`). That is not all that is found. The opening is compared with
`@charset` only when its eighth character has been read, and a text may be quoted before that:
`@'x'` has four characters and passes for the charset `x` (`not_forall_sniffCharset_iff`). The main
result says that this is the only exception (`sniffCharset_eq_some_iff`).

A sniffer is followed unit by unit (`Sniffer.run_eq_runChars`). All that it has let through so far
is `Tolerated`, and one more character is looked at in one of five ways (`Sniffer.Taken`).
-/

set_option autoImplicit false

namespace EpubStyle.Bytes

open Text

/-! ## The characters that are looked at -/

/-- Number of bytes of a code unit behind a mark. -/
def unitWidth (mark : Option ByteOrderMark) : Nat := (mark.map ByteOrderMark.unitWidth).getD 1

/-- The values of the complete code units of bytes. Bytes that are left over make no unit. -/
def completeUnits (mark : Option ByteOrderMark) (bytes : List UInt8) : List Nat :=
  match mark with
  | none | some .utf8 => bytes.map UInt8.toNat
  | some .utf16be => (units16 .bigEndian bytes).filterMap id
  | some .utf16le => (units16 .littleEndian bytes).filterMap id
  | some .utf32be => (units32 .bigEndian bytes).filterMap id
  | some .utf32le => (units32 .littleEndian bytes).filterMap id

/-- The low-order bytes of the complete units, read as the characters with these codes. -/
def lowCharacters (mark : Option ByteOrderMark) (bytes : List UInt8) : List Char :=
  (completeUnits mark bytes).map (fun u => Char.ofNat (u % 256))

/-- The name of the rule. -/
def charsetRule : List Char := ['@', 'c', 'h', 'a', 'r', 's', 'e', 't']

/-- The name of the rule has no quotation mark and no terminator. -/
theorem charsetRule_plain : ∀ c ∈ charsetRule, isQuote c = false ∧ isTerminator c = false := by
  simp [charsetRule, isQuote, isTerminator]

/-- A text starts with an opening, characters of no interest, and a name between equal quotation
marks, which are `size` characters in all. -/
def Quotes (opening text : List Char) (size : Nat) (name : List Char) : Prop :=
  ∃ between quote rest, text = opening ++ between ++ quote :: name ++ quote :: rest ∧
    isQuote quote = true ∧ (∀ c ∈ between, isQuote c = false ∧ isTerminator c = false) ∧
    (∀ c ∈ name, c ≠ quote ∧ isTerminator c = false) ∧
    size = opening.length + between.length + name.length + 2

/-- Bytes start with a rule `@charset` and a quoted name, within the limit of bytes. -/
def DeclaresCharset (mark : Option ByteOrderMark) (bytes : List UInt8) (name : String) : Prop :=
  ∃ size, Quotes charsetRule (lowCharacters mark bytes) size name.toList ∧
    unitWidth mark * size < maxCharsetSniff

/-- Bytes start with an at sign and a quoted name, in fewer characters than the name of the rule. -/
def QuotesEarly (mark : Option ByteOrderMark) (bytes : List UInt8) (name : String) : Prop :=
  ∃ size, Quotes ['@'] (lowCharacters mark bytes) size name.toList ∧ size < charsetRule.length

/-! ## From bytes to characters -/

/-- The charset that comes of a decision, or of what follows where there is none yet. -/
def Sniffing.charset (after : Sniffer → Option String) : Sniffing → Option String
  | pending s => after s
  | found charset => some charset
  | failed => none

namespace Sniffer

/-- Take the bytes of a whole unit whose low-order byte is the character `c`. -/
def takeUnit (s : Sniffer) (c : Char) : Sniffing :=
  if maxCharsetSniff ≤ s.consumed + s.width then .failed
  else { s with consumed := s.consumed + s.width }.takeChar c

/-- Take characters until sniffing is decided. -/
def runChars (s : Sniffer) : List Char → Option String
  | [] => none
  | c :: cs => (s.takeUnit c).charset (fun s => s.runChars cs)

theorem run_cons (s : Sniffer) (b : UInt8) (bytes : List UInt8) :
    s.run (b :: bytes) = (s.take b).charset (fun s => s.run bytes) := by
  rw [run]
  cases s.take b <;> rfl

/-- A byte that completes no unit is kept. -/
theorem take_begun {s : Sniffer} (h : s.unit.length + 1 < s.width) (b : UInt8) :
    s.take b = .pending { s with unit := b :: s.unit, consumed := s.consumed + 1 } :=
  if_pos h

/-- A byte that completes a unit is looked at with the others, if it is within the limit. -/
theorem take_complete {s : Sniffer} (h : s.unit.length + 1 = s.width) (b : UInt8) :
    s.take b =
      if maxCharsetSniff ≤ s.consumed + 1 then .failed
      else { s with consumed := s.consumed + 1 }.takeChar (s.lowByte (b :: s.unit)) :=
  if_neg (Nat.not_lt_of_le (Nat.le_of_eq h.symm))

/-- **The bytes of a unit are taken together.** The bytes `begun`, latest first, were taken before
those of `more`. -/
theorem run_unit (s : Sniffer) (begun : List UInt8) {more : List UInt8} (hmore : more ≠ [])
    (hwidth : begun.length + more.length = s.width) (bytes : List UInt8) :
    { s with unit := begun, consumed := s.consumed + begun.length }.run (more ++ bytes) =
      (s.takeUnit (s.lowByte (more.reverse ++ begun))).charset (fun s => s.run bytes) := by
  -- Along the bytes that are still to come. The last of them completes the unit.
  induction more generalizing begun with
  | nil => exact absurd rfl hmore
  | cons b more ih =>
      rw [List.cons_append, run_cons]
      rw [List.length_cons] at hwidth
      cases more with
      | nil =>
          rw [take_complete hwidth, takeUnit, ← hwidth]
          rfl
      | cons d more =>
          have hopen : begun.length + 1 < s.width := by
            rw [← hwidth, List.length_cons]
            omega
          have hrest : (b :: begun).length + (d :: more).length = s.width := by
            rw [← hwidth, List.length_cons]
            omega
          rw [take_begun hopen, List.reverse_cons, List.append_assoc]
          exact ih (b :: begun) (List.cons_ne_nil _ _) hrest

/-- Bytes that complete no unit decide nothing. -/
theorem run_short {s : Sniffer} {bytes : List UInt8} (h : s.unit.length + bytes.length < s.width) :
    s.run bytes = none := by
  induction bytes generalizing s with
  | nil => rfl
  | cons b bytes ih =>
      rw [List.length_cons] at h
      rw [run_cons, take_begun (by omega)]
      apply ih
      rw [List.length_cons, Nat.add_right_comm]
      exact h

/-- A sniffer that has taken a unit has the width that it had and has begun no other unit. -/
theorem takeUnit_pending {s s' : Sniffer} {c : Char} (h : s.takeUnit c = .pending s') :
    s'.mark = s.mark ∧ s'.unit = [] := by
  rw [takeUnit] at h
  split at h
  · cases h
  · obtain ⟨hmark, hunit, -⟩ := takeChar_pending h
    exact ⟨hmark, hunit⟩

end Sniffer

/-- The first unit of bytes gives the first character. -/
theorem lowCharacters_append {mark : Option ByteOrderMark} {unit : List UInt8}
    (h : unit.length = unitWidth mark) (bytes : List UInt8) :
    lowCharacters mark (unit ++ bytes) =
      Sniffer.lowByte { mark := mark } unit.reverse :: lowCharacters mark bytes := by
  have hlow : ∀ b : UInt8, b.toNat % 256 = b.toNat := fun b => Nat.mod_eq_of_lt b.toNat_lt
  match mark, unit, h with
  | none, [a], _ | some .utf8, [a], _ =>
      simp [lowCharacters, completeUnits, Sniffer.lowByte, ByteOrderMark.isLittleEndian, hlow]
  | some .utf16be, [a, b], _ | some .utf16le, [a, b], _ =>
      simp [lowCharacters, completeUnits, Sniffer.lowByte, ByteOrderMark.isLittleEndian, units16,
        ByteOrder.value, Nat.add_mod, hlow]
  | some .utf32be, [a, b, c, d], _ | some .utf32le, [a, b, c, d], _ =>
      simp [lowCharacters, completeUnits, Sniffer.lowByte, ByteOrderMark.isLittleEndian, units32,
        ByteOrder.value, Nat.add_mod, hlow]

/-- Bytes that are no complete unit give no character. -/
theorem lowCharacters_short {mark : Option ByteOrderMark} {bytes : List UInt8}
    (h : bytes.length < unitWidth mark) : lowCharacters mark bytes = [] := by
  match mark, bytes, h with
  | none, [], _ | some .utf8, [], _ => rfl
  | some .utf16be, [], _ | some .utf16le, [], _ => rfl
  | some .utf16be, [a], _ | some .utf16le, [a], _ => rfl
  | some .utf32be, [], _ | some .utf32le, [], _ => rfl
  | some .utf32be, [a], _ | some .utf32le, [a], _ => rfl
  | some .utf32be, [a, b], _ | some .utf32le, [a, b], _ => rfl
  | some .utf32be, [a, b, c], _ | some .utf32le, [a, b, c], _ => rfl

/-- **A sniffer takes bytes as it takes the characters that they stand for.** -/
theorem Sniffer.run_eq_runChars {s : Sniffer} (hunit : s.unit = []) (bytes : List UInt8) :
    s.run bytes = s.runChars (lowCharacters s.mark bytes) := by
  -- Unit by unit: a whole one is taken off the front, and what is shorter decides nothing.
  induction hn : bytes.length using Nat.strongRecOn generalizing s bytes with
  | ind n ih =>
      subst hn
      rcases Nat.lt_or_ge bytes.length s.width with hshort | hlong
      · have hnone : s.run bytes = none := by
          apply run_short
          rw [hunit, List.length_nil, Nat.zero_add]
          exact hshort
        rw [hnone, lowCharacters_short hshort]
        rfl
      · obtain ⟨unit, rest, rfl, hlength⟩ : ∃ unit rest, bytes = unit ++ rest ∧
            unit.length = s.width :=
          ⟨bytes.take s.width, bytes.drop s.width, (List.take_append_drop ..).symm,
            List.length_take_of_le hlong⟩
        have hne : unit ≠ [] := by
          rintro rfl
          exact Nat.ne_of_lt s.width_pos hlength
        have hrun := s.run_unit [] hne (by simpa using hlength) rest
        have hfresh : { s with unit := [], consumed := s.consumed + 0 } = s := by
          rw [← hunit]
          rfl
        rw [List.length_nil, hfresh, List.append_nil] at hrun
        rw [hrun, lowCharacters_append hlength, runChars]
        have hlow : s.lowByte unit.reverse = Sniffer.lowByte { mark := s.mark } unit.reverse := rfl
        rw [hlow]
        cases htake : s.takeUnit (Sniffer.lowByte { mark := s.mark } unit.reverse) with
        | found charset => rfl
        | failed => rfl
        | pending s' =>
            obtain ⟨hmark, hunit'⟩ := takeUnit_pending htake
            have hshorter : rest.length < (unit ++ rest).length := by
              rw [List.length_append, hlength]
              exact Nat.lt_add_of_pos_left s.width_pos
            have hrest := ih rest.length hshorter hunit' rest rfl
            rw [hmark] at hrest
            exact hrest

/-! ## What has been let through -/

/-- The characters of units that a sniffer lets through: nothing in them speaks against the rule,
and they lie within the limit of bytes. -/
structure Tolerated (width : Nat) (front : List Char) : Prop where
  atSign : ∀ c ∈ front.head?, c = '@'
  unterminated : ∀ c ∈ front, isTerminator c = false
  spelled : charsetRule.length ≤ front.length → charsetRule <+: front
  size : width * front.length < maxCharsetSniff

theorem tolerated_nil (width : Nat) : Tolerated width [] where
  atSign := by simp
  unterminated := by simp
  spelled h := absurd h (by decide)
  size := by
    rw [List.length_nil, Nat.mul_zero]
    decide

/-- What comes before tolerated characters is tolerated. -/
theorem Tolerated.ofPrefix {width : Nat} {front more : List Char}
    (h : Tolerated width (front ++ more)) : Tolerated width front where
  atSign c hc := by
    apply h.atSign c
    rw [List.head?_append, hc]
    rfl
  unterminated c hc := h.unterminated c (List.mem_append_left more hc)
  spelled hlength := by
    have hwhole := h.spelled (by rw [List.length_append]; exact Nat.le_add_right_of_le hlength)
    exact List.prefix_of_prefix_length_le hwhole (List.prefix_append front more) hlength
  size := by
    have hwhole := h.size
    rw [List.length_append, Nat.mul_add] at hwhole
    exact Nat.lt_of_le_of_lt (Nat.le_add_right _ _) hwhole

/-- If the next characters of a text are tolerated, then so is the first of them. -/
theorem Tolerated.first {width : Nat} {front more rest cs : List Char} {c : Char}
    (h : Tolerated width (front ++ more)) (hne : more ≠ []) (hcs : c :: cs = more ++ rest) :
    Tolerated width (front ++ [c]) := by
  cases more with
  | nil => exact absurd rfl hne
  | cons d more =>
      obtain ⟨rfl, -⟩ := List.cons.inj hcs
      rw [List.append_cons] at h
      exact h.ofPrefix

/-- What one more character must be like to be tolerated. -/
theorem tolerated_concat_iff {width : Nat} {front : List Char} {c : Char}
    (h : Tolerated width front) :
    Tolerated width (front ++ [c]) ↔
      (front = [] → c = '@') ∧ isTerminator c = false ∧
        (front.length + 1 = charsetRule.length → front ++ [c] = charsetRule) ∧
        width * (front.length + 1) < maxCharsetSniff := by
  constructor
  · intro hmore
    refine ⟨?_, hmore.unterminated c (by simp), ?_, by simpa using hmore.size⟩
    · rintro rfl
      exact hmore.atSign c (by simp)
    · intro hlength
      have hwhole : (front ++ [c]).length = charsetRule.length := by simpa using hlength
      exact ((hmore.spelled (Nat.le_of_eq hwhole.symm)).eq_of_length hwhole.symm).symm
  · rintro ⟨hfirst, hterminator, hspelled, hsize⟩
    refine ⟨?_, ?_, ?_, by simpa using hsize⟩
    · cases front with
      | nil => simpa using hfirst rfl
      | cons d front => simpa using h.atSign
    · intro d hd
      rcases List.mem_append.1 hd with hd | hd
      · exact h.unterminated d hd
      · rw [List.mem_singleton.1 hd]
        exact hterminator
    · intro hlength
      -- Either the rule is complete with this character or it was complete before.
      rcases Nat.lt_or_ge front.length charsetRule.length with hlt | hge
      · have hwhole : front.length + 1 = charsetRule.length := by
          rw [List.length_append, List.length_singleton] at hlength
          omega
        exact ⟨[], by rw [List.append_nil, hspelled hwhole]⟩
      · exact (h.spelled hge).trans (List.prefix_append front [c])

namespace Sniffer

/-- The sniffer has taken whole units, and `front` are their characters. -/
structure Reads (s : Sniffer) (front : List Char) : Prop where
  unit : s.unit = []
  consumed : s.consumed = s.width * front.length
  seen : s.seen = front.reverse
  tolerated : Tolerated s.width front

/-- What comes of one more character. -/
inductive Taken (s : Sniffer) (front : List Char) (c : Char) : Sniffing → Prop
  | refused (h : ¬ Tolerated s.width (front ++ [c])) : Taken s front c .failed
  | before (s' : Sniffer) (h : s'.Reads (front ++ [c])) (hquoted : s.quoted = none)
      (hc : isQuote c = false) (hquoted' : s'.quoted = none) (hmark : s'.mark = s.mark) :
      Taken s front c (.pending s')
  | opened (s' : Sniffer) (h : s'.Reads (front ++ [c])) (hquoted : s.quoted = none)
      (hc : isQuote c = true) (hquoted' : s'.quoted = some (c, [])) (hmark : s'.mark = s.mark) :
      Taken s front c (.pending s')
  | inside (s' : Sniffer) (quote : Char) (name : List Char) (h : s'.Reads (front ++ [c]))
      (hquoted : s.quoted = some (quote, name)) (hc : c ≠ quote)
      (hquoted' : s'.quoted = some (quote, c :: name)) (hmark : s'.mark = s.mark) :
      Taken s front c (.pending s')
  | closed (name : List Char) (h : Tolerated s.width (front ++ [c]))
      (hquoted : s.quoted = some (c, name)) : Taken s front c (.found (String.ofList name.reverse))

/-- **What a sniffer does with one more character.** -/
theorem Reads.taken {s : Sniffer} {front : List Char} (h : s.Reads front) (c : Char) :
    Taken s front c (s.takeUnit c) := by
  have htolerated := tolerated_concat_iff (c := c) h.tolerated
  have hsize : s.consumed + s.width = s.width * (front.length + 1) := by
    rw [h.consumed, Nat.mul_succ]
  have hcount : (c :: s.seen).length = front.length + 1 := by
    rw [List.length_cons, h.seen, List.length_reverse]
  have hseen : (c :: s.seen).reverse = front ++ [c] := by
    rw [List.reverse_cons, h.seen, List.reverse_reverse]
  rw [takeUnit, hsize]
  simp only [takeChar]
  rw [hcount, hseen]
  -- The tests on the character are made one after the other; each that fails refuses it.
  split
  next hlimit =>
    apply Taken.refused
    intro hc
    exact Nat.not_lt_of_le hlimit (htolerated.1 hc).2.2.2
  next hlimit =>
  split
  next hfirst =>
    simp only [Bool.and_eq_true, beq_iff_eq, bne_iff_ne] at hfirst
    apply Taken.refused
    intro hc
    have hnil : front = [] := List.length_eq_zero_iff.1 (Nat.succ.inj hfirst.1)
    exact hfirst.2 ((htolerated.1 hc).1 hnil)
  next hfirst =>
  split
  next hterminator =>
    apply Taken.refused
    intro hc
    exact Bool.eq_false_iff.1 (htolerated.1 hc).2.1 hterminator
  next hterminator =>
  split
  next hspelled =>
    simp only [Bool.and_eq_true, beq_iff_eq, bne_iff_ne] at hspelled
    apply Taken.refused
    intro hc
    exact hspelled.2 ((htolerated.1 hc).2.2.1 hspelled.1)
  next hspelled =>
  simp only [Bool.and_eq_true, beq_iff_eq, bne_iff_ne, ne_eq, not_and,
    Decidable.not_not] at hfirst hspelled
  have hc : Tolerated s.width (front ++ [c]) := by
    rw [htolerated]
    refine ⟨?_, by simpa using hterminator, hspelled, Nat.lt_of_not_le hlimit⟩
    rintro rfl
    exact hfirst rfl
  have hreads : ∀ quoted, Reads
      { s with
        unit := [], consumed := s.width * (front.length + 1), seen := c :: s.seen,
        quoted := quoted } (front ++ [c]) := by
    intro quoted
    refine ⟨rfl, ?_, ?_, hc⟩
    · rw [List.length_append]
      rfl
    · rw [← hseen, List.reverse_reverse]
  split
  next hquoted =>
    split
    next hquote => exact .opened _ (hreads _) hquoted hquote rfl rfl
    next hquote => exact .before _ (hreads _) hquoted (by simpa using hquote) hquoted rfl
  next quote name hquoted =>
    split
    next hclosed =>
      obtain rfl : c = quote := by simpa using hclosed
      exact .closed name hc hquoted
    next hother =>
      exact .inside _ quote name (hreads _) hquoted (by simpa using hother) rfl rfl

/-! ## Runs of a sniffer -/

/-- Inside quotation marks, a sniffer finds what comes before the next one that is equal to the
opening one, if all is tolerated up to there. -/
theorem Reads.runChars_inside_iff {s : Sniffer} {front begun cs : List Char} {quote : Char}
    {name : String} (h : s.Reads front) (hquoted : s.quoted = some (quote, begun)) :
    s.runChars cs = some name ↔
      ∃ more rest, cs = more ++ quote :: rest ∧ quote ∉ more ∧
        name.toList = begun.reverse ++ more ∧ Tolerated s.width (front ++ (more ++ [quote])) := by
  -- Character by character: what is read here moves from `more` to `begun`.
  induction cs generalizing s front begun with
  | nil => simp [runChars]
  | cons c cs ih =>
      rw [runChars]
      have htaken := h.taken c
      generalize s.takeUnit c = r at htaken ⊢
      cases htaken with
      | before s' h' hnone | opened s' h' hnone =>
          rw [hnone] at hquoted
          cases hquoted
      | refused hc =>
          refine iff_of_false (by simp [Sniffing.charset]) ?_
          rintro ⟨more, rest, hcs, -, -, htolerated⟩
          rw [List.append_cons] at hcs
          exact hc (htolerated.first (by simp) hcs)
      | inside s' quote' begun' h' hquoted' hc hnext hmark =>
          obtain ⟨rfl, rfl⟩ := Prod.mk.inj (Option.some.inj (hquoted.symm.trans hquoted'))
          have hwidth : s'.width = s.width := by rw [width, hmark, width]
          rw [Sniffing.charset, ih h' hnext, hwidth]
          constructor
          · rintro ⟨more, rest, rfl, hmem, hname, htolerated⟩
            refine ⟨c :: more, rest, rfl, ?_, ?_, ?_⟩
            · rw [List.mem_cons, not_or]
              exact ⟨Ne.symm hc, hmem⟩
            · rw [hname, List.reverse_cons, ← List.append_cons]
            · rw [List.cons_append, List.append_cons]
              exact htolerated
          · rintro ⟨more, rest, hcs, hmem, hname, htolerated⟩
            cases more with
            | nil => exact absurd (List.cons.inj hcs).1 hc
            | cons d more =>
                obtain ⟨rfl, hrest⟩ := List.cons.inj hcs
                rw [List.mem_cons, not_or] at hmem
                refine ⟨more, rest, hrest, hmem.2, ?_, ?_⟩
                · rw [hname, List.reverse_cons, ← List.append_cons]
                · rw [List.cons_append, List.append_cons] at htolerated
                  exact htolerated
      | closed begun' hc hquoted' =>
          obtain ⟨rfl, rfl⟩ := Prod.mk.inj (Option.some.inj (hquoted.symm.trans hquoted'))
          rw [Sniffing.charset, Option.some_inj]
          constructor
          · rintro rfl
            exact ⟨[], cs, rfl, List.not_mem_nil, by rw [String.toList_ofList, List.append_nil], hc⟩
          · rintro ⟨more, rest, hcs, hmem, hname, -⟩
            cases more with
            | nil => rw [← String.ofList_toList (s := name), hname, List.append_nil]
            | cons d more =>
                obtain ⟨rfl, -⟩ := List.cons.inj hcs
                exact absurd List.mem_cons_self hmem

/-- **A sniffer finds the first quoted text** behind what it has read, if all is tolerated up to the
closing quotation mark. -/
theorem Reads.runChars_iff {s : Sniffer} {front : List Char} (h : s.Reads front)
    (hquoted : s.quoted = none) {cs : List Char} {name : String} :
    s.runChars cs = some name ↔
      ∃ between quote rest, cs = between ++ quote :: name.toList ++ quote :: rest ∧
        isQuote quote = true ∧ (∀ c ∈ between, isQuote c = false) ∧ quote ∉ name.toList ∧
        Tolerated s.width (front ++ (between ++ quote :: name.toList ++ [quote])) := by
  -- Character by character up to the first quotation mark, where the run inside takes over.
  induction cs generalizing s front with
  | nil => simp [runChars]
  | cons c cs ih =>
      rw [runChars]
      have htaken := h.taken c
      generalize s.takeUnit c = r at htaken ⊢
      cases htaken with
      | inside s' quote name h' hsome | closed name h' hsome =>
          rw [hquoted] at hsome
          cases hsome
      | refused hc =>
          refine iff_of_false (by simp [Sniffing.charset]) ?_
          rintro ⟨between, quote, rest, hcs, -, -, -, htolerated⟩
          rw [List.append_cons] at hcs
          exact hc (htolerated.first (by simp) hcs)
      | before s' h' _ hc hnext hmark =>
          have hwidth : s'.width = s.width := by rw [width, hmark, width]
          rw [Sniffing.charset, ih h' hnext, hwidth]
          constructor
          · rintro ⟨between, quote, rest, rfl, hquote, hbetween, hmem, htolerated⟩
            refine ⟨c :: between, quote, rest, rfl, hquote, ?_, hmem, ?_⟩
            · exact List.forall_mem_cons.2 ⟨hc, hbetween⟩
            · rw [List.cons_append, List.cons_append, List.append_cons]
              exact htolerated
          · rintro ⟨between, quote, rest, hcs, hquote, hbetween, hmem, htolerated⟩
            cases between with
            | nil =>
                obtain ⟨rfl, -⟩ := List.cons.inj hcs
                rw [hc] at hquote
                cases hquote
            | cons d between =>
                obtain ⟨rfl, hrest⟩ := List.cons.inj hcs
                refine ⟨between, quote, rest, hrest, hquote, (List.forall_mem_cons.1 hbetween).2,
                  hmem, ?_⟩
                rw [List.cons_append, List.cons_append, List.append_cons] at htolerated
                exact htolerated
      | opened s' h' _ hc hnext hmark =>
          have hwidth : s'.width = s.width := by rw [width, hmark, width]
          rw [Sniffing.charset, h'.runChars_inside_iff hnext, hwidth]
          constructor
          · rintro ⟨more, rest, rfl, hmem, hname, htolerated⟩
            obtain rfl : name.toList = more := hname
            refine ⟨[], c, rest, rfl, hc, by simp, hmem, ?_⟩
            rw [List.append_assoc] at htolerated
            exact htolerated
          · rintro ⟨between, quote, rest, hcs, hquote, hbetween, hmem, htolerated⟩
            cases between with
            | nil =>
                obtain ⟨rfl, hrest⟩ := List.cons.inj hcs
                refine ⟨name.toList, rest, hrest, hmem, rfl, ?_⟩
                rw [List.append_assoc]
                exact htolerated
            | cons d between =>
                obtain ⟨rfl, -⟩ := List.cons.inj hcs
                rw [(List.forall_mem_cons.1 hbetween).1] at hc
                cases hc

end Sniffer

/-! ## Charsets of bytes -/

/-- A text starts with a name between equal quotation marks, and what stands up to the closing one
is tolerated. -/
def QuotesTolerated (width : Nat) (text name : List Char) : Prop :=
  ∃ between quote rest, text = between ++ quote :: name ++ quote :: rest ∧
    isQuote quote = true ∧ (∀ c ∈ between, isQuote c = false) ∧ quote ∉ name ∧
    Tolerated width (between ++ quote :: name ++ [quote])

/-- An opening that starts with an at sign is tolerated with the quoted name behind it, if it spells
the rule or the whole is shorter than the name of the rule. -/
theorem Quotes.tolerated {width size : Nat} {opening text name : List Char}
    (h : Quotes opening text size name) (hat : opening.head? = some '@')
    (hplain : ∀ c ∈ opening, isQuote c = false ∧ isTerminator c = false)
    (hspelled : charsetRule.length ≤ size → charsetRule <+: opening)
    (hsize : width * size < maxCharsetSniff) : QuotesTolerated width text name := by
  obtain ⟨between, quote, rest, htext, hquote, hbetween, hname, hlength⟩ := h
  have hlead : ∀ c ∈ opening ++ between, isQuote c = false ∧ isTerminator c = false := by
    intro c hc
    exact (List.mem_append.1 hc).elim (hplain c) (hbetween c)
  have hmark : isTerminator quote = false := by
    simp only [isQuote, Bool.or_eq_true, beq_iff_eq] at hquote
    rcases hquote with rfl | rfl <;> rfl
  have hwhole : (opening ++ between ++ quote :: name ++ [quote]).length = size := by
    simp only [List.length_append, List.length_cons, List.length_nil]
    omega
  refine ⟨opening ++ between, quote, rest, htext, hquote, fun c hc => (hlead c hc).1,
    fun hmem => (hname quote hmem).1 rfl, ?_, ?_, ?_, by rwa [hwhole]⟩
  · intro c hc
    rw [List.append_assoc, List.append_assoc, List.head?_append, hat] at hc
    exact (Option.some.inj hc).symm
  · intro c hc
    simp only [List.mem_append, List.mem_cons, List.not_mem_nil, or_false] at hc
    rcases hc with (hc | rfl | hc) | rfl
    · exact (hlead c (List.mem_append.2 hc)).2
    · exact hmark
    · exact (hname c hc).2
    · exact hmark
  · intro hlong
    rw [hwhole] at hlong
    rw [List.append_assoc, List.append_assoc]
    exact (hspelled hlong).trans (List.prefix_append _ _)

/-- What stands before the quotation marks of a tolerated text may be split anywhere. -/
theorem quotes_of_tolerated {width : Nat} (opening : List Char) {between rest name : List Char}
    {quote : Char} (hquote : isQuote quote = true) (hbetween : ∀ c ∈ between, isQuote c = false)
    (hname : quote ∉ name)
    (h : Tolerated width (opening ++ between ++ quote :: name ++ [quote])) :
    Quotes opening (opening ++ between ++ quote :: name ++ quote :: rest)
      (opening ++ between ++ quote :: name ++ [quote]).length name := by
  refine ⟨between, quote, rest, rfl, hquote, ?_, ?_, ?_⟩
  · intro c hc
    exact ⟨hbetween c hc, h.unterminated c (by simp [hc])⟩
  · intro c hc
    refine ⟨?_, h.unterminated c (by simp [hc])⟩
    rintro rfl
    exact hname hc
  · simp only [List.length_append, List.length_cons, List.length_nil]
    omega

/-- **A tolerated text spells the rule**, or its quoted name ends before the eighth character. -/
theorem quotesTolerated_iff {width : Nat} (hwidth : width ≤ 4) {text name : List Char} :
    QuotesTolerated width text name ↔
      (∃ size, Quotes charsetRule text size name ∧ width * size < maxCharsetSniff) ∨
        ∃ size, Quotes ['@'] text size name ∧ size < charsetRule.length := by
  constructor
  · rintro ⟨between, quote, rest, rfl, hquote, hbetween, hname, h⟩
    rcases Nat.lt_or_ge (between ++ quote :: name ++ [quote]).length charsetRule.length with
      hshort | hlong
    · -- Too short to have been compared with the rule: only the at sign is certain.
      cases between with
      | nil =>
          obtain rfl : quote = '@' := h.atSign quote rfl
          cases hquote
      | cons c between =>
          obtain rfl : c = '@' := h.atSign c rfl
          exact .inr ⟨_, quotes_of_tolerated ['@'] hquote
            (List.forall_mem_cons.1 hbetween).2 hname h, hshort⟩
    · -- The rule has no quotation mark, so it ends before the opening one.
      have hspelled := h.spelled hlong
      have hrule : charsetRule <+: between := by
        rw [List.append_assoc] at hspelled
        rcases Nat.lt_or_ge between.length charsetRule.length with hlt | hge
        · exfalso
          have hmark : between ++ [quote] <+: between ++ (quote :: name ++ [quote]) := by
            rw [List.prefix_append_right_inj]
            exact List.prefix_append [quote] _
          have hwithin : between ++ [quote] <+: charsetRule := by
            apply List.prefix_of_prefix_length_le hmark hspelled
            rw [List.length_append]
            exact hlt
          rw [(charsetRule_plain quote (hwithin.subset (by simp))).1] at hquote
          cases hquote
        · exact List.prefix_of_prefix_length_le hspelled (List.prefix_append _ _) hge
      obtain ⟨between, rfl⟩ := hrule
      have hafter : ∀ c ∈ between, isQuote c = false := by
        intro c hc
        exact hbetween c (List.mem_append_right _ hc)
      exact .inl ⟨_, quotes_of_tolerated charsetRule hquote hafter hname h, h.size⟩
  · rintro (⟨size, h, hsize⟩ | ⟨size, h, hshort⟩)
    · exact h.tolerated rfl charsetRule_plain (fun _ => List.prefix_rfl) hsize
    · have hat : ∀ c ∈ ['@'], isQuote c = false ∧ isTerminator c = false := by
        simp [isQuote, isTerminator]
      apply h.tolerated rfl hat (fun hlong => absurd hshort (Nat.not_lt_of_le hlong))
      have hrule : charsetRule.length = 8 := rfl
      have hlimit : maxCharsetSniff = 256 := rfl
      have hbound : width * size ≤ 4 * 8 := Nat.mul_le_mul hwidth (by omega)
      omega

/-- **A charset is found exactly where bytes declare it**, or where an at sign and a quoted name end
before the eighth character. -/
theorem sniffCharset_eq_some_iff (mark : Option ByteOrderMark) (bytes : List UInt8)
    (name : String) :
    sniffCharset bytes mark = some name ↔
      DeclaresCharset mark bytes name ∨ QuotesEarly mark bytes name := by
  have hstart : Sniffer.Reads { mark := mark } [] := ⟨rfl, rfl, rfl, tolerated_nil _⟩
  have hrun : sniffCharset bytes mark =
      Sniffer.runChars { mark := mark } (lowCharacters mark bytes) :=
    Sniffer.run_eq_runChars rfl bytes
  rw [hrun, hstart.runChars_iff rfl]
  exact quotesTolerated_iff (Sniffer.width_le { mark := mark })

/-- **Not every charset that is found is declared**: `@'x'` has no rule `@charset`. -/
theorem not_forall_sniffCharset_iff :
    ¬ ∀ (mark : Option ByteOrderMark) (bytes : List UInt8) (name : String),
      sniffCharset bytes mark = some name ↔ DeclaresCharset mark bytes name := by
  intro h
  have hfound : sniffCharset [0x40, 0x27, 0x78, 0x27] none = some "x" := by decide
  obtain ⟨size, ⟨between, quote, rest, htext, -⟩, -⟩ := (h _ _ _).1 hfound
  -- Four characters cannot begin with the eight of the rule.
  have hlength := congrArg List.length htext
  have hfour : (lowCharacters none [0x40, 0x27, 0x78, 0x27]).length = 4 := rfl
  have hrule : charsetRule.length = 8 := rfl
  rw [hfour, List.append_assoc, List.append_assoc, List.length_append] at hlength
  omega

end EpubStyle.Bytes
