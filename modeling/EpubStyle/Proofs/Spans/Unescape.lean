import EpubStyle.Proofs.Rescan.Names

/-!
# Decoding a text

`Text.unescape` replaces every escape of a text by the character it stands for. A backslash that
starts no escape stays.

What an escape is depends on what stands behind it, but on one character only: `Escape.goesOn` says
which character would be taken into the digits, or into the blank that ends them, and what was read
as an escape is the same escape in front of any other text (`Escape.read_append_iff`). If digits are
taken in, all of those at the front of the text behind are, up to six in a row
(`Escape.read_digits_append`).
-/

set_option autoImplicit false

namespace EpubStyle.Text

namespace Escape

/-! ## What an escape takes -/

/-- The digits at the front of a text that an escape of `n` digits takes. -/
def moreDigits (n : Nat) (cs : List Char) : List Char := (cs.take (6 - n)).takeWhile isHexDigit

theorem isHexDigit_of_mem_moreDigits {n : Nat} {cs : List Char} {c : Char}
    (h : c ∈ moreDigits n cs) : isHexDigit c = true :=
  List.all_eq_true.1 List.all_takeWhile c h

theorem moreDigits_eq_nil_iff {n : Nat} {cs : List Char} :
    moreDigits n cs = [] ↔ ∀ c ∈ cs.head?, n < 6 → isHexDigit c = false := by
  unfold moreDigits
  cases cs with
  | nil => simp
  | cons c cs =>
      by_cases hn : n < 6
      · obtain ⟨m, hm⟩ : ∃ m, 6 - n = m + 1 := ⟨5 - n, by omega⟩
        cases hc : isHexDigit c <;> simp [hm, hn, hc]
      · simp [hn, Nat.sub_eq_zero_of_le (Nat.le_of_not_lt hn)]

theorem closingBlank_eq_nil_iff {cs : List Char} :
    closingBlank cs = [] ↔ ∀ c ∈ cs.head?, isBlank c = false := by
  constructor
  · intro h c hc
    obtain ⟨rest, rfl⟩ : ∃ rest, cs = c :: rest := List.head?_eq_some_iff.1 hc
    rw [← Bool.not_eq_true]
    intro hblank
    unfold closingBlank at h
    split at h <;> simp_all
  · exact closingBlank_of_not_blank

/-- **Digits before a text** are read with the digits at its front. -/
theorem read_digits_append {ds : List Char} (hne : ds ≠ []) (hlength : ds.length ≤ 6)
    (hhex : ∀ c ∈ ds, isHexDigit c = true) (cs : List Char) :
    Escape.read (ds ++ cs) = .escape (ofDigits (ds ++ moreDigits ds.length cs)
      (closingBlank (cs.drop (moreDigits ds.length cs).length))) := by
  obtain ⟨d, ds, rfl⟩ := List.exists_cons_of_ne_nil hne
  have hahead : digitsAhead (d :: ds ++ cs) =
      d :: ds ++ moreDigits (d :: ds).length cs := by
    rw [digitsAhead, List.take_append, List.take_of_length_le hlength,
      List.takeWhile_append_of_pos hhex]
    rfl
  have hread := @read_digits d (ds ++ cs) (hhex d (List.mem_cons_self ..))
  rw [← List.cons_append, hahead] at hread
  rwa [List.length_append, List.drop_length_add_append] at hread

/-- Digits with a blank are the whole escape if neither a digit nor more of a blank follows. -/
theorem read_ofDigits_iff {ds blank : List Char} (hne : ds ≠ []) (hlength : ds.length ≤ 6)
    (hhex : ∀ c ∈ ds, isHexDigit c = true) (hblank : blank = [] ∨ ClosingBlank blank)
    (cs : List Char) :
    Escape.read (ds ++ cs) = .escape (ofDigits ds blank) ↔
      moreDigits ds.length cs = [] ∧ closingBlank cs = blank := by
  rw [read_digits_append hne hlength hhex]
  constructor
  · intro heq
    have hwritten := congrArg written (Reading.escape.inj heq)
    rw [written_ofDigits, written_ofDigits, List.append_assoc] at hwritten
    have hrest := List.append_cancel_left hwritten
    -- A blank does not start with a digit, so there are no more digits.
    have hmore : moreDigits ds.length cs = [] := by
      cases hcases : moreDigits ds.length cs with
      | nil => rfl
      | cons c more =>
          have hc : isHexDigit c = true :=
            isHexDigit_of_mem_moreDigits (hcases ▸ List.mem_cons_self ..)
          rw [hcases] at hrest
          rcases hblank with rfl | hblank
          · cases hrest
          · obtain ⟨b, rest, rfl, hb⟩ := hblank.exists_cons
            rw [(List.cons.inj hrest).1, hb] at hc
            cases hc
    rw [hmore] at hrest
    exact ⟨hmore, hrest⟩
  · rintro ⟨hmore, rfl⟩
    rw [hmore, List.append_nil]
    rfl

/-! ## What ends an escape -/

/-- The escape as it is written would go on with the character `c` behind it: one digit more, the
blank that ends the digits, or the second half of a line break. -/
def goesOn (e : Escape) (c : Char) : Bool :=
  if e.written.all isHexDigit then isBlank c || decide (e.length < 6) && isHexDigit c
  else e.written.getLast? == some '\r' && c == '\n'

/-- The blank that ends the digits is all of the blank there, unless the rest of a line break
follows. -/
theorem closingBlank_append_iff {blank : List Char} (h : ClosingBlank blank) (cs : List Char) :
    closingBlank (blank ++ cs) = blank ↔
      ∀ c ∈ cs.head?, (blank.getLast? == some '\r' && c == '\n') = false := by
  cases h with
  | pair => exact iff_of_true rfl (by simp)
  | single b hb =>
      cases cs with
      | nil => simp [closingBlank, hb]
      | cons c cs =>
          by_cases hpair : b = '\r' ∧ c = '\n'
          · obtain ⟨rfl, rfl⟩ := hpair
            simp [closingBlank]
          · have hclosing : closingBlank (b :: c :: cs) = [b] := by
              unfold closingBlank
              split <;> simp_all
            simpa [hclosing] using hpair

/-- **An escape is the same before every text that it does not go on with.** -/
theorem read_append_iff {cs : List Char} {e : Escape} (h : Escape.read cs = .escape e)
    (more : List Char) :
    Escape.read (e.written ++ more) = .escape e ↔ ∀ c ∈ more.head?, e.goesOn c = false := by
  rcases cases_of_read h with ⟨c, hbreak, hhex, rfl⟩ | ⟨ds, blank, hne, hlength, hhex, hblank, rfl⟩
  · refine iff_of_true (read_single more hbreak hhex) ?_
    have hreturn : c ≠ '\r' := by
      rintro rfl
      cases hbreak
    simp [goesOn, hhex, hreturn]
  · rw [written_ofDigits, List.append_assoc, read_ofDigits_iff hne hlength hhex hblank]
    rcases hblank with rfl | hblank
    · have hall : (ofDigits ds []).written.all isHexDigit = true := by
        rw [written_ofDigits, List.append_nil]
        exact List.all_eq_true.2 hhex
      have hlen : (ofDigits ds []).length = ds.length := by simp [Escape.length, written_ofDigits]
      simp only [goesOn, hall, hlen, if_true, List.nil_append, moreDigits_eq_nil_iff,
        closingBlank_eq_nil_iff]
      constructor
      · rintro ⟨hdigit, hblank⟩ c hc
        by_cases hlt : ds.length < 6 <;> simp [hlt, hblank c hc, hdigit c hc]
      · intro hstop
        refine ⟨fun c hc hlt => ?_, fun c hc => ?_⟩
        · simpa [hlt] using (Bool.or_eq_false_iff.1 (hstop c hc)).2
        · exact (Bool.or_eq_false_iff.1 (hstop c hc)).1
    · obtain ⟨b, rest, hrest, hb⟩ := hblank.exists_cons
      have hall : (ofDigits ds blank).written.all isHexDigit = false := by
        simp [written_ofDigits, hrest, hb]
      have hlast : (ofDigits ds blank).written.getLast? = blank.getLast? := by
        rw [written_ofDigits, List.getLast?_append, hrest, List.getLast?_cons]
        rfl
      have hmore : moreDigits ds.length (blank ++ more) = [] := by
        rw [moreDigits_eq_nil_iff, hrest]
        rintro c hc -
        obtain rfl := Option.some.inj hc
        exact hb
      rw [closingBlank_append_iff hblank]
      simp [goesOn, hall, hlast, hmore]

/-- An escape is the same before two texts if one of them has nothing at its front or what the other
has. -/
theorem read_append_congr {e : Escape} {rest more : List Char}
    (h : Escape.read (e.written ++ rest) = .escape e) (hhead : ∀ c ∈ more.head?, c ∈ rest.head?) :
    Escape.read (e.written ++ more) = .escape e :=
  (read_append_iff h more).2 (fun c hc => (read_append_iff h rest).1 h c (hhead c hc))

/-- Before a character that is no blank an escape goes on only with digits. -/
theorem goesOn_of_not_isBlank (e : Escape) {c : Char} (h : isBlank c = false) :
    e.goesOn c = (e.written.all isHexDigit && decide (e.length < 6) && isHexDigit c) := by
  have hc : (c == '\n') = false := by
    rw [beq_eq_false_iff_ne]
    rintro rfl
    cases h
  cases hall : e.written.all isHexDigit <;> simp [goesOn, hall, h, hc]

/-- **Digits without a blank take all the digits behind them**, as far as six go. -/
theorem read_open {cs : List Char} {e : Escape} (h : Escape.read cs = .escape e)
    (hall : e.written.all isHexDigit = true) {more : List Char}
    (hmore : ∀ c ∈ (more.drop (moreDigits e.length more).length).head?, isBlank c = false) :
    ∃ e', Escape.read (e.written ++ more) = .escape e' ∧
      e'.length = e.length + (moreDigits e.length more).length := by
  have hhex := List.all_eq_true.1 hall
  have hlength : e.written.length ≤ 6 := by
    rcases cases_of_read h with ⟨c, hbreak, hc, rfl⟩ | ⟨ds, blank, hne, hle, hds, hblank, rfl⟩
    · exact Nat.succ_le_succ (Nat.zero_le _)
    · rw [written_ofDigits] at hhex ⊢
      rcases hblank with rfl | hblank
      · simpa using hle
      · -- A blank is no digit.
        obtain ⟨b, rest, rfl, hb⟩ := hblank.exists_cons
        have hdigit := hhex b (by simp)
        rw [hb] at hdigit
        cases hdigit
  have hread := read_digits_append (written_of_escape h).ne_nil hlength hhex more
  have hlen : e.length = e.written.length := rfl
  rw [hlen] at hmore ⊢
  rw [closingBlank_of_not_blank hmore] at hread
  exact ⟨_, hread, by simp [Escape.length, written_ofDigits]⟩

end Escape

/-! ## Texts without escapes -/

/-- A text with its escapes decoded, from left to right. A backslash that starts no escape stays. -/
def unescape : List Char → List Char
  | [] => []
  | c :: cs =>
      if c == '\\' then
        match Escape.read cs with
        | .escape e => e.character :: unescape (cs.drop e.length)
        | .endOfInput | .lineBreak => c :: unescape cs
      else c :: unescape cs
  termination_by cs => cs.length
  decreasing_by
    · simp only [List.length_drop, List.length_cons]; omega
    all_goals simp

theorem unescape_cons {c : Char} (cs : List Char) (h : c ≠ '\\') :
    unescape (c :: cs) = c :: unescape cs := by
  rw [unescape]
  simp [h]

/-- A text without a backslash stays in front of what is decoded. -/
theorem unescape_append {front : List Char} (h : '\\' ∉ front) (cs : List Char) :
    unescape (front ++ cs) = front ++ unescape cs := by
  induction front with
  | nil => rfl
  | cons c front ih =>
      rw [List.mem_cons, not_or] at h
      rw [List.cons_append, unescape_cons _ (Ne.symm h.1), ih h.2, List.cons_append]

theorem unescape_escape {cs : List Char} {e : Escape} (h : Escape.read cs = .escape e) :
    unescape ('\\' :: cs) = e.character :: unescape (cs.drop e.length) := by
  rw [unescape]
  simp [h]

end EpubStyle.Text
