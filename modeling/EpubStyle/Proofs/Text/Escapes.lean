import EpubStyle.Proofs.Text.Weight

/-!
# Escapes as they are written

What stands behind the backslash of an escape is one character, or up to six hexadecimal digits and
the blank that ends them (`Escape.Written`). Eight characters are enough to tell
(`Escape.decode_take`): two characters decide what blank ends the digits, so six digits and two more
decide everything. So an escape is read as if there were no window (`Escape.read_eq_decode`), and
the lemmas on the two forms speak of the text as it is.
-/

set_option autoImplicit false

namespace EpubStyle.Text

namespace Escape

/-- A blank that ends the digits of an escape. -/
inductive ClosingBlank : List Char → Prop
  | pair : ClosingBlank ['\r', '\n']
  | single (b : Char) (h : isBlank b = true) : ClosingBlank [b]

/-- What stands behind the backslash of an escape. -/
inductive Written : List Char → Prop
  | single (c : Char) (hbreak : isLineBreak c = false) (hhex : isHexDigit c = false) : Written [c]
  | digits (digits blank : List Char) (hne : digits ≠ []) (hlength : digits.length ≤ 6)
      (hhex : ∀ c ∈ digits, isHexDigit c = true) (hblank : blank = [] ∨ ClosingBlank blank) :
      Written (digits ++ blank)

theorem Written.ne_nil {w : List Char} (h : Written w) : w ≠ [] := by
  cases h with
  | single c hbreak hhex => simp
  | digits digits blank hne hlength hhex hblank => simp [hne]

theorem closingBlank_eq_nil_or (cs : List Char) :
    closingBlank cs = [] ∨ ClosingBlank (closingBlank cs) := by
  unfold closingBlank
  split
  · exact .inr .pair
  · split
    · next h => exact .inr (.single _ h)
    · exact .inl rfl
  · exact .inl rfl

/-- Two characters decide what blank ends the digits. -/
theorem closingBlank_take (cs : List Char) {n : Nat} (h : 2 ≤ n) :
    closingBlank (cs.take n) = closingBlank cs := by
  obtain ⟨n, rfl⟩ : ∃ m, n = m + 2 := ⟨n - 2, by omega⟩
  match cs with
  | [] => rfl
  | [c] => rfl
  | c :: d :: cs =>
      by_cases hpair : c = '\r' ∧ d = '\n'
      · obtain ⟨rfl, rfl⟩ := hpair
        rfl
      · simp only [List.take_succ_cons]
        unfold closingBlank
        split <;> split <;> simp_all

theorem closingBlank_of_not_blank {cs : List Char} (h : ∀ c ∈ cs.head?, isBlank c = false) :
    closingBlank cs = [] := by
  cases cs with
  | nil => rfl
  | cons c cs =>
      have hc : isBlank c = false := h c rfl
      have hne : c ≠ '\r' := by
        rintro rfl
        revert hc
        decide
      simp [closingBlank, hne, hc]

/-- A blank that ends the digits is the only one there. -/
theorem closingBlank_append {blank cs : List Char} (h : ClosingBlank blank)
    (hcs : ∀ c ∈ cs.head?, isBlank c = false) : closingBlank (blank ++ cs) = blank := by
  cases h with
  | pair => rfl
  | single b hb =>
      cases cs with
      | nil => simp [closingBlank, hb]
      | cons c cs =>
          have hc : c ≠ '\n' := by
            rintro rfl
            exact absurd (hcs '\n' rfl) (by decide)
          simp [closingBlank, hb, hc]

theorem not_isBlank_of_isHexDigit {c : Char} (h : isHexDigit c = true) : isBlank c = false :=
  isBlank_of_isWeightless (weightless_of_isHexDigit h)

theorem not_isLineBreak_of_isHexDigit {c : Char} (h : isHexDigit c = true) :
    isLineBreak c = false :=
  (Bool.or_eq_false_iff.1 (not_isBlank_of_isHexDigit h)).2

theorem ClosingBlank.exists_cons {blank : List Char} (h : ClosingBlank blank) :
    ∃ b rest, blank = b :: rest ∧ isHexDigit b = false := by
  cases h with
  | pair => exact ⟨_, _, rfl, by decide⟩
  | single b hb =>
      refine ⟨b, [], rfl, ?_⟩
      rw [← Bool.not_eq_true]
      intro hhex
      rw [not_isBlank_of_isHexDigit hhex] at hb
      cases hb

theorem written_ofDigits (ds blank : List Char) : (ofDigits ds blank).written = ds ++ blank := by
  unfold ofDigits
  split <;> rfl

/-- The digits of an escape at the front of a text. -/
def digitsAhead (cs : List Char) : List Char := (cs.take 6).takeWhile isHexDigit

theorem length_digitsAhead_le (cs : List Char) : (digitsAhead cs).length ≤ 6 :=
  Nat.le_trans (List.takeWhile_prefix _).length_le (List.length_take_le 6 cs)

theorem digitsAhead_ne_nil {c : Char} (cs : List Char) (h : isHexDigit c = true) :
    digitsAhead (c :: cs) ≠ [] := by
  simp [digitsAhead, h]

theorem isHexDigit_of_mem_digitsAhead {c : Char} {cs : List Char} (h : c ∈ digitsAhead cs) :
    isHexDigit c = true :=
  List.all_eq_true.1 List.all_takeWhile c h

/-! ## Eight characters -/

theorem decode_cons (c : Char) (cs : List Char) :
    decode (c :: cs) =
      if isLineBreak c then .lineBreak
      else if isHexDigit c then
        .escape (ofDigits (digitsAhead (c :: cs))
          (closingBlank ((c :: cs).drop (digitsAhead (c :: cs)).length)))
      else .escape ⟨[c], c, false⟩ := rfl

/-- **Eight characters decide what a backslash is.** -/
theorem decode_take (cs : List Char) {n : Nat} (h : window ≤ n) :
    decode (cs.take n) = decode cs := by
  have hn : 8 ≤ n := h
  cases cs with
  | nil => rw [List.take_nil]
  | cons c cs =>
      obtain ⟨m, rfl⟩ : ∃ m, n = m + 1 := ⟨n - 1, by omega⟩
      have hdigits : digitsAhead ((c :: cs).take (m + 1)) = digitsAhead (c :: cs) := by
        rw [digitsAhead, List.take_take, Nat.min_eq_left (by omega), digitsAhead]
      -- Behind at most six digits there are two characters left to look at.
      have hblank : closingBlank (((c :: cs).take (m + 1)).drop (digitsAhead (c :: cs)).length) =
          closingBlank ((c :: cs).drop (digitsAhead (c :: cs)).length) := by
        have hlength := length_digitsAhead_le (c :: cs)
        rw [List.drop_take]
        exact closingBlank_take _ (by omega)
      rw [List.take_succ_cons] at hdigits hblank ⊢
      rw [decode_cons, decode_cons, hdigits, hblank]

/-- An escape is read as if all of the text were seen. -/
theorem read_eq_decode (cs : List Char) : Escape.read cs = decode cs :=
  decode_take cs (Nat.le_refl window)

theorem read_lineBreak {c : Char} (cs : List Char) (h : isLineBreak c = true) :
    Escape.read (c :: cs) = .lineBreak := by
  rw [read_eq_decode, decode_cons, if_pos h]

/-- An escape in digits. -/
theorem read_digits {c : Char} {cs : List Char} (h : isHexDigit c = true) :
    Escape.read (c :: cs) = .escape (ofDigits (digitsAhead (c :: cs))
      (closingBlank ((c :: cs).drop (digitsAhead (c :: cs)).length))) := by
  rw [read_eq_decode, decode_cons, not_isLineBreak_of_isHexDigit h, if_neg Bool.false_ne_true,
    if_pos h]

/-- An escape of a single character. -/
theorem read_single {c : Char} (cs : List Char) (hbreak : isLineBreak c = false)
    (hhex : isHexDigit c = false) : Escape.read (c :: cs) = .escape ⟨[c], c, false⟩ := by
  rw [read_eq_decode, decode_cons, hbreak, hhex, if_neg Bool.false_ne_true,
    if_neg Bool.false_ne_true]

/-- Nothing is missing behind a backslash unless the text ends there. -/
theorem eq_nil_of_endOfInput {cs : List Char} (h : Escape.read cs = .endOfInput) : cs = [] := by
  cases cs with
  | nil => rfl
  | cons c cs =>
      rw [read_eq_decode, decode_cons] at h
      split at h
      · cases h
      · split at h <;> cases h

/-- Only a line break is read as one. -/
theorem isLineBreak_of_read {c : Char} {cs : List Char}
    (h : Escape.read (c :: cs) = .lineBreak) : isLineBreak c = true := by
  rw [← Bool.not_eq_false]
  intro hbreak
  rw [read_eq_decode, decode_cons, hbreak, if_neg Bool.false_ne_true] at h
  split at h <;> cases h

/-- How an escape was read: a character by itself, or digits with the blank that ends them. -/
theorem cases_of_read {cs : List Char} {e : Escape} (h : Escape.read cs = .escape e) :
    (∃ c, isLineBreak c = false ∧ isHexDigit c = false ∧ e = ⟨[c], c, false⟩) ∨
    ∃ ds blank, ds ≠ [] ∧ ds.length ≤ 6 ∧ (∀ c ∈ ds, isHexDigit c = true) ∧
      (blank = [] ∨ ClosingBlank blank) ∧ e = ofDigits ds blank := by
  cases cs with
  | nil => cases h
  | cons c cs =>
      cases hhex : isHexDigit c with
      | true =>
          rw [read_digits hhex] at h
          exact .inr ⟨_, _, digitsAhead_ne_nil cs hhex, length_digitsAhead_le _,
            fun _ => isHexDigit_of_mem_digitsAhead, closingBlank_eq_nil_or _,
            (Reading.escape.inj h).symm⟩
      | false =>
          cases hbreak : isLineBreak c with
          | true =>
              rw [read_lineBreak cs hbreak] at h
              cases h
          | false =>
              rw [read_single cs hbreak hhex] at h
              exact .inl ⟨c, hbreak, hhex, (Reading.escape.inj h).symm⟩

/-- **What stands behind the backslash of an escape that was read.** -/
theorem written_of_escape {cs : List Char} {e : Escape} (h : Escape.read cs = .escape e) :
    Written e.written := by
  rcases cases_of_read h with ⟨c, hbreak, hhex, rfl⟩ | ⟨ds, blank, hne, hlength, hhex, hblank, rfl⟩
  · exact .single c hbreak hhex
  · rw [written_ofDigits]
    exact .digits ds blank hne hlength hhex hblank

end Escape

end EpubStyle.Text
