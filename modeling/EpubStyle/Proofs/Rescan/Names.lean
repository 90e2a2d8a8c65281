import EpubStyle.Proofs.Text.Escapes
import EpubStyle.Proofs.Token.Lexemes

/-!
# Names read from their own text

The text of a name consists of name characters and of escapes that had to stay (`NameText`). Read
again it is taken whole, as a run of name characters or as a name (`NameText.covers_run`,
`NameText.covers_name`), and nothing is wrong with it if every escape in it denotes a character
(`EscapesMeant`).

That is not for granted. An escape that stayed and the characters behind it need not be read as they
were before: where an escape in hexadecimal digits has no blank behind it and the next character was
itself written as an escape, the text has its decoded form, and if that is a digit it is now read
with the digits before it. The escape may so become another character, or none. What is left behind
it is always the text of a name again (`Escape.Written.read_again`).
-/

set_option autoImplicit false

namespace EpubStyle

namespace Text

/-! ## Texts of names -/

/-- Name characters and escapes. -/
inductive NameText : List Char → Prop
  | nil : NameText []
  | char (c : Char) (cs : List Char) (hc : isNameChar c = true) (h : NameText cs) :
      NameText (c :: cs)
  | escape (w cs : List Char) (hw : Escape.Written w) (h : NameText cs) :
      NameText ('\\' :: (w ++ cs))

/-- Nothing or the parenthesis of a function may stand behind a name. -/
def Closed (rest : List Char) : Prop := rest = [] ∨ rest = ['(']

namespace NameText

theorem of_cons {c : Char} {cs : List Char} (h : NameText (c :: cs)) (hc : c ≠ '\\') :
    isNameChar c = true ∧ NameText cs := by
  cases h with
  | char c cs hc h => exact ⟨hc, h⟩
  | escape w cs hw h => exact absurd rfl hc

theorem of_backslash {cs : List Char} (h : NameText ('\\' :: cs)) :
    ∃ w rest, cs = w ++ rest ∧ Escape.Written w ∧ NameText rest := by
  cases h with
  | char c cs hc h => exact absurd hc (by decide)
  | escape w cs hw h => exact ⟨w, cs, rfl, hw, h⟩

/-- What is at the front of a name and what may stand behind it. -/
theorem head?_cases {cs rest : List Char} (h : NameText cs) (hrest : Closed rest) :
    ∀ c ∈ (cs ++ rest).head?, isNameChar c = true ∨ c = '\\' ∨ cs = [] ∧ c = '(' := by
  intro c hc
  cases h with
  | nil =>
      rcases hrest with rfl | rfl
      · cases hc
      · exact .inr (.inr ⟨rfl, (Option.some.inj hc).symm⟩)
  | char d cs hd h =>
      obtain rfl := Option.some.inj hc
      exact .inl hd
  | escape w cs hw h => exact .inr (.inl (Option.some.inj hc).symm)

/-- No blank begins the text of a name. -/
theorem head?_not_blank {cs rest : List Char} (h : NameText cs) (hrest : Closed rest) :
    ∀ c ∈ (cs ++ rest).head?, isBlank c = false := by
  intro c hc
  rcases h.head?_cases hrest c hc with hname | rfl | ⟨-, rfl⟩
  · exact isBlank_of_isWeightless (nameClass_isNameChar c hname).1
  · decide
  · decide

/-- Digits taken away from the front of a name leave the text of a name. -/
theorem drop_digits {cs rest : List Char} (h : NameText cs) (hrest : Closed rest) (n : Nat) :
    ∃ k, (((cs ++ rest).take n).takeWhile isHexDigit).length = k ∧ k ≤ cs.length ∧
      NameText (cs.drop k) := by
  induction cs generalizing n with
  | nil =>
      refine ⟨0, ?_, Nat.le_refl _, .nil⟩
      rcases hrest with rfl | rfl
      · simp
      · cases n <;> simp [isHexDigit]
  | cons c cs ih =>
      cases n with
      | zero => exact ⟨0, rfl, Nat.zero_le _, h⟩
      | succ n =>
          cases hhex : isHexDigit c with
          | false => exact ⟨0, by simp [hhex], Nat.zero_le _, h⟩
          | true =>
              have hne : c ≠ '\\' := by
                rintro rfl
                revert hhex
                decide
              obtain ⟨k, hk, hle, hname⟩ := ih (h.of_cons hne).2 n
              exact ⟨k + 1, by simp [hhex, hk], Nat.succ_le_succ hle, hname⟩

end NameText

/-- **An escape that stayed in a name, read again.** It takes what was written of it, and maybe some
digits behind it. -/
theorem Escape.Written.read_again {w cs rest : List Char} (h : Escape.Written w)
    (hcs : NameText cs) (hrest : Closed rest) :
    ∃ e k, Escape.read (w ++ (cs ++ rest)) = .escape e ∧ e.length = w.length + k ∧
      k ≤ cs.length ∧ NameText (cs.drop k) := by
  cases h with
  | single c hbreak hhex =>
      exact ⟨_, 0, Escape.read_single (cs ++ rest) hbreak hhex, rfl, Nat.zero_le _, hcs⟩
  | digits digits blank hne hlength hhex hblank =>
      obtain ⟨c, digits, rfl⟩ := List.exists_cons_of_ne_nil hne
      have hread := @Escape.read_digits c (digits ++ (blank ++ (cs ++ rest)))
        (hhex c (List.mem_cons_self ..))
      have htake : Escape.digitsAhead (c :: (digits ++ (blank ++ (cs ++ rest)))) =
          (c :: digits) ++
            ((blank ++ (cs ++ rest)).take (6 - (c :: digits).length)).takeWhile isHexDigit := by
        rw [Escape.digitsAhead, ← List.cons_append, List.take_append,
          List.take_of_length_le hlength, List.takeWhile_append_of_pos hhex]
      rw [htake] at hread
      rcases hblank with rfl | hblank
      · -- Without a blank the digits may go on with those of the name.
        obtain ⟨k, hk, hle, hname⟩ := hcs.drop_digits hrest (6 - (c :: digits).length)
        rw [List.nil_append] at hread
        have hdrop : (c :: (digits ++ (cs ++ rest))).drop ((c :: digits).length + k) =
            cs.drop k ++ rest := by
          rw [← List.cons_append, List.drop_length_add_append, List.drop_append_of_le_length hle]
        rw [List.length_append, hk, hdrop,
          Escape.closingBlank_of_not_blank (hname.head?_not_blank hrest)] at hread
        rw [List.append_nil]
        refine ⟨_, k, hread, ?_, hle, hname⟩
        simp only [Escape.length, Escape.written_ofDigits, List.length_append, hk,
          List.length_nil, Nat.add_zero]
      · -- A blank ends the digits as it did before.
        have hnone : ((blank ++ (cs ++ rest)).take (6 - (c :: digits).length)).takeWhile
            isHexDigit = [] := by
          obtain ⟨b, blank, rfl, hb⟩ := hblank.exists_cons
          cases 6 - (c :: digits).length <;> simp [hb]
        have hclosing : Escape.closingBlank (blank ++ (cs ++ rest)) = blank :=
          Escape.closingBlank_append hblank (hcs.head?_not_blank hrest)
        rw [hnone, List.append_nil] at hread
        have hdrop : (c :: (digits ++ (blank ++ (cs ++ rest)))).drop (c :: digits).length =
            blank ++ (cs ++ rest) := by
          rw [← List.cons_append, List.drop_left]
        rw [hdrop, hclosing] at hread
        refine ⟨_, 0, by simpa using hread, ?_, Nat.zero_le _, hcs⟩
        simp [Escape.length, Escape.written_ofDigits]

end Text

open Text

/-- Every escape in a text denotes a character. -/
def EscapesMeant (cs : List Char) : Prop := (Piece.run (fun _ => true) cs).Faultless

namespace Piece

/-! ## Runs and names, one step at a time -/

theorem faultless_of_notes {p : Piece} (h : p.notes = []) : p.Faultless := by
  simp [Faultless, h]

theorem run_cons {accept : Char → Bool} {c : Char} (cs : List Char) (hback : c ≠ '\\')
    (hc : accept c = true) : run accept (c :: cs) = ofChar c ++ run accept cs := by
  rw [run]
  simp [hback, hc]

theorem run_escape (accept : Char → Bool) {cs : List Char} {e : Escape}
    (h : Escape.read cs = .escape e) :
    run accept ('\\' :: cs) = ofEscape accept e ++ run accept (cs.drop e.length) := by
  rw [run]
  simp [h]

theorem name_cons {c : Char} (cs : List Char) (hback : c ≠ '\\') (hc : isNameChar c = true) :
    name (c :: cs) = run isNameChar (c :: cs) := by
  rw [run_cons cs hback hc]
  simp [name, first, hback, hc, ofChar]

theorem name_escape {cs : List Char} {e : Escape} (h : Escape.read cs = .escape e) :
    name ('\\' :: cs) = ofEscape isNameStart e ++ run isNameChar (cs.drop e.length) := by
  have hfirst : first isNameStart ('\\' :: cs) = ofEscape isNameStart e := by
    simp [first, escape?, h]
  have hdrop : ('\\' :: cs).drop (ofEscape isNameStart e).length = cs.drop e.length := rfl
  rw [name, hfirst, hdrop]

end Piece

/-- No escape stands where there is no backslash. -/
theorem Lexeme.escapeAhead_of_ne {c : Char} (cs : List Char) (h : c ≠ '\\') :
    escapeAhead (c :: cs) = false := by
  unfold escapeAhead
  split
  · next heq => exact absurd (List.cons.inj heq).1 h
  · rfl

theorem escapesMeant_cons {c : Char} (cs : List Char) (h : c ≠ '\\') :
    EscapesMeant (c :: cs) ↔ EscapesMeant cs := by
  rw [EscapesMeant, Piece.run_cons cs h rfl, Piece.faultless_append]
  exact and_iff_right (Piece.faultless_of_notes rfl)

/-- The digits of a number and other characters in front hold no escape. -/
theorem escapesMeant_append {front : List Char} (cs : List Char) (h : '\\' ∉ front) :
    EscapesMeant (front ++ cs) ↔ EscapesMeant cs := by
  induction front with
  | nil => rfl
  | cons c front ih =>
      simp only [List.mem_cons, not_or] at h
      rw [List.cons_append, escapesMeant_cons _ (Ne.symm h.1), ih h.2]

theorem escapesMeant_of_not_mem {cs : List Char} (h : '\\' ∉ cs) : EscapesMeant cs := by
  have happend := (escapesMeant_append [] h).2 (by simp [EscapesMeant, Piece.run, Piece.Faultless])
  rwa [List.append_nil] at happend

/-! ## Texts read again -/

/-- The piece takes the text `cs` whole and nothing of what stands behind it, and it is faultless
if the escapes of the text denote characters. -/
structure Piece.Covers (p : Piece) (cs rest : List Char) : Prop where
  length : p.length = cs.length
  faultless : p.Faultless ↔ EscapesMeant (cs ++ rest)

/-- Characters that stand for themselves go before a text that is taken whole. -/
theorem Piece.Covers.append {p : Piece} {cs rest : List Char} (h : p.Covers cs rest)
    {front : List Char} (hfront : '\\' ∉ front) :
    (ofText front ++ p).Covers (front ++ cs) rest where
  length := by
    rw [length_append, h.length, List.length_append]
    rfl
  faultless := by
    rw [faultless_append, List.append_assoc, escapesMeant_append _ hfront, ← h.faultless]
    exact and_iff_right (faultless_of_notes rfl)

theorem Piece.Covers.cons {p : Piece} {cs rest : List Char} (h : p.Covers cs rest) {c : Char}
    (hc : c ≠ '\\') : (ofChar c ++ p).Covers (c :: cs) rest :=
  h.append (by simpa using hc.symm)

theorem Piece.covers_nil : ({} : Piece).Covers [] [] :=
  ⟨rfl, by simp [EscapesMeant, run]⟩

namespace Text.NameText

/-- **The text of a name is one run of name characters.** -/
theorem covers_run {cs rest : List Char} (h : NameText cs) (hrest : Closed rest) :
    (Piece.run isNameChar (cs ++ rest)).Covers cs rest := by
  -- An escape may take characters behind it, so the induction is on the length of the text.
  induction hn : cs.length using Nat.strongRecOn generalizing cs with
  | ind n ih =>
  subst hn
  cases h with
  | nil =>
      rcases hrest with rfl | rfl
      · rw [List.append_nil, Piece.run]
        exact Piece.covers_nil
      · have hstop : Piece.run isNameChar ['('] = {} := by
          rw [Piece.run]
          rfl
        have hmeant : EscapesMeant ['('] := by
          rw [escapesMeant_cons _ (by decide)]
          simp [EscapesMeant, Piece.run, Piece.Faultless]
        constructor <;> simp [hstop, hmeant, Piece.Faultless]
  | char c cs hc h =>
      have hback : c ≠ '\\' := by
        rintro rfl
        revert hc
        decide
      rw [List.cons_append, Piece.run_cons _ hback hc]
      exact (ih cs.length (by simp) h rfl).cons hback
  | escape w cs hw h =>
      obtain ⟨e, k, hread, hlength, hle, hname⟩ := hw.read_again h hrest
      have hshorter : (cs.drop k).length < ('\\' :: (w ++ cs)).length := by
        simp only [List.length_drop, List.length_cons, List.length_append]
        omega
      have hrun := ih _ hshorter hname rfl
      have hdrop : (w ++ (cs ++ rest)).drop e.length = cs.drop k ++ rest := by
        rw [hlength, List.drop_length_add_append, List.drop_append_of_le_length hle]
      have happend : '\\' :: (w ++ cs) ++ rest = '\\' :: (w ++ (cs ++ rest)) := by simp
      constructor
      · rw [happend, Piece.run_escape _ hread, hdrop, Piece.length_append, hrun.length]
        simp only [Piece.ofEscape, Escape.renderOnto, hlength, List.length_drop, List.length_cons,
          List.length_append]
        omega
      · rw [happend, EscapesMeant, Piece.run_escape _ hread, Piece.run_escape _ hread, hdrop,
          Piece.faultless_append, Piece.faultless_append, hrun.faultless]
        exact Iff.rfl

/-- **The text of a name is one name**, which differs from a run only in what it decodes. -/
theorem covers_name {cs rest : List Char} (h : NameText cs) (hne : cs ≠ []) (hrest : Closed rest) :
    (Piece.name (cs ++ rest)).Covers cs rest := by
  have hrun := h.covers_run hrest
  cases h with
  | nil => exact absurd rfl hne
  | char c cs hc h =>
      have hback : c ≠ '\\' := by
        rintro rfl
        revert hc
        decide
      rw [List.cons_append] at hrun ⊢
      rwa [Piece.name_cons _ hback hc]
  | escape w cs hw h =>
      obtain ⟨e, k, hread, -⟩ := hw.read_again h hrest
      have happend : '\\' :: (w ++ cs) ++ rest = '\\' :: (w ++ (cs ++ rest)) := by simp
      rw [happend, Piece.run_escape _ hread] at hrun
      rw [happend, Piece.name_escape hread]
      refine ⟨hrun.length, ?_⟩
      rw [← hrun.faultless, Piece.faultless_append, Piece.faultless_append]
      exact Iff.rfl

theorem covers_name_self {cs : List Char} (h : NameText cs) (hne : cs ≠ []) :
    (Piece.name cs).Covers cs [] := by
  simpa using h.covers_name hne (.inl rfl)

theorem covers_run_self {cs : List Char} (h : NameText cs) :
    (Piece.run isNameChar cs).Covers cs [] := by
  simpa using h.covers_run (.inl rfl)

/-- What begins with an escape is read as one again. -/
theorem escapeAhead {cs rest : List Char} (h : NameText ('\\' :: cs)) (hrest : Closed rest) :
    Lexeme.escapeAhead ('\\' :: (cs ++ rest)) = true := by
  obtain ⟨w, cs, rfl, hw, hname⟩ := h.of_backslash
  obtain ⟨e, k, hread, -⟩ := hw.read_again hname hrest
  rw [List.append_assoc]
  simp [Lexeme.escapeAhead, hread]

end Text.NameText

/-! ## Names as they are read -/

namespace Text.NameText

/-- An escape goes into a name decoded or as it is written. -/
theorem render {raw cs : List Char} {e : Escape} (hread : Escape.read raw = .escape e)
    {literal : Char → Bool} (hliteral : ∀ c, literal c = true → isNameChar c = true)
    (h : NameText cs) : NameText (e.render literal ++ cs) := by
  unfold Escape.render
  split
  · next hdecoded =>
      simp only [Bool.and_eq_true] at hdecoded
      exact .char _ _ (hliteral _ hdecoded.2) h
  · exact .escape _ _ (Escape.written_of_escape hread) h

theorem ofRun (cs : List Char) : NameText (Piece.run isNameChar cs).text := by
  fun_induction Piece.run isNameChar cs with
  | case1 => exact .nil
  | case2 c cs hback e hread ih => exact render hread (fun _ h => h) ih
  | case3 | case4 => exact .nil
  | case5 c cs hback hc ih => exact .char c _ hc ih
  | case6 => exact .nil

theorem isNameChar_of_isNameStart {c : Char} (h : isNameStart c = true) : isNameChar c = true := by
  simp [isNameChar, h]

/-- The first character of a name goes before the rest of it. -/
theorem ofFirst {cs more : List Char} (h : NameText more) :
    NameText ((Piece.first isNameStart cs).text ++ more) := by
  cases cs with
  | nil => exact h
  | cons c cs =>
      simp only [Piece.first, Piece.escape?]
      split
      · split
        · next e hread => exact render hread (fun _ => isNameChar_of_isNameStart) h
        · exact h
        · exact h
      · split
        · next hc => exact .char c _ hc h
        · exact h

theorem ofName (cs : List Char) : NameText (Piece.name cs).text :=
  ofFirst (ofRun _)

end Text.NameText

/-- The text begins with a character that may start a name, or with an escape. -/
def Text.Starts (cs : List Char) : Prop :=
  ∃ c rest, cs = c :: rest ∧ (isNameStart c = true ∨ c = '\\')

/-- What was ahead of the scanner before is ahead of it again. -/
theorem Text.Starts.ahead {cs rest : List Char} (h : Starts cs) (hname : NameText cs)
    (hrest : Closed rest) :
    Lexeme.nameStartAhead (cs ++ rest) = true ∨ Lexeme.escapeAhead (cs ++ rest) = true := by
  obtain ⟨c, cs, rfl, hc | rfl⟩ := h
  · exact .inl (by simpa [Lexeme.nameStartAhead] using hc)
  · exact .inr (hname.escapeAhead hrest)

theorem Text.Starts.ahead_self {cs : List Char} (h : Starts cs) (hname : NameText cs) :
    Lexeme.nameStartAhead cs = true ∨ Lexeme.escapeAhead cs = true := by
  simpa using h.ahead hname (.inl rfl)

theorem Text.Starts.ne_nil {cs : List Char} (h : Starts cs) : cs ≠ [] := by
  obtain ⟨c, rest, rfl, -⟩ := h
  simp

/-- A decoded escape may start a name, and any other keeps its backslash. -/
theorem Text.Starts.render (e : Escape) (more : List Char) :
    Starts (e.render isNameStart ++ more) := by
  unfold Escape.render
  split
  · next hdecoded =>
      simp only [Bool.and_eq_true] at hdecoded
      exact ⟨_, _, rfl, .inl hdecoded.2⟩
  · exact ⟨_, _, rfl, .inr rfl⟩

/-- A character that may start a name, or an escape, is the first of its text. -/
theorem Text.Starts.ofFirst {cs : List Char}
    (h : Lexeme.nameStartAhead cs = true ∨ Lexeme.escapeAhead cs = true) (more : List Char) :
    Starts ((Piece.first isNameStart cs).text ++ more) := by
  cases cs with
  | nil => simp [Lexeme.nameStartAhead, Lexeme.escapeAhead] at h
  | cons c cs =>
      by_cases hback : c = '\\'
      · subst hback
        have hahead : Lexeme.escapeAhead ('\\' :: cs) = true :=
          h.resolve_left (by simp [Lexeme.nameStartAhead]; decide)
        cases hread : Escape.read cs with
        | escape e =>
            have hfirst : Piece.first isNameStart ('\\' :: cs) = Piece.ofEscape isNameStart e := by
              simp [Piece.first, Piece.escape?, hread]
            rw [hfirst]
            exact .render e more
        | endOfInput | lineBreak => simp [Lexeme.escapeAhead, hread] at hahead
      · have hstart : isNameStart c = true := by
          rcases h with h | h
          · simpa [Lexeme.nameStartAhead] using h
          · rw [Lexeme.escapeAhead_of_ne cs hback] at h
            cases h
        have hchar : isNameChar c = true := NameText.isNameChar_of_isNameStart hstart
        have hfirst : Piece.first isNameStart (c :: cs) = Piece.ofChar c := by
          simp [Piece.first, hback, hchar]
        rw [hfirst]
        exact ⟨c, more, rfl, .inl hstart⟩

end EpubStyle
