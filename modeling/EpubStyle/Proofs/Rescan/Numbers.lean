import EpubStyle.Proofs.Rescan.Names

/-!
# Numbers and ranges read from their own text

The numeral of a number and the characters of a Unicode range are taken again as they are
(`Lexeme.digits_append`, `Lexeme.rangeBody_again`). A known unit is written in its canonical
spelling, which is a unit of the same kind; any other is a name that is read again, and what that
decodes may be a known unit (`Lexeme.unit_again`, `Lexeme.number_again`).
-/

set_option autoImplicit false

namespace EpubStyle

open Text

namespace Lexeme

/-! ## Ranges -/

/-- **The characters of a range, read again.** -/
theorem rangeBody_again (seen : List Char) (count : Nat) (cs : List Char) :
    rangeBody seen count (rangeBody seen count cs).text = rangeBody seen count cs := by
  induction cs generalizing seen count with
  | nil => rfl
  | cons c cs ih =>
      simp only [rangeBody]
      split
      · next hc => simp only [Piece.text_append, List.singleton_append, rangeBody, hc, if_true, ih]
      · rfl

theorem length_rangeBody (seen : List Char) (count : Nat) (cs : List Char) :
    (rangeBody seen count cs).length = (rangeBody seen count cs).text.length := by
  induction cs generalizing seen count with
  | nil => rfl
  | cons c cs ih =>
      simp only [rangeBody]
      split
      · rw [Piece.length_append, Piece.text_append, List.length_append, ih]
        rfl
      · rfl

/-! ## Numerals -/

theorem digitAhead_digits {cs : List Char} (h : digitAhead cs = true) (real : Bool)
    (more : List Char) : digitAhead ((digits real cs).1 ++ more) = true := by
  cases cs with
  | nil => cases h
  | cons c cs =>
      have hc : c.isDigit = true := by simpa [digitAhead] using h
      simp [digits, hc, digitAhead]

/-- **The digits of a number, read again.** What follows them is no digit and no point. -/
theorem digits_append (real : Bool) (cs : List Char) {more : List Char}
    (hmore : ∀ c ∈ more.head?, c.isDigit = false ∧ c ≠ '.') :
    digits real ((digits real cs).1 ++ more) = digits real cs := by
  have hstop : ∀ real, digits real more = ([], real) := by
    intro real
    cases more with
    | nil => rfl
    | cons c more =>
        obtain ⟨hdigit, hpoint⟩ := hmore c rfl
        simp [digits, hdigit, hpoint]
  induction cs generalizing real with
  | nil => exact hstop real
  | cons c cs ih =>
      simp only [digits]
      split
      · next hdigit => simp [digits, hdigit, ih]
      · next hdigit =>
          split
          · next hpoint =>
              simp only [Bool.and_eq_true] at hpoint
              have hahead := digitAhead_digits hpoint.2 true more
              simp [digits, hdigit, hpoint.1.1, hpoint.1.2, hahead, ih]
          · exact hstop real

/-- A character of a numeral. -/
def isNumeral (c : Char) : Bool := c.isDigit || c == '.' || isSign c

theorem isNumeral_digits (real : Bool) (cs : List Char) :
    ∀ c ∈ (digits real cs).1, isNumeral c = true := by
  induction cs generalizing real with
  | nil => simp [digits]
  | cons c cs ih =>
      simp only [digits]
      split
      · next hdigit => exact List.forall_mem_cons.2 ⟨by simp [isNumeral, hdigit], ih real⟩
      · split
        · next hpoint =>
            simp only [Bool.and_eq_true] at hpoint
            exact List.forall_mem_cons.2 ⟨by simp [isNumeral, hpoint.1.1], ih true⟩
        · simp

theorem isNumeral_of_numberAhead {c : Char} {cs : List Char} (h : numberAhead c cs = true) :
    isNumeral c = true := by
  simp only [numberAhead, Bool.or_eq_true, Bool.and_eq_true] at h
  simp only [isNumeral, Bool.or_eq_true]
  rcases h with (h | ⟨h | h, -⟩) | ⟨h, -⟩ <;> simp [h]

/-- The number is seen to start again: its first digit stays where it is. -/
theorem numberAhead_digits {c : Char} {cs : List Char} (h : numberAhead c cs = true)
    (more : List Char) : numberAhead c ((digits (c == '.') cs).1 ++ more) = true := by
  simp only [numberAhead, Bool.or_eq_true, Bool.and_eq_true] at h ⊢
  rcases h with (h | ⟨h, hdigit⟩) | ⟨h, hfraction⟩
  · exact .inl (.inl h)
  · exact .inl (.inr ⟨h, digitAhead_digits hdigit _ more⟩)
  · refine .inr ⟨h, ?_⟩
    -- Only a sign may stand before the point, so this point is the first one.
    have hsign : (c == '.') = false := by
      simp only [isSign, Bool.or_eq_true, beq_iff_eq] at h
      rcases h with rfl | rfl <;> rfl
    unfold fractionAhead at hfraction
    split at hfraction
    · next cs =>
        have hpoint : digits (c == '.') ('.' :: cs) =
            ('.' :: (digits true cs).1, (digits true cs).2) := by
          simp [digits, hsign, hfraction]
        rw [hpoint]
        exact digitAhead_digits hfraction true more
    · cases hfraction

/-! ## Units -/

/-- A unit is written as it is or in its canonical spelling. -/
theorem measure_cases (suffix : List Char) :
    measure suffix = (suffix, .dimension) ∨
      ∃ entry ∈ Measure.suffixes, measure suffix = (entry.1.toList, entry.2) := by
  unfold measure
  simp only
  split
  · next canonical m hknown =>
      split at hknown
      · exact .inr ⟨_, List.mem_of_find?_eq_some hknown, rfl⟩
      · cases hknown
  · exact .inl rfl

/-- The canonical spelling of a unit stands for itself, and it is a percent sign or consists of
letters. -/
theorem measure_suffix : ∀ entry ∈ Measure.suffixes,
    measure entry.1.toList = (entry.1.toList, entry.2) ∧ entry.2 ≠ .dimension ∧
      (entry.1.toList = ['%'] ∨
        entry.1.toList ≠ [] ∧ entry.1.toList.all isNameStart = true) := by
  decide +kernel

/-- A unit is a percent sign or a name. -/
theorem text_unit {cs : List Char} {p : Piece} (h : unit cs = some p) :
    p.text = ['%'] ∨ NameText p.text ∧ Starts p.text := by
  cases cs with
  | nil => cases h
  | cons c cs =>
      simp only [unit] at h
      split at h
      · next hpercent =>
          obtain rfl := Option.some.inj h
          exact .inl (by simpa [Piece.ofChar] using hpercent)
      · split at h
        · next hstart =>
            obtain rfl := Option.some.inj h
            exact .inr ⟨.ofName _, Starts.ofFirst (.inl (by simpa [nameStartAhead] using hstart)) _⟩
        · split at h
          · next hescape =>
              obtain rfl := Option.some.inj h
              exact .inr ⟨.ofName _, Starts.ofFirst (.inr hescape) _⟩
          · cases h

/-- A name is a unit. -/
theorem unit_of_starts {n : List Char} (hname : NameText n) (h : Starts n) :
    ∃ p, unit n = some p ∧ p.text = (Piece.name n).text ∧ p.Covers n [] := by
  have hcovers := hname.covers_name_self h.ne_nil
  have hahead := h.ahead_self hname
  obtain ⟨c, rest, rfl, hc⟩ := h
  have hpercent : c ≠ '%' := by
    rintro rfl
    rcases hc with hc | hc <;> revert hc <;> decide
  cases hstart : isNameStart c with
  | true => exact ⟨_, by simp [unit, hpercent, hstart], rfl, hcovers⟩
  | false =>
      have hescape : escapeAhead (c :: rest) = true :=
        hahead.resolve_left (by simp [nameStartAhead, hstart])
      have hunit : unit (c :: rest) = some (Piece.stepBack 1 ++ Piece.name (c :: rest)) := by
        simp [unit, hpercent, hstart, hescape]
      refine ⟨_, hunit, rfl, ?_, ?_⟩
      · rw [← hcovers.length]
        exact Nat.zero_add _
      · rw [← hcovers.faultless, Piece.faultless_append]
        exact and_iff_right fun n hn => by
          rw [List.mem_singleton.1 hn]
          rfl

/-- No digit may start a name. -/
theorem isNameStart_of_isDigit {c : Char} (h : c.isDigit = true) : isNameStart c = false := by
  simp only [Char.isDigit, Bool.and_eq_true, decide_eq_true_eq] at h
  have hhigh : c.val.toNat ≤ 57 := h.2
  rw [← Bool.not_eq_true]
  intro hstart
  unfold isNameStart Char.isAlpha Char.isUpper Char.isLower at hstart
  simp only [Bool.or_eq_true, Bool.and_eq_true, decide_eq_true_eq, beq_iff_eq] at hstart
  rcases hstart with ((hupper | hlower) | rfl) | hcode
  · have hlow : 65 ≤ c.val.toNat := hupper.1
    omega
  · have hlow : 97 ≤ c.val.toNat := hlower.1
    omega
  · revert hhigh
    decide
  · have hlow : 128 ≤ c.val.toNat := hcode
    omega

theorem isNumeral_of_isNameStart {c : Char} (h : isNameStart c = true ∨ c = '\\') :
    isNumeral c = false := by
  rw [← Bool.not_eq_true]
  intro hc
  simp only [isNumeral, isSign, Bool.or_eq_true, beq_iff_eq] at hc
  rcases h with h | rfl
  · rcases hc with (hc | rfl) | rfl | rfl
    · rw [isNameStart_of_isDigit hc] at h
      cases h
    all_goals revert h; decide
  · revert hc
    decide

/-- Letters are the text of a name. -/
theorem nameText_of_letters {cs : List Char} (h : ∀ c ∈ cs, isNameStart c = true) :
    NameText cs := by
  induction cs with
  | nil => exact .nil
  | cons c cs ih =>
      obtain ⟨hc, hcs⟩ := List.forall_mem_cons.1 h
      exact .char c cs (NameText.isNameChar_of_isNameStart hc) (ih hcs)

/-- Letters are decoded as they are. -/
theorem text_run_of_letters {cs : List Char} (h : ∀ c ∈ cs, isNameStart c = true) :
    (Piece.run isNameChar cs).text = cs := by
  induction cs with
  | nil => simp [Piece.run]
  | cons c cs ih =>
      obtain ⟨hc, hcs⟩ := List.forall_mem_cons.1 h
      have hback : c ≠ '\\' := by
        rintro rfl
        revert hc
        decide
      rw [Piece.run_cons cs hback (NameText.isNameChar_of_isNameStart hc), Piece.text_append,
        ih hcs]
      rfl

/-- **The unit of a number, read again.** A known unit is the unit it was, and an unknown one is the
name that it reads as now. -/
theorem unit_again {cs : List Char} {p : Piece} (h : unit cs = some p) :
    (∀ c ∈ (measure p.text).1.head?, isNumeral c = false) ∧
      ∃ q, unit (measure p.text).1 = some q ∧ q.Covers (measure p.text).1 [] ∧
        ((measure p.text).2 = .dimension → q.text = (Piece.name (measure p.text).1).text) ∧
        ((measure p.text).2 ≠ .dimension →
          (measure q.text).2 = (measure p.text).2 ∧ '\\' ∉ (measure p.text).1) := by
  have hstarts : ∀ n, Starts n → ∀ c ∈ n.head?, isNumeral c = false := by
    rintro n ⟨c, rest, rfl, hc⟩ d hd
    obtain rfl := Option.some.inj hd
    exact isNumeral_of_isNameStart hc
  have hpercent : (∀ c ∈ ['%'].head?, isNumeral c = false) ∧ unit ['%'] = some (.ofChar '%') ∧
      (Piece.ofChar '%').Covers ['%'] [] := by
    refine ⟨fun c hc => ?_, rfl, rfl, ?_⟩
    · obtain rfl := Option.some.inj hc
      rfl
    · exact iff_of_true (Piece.faultless_of_notes rfl) (escapesMeant_of_not_mem (by simp))
  rcases measure_cases p.text with hmeasure | ⟨entry, hentry, hmeasure⟩
  · -- An unknown unit stays as it was read, so it is a name.
    rw [hmeasure]
    rcases text_unit h with htext | ⟨hname, hstart⟩
    · rw [htext] at hmeasure
      exact absurd hmeasure (by decide +kernel)
    · obtain ⟨q, hunit, htext, hcovers⟩ := unit_of_starts hname hstart
      exact ⟨hstarts _ hstart, q, hunit, hcovers, fun _ => htext, fun hknown => absurd rfl hknown⟩
  · -- A known one is one of the table, in letters that are decoded as they are.
    rw [hmeasure]
    obtain ⟨hagain, hknown, hpercent' | ⟨hne, hall⟩⟩ := measure_suffix entry hentry
    · rw [hpercent'] at hagain ⊢
      exact ⟨hpercent.1, _, hpercent.2.1, hpercent.2.2, fun hunknown => absurd hunknown hknown,
        fun _ => ⟨congrArg Prod.snd hagain, by simp⟩⟩
    · have hletters := List.all_eq_true.1 hall
      obtain ⟨c, rest, hcons⟩ := List.exists_cons_of_ne_nil hne
      have hc : isNameStart c = true := hletters c (by simp [hcons])
      have hstart : Starts entry.1.toList := ⟨c, rest, hcons, .inl hc⟩
      obtain ⟨q, hunit, htext, hcovers⟩ := unit_of_starts (nameText_of_letters hletters) hstart
      have hback : c ≠ '\\' := by
        rintro rfl
        revert hc
        decide
      have hname : (Piece.name entry.1.toList).text = entry.1.toList := by
        rw [hcons, Piece.name_cons rest hback (NameText.isNameChar_of_isNameStart hc), ← hcons]
        exact text_run_of_letters hletters
      refine ⟨hstarts _ hstart, q, hunit, hcovers, fun _ => htext, fun _ => ⟨?_, ?_⟩⟩
      · rw [htext, hname]
        exact congrArg Prod.snd hagain
      · exact fun hmem => absurd (hletters _ hmem) (by decide)

end Lexeme

/-! ## Quantities -/

/-- The unit in the text of a quantity. -/
def unitText (cs : List Char) : List Char := cs.dropWhile Lexeme.isNumeral

namespace Lexeme

/-- The characters of a numeral hold no escape. -/
theorem backslash_not_mem_numeral {cs : List Char} (h : ∀ c ∈ cs, isNumeral c = true) :
    '\\' ∉ cs :=
  fun hmem => absurd (h _ hmem) (by decide)

theorem unitText_append {ds more : List Char} (hds : ∀ c ∈ ds, isNumeral c = true)
    (hmore : ∀ c ∈ more.head?, isNumeral c = false) : unitText (ds ++ more) = more := by
  rw [unitText, List.dropWhile_append_of_pos hds]
  cases more with
  | nil => rfl
  | cons c more => simp [hmore c rfl]

/-- **A number, read again.** It is whole, and of the same kind unless its unit was unknown. -/
theorem number_again {c : Char} {cs : List Char} (h : numberAhead c cs = true) :
    ∃ r, (number c cs).piece.text = c :: r ∧ numberAhead c r = true ∧
      (number c r).piece.Covers (c :: r) [] ∧
      ((number c cs).kind = .quantity .dimension →
        (number c r).kind = .quantity (measure (Piece.name (unitText (c :: r))).text).2) ∧
      ((number c cs).kind ≠ .quantity .dimension →
        (number c r).kind = (number c cs).kind ∧ '\\' ∉ c :: r) := by
  -- The text is the numeral, followed by nothing or by the unit in its spelling.
  have hnumeral : ∀ d ∈ c :: (digits (c == '.') cs).1, isNumeral d = true :=
    List.forall_mem_cons.2 ⟨isNumeral_of_numberAhead h, isNumeral_digits _ _⟩
  have hdigits : ∀ more : List Char, (∀ d ∈ more.head?, isNumeral d = false) →
      digits (c == '.') ((digits (c == '.') cs).1 ++ more) = digits (c == '.') cs := by
    intro more hmore
    refine digits_append _ _ fun d hd => ?_
    have hplain := hmore d hd
    simp only [isNumeral, Bool.or_eq_false_iff, beq_eq_false_iff_ne] at hplain
    exact hplain.1
  cases hunit : unit (cs.drop (digits (c == '.') cs).1.length) with
  | none =>
      have hnumber : number c (digits (c == '.') cs).1 =
          ⟨.quantity (if (digits (c == '.') cs).2 then .number else .integer),
            Piece.ofText (c :: (digits (c == '.') cs).1) ++ {}⟩ := by
        have hnone := hdigits [] (by simp)
        rw [List.append_nil] at hnone
        simp [number, hnone, unit]
      have hkind : (number c cs).kind =
          .quantity (if (digits (c == '.') cs).2 then .number else .integer) := by
        simp only [number, hunit]
      refine ⟨(digits (c == '.') cs).1, ?_, ?_, ?_, fun hdimension => ?_,
        fun _ => ⟨?_, backslash_not_mem_numeral hnumeral⟩⟩
      · simp only [number, hunit]
        split <;> simp [Piece.text_append, Piece.ofText, Piece.stepBack]
      · simpa using numberAhead_digits h []
      · rw [hnumber]
        simpa using Piece.covers_nil.append (backslash_not_mem_numeral hnumeral)
      · rw [hkind] at hdimension
        split at hdimension <;> cases hdimension
      · rw [hnumber, hkind]
  | some p =>
      obtain ⟨hmore, q, hq, hcovers, hunknown, hknown⟩ := unit_again hunit
      have hnumber : number c ((digits (c == '.') cs).1 ++ (measure p.text).1) =
          ⟨.quantity (measure q.text).2, Piece.ofText (c :: (digits (c == '.') cs).1) ++
            q.withText (measure q.text).1⟩ := by
        simp only [number, hdigits _ hmore, List.drop_left, hq]
      have hdimension : (number c cs).kind = .quantity (measure p.text).2 := by
        simp only [number, hunit]
      refine ⟨(digits (c == '.') cs).1 ++ (measure p.text).1, ?_, numberAhead_digits h _, ?_,
        fun hkind => ?_, fun hkind => ?_⟩
      · simp only [number, hunit]
        rfl
      · rw [hnumber, ← List.cons_append]
        have hcovers' : (q.withText (measure q.text).1).Covers (measure p.text).1 [] :=
          ⟨hcovers.length, hcovers.faultless⟩
        exact hcovers'.append (backslash_not_mem_numeral hnumeral)
      · rw [hdimension] at hkind
        rw [hnumber, ← List.cons_append, unitText_append hnumeral hmore,
          hunknown (TokenKind.quantity.inj hkind)]
      · rw [hdimension] at hkind
        obtain ⟨hsame, hback⟩ := hknown fun hm => hkind (congrArg _ hm)
        rw [hnumber, hdimension, hsame, ← List.cons_append, List.mem_append, not_or]
        exact ⟨rfl, backslash_not_mem_numeral hnumeral, hback⟩

end Lexeme

end EpubStyle
