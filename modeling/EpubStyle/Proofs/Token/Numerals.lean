import EpubStyle.Proofs.Rescan.Tokens
import EpubStyle.Proofs.Spans.Basic

/-!
# Numerals and their suffixes

A *numeral* is a number as it is written without a unit: perhaps a sign, then digits, which a point
and more digits may follow, or a point and digits (`Numeral`). The scanner knows no such grammar. It
goes from digit to digit with a flag for the point (`Lexeme.digits`), looks ahead before it takes a
point, and then asks whether a unit follows.

## What this module delivers

- `Lexeme.numberAhead_iff`: the scanner sees a number exactly where a numeral stands.
- `Lexeme.digits_numeral`: a numeral is taken whole, whatever stands behind it. So what is taken is
  the longest one at the front of the text (`Lexeme.longestNumeral_digits`), and the flag says
  whether it has a point (`Lexeme.flag_numeral`).
- `Lexeme.measure_of_known`: the unit table has at most one entry for a suffix, and `measure` finds
  it.
- `scan_numeral`: a token at a numeral takes the longest one there and perhaps a unit; and a numeral
  with a suffix, scanned by itself, is one token, which is what `Denotes` says.
-/

set_option autoImplicit false

namespace EpubStyle

open Text

/-! ## Numerals -/

/-- Digits, at least one. -/
def Digits (ds : List Char) : Prop := ds ≠ [] ∧ ∀ d ∈ ds, d.isDigit = true

/-- A numeral without a sign. -/
inductive Unsigned : List Char → Prop
  | whole (ds : List Char) (h : Digits ds) : Unsigned ds
  | decimal (ds fs : List Char) (h : Digits ds) (h' : Digits fs) : Unsigned (ds ++ '.' :: fs)
  | fraction (fs : List Char) (h : Digits fs) : Unsigned ('.' :: fs)

/-- A numeral. -/
inductive Numeral : List Char → Prop
  | unsigned (n : List Char) (h : Unsigned n) : Numeral n
  | signed (c : Char) (n : List Char) (hc : isSign c = true) (h : Unsigned n) : Numeral (c :: n)

/-- The longest numeral at the front of a text. -/
structure LongestNumeral (n cs : List Char) : Prop where
  numeral : Numeral n
  front : n <+: cs
  longest : ∀ m, Numeral m → m <+: cs → m.length ≤ n.length

theorem Numeral.ne_nil {n : List Char} (h : Numeral n) : n ≠ [] := by
  cases h with
  | unsigned _ h =>
      cases h with
      | whole _ h => exact h.1
      | decimal ds fs h h' => simp
      | fraction fs h => simp
  | signed c n hc h => simp

/-- A suffix without escapes: nothing, a percent sign or a name. -/
inductive Suffix : List Char → Prop
  | none : Suffix []
  | percent : Suffix ['%']
  | name (c : Char) (cs : List Char) (hc : isNameStart c = true)
      (hcs : ∀ d ∈ cs, isNameChar d = true) : Suffix (c :: cs)

/-- What the numeral `n` measures with a suffix, and the suffix as it is spelled in the token. -/
inductive Denotes (n : List Char) : List Char → Measure → List Char → Prop
  | integer (h : '.' ∉ n) : Denotes n [] .integer []
  | number (h : '.' ∈ n) : Denotes n [] .number []
  | known (s : List Char) (entry : String × Measure) (hmem : entry ∈ Measure.suffixes)
      (hsame : sameWord entry.1.toList s = true) : Denotes n s entry.2 entry.1.toList
  | unknown (s : List Char) (hne : s ≠ [])
      (h : ∀ entry ∈ Measure.suffixes, sameWord entry.1.toList s = false) :
      Denotes n s .dimension s

namespace Lexeme

/-! ## What is taken of a text -/

theorem ne_point_of_isDigit {c : Char} (h : c.isDigit = true) : (c == '.') = false := by
  rw [beq_eq_false_iff_ne]
  rintro rfl
  cases h

theorem isSign_of_isDigit {c : Char} (h : c.isDigit = true) : isSign c = false := by
  rw [← Bool.not_eq_true]
  intro hsign
  simp only [isSign, Bool.or_eq_true, beq_iff_eq] at hsign
  rcases hsign with rfl | rfl <;> cases h

theorem ne_point_of_isSign {c : Char} (h : isSign c = true) : (c == '.') = false := by
  rw [beq_eq_false_iff_ne]
  rintro rfl
  cases h

/-- The flag says whether the number has a point by then. -/
theorem flag_digits (real : Bool) (cs : List Char) :
    (digits real cs).2 = (real || decide ('.' ∈ (digits real cs).1)) := by
  induction cs generalizing real with
  | nil => simp [digits]
  | cons c cs ih =>
      simp only [digits]
      split
      · next hdigit =>
          have hne : '.' ≠ c := Ne.symm (beq_eq_false_iff_ne.1 (ne_point_of_isDigit hdigit))
          simp [ih, hne]
      · split
        · next hpoint =>
            simp only [Bool.and_eq_true, beq_iff_eq] at hpoint
            simp [ih, hpoint.1.1]
        · simp

theorem flag_numeral (c : Char) (cs : List Char) :
    (digits (c == '.') cs).2 = decide ('.' ∈ c :: (digits (c == '.') cs).1) := by
  rw [flag_digits]
  by_cases hc : c = '.'
  · simp [hc]
  · simp [hc, Ne.symm hc]

/-- Digits are taken whatever stands behind them. -/
theorem digits_digits (real : Bool) {ds : List Char} (h : ∀ d ∈ ds, d.isDigit = true)
    (more : List Char) : (digits real (ds ++ more)).1 = ds ++ (digits real more).1 := by
  induction ds with
  | nil => rfl
  | cons d ds ih =>
      obtain ⟨hd, hds⟩ := List.forall_mem_cons.1 h
      simp [digits, hd, ih hds]

/-- The first point is taken before a digit. -/
theorem digits_point {cs : List Char} (h : digitAhead cs = true) :
    (digits false ('.' :: cs)).1 = '.' :: (digits true cs).1 := by
  have hpoint : '.'.isDigit = false := rfl
  simp [digits, hpoint, h]

/-- Behind a point there are digits alone. -/
theorem digits_true (cs : List Char) : ∀ d ∈ (digits true cs).1, d.isDigit = true := by
  induction cs with
  | nil => simp [digits]
  | cons c cs ih =>
      simp only [digits]
      split
      · next hdigit => exact List.forall_mem_cons.2 ⟨hdigit, ih⟩
      · simp

/-- Digits are taken, or digits with a point and more digits behind them. -/
theorem digits_false_cases (cs : List Char) :
    ∃ ds, (∀ d ∈ ds, d.isDigit = true) ∧ ((digits false cs).1 = ds ∨
      ∃ fs, Digits fs ∧ (digits false cs).1 = ds ++ '.' :: fs) := by
  induction cs with
  | nil => exact ⟨[], by simp, .inl rfl⟩
  | cons c cs ih =>
      by_cases hdigit : c.isDigit = true
      · obtain ⟨ds, hds, hread⟩ := ih
        have hcons : (digits false (c :: cs)).1 = c :: (digits false cs).1 :=
          digits_digits false (List.forall_mem_singleton.2 hdigit) cs
        refine ⟨c :: ds, List.forall_mem_cons.2 ⟨hdigit, hds⟩, ?_⟩
        rcases hread with hread | ⟨fs, hfs, hread⟩
        · exact .inl (by rw [hcons, hread])
        · exact .inr ⟨fs, hfs, by rw [hcons, hread]; rfl⟩
      · refine ⟨[], by simp, ?_⟩
        -- The point is taken only with a digit behind it.
        by_cases hpoint : c = '.' ∧ digitAhead cs = true
        · obtain ⟨rfl, hahead⟩ := hpoint
          have hne : (digits true cs).1 ≠ [] := by
            intro hnil
            have hfirst := digitAhead_digits hahead true []
            rw [hnil] at hfirst
            cases hfirst
          exact .inr ⟨_, ⟨hne, digits_true cs⟩, digits_point hahead⟩
        · left
          simp only [digits, hdigit, Bool.false_eq_true, if_false, Bool.not_false, Bool.and_true]
          rw [if_neg (by simpa using hpoint)]

/-- Without a sign, the first character of a number is taken like the others. -/
theorem digits_cons {c : Char} {cs : List Char} (h : numberAhead c cs = true)
    (hsign : isSign c = false) :
    (digitAhead (c :: cs) = true ∨ fractionAhead (c :: cs) = true) ∧
      (digits false (c :: cs)).1 = c :: (digits (c == '.') cs).1 := by
  simp only [numberAhead, hsign, Bool.or_false, Bool.false_and, Bool.or_eq_true,
    Bool.and_eq_true, beq_iff_eq] at h
  rcases h with hdigit | ⟨rfl, hahead⟩
  · refine ⟨.inl (by simp [digitAhead, hdigit]), ?_⟩
    rw [ne_point_of_isDigit hdigit]
    exact digits_digits false (List.forall_mem_singleton.2 hdigit) cs
  · exact ⟨.inr hahead, digits_point hahead⟩

/-- What is taken at digits or at a fraction is a numeral without a sign. -/
theorem unsigned_digits {cs : List Char}
    (h : digitAhead cs = true ∨ fractionAhead cs = true) : Unsigned (digits false cs).1 := by
  have hne : (digits false cs).1 ≠ [] := by
    rcases h with hdigit | hfraction
    · intro hnil
      have hfirst := digitAhead_digits hdigit false []
      rw [hnil] at hfirst
      cases hfirst
    · unfold fractionAhead at hfraction
      split at hfraction
      · rw [digits_point hfraction]
        simp
      · cases hfraction
  obtain ⟨ds, hds, hread | ⟨fs, hfs, hread⟩⟩ := digits_false_cases cs
  · rw [hread] at hne ⊢
    exact .whole ds ⟨hne, hds⟩
  · rw [hread]
    cases ds with
    | nil => exact .fraction fs hfs
    | cons d ds => exact .decimal (d :: ds) fs ⟨by simp, hds⟩ hfs

/-- What is taken where a number starts is a numeral. -/
theorem numeral_digits {c : Char} {cs : List Char} (h : numberAhead c cs = true) :
    Numeral (c :: (digits (c == '.') cs).1) := by
  cases hsign : isSign c with
  | true =>
      have hdigit : c.isDigit = false := by
        rw [← Bool.not_eq_true]
        intro hdigit
        rw [isSign_of_isDigit hdigit] at hsign
        cases hsign
      rw [ne_point_of_isSign hsign]
      exact .signed c _ hsign (unsigned_digits (by simpa [numberAhead, hsign, hdigit] using h))
  | false =>
      obtain ⟨hahead, hread⟩ := digits_cons h hsign
      rw [← hread]
      exact .unsigned _ (unsigned_digits hahead)

/-! ## Numerals are taken whole -/

theorem digitAhead_of_digits {ds : List Char} (h : Digits ds) (more : List Char) :
    digitAhead (ds ++ more) = true := by
  obtain ⟨d, ds, rfl⟩ := List.exists_cons_of_ne_nil h.1
  simpa [digitAhead] using h.2 d (by simp)

/-- Where a numeral without a sign stands, digits or a fraction are ahead. -/
theorem ahead_of_unsigned {n : List Char} (h : Unsigned n) (more : List Char) :
    digitAhead (n ++ more) = true ∨ fractionAhead (n ++ more) = true := by
  cases h with
  | whole _ h => exact .inl (digitAhead_of_digits h more)
  | decimal ds fs h h' =>
      rw [List.append_assoc]
      exact .inl (digitAhead_of_digits h _)
  | fraction fs h => exact .inr (digitAhead_of_digits h more)

/-- A numeral without a sign is taken whole. -/
theorem digits_unsigned {n : List Char} (h : Unsigned n) (more : List Char) :
    ∃ real, (digits false (n ++ more)).1 = n ++ (digits real more).1 := by
  cases h with
  | whole _ h => exact ⟨false, digits_digits false h.2 more⟩
  | decimal ds fs h h' =>
      refine ⟨true, ?_⟩
      rw [List.append_assoc, digits_digits false h.2, List.cons_append,
        digits_point (digitAhead_of_digits h' more), digits_digits true h'.2]
      simp
  | fraction fs h =>
      refine ⟨true, ?_⟩
      rw [List.cons_append, digits_point (digitAhead_of_digits h more), digits_digits true h.2]
      rfl

theorem numberAhead_of_ahead {c : Char} {cs : List Char}
    (h : digitAhead (c :: cs) = true ∨ fractionAhead (c :: cs) = true) :
    numberAhead c cs = true ∧ isSign c = false := by
  rcases h with hdigit | hfraction
  · have hc : c.isDigit = true := by simpa [digitAhead] using hdigit
    exact ⟨by simp [numberAhead, hc], isSign_of_isDigit hc⟩
  · unfold fractionAhead at hfraction
    split at hfraction
    · next heq =>
        obtain ⟨rfl, rfl⟩ := List.cons.inj heq
        exact ⟨by simp [numberAhead, hfraction], rfl⟩
    · cases hfraction

theorem numberAhead_of_numeral {c : Char} {n : List Char} (h : Numeral (c :: n))
    (more : List Char) : numberAhead c (n ++ more) = true := by
  cases h with
  | unsigned _ h => exact (numberAhead_of_ahead (ahead_of_unsigned h more)).1
  | signed _ _ hc h =>
      rcases ahead_of_unsigned h more with hahead | hahead <;> simp [numberAhead, hc, hahead]

/-- **A numeral is taken whole**, whatever stands behind it. -/
theorem digits_numeral {c : Char} {n : List Char} (h : Numeral (c :: n)) (more : List Char) :
    ∃ real, (digits (c == '.') (n ++ more)).1 = n ++ (digits real more).1 := by
  cases h with
  | unsigned _ h =>
      have hahead : numberAhead c (n ++ more) = true ∧ isSign c = false :=
        numberAhead_of_ahead (ahead_of_unsigned h more)
      obtain ⟨real, hread⟩ := digits_unsigned h more
      rw [List.cons_append, (digits_cons hahead.1 hahead.2).2] at hread
      exact ⟨real, (List.cons.inj hread).2⟩
  | signed _ _ hc h =>
      rw [ne_point_of_isSign hc]
      exact digits_unsigned h more

/-- **A number starts exactly where a numeral stands.** -/
theorem numberAhead_iff {c : Char} {cs : List Char} :
    numberAhead c cs = true ↔ ∃ n, Numeral n ∧ n <+: c :: cs := by
  constructor
  · intro h
    obtain ⟨⟨rest, hrest⟩, -⟩ := digits_prefix (c == '.') cs
    refine ⟨_, numeral_digits h, rest, ?_⟩
    rw [List.cons_append, ← hrest]
  · rintro ⟨n, hn, more, hmore⟩
    obtain ⟨d, n, rfl⟩ := List.exists_cons_of_ne_nil hn.ne_nil
    obtain ⟨rfl, rfl⟩ := List.cons.inj hmore
    exact numberAhead_of_numeral hn more

/-- **The numeral that is taken is the longest one.** -/
theorem longestNumeral_digits {c : Char} {cs : List Char} (h : numberAhead c cs = true) :
    LongestNumeral (c :: (digits (c == '.') cs).1) (c :: cs) where
  numeral := numeral_digits h
  front := by
    obtain ⟨⟨rest, hrest⟩, -⟩ := digits_prefix (c == '.') cs
    exact ⟨rest, by rw [List.cons_append, ← hrest]⟩
  longest := by
    rintro m hm ⟨more, hmore⟩
    obtain ⟨d, m, rfl⟩ := List.exists_cons_of_ne_nil hm.ne_nil
    obtain ⟨rfl, rfl⟩ := List.cons.inj hmore
    obtain ⟨real, hread⟩ := digits_numeral hm more
    have htaken : d :: (digits (d == '.') (m ++ more)).1 = d :: m ++ (digits real more).1 :=
      congrArg (d :: ·) hread
    exact List.IsPrefix.length_le ⟨_, htaken.symm⟩

/-! ## Suffixes -/

/-- The known suffixes differ by more than case. -/
theorem eq_of_suffixes : ∀ entry ∈ Measure.suffixes, ∀ other ∈ Measure.suffixes,
    entry.1.toList.map Char.toLower = other.1.toList.map Char.toLower → entry = other := by
  decide +kernel

theorem length_suffixes : ∀ entry ∈ Measure.suffixes,
    entry.1.toList ≠ [] ∧ entry.1.toList.length ≤ Measure.longestSuffix := by
  decide +kernel

/-- A known suffix in any case is measured by its entry. -/
theorem measure_of_known {s : List Char} {entry : String × Measure}
    (hmem : entry ∈ Measure.suffixes) (hsame : sameWord entry.1.toList s = true) :
    measure s = (entry.1.toList, entry.2) := by
  have hlower := map_toLower_of_sameWord hsame
  have hlength : s.length ≤ Measure.longestSuffix := by
    have hle := (length_suffixes entry hmem).2
    rwa [← List.length_map Char.toLower, hlower, List.length_map] at hle
  have hfound : Measure.ofSuffix? (String.ofList s) = some entry := by
    cases hother : Measure.ofSuffix? (String.ofList s) with
    | none =>
        have hnone := List.find?_eq_none.1 hother entry hmem
        simp [sameText, hsame] at hnone
    | some other =>
        have hothersame := List.find?_some hother
        simp only [sameText, String.toList_ofList] at hothersame
        have hothermem := List.mem_of_find?_eq_some hother
        rw [eq_of_suffixes other hothermem entry hmem
          ((map_toLower_of_sameWord hothersame).trans hlower.symm)]
  simp [measure, hlength, hfound]

/-- A suffix that no entry matches is kept. -/
theorem measure_of_unknown {s : List Char}
    (h : ∀ entry ∈ Measure.suffixes, sameWord entry.1.toList s = false) :
    measure s = (s, .dimension) := by
  have hfound : Measure.ofSuffix? (String.ofList s) = none := by
    refine List.find?_eq_none.2 fun entry hmem => ?_
    simp [sameText, h entry hmem]
  simp [measure, hfound]

theorem exists_denotes (n s : List Char) : ∃ m u, Denotes n s m u := by
  by_cases hs : s = []
  · subst hs
    by_cases hn : '.' ∈ n
    · exact ⟨_, _, .number hn⟩
    · exact ⟨_, _, .integer hn⟩
  · by_cases hknown : ∃ entry ∈ Measure.suffixes, sameWord entry.1.toList s = true
    · obtain ⟨entry, hmem, hsame⟩ := hknown
      exact ⟨_, _, .known s entry hmem hsame⟩
    · refine ⟨_, _, .unknown s hs fun entry hmem => ?_⟩
      rw [← Bool.not_eq_true]
      exact fun hsame => hknown ⟨entry, hmem, hsame⟩

theorem ofText_cons (c : Char) (cs : List Char) :
    Piece.ofText (c :: cs) = Piece.ofChar c ++ Piece.ofText cs := by
  change _ = Piece.append _ _
  simp [Piece.append, Piece.ofChar, Piece.ofText, Nat.add_comm]

/-- Name characters are taken as they are. -/
theorem run_of_nameChars {cs : List Char} (h : ∀ c ∈ cs, isNameChar c = true) :
    Piece.run isNameChar cs = Piece.ofText cs := by
  induction cs with
  | nil => simp [Piece.run, Piece.ofText]
  | cons c cs ih =>
      obtain ⟨hc, hcs⟩ := List.forall_mem_cons.1 h
      have hback : c ≠ '\\' := by
        rintro rfl
        cases hc
      rw [Piece.run_cons cs hback hc, ih hcs, ofText_cons]

/-- What starts a unit continues no numeral. -/
theorem isNumeral_of_suffix {s : List Char} (h : Suffix s) :
    (∀ c ∈ s.head?, isNumeral c = false) ∧ s.head? ≠ some '\\' := by
  cases h with
  | none => simp
  | percent => simp [isNumeral, isSign]
  | name c cs hc hcs =>
      constructor
      · rintro d hd
        obtain rfl := Option.some.inj hd
        exact isNumeral_of_isNameStart (.inl hc)
      · rintro heq
        obtain rfl := Option.some.inj heq
        cases hc

/-- The unit that is read from a suffix alone is the suffix. -/
theorem unit_suffix {s : List Char} (h : Suffix s) (hne : s ≠ []) :
    unit s = some (Piece.ofText s) := by
  cases h with
  | none => exact absurd rfl hne
  | percent => rfl
  | name c cs hc hcs =>
      have hpercent : c ≠ '%' := by
        rintro rfl
        cases hc
      have hback : c ≠ '\\' := by
        rintro rfl
        cases hc
      have hchar := NameText.isNameChar_of_isNameStart hc
      have hname : Piece.name (c :: cs) = Piece.ofText (c :: cs) := by
        rw [Piece.name_cons cs hback hchar,
          run_of_nameChars (List.forall_mem_cons.2 ⟨hchar, hcs⟩)]
      simp [unit, hpercent, hc, hname]

/-! ## Numbers -/

/-- The digits of a numeral before a suffix. -/
theorem digits_before {c : Char} {n s : List Char} (hn : Numeral (c :: n))
    (hs : ∀ d ∈ s.head?, isNumeral d = false) :
    digits (c == '.') (n ++ s) = (n, decide ('.' ∈ c :: n)) := by
  obtain ⟨real, hread⟩ := digits_numeral hn s
  have hstop : (digits real s).1 = [] := by
    cases s with
    | nil => rfl
    | cons d s =>
        have hd := hs d rfl
        simp only [isNumeral, Bool.or_eq_false_iff] at hd
        simp [digits, hd]
  rw [hstop, List.append_nil] at hread
  refine Prod.ext hread ?_
  rw [flag_numeral, hread]

/-- **A numeral with its suffix, read as a number.** -/
theorem number_of_denotes {c : Char} {n s u : List Char} {m : Measure} (hn : Numeral (c :: n))
    (hs : Suffix s) (h : Denotes (c :: n) s m u) :
    number c (n ++ s) = ⟨.quantity m, ⟨c :: n ++ u, (c :: n ++ s).length, []⟩⟩ := by
  have hdigits := digits_before hn (isNumeral_of_suffix hs).1
  -- A suffix is read as a unit, whether its measure is known or not.
  have hmeasured : s ≠ [] → measure s = (u, m) →
      number c (n ++ s) = ⟨.quantity m, ⟨c :: n ++ u, (c :: n ++ s).length, []⟩⟩ := by
    intro hne hmeasure
    have hunit := unit_suffix hs hne
    have htext : (Piece.ofText s).text = s := rfl
    simp only [number, hdigits, List.drop_left, hunit, htext, hmeasure]
    change mk _ (Piece.append _ _) = _
    simp [Piece.append, Piece.ofText, Piece.withText, Nat.add_right_comm]
  -- Without a suffix only the point decides.
  have hplain : number c n = ⟨.quantity (if '.' ∈ c :: n then .number else .integer),
      ⟨c :: n, (c :: n).length, []⟩⟩ := by
    have hread := digits_before (s := []) hn (by simp)
    rw [List.append_nil] at hread
    simp only [number, hread, List.drop_length, unit]
    change mk _ (Piece.append _ _) = _
    simp [Piece.append, Piece.ofText]
  cases h with
  | integer h => simp [hplain, h]
  | number h => simp [hplain, h]
  | known _ entry hmem hsame =>
      refine hmeasured ?_ (measure_of_known hmem hsame)
      rintro rfl
      have hlower := congrArg List.length (map_toLower_of_sameWord hsame)
      simp only [List.length_map, List.length_nil] at hlower
      exact (length_suffixes entry hmem).1 (List.length_eq_zero_iff.1 hlower)
  | unknown _ hne h => exact hmeasured hne (measure_of_unknown h)

/-- Nothing happens while a numeral with its suffix is told from a name. -/
theorem probe_of_numeral {c : Char} {n s : List Char} (hn : Numeral (c :: n)) (hs : Suffix s) :
    probe c (n ++ s) = [] := by
  have hread := digits_before hn (isNumeral_of_suffix hs).1
  have hc := isNumeral_of_numberAhead (numberAhead_of_numeral hn s)
  have hall : ∀ d ∈ n, isNumeral d = true := by
    intro d hd
    refine isNumeral_digits (c == '.') (n ++ s) d ?_
    rwa [hread]
  refine probe_eq_nil ?_ ?_ ?_
  · rintro rfl
    cases hc
  · rintro rfl
    cases hc
  · cases n with
    | nil => exact (isNumeral_of_suffix hs).2
    | cons d n =>
        intro heq
        have hd := hall d (by simp)
        obtain rfl := Option.some.inj heq
        cases hd

/-- A unit takes a character, and its first one starts no numeral. -/
theorem unit_start {cs : List Char} {p : Piece} (h : unit cs = some p) :
    0 < p.length ∧ ∃ d rest, cs = d :: rest ∧ (isUnitStart d = true ∨ d = '\\') := by
  cases cs with
  | nil => cases h
  | cons d rest =>
      simp only [unit] at h
      split at h
      · next hpercent =>
          obtain rfl := Option.some.inj h
          exact ⟨Nat.one_pos, d, rest, rfl, .inl (by simp [isUnitStart, hpercent])⟩
      · split at h
        · next hstart =>
            obtain rfl := Option.some.inj h
            have hback : d ≠ '\\' := by
              rintro rfl
              cases hstart
            have hchar := NameText.isNameChar_of_isNameStart hstart
            refine ⟨?_, d, rest, rfl, .inl (by simp [isUnitStart, hstart])⟩
            rw [Piece.name_cons rest hback hchar, Piece.run_cons rest hback hchar]
            exact Nat.add_pos_left Nat.one_pos _
        · split at h
          · next hescape =>
              obtain rfl := Option.some.inj h
              -- An escape is ahead only where a backslash stands.
              obtain ⟨rfl, e, hread⟩ : d = '\\' ∧ ∃ e, Escape.read rest = .escape e := by
                by_cases hback : d = '\\'
                · subst hback
                  refine ⟨rfl, ?_⟩
                  cases hread : Escape.read rest with
                  | escape e => exact ⟨e, rfl⟩
                  | endOfInput | lineBreak => simp [escapeAhead, hread] at hescape
                · rw [escapeAhead_of_ne rest hback] at hescape
                  cases hescape
              refine ⟨?_, _, rest, rfl, .inr rfl⟩
              rw [Piece.length_append, Piece.name_escape hread, Piece.length_append]
              exact Nat.add_pos_right _ (Nat.add_pos_left (Nat.succ_pos _) _)
          · cases h

theorem plain_not_suffix : ∀ entry ∈ Measure.suffixes, entry.2 ≠ .integer ∧ entry.2 ≠ .number := by
  decide +kernel

/-- What has a unit is neither an integer nor a real. -/
theorem measure_ne_plain (suffix : List Char) :
    (measure suffix).2 ≠ .integer ∧ (measure suffix).2 ≠ .number := by
  rcases measure_cases suffix with hmeasure | ⟨entry, hentry, hmeasure⟩
  · rw [hmeasure]
    simp
  · rw [hmeasure]
    exact plain_not_suffix entry hentry

/-- A number is a quantity, and an integer or a real exactly if it has no unit. -/
theorem number_parts {c : Char} {cs : List Char} (h : numberAhead c cs = true) :
    ∃ n w m, (c :: cs).take (number c cs).piece.length = n ++ w ∧ LongestNumeral n (c :: cs) ∧
      (∀ d ∈ w.head?, isUnitStart d = true ∨ d = '\\') ∧ n <+: (number c cs).piece.text ∧
      (number c cs).kind = .quantity m ∧
      (m = .integer ↔ w = [] ∧ '.' ∉ n) ∧ (m = .number ↔ w = [] ∧ '.' ∈ n) := by
  have hflag := flag_numeral c cs
  obtain ⟨⟨rest, hrest⟩, -⟩ := digits_prefix (c == '.') cs
  have hlongest := longestNumeral_digits h
  unfold number
  generalize digits (c == '.') cs = read at *
  obtain ⟨n, real⟩ := read
  obtain rfl : real = decide ('.' ∈ c :: n) := hflag
  obtain rfl : cs = n ++ rest := hrest
  simp only [List.drop_left]
  -- A unit makes the measure neither an integer nor a real (`measure_ne_plain`).
  cases hunit : unit rest with
  | none =>
      refine ⟨c :: n, [], _, ?_, hlongest, by simp, ⟨_, rfl⟩, rfl, ?_, ?_⟩
      · simp only
        split <;> simp [Piece.length_append, Piece.ofText, Piece.stepBack]
      · by_cases hpoint : '.' ∈ c :: n <;> simp [hpoint]
      · by_cases hpoint : '.' ∈ c :: n <;> simp [hpoint]
  | some p =>
      obtain ⟨hpos, d, rest, rfl, hd⟩ := unit_start hunit
      obtain ⟨hinteger, hreal⟩ := measure_ne_plain p.text
      have htake : (d :: rest).take p.length ≠ [] := by simp [Nat.ne_of_gt hpos]
      refine ⟨c :: n, (d :: rest).take p.length, _, ?_, hlongest, ?_, ⟨_, rfl⟩, rfl, ?_, ?_⟩
      · change (c :: n ++ d :: rest).take ((c :: n).length + p.length) = _
        exact List.take_length_add_append _
      · rintro e he
        rw [List.head?_take, if_neg (Nat.ne_of_gt hpos)] at he
        obtain rfl := Option.some.inj he
        exact hd
      · exact iff_of_false hinteger fun hnil => htake hnil.1
      · exact iff_of_false hreal fun hnil => htake hnil.1

end Lexeme

/-! ## Tokens -/

/-- **Numbers are scanned exactly.** A token that begins where a numeral stands takes the longest
one, and perhaps a unit. A numeral with a suffix is one token by itself, and it measures what the
two denote. -/
theorem scan_numeral :
    (∀ (text source : String) (before after : List Scanned) (s : Scanned),
      scan text source = before ++ s :: after → (∃ n, Numeral n ∧ n <+: s.token.ahead text) →
      ∃ n w m, s.token.span text after = n ++ w ∧ LongestNumeral n (s.token.ahead text) ∧
        (∀ c ∈ w.head?, isUnitStart c = true ∨ c = '\\') ∧ n <+: s.token.text.toList ∧
        s.token.kind = .quantity m ∧
        (m = .integer ↔ w = [] ∧ '.' ∉ n) ∧ (m = .number ↔ w = [] ∧ '.' ∈ n)) ∧
    ∀ n s : List Char, Numeral n → Suffix s → (∃ m u, Denotes n s m u) ∧
      ∀ m u, Denotes n s m u →
        ScansAs (String.ofList (n ++ s)) (.quantity m) (String.ofList (n ++ u)) := by
  constructor
  · rintro text source before after s hscan hnumeral
    obtain ⟨p, c, cs, rfl, hahead, -, hspan⟩ :=
      exists_lexeme_of_scan hscan (fun _ _ => True) trivial fun _ _ _ _ => trivial
    rw [hahead] at hnumeral ⊢
    have hnumber := Lexeme.numberAhead_iff.2 hnumeral
    have hread : (Lexeme.read c cs).kind = (Lexeme.number c cs).kind ∧
        (Lexeme.read c cs).piece.length = (Lexeme.number c cs).piece.length ∧
        (Lexeme.read c cs).piece.text = (Lexeme.number c cs).piece.text := by
      rw [← Lexeme.readBody_number hnumber]
      exact ⟨rfl, rfl, rfl⟩
    have hkind : (Scanned.ofLexeme source p (c :: cs) (Lexeme.read c cs)).token.kind =
        (Lexeme.read c cs).kind := rfl
    have htext : (Scanned.ofLexeme source p (c :: cs) (Lexeme.read c cs)).token.text.toList =
        (Lexeme.read c cs).piece.text := String.toList_ofList
    rw [hspan, hkind, htext, hread.1, hread.2.1, hread.2.2]
    exact Lexeme.number_parts hnumber
  · intro n s hn hs
    refine ⟨Lexeme.exists_denotes n s, fun m u hdenotes => ?_⟩
    obtain ⟨c, n, rfl⟩ := List.exists_cons_of_ne_nil hn.ne_nil
    have hahead : Lexeme.numberAhead c (n ++ s) = true := Lexeme.numberAhead_of_numeral hn s
    have hbody := (Lexeme.readBody_number hahead).trans (Lexeme.number_of_denotes hn hs hdenotes)
    exact scansAs_of_read hbody (Lexeme.probe_of_numeral hn hs)

/-- A signed fraction stands behind an integer, and its unit is known in any case. -/
theorem scan_numeral_signed :
    (∃ before s after, scan "1-.5Em" "" = before ++ s :: after ∧ before ≠ [] ∧
      ∃ n w m, s.token.span "1-.5Em" after = n ++ w ∧
        LongestNumeral n (s.token.ahead "1-.5Em") ∧ s.token.kind = .quantity m ∧ m ≠ .integer) ∧
      ScansAs "-.5Em" (.quantity .ems) "-.5em" := by
  have hnumeral : Numeral ['-', '.', '5'] :=
    .signed '-' ['.', '5'] rfl (.fraction ['5'] ⟨by simp, by simp⟩)
  constructor
  · have hscan : scan "1-.5Em" "" =
        [⟨⟨.quantity .integer, "1", ⟨1, 1, 1, ""⟩, []⟩, []⟩] ++
          ⟨⟨.quantity .ems, "-.5em", ⟨1, 2, 2, ""⟩, []⟩, []⟩ :: [] := by
      decide +kernel
    obtain ⟨n, w, m, hspan, hlongest, -, -, hkind, hinteger, -⟩ :=
      scan_numeral.1 _ _ _ _ _ hscan ⟨_, hnumeral, ['E', 'm'], by decide⟩
    refine ⟨_, _, _, hscan, by simp, n, w, m, hspan, hlongest, hkind, ?_⟩
    obtain rfl : Measure.ems = m := TokenKind.quantity.inj hkind
    decide
  · have hsuffix : Suffix ['E', 'm'] := .name 'E' ['m'] rfl (by simp [isNameChar, isNameStart])
    have hdenotes : Denotes ['-', '.', '5'] ['E', 'm'] .ems ['e', 'm'] :=
      .known _ ("em", .ems) (by decide) (by decide)
    exact (scan_numeral.2 _ _ hnumeral hsuffix).2 _ _ hdenotes

end EpubStyle
