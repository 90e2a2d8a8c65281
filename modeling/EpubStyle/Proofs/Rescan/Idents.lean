import EpubStyle.Proofs.Rescan.Names

/-!
# Identifiers read from their own text

The text of an identifier begins as an identifier does, and read again it is taken whole
(`Lexeme.exists_identName`). Where an identifier may begin, the words `only`, `not` and `and`, the
opening `url(` and the opening `U+` are tried first. A range is not opened by the text of a name,
but the other two may be: a name that reads `only` is now that word, since nothing follows it
(`Lexeme.wordAhead_iff`), and a function that reads `url(` opens an address. Every other name is an
identifier again (`Lexeme.readBody_ident`).
-/

set_option autoImplicit false

namespace EpubStyle

open Text

/-! ## Pieces in a row -/

theorem Note.shift_shift (m n : Nat) (note : Note) :
    (note.shift n).shift m = note.shift (m + n) := by
  cases note with
  | fault steps code arguments => simp [shift, Nat.add_assoc]
  | stepBack distance => rfl

theorem Piece.append_assoc (p q r : Piece) : p ++ q ++ r = p ++ (q ++ r) := by
  have hsplit : ∀ a b : Piece, a ++ b =
      ⟨a.text ++ b.text, a.length + b.length, a.notes ++ b.notes.map (Note.shift a.length)⟩ :=
    fun _ _ => rfl
  simp only [hsplit, List.append_assoc, Nat.add_assoc, List.map_append, List.map_map]
  simp only [Function.comp_def, Note.shift_shift]

namespace Lexeme

/-! ## The name of an identifier -/

/-- The name of an identifier or a function. -/
def identName (c : Char) (cs : List Char) : Piece :=
  identStart c cs ++ Piece.run isNameChar ((c :: cs).drop (identStart c cs).length)

theorem identName_hyphen (cs : List Char) :
    identName '-' cs = Piece.ofChar '-' ++ Piece.name cs := by
  have hstart : identStart '-' cs = Piece.ofChar '-' ++ Piece.first isNameStart cs := rfl
  have hdrop : ('-' :: cs).drop (Piece.ofChar '-' ++ Piece.first isNameStart cs).length =
      cs.drop (Piece.first isNameStart cs).length := by
    rw [Piece.length_append, Nat.add_comm]
    rfl
  rw [identName, hstart, hdrop, Piece.append_assoc]
  rfl

/-- Without a hyphen in front the name of an identifier is a name. -/
theorem identName_of_ne_hyphen {c : Char} {cs : List Char} (h : identAhead c cs = true)
    (hc : c ≠ '-') : identName c cs = Piece.name (c :: cs) := by
  have hstart : identStart c cs = Piece.first isNameStart (c :: cs) := by
    by_cases hback : c = '\\'
    · subst hback
      simp only [identAhead, escapeAhead] at h
      cases hread : Escape.read cs with
      | escape e => simp [identStart, Piece.first, Piece.escape?, hread]
      | endOfInput | lineBreak => simp [hread, isNameStart] at h
    · have hname : isNameStart c = true := by
        simpa [identAhead, hc, escapeAhead_of_ne cs hback] using h
      simp [identStart, Piece.first, hback, hc, NameText.isNameChar_of_isNameStart hname]
  rw [identName, hstart, Piece.name]

/-- **The name of an identifier, read again.** -/
theorem exists_identName {c : Char} {cs : List Char} (h : identAhead c cs = true) :
    ∃ d ds, (identName c cs).text = d :: ds ∧ NameText (d :: ds) ∧
      ∀ rest, Closed rest →
        identAhead d (ds ++ rest) = true ∧ (identName d (ds ++ rest)).Covers (d :: ds) rest := by
  by_cases hc : c = '-'
  · subst hc
    -- What stands behind the hyphen begins a name of its own.
    have hahead : nameStartAhead cs = true ∨ escapeAhead cs = true := by
      simpa [identAhead, isNameStart, escapeAhead] using h
    have hstarts : Starts (Piece.name cs).text := .ofFirst hahead _
    have hname := NameText.ofName cs
    refine ⟨'-', (Piece.name cs).text, ?_, .char _ _ (by decide) hname, fun rest hrest => ?_⟩
    · rw [identName_hyphen]
      rfl
    · refine ⟨?_, ?_⟩
      · rcases hstarts.ahead hname hrest with hahead | hahead <;> simp [identAhead, hahead]
      · rw [identName_hyphen]
        exact (hname.covers_name hstarts.ne_nil hrest).cons (by decide)
  · have hahead : nameStartAhead (c :: cs) = true ∨ escapeAhead (c :: cs) = true := by
      simpa [identAhead, nameStartAhead, hc] using h
    have hstarts : Starts (Piece.name (c :: cs)).text := .ofFirst hahead _
    have hname := NameText.ofName (c :: cs)
    rw [identName_of_ne_hyphen h hc]
    generalize (Piece.name (c :: cs)).text = text at hstarts hname
    obtain ⟨d, ds, rfl, hd⟩ := id hstarts
    have hhyphen : d ≠ '-' := by
      rintro rfl
      rcases hd with hd | hd <;> revert hd <;> decide
    refine ⟨d, ds, rfl, hname, fun rest hrest => ?_⟩
    have hagain : identAhead d (ds ++ rest) = true := by
      rcases hstarts.ahead hname hrest with hahead | hahead
      · simpa [identAhead, nameStartAhead, hhyphen] using Or.inl hahead
      · simp only [List.cons_append] at hahead
        simp [identAhead, hahead]
    refine ⟨hagain, ?_⟩
    rw [identName_of_ne_hyphen hagain hhyphen]
    exact hname.covers_name (by simp) hrest

end Lexeme

/-! ## What else may begin like a name -/

namespace Text

theorem sameLetter_comm (a b : Char) : sameLetter a b = sameLetter b a := by
  simp only [sameLetter, Bool.beq_comm]

/-- A character that is no letter agrees with no other character. -/
theorem eq_of_sameLetter {a b : Char} (h : sameLetter a b = true) (hb : b.toLower = b)
    (hlower : b.isLower = false) : a = b := by
  rw [sameLetter, beq_iff_eq, hb] at h
  exact eq_of_toLower h hlower

/-- Words agree up to case if they are the same in lower case. -/
theorem sameWord_iff {as bs : List Char} :
    sameWord as bs = true ↔ as.map Char.toLower = bs.map Char.toLower := by
  refine ⟨Lexeme.map_toLower_of_sameWord, fun h => ?_⟩
  induction as generalizing bs with
  | nil =>
      obtain rfl := List.map_eq_nil_iff.1 h.symm
      rfl
  | cons a as ih =>
      cases bs with
      | nil => cases h
      | cons b bs =>
          simp only [List.map_cons, List.cons.injEq] at h
          simp [sameWord, sameLetter, h.1, ih h.2]

theorem sameWord_append_iff {as bs : List Char} (cs : List Char) :
    sameWord (as ++ cs) (bs ++ cs) = true ↔ sameWord as bs = true := by
  simp [sameWord_iff]

theorem length_of_sameWord {as bs : List Char} (h : sameWord as bs = true) :
    bs.length = as.length := by
  simpa using (congrArg List.length (Lexeme.map_toLower_of_sameWord h)).symm

theorem startsWord_of_sameWord {as bs : List Char} (h : sameWord as bs = true) :
    startsWord as bs = true := by
  induction as generalizing bs with
  | nil => rfl
  | cons a as ih =>
      cases bs with
      | nil => cases h
      | cons b bs =>
          simp only [sameWord, startsWord, Bool.and_eq_true] at h ⊢
          exact ⟨h.1, ih h.2⟩

/-- A word at the front of a name is taken from the name. -/
theorem NameText.split_of_startsWord {word behind cs rest : List Char} (hback : '\\' ∉ word)
    (hparen : '(' ∉ word) (h : NameText cs) (hrest : Closed rest)
    (hstart : startsWord (word ++ behind) (cs ++ rest) = true) :
    ∃ raw more, cs = raw ++ more ∧ NameText more ∧ sameWord word raw = true ∧
      startsWord behind (more ++ rest) = true := by
  induction word generalizing cs with
  | nil => exact ⟨[], cs, rfl, h, rfl, hstart⟩
  | cons a word ih =>
      simp only [List.mem_cons, not_or] at hback hparen
      cases cs with
      | nil =>
          rcases hrest with rfl | rfl
          · cases hstart
          · -- The name ends inside the word, and what closes it is not in the word.
            simp only [List.cons_append, List.nil_append, startsWord, Bool.and_eq_true] at hstart
            exact absurd (eq_of_sameLetter hstart.1 (by decide) (by decide)).symm hparen.1
      | cons c cs =>
          simp only [List.cons_append, startsWord, Bool.and_eq_true] at hstart
          have hc : c ≠ '\\' := by
            rintro rfl
            exact hback.1 (eq_of_sameLetter hstart.1 (by decide) (by decide)).symm
          obtain ⟨raw, more, rfl, hmore, hsame, hbehind⟩ :=
            ih hback.2 hparen.2 (h.of_cons hc).2 hstart.2
          exact ⟨c :: raw, more, rfl, hmore, by simp [sameWord, hstart.1, hsame], hbehind⟩

end Text

namespace Lexeme

section

variable {c : Char} {cs rest : List Char}

theorem wordAhead_of_sameWord {first : Char} {word : List Char}
    (h : sameWord (first :: word) (c :: cs) = true) : wordAhead first word c cs = true := by
  have hlength : cs.length = word.length := by simpa using length_of_sameWord h
  simp only [sameWord, Bool.and_eq_true] at h
  have hdrop : cs.drop word.length = [] := by rw [← hlength, List.drop_length]
  simp [wordAhead, sameLetter_comm c, h.1, startsWord_of_sameWord h.2, hdrop]

/-- **A word of media queries is ahead if the name is that word and nothing follows it.** -/
theorem wordAhead_iff {first : Char} {word : List Char} (hback : '\\' ∉ first :: word)
    (hparen : '(' ∉ first :: word) (h : NameText (c :: cs)) (hrest : Closed rest) :
    wordAhead first word c (cs ++ rest) = true ↔
      rest = [] ∧ sameWord (first :: word) (c :: cs) = true := by
  constructor
  · intro hword
    simp only [wordAhead, Bool.and_eq_true] at hword
    obtain ⟨⟨hletter, hstart⟩, hend⟩ := hword
    rw [sameLetter_comm] at hletter
    have hstart' : startsWord (first :: word ++ []) (c :: cs ++ rest) = true := by
      simp [startsWord, hletter, hstart]
    obtain ⟨raw, more, hsplit, hmore, hsame, -⟩ :=
      h.split_of_startsWord hback hparen hrest hstart'
    obtain ⟨tail, rfl⟩ : ∃ tail, raw = c :: tail := by
      cases raw with
      | nil => cases hsame
      | cons d tail => exact ⟨tail, by rw [(List.cons.inj hsplit).1]⟩
    obtain rfl : cs = tail ++ more := (List.cons.inj hsplit).2
    have hlength : tail.length = word.length := by simpa using length_of_sameWord hsame
    rw [List.append_assoc, List.drop_left' hlength] at hend
    -- A word ends at a blank or with the text, and neither a name nor what closes it is blank.
    have hnone : more ++ rest = [] := by
      cases hbehind : more ++ rest with
      | nil => rfl
      | cons d behind =>
          have hblank := hmore.head?_not_blank hrest d (by simp [hbehind])
          simp [hbehind, hblank] at hend
    obtain ⟨rfl, rfl⟩ := List.append_eq_nil_iff.1 hnone
    exact ⟨rfl, by simpa using hsame⟩
  · rintro ⟨rfl, hsame⟩
    rw [List.append_nil]
    exact wordAhead_of_sameWord hsame

/-- **An address is opened if the name is `url` and its parenthesis follows.** -/
theorem eq_of_addressAhead (h : NameText (c :: cs)) (hrest : Closed rest)
    (hletter : sameLetter c 'u' = true) (hstart : startsWord ['r', 'l', '('] (cs ++ rest) = true) :
    rest = ['('] ∧ sameWord ['u', 'r', 'l'] (c :: cs) = true := by
  have hstart' : startsWord (['u', 'r', 'l'] ++ ['(']) (c :: cs ++ rest) = true := by
    simpa [startsWord, sameLetter_comm 'u', hletter] using hstart
  obtain ⟨raw, more, hsplit, hmore, hsame, hparen⟩ :=
    h.split_of_startsWord (by decide) (by decide) hrest hstart'
  obtain ⟨d, behind, hbehind, hd⟩ : ∃ d behind, more ++ rest = d :: behind ∧ d = '(' := by
    cases hbehind : more ++ rest with
    | nil =>
        rw [hbehind] at hparen
        cases hparen
    | cons d behind =>
        rw [hbehind] at hparen
        simp only [startsWord, Bool.and_true] at hparen
        rw [sameLetter_comm] at hparen
        exact ⟨d, behind, rfl, eq_of_sameLetter hparen (by decide) (by decide)⟩
  -- A parenthesis is no character of the name, so it stands behind it.
  rcases hmore.head?_cases hrest d (by simp [hbehind]) with hname | hback | ⟨rfl, -⟩
  · rw [hd] at hname
    cases hname
  · rw [hd] at hback
    cases hback
  · refine ⟨?_, ?_⟩
    · rcases hrest with rfl | rfl
      · cases hbehind
      · rfl
    · rw [hsplit, List.append_nil]
      exact hsame

theorem rangeAhead_of_name (h : NameText cs) (hrest : Closed rest) :
    rangeAhead (cs ++ rest) = false := by
  unfold rangeAhead
  split
  · next d behind hbehind =>
      rcases h.head?_cases hrest '+' (by simp [hbehind]) with hname | hback | ⟨-, hparen⟩
      · cases hname
      · cases hback
      · cases hparen
  · rfl

theorem closesComment_of_name (h : NameText cs) (hrest : Closed rest) :
    startsWord ['-', '>'] (cs ++ rest) = false := by
  rw [← Bool.not_eq_true]
  intro hstart
  have hstart' : startsWord (['-'] ++ ['>']) (cs ++ rest) = true := hstart
  obtain ⟨raw, more, -, hmore, -, hclose⟩ :=
    h.split_of_startsWord (by decide) (by decide) hrest hstart'
  cases hbehind : more ++ rest with
  | nil =>
      rw [hbehind] at hclose
      cases hclose
  | cons d behind =>
      rw [hbehind] at hclose
      simp only [startsWord, Bool.and_true] at hclose
      rw [sameLetter_comm] at hclose
      obtain rfl := eq_of_sameLetter hclose (by decide) (by decide)
      rcases hmore.head?_cases hrest '>' (by simp [hbehind]) with hname | hback | ⟨-, hparen⟩
      · cases hname
      · cases hback
      · cases hparen

/-- **Any other name is an identifier again.** -/
theorem readBody_ident (h : NameText (c :: cs)) (hrest : Closed rest)
    (hahead : identAhead c (cs ++ rest) = true)
    (honly : rest = [] → sameWord ['o', 'n', 'l', 'y'] (c :: cs) = false)
    (hnot : rest = [] → sameWord ['n', 'o', 't'] (c :: cs) = false)
    (hand : rest = [] → sameWord ['a', 'n', 'd'] (c :: cs) = false)
    (hurl : rest = ['('] → sameWord ['u', 'r', 'l'] (c :: cs) = false) :
    readBody c (cs ++ rest) = ident c (cs ++ rest) := by
  have hblank : isBlank c = false := h.head?_not_blank hrest c rfl
  -- In the order of the scanner: `-->`, the words, `url(` and `U+` are tried before a name.
  have hnoWord : ∀ first word, '\\' ∉ first :: word → '(' ∉ first :: word →
      (rest = [] → sameWord (first :: word) (c :: cs) = false) →
        wordAhead first word c (cs ++ rest) = false := by
    intro first word hback hparen hdiffer
    rw [← Bool.not_eq_true, wordAhead_iff hback hparen h hrest]
    rintro ⟨hnil, hsame⟩
    rw [hdiffer hnil] at hsame
    cases hsame
  have hclose : (c == '-' && startsWord ['-', '>'] (cs ++ rest)) = false := by
    by_cases hc : c = '-'
    · subst hc
      simp [closesComment_of_name (h.of_cons (by decide)).2 hrest]
    · simp [hc]
  have huri : (sameLetter c 'u' && startsWord ['r', 'l', '('] (cs ++ rest)) = false := by
    rw [← Bool.not_eq_true, Bool.and_eq_true]
    rintro ⟨hletter, hstart⟩
    obtain ⟨hparen, hsame⟩ := eq_of_addressAhead h hrest hletter hstart
    rw [hurl hparen] at hsame
    cases hsame
  have hrange : (sameLetter c 'u' && rangeAhead (cs ++ rest)) = false := by
    by_cases hback : c = '\\'
    · subst hback
      rfl
    · simp [rangeAhead_of_name (h.of_cons hback).2 hrest]
  simp only [readBody, hblank, hclose, huri, hrange, hahead, Bool.false_eq_true, if_false, if_true,
    hnoWord 'o' ['n', 'l', 'y'] (by decide) (by decide) honly,
    hnoWord 'n' ['o', 't'] (by decide) (by decide) hnot,
    hnoWord 'a' ['n', 'd'] (by decide) (by decide) hand]

end

end Lexeme

end EpubStyle
