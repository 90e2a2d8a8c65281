import EpubStyle.Proofs.Rescan.Addresses
import EpubStyle.Proofs.Rescan.Idents
import EpubStyle.Proofs.Rescan.Numbers

/-!
# Lexemes read from their own text

For each reader of the scanner: what it makes is read again as one lexeme, of the kind it was read
as (`Lexeme.ReadsAs`). What begins a lexeme decides which reader takes it, so each proof first says
why no reader that is tried before takes the text.
-/

set_option autoImplicit false

namespace EpubStyle

open Text

namespace Lexeme

/-- The whole text is read as one lexeme of the kind, and nothing is wrong with it. -/
def ReadsAs (kind : TokenKind) (text : List Char) : Prop :=
  ∃ c cs, text = c :: cs ∧ (read c cs).kind = kind ∧ (read c cs).piece.length = text.length ∧
    (read c cs).Faultless

section

variable {c : Char} {cs : List Char}

/-- Telling a token from a name finds no fault, but for a backslash that ends the text. -/
theorem probe_faultless_iff :
    (∀ n ∈ probe c cs, n.isFault = false) ↔ c ≠ '\\' ∨ cs ≠ [] := by
  unfold probe
  split
  · next hback =>
      rw [beq_iff_eq] at hback
      cases cs <;> simp [hback, Note.isFault]
  · next hback =>
      rw [beq_iff_eq] at hback
      refine iff_of_true ?_ (.inl hback)
      repeat' split
      all_goals simp [Note.isFault]

/-- Nothing happens then where neither the character nor the one behind it is a backslash. -/
theorem probe_eq_nil (hback : c ≠ '\\') (hat : c ≠ '@') (hcs : cs.head? ≠ some '\\') :
    probe c cs = [] := by
  simp [probe, hback, hat, hcs]

theorem readsAs_iff {kind : TokenKind} : ReadsAs kind (c :: cs) ↔
    (readBody c cs).kind = kind ∧ (readBody c cs).piece.length = (c :: cs).length ∧
      (readBody c cs).Faultless ∧ (c ≠ '\\' ∨ cs ≠ []) := by
  have hsplit : (read c cs).Faultless ↔ (readBody c cs).Faultless ∧ (c ≠ '\\' ∨ cs ≠ []) := by
    rw [← probe_faultless_iff, and_comm]
    exact List.forall_mem_append
  constructor
  · rintro ⟨d, ds, heq, hkind, hlength, hfaultless⟩
    obtain ⟨rfl, rfl⟩ := List.cons.inj heq
    exact ⟨hkind, hlength, hsplit.1 hfaultless⟩
  · rintro ⟨hkind, hlength, hfaultless⟩
    exact ⟨c, cs, rfl, hkind, hlength, hsplit.2 hfaultless⟩

/-- A lexeme that covers its text is read from it if the escapes in it denote characters. -/
theorem readsAs_iff_of_covers {l : Lexeme} {kind : TokenKind} (hread : readBody c cs = l)
    (h : l.piece.Covers (c :: cs) []) (hback : c ≠ '\\' ∨ cs ≠ []) :
    ReadsAs kind (c :: cs) ↔ l.kind = kind ∧ EscapesMeant (c :: cs) := by
  have hfaultless : l.Faultless ↔ EscapesMeant (c :: cs) := by
    rw [← List.append_nil (c :: cs), ← h.faultless]
    exact Iff.rfl
  rw [readsAs_iff, hread, hfaultless]
  exact and_congr_right fun _ => ⟨fun hall => hall.2.1, fun hmeant => ⟨h.length, hmeant, hback⟩⟩

/-- A lexeme that is read as its text is. -/
theorem ReadsAs.of_fixed {kind : TokenKind} (hread : readBody c cs = fixed kind (c :: cs))
    (hback : c ≠ '\\' ∨ cs ≠ []) : ReadsAs kind (c :: cs) := by
  rw [readsAs_iff, hread]
  exact ⟨rfl, rfl, Piece.faultless_of_notes rfl, hback⟩

/-! ## Words -/

/-- What begins with a letter of some word is told from blanks, from hyphens and from the words
that begin with another letter. -/
structure BeginsLike (a : Char) (c : Char) : Prop where
  blank : isBlank c = false
  hyphen : (c == '-') = false
  other : ∀ b word cs, sameLetter a b = false → wordAhead b word c cs = false

theorem beginsLike_of_sameLetter {a : Char} (h : sameLetter a c = true)
    (ha : isWeightless a = false) (hhyphen : a ≠ '-') : BeginsLike a c := by
  have hletter : c.toLower = a.toLower := by
    rw [sameLetter, beq_iff_eq] at h
    exact h.symm
  refine ⟨?_, ?_, fun b word cs hb => ?_⟩
  · apply isBlank_of_isWeightless
    rw [← isWeightless_toLower, hletter, isWeightless_toLower, ha]
  · rw [beq_eq_false_iff_ne]
    rintro rfl
    exact hhyphen (eq_of_sameLetter h (by decide) (by decide))
  · have hother : sameLetter c b = false := by
      rw [sameLetter, hletter]
      exact hb
    simp [wordAhead, hother]

/-- What is a word of media queries up to case is read as that word, if the reader of the word is
the one that takes it. -/
theorem readsAs_word {first : Char} {word : List Char} {kind : TokenKind}
    (h : sameWord (first :: word) (c :: cs) = true) (hfirst : isWeightless first = false)
    (hhyphen : first ≠ '-') (hback : sameLetter first '\\' = false)
    (hread : BeginsLike first c → wordAhead first word c cs = true →
      readBody c cs = fixed kind (c :: cs.take word.length)) : ReadsAs kind (c :: cs) := by
  have hword := wordAhead_of_sameWord h
  have hlength : cs.length = word.length := by simpa using length_of_sameWord h
  simp only [sameWord, Bool.and_eq_true] at h
  have hbegin := beginsLike_of_sameLetter h.1 hfirst hhyphen
  have hwhole := hread hbegin hword
  rw [← hlength, List.take_length] at hwhole
  refine .of_fixed hwhole (.inl ?_)
  rintro rfl
  rw [hback] at h
  cases h.1

theorem readsAs_only (h : sameWord ['o', 'n', 'l', 'y'] (c :: cs) = true) :
    ReadsAs .only (c :: cs) := by
  refine readsAs_word h (by decide) (by decide) (by decide) fun hbegin hword => ?_
  simp only [readBody, hbegin.blank, hbegin.hyphen, hword, Bool.false_and, Bool.false_eq_true,
    if_false, if_true, List.length_cons, List.length_nil]

theorem readsAs_not (h : sameWord ['n', 'o', 't'] (c :: cs) = true) : ReadsAs .not (c :: cs) := by
  refine readsAs_word h (by decide) (by decide) (by decide) fun hbegin hword => ?_
  simp only [readBody, hbegin.blank, hbegin.hyphen, hbegin.other 'o' _ _ rfl, hword,
    Bool.false_and, Bool.false_eq_true, if_false, if_true, List.length_cons, List.length_nil]

theorem readsAs_and (h : sameWord ['a', 'n', 'd'] (c :: cs) = true) : ReadsAs .and (c :: cs) := by
  refine readsAs_word h (by decide) (by decide) (by decide) fun hbegin hword => ?_
  simp only [readBody, hbegin.blank, hbegin.hyphen, hbegin.other 'o' _ _ rfl,
    hbegin.other 'n' _ _ rfl, hword, Bool.false_and, Bool.false_eq_true, if_false, if_true,
    List.length_cons, List.length_nil]

/-- A word that is ahead is what stands there up to case. -/
theorem sameWord_of_wordAhead {first : Char} {word : List Char}
    (h : wordAhead first word c cs = true) :
    sameWord (first :: word) (c :: cs.take word.length) = true := by
  have htake : ∀ word cs : List Char, startsWord word cs = true →
      sameWord word (cs.take word.length) = true := by
    intro word
    induction word with
    | nil => exact fun _ _ => rfl
    | cons a word ih =>
        intro cs hstart
        cases cs with
        | nil => cases hstart
        | cons d cs =>
            simp only [startsWord, Bool.and_eq_true] at hstart
            simp [sameWord, hstart.1, ih cs hstart.2]
  simp only [wordAhead, Bool.and_eq_true] at h
  rw [sameLetter_comm] at h
  simp [sameWord, h.1.1, htake word cs h.1.2]

/-! ## Names -/

/-- The kind that a name by itself is read as. -/
def nameKind (text : List Char) : TokenKind :=
  if sameWord ['o', 'n', 'l', 'y'] text then .only
  else if sameWord ['n', 'o', 't'] text then .not
  else if sameWord ['a', 'n', 'd'] text then .and
  else .ident

theorem ident_eq (c : Char) (cs : List Char) : ident c cs =
    match (c :: cs).drop (identName c cs).length with
    | '(' :: _ => ⟨.function, identName c cs ++ Piece.ofChar '('⟩
    | _ => ⟨.ident, identName c cs⟩ :=
  rfl

theorem ident_cases (c : Char) (cs : List Char) :
    ident c cs = ⟨.function, identName c cs ++ Piece.ofChar '('⟩ ∨
      ident c cs = ⟨.ident, identName c cs⟩ := by
  rw [ident_eq]
  split
  · exact .inl rfl
  · exact .inr rfl

/-- No name is a single backslash. -/
theorem backslash_of_name (h : NameText (c :: cs)) : c ≠ '\\' ∨ cs ≠ [] := by
  by_cases hc : c = '\\'
  · subst hc
    obtain ⟨w, rest, rfl, hw, -⟩ := h.of_backslash
    exact .inr (by simp [hw.ne_nil])
  · exact .inl hc

theorem escapesMeant_of_sameWord {word text : List Char} (h : sameWord word text = true)
    (hback : '\\' ∉ word.map Char.toLower) : EscapesMeant text := by
  have hlower := sameWord_iff.1 h
  exact escapesMeant_of_not_mem (not_mem_of_map_toLower hlower.symm (by decide) hback)

/-- **A name, read again**, is an identifier or a word of media queries. -/
theorem readsAs_name_iff (h : identAhead c cs = true) :
    ReadsAs (nameKind (identName c cs).text) (identName c cs).text ↔
      EscapesMeant (identName c cs).text := by
  obtain ⟨d, ds, htext, hname, hagain⟩ := exists_identName h
  rw [htext]
  obtain ⟨hahead, hcovers⟩ := hagain [] (.inl rfl)
  rw [List.append_nil] at hahead hcovers
  unfold nameKind
  split
  next honly => exact iff_of_true (readsAs_only honly) (escapesMeant_of_sameWord honly (by decide))
  next honly =>
  split
  next hnot => exact iff_of_true (readsAs_not hnot) (escapesMeant_of_sameWord hnot (by decide))
  next hnot =>
  split
  next hand => exact iff_of_true (readsAs_and hand) (escapesMeant_of_sameWord hand (by decide))
  next hand =>
  have hread := readBody_ident hname (.inl rfl) (by rwa [List.append_nil])
    (fun _ => by simpa using honly) (fun _ => by simpa using hnot) (fun _ => by simpa using hand)
    (fun hparen => by cases hparen)
  rw [List.append_nil, ident_eq, hcovers.length, List.drop_length] at hread
  rw [readsAs_iff_of_covers hread hcovers (backslash_of_name hname)]
  exact and_iff_right rfl

/-- What reads `url` and its parenthesis opens an address. -/
theorem readBody_url (h : startsWord ['u', 'r', 'l', '('] (c :: cs) = true) :
    readBody c cs = uri cs := by
  rw [startsWord, Bool.and_eq_true] at h
  have hbegin := beginsLike_of_sameLetter h.1 (by decide) (by decide)
  have hstart := h.2
  have hletter : sameLetter c 'u' = true := by
    rw [sameLetter_comm]
    exact h.1
  simp only [readBody, hbegin.blank, hbegin.hyphen, hbegin.other 'o' _ _ rfl,
    hbegin.other 'n' _ _ rfl, hbegin.other 'a' _ _ rfl, hletter, hstart, Bool.false_and,
    Bool.and_true, Bool.false_eq_true, if_false, if_true]

/-- **The name of a function with its parenthesis, read again**, unless it reads `url`. -/
theorem readsAs_function_iff (h : identAhead c cs = true) :
    ReadsAs .function ((identName c cs).text ++ ['(']) ↔
      sameWord ['u', 'r', 'l', '('] ((identName c cs).text ++ ['(']) = false ∧
        EscapesMeant ((identName c cs).text ++ ['(']) := by
  obtain ⟨d, ds, htext, hname, hagain⟩ := exists_identName h
  rw [htext, List.cons_append]
  cases hurl : sameWord ['u', 'r', 'l', '('] (d :: (ds ++ ['('])) with
  | true =>
      -- What is read is an address, whatever its escapes denote.
      rw [readsAs_iff, readBody_url (startsWord_of_sameWord hurl)]
      exact iff_of_false (fun hall => nomatch hall.1) (fun hall => nomatch hall.1)
  | false =>
      obtain ⟨hahead, hcovers⟩ := hagain ['('] (.inr rfl)
      have hname' : sameWord ['u', 'r', 'l'] (d :: ds) = false := by
        rw [← Bool.not_eq_true, ← sameWord_append_iff ['(']]
        exact Bool.not_eq_true _ ▸ hurl
      have hread := readBody_ident hname (.inr rfl) hahead (fun hnil => by cases hnil)
        (fun hnil => by cases hnil) (fun hnil => by cases hnil) (fun _ => hname')
      have hdrop : (d :: (ds ++ ['('])).drop (identName d (ds ++ ['('])).length = ['('] := by
        rw [hcovers.length, ← List.cons_append, List.drop_left]
      have hfunction : readBody d (ds ++ ['(']) =
          ⟨.function, identName d (ds ++ ['(']) ++ Piece.ofChar '('⟩ := by
        rw [hread, ident_eq, hdrop]
        rfl
      have hlength : (identName d (ds ++ ['(']) ++ Piece.ofChar '(').length =
          (d :: (ds ++ ['('])).length := by
        rw [Piece.length_append, hcovers.length]
        simp [Piece.ofChar]
      have hfaultless : (identName d (ds ++ ['(']) ++ Piece.ofChar '(').Faultless ↔
          EscapesMeant (d :: (ds ++ ['('])) := by
        rw [Piece.faultless_append, ← List.cons_append, ← hcovers.faultless]
        exact and_iff_left (Piece.faultless_of_notes rfl)
      rw [readsAs_iff, hfunction, ← hfaultless]
      exact ⟨fun hall => ⟨rfl, hall.2.2.1⟩,
        fun hall => ⟨rfl, hlength, hall.2, .inr (by simp)⟩⟩

/-! ## Names behind a sign -/

theorem readBody_at {r : List Char} (h : atKeywordAhead r = true) :
    readBody '@' r = atKeyword r := by
  have hread : readBody '@' r =
      if atKeywordAhead r then atKeyword r
      else if numberAhead '@' r then number '@' r else readSymbol '@' r := rfl
  rw [hread, if_pos h]

/-- **A name behind an at sign, read again.** -/
theorem readsAs_atKeyword_iff (h : atKeywordAhead cs = true) :
    ReadsAs .atKeyword (atKeyword cs).piece.text ↔ EscapesMeant (atKeyword cs).piece.text := by
  unfold atKeyword
  split
  · next cs =>
      have hahead : nameStartAhead cs = true ∨ escapeAhead cs = true := by
        simpa [atKeywordAhead, nameStartAhead, isNameStart, escapeAhead] using h
      have hstarts : Starts (Piece.name cs).text := .ofFirst hahead _
      have hname := NameText.ofName cs
      have hagain : atKeywordAhead ('-' :: (Piece.name cs).text) = true := by
        rcases hstarts.ahead_self hname with hahead | hahead <;> simp [atKeywordAhead, hahead]
      have hcovers := (hname.covers_name_self hstarts.ne_nil).append
        (show '\\' ∉ ['@', '-'] by decide)
      exact (readsAs_iff_of_covers (readBody_at hagain) hcovers (.inl (by decide))).trans
        (and_iff_right rfl)
  · next hhyphen =>
      have hahead : nameStartAhead cs = true ∨ escapeAhead cs = true := by
        have hne : cs.head? ≠ some '-' := by
          cases cs with
          | nil => simp
          | cons d cs =>
              rintro heq
              obtain rfl := Option.some.inj heq
              exact hhyphen cs rfl
        simpa [atKeywordAhead, hne] using h
      have hstarts : Starts (Piece.name cs).text := .ofFirst hahead _
      have hname := NameText.ofName cs
      have hagain : atKeywordAhead (Piece.name cs).text = true := by
        rcases hstarts.ahead_self hname with hahead | hahead <;> simp [atKeywordAhead, hahead]
      have hread : readBody '@' (Piece.name cs).text =
          ⟨.atKeyword, Piece.ofChar '@' ++ Piece.name (Piece.name cs).text⟩ := by
        rw [readBody_at hagain]
        -- The name begins with no hyphen, so the keyword is not cut behind one.
        obtain ⟨d, ds, htext, hd⟩ := hstarts
        rw [htext]
        unfold atKeyword
        split
        · next heq =>
            obtain rfl := (List.cons.inj heq).1
            rcases hd with hd | hd <;> cases hd
        · rfl
      have hcovers := (hname.covers_name_self hstarts.ne_nil).cons (show '@' ≠ '\\' by decide)
      exact (readsAs_iff_of_covers hread hcovers (.inl (by decide))).trans (and_iff_right rfl)

/-- What stands behind a hash sign or a point is a name character or an escape. -/
theorem nameAhead_cases (h : nameAhead cs = true) :
    (∃ d ds, cs = d :: ds ∧ isNameChar d = true ∧ d ≠ '\\') ∨
      ∃ ds e, cs = '\\' :: ds ∧ Escape.read ds = .escape e := by
  cases cs with
  | nil => cases h
  | cons d ds =>
      by_cases hback : d = '\\'
      · subst hback
        cases hread : Escape.read ds with
        | escape e => exact .inr ⟨ds, e, rfl, hread⟩
        | endOfInput | lineBreak =>
            simp [nameAhead, escapeAhead, hread, isNameChar, isNameStart] at h
      · rw [nameAhead, escapeAhead_of_ne ds hback] at h
        exact .inl ⟨d, ds, rfl, by simpa using h, hback⟩

theorem nameAhead_of_name {r : List Char} (h : NameText r) (hne : r ≠ []) : nameAhead r = true := by
  cases h with
  | nil => exact absurd rfl hne
  | char c r hc h => simp [nameAhead, hc]
  | escape w r hw h =>
      have hescape := (NameText.escape w r hw h).escapeAhead (.inl rfl)
      rw [List.append_nil] at hescape
      simp [nameAhead, hescape]

/-- What is ahead of a run goes into it. -/
theorem text_run_ne_nil (h : nameAhead cs = true) : (Piece.run isNameChar cs).text ≠ [] := by
  rcases nameAhead_cases h with ⟨d, ds, rfl, hd, hback⟩ | ⟨ds, e, rfl, hread⟩
  · simp [Piece.run_cons ds hback hd, Piece.text_append, Piece.ofChar]
  · obtain ⟨d, rest, htext, -⟩ := solid_render e nameClass_isNameChar
    simp [Piece.run_escape _ hread, Piece.text_append, Piece.ofEscape, Escape.renderOnto, htext]

/-- **A name behind a hash sign, read again.** -/
theorem readsAs_hashName_iff (h : nameAhead cs = true) :
    ReadsAs .hashName (hashName cs).piece.text ↔ EscapesMeant (hashName cs).piece.text := by
  have hname := NameText.ofRun cs
  have hne := text_run_ne_nil h
  have hread : readBody '#' (Piece.run isNameChar cs).text =
      hashName (Piece.run isNameChar cs).text := by
    have hsign : readBody '#' (Piece.run isNameChar cs).text =
        readSymbol '#' (Piece.run isNameChar cs).text := rfl
    rw [hsign, readSymbol, nameAhead_of_name hname hne]
    rfl
  have hcovers := hname.covers_run_self.cons (show '#' ≠ '\\' by decide)
  exact (readsAs_iff_of_covers hread hcovers (.inl (by decide))).trans (and_iff_right rfl)

/-- **A name behind a point, read again.** -/
theorem readsAs_className_iff (h : nameAhead cs = true) (hdigit : digitAhead cs = false) :
    ReadsAs .className (className cs).piece.text ↔ EscapesMeant (className cs).piece.text := by
  have hname := NameText.ofName cs
  -- No digit stands behind the point, which would make it the point of a number.
  obtain ⟨d, ds, htext, hd⟩ : ∃ d ds, (Piece.name cs).text = d :: ds ∧ d.isDigit = false := by
    rcases nameAhead_cases h with ⟨d, ds, rfl, hd, hback⟩ | ⟨ds, e, rfl, hread⟩
    · refine ⟨d, (Piece.run isNameChar ds).text, ?_, by simpa [digitAhead] using hdigit⟩
      rw [Piece.name_cons ds hback hd, Piece.run_cons ds hback hd]
      rfl
    · rw [Piece.name_escape hread]
      obtain ⟨d, rest, htext, hd⟩ :=
        Starts.render e (Piece.run isNameChar (ds.drop e.length)).text
      have hnumeral := isNumeral_of_isNameStart hd
      simp only [isNumeral, Bool.or_eq_false_iff] at hnumeral
      exact ⟨d, rest, htext, hnumeral.1.1⟩
  have hne : (Piece.name cs).text ≠ [] := by simp [htext]
  have hdigit' : digitAhead (Piece.name cs).text = false := by simp [digitAhead, htext, hd]
  have hread : readBody '.' (Piece.name cs).text = className (Piece.name cs).text := by
    have hsign : readBody '.' (Piece.name cs).text =
        if numberAhead '.' (Piece.name cs).text then number '.' (Piece.name cs).text
        else readSymbol '.' (Piece.name cs).text := rfl
    have hnumber : numberAhead '.' (Piece.name cs).text = false := by
      simp [numberAhead, isSign, hdigit']
    rw [hsign, hnumber, readSymbol, nameAhead_of_name hname hne]
    rfl
  have hcovers := (hname.covers_name_self hne).cons (show '.' ≠ '\\' by decide)
  exact (readsAs_iff_of_covers hread hcovers (.inl (by decide))).trans (and_iff_right rfl)

/-! ## Numbers -/

/-- What begins a numeral is no letter. -/
theorem sameLetter_of_isNumeral {b : Char} (h : isNumeral c = true)
    (hb : isNumeral b.toLower = false) : sameLetter c b = false := by
  have hlower : c.toLower = c := by
    have hcode : c.val.toNat < 65 := by
      simp only [isNumeral, isSign, Char.isDigit, Bool.or_eq_true, Bool.and_eq_true,
        decide_eq_true_eq, beq_iff_eq] at h
      rcases h with (h | rfl) | rfl | rfl
      · have hhigh : c.val.toNat ≤ 57 := h.2
        omega
      all_goals decide
    unfold Char.toLower
    split
    · next hupper =>
        have hlow : 65 ≤ c.val.toNat := hupper.1
        omega
    · rfl
  rw [sameLetter, hlower, beq_eq_false_iff_ne]
  rintro rfl
  rw [hb] at h
  cases h

/-- Behind the hyphen of a number comes a digit or a point. -/
theorem numeral_of_hyphen (h : numberAhead '-' cs = true) :
    ∃ d ds, cs = d :: ds ∧ isNumeral d = true ∧ d ≠ '-' := by
  have hahead : digitAhead cs = true ∨ fractionAhead cs = true := by
    simpa [numberAhead, isSign] using h
  cases cs with
  | nil => rcases hahead with hahead | hahead <;> cases hahead
  | cons d ds =>
      refine ⟨d, ds, rfl, ?_⟩
      rcases hahead with hdigit | hfraction
      · have hd : d.isDigit = true := by simpa [digitAhead] using hdigit
        refine ⟨by simp [isNumeral, hd], ?_⟩
        rintro rfl
        cases hd
      · unfold fractionAhead at hfraction
        split at hfraction
        · next heq =>
            obtain rfl := (List.cons.inj heq).1
            exact ⟨by decide, by decide⟩
        · cases hfraction

/-- **A number begins like nothing else.** -/
theorem readBody_number (h : numberAhead c cs = true) : readBody c cs = number c cs := by
  have hnumeral := isNumeral_of_numberAhead h
  have hplain : ∀ d, isNumeral d = true → isNameStart d = false ∧ d ≠ '\\' := by
    intro d hd
    constructor
    · rw [← Bool.not_eq_true]
      intro hstart
      rw [isNumeral_of_isNameStart (.inl hstart)] at hd
      cases hd
    · rintro rfl
      cases hd
  have hblank : isBlank c = false := isBlank_of_isWeightless (solid_of_numberAhead h).1
  have hword : ∀ b word, isNumeral b.toLower = false → wordAhead b word c cs = false := by
    intro b word hb
    simp [wordAhead, sameLetter_of_isNumeral hnumeral hb]
  have hletter : sameLetter c 'u' = false := sameLetter_of_isNumeral hnumeral rfl
  -- A hyphen is the one character that may begin a number, a name and `-->`.
  have hhyphen : c = '-' → startsWord ['-', '>'] cs = false ∧ nameStartAhead cs = false ∧
      escapeAhead cs = false := by
    rintro rfl
    obtain ⟨d, ds, rfl, hd, hne⟩ := numeral_of_hyphen h
    obtain ⟨hstart, hback⟩ := hplain d hd
    refine ⟨?_, by simpa [nameStartAhead] using hstart, escapeAhead_of_ne ds hback⟩
    rw [← Bool.not_eq_true]
    intro hclose
    simp only [startsWord, Bool.and_eq_true] at hclose
    rw [sameLetter_comm] at hclose
    exact hne (eq_of_sameLetter hclose.1 (by decide) (by decide))
  have hclose : (c == '-' && startsWord ['-', '>'] cs) = false := by
    by_cases hc : c = '-'
    · simp [(hhyphen hc).1]
    · simp [hc]
  have hident : identAhead c cs = false := by
    obtain ⟨hstart, hback⟩ := hplain c hnumeral
    by_cases hc : c = '-'
    · simp [identAhead, hstart, escapeAhead_of_ne cs hback, hhyphen hc]
    · simp [identAhead, hstart, escapeAhead_of_ne cs hback, hc]
  have hat : (c == '@' && atKeywordAhead cs) = false := by
    have hne : c ≠ '@' := by
      rintro rfl
      cases hnumeral
    simp [hne]
  simp only [readBody, hblank, hclose, hword 'o' _ rfl, hword 'n' _ rfl, hword 'a' _ rfl, hletter,
    hident, hat, h, Bool.false_and, Bool.false_eq_true, if_false, if_true]

/-- **A number, read again**, unless its unit was unknown and is known now. -/
theorem readsAs_number_iff (h : numberAhead c cs = true) :
    ReadsAs (number c cs).kind (number c cs).piece.text ↔
      ((number c cs).kind = .quantity .dimension →
        EscapesMeant (number c cs).piece.text ∧
          (measure (Piece.name (unitText (number c cs).piece.text)).text).2 = .dimension) := by
  obtain ⟨r, htext, hahead, hcovers, hunknown, hknown⟩ := number_again h
  have hback : c ≠ '\\' := by
    rintro rfl
    cases isNumeral_of_numberAhead h
  rw [htext, readsAs_iff_of_covers (readBody_number hahead) hcovers (.inl hback)]
  by_cases hdimension : (number c cs).kind = .quantity .dimension
  · rw [hunknown hdimension, hdimension, and_comm]
    simp
  · obtain ⟨hkind, hplain⟩ := hknown hdimension
    exact iff_of_true ⟨hkind, escapesMeant_of_not_mem hplain⟩ fun h => absurd h hdimension

/-! ## Ranges and addresses -/

/-- **A range, read again.** -/
theorem readsAs_range (h : rangeAhead cs = true) (hfaultless : (range cs).Faultless) :
    ReadsAs .unicodeRange (range cs).piece.text := by
  unfold rangeAhead at h
  split at h
  · next d ds =>
      have hchar : isRangeChar d = true := by
        rcases Bool.or_eq_true_iff.1 h with h | h <;> simp [isRangeChar, h]
      have hagain := rangeBody_again ['+', 'U'] 0 (d :: ds)
      have hlength := length_rangeBody ['+', 'U'] 0 (d :: ds)
      have hbody : (rangeBody ['+', 'U'] 0 (d :: ds)).Faultless :=
        (Piece.faultless_append.1 hfaultless).2
      have hahead : rangeAhead ('+' :: (rangeBody ['+', 'U'] 0 (d :: ds)).text) = true := by
        simp only [rangeBody, hchar, if_true]
        exact h
      have htext : (range ('+' :: d :: ds)).piece.text =
          'U' :: '+' :: (rangeBody ['+', 'U'] 0 (d :: ds)).text := rfl
      rw [htext]
      -- Read again, the body gives itself (`hagain`), so only its text matters from here on.
      generalize (rangeBody ['+', 'U'] 0 (d :: ds)) = p at *
      have hread : readBody 'U' ('+' :: p.text) = range ('+' :: p.text) := by
        have hother : readBody 'U' ('+' :: p.text) =
            if rangeAhead ('+' :: p.text) then range ('+' :: p.text)
            else ident 'U' ('+' :: p.text) := rfl
        rw [hother, if_pos hahead]
      have hrange : range ('+' :: p.text) = ⟨.unicodeRange, Piece.ofText ['U', '+'] ++ p⟩ := by
        have hbody : range ('+' :: p.text) =
            ⟨.unicodeRange, Piece.ofText ['U', '+'] ++ rangeBody ['+', 'U'] 0 p.text⟩ := rfl
        rw [hbody, hagain]
      rw [readsAs_iff, hread, hrange]
      refine ⟨rfl, ?_, ?_, .inl (by decide)⟩
      · rw [Piece.length_append, hlength]
        exact Nat.add_comm 2 _
      · exact Piece.faultless_append.2 ⟨Piece.faultless_of_notes rfl, hbody⟩
  · cases h

/-- **An address, read again**, if its text stands by itself. -/
theorem readsAs_uri_iff (hfaultless : (uri cs).Faultless) :
    ReadsAs .uri (uri cs).piece.text ↔ AddressStands (address (cs.drop 3)).text := by
  have hread : ∀ r, readBody 'u' ('r' :: 'l' :: '(' :: r) =
      ⟨.uri, Piece.ofText ['u', 'r', 'l', '('] ++
        (address r).withText ((address r).text ++ [')'])⟩ :=
    fun _ => rfl
  have haddress : (address (cs.drop 3)).Faultless := (Piece.faultless_append.1 hfaultless).2
  have htext : (uri cs).piece.text =
      'u' :: 'r' :: 'l' :: '(' :: ((address (cs.drop 3)).text ++ [')']) := rfl
  rw [htext, readsAs_iff, hread]
  constructor
  · rintro ⟨-, hlength, hagain, -⟩
    refine addressStands_of_again haddress (Piece.faultless_append.1 hagain).2 ?_
    rw [Piece.length_append] at hlength
    simp only [Piece.ofText, Piece.withText, List.length_cons, List.length_append,
      List.length_nil] at hlength
    omega
  · intro hstands
    rw [address_again haddress hstands]
    refine ⟨rfl, ?_, Piece.faultless_of_notes rfl, .inl (by decide)⟩
    simp only [Piece.length_append, Piece.ofText, Piece.withText, List.length_cons,
      List.length_append, List.length_nil]
    omega

/-! ## Signs -/

/-- **An operator of attribute selectors, read again.** -/
theorem readsAs_operator {kind : TokenKind} (h : operator c cs = some kind) :
    ReadsAs kind [c, '='] := by
  unfold operator at h
  split at h
  · split at h
    all_goals cases h
    all_goals exact .of_fixed rfl (.inl (by decide))
  · cases h

/-- **A single character, read again**, if it is no backslash. -/
theorem readsAs_char_iff (hblank : isBlank c = false) (hname : isNameStart c = false)
    (hdigit : c.isDigit = false) (hquote : isQuote c = false) :
    ReadsAs .char [c] ↔ c ≠ '\\' := by
  constructor
  · intro h
    exact (readsAs_iff.1 h).2.2.2.resolve_right (fun hne => hne rfl)
  · intro hback
    have hescape := escapeAhead_of_ne [] hback
    -- Nothing follows, so nothing that takes more than one character is ahead.
    have hnothing : escapeAhead [] = false ∧ fractionAhead [] = false ∧
        importantAhead [] = none ∧ operator c [] = none := ⟨rfl, rfl, rfl, rfl⟩
    refine .of_fixed ?_ (.inl hback)
    simp [readBody, readSymbol, hblank, hname, hdigit, hquote, hescape, hnothing, wordAhead,
      startsWord, rangeAhead, identAhead, nameStartAhead, atKeywordAhead, numberAhead, digitAhead,
      nameAhead]

end

end Lexeme

end EpubStyle
