import EpubStyle.Proofs.Token.Numerals

/-!
# The forms of tokens

Whoever reads a token relies on the form of its text: a name behind an at sign is cut off its mark,
an address is cut out of its parentheses, a quantity is taken apart into a numeral and a unit.
`TokenKind.Form` gives the form of every kind without reference to the scanner. Behind a mark, and
before a parenthesis, there is always something.

A parenthesis may stand in an identifier behind a backslash. `endsOpen` tells such a one from a
parenthesis that opens the arguments of a function.

## What this module delivers

- `Text.NameText.not_endsOpen`: a name never ends in an open parenthesis.
- one lemma for each reader that decides by looking ahead (`form_ident`, `form_atKeyword`,
  `form_hashName`, `form_className`, `form_range`, `form_number`): what was seen ahead is read.
- `form_of_mem_scan`: every token of a text, with lexical faults or without, has the form of its
  kind.
-/

set_option autoImplicit false

namespace EpubStyle

open Text

/-! ## Forms -/

/-- The text ends in an opening parenthesis that no backslash hides. -/
def endsOpen : List Char → Bool
  | [] => false
  | ['('] => true
  | '\\' :: _ :: cs => endsOpen cs
  | _ :: cs => endsOpen cs

/-- The text is the empty one or a sign. -/
def OptionalSign (cs : List Char) : Prop := cs = [] ∨ ∃ c, isSign c = true ∧ cs = [c]

/-- The texts that tokens of a kind may have. -/
inductive TokenKind.Form : TokenKind → List Char → Prop
  | space : Form .space [' ']
  | comment (text : List Char) : Form .comment text
  | string (text : List Char) : Form .string text
  | commentOpen : Form .commentOpen ['<', '!', '-', '-']
  | commentClose : Form .commentClose ['-', '-', '>']
  | ident (name : List Char) (hname : NameText name) (hne : name ≠ [])
      (hend : endsOpen name = false) : Form .ident name
  | function (name : List Char) (hname : NameText name) (hne : name ≠ []) :
      Form .function (name ++ ['('])
  | atKeyword (name : List Char) (hname : NameText name) (hne : name ≠ []) :
      Form .atKeyword ('@' :: name)
  | hashName (name : List Char) (hname : NameText name) (hne : name ≠ []) :
      Form .hashName ('#' :: name)
  | className (name : List Char) (hname : NameText name) (hne : name ≠ []) :
      Form .className ('.' :: name)
  | uri (body : List Char) : Form .uri (['u', 'r', 'l', '('] ++ body ++ [')'])
  | unicodeRange (range : List Char) (hrange : ∀ c ∈ range, isRangeChar c = true)
      (hne : range ≠ []) : Form .unicodeRange ('U' :: '+' :: range)
  | includes : Form .includes ['~', '=']
  | dashMatch : Form .dashMatch ['|', '=']
  | frontMatch : Form .frontMatch ['^', '=']
  | backMatch : Form .backMatch ['$', '=']
  | substringMatch : Form .substringMatch ['*', '=']
  | integer (sign ds : List Char) (hsign : OptionalSign sign) (hds : Digits ds) :
      Form (.quantity .integer) (sign ++ ds)
  | number (sign ds fs : List Char) (hsign : OptionalSign sign)
      (hds : ∀ d ∈ ds, d.isDigit = true) (hfs : Digits fs) :
      Form (.quantity .number) (sign ++ ds ++ '.' :: fs)
  /-- A known unit stands in its canonical spelling. -/
  | measured (n u : List Char) (m : Measure) (hn : Numeral n) (hne : u ≠ [])
      (hunit : (String.ofList u, m) ∈ Measure.suffixes) : Form (.quantity m) (n ++ u)
  | dimension (n u : List Char) (hn : Numeral n) (hname : NameText u) (hne : u ≠ [])
      (hunknown : ∀ entry ∈ Measure.suffixes, sameWord entry.1.toList u = false) :
      Form (.quantity .dimension) (n ++ u)
  | only (word : List Char) (h : sameWord ['o', 'n', 'l', 'y'] word = true) : Form .only word
  | not (word : List Char) (h : sameWord ['n', 'o', 't'] word = true) : Form .not word
  | and (word : List Char) (h : sameWord ['a', 'n', 'd'] word = true) : Form .and word
  | important (word : List Char)
      (h : sameWord ['!', 'i', 'm', 'p', 'o', 'r', 't', 'a', 'n', 't'] word = true) :
      Form .important word
  | char (c : Char) (hblank : isBlank c = false) (hname : isNameStart c = false)
      (hdigit : c.isDigit = false) (hquote : isQuote c = false) : Form .char [c]

/-! ## Names -/

/-- A character before others decides nothing, unless it is a backslash. -/
theorem endsOpen_cons {c : Char} {cs : List Char} (hback : c ≠ '\\') (hparen : c ≠ '(') :
    endsOpen (c :: cs) = endsOpen cs := by
  rw [endsOpen.eq_def]
  split <;> simp_all

theorem endsOpen_append {front : List Char} (cs : List Char)
    (h : ∀ c ∈ front, c ≠ '\\' ∧ c ≠ '(') : endsOpen (front ++ cs) = endsOpen cs := by
  induction front with
  | nil => rfl
  | cons c front ih =>
      obtain ⟨⟨hback, hparen⟩, hfront⟩ := List.forall_mem_cons.1 h
      rw [List.cons_append, endsOpen_cons hback hparen, ih hfront]

theorem Text.Escape.ClosingBlank.isBlank_of_mem {blank : List Char} (h : Escape.ClosingBlank blank)
    {c : Char} (hc : c ∈ blank) : isBlank c = true := by
  cases h with
  | pair =>
      simp only [List.mem_cons, List.not_mem_nil, or_false] at hc
      rcases hc with rfl | rfl <;> rfl
  | single b hb => rwa [List.mem_singleton.1 hc]

/-- An escape hides nothing that stands behind it. -/
theorem endsOpen_escape {w : List Char} (cs : List Char) (h : Escape.Written w) :
    endsOpen ('\\' :: (w ++ cs)) = endsOpen cs := by
  cases h with
  | single c hbreak hhex => rfl
  | digits ds blank hne hlength hhex hblank =>
      obtain ⟨d, ds, rfl⟩ := List.exists_cons_of_ne_nil hne
      have hplain : ∀ c ∈ ds ++ blank, c ≠ '\\' ∧ c ≠ '(' := by
        intro c hc
        rcases List.mem_append.1 hc with hc | hc
        · have hdigit := hhex c (List.mem_cons_of_mem d hc)
          constructor <;> rintro rfl <;> cases hdigit
        · have hblank : isBlank c = true := by
            rcases hblank with rfl | hclosing
            · cases hc
            · exact hclosing.isBlank_of_mem hc
          constructor <;> rintro rfl <;> cases hblank
      change endsOpen (ds ++ blank ++ cs) = endsOpen cs
      exact endsOpen_append cs hplain

namespace Text.NameText

/-- **A name never ends in an open parenthesis.** -/
theorem not_endsOpen {name : List Char} (h : NameText name) : endsOpen name = false := by
  induction h with
  | nil => rfl
  | char c cs hc h ih =>
      rw [endsOpen_cons ?_ ?_, ih]
      all_goals
        rintro rfl
        cases hc
  | escape w cs hw h ih => rw [endsOpen_escape cs hw, ih]

example : endsOpen ['a', '('] = true ∧ endsOpen ['a', '\\', '('] = false := by decide

end Text.NameText

namespace Lexeme

/-! ## What is seen ahead is read -/

theorem form_ident {c : Char} {cs : List Char} (h : identAhead c cs = true) :
    (ident c cs).kind.Form (ident c cs).piece.text := by
  obtain ⟨d, ds, htext, hname, -⟩ := exists_identName h
  rcases ident_cases c cs with hident | hident
  · rw [hident, Piece.text_append, htext]
    exact .function _ hname (by simp)
  · rw [hident]
    simp only [htext]
    exact .ident _ hname (by simp) hname.not_endsOpen

/-- What may start a name starts one. -/
theorem text_name_ne_nil {cs : List Char} (h : nameStartAhead cs = true ∨ escapeAhead cs = true) :
    (Piece.name cs).text ≠ [] :=
  (Starts.ofFirst h _).ne_nil

theorem form_atKeyword {cs : List Char} (h : atKeywordAhead cs = true) :
    (atKeyword cs).kind.Form (atKeyword cs).piece.text := by
  unfold atKeyword
  split
  · next cs =>
      exact .atKeyword ('-' :: (Piece.name cs).text) (.char '-' _ rfl (.ofName cs)) (by simp)
  · next hhyphen =>
      have hahead : nameStartAhead cs = true ∨ escapeAhead cs = true := by
        have hhead : cs.head? ≠ some '-' := by
          intro hhead
          obtain ⟨rest, rfl⟩ := List.head?_eq_some_iff.1 hhead
          exact hhyphen rest rfl
        simpa [atKeywordAhead, hhead] using h
      exact .atKeyword (Piece.name cs).text (.ofName cs) (text_name_ne_nil hahead)

theorem form_hashName {cs : List Char} (h : nameAhead cs = true) :
    (hashName cs).kind.Form (hashName cs).piece.text :=
  .hashName (Piece.run isNameChar cs).text (.ofRun cs) (text_run_ne_nil h)

theorem form_className {cs : List Char} (h : nameAhead cs = true) :
    (className cs).kind.Form (className cs).piece.text := by
  have hne : (Piece.name cs).text ≠ [] := by
    rcases nameAhead_cases h with ⟨d, ds, rfl, hd, hback⟩ | ⟨ds, e, rfl, hread⟩
    · rw [Piece.name_cons ds hback hd]
      exact text_run_ne_nil h
    · exact text_name_ne_nil (.inr (by simp [escapeAhead, hread]))
  exact .className (Piece.name cs).text (.ofName cs) hne

theorem isRangeChar_rangeBody (seen : List Char) (count : Nat) (cs : List Char) :
    ∀ c ∈ (rangeBody seen count cs).text, isRangeChar c = true := by
  induction cs generalizing seen count with
  | nil => simp [rangeBody]
  | cons c cs ih =>
      simp only [rangeBody]
      split
      · next hc =>
          rw [Piece.text_append]
          exact List.forall_mem_cons.2 ⟨hc, ih _ _⟩
      · simp

theorem form_range {cs : List Char} (h : rangeAhead cs = true) :
    (range cs).kind.Form (range cs).piece.text := by
  unfold rangeAhead at h
  split at h
  · next c cs =>
      have hc : isRangeChar c = true := by simp [isRangeChar, h]
      refine .unicodeRange _ (isRangeChar_rangeBody _ _ _) ?_
      simp [rangeBody, hc, Piece.text_append]
  · cases h

/-! ## Quantities -/

/-- A numeral without a point is an integer, and one with a point is a number. -/
theorem form_unsigned {sign n : List Char} (hsign : OptionalSign sign) (h : Unsigned n) :
    (TokenKind.quantity (if '.' ∈ n then .number else .integer)).Form (sign ++ n) := by
  cases h with
  | whole n h =>
      have hpoint : '.' ∉ n := fun hmem => absurd (h.2 _ hmem) (by decide)
      rw [if_neg hpoint]
      exact .integer sign n hsign h
  | decimal ds fs h h' =>
      rw [if_pos (by simp), ← List.append_assoc]
      exact .number sign ds fs hsign h.2 h'
  | fraction fs h =>
      rw [if_pos (by simp)]
      simpa using TokenKind.Form.number sign [] fs hsign (by simp) h

theorem form_numeral {n : List Char} (h : Numeral n) :
    (TokenKind.quantity (if '.' ∈ n then .number else .integer)).Form n := by
  cases h with
  | unsigned n h => exact form_unsigned (.inl rfl) h
  | signed c n hc h =>
      have hne : '.' ≠ c := by
        rintro rfl
        cases hc
      have hform := form_unsigned (.inr ⟨c, hc, rfl⟩) h
      simpa [hne] using hform

theorem form_measure {n u : List Char} (hn : Numeral n)
    (hu : u = ['%'] ∨ NameText u ∧ Starts u) :
    (TokenKind.quantity (measure u).2).Form (n ++ (measure u).1) := by
  obtain ⟨m, s, hdenotes⟩ := exists_denotes n u
  have hne : u ≠ [] := by
    rcases hu with rfl | ⟨-, hstarts⟩
    · simp
    · exact hstarts.ne_nil
  cases hdenotes with
  | integer | number => exact absurd rfl hne
  | known _ entry hmem hsame =>
      rw [measure_of_known hmem hsame]
      exact .measured n _ _ hn (length_suffixes entry hmem).1 (by simpa using hmem)
  | unknown _ _ hunknown =>
      rw [measure_of_unknown hunknown]
      have hname : NameText u := by
        rcases hu with rfl | ⟨hname, -⟩
        · exact absurd (hunknown ("%", .percentage) (by decide)) (by decide)
        · exact hname
      exact .dimension n u hn hname hne hunknown

theorem form_number {c : Char} {cs : List Char} (h : numberAhead c cs = true) :
    (number c cs).kind.Form (number c cs).piece.text := by
  have hnumeral := numeral_digits h
  have hflag := flag_numeral c cs
  unfold number
  generalize digits (c == '.') cs = read at *
  simp only
  cases hunit : unit (cs.drop read.1.length) with
  | none =>
      simp only [hflag, decide_eq_true_eq, Piece.text_append]
      have htext : ∀ b : Bool, (if b then Piece.stepBack 1 else {}).text = [] := by
        rintro (_ | _) <;> rfl
      rw [htext, List.append_nil]
      exact form_numeral hnumeral
  | some suffix => exact form_measure hnumeral (text_unit hunit)

/-! ## All kinds -/

theorem form_operator {c : Char} {cs : List Char} {kind : TokenKind}
    (h : operator c cs = some kind) : kind.Form [c, '='] := by
  unfold operator at h
  split at h
  · split at h <;> cases h <;> constructor
  · cases h

/-- **What is read has the form of its kind.** -/
theorem form_read (c : Char) (cs : List Char) : (read c cs).kind.Form (read c cs).piece.text := by
  change (readBody c cs).kind.Form (readBody c cs).piece.text
  generalize readBody c cs = l, branch_readBody c cs = hbranch
  cases hbranch with
  | space => exact .space
  | commentClose => exact .commentClose
  | only h => exact .only _ (sameWord_of_wordAhead h)
  | not h => exact .not _ (sameWord_of_wordAhead h)
  | and h => exact .and _ (sameWord_of_wordAhead h)
  | uri => exact .uri _
  | range hc h => exact form_range h
  | ident h => exact form_ident h
  | atKeyword hc h => exact form_atKeyword h
  | number h => exact form_number h
  | commentOpen => exact .commentOpen
  | comment => exact .comment _
  | string => exact .string _
  | hashName hc h => exact form_hashName h
  | className hc h => exact form_className h
  | important n hc h =>
      exact .important ['!', 'i', 'm', 'p', 'o', 'r', 't', 'a', 'n', 't'] (by decide)
  | operator kind h => exact form_operator h
  | char hblank hname hdigit hquote => exact .char c hblank hname hdigit hquote

end Lexeme

/-- **Every token of a text has the form of its kind**, whatever is wrong with the text. -/
theorem form_of_mem_scan {text source : String} :
    ∀ s ∈ scan text source, s.token.kind.Form s.token.text.toList := by
  intro s hs
  obtain ⟨p, c, cs, rfl⟩ := exists_lexeme_of_mem_scan hs
  have htext : (Scanned.ofLexeme source p (c :: cs) (Lexeme.read c cs)).token.text.toList =
      (Lexeme.read c cs).piece.text := String.toList_ofList
  rw [htext]
  exact Lexeme.form_read c cs

/-- An address that the text breaks off still has its parentheses, and the escaped parenthesis
before it belongs to an identifier. -/
theorem form_of_mem_scan_broken :
    (∃ s ∈ scan "a\\( url(" "", s.token.kind = .ident ∧ s.token.text = "a\\(" ∧
      TokenKind.ident.Form s.token.text.toList) ∧
    ∃ s ∈ scan "a\\( url(" "", s.token.faults ≠ [] ∧ s.token.text = "url()" ∧
      TokenKind.uri.Form s.token.text.toList := by
  have hscan : scan "a\\( url(" "" =
      [⟨⟨.ident, "a\\(", ⟨1, 1, 1, ""⟩, []⟩, []⟩, ⟨⟨.space, " ", ⟨1, 4, 4, ""⟩, []⟩, []⟩,
        ⟨⟨.uri, "url()", ⟨1, 5, 5, ""⟩, [⟨.lexicalEnd, ⟨1, 9, 9, ""⟩, []⟩]⟩,
          [.fault ⟨.lexicalEnd, ⟨1, 9, 9, ""⟩, []⟩]⟩] := by
    decide +kernel
  constructor
  · have hmem : ⟨⟨.ident, "a\\(", ⟨1, 1, 1, ""⟩, []⟩, []⟩ ∈ scan "a\\( url(" "" := by simp [hscan]
    exact ⟨_, hmem, rfl, rfl, form_of_mem_scan _ hmem⟩
  · have hmem : ⟨⟨.uri, "url()", ⟨1, 5, 5, ""⟩, [⟨.lexicalEnd, ⟨1, 9, 9, ""⟩, []⟩]⟩,
        [.fault ⟨.lexicalEnd, ⟨1, 9, 9, ""⟩, []⟩]⟩ ∈ scan "a\\( url(" "" := by simp [hscan]
    exact ⟨_, hmem, by simp, rfl, form_of_mem_scan _ hmem⟩

end EpubStyle
