import EpubStyle.Token.Lexeme

/-!
# The branches of the scanner

`Lexeme.Branch` has one case for each kind of token that the scanner tells apart, with what it has
seen of the text by then. Every lexeme is read in one of them (`Lexeme.branch_readBody`), so what
holds of all lexemes is proved by cases. `Lexeme.AddressBranch` does the same for addresses, which
end behind their blanks, are quoted or are bare (`Lexeme.branch_address`).
-/

set_option autoImplicit false

namespace EpubStyle

open Text

namespace Lexeme

/-- How a lexeme is read at the front of `c :: cs`, and what that says about the text. -/
inductive Branch (c : Char) (cs : List Char) : Lexeme → Prop
  | space (h : isBlank c = true) :
      Branch c cs ⟨.space, (Piece.silent (1 + (cs.takeWhile isBlank).length)).withText [' ']⟩
  | commentClose (hc : c = '-') (h : startsWord ['-', '>'] cs = true) :
      Branch c cs (fixed .commentClose ['-', '-', '>'])
  | only (h : wordAhead 'o' ['n', 'l', 'y'] c cs = true) :
      Branch c cs (fixed .only (c :: cs.take 3))
  | not (h : wordAhead 'n' ['o', 't'] c cs = true) : Branch c cs (fixed .not (c :: cs.take 2))
  | and (h : wordAhead 'a' ['n', 'd'] c cs = true) : Branch c cs (fixed .and (c :: cs.take 2))
  | uri (hc : sameLetter c 'u' = true) (h : startsWord ['r', 'l', '('] cs = true) :
      Branch c cs (uri cs)
  | range (hc : sameLetter c 'u' = true) (h : rangeAhead cs = true) : Branch c cs (range cs)
  | ident (h : identAhead c cs = true) : Branch c cs (ident c cs)
  | atKeyword (hc : c = '@') (h : atKeywordAhead cs = true) : Branch c cs (atKeyword cs)
  | number (h : numberAhead c cs = true) : Branch c cs (number c cs)
  | commentOpen (hc : c = '<') (h : startsWord ['!', '-', '-'] cs = true) :
      Branch c cs (fixed .commentOpen ['<', '!', '-', '-'])
  | comment (tail : List Char) (hc : c = '/') (hcs : cs = '*' :: tail) :
      Branch c cs ⟨.comment, Piece.silent 2 ++ commentBody tail⟩
  | string (h : isQuote c = true) : Branch c cs ⟨.string, Piece.silent 1 ++ stringBody c cs⟩
  | hashName (hc : c = '#') (h : nameAhead cs = true) : Branch c cs (hashName cs)
  | className (hc : c = '.') (h : nameAhead cs = true) (hdigit : digitAhead cs = false) :
      Branch c cs (className cs)
  | important (n : Nat) (hc : c = '!') (h : importantAhead cs = some n) :
      Branch c cs ⟨.important, (Piece.silent (n + 1)).withText
        ['!', 'i', 'm', 'p', 'o', 'r', 't', 'a', 'n', 't']⟩
  | operator (kind : TokenKind) (h : operator c cs = some kind) : Branch c cs (fixed kind [c, '='])
  | char (h : isBlank c = false) (hname : isNameStart c = false) (hdigit : c.isDigit = false)
      (hquote : isQuote c = false) : Branch c cs (fixed .char [c])

/-- A lexeme that starts with a character which starts neither a name nor a number is read in one of
the branches. -/
theorem branch_readSymbol {c : Char} {cs : List Char} (hc : isBlank c = false)
    (hname : isNameStart c = false) (hnumber : numberAhead c cs = false) :
    Branch c cs (readSymbol c cs) := by
  -- In the order of the reader: each branch comes with what excluded the ones before it.
  unfold readSymbol
  split
  next h =>
    simp only [Bool.and_eq_true, beq_iff_eq] at h
    exact .commentOpen h.1 h.2
  split
  next h =>
    simp only [Bool.and_eq_true, beq_iff_eq] at h
    obtain ⟨tail, rfl⟩ : ∃ tail, cs = '*' :: tail := by
      cases cs with
      | nil => simp at h
      | cons d tail => exact ⟨tail, by simpa using h.2⟩
    exact .comment tail h.1 rfl
  split
  next h => exact .string h
  next hquote =>
  split
  next h =>
    simp only [Bool.and_eq_true, beq_iff_eq] at h
    exact .hashName h.1 h.2
  split
  next h =>
    simp only [Bool.and_eq_true, beq_iff_eq] at h
    obtain ⟨rfl, hahead⟩ := h
    simp only [numberAhead, Bool.or_eq_false_iff] at hnumber
    exact .className rfl hahead (by simpa using hnumber.1.2)
  split
  next n h =>
    split at h
    · next hmark => exact .important n (by simpa using hmark) h
    · cases h
  split
  next kind h => exact .operator kind h
  next =>
    simp only [numberAhead, Bool.or_eq_false_iff] at hnumber
    exact .char hc hname hnumber.1.1 (by simpa using hquote)

/-- **Every lexeme is read in one of the branches.** -/
theorem branch_readBody (c : Char) (cs : List Char) : Branch c cs (readBody c cs) := by
  unfold readBody
  split
  next h => exact .space h
  next hc =>
  split
  next h =>
    simp only [Bool.and_eq_true, beq_iff_eq] at h
    exact .commentClose h.1 h.2
  split
  next h => exact .only h
  split
  next h => exact .not h
  split
  next h => exact .and h
  split
  next h =>
    simp only [Bool.and_eq_true] at h
    exact .uri h.1 h.2
  split
  next h =>
    simp only [Bool.and_eq_true] at h
    exact .range h.1 h.2
  split
  next h => exact .ident h
  next hident =>
  split
  next h =>
    simp only [Bool.and_eq_true, beq_iff_eq] at h
    exact .atKeyword h.1 h.2
  split
  next h => exact .number h
  next hnumber =>
  -- What is left starts neither a name nor a number: a symbol.
  simp only [identAhead, Bool.or_eq_true, not_or, Bool.not_eq_true] at hident
  exact branch_readSymbol (by simpa using hc) hident.1.1 (by simpa using hnumber)

/-! ## Addresses -/

/-- The blanks at the front of a text. -/
theorem exists_blanks (cs : List Char) :
    ∃ blanks rest, cs = blanks ++ rest ∧ cs.takeWhile isBlank = blanks ∧
      cs.drop blanks.length = rest ∧ ∀ c ∈ blanks, isBlank c = true := by
  refine ⟨cs.takeWhile isBlank, cs.dropWhile isBlank, List.takeWhile_append_dropWhile.symm, rfl, ?_,
    fun c hc => List.all_eq_true.1 List.all_takeWhile c hc⟩
  conv => lhs; arg 2; rw [← List.takeWhile_append_dropWhile (p := isBlank) (l := cs)]
  exact List.drop_left

/-- Behind the blanks at the front of a text there is no blank. -/
theorem isBlank_of_drop {c : Char} {cs rest : List Char}
    (h : cs.drop (cs.takeWhile isBlank).length = c :: rest) : isBlank c = false := by
  induction cs with
  | nil => cases h
  | cons d cs ih =>
      cases hd : isBlank d with
      | true => exact ih (by simpa [hd] using h)
      | false =>
          have hcons : d :: cs = c :: rest := by simpa [hd] using h
          rwa [← (List.cons.inj hcons).1]

/-- How an address is read, and what that says about the text. -/
inductive AddressBranch : List Char → Piece → Prop
  /-- The text ends behind the blanks. -/
  | ended {blanks : List Char} (hblanks : ∀ c ∈ blanks, isBlank c = true) :
      AddressBranch blanks (Piece.silent blanks.length ++ Piece.fault 1 .lexicalEnd [])
  | quoted {blanks : List Char} (hblanks : ∀ c ∈ blanks, isBlank c = true) {quote : Char}
      (hquote : isQuote quote = true) (rest : List Char) :
      AddressBranch (blanks ++ quote :: rest)
        (Piece.silent (blanks.length + 1) ++ (quotedAddress quote rest).withText
          ('\x27' :: ((quotedAddress quote rest).text ++ ['\x27'])))
  | bare {blanks : List Char} (hblanks : ∀ c ∈ blanks, isBlank c = true) {c : Char}
      (hblank : isBlank c = false) (hquote : isQuote c = false) (rest : List Char) :
      AddressBranch (blanks ++ c :: rest)
        (Piece.silent blanks.length ++ (bareAddress (c :: rest)).withText
          ((bareAddress (c :: rest)).text.reverse.dropWhile isBlank).reverse)

/-- **Every address is read in one of three ways**, which the character behind its blanks tells. -/
theorem branch_address (cs : List Char) : AddressBranch cs (address cs) := by
  obtain ⟨blanks, rest, hcs, htake, hdrop, hblanks⟩ := exists_blanks cs
  unfold address
  simp only [htake, hdrop]
  cases rest with
  | nil =>
      rw [hcs, List.append_nil]
      exact .ended hblanks
  | cons c rest =>
      have hblank : isBlank c = false := isBlank_of_drop (htake ▸ hdrop)
      rw [hcs]
      simp only
      split
      · next hquote => exact .quoted hblanks hquote rest
      · next hquote => exact .bare hblanks hblank (by simpa using hquote) rest

end Lexeme

end EpubStyle
