import EpubStyle.Proofs.Rescan.Addresses
import EpubStyle.Proofs.Rescan.Numbers
import EpubStyle.Proofs.Spans.Names

/-!
# What tokens are written as

The text of a token without escapes is its span, but for what the scanner normalises: white space,
the delimiters of comments and strings, the opening of an address with the blanks and the quotation
marks in it, the spelling of a known unit, the letter of a Unicode range and the word `important`.
`Transcribes` says for each kind what the span is if the token has a given text, and every faultless
token is a transcript of its span (`transcribes_of_scan`).
-/

set_option autoImplicit false

namespace EpubStyle

open Text

/-- An address as it is written, and its text. -/
inductive AddressBody : List Char → List Char → Prop
  | bare (body : List Char) (hclose : ')' ∉ body)
      (hbegin : ∀ c ∈ body.head?, isBlank c = false ∧ isQuote c = false)
      (hend : ∀ c ∈ body.getLast?, isBlank c = false) : AddressBody body body
  | quoted (quote : Char) (body : List Char) (hquote : isQuote quote = true) (hbody : quote ∉ body)
      (hbreak : ∀ c ∈ body, isLineBreak c = false) :
      AddressBody ('\x27' :: (body ++ ['\x27'])) (quote :: (body ++ [quote]))

/-- The kinds of token whose text is what is written. -/
def TokenKind.IsVerbatim (kind : TokenKind) : Prop :=
  kind ∉ [.space, .comment, .string, .uri, .unicodeRange, .important] ∧
    ∀ m, kind = .quantity m → m ∈ [.dimension, .number, .integer]

/-- The token of a kind and a text is written as the second list of characters, which has no
backslash. -/
inductive Transcribes : TokenKind → List Char → List Char → Prop
  | space (blanks : List Char) (hne : blanks ≠ []) (hblanks : ∀ c ∈ blanks, isBlank c = true) :
      Transcribes .space [' '] blanks
  | comment (text : List Char) (h : ¬ ['*', '/'] <:+: text) :
      Transcribes .comment text (['/', '*'] ++ text ++ ['*', '/'])
  | string (quote : Char) (text : List Char) (hquote : isQuote quote = true) (htext : quote ∉ text)
      (hbreak : ∀ c ∈ text, isLineBreak c = false) :
      Transcribes .string text (quote :: (text ++ [quote]))
  | uri (opening before body behind text : List Char)
      (hopening : sameWord ['u', 'r', 'l', '('] opening = true)
      (hbefore : ∀ c ∈ before, isBlank c = true) (hbehind : ∀ c ∈ behind, isBlank c = true)
      (hbody : AddressBody text body) :
      Transcribes .uri (['u', 'r', 'l', '('] ++ text ++ [')'])
        (opening ++ before ++ body ++ behind ++ [')'])
  | quantity (m : Measure) (numeral suffix : List Char) (canonical : String)
      (hnumeral : ∀ c ∈ numeral, Lexeme.isNumeral c = true)
      (hknown : (canonical, m) ∈ Measure.suffixes)
      (hsuffix : sameWord canonical.toList suffix = true) :
      Transcribes (.quantity m) (numeral ++ canonical.toList) (numeral ++ suffix)
  | range (letter : Char) (rest : List Char) (h : sameLetter letter 'u' = true) :
      Transcribes .unicodeRange ('U' :: rest) (letter :: rest)
  | important (blanks word : List Char) (hblanks : ∀ c ∈ blanks, isBlank c = true)
      (hword : sameWord ['i', 'm', 'p', 'o', 'r', 't', 'a', 'n', 't'] word = true) :
      Transcribes .important ['!', 'i', 'm', 'p', 'o', 'r', 't', 'a', 'n', 't']
        ('!' :: (blanks ++ word))
  | verbatim (kind : TokenKind) (text : List Char) (h : kind.IsVerbatim) :
      Transcribes kind text text

namespace Lexeme

/-- The lexeme is read at the front of a text, and it is a transcript of what it is read from. -/
def TranscribedAhead (l : Lexeme) (cs : List Char) : Prop :=
  ∃ raw rest, cs = raw ++ rest ∧ l.piece.length = raw.length ∧
    ('\\' ∉ raw → Transcribes l.kind l.piece.text raw)

/-! ## Words and operators -/

/-- What stands for itself is a transcript. -/
theorem TranscribedAhead.verbatim {kind : TokenKind} (h : kind.IsVerbatim) {p : Piece}
    {raw : List Char} (rest : List Char) (hlength : p.length = raw.length)
    (htext : '\\' ∉ raw → p.text = raw) : TranscribedAhead ⟨kind, p⟩ (raw ++ rest) :=
  ⟨raw, rest, rfl, hlength, fun hback => htext hback ▸ .verbatim kind _ h⟩

theorem TranscribedAhead.fixed {kind : TokenKind} (h : kind.IsVerbatim) (raw rest : List Char) :
    (fixed kind raw).TranscribedAhead (raw ++ rest) :=
  .verbatim h rest rfl (fun _ => rfl)

/-- The kinds without a measure are verbatim unless they are normalised. -/
theorem isVerbatim_of_not_mem {kind : TokenKind}
    (h : kind ∉ [.space, .comment, .string, .uri, .unicodeRange, .important])
    (hmeasure : ∀ m, kind ≠ .quantity m) : kind.IsVerbatim :=
  ⟨h, fun m hm => absurd hm (hmeasure m)⟩

/-- A word without letters stands at the front of a text as it is. -/
theorem exists_of_startsWord_fixed {word cs : List Char} (h : startsWord word cs = true)
    (hword : word.all (fun c => c.toLower == c && !c.isLower) = true) :
    ∃ rest, cs = word ++ rest := by
  induction word generalizing cs with
  | nil => exact ⟨cs, rfl⟩
  | cons a word ih =>
      cases cs with
      | nil => cases h
      | cons b cs =>
          rw [startsWord, Bool.and_eq_true] at h
          simp only [List.all_cons, Bool.and_eq_true, beq_iff_eq, Bool.not_eq_true'] at hword
          obtain ⟨ha, hrest⟩ := hword
          obtain ⟨rest, rfl⟩ := ih h.2 hrest
          obtain rfl := eq_of_sameLetter (sameLetter_comm a b ▸ h.1) ha.1 ha.2
          exact ⟨rest, rfl⟩

/-- The words of media queries. -/
theorem word_transcribed {kind : TokenKind} (h : kind.IsVerbatim) (n : Nat) (c : Char)
    (cs : List Char) : (fixed kind (c :: cs.take n)).TranscribedAhead (c :: cs) := by
  have hsplit : c :: cs = (c :: cs.take n) ++ cs.drop n := by simp
  rw [hsplit]
  exact .fixed h _ _

theorem exists_of_operator {c : Char} {cs : List Char} {kind : TokenKind}
    (h : operator c cs = some kind) : ∃ rest, cs = '=' :: rest := by
  unfold operator at h
  split at h
  · next hequals => exact List.head?_eq_some_iff.1 (beq_iff_eq.1 hequals)
  · cases h

theorem operator_transcribed {c : Char} {cs : List Char} {kind : TokenKind}
    (h : operator c cs = some kind) : (fixed kind [c, '=']).TranscribedAhead (c :: cs) := by
  have hverbatim : kind.IsVerbatim := by
    have hmem := kind_operator h
    simp only [List.mem_cons, List.not_mem_nil, or_false] at hmem
    apply isVerbatim_of_not_mem <;> rcases hmem with rfl | rfl | rfl | rfl | rfl <;> simp
  obtain ⟨rest, rfl⟩ := exists_of_operator h
  exact .fixed hverbatim [c, '='] rest

theorem exists_of_importantAhead {cs : List Char} {n : Nat} (h : importantAhead cs = some n) :
    ∃ blanks word rest, cs = blanks ++ word ++ rest ∧ (∀ c ∈ blanks, isBlank c = true) ∧
      word.map Char.toLower = ['i', 'm', 'p', 'o', 'r', 't', 'a', 'n', 't'].map Char.toLower ∧
      n = (blanks ++ word).length := by
  obtain ⟨blanks, after, rfl, htake, hdrop, hblanks⟩ := exists_blanks cs
  unfold importantAhead at h
  simp only [htake, hdrop] at h
  split at h
  · next hstart =>
      obtain ⟨word, rest, rfl, hword⟩ := exists_of_startsWord hstart
      have hlength : word.length = 9 := by simpa using congrArg List.length hword
      obtain rfl := Option.some.inj h
      exact ⟨blanks, word, rest, by simp, hblanks, hword, by simp [hlength]⟩
  · cases h

/-- `!important` may have blanks behind its mark. -/
theorem important_transcribed {cs : List Char} {n : Nat} (h : importantAhead cs = some n) :
    TranscribedAhead ⟨.important, (Piece.silent (n + 1)).withText
      ['!', 'i', 'm', 'p', 'o', 'r', 't', 'a', 'n', 't']⟩ ('!' :: cs) := by
  obtain ⟨blanks, word, rest, rfl, hblanks, hword, rfl⟩ := exists_of_importantAhead h
  exact ⟨'!' :: (blanks ++ word), rest, by simp, rfl,
    fun _ => .important blanks word hblanks (sameWord_iff.2 hword.symm)⟩

/-! ## Names, numbers and ranges -/

/-- A name without a backslash is its own text. -/
theorem Named.text_eq {l : Lexeme} {sign raw rest : List Char} {parts : List NamePart}
    (h : l.Named sign parts raw rest) (hback : '\\' ∉ sign ++ raw) :
    l.piece.text = sign ++ raw := by
  rw [List.mem_append, not_or] at hback
  rw [h.text, h.along.flatMap_text hback.2]

theorem transcribed_of_named {l : Lexeme} {cs : List Char} (h : l.NamedAhead cs)
    (hkind : l.kind ∈ TokenKind.names) : l.TranscribedAhead cs := by
  obtain ⟨sign, parts, raw, rest, rfl, hname⟩ := h
  have hverbatim : l.kind.IsVerbatim := by
    simp only [TokenKind.names, List.mem_cons, List.not_mem_nil, or_false] at hkind
    apply isVerbatim_of_not_mem <;> rcases hkind with hk | hk | hk | hk | hk <;> simp [hk]
  exact ⟨sign ++ raw, rest, rfl, hname.length,
    fun hback => hname.text_eq hback ▸ .verbatim _ _ hverbatim⟩

/-- A unit is a percent sign or a name, read part by part. -/
theorem unit_spells {cs : List Char} {p : Piece} (h : unit cs = some p) :
    p.SpellsAhead isNameStart cs := by
  cases cs with
  | nil => cases h
  | cons c cs =>
      have hname : nameStartAhead (c :: cs) = true ∨ escapeAhead (c :: cs) = true →
          (Piece.name (c :: cs)).SpellsAhead isNameStart (c :: cs) :=
        fun hahead => Piece.name_spells (nameAhead_of_start hahead)
      simp only [unit] at h
      split at h
      · next hpercent =>
          obtain rfl := beq_iff_eq.1 hpercent
          obtain rfl := Option.some.inj h
          exact ⟨[.char '%'], ['%'], cs, rfl, rfl, rfl, .char _ _ _ _ (by decide) (.nil _)⟩
      · split at h
        · next hstart =>
            obtain rfl := Option.some.inj h
            exact hname (.inl (by simpa [nameStartAhead] using hstart))
        · split at h
          · next hescape =>
              obtain rfl := Option.some.inj h
              -- A backslash that was given back takes nothing.
              obtain ⟨parts, raw, rest, hcs, hlength, htext, halong⟩ := hname (.inr hescape)
              exact ⟨parts, raw, rest, hcs, (Nat.zero_add _).trans hlength, htext, halong⟩
          · cases h

/-- The canonical spelling of a unit that is known. -/
theorem measure_transcribes (suffix : List Char) :
    measure suffix = (suffix, .dimension) ∨
      ∃ entry ∈ Measure.suffixes, measure suffix = (entry.1.toList, entry.2) ∧
        sameWord entry.1.toList suffix = true := by
  rcases measure_cases suffix with h | ⟨entry, hentry, h⟩
  · exact .inl h
  · have hlower := map_toLower_measure suffix
    rw [h] at hlower
    exact .inr ⟨entry, hentry, h, sameWord_iff.2 hlower⟩

/-- The numeral of a number and the parts of its unit. -/
theorem number_spells {c : Char} {cs : List Char} (h : numberAhead c cs = true) :
    ∃ numeral parts raw rest, c :: cs = numeral ++ raw ++ rest ∧ numeral ≠ [] ∧
      (∀ d ∈ numeral, isNumeral d = true) ∧ NamePart.Along rest isNameStart parts raw ∧
      (number c cs).piece.length = (numeral ++ raw).length ∧
      (raw = [] ∧ (number c cs).piece.text = numeral ∧
          (∃ m ∈ [Measure.number, .integer], (number c cs).kind = .quantity m) ∨
        (number c cs).piece.text = numeral ++ (measure (parts.flatMap NamePart.text)).1 ∧
          (number c cs).kind = .quantity (measure (parts.flatMap NamePart.text)).2) := by
  obtain ⟨⟨after, hcs⟩, -⟩ := digits_prefix (c == '.') cs
  have hdrop : cs.drop (digits (c == '.') cs).1.length = after := by
    conv => lhs; arg 2; rw [hcs]
    exact List.drop_left
  have hnumeral : ∀ d ∈ c :: (digits (c == '.') cs).1, isNumeral d = true :=
    List.forall_mem_cons.2 ⟨isNumeral_of_numberAhead h, isNumeral_digits _ _⟩
  have hsplit : c :: cs = (c :: (digits (c == '.') cs).1) ++ after := congrArg (c :: ·) hcs
  have hne : c :: (digits (c == '.') cs).1 ≠ [] := List.cons_ne_nil _ _
  unfold number
  simp only [hdrop]
  rw [hsplit]
  generalize c :: (digits (c == '.') cs).1 = numeral at hnumeral hne
  split
  · next suffix hunit =>
      obtain ⟨parts, raw, rest, rfl, hlength, htext, halong⟩ := unit_spells hunit
      refine ⟨numeral, parts, raw, rest, by simp, hne, hnumeral, halong, ?_,
        .inr (htext ▸ ⟨rfl, rfl⟩)⟩
      rw [Piece.length_append, List.length_append, ← hlength]
      rfl
  · -- A backslash that was looked at behind the number takes nothing.
    have hprobed : ∀ b : Bool, (if b then Piece.stepBack 1 else {}).length = 0 ∧
        (if b then Piece.stepBack 1 else {}).text = [] := by decide
    refine ⟨numeral, [], [], after, by simp, hne, hnumeral, .nil _, ?_, .inl ⟨rfl, ?_, ?_⟩⟩
    · rw [Piece.length_append, (hprobed _).1, List.append_nil]
      rfl
    · rw [Piece.text_append, (hprobed _).2, List.append_nil]
      rfl
    · split <;> simp

/-- **A number** is its numeral with its unit behind it. -/
theorem number_transcribed {c : Char} {cs : List Char} (h : numberAhead c cs = true) :
    (number c cs).TranscribedAhead (c :: cs) := by
  obtain ⟨numeral, parts, raw, rest, hcs, -, hnumeral, halong, hlength, hcases⟩ := number_spells h
  refine ⟨numeral ++ raw, rest, hcs, hlength, fun hback => ?_⟩
  rw [List.mem_append, not_or] at hback
  rcases hcases with ⟨rfl, htext, m, hm, hkind⟩ | ⟨htext, hkind⟩
  · rw [hkind, htext, List.append_nil]
    refine .verbatim _ _ ⟨by simp, ?_⟩
    rintro m' hm'
    obtain rfl := TokenKind.quantity.inj hm'
    exact List.mem_cons_of_mem _ hm
  · rw [hkind, htext, halong.flatMap_text hback.2]
    rcases measure_transcribes raw with hunknown | ⟨entry, hentry, hknown, hsame⟩
    · rw [hunknown]
      exact .verbatim _ _ ⟨by simp, by simp⟩
    · rw [hknown]
      exact .quantity entry.2 numeral raw entry.1 hnumeral hentry hsame

/-- The characters of a range stand for themselves. -/
theorem rangeBody_prefix (seen : List Char) (count : Nat) (cs : List Char) :
    (∃ rest, cs = (rangeBody seen count cs).text ++ rest) ∧
      ∀ d ∈ (rangeBody seen count cs).text, isRangeChar d = true := by
  induction cs generalizing seen count with
  | nil => exact ⟨⟨[], rfl⟩, by simp [rangeBody]⟩
  | cons c cs ih =>
      simp only [rangeBody]
      split
      · next hc =>
          obtain ⟨⟨rest, hrest⟩, hmem⟩ := ih (c :: seen) (if c == '-' then 0 else count + 1)
          exact ⟨⟨rest, congrArg (c :: ·) hrest⟩, List.forall_mem_cons.2 ⟨hc, hmem⟩⟩
      · exact ⟨⟨c :: cs, rfl⟩, by simp⟩

theorem exists_of_rangeAhead {cs : List Char} (h : rangeAhead cs = true) :
    ∃ cs', cs = '+' :: cs' := by
  unfold rangeAhead at h
  split at h
  · exact ⟨_, rfl⟩
  · cases h

/-- **A Unicode range** is written with a letter of either case. -/
theorem range_transcribed {c : Char} {cs : List Char} (hletter : sameLetter c 'u' = true)
    (h : rangeAhead cs = true) : (range cs).TranscribedAhead (c :: cs) := by
  obtain ⟨cs, rfl⟩ := exists_of_rangeAhead h
  obtain ⟨⟨rest, hrest⟩, -⟩ := rangeBody_prefix ['+', 'U'] 0 cs
  refine ⟨c :: '+' :: (rangeBody ['+', 'U'] 0 cs).text, rest, congrArg (c :: '+' :: ·) hrest, ?_,
    fun _ => .range c ('+' :: (rangeBody ['+', 'U'] 0 cs).text) hletter⟩
  have hlength : (range ('+' :: cs)).piece.length = 2 + (rangeBody ['+', 'U'] 0 cs).length := rfl
  rw [hlength, length_rangeBody, List.length_cons, List.length_cons, Nat.add_comm]

/-! ## Comments, strings and addresses -/

/-- The text of a string is what stands before the first quotation mark, if no backslash does. -/
theorem stringBody_verbatim {quote : Char} {cs body : List Char}
    (h : (stringBody quote cs).Faultless) (htext : (stringBody quote cs).text = body)
    (hback : '\\' ∉ body) : quote ∉ body ∧ ∀ c ∈ body, isLineBreak c = false := by
  obtain ⟨-, hquote, hbreak⟩ := exposed_stringBody h
  rw [htext, exposed_of_not_mem hback] at hquote
  exact ⟨hquote, htext ▸ hbreak⟩

/-- A string is written between quotation marks. -/
theorem string_transcribed {quote : Char} (hquote : isQuote quote = true) {cs : List Char}
    (h : (stringBody quote cs).Faultless) :
    TranscribedAhead ⟨.string, Piece.silent 1 ++ stringBody quote cs⟩ (quote :: cs) := by
  obtain ⟨body, rest, hcs, hreads⟩ := stringBody_reads h
  refine ⟨quote :: (body ++ [quote]), rest, by simp [hcs], ?_, fun hback => ?_⟩
  · rw [Piece.length_append, hreads.length]
    simp [Piece.silent, Nat.add_comm]
  · have hbody : '\\' ∉ body := fun hmem => hback (by simp [hmem])
    have htext := hreads.verbatim hbody
    obtain ⟨hend, hbreak⟩ := stringBody_verbatim h htext hbody
    have hstring : (Piece.silent 1 ++ stringBody quote cs).text = body := htext
    rw [hstring]
    exact .string quote body hquote hend hbreak

theorem comment_transcribed {cs : List Char} (h : (commentBody cs).Faultless) :
    TranscribedAhead ⟨.comment, Piece.silent 2 ++ commentBody cs⟩ ('/' :: '*' :: cs) := by
  obtain ⟨body, rest, hcs, hlength, htext, hbody⟩ := commentBody_reads h
  refine ⟨['/', '*'] ++ body ++ ['*', '/'], rest, by simp [hcs], ?_, fun _ => ?_⟩
  · rw [Piece.length_append, hlength]
    simp [Piece.silent]
    omega
  · have hcomment : (Piece.silent 2 ++ commentBody cs).text = body := htext
    rw [hcomment]
    exact .comment body hbody

/-- No blank is left at the end of a text that was trimmed. -/
theorem getLast?_trimmed (cs : List Char) : ∀ c ∈ (trimmed cs).getLast?, isBlank c = false := by
  intro c hc
  rw [trimmed, List.getLast?_reverse] at hc
  have hhead := List.head?_dropWhile_not isBlank cs.reverse
  rw [Option.mem_def.1 hc] at hhead
  simpa using hhead

/-- An address that is not quoted, with the blanks behind it. -/
theorem bareAddress_transcribed {c : Char} {cs : List Char} (hblank : isBlank c = false)
    (hquote : isQuote c = false) (h : (bareAddress (c :: cs)).Faultless) :
    ∃ body behind rest, c :: cs = body ++ behind ++ ')' :: rest ∧
      (∀ c ∈ behind, isBlank c = true) ∧
      (bareAddress (c :: cs)).length = (body ++ behind).length + 1 ∧
      ('\\' ∉ body ++ behind → AddressBody (trimmed (bareAddress (c :: cs)).text) body) := by
  obtain ⟨raw, rest, hcs, hreads⟩ := bareAddress_reads h
  have hsplit := trimmed_append raw
  refine ⟨trimmed raw, (raw.reverse.takeWhile isBlank).reverse, rest, ?_, ?_, ?_, fun hback => ?_⟩
  · rw [hsplit, hcs]
  · intro d hd
    exact List.all_eq_true.1 List.all_takeWhile d (List.mem_reverse.1 hd)
  · rw [hsplit, hreads.length]
  · rw [hsplit] at hback
    have htext := hreads.verbatim hback
    have hclose := exposed_bareAddress h
    rw [htext, exposed_of_not_mem hback] at hclose
    rw [htext]
    refine .bare _ (fun hmem => hclose ?_) (fun d hd => ?_) (getLast?_trimmed raw)
    · rw [← hsplit]
      exact List.mem_append_left _ hmem
    · -- The first character of the body is that of the text.
      have hhead : d ∈ raw.head? := by
        rw [← hsplit, List.head?_append]
        simp [Option.mem_def.1 hd]
      obtain ⟨more, rfl⟩ := List.head?_eq_some_iff.1 hhead
      obtain rfl := (List.cons.inj hcs).1
      exact ⟨hblank, hquote⟩

/-- A quoted address, with the blanks behind it. -/
theorem quotedAddress_transcribed {quote : Char} (hquote : isQuote quote = true) {cs : List Char}
    (h : (quotedAddress quote cs).Faultless) :
    ∃ body behind rest, quote :: cs = body ++ behind ++ ')' :: rest ∧
      (∀ c ∈ behind, isBlank c = true) ∧
      (quotedAddress quote cs).length = (body ++ behind).length ∧
      ('\\' ∉ body ++ behind →
        AddressBody ('\x27' :: ((quotedAddress quote cs).text ++ ['\x27'])) body) := by
  obtain ⟨body, behind, rest, hcs, hlength, -, hverbatim, hbehind⟩ := quotedAddress_reads h
  refine ⟨quote :: (body ++ [quote]), behind, rest, by simp [hcs], hbehind, ?_, fun hback => ?_⟩
  · rw [hlength]
    simp
    omega
  · have hbody : '\\' ∉ body := fun hmem => hback (by simp [hmem])
    have hstring : (stringBody quote cs).Faultless :=
      (Piece.faultless_append.1 (Piece.faultless_append.1 h).1).1
    have htext := hverbatim hbody
    obtain ⟨hend, hbreak⟩ := stringBody_verbatim hstring (text_quotedAddress quote cs ▸ htext) hbody
    rw [htext]
    exact .quoted quote body hquote hend hbreak

/-- **What an address is written as**: its body with blanks around it. -/
theorem address_transcribed {cs : List Char} (h : (address cs).Faultless) :
    ∃ before body behind rest, cs = before ++ body ++ behind ++ ')' :: rest ∧
      (∀ c ∈ before, isBlank c = true) ∧ (∀ c ∈ behind, isBlank c = true) ∧
      (address cs).length = (before ++ body ++ behind).length + 1 ∧
      ('\\' ∉ body ++ behind → AddressBody (address cs).text body) := by
  generalize address cs = p, branch_address cs = hbranch at h ⊢
  cases hbranch with
  | ended => exact absurd (Piece.faultless_append.1 h).2 (Piece.not_faultless_fault _ _ _)
  | @quoted before hbefore quote hquote rest =>
      obtain ⟨body, behind, rest', hcs, hbehind, hlength, hbody⟩ :=
        quotedAddress_transcribed hquote (Piece.faultless_append.1 h).2
      refine ⟨before, body, behind, rest', by simp [hcs], hbefore, hbehind, ?_, hbody⟩
      rw [Piece.length_append, Piece.withText, hlength]
      simp only [Piece.silent, List.length_append]
      omega
  | @bare before hbefore c hblank hquote rest =>
      obtain ⟨body, behind, rest', hcs, hbehind, hlength, hbody⟩ :=
        bareAddress_transcribed hblank hquote (Piece.faultless_append.1 h).2
      refine ⟨before, body, behind, rest', by simp [hcs], hbefore, hbehind, ?_, hbody⟩
      rw [Piece.length_append, Piece.withText, hlength]
      simp only [Piece.silent, List.length_append]
      omega

/-- **An address** is written behind its opening, and a parenthesis closes it. -/
theorem uri_transcribed {c : Char} {cs : List Char} (hletter : sameLetter c 'u' = true)
    (hstart : startsWord ['r', 'l', '('] cs = true) (h : (uri cs).piece.Faultless) :
    (uri cs).TranscribedAhead (c :: cs) := by
  obtain ⟨word, after, rfl, hword⟩ := exists_of_startsWord hstart
  have hlength : word.length = 3 := by simpa using congrArg List.length hword
  have hdrop : (word ++ after).drop 3 = after := List.drop_left' hlength
  have hopening : sameWord ['u', 'r', 'l', '('] (c :: word) = true := by
    rw [sameWord, Bool.and_eq_true, sameLetter_comm]
    exact ⟨hletter, sameWord_iff.2 hword.symm⟩
  have haddress : (address after).Faultless := hdrop ▸ (Piece.faultless_append.1 h).2
  obtain ⟨before, body, behind, rest, rfl, hbefore, hbehind, haddressLength, hbody⟩ :=
    address_transcribed haddress
  have huri : (uri (word ++ (before ++ body ++ behind ++ ')' :: rest))).piece =
      Piece.ofText ['u', 'r', 'l', '('] ++
        (address (before ++ body ++ behind ++ ')' :: rest)).withText
          ((address (before ++ body ++ behind ++ ')' :: rest)).text ++ [')']) := by
    rw [uri, hdrop]
  refine ⟨(c :: word) ++ before ++ body ++ behind ++ [')'], rest, by simp, ?_, fun hback => ?_⟩
  · rw [huri, Piece.length_append, Piece.withText, haddressLength]
    simp only [Piece.ofText, List.length_append, List.length_cons, List.length_nil, hlength]
    omega
  · have hinside : '\\' ∉ body ++ behind := by
      intro hmem
      apply hback
      rw [List.append_assoc ((c :: word) ++ before)]
      exact List.mem_append_left _ (List.mem_append_right _ hmem)
    have htext : (uri (word ++ (before ++ body ++ behind ++ ')' :: rest))).piece.text =
        ['u', 'r', 'l', '('] ++
          (address (before ++ body ++ behind ++ ')' :: rest)).text ++ [')'] := by
      rw [huri, List.append_assoc]
      rfl
    rw [htext]
    exact .uri _ _ _ _ _ hopening hbefore hbehind (hbody hinside)

/-! ## All tokens -/

/-- White space is a run of blanks. -/
theorem space_transcribed {c : Char} {cs : List Char} (hc : isBlank c = true) :
    TranscribedAhead ⟨.space, (Piece.silent (1 + (cs.takeWhile isBlank).length)).withText [' ']⟩
      (c :: cs) := by
  obtain ⟨blanks, rest, rfl, htake, -, hblanks⟩ := exists_blanks cs
  refine ⟨c :: blanks, rest, rfl, ?_, fun _ => .space _ (by simp) ?_⟩
  · rw [htake, Nat.add_comm]
    rfl
  · exact List.forall_mem_cons.2 ⟨hc, hblanks⟩

/-- **A faultless lexeme is a transcript of what it is read from**, one reader at a time. -/
theorem readBody_transcribed {c : Char} {cs : List Char} (h : (readBody c cs).Faultless) :
    (readBody c cs).TranscribedAhead (c :: cs) := by
  have hplain : ∀ kind ∈ [.commentOpen, .commentClose, .only, .not, .and, .char],
      TokenKind.IsVerbatim kind := by
    intro kind hkind
    simp only [List.mem_cons, List.not_mem_nil, or_false] at hkind
    apply isVerbatim_of_not_mem <;> rcases hkind with rfl | rfl | rfl | rfl | rfl | rfl <;> simp
  generalize readBody c cs = l, branch_readBody c cs = hbranch at h
  cases hbranch with
  | space hc => exact space_transcribed hc
  | commentClose hc hstart =>
      obtain ⟨rest, rfl⟩ := exists_of_startsWord_fixed hstart (by decide)
      rw [hc]
      exact .fixed (hplain .commentClose (by simp)) ['-', '-', '>'] rest
  | commentOpen hc hstart =>
      obtain ⟨rest, rfl⟩ := exists_of_startsWord_fixed hstart (by decide)
      rw [hc]
      exact .fixed (hplain .commentOpen (by simp)) ['<', '!', '-', '-'] rest
  | only | not | and => exact word_transcribed (hplain _ (by simp)) _ c cs
  | uri hc hstart => exact uri_transcribed hc hstart h
  | range hc hrange => exact range_transcribed hc hrange
  | ident hahead =>
      refine transcribed_of_named (ident_named hahead) ?_
      rcases kind_ident c cs with hkind | hkind <;> simp [hkind, TokenKind.names]
  | atKeyword hc hahead =>
      refine hc ▸ transcribed_of_named (atKeyword_named hahead) ?_
      simp [kind_atKeyword, TokenKind.names]
  | hashName hc =>
      exact hc ▸ transcribed_of_named (hashName_named cs) (by simp [hashName, TokenKind.names])
  | className hc hahead =>
      exact hc ▸
        transcribed_of_named (className_named hahead) (by simp [className, TokenKind.names])
  | number hahead => exact number_transcribed hahead
  | comment tail hc hcs =>
      rw [hc, hcs]
      exact comment_transcribed (Piece.faultless_append.1 h).2
  | string hquote => exact string_transcribed hquote (Piece.faultless_append.1 h).2
  | important n hc hn => exact hc ▸ important_transcribed hn
  | operator kind hkind => exact operator_transcribed hkind
  | char => exact .fixed (hplain _ (by simp)) [c] cs

end Lexeme

end EpubStyle
