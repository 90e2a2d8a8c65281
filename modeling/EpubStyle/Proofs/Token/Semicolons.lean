import EpubStyle.Proofs.Rescan.Readers
import EpubStyle.Proofs.Spans.Unescape
import EpubStyle.Proofs.Token.FaultPlaces

/-!
# Reading in front of a semicolon

What a reader of tokens takes does not change when a semicolon and more stand behind the text,
provided that it has found all that it was looking for. One lemma for each lookahead, each part of a
name and each kind of token says so; they are put together along the branches of
`Lexeme.readSymbol` and `Lexeme.readBody`.

Some texts go on when they could: a backslash at the end takes the semicolon, also behind a hyphen
or an at sign with one, an open comment, string or address reads on, and a word of media queries is
a name as soon as something other than a blank stands behind it. `Lexeme.Clean` and `Lexeme.Decided`
leave these out, for what has been read and for the branch that is taken, and `Lexeme.Stable` does
so by what is left of the text. `Lexeme.read_semicolon_append` is the result.
-/

set_option autoImplicit false

namespace EpubStyle

open Text

/-! ## Looking ahead -/

namespace Text

variable (more : List Char)

theorem any_head?_semicolon {p : Char → Bool} (hp : p ';' = false) (cs : List Char) :
    (cs ++ ';' :: more).head?.any p = cs.head?.any p := by
  cases cs <;> simp [hp]

theorem head?_semicolon {c : Char} (hc : c ≠ ';') (cs : List Char) :
    ((cs ++ ';' :: more).head? == some c) = (cs.head? == some c) := by
  cases cs <;> simp [hc.symm]

/-- A word that holds no semicolon stands in front of one or not at all. -/
theorem startsWord_semicolon {word : List Char}
    (hword : (word.any fun a => sameLetter a ';') = false) (cs : List Char) :
    startsWord word (cs ++ ';' :: more) = startsWord word cs := by
  induction word generalizing cs with
  | nil => rfl
  | cons a word ih =>
      obtain ⟨ha, hrest⟩ := Bool.or_eq_false_iff.1 hword
      cases cs with
      | nil => simp [startsWord, ha]
      | cons b cs => simp [startsWord, ih hrest]

/-- A run of characters that are no semicolons ends in front of one. -/
theorem takeWhile_semicolon {p : Char → Bool} (hp : p ';' = false) (cs : List Char) :
    (cs ++ ';' :: more).takeWhile p = cs.takeWhile p := by
  induction cs with
  | nil => simp [hp]
  | cons c cs ih => cases hc : p c <;> simp [hc, ih]

theorem drop_takeWhile_semicolon (p : Char → Bool) (cs : List Char) :
    (cs ++ ';' :: more).drop (cs.takeWhile p).length =
      cs.drop (cs.takeWhile p).length ++ ';' :: more :=
  List.drop_append_of_le_length (List.takeWhile_prefix p).length_le

/-- **An escape does not go on with a semicolon.** Only a backslash with nothing behind it takes
one. -/
theorem Escape.read_semicolon {cs : List Char} (h : cs ≠ []) :
    Escape.read (cs ++ ';' :: more) = Escape.read cs := by
  cases hread : Escape.read cs with
  | endOfInput => exact absurd (Escape.eq_nil_of_endOfInput hread) h
  | lineBreak =>
      obtain ⟨c, cs, rfl⟩ := List.exists_cons_of_ne_nil h
      exact Escape.read_lineBreak _ (Escape.isLineBreak_of_read hread)
  | escape e =>
      obtain ⟨⟨rest, rfl⟩, -⟩ := Escape.written_of_read hread
      rw [List.append_assoc, Escape.read_append_iff hread]
      intro c hc
      cases rest with
      | nil =>
          obtain rfl : ';' = c := Option.some.inj hc
          have hhex : isHexDigit ';' = false := by decide
          simp [goesOn_of_not_isBlank e (by decide : isBlank ';' = false), hhex]
      | cons d rest => exact (Escape.read_append_iff hread (d :: rest)).1 hread c hc

/-- What stands behind an escape. -/
theorem Escape.drop_semicolon {cs : List Char} {e : Escape} (h : Escape.read cs = .escape e) :
    (cs ++ ';' :: more).drop e.length = cs.drop e.length ++ ';' :: more := by
  obtain ⟨⟨rest, rfl⟩, -⟩ := Escape.written_of_read h
  refine List.drop_append_of_le_length ?_
  rw [List.length_append]
  exact Nat.le_add_right _ _

end Text

namespace Lexeme

variable (more : List Char)

theorem escapeAhead_semicolon {cs : List Char} (h : cs ≠ ['\\']) :
    escapeAhead (cs ++ ';' :: more) = escapeAhead cs := by
  cases cs with
  | nil => rfl
  | cons c cs =>
      by_cases hc : c = '\\'
      · subst hc
        have hne : cs ≠ [] := by
          rintro rfl
          exact h rfl
        simp only [List.cons_append, escapeAhead, Escape.read_semicolon more hne]
      · rw [List.cons_append, escapeAhead_of_ne _ hc, escapeAhead_of_ne _ hc]

theorem nameStartAhead_semicolon (cs : List Char) :
    nameStartAhead (cs ++ ';' :: more) = nameStartAhead cs :=
  any_head?_semicolon more rfl cs

theorem digitAhead_semicolon (cs : List Char) :
    digitAhead (cs ++ ';' :: more) = digitAhead cs :=
  any_head?_semicolon more rfl cs

theorem fractionAhead_semicolon (cs : List Char) :
    fractionAhead (cs ++ ';' :: more) = fractionAhead cs := by
  cases cs with
  | nil => rfl
  | cons c cs =>
      by_cases hc : c = '.'
      · subst hc
        exact digitAhead_semicolon more cs
      · simp [fractionAhead, hc]

theorem identAhead_semicolon {c : Char} {cs : List Char} (hback : c = '\\' → cs ≠ [])
    (hhyphen : c = '-' → cs ≠ ['\\']) : identAhead c (cs ++ ';' :: more) = identAhead c cs := by
  have hne : c :: cs ≠ ['\\'] := by
    rintro ⟨rfl, rfl⟩
    exact hback rfl rfl
  have hescape : escapeAhead (c :: (cs ++ ';' :: more)) = escapeAhead (c :: cs) :=
    escapeAhead_semicolon more hne
  rw [identAhead, identAhead, hescape, nameStartAhead_semicolon]
  by_cases hc : c = '-'
  · rw [escapeAhead_semicolon more (hhyphen hc)]
  · simp only [beq_eq_false_iff_ne.2 hc, Bool.false_and]

theorem atKeywordAhead_semicolon {cs : List Char} (h : cs ≠ ['\\']) (h' : cs ≠ ['-', '\\']) :
    atKeywordAhead (cs ++ ';' :: more) = atKeywordAhead cs := by
  rw [atKeywordAhead, atKeywordAhead, nameStartAhead_semicolon, escapeAhead_semicolon more h,
    head?_semicolon more (by decide)]
  cases cs with
  | nil => rfl
  | cons c cs =>
      by_cases hc : c = '-'
      · subst hc
        have hne : cs ≠ ['\\'] := fun hcs => h' (by rw [hcs])
        rw [List.cons_append, List.tail_cons, List.tail_cons, nameStartAhead_semicolon,
          escapeAhead_semicolon more hne]
      · have hhead : ((c :: cs).head? == some '-') = false := by simpa using hc
        simp only [hhead, Bool.false_and]

theorem nameAhead_semicolon {cs : List Char} (h : cs ≠ ['\\']) :
    nameAhead (cs ++ ';' :: more) = nameAhead cs := by
  rw [nameAhead, nameAhead, any_head?_semicolon more rfl, escapeAhead_semicolon more h]

theorem numberAhead_semicolon (c : Char) (cs : List Char) :
    numberAhead c (cs ++ ';' :: more) = numberAhead c cs := by
  rw [numberAhead, numberAhead, digitAhead_semicolon, fractionAhead_semicolon]

theorem rangeAhead_semicolon (cs : List Char) :
    rangeAhead (cs ++ ';' :: more) = rangeAhead cs := by
  match cs with
  | [] => rfl
  | [c] =>
      by_cases hc : c = '+'
      · subst hc
        rfl
      · simp [rangeAhead, hc]
  | c :: d :: cs =>
      by_cases hc : c = '+'
      · subst hc
        rfl
      · simp [rangeAhead, hc]

theorem importantAhead_semicolon (cs : List Char) :
    importantAhead (cs ++ ';' :: more) = importantAhead cs := by
  rw [importantAhead, importantAhead, takeWhile_semicolon more rfl]
  simp only [drop_takeWhile_semicolon]
  rw [startsWord_semicolon more rfl]

theorem operator_semicolon (c : Char) (cs : List Char) :
    operator c (cs ++ ';' :: more) = operator c cs := by
  unfold operator
  rw [head?_semicolon more (by decide)]

theorem length_le_of_startsWord {word cs : List Char} (h : startsWord word cs = true) :
    word.length ≤ cs.length := by
  obtain ⟨raw, after, rfl, hraw⟩ := exists_of_startsWord h
  have hlength : raw.length = word.length := by simpa using congrArg List.length hraw
  rw [List.length_append, hlength]
  exact Nat.le_add_right _ _

/-- A word goes on to the semicolon only if it is all that is left. -/
theorem wordAhead_semicolon {first c : Char} {rest cs : List Char}
    (hrest : (rest.any fun a => sameLetter a ';') = false)
    (h : wordAhead first rest c cs = true → cs.drop rest.length ≠ []) :
    wordAhead first rest c (cs ++ ';' :: more) = wordAhead first rest c cs := by
  unfold wordAhead at h ⊢
  rw [startsWord_semicolon more hrest]
  cases hword : startsWord rest cs with
  | false => simp
  | true =>
      rw [List.drop_append_of_le_length (length_le_of_startsWord hword)]
      cases hbehind : cs.drop rest.length with
      | nil =>
          cases hletter : sameLetter c first with
          | false => rfl
          | true =>
              rw [hletter, hword, hbehind] at h
              exact absurd rfl (h rfl)
      | cons d ds => rfl

end Lexeme

namespace Piece

/-! ## Names -/

variable (more : List Char)

theorem escape?_semicolon (literal : Char → Bool) {cs : List Char} (h : cs ≠ []) :
    escape? literal (cs ++ ';' :: more) = escape? literal cs := by
  rw [escape?, escape?, Escape.read_semicolon more h]

theorem first_semicolon (literal : Char → Bool) {cs : List Char} (h : cs ≠ ['\\']) :
    first literal (cs ++ ';' :: more) = first literal cs := by
  cases cs with
  | nil => rfl
  | cons c cs =>
      simp only [List.cons_append, first]
      split
      · next hc =>
          rw [beq_iff_eq] at hc
          subst hc
          rw [escape?_semicolon more literal fun hcs => h (by rw [hcs])]
      · rfl

/-- **A run of characters ends in front of a semicolon**, unless it ends in front of a backslash
that would escape it. -/
theorem run_semicolon {accept : Char → Bool} (haccept : accept ';' = false) {cs : List Char}
    (h : cs.drop (run accept cs).length ≠ ['\\']) :
    run accept (cs ++ ';' :: more) = run accept cs := by
  fun_induction run accept cs with
  | case1 =>
      rw [List.nil_append, run]
      simp [haccept]
  | case2 c cs hback e hread ih =>
      have hne : cs ≠ [] := by
        rintro rfl
        cases hread
      obtain rfl := beq_iff_eq.1 hback
      have hread' : Escape.read (cs ++ ';' :: more) = .escape e := by
        rw [Escape.read_semicolon more hne, hread]
      rw [List.cons_append, run_escape accept hread', Escape.drop_semicolon more hread, ih]
      rw [length_append, ← List.drop_drop] at h
      exact h
  | case3 c cs hback hread =>
      -- The run stopped at a backslash with nothing behind it.
      obtain rfl := beq_iff_eq.1 hback
      obtain rfl := Escape.eq_nil_of_endOfInput hread
      exact absurd rfl h
  | case4 c cs hback hread =>
      have hne : cs ≠ [] := by
        rintro rfl
        cases hread
      rw [List.cons_append, run, if_pos hback, Escape.read_semicolon more hne, hread]
  | case5 c cs hback hc ih =>
      rw [length_append, ← List.drop_drop] at h
      rw [List.cons_append, run, if_neg hback, if_pos hc, ih h]
  | case6 c cs hback hc => rw [List.cons_append, run, if_neg hback, if_neg hc]

theorem name_semicolon {cs : List Char} (h : cs.drop (name cs).length ≠ ['\\']) :
    name (cs ++ ';' :: more) = name cs := by
  have hfirst : cs ≠ ['\\'] := by
    rintro rfl
    revert h
    decide +kernel
  have hle := (first_takes nameClass_isNameStart cs).length_le
  rw [name, length_append, ← List.drop_drop] at h
  simp only [name]
  rw [first_semicolon more isNameStart hfirst, List.drop_append_of_le_length hle,
    run_semicolon more rfl h]

end Piece

namespace Lexeme

variable (more : List Char)

theorem identStart_semicolon {c : Char} {cs : List Char} (hback : c = '\\' → cs ≠ [])
    (hhyphen : c = '-' → cs ≠ ['\\']) :
    identStart c (cs ++ ';' :: more) = identStart c cs := by
  unfold identStart
  split
  · next hc => rw [Piece.escape?_semicolon more isNameStart (hback (beq_iff_eq.1 hc))]
  · split
    · next hc => rw [Piece.first_semicolon more isNameStart (hhyphen (beq_iff_eq.1 hc))]
    · rfl

theorem ident_semicolon {c : Char} {cs : List Char} (hback : c = '\\' → cs ≠ [])
    (hhyphen : c = '-' → cs ≠ ['\\']) (hident : identAhead c cs = true)
    (h : (c :: cs).drop (ident c cs).piece.length ≠ ['\\']) :
    ident c (cs ++ ';' :: more) = ident c cs := by
  let name := identStart c cs ++ Piece.run isNameChar ((c :: cs).drop (identStart c cs).length)
  -- Before a backslash that is left over no parenthesis was taken, so the name leaves it as well.
  have hname : (c :: cs).drop name.length ≠ ['\\'] := by
    intro hback
    apply h
    simp only [ident, name] at hback ⊢
    rw [hback]
    exact hback
  have hle : (identStart c cs).length ≤ (c :: cs).length := (identStart_takes hident).1.length_le
  have hrun : Piece.run isNameChar ((c :: (cs ++ ';' :: more)).drop (identStart c cs).length) =
      Piece.run isNameChar ((c :: cs).drop (identStart c cs).length) := by
    rw [← List.cons_append, List.drop_append_of_le_length hle]
    refine Piece.run_semicolon more rfl ?_
    rw [List.drop_drop]
    exact hname
  have hle' : name.length ≤ (c :: cs).length :=
    (Piece.TakesFrom.append (identStart_takes hident).1
      (Piece.run_takes nameClass_isNameChar _)).length_le
  have hdrop : (c :: (cs ++ ';' :: more)).drop name.length =
      (c :: cs).drop name.length ++ ';' :: more :=
    List.drop_append_of_le_length hle'
  simp only [ident, identStart_semicolon more hback hhyphen, hrun]
  simp only [name] at hdrop
  rw [hdrop]
  -- The character behind the name decides whether this is a function.
  cases (c :: cs).drop (identStart c cs ++
      Piece.run isNameChar ((c :: cs).drop (identStart c cs).length)).length with
  | nil => rfl
  | cons d ds =>
      by_cases hd : d = '('
      · subst hd
        rfl
      · simp [hd]

theorem atKeyword_semicolon {cs : List Char}
    (h : ('@' :: cs).drop (atKeyword cs).piece.length ≠ ['\\']) :
    atKeyword (cs ++ ';' :: more) = atKeyword cs := by
  have hplain : ∀ {cs : List Char}, (cs.head? == some '-') = false →
      atKeyword cs = ⟨.atKeyword, Piece.ofChar '@' ++ Piece.name cs⟩ := by
    intro cs hcs
    unfold atKeyword
    split
    · cases hcs
    · rfl
  cases hhead : cs.head? == some '-' with
  | true =>
      obtain ⟨cs, rfl⟩ := List.head?_eq_some_iff.1 (beq_iff_eq.1 hhead)
      rw [atKeyword, Piece.length_append, Nat.add_comm] at h
      rw [List.cons_append, atKeyword, atKeyword, Piece.name_semicolon more h]
  | false =>
      have hhead' : ((cs ++ ';' :: more).head? == some '-') = false := by
        rw [head?_semicolon more (by decide), hhead]
      rw [hplain hhead, Piece.length_append, Nat.add_comm] at h
      rw [hplain hhead, hplain hhead', Piece.name_semicolon more h]

theorem digits_semicolon (real : Bool) (cs : List Char) :
    digits real (cs ++ ';' :: more) = digits real cs := by
  induction cs generalizing real with
  | nil => simp [digits]
  | cons c cs ih => simp only [List.cons_append, digits, ih, digitAhead_semicolon]

theorem unit_semicolon {cs : List Char} (h : cs.drop ((unit cs).elim 0 Piece.length) ≠ ['\\']) :
    unit (cs ++ ';' :: more) = unit cs := by
  have hescape : escapeAhead (cs ++ ';' :: more) = escapeAhead cs := by
    refine escapeAhead_semicolon more ?_
    rintro rfl
    exact h rfl
  cases cs with
  | nil => rfl
  | cons c cs =>
      rw [List.cons_append] at hescape
      have hname : (c :: cs).drop (Piece.name (c :: cs)).length ≠ ['\\'] →
          Piece.name (c :: (cs ++ ';' :: more)) = Piece.name (c :: cs) :=
        Piece.name_semicolon more
      simp only [unit] at h
      -- The first character is there already, so the same branch is taken.
      simp only [List.cons_append, unit, hescape]
      split
      · rfl
      · next hpercent =>
          rw [if_neg hpercent] at h
          split
          · next hstart =>
              rw [if_pos hstart] at h
              rw [hname h]
          · next hstart =>
              rw [if_neg hstart] at h
              split
              · next hback =>
                  rw [if_pos hback] at h
                  have hlength : (Piece.stepBack 1 ++ Piece.name (c :: cs)).length =
                      (Piece.name (c :: cs)).length := Nat.zero_add _
                  rw [Option.elim_some, hlength] at h
                  rw [hname h]
              · rfl

theorem number_semicolon {c : Char} {cs : List Char}
    (h : (c :: cs).drop (number c cs).piece.length ≠ ['\\']) :
    number c (cs ++ ';' :: more) = number c cs := by
  obtain ⟨⟨rest, hrest⟩, -⟩ := digits_prefix (c == '.') cs
  have hle : (digits (c == '.') cs).1.length ≤ cs.length := by
    conv => rhs; rw [hrest]
    rw [List.length_append]
    exact Nat.le_add_right _ _
  have hunit : unit (cs.drop (digits (c == '.') cs).1.length ++ ';' :: more) =
      unit (cs.drop (digits (c == '.') cs).1.length) := by
    -- What the number leaves is what its unit leaves, or what the digits leave without one.
    refine unit_semicolon more ?_
    have hdrop : ∀ n, (c :: cs).drop ((c :: (digits (c == '.') cs).1).length + n) =
        (cs.drop (digits (c == '.') cs).1.length).drop n := by
      intro n
      rw [← List.drop_drop, List.length_cons, List.drop_succ_cons]
    simp only [number] at h
    split at h
    · next suffix hsuffix =>
        rw [hsuffix, Option.elim_some, ← hdrop]
        exact h
    · next hnone =>
        rw [hnone, Option.elim_none, ← hdrop]
        refine fun hback => h ?_
        rw [← hback, Piece.length_append]
        congr 2
        split <;> rfl
  simp only [number, digits_semicolon, List.drop_append_of_le_length hle, hunit,
    head?_semicolon more (by decide : '\\' ≠ ';')]

theorem rangeBody_semicolon (seen : List Char) (count : Nat) (cs : List Char) :
    rangeBody seen count (cs ++ ';' :: more) = rangeBody seen count cs := by
  induction cs generalizing seen count with
  | nil => rfl
  | cons c cs ih => simp only [List.cons_append, rangeBody, ih]

theorem range_semicolon {cs : List Char} (h : rangeAhead cs = true) :
    range (cs ++ ';' :: more) = range cs := by
  unfold rangeAhead at h
  split at h
  · next c cs =>
      have hbody := rangeBody_semicolon more ['+', 'U'] 0 (c :: cs)
      exact congrArg (fun p => (⟨.unicodeRange, Piece.ofText ['U', '+'] ++ p⟩ : Lexeme)) hbody
  · cases h

/-! ## Comments, strings and addresses -/

theorem commentBody_semicolon {cs : List Char} (h : (commentBody cs).Faultless) :
    commentBody (cs ++ ';' :: more) = commentBody cs := by
  induction cs with
  | nil => exact absurd h (Piece.not_faultless_fault _ _ _)
  | cons c cs ih =>
      simp only [List.cons_append, commentBody, head?_semicolon more (by decide : '/' ≠ ';')] at h ⊢
      split at h
      · next hend => rw [if_pos hend, if_pos hend]
      · next hend => rw [if_neg hend, if_neg hend, ih (Piece.faultless_append.1 h).2]

/-- The semicolon is not the second half of a line break. -/
theorem notPair_semicolon {d : Char} {cs : List Char}
    (h : ∀ rest, d = '\r' → cs = '\n' :: rest → False) :
    ∀ rest, d = '\r' → cs ++ ';' :: more = '\n' :: rest → False := by
  intro rest hd hcs
  cases cs with
  | nil => cases hcs
  | cons e cs => exact h cs hd (by rw [(List.cons.inj hcs).1])

theorem stringBody_semicolon {quote : Char} {cs : List Char} (h : (stringBody quote cs).Faultless) :
    stringBody quote (cs ++ ';' :: more) = stringBody quote cs := by
  fun_induction stringBody quote cs with
  | case1 => exact absurd h (Piece.not_faultless_fault _ _ _)
  | case2 c cs hbreak => exact Bool.noConfusion (h _ (List.mem_singleton_self _))
  | case3 c hbreak hback =>
      exact absurd (Piece.faultless_append.1 h).2 (Piece.not_faultless_fault _ _ _)
  | case4 c hbreak hback cs ih =>
      have hrest := ih (Piece.faultless_append.1 h).2
      simp only [List.cons_append]
      rw [stringBody.eq_def]
      simp [hbreak, hback, hrest]
  | case5 c hbreak hback d cs hpair hbreak' ih | case6 c hbreak hback d cs hpair hbreak' ih =>
      have hrest := ih (Piece.faultless_append.1 h).2
      -- Which of the two readings of a line break applies is asked of the rest of the text.
      have hpair' := notPair_semicolon more hpair
      simp only [List.cons_append]
      rw [stringBody.eq_def]
      simp [hbreak, hback, hbreak', hrest]
  | case7 c cs hbreak hback hquote =>
      rw [List.cons_append, stringBody.eq_def]
      simp [hbreak, hback, hquote]
  | case8 c cs hbreak hback hquote ih =>
      have hrest := ih (Piece.faultless_append.1 h).2
      rw [List.cons_append, stringBody.eq_def]
      simp [hbreak, hback, hquote, hrest]

theorem bareAddress_semicolon {cs : List Char} (h : (bareAddress cs).Faultless) :
    bareAddress (cs ++ ';' :: more) = bareAddress cs := by
  fun_induction bareAddress cs with
  | case1 => exact absurd h (Piece.not_faultless_fault _ _ _)
  | case2 c cs hclose => rw [List.cons_append, bareAddress.eq_def]; simp [hclose]
  | case3 c hclose hback =>
      exact absurd (Piece.faultless_append.1 h).2 (Piece.not_faultless_fault _ _ _)
  | case4 c hclose hback d cs ih =>
      have hrest := ih (Piece.faultless_append.1 h).2
      rw [List.cons_append, List.cons_append, bareAddress.eq_def]
      simp [hclose, hback, hrest]
  | case5 c cs hclose hback ih =>
      have hrest := ih (Piece.faultless_append.1 h).2
      rw [List.cons_append, bareAddress.eq_def]
      simp [hclose, hback, hrest]

theorem quotedAddress_semicolon {quote : Char} {cs : List Char}
    (h : (quotedAddress quote cs).Faultless) :
    quotedAddress quote (cs ++ ';' :: more) = quotedAddress quote cs := by
  obtain ⟨hfront, hclose⟩ := Piece.faultless_append.1 h
  have hbody := (Piece.faultless_append.1 hfront).1
  obtain ⟨body, rest, hcs, hreads⟩ := stringBody_reads hbody
  have hle : (stringBody quote cs).length ≤ cs.length := by
    rw [hreads.length]
    conv => rhs; rw [hcs]
    simp
  simp only [quotedAddress, stringBody_semicolon more hbody, List.drop_append_of_le_length hle,
    takeWhile_semicolon more (by decide : isBlank ';' = false), drop_takeWhile_semicolon]
  rw [hreads.notes] at hclose ⊢
  generalize (cs.drop (stringBody quote cs).length).drop
    ((cs.drop (stringBody quote cs).length).takeWhile isBlank).length = behind at hclose ⊢
  cases behind with
  | nil => exact absurd hclose (Piece.not_faultless_fault _ _ _)
  | cons c behind => rfl

theorem address_semicolon {cs : List Char} (h : (address cs).Faultless) :
    address (cs ++ ';' :: more) = address cs := by
  unfold address at h ⊢
  simp only [takeWhile_semicolon more (by decide : isBlank ';' = false), drop_takeWhile_semicolon]
    at h ⊢
  generalize cs.drop (cs.takeWhile isBlank).length = behind at h ⊢
  cases behind with
  | nil => exact absurd (Piece.faultless_append.1 h).2 (Piece.not_faultless_fault _ _ _)
  | cons c rest =>
      simp only [List.cons_append] at h ⊢
      split at h
      · next hquote =>
          rw [if_pos hquote, if_pos hquote,
            quotedAddress_semicolon more (Piece.faultless_append.1 h).2]
      · next hquote =>
          have hclean : (bareAddress (c :: rest)).Faultless := (Piece.faultless_append.1 h).2
          rw [if_neg hquote, if_neg hquote, ← bareAddress_semicolon more hclean]
          rfl

theorem uri_semicolon {cs : List Char} (hword : startsWord ['r', 'l', '('] cs = true)
    (h : (uri cs).Faultless) : uri (cs ++ ';' :: more) = uri cs := by
  have haddress : (address (cs.drop 3)).Faultless := (Piece.faultless_append.1 h).2
  have hdrop : (cs ++ ';' :: more).drop 3 = cs.drop 3 ++ ';' :: more :=
    List.drop_append_of_le_length (length_le_of_startsWord hword)
  rw [uri, uri, hdrop, address_semicolon more haddress]

/-! ## Every token -/

theorem probe_semicolon {c : Char} {cs : List Char} (h : c = '\\' → cs ≠ []) :
    probe c (cs ++ ';' :: more) = probe c cs := by
  unfold probe
  rw [head?_semicolon more (by decide)]
  split
  · next hback =>
      obtain ⟨d, cs, rfl⟩ := List.exists_cons_of_ne_nil (h (beq_iff_eq.1 hback))
      rfl
  · split
    · rfl
    · split
      · match cs with
        | [] => rfl
        | [d] => by_cases hd : d = '\\' <;> by_cases hhyphen : d = '-' <;> simp [hd, hhyphen]
        | d :: e :: cs =>
            by_cases hd : d = '\\' <;> by_cases hhyphen : d = '-' <;> by_cases he : e = '\\' <;>
              simp [hd, hhyphen, he]
      · rfl

/-- A choice between lexemes is the same if its sides are, each as far as it is taken and has the
property. -/
theorem choose_eq {P : Lexeme → Prop} {b : Prop} [Decidable b] {x x' y y' : Lexeme}
    (hx : b → P x → x' = x) (hy : ¬ b → P y → y' = y) (h : P (if b then x else y)) :
    (if b then x' else y') = if b then x else y := by
  split
  · next hb =>
      rw [if_pos hb] at h
      exact hx hb h
  · next hb =>
      rw [if_neg hb] at h
      exact hy hb h

/-- The lexeme is faultless and leaves no single backslash at the end of the text. -/
structure Clean (text : List Char) (l : Lexeme) : Prop where
  faultless : l.Faultless
  rest : text.drop l.piece.length ≠ ['\\']

/-- What stands behind the first character tells the same tokens apart before a semicolon. -/
structure Decided (c : Char) (cs : List Char) : Prop where
  back : c = '\\' → cs ≠ []
  sign : c ∈ ['-', '#', '.', '@'] → cs ≠ ['\\']
  at_hyphen : c = '@' → cs ≠ ['-', '\\']
  only : wordAhead 'o' ['n', 'l', 'y'] c cs = true → cs.drop 3 ≠ []
  not : wordAhead 'n' ['o', 't'] c cs = true → cs.drop 2 ≠ []
  and : wordAhead 'a' ['n', 'd'] c cs = true → cs.drop 2 ≠ []

/-- What is only asked behind one character may be asked with it. -/
theorem and_congr_of_eq {c d : Char} {p q : Bool} (h : c = d → p = q) :
    (c == d && p) = (c == d && q) := by
  by_cases hc : c = d
  · rw [h hc]
  · rw [beq_eq_false_iff_ne.2 hc, Bool.false_and, Bool.false_and]

theorem readSymbol_semicolon {c : Char} {cs : List Char} (hc : Decided c cs)
    (h : Clean (c :: cs) (readSymbol c cs)) :
    readSymbol c (cs ++ ';' :: more) = readSymbol c cs := by
  have hhash : (c == '#' && nameAhead (cs ++ ';' :: more)) = (c == '#' && nameAhead cs) :=
    and_congr_of_eq fun hsign => nameAhead_semicolon more (hc.sign (by simp [hsign]))
  have hpoint : (c == '.' && nameAhead (cs ++ ';' :: more)) = (c == '.' && nameAhead cs) :=
    and_congr_of_eq fun hsign => nameAhead_semicolon more (hc.sign (by simp [hsign]))
  unfold readSymbol at h ⊢
  rw [startsWord_semicolon more rfl, head?_semicolon more (by decide), hhash, hpoint,
    importantAhead_semicolon, operator_semicolon]
  -- All tests have the same answers now; the branches follow one by one.
  refine choose_eq (fun _ _ => rfl) (fun _ => ?_) h
  refine choose_eq (fun hcomment hclean => ?_) (fun _ => ?_)
  · obtain ⟨tail, rfl⟩ :=
      List.head?_eq_some_iff.1 (beq_iff_eq.1 (Bool.and_eq_true_iff.1 hcomment).2)
    have hbody : commentBody (tail ++ ';' :: more) = commentBody tail :=
      commentBody_semicolon more (Piece.faultless_append.1 hclean.faultless).2
    rw [List.cons_append, List.tail_cons, List.tail_cons, hbody]
  refine choose_eq (fun _ hclean => ?_) (fun _ => ?_)
  · rw [stringBody_semicolon more (Piece.faultless_append.1 hclean.faultless).2]
  refine choose_eq (fun _ hclean => ?_) (fun _ => ?_)
  · have hrest : cs.drop (Piece.run isNameChar cs).length ≠ ['\\'] := by
      have hdrop := hclean.rest
      rwa [hashName, Piece.length_append, Nat.add_comm] at hdrop
    rw [hashName, hashName, Piece.run_semicolon more rfl hrest]
  refine choose_eq (fun _ hclean => ?_) (fun _ _ => rfl)
  have hrest : cs.drop (Piece.name cs).length ≠ ['\\'] := by
    have hdrop := hclean.rest
    rwa [className, Piece.length_append, Nat.add_comm] at hdrop
  rw [className, className, Piece.name_semicolon more hrest]

theorem readBody_semicolon {c : Char} {cs : List Char} (hc : Decided c cs)
    (h : Clean (c :: cs) (readBody c cs)) :
    readBody c (cs ++ ';' :: more) = readBody c cs := by
  have hat : (c == '@' && atKeywordAhead (cs ++ ';' :: more)) = (c == '@' && atKeywordAhead cs) :=
    and_congr_of_eq fun hsign =>
      atKeywordAhead_semicolon more (hc.sign (by simp [hsign])) (hc.at_hyphen hsign)
  have hident : identAhead c (cs ++ ';' :: more) = identAhead c cs :=
    identAhead_semicolon more hc.back fun hsign => hc.sign (by simp [hsign])
  have htake (first : Char) (rest : List Char) (hword : wordAhead first rest c cs = true) :
      (cs ++ ';' :: more).take rest.length = cs.take rest.length := by
    have hrest := (Bool.and_eq_true_iff.1 (Bool.and_eq_true_iff.1 hword).1).2
    exact List.take_append_of_le_length (length_le_of_startsWord hrest)
  unfold readBody at h ⊢
  -- First the conditions, then the branches in the order in which they are tried.
  rw [takeWhile_semicolon more (by decide), startsWord_semicolon more rfl,
    wordAhead_semicolon more rfl hc.only, wordAhead_semicolon more rfl hc.not,
    wordAhead_semicolon more rfl hc.and, startsWord_semicolon more rfl,
    rangeAhead_semicolon, hident, hat, numberAhead_semicolon]
  refine choose_eq (fun _ _ => rfl) (fun _ => ?_) h
  refine choose_eq (fun _ _ => rfl) (fun _ => ?_)
  refine choose_eq (fun hword _ => congrArg (fun cs => fixed .only (c :: cs)) (htake _ _ hword))
    (fun _ => ?_)
  refine choose_eq (fun hword _ => congrArg (fun cs => fixed .not (c :: cs)) (htake _ _ hword))
    (fun _ => ?_)
  refine choose_eq (fun hword _ => congrArg (fun cs => fixed .and (c :: cs)) (htake _ _ hword))
    (fun _ => ?_)
  refine choose_eq (fun huri hclean => ?_) (fun _ => ?_)
  · exact uri_semicolon more (Bool.and_eq_true_iff.1 huri).2 hclean.faultless
  refine choose_eq (fun hrange _ => ?_) (fun _ => ?_)
  · exact range_semicolon more (Bool.and_eq_true_iff.1 hrange).2
  refine choose_eq (fun hident hclean => ?_) (fun _ => ?_)
  · exact ident_semicolon more hc.back (fun hsign => hc.sign (by simp [hsign])) hident hclean.rest
  refine choose_eq (fun hkeyword hclean => ?_) (fun _ => ?_)
  · obtain rfl : c = '@' := by simpa using (Bool.and_eq_true_iff.1 hkeyword).1
    exact atKeyword_semicolon more hclean.rest
  refine choose_eq (fun _ hclean => ?_) (fun _ hclean => ?_)
  · exact number_semicolon more hclean.rest
  · exact readSymbol_semicolon more hc hclean

/-- A lexeme that may stand last in a text that goes on with a semicolon: it is faultless, the
characters that it leaves do not end in a backslash by themselves or behind a hyphen, and it is no
word of media queries at the end. -/
structure Stable (text : List Char) (l : Lexeme) : Prop extends Clean text l where
  hyphen : text.drop l.piece.length ≠ ['-', '\\']
  word : text.drop l.piece.length = [] → l.kind ∉ [.only, .not, .and]

/-- A word that is the last token would go on to the end of the text. -/
theorem Stable.drop_ne_nil {c : Char} {cs : List Char} (h : Stable (c :: cs) (read c cs))
    (kind : TokenKind) (n : Nat) (hbody : readBody c cs = fixed kind (c :: cs.take n))
    (hkind : kind ∈ [.only, .not, .and]) : cs.drop n ≠ [] := by
  intro hnil
  have hlength : (read c cs).piece.length = (c :: cs).length := by
    have hread : (read c cs).piece.length = (readBody c cs).piece.length := rfl
    rw [hread, hbody, List.take_of_length_le (List.drop_eq_nil_iff.1 hnil)]
    rfl
  have hkind' : (read c cs).kind = kind := by
    have hread : (read c cs).kind = (readBody c cs).kind := rfl
    rw [hread, hbody]
    rfl
  have hrest := h.word (by rw [hlength, List.drop_length])
  rw [hkind'] at hrest
  exact hrest hkind

theorem beginsLike_of_wordAhead {first c : Char} {rest cs : List Char}
    (h : wordAhead first rest c cs = true) (hfirst : isWeightless first = false)
    (hhyphen : first ≠ '-') : BeginsLike first c := by
  simp only [wordAhead, Bool.and_eq_true] at h
  rw [sameLetter_comm] at h
  exact beginsLike_of_sameLetter h.1.1 hfirst hhyphen

theorem Stable.decided {c : Char} {cs : List Char} (h : Stable (c :: cs) (read c cs)) :
    Decided c cs where
  back := by
    rintro rfl rfl
    exact Bool.noConfusion (h.faultless _ (List.mem_cons_self ..))
  sign := by
    rintro hc rfl
    simp only [List.mem_cons, List.not_mem_nil, or_false] at hc
    rcases hc with rfl | rfl | rfl | rfl <;> exact h.rest (by decide +kernel)
  at_hyphen := by
    rintro rfl rfl
    exact h.hyphen (by decide +kernel)
  only hword := by
    have hbegin := beginsLike_of_wordAhead hword (by decide) (by decide)
    refine h.drop_ne_nil .only 3 ?_ (by simp)
    simp only [readBody, hbegin.blank, hbegin.hyphen, hword, Bool.false_and, Bool.false_eq_true,
      if_false, if_true]
  not hword := by
    have hbegin := beginsLike_of_wordAhead hword (by decide) (by decide)
    refine h.drop_ne_nil .not 2 ?_ (by simp)
    simp only [readBody, hbegin.blank, hbegin.hyphen, hbegin.other 'o' _ _ rfl, hword,
      Bool.false_and, Bool.false_eq_true, if_false, if_true]
  and hword := by
    have hbegin := beginsLike_of_wordAhead hword (by decide) (by decide)
    refine h.drop_ne_nil .and 2 ?_ (by simp)
    simp only [readBody, hbegin.blank, hbegin.hyphen, hbegin.other 'o' _ _ rfl,
      hbegin.other 'n' _ _ rfl, hword, Bool.false_and, Bool.false_eq_true, if_false, if_true]

/-- **Reading stops at a semicolon.** -/
theorem read_semicolon_append {c : Char} {cs : List Char} (h : Stable (c :: cs) (read c cs)) :
    read c (cs ++ ';' :: more) = read c cs := by
  have hbody : Clean (c :: cs) (readBody c cs) :=
    ⟨fun n hn => h.faultless n (List.mem_append_right _ hn), h.rest⟩
  rw [read, read, readBody_semicolon more h.decided hbody, probe_semicolon more h.decided.back]

end Lexeme

end EpubStyle
