import EpubStyle.Proofs.Rescan.Names

/-!
# Strings and addresses read from their own text

A string between apostrophes is taken again if no apostrophe in it is exposed, that is, without a
backslash before it (`exposed`, `Lexeme.stringBody_again`). An address is taken again if its text
stands by itself (`AddressStands`): if it is quoted, no apostrophe of it is exposed, and if it is
not, no backslash at its end hides the parenthesis. That is needed as well
(`Lexeme.address_again`, `Lexeme.addressStands_of_again`).

It is not for granted. A quoted address gets apostrophes for quotation marks, whatever it holds, and
the blanks at the end of a bare one are dropped even where a backslash stands before them.
-/

set_option autoImplicit false

namespace EpubStyle

open Text

/-! ## What a backslash hides -/

/-- Characters that stand for themselves go before others. -/
theorem Piece.ofText_append (front cs : List Char) (n : Nat) :
    ofText front ++ ⟨cs, cs.length + n, []⟩ = ⟨front ++ cs, (front ++ cs).length + n, []⟩ := by
  simp only [List.length_append, Nat.add_assoc]
  rfl

theorem Piece.append_silent (p : Piece) (n : Nat) :
    p ++ silent n = ⟨p.text, p.length + n, p.notes⟩ := by
  obtain ⟨text, length, notes⟩ := p
  have happend : (⟨text, length, notes⟩ : Piece) ++ silent n =
      ⟨text ++ [], length + n, notes ++ []⟩ := rfl
  rw [happend, List.append_nil, List.append_nil]

/-- The characters of a text that no backslash hides. A backslash at the end hides none and is one
of them. -/
def exposed : List Char → List Char
  | [] => []
  | '\\' :: _ :: cs => exposed cs
  | c :: cs => c :: exposed cs

theorem exposed_cons {c : Char} (cs : List Char) (h : c ≠ '\\') :
    exposed (c :: cs) = c :: exposed cs := by
  cases cs with
  | nil => simp [exposed]
  | cons d cs => simp [exposed, h]

/-- Without a backslash every character is exposed. -/
theorem exposed_of_not_mem {cs : List Char} (h : '\\' ∉ cs) : exposed cs = cs := by
  induction cs with
  | nil => rfl
  | cons c cs ih =>
      rw [List.mem_cons, not_or] at h
      rw [exposed_cons cs (Ne.symm h.1), ih h.2]

/-- A backslash that hides nothing ends the text. -/
theorem eq_nil_of_not_pair {cs : List Char}
    (h : ∀ d ds, '\\' = '\\' → cs = d :: ds → False) : cs = [] := by
  cases cs with
  | nil => rfl
  | cons d cs => exact absurd rfl (h d cs rfl)

/-- What is exposed stays so in front of other characters, but for a backslash. -/
theorem mem_exposed_append {c : Char} {cs : List Char} (more : List Char) (hc : c ≠ '\\')
    (h : c ∈ exposed cs) : c ∈ exposed (cs ++ more) := by
  fun_induction exposed cs with
  | case1 => cases h
  | case2 d cs ih => exact ih h
  | case3 d cs hpair ih =>
      by_cases hd : d = '\\'
      · subst hd
        obtain rfl := eq_nil_of_not_pair hpair
        simp [exposed, hc] at h
      · rw [List.cons_append, exposed_cons _ hd]
        rcases List.mem_cons.1 h with rfl | h
        · exact List.mem_cons_self ..
        · exact List.mem_cons_of_mem _ (ih h)

/-- The text of an address stands by itself between its parentheses. -/
def AddressStands (cs : List Char) : Prop :=
  if cs.head? = some '\x27' then '\x27' ∉ exposed cs.tail.dropLast else '\\' ∉ exposed cs

namespace Lexeme

/-! ## Strings -/

/-- What a string without faults holds. -/
theorem exposed_stringBody {quote : Char} {cs : List Char} (h : (stringBody quote cs).Faultless) :
    '\\' ∉ exposed (stringBody quote cs).text ∧
      quote ∉ exposed (stringBody quote cs).text ∧
      ∀ c ∈ (stringBody quote cs).text, isLineBreak c = false := by
  fun_induction stringBody quote cs with
  | case1 => exact absurd h (Piece.not_faultless_fault _ _ _)
  | case2 c cs hbreak => exact Bool.noConfusion (h _ (List.mem_singleton_self _))
  | case3 c hbreak hback =>
      exact absurd (Piece.faultless_append.1 h).2 (Piece.not_faultless_fault _ _ _)
  | case4 c hbreak hback cs ih => exact ih (Piece.faultless_append.1 h).2
  | case5 c hbreak hback d cs hne hd ih => exact ih (Piece.faultless_append.1 h).2
  -- What is escaped is not exposed, so only the text behind it counts.
  | case6 c hbreak hback d cs hne hd ih =>
      obtain rfl := beq_iff_eq.1 hback
      obtain ⟨hexposed, hend, hplain⟩ := ih (Piece.faultless_append.1 h).2
      refine ⟨hexposed, hend, ?_⟩
      have htext : ∀ p : Piece, (Piece.ofText ['\\', d] ++ p).text = '\\' :: d :: p.text :=
        fun _ => rfl
      rw [htext]
      exact List.forall_mem_cons.2 ⟨by decide,
        List.forall_mem_cons.2 ⟨by simpa using hd, hplain⟩⟩
  | case7 c cs hbreak hback hquote => simp [Piece.silent, exposed]
  | case8 c cs hbreak hback hquote ih =>
      obtain ⟨hexposed, hend, hplain⟩ := ih (Piece.faultless_append.1 h).2
      have hne : c ≠ '\\' := by simpa using hback
      have htext : ∀ p : Piece, (Piece.ofChar c ++ p).text = c :: p.text := fun _ => rfl
      rw [htext, exposed_cons _ hne]
      refine ⟨by simp [Ne.symm hne, hexposed], ?_, ?_⟩
      · exact List.not_mem_cons_of_ne_of_not_mem (Ne.symm (by simpa using hquote)) hend
      · exact List.forall_mem_cons.2 ⟨by simpa using hbreak, hplain⟩

theorem stringBody_close {quote : Char} (h : isQuote quote = true) (rest : List Char) :
    stringBody quote (quote :: rest) = Piece.silent 1 := by
  have hmarks : quote = '\x22' ∨ quote = '\x27' := by simpa [isQuote] using h
  rw [stringBody.eq_def]
  rcases hmarks with rfl | rfl <;> rfl

theorem stringBody_pair (quote : Char) {d : Char} (cs : List Char) (h : isLineBreak d = false) :
    stringBody quote ('\\' :: d :: cs) = Piece.ofText ['\\', d] ++ stringBody quote cs := by
  have hreturn : d ≠ '\r' := by
    rintro rfl
    cases h
  have hback : isLineBreak '\\' = false := by decide
  rw [stringBody.eq_def]
  simp [hreturn, h, hback]

theorem stringBody_char {quote c : Char} (cs : List Char) (hbreak : isLineBreak c = false)
    (hback : c ≠ '\\') (hquote : c ≠ quote) :
    stringBody quote (c :: cs) = Piece.ofChar c ++ stringBody quote cs := by
  rw [stringBody.eq_def]
  simp [hbreak, hback, hquote]

/-- **A string between quotation marks, read again.** -/
theorem stringBody_again {quote : Char} (hmark : isQuote quote = true) {cs : List Char}
    (hback : '\\' ∉ exposed cs) (hquote : quote ∉ exposed cs)
    (hbreak : ∀ c ∈ cs, isLineBreak c = false) (rest : List Char) :
    stringBody quote (cs ++ quote :: rest) = ⟨cs, cs.length + 1, []⟩ := by
  fun_induction exposed cs with
  | case1 => exact stringBody_close hmark rest
  | case2 d cs ih =>
      obtain ⟨-, hd, hcs⟩ := by simpa only [List.forall_mem_cons] using hbreak
      rw [List.cons_append, List.cons_append, stringBody_pair _ _ hd, ih hback hquote hcs]
      exact Piece.ofText_append _ _ _
  | case3 c cs hpair ih =>
      simp only [List.mem_cons, not_or] at hback hquote
      obtain ⟨hc, hcs⟩ := List.forall_mem_cons.1 hbreak
      rw [List.cons_append, stringBody_char _ hc (Ne.symm hback.1) (Ne.symm hquote.1),
        ih hback.2 hquote.2 hcs]
      exact Piece.ofText_append [c] cs _

/-! ## Addresses -/

/-- What an address without faults holds, if it is not quoted. -/
theorem exposed_bareAddress {cs : List Char} (h : (bareAddress cs).Faultless) :
    ')' ∉ exposed (bareAddress cs).text := by
  fun_induction bareAddress cs with
  | case1 => exact absurd h (Piece.not_faultless_fault _ _ _)
  | case2 c cs hclose => simp [Piece.silent, exposed]
  | case3 c hclose hback =>
      exact absurd (Piece.faultless_append.1 h).2 (Piece.not_faultless_fault _ _ _)
  | case4 c hclose hback d cs ih =>
      obtain rfl := beq_iff_eq.1 hback
      exact ih (Piece.faultless_append.1 h).2
  | case5 c cs hclose hback ih =>
      have hexposed := ih (Piece.faultless_append.1 h).2
      have htext : ∀ p : Piece, (Piece.ofChar c ++ p).text = c :: p.text := fun _ => rfl
      rw [beq_iff_eq] at hclose hback
      rw [htext, exposed_cons _ hback]
      simp [Ne.symm hclose, hexposed]

theorem bareAddress_close (rest : List Char) : bareAddress (')' :: rest) = Piece.silent 1 := by
  rw [bareAddress.eq_def]
  rfl

/-- **An address without quotation marks, read again.** -/
theorem bareAddress_again {cs : List Char} (hback : '\\' ∉ exposed cs) (hclose : ')' ∉ exposed cs)
    (rest : List Char) : bareAddress (cs ++ ')' :: rest) = ⟨cs, cs.length + 1, []⟩ := by
  fun_induction exposed cs with
  | case1 => exact bareAddress_close rest
  | case2 d cs ih =>
      simp only [List.cons_append, bareAddress, ih hback hclose]
      exact Piece.ofText_append _ _ _
  | case3 c cs hpair ih =>
      simp only [List.mem_cons, not_or] at hback hclose
      rw [List.cons_append, bareAddress.eq_def]
      simp only [beq_iff_eq, Ne.symm hclose.1, Ne.symm hback.1, if_false, ih hback.2 hclose.2]
      exact Piece.ofText_append [c] cs _

/-- Blanks are skipped up to what is none. -/
theorem takeWhile_isBlank {v rest : List Char} {c : Char} (hv : ∀ d ∈ v, isBlank d = true)
    (hc : isBlank c = false) : (v ++ c :: rest).takeWhile isBlank = v := by
  rw [List.takeWhile_append_of_pos hv, List.takeWhile_cons_of_neg (by simp [hc]), List.append_nil]

/-- The address behind its opening quotation mark, with blanks before the parenthesis. -/
theorem quotedAddress_again {quote : Char} (hmark : isQuote quote = true) {cs w : List Char}
    (hback : '\\' ∉ exposed cs) (hquote : quote ∉ exposed cs)
    (hbreak : ∀ c ∈ cs, isLineBreak c = false) (hw : ∀ c ∈ w, isBlank c = true) :
    quotedAddress quote (cs ++ quote :: (w ++ [')'])) =
      ⟨cs, (cs ++ quote :: (w ++ [')'])).length, []⟩ := by
  have hbody := stringBody_again hmark hback hquote hbreak (w ++ [')'])
  have hdrop : (cs ++ quote :: (w ++ [')'])).drop (cs.length + 1) = w ++ [')'] := by
    rw [List.drop_length_add_append]
    rfl
  have hgap : (w ++ [')']).takeWhile isBlank = w := takeWhile_isBlank hw (by decide)
  have hclose : addressClose true [')'] = Piece.silent 1 := rfl
  simp only [quotedAddress, hbody, hdrop, hgap, List.drop_left]
  refine (congrArg (_ ++ ·) hclose).trans ?_
  simp only [Piece.append_silent, List.length_append, List.length_cons, List.length_nil]
  congr 1
  omega

/-- **A quoted address, read again**, with blanks around it or without. -/
theorem address_quoted {quote : Char} (hmark : isQuote quote = true) {v cs w : List Char}
    (hv : ∀ c ∈ v, isBlank c = true) (hback : '\\' ∉ exposed cs) (hquote : quote ∉ exposed cs)
    (hbreak : ∀ c ∈ cs, isLineBreak c = false) (hw : ∀ c ∈ w, isBlank c = true) :
    address (v ++ quote :: (cs ++ quote :: (w ++ [')']))) =
      ⟨'\x27' :: (cs ++ ['\x27']), (v ++ quote :: (cs ++ quote :: (w ++ [')']))).length, []⟩ := by
  have hsolid : isBlank quote = false := by
    have hmarks : quote = '\x22' ∨ quote = '\x27' := by simpa [isQuote] using hmark
    rcases hmarks with rfl | rfl <;> rfl
  simp only [address, takeWhile_isBlank hv hsolid, List.drop_left, hmark, if_true,
    quotedAddress_again hmark hback hquote hbreak hw]
  refine congrArg (fun n => (⟨'\x27' :: (cs ++ ['\x27']), n, []⟩ : Piece)) ?_
  simp only [Piece.silent, Piece.withText, List.length_append, List.length_cons]
  omega

/-- A text without the blanks at its end. -/
def trimmed (cs : List Char) : List Char := (cs.reverse.dropWhile isBlank).reverse

/-- The blanks at the end of a text are dropped once. -/
theorem trimmed_trimmed (cs : List Char) : trimmed (trimmed cs) = trimmed cs := by
  simp only [trimmed, List.reverse_reverse]
  have hhead := List.head?_dropWhile_not isBlank cs.reverse
  cases hdrop : cs.reverse.dropWhile isBlank with
  | nil => rfl
  | cons c rest =>
      rw [hdrop] at hhead
      rw [List.dropWhile_cons_of_neg (by simpa using hhead)]

theorem trimmed_append (cs : List Char) :
    trimmed cs ++ (cs.reverse.takeWhile isBlank).reverse = cs := by
  rw [trimmed, ← List.reverse_append, List.takeWhile_append_dropWhile, List.reverse_reverse]

/-- What begins an address that is not quoted. -/
def BeginsBare (cs : List Char) : Prop := ∀ c ∈ cs.head?, isBlank c = false ∧ isQuote c = false

/-- An address that is not quoted is what stands before the parenthesis, without the blanks around
it. -/
theorem address_eq_spaced {v cs : List Char} (hv : ∀ c ∈ v, isBlank c = true) (h : BeginsBare cs) :
    address (v ++ (cs ++ [')'])) = Piece.silent v.length ++ (bareAddress (cs ++ [')'])).withText
      (trimmed (bareAddress (cs ++ [')'])).text) := by
  obtain ⟨c, rest, hcons, hblank, hquote⟩ :
      ∃ c rest, cs ++ [')'] = c :: rest ∧ isBlank c = false ∧ isQuote c = false := by
    cases cs with
    | nil => exact ⟨')', [], rfl, by decide, by decide⟩
    | cons c rest => exact ⟨c, rest ++ [')'], rfl, h c rfl⟩
  rw [hcons]
  simp only [address, takeWhile_isBlank hv hblank, List.drop_left, hquote, Bool.false_eq_true,
    if_false]
  rfl

theorem address_eq_bare {cs : List Char} (h : BeginsBare cs) :
    address (cs ++ [')']) = Piece.silent 0 ++ (bareAddress (cs ++ [')'])).withText
      (trimmed (bareAddress (cs ++ [')'])).text) :=
  address_eq_spaced (fun _ hc => absurd hc List.not_mem_nil) h

/-- An address that is not quoted, read again. -/
theorem address_bare {cs : List Char} (hback : '\\' ∉ exposed cs) (hclose : ')' ∉ exposed cs)
    (hbegin : BeginsBare cs) (htrim : trimmed cs = cs) :
    address (cs ++ [')']) = ⟨cs, cs.length + 1, []⟩ := by
  rw [address_eq_bare hbegin, bareAddress_again hback hclose []]
  simp only [htrim]
  exact congrArg (fun n => (⟨cs, n, []⟩ : Piece)) (Nat.zero_add _)

theorem head?_bareAddress (c : Char) (cs : List Char) :
    ∀ d ∈ (bareAddress (c :: cs)).text.head?, d = c := by
  rw [bareAddress.eq_def]
  simp only
  split
  · simp [Piece.silent]
  · split
    · next hback =>
        cases cs <;> simp [Piece.text_append, Piece.ofChar, Piece.ofText]
    · simp [Piece.text_append, Piece.ofChar]

theorem text_addressClose (clean : Bool) (cs : List Char) : (addressClose clean cs).text = [] := by
  unfold addressClose
  repeat' split
  all_goals rfl

/-- A quoted address has the text of its string. -/
theorem text_quotedAddress (quote : Char) (cs : List Char) :
    (quotedAddress quote cs).text = (stringBody quote cs).text := by
  simp [quotedAddress, Piece.text_append, Piece.silent, text_addressClose]

/-- An address that is read without faults is quoted, or it is what stands before the parenthesis
without the blanks around it. -/
theorem text_address {cs : List Char} (h : (address cs).Faultless) :
    (∃ body, (address cs).text = '\x27' :: (body ++ ['\x27']) ∧ '\\' ∉ exposed body ∧
      ∀ c ∈ body, isLineBreak c = false) ∨
    ')' ∉ exposed (address cs).text ∧ BeginsBare (address cs).text ∧
      trimmed (address cs).text = (address cs).text := by
  generalize address cs = p, branch_address cs = hbranch at h ⊢
  cases hbranch with
  | ended => exact absurd (Piece.faultless_append.1 h).2 (Piece.not_faultless_fault _ _ _)
  | @quoted _ _ quote _ rest =>
      have hbody : (quotedAddress quote rest).Faultless := (Piece.faultless_append.1 h).2
      have hstring : (stringBody quote rest).Faultless :=
        (Piece.faultless_append.1 (Piece.faultless_append.1 hbody).1).1
      obtain ⟨hback, -, hbreak⟩ := exposed_stringBody hstring
      exact .inl ⟨(stringBody quote rest).text, by rw [← text_quotedAddress]; rfl, hback, hbreak⟩
  | @bare blanks _ c hblank hquote rest =>
      have hbody : (bareAddress (c :: rest)).Faultless := (Piece.faultless_append.1 h).2
      have htext : (Piece.silent blanks.length ++ (bareAddress (c :: rest)).withText
          (trimmed (bareAddress (c :: rest)).text)).text =
            trimmed (bareAddress (c :: rest)).text := rfl
      have hsplit := trimmed_append (bareAddress (c :: rest)).text
      rw [← trimmed, htext]
      -- Trimming takes from the end alone: the rest is exposed as before and begins as before.
      refine .inr ⟨fun hmem => exposed_bareAddress hbody ?_, fun d hd => ?_, trimmed_trimmed _⟩
      · rw [← hsplit]
        exact mem_exposed_append _ (by decide) hmem
      · have hhead : d ∈ (bareAddress (c :: rest)).text.head? := by
          rw [← hsplit, List.head?_append]
          simp [Option.mem_def.1 hd]
        rw [head?_bareAddress c rest d hhead]
        exact ⟨hblank, hquote⟩

theorem addressStands_quoted {body : List Char} :
    AddressStands ('\x27' :: (body ++ ['\x27'])) ↔ '\x27' ∉ exposed body := by
  simp [AddressStands]

theorem addressStands_bare {cs : List Char} (h : BeginsBare cs) :
    AddressStands cs ↔ '\\' ∉ exposed cs := by
  rw [AddressStands, if_neg]
  exact fun hquoted => absurd (h _ hquoted).2 (by decide)

/-- **An address, read again.** -/
theorem address_again {cs : List Char} (h : (address cs).Faultless)
    (hstands : AddressStands (address cs).text) :
    address ((address cs).text ++ [')']) =
      ⟨(address cs).text, (address cs).text.length + 1, []⟩ := by
  rcases text_address h with ⟨body, htext, hback, hbreak⟩ | ⟨hclose, hbegin, htrim⟩
  · rw [htext] at hstands ⊢
    simpa using address_quoted (by decide) (fun c hc => absurd hc List.not_mem_nil) hback
      (addressStands_quoted.1 hstands) hbreak (fun c hc => absurd hc List.not_mem_nil)
  · exact address_bare ((addressStands_bare hbegin).1 hstands) hclose hbegin htrim

/-! ## Addresses that do not stand by themselves -/

theorem exists_first_exposed {c : Char} {cs : List Char} (h : c ∈ exposed cs)
    (hback : '\\' ∉ exposed cs) :
    ∃ front behind, cs = front ++ c :: behind ∧ c ∉ exposed front ∧ '\\' ∉ exposed front ∧
      ∀ d ∈ front, d ∈ cs := by
  fun_induction exposed cs with
  | case1 => cases h
  | case2 d cs ih =>
      obtain ⟨front, behind, rfl, hc, hfront, -⟩ := ih h hback
      exact ⟨'\\' :: d :: front, behind, rfl, hc, hfront, by simp +contextual⟩
  | case3 d cs hpair ih =>
      simp only [List.mem_cons, not_or] at h hback
      by_cases hd : c = d
      · exact ⟨[], cs, by rw [hd]; rfl, by simp [exposed], by simp [exposed], by simp⟩
      · obtain ⟨front, behind, rfl, hc, hfront, -⟩ := ih (h.resolve_left hd) hback.2
        refine ⟨d :: front, behind, rfl, ?_, ?_, by simp +contextual⟩
        · simp [exposed_cons front (Ne.symm hback.1), hd, hc]
        · simp [exposed_cons front (Ne.symm hback.1), hback.1, hfront]

theorem length_takeWhile_le {front behind : List Char} {c : Char} (hc : isBlank c = false) :
    ((front ++ c :: behind).takeWhile isBlank).length ≤ front.length := by
  induction front with
  | nil => simp [hc]
  | cons d front ih =>
      rw [List.cons_append, List.takeWhile_cons]
      split
      · exact Nat.succ_le_succ ih
      · exact Nat.zero_le _

theorem length_addressClose_le (clean : Bool) (cs : List Char) :
    (addressClose clean cs).length ≤ 1 := by
  unfold addressClose
  repeat' split
  all_goals simp [Piece.fault, Piece.silent]

/-- A bare apostrophe ends a quoted address. -/
theorem length_address_quoted_lt {body : List Char} (hback : '\\' ∉ exposed body)
    (hbreak : ∀ c ∈ body, isLineBreak c = false) (hquote : '\x27' ∈ exposed body) :
    (address ('\x27' :: (body ++ ['\x27', ')']))).length < body.length + 3 := by
  -- The string ends at the first one, and then come blanks and at most one character more.
  obtain ⟨front, behind, rfl, hfront, hfront', hmem⟩ := exists_first_exposed hquote hback
  have hbody := stringBody_again (by decide) hfront' hfront (fun c hc => hbreak c (hmem c hc))
    (behind ++ ['\x27', ')'])
  have hshape : (front ++ '\x27' :: behind) ++ ['\x27', ')'] =
      front ++ '\x27' :: (behind ++ ['\x27', ')']) := by simp
  have hdrop : (front ++ '\x27' :: (behind ++ ['\x27', ')'])).drop (front.length + 1) =
      behind ++ ['\x27', ')'] := by
    rw [List.drop_length_add_append]
    rfl
  have hgap : ((behind ++ ['\x27', ')']).takeWhile isBlank).length ≤ behind.length :=
    length_takeWhile_le (by decide)
  have hclose := length_addressClose_le true
    ((behind ++ ['\x27', ')']).drop ((behind ++ ['\x27', ')']).takeWhile isBlank).length)
  have haddress : (address ('\x27' :: (front ++ '\x27' :: (behind ++ ['\x27', ')'])))).length =
      1 + (quotedAddress '\x27' (front ++ '\x27' :: (behind ++ ['\x27', ')']))).length := rfl
  rw [hshape, haddress, quotedAddress]
  simp only [hbody, hdrop, Piece.length_append, Piece.silent, List.isEmpty_nil]
  simp only [List.length_append, List.length_cons]
  omega

/-- A backslash at the end of an address hides the parenthesis. -/
theorem not_faultless_bareAddress {cs : List Char} (hback : '\\' ∈ exposed cs)
    (hclose : ')' ∉ exposed cs) : ¬ (bareAddress (cs ++ [')'])).Faultless := by
  fun_induction exposed cs with
  | case1 => cases hback
  | case2 d cs ih =>
      intro h
      simp only [List.cons_append, bareAddress] at h
      exact ih hback hclose (Piece.faultless_append.1 h).2
  | case3 c cs hpair ih =>
      simp only [List.mem_cons, not_or] at hback hclose
      intro h
      by_cases hc : c = '\\'
      · -- The parenthesis is hidden, and nothing is left to close the address.
        subst hc
        obtain rfl := eq_nil_of_not_pair hpair
        have hend : bareAddress ['\\', ')'] =
            Piece.ofText ['\\', ')'] ++ Piece.fault 1 .lexicalEnd [] := rfl
        rw [List.cons_append, List.nil_append, hend] at h
        exact Piece.not_faultless_fault _ _ _ (Piece.faultless_append.1 h).2
      · rw [List.cons_append, bareAddress.eq_def] at h
        simp only [beq_iff_eq, Ne.symm hclose.1, hc, if_false] at h
        exact ih (hback.resolve_left (Ne.symm hc)) hclose.2 (Piece.faultless_append.1 h).2

/-- **Only an address that stands by itself is read again.** -/
theorem addressStands_of_again {cs : List Char} (h : (address cs).Faultless)
    (hagain : (address ((address cs).text ++ [')'])).Faultless)
    (hlength : (address ((address cs).text ++ [')'])).length = (address cs).text.length + 1) :
    AddressStands (address cs).text := by
  rcases text_address h with ⟨body, htext, hback, hbreak⟩ | ⟨hclose, hbegin, -⟩
  · rw [htext] at hlength ⊢
    rw [addressStands_quoted]
    intro hquote
    have hlt := length_address_quoted_lt hback hbreak hquote
    have hshape : '\x27' :: (body ++ ['\x27']) ++ [')'] = '\x27' :: (body ++ ['\x27', ')']) := by
      simp
    rw [hshape] at hlength
    simp only [List.length_cons, List.length_append, List.length_nil] at hlength
    omega
  · rw [addressStands_bare hbegin]
    intro hback
    rw [address_eq_bare hbegin] at hagain
    exact not_faultless_bareAddress hback hclose (Piece.faultless_append.1 hagain).2

end Lexeme

end EpubStyle
