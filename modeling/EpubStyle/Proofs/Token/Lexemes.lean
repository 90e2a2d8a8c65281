import EpubStyle.Proofs.Token.Branches
import EpubStyle.Proofs.Token.Names
import EpubStyle.Token.Scan

/-!
# What tokens are read from

A faultless lexeme is read from characters at the front of the text (`Lexeme.readFrom_read`). If it
is a sign of its own, and neither a separator nor `!important`, then it is written back with no more
characters than it was read from: it is not heavier and not longer than these, and if it is as heavy
it is as long, unless blanks around an address were dropped (`Lexeme.Measured`).

An exclamation mark behind a blank can only stand inside a comment, a string or an address, and each
of them ends with a character of its own (`Lexeme.ReadFrom.closed`).
-/

set_option autoImplicit false

namespace EpubStyle

open Text

/-- The note is a lexical fault. -/
def Note.isFault : Note → Bool
  | fault .. => true
  | stepBack _ => false

/-- Nothing is wrong with a piece. -/
def Piece.Faultless (p : Piece) : Prop := ∀ n ∈ p.notes, n.isFault = false

theorem Note.isFault_shift (n : Nat) (note : Note) : (note.shift n).isFault = note.isFault := by
  cases note <;> rfl

theorem Piece.faultless_append {p q : Piece} :
    (p ++ q).Faultless ↔ p.Faultless ∧ q.Faultless := by
  simp only [Faultless, notes_append, List.mem_append, List.mem_map]
  constructor
  · intro h
    refine ⟨fun n hn => h n (.inl hn), fun n hn => ?_⟩
    rw [← Note.isFault_shift p.length]
    exact h _ (.inr ⟨n, hn, rfl⟩)
  · rintro ⟨hp, hq⟩ n (hn | ⟨m, hm, rfl⟩)
    · exact hp n hn
    · rw [Note.isFault_shift]
      exact hq m hm

/-- A fault is something wrong. -/
theorem Piece.not_faultless_fault (steps : Nat) (code : Code) (arguments : List Wording) :
    ¬ (Piece.fault steps code arguments).Faultless :=
  fun h => Bool.noConfusion (h _ (List.mem_singleton_self _))

namespace Lexeme

/-- Nothing is wrong with a lexeme. -/
def Faultless (l : Lexeme) : Prop := l.piece.Faultless

/-- A lexeme as it is written back. Strings get single quotation marks. -/
def written (l : Lexeme) : List Char :=
  if l.kind = .string then '\x27' :: (l.piece.text ++ ['\x27']) else l.piece.text

/-- The lexeme is a separator or an `!important`. -/
def Separates (l : Lexeme) : Prop :=
  l.kind ∈ [.space, .comment, .commentOpen, .commentClose, .important] ∨
    l.kind = .char ∧ l.piece.text = [';']

/-- The lexeme is written back with no more than it was read from. -/
structure Measured (l : Lexeme) (raw : List Char) : Prop where
  solid : Solid l.written
  weight_le : weight l.written ≤ weight raw
  length_le : l.written.length ≤ raw.length
  tight : weight l.written = weight raw →
    l.written.length = raw.length ∨ l.kind = .uri ∧ raw.getLast? = some ')'

/-- The lexeme is read from the given characters. -/
structure ReadFrom (l : Lexeme) (raw : List Char) : Prop where
  length : l.piece.length = raw.length
  nonempty : raw ≠ []
  /-- What holds a blank before an exclamation mark ends with a character of its own. -/
  closed : ∀ before after, raw = before ++ ' ' :: '!' :: after →
    ∃ c ∈ ['\x22', '\x27', ')', '/'], raw.getLast? = some c
  important : l.kind = .important → 10 ≤ weight raw
  measured : ¬ l.Separates → l.Measured raw

/-! ## Names and numbers -/

/-- A lexeme that is read as its text is. -/
theorem ReadFrom.ofTakes {kind : TokenKind} {p : Piece} {raw : List Char} (h : p.Takes raw)
    (hsolid : Solid p.text) (hkind : kind ≠ .string) (himportant : kind ≠ .important) :
    ReadFrom ⟨kind, p⟩ raw where
  length := h.length
  nonempty := by
    obtain ⟨c, cs, htext, -⟩ := hsolid
    rintro rfl
    have hlength := h.shrinks.length_le
    simp [htext] at hlength
  closed := by
    rintro before after rfl
    have hback := h.guarded (before ++ [' ']) after (by simp)
    simp at hback
  important := fun h => absurd h himportant
  measured := fun _ => by
    have hwritten : written ⟨kind, p⟩ = p.text := by simp [written, hkind]
    refine ⟨hwritten ▸ hsolid, ?_, ?_, fun heq => .inl ?_⟩
    · rw [hwritten]
      exact h.shrinks.weight_le
    · rw [hwritten]
      exact h.shrinks.length_le
    · rw [hwritten] at heq ⊢
      exact h.shrinks.length_eq heq

/-- The lexeme is read from characters at the front of a text. -/
def ReadAhead (l : Lexeme) (cs : List Char) : Prop := ∃ raw rest, cs = raw ++ rest ∧ l.ReadFrom raw

theorem ReadAhead.ofTakes (kind : TokenKind) {p : Piece} {cs : List Char} (h : p.TakesFrom cs)
    (hsolid : Solid p.text) (hkind : kind ≠ .string) (himportant : kind ≠ .important) :
    ReadAhead ⟨kind, p⟩ cs := by
  obtain ⟨raw, rest, rfl, hraw⟩ := h
  exact ⟨raw, rest, rfl, .ofTakes hraw hsolid hkind himportant⟩

/-- The digits that continue a number stand at the front of the text. -/
theorem digits_prefix (real : Bool) (cs : List Char) :
    (∃ rest, cs = (digits real cs).1 ++ rest) ∧ '!' ∉ (digits real cs).1 := by
  induction cs generalizing real with
  | nil => exact ⟨⟨[], rfl⟩, by simp [digits]⟩
  | cons c cs ih =>
      -- A character that belongs to the number is no exclamation mark.
      have hcons : ∀ real', c ≠ '!' → (∃ rest, c :: cs = c :: (digits real' cs).1 ++ rest) ∧
          '!' ∉ c :: (digits real' cs).1 := by
        intro real' hc
        obtain ⟨⟨rest, hrest⟩, hmark⟩ := ih real'
        refine ⟨⟨rest, congrArg (c :: ·) hrest⟩, ?_⟩
        exact List.not_mem_cons_of_ne_of_not_mem hc.symm hmark
      simp only [digits]
      split
      · next hdigit =>
          apply hcons
          rintro rfl
          revert hdigit
          decide
      · split
        · next hpoint =>
            apply hcons
            rintro rfl
            simp at hpoint
        · exact ⟨⟨c :: cs, rfl⟩, by simp⟩

/-- What a unit is read from. -/
theorem unit_takes {cs : List Char} {p : Piece} (h : unit cs = some p) : p.TakesFrom cs := by
  cases cs with
  | nil => cases h
  | cons c cs =>
      simp only [unit] at h
      split at h
      · next hpercent =>
          rw [beq_iff_eq] at hpercent
          obtain rfl := (Option.some.inj h).symm
          exact ⟨[c], cs, rfl, Piece.takes_ofChar (by simp [hpercent])⟩
      · split at h
        · obtain rfl := (Option.some.inj h).symm
          exact Piece.name_takes _
        · split at h
          · obtain rfl := (Option.some.inj h).symm
            exact Piece.TakesFrom.append ⟨[], c :: cs, rfl, Piece.takes_stepBack 1⟩
              (Piece.name_takes _)
          · cases h

/-- Words that agree up to case have the same letters in lower case. -/
theorem map_toLower_of_sameWord {as bs : List Char} (h : sameWord as bs = true) :
    as.map Char.toLower = bs.map Char.toLower := by
  induction as generalizing bs with
  | nil =>
      cases bs with
      | nil => rfl
      | cons b bs => simp [sameWord] at h
  | cons a as ih =>
      cases bs with
      | nil => simp [sameWord] at h
      | cons b bs =>
          simp only [sameWord, sameLetter, Bool.and_eq_true, beq_iff_eq] at h
          simp [h.1, ih h.2]

/-- The canonical spelling of a unit is the same up to case. -/
theorem map_toLower_measure (suffix : List Char) :
    (measure suffix).1.map Char.toLower = suffix.map Char.toLower := by
  unfold measure
  simp only
  split
  · next canonical m hknown =>
      split at hknown
      · have hsame := List.find?_some hknown
        simpa [sameText] using map_toLower_of_sameWord hsame
      · cases hknown
  · rfl

/-- What a number is read from. -/
theorem number_takes {c : Char} (cs : List Char) (h : c ≠ '!') :
    (number c cs).piece.TakesFrom (c :: cs) := by
  obtain ⟨⟨rest, hrest⟩, hmark⟩ := digits_prefix (c == '.') cs
  have hnumeral : (Piece.ofText (c :: (digits (c == '.') cs).1)).TakesFrom (c :: cs) :=
    ⟨_, rest, congrArg (c :: ·) hrest, Piece.takes_ofText (by simp [hmark, Ne.symm h])⟩
  unfold number
  simp only
  split
  · next suffix hunit =>
      obtain ⟨raw, rest', hafter, hraw⟩ := unit_takes hunit
      exact hnumeral.append ⟨raw, rest', hafter, hraw.length,
        hraw.shrinks.congr (map_toLower_measure _), hraw.guarded⟩
  · refine hnumeral.append ?_
    split
    · exact ⟨[], _, rfl, Piece.takes_stepBack 1⟩
    · exact ⟨[], _, rfl, Piece.takes_empty⟩

/-! ## Words of one spelling -/

/-- A word that stands at the front of a text up to case. -/
theorem exists_of_startsWord {word cs : List Char} (h : startsWord word cs = true) :
    ∃ raw rest, cs = raw ++ rest ∧ raw.map Char.toLower = word.map Char.toLower := by
  induction word generalizing cs with
  | nil => exact ⟨[], cs, rfl, rfl⟩
  | cons a word ih =>
      cases cs with
      | nil => simp [startsWord] at h
      | cons b cs =>
          simp only [startsWord, sameLetter, Bool.and_eq_true, beq_iff_eq] at h
          obtain ⟨raw, rest, rfl, hraw⟩ := ih h.2
          exact ⟨b :: raw, rest, rfl, by simp [h.1, hraw]⟩

/-- Texts that agree up to case hold the same exclamation marks. -/
theorem not_mem_of_map_toLower {raw text : List Char}
    (h : raw.map Char.toLower = text.map Char.toLower) {c : Char} (hc : c.toLower = c)
    (htext : c ∉ text.map Char.toLower) : c ∉ raw := by
  intro hmem
  rw [← h] at htext
  exact htext (List.mem_map.2 ⟨c, hmem, hc⟩)

/-! ## Strings and addresses -/

/-- The text is read from `body` and one more character, and there is nothing to note. -/
structure ReadsBody (p : Piece) (body : List Char) : Prop where
  length : p.length = body.length + 1
  shrinks : Shrinks p.text body
  notes : p.notes = []
  /-- Without a backslash the text is what it is read from. -/
  verbatim : '\\' ∉ body → p.text = body

/-- One more piece in front. -/
theorem ReadsBody.cons {p q : Piece} {raw body : List Char} (hq : ReadsBody q body)
    (hlength : p.length = raw.length) (hshrinks : Shrinks p.text raw) (hnotes : p.notes = [])
    (hverbatim : '\\' ∉ raw → p.text = raw) : ReadsBody (p ++ q) (raw ++ body) where
  length := by
    rw [List.length_append, ← hlength, Nat.add_assoc, ← hq.length, Piece.length_append]
  shrinks := hshrinks.append hq.shrinks
  notes := by simp [Piece.notes_append, hnotes, hq.notes]
  verbatim := fun hback => by
    rw [List.mem_append, not_or] at hback
    rw [Piece.text_append, hverbatim hback.1, hq.verbatim hback.2]

/-- What a string is read from, up to its closing quotation mark. -/
theorem stringBody_reads {quote : Char} {cs : List Char} (h : (stringBody quote cs).Faultless) :
    ∃ body rest, cs = body ++ quote :: rest ∧ ReadsBody (stringBody quote cs) body := by
  fun_induction stringBody quote cs with
  | case1 => exact absurd h (Piece.not_faultless_fault _ _ _)
  | case2 c cs hbreak => exact Bool.noConfusion (h _ (List.mem_singleton_self _))
  | case3 c hbreak hback =>
      exact absurd (Piece.faultless_append.1 h).2 (Piece.not_faultless_fault _ _ _)
  -- A line break behind a backslash is read and left out of the text.
  | case4 c hbreak hback cs ih =>
      obtain ⟨body, rest, rfl, hreads⟩ := ih (Piece.faultless_append.1 h).2
      rw [beq_iff_eq] at hback
      subst hback
      exact ⟨['\\', '\r', '\n'] ++ body, rest, rfl,
        hreads.cons rfl (.ofLighter (by decide) (by decide)) rfl
          (fun hback => absurd (List.mem_cons_self ..) hback)⟩
  | case5 c hbreak hback d cs hne hd ih =>
      obtain ⟨body, rest, rfl, hreads⟩ := ih (Piece.faultless_append.1 h).2
      rw [beq_iff_eq] at hback
      subst hback
      have hlighter : weight [] < weight ['\\', d] := by
        rw [weight_cons]
        exact Nat.add_pos_left (by decide) _
      exact ⟨['\\', d] ++ body, rest, rfl,
        hreads.cons rfl (.ofLighter hlighter (Nat.zero_le _)) rfl
          (fun hback => absurd (List.mem_cons_self ..) hback)⟩
  -- Any other escape is kept as it is written.
  | case6 c hbreak hback d cs hne hd ih =>
      obtain ⟨body, rest, rfl, hreads⟩ := ih (Piece.faultless_append.1 h).2
      exact ⟨[c, d] ++ body, rest, rfl, hreads.cons rfl (.refl _) rfl (fun _ => rfl)⟩
  | case7 c cs hbreak hback hquote =>
      rw [beq_iff_eq] at hquote
      exact ⟨[], cs, by rw [hquote]; rfl, rfl, .refl _, rfl, fun _ => rfl⟩
  | case8 c cs hbreak hback hquote ih =>
      obtain ⟨body, rest, rfl, hreads⟩ := ih (Piece.faultless_append.1 h).2
      exact ⟨[c] ++ body, rest, rfl, hreads.cons rfl (.refl _) rfl (fun _ => rfl)⟩

/-- Quotation marks weigh something. -/
theorem isWeightless_of_isQuote {c : Char} (h : isQuote c = true) : isWeightless c = false :=
  isWeightless_of_class rfl h

/-- What a string is read from. -/
theorem string_readAhead {quote : Char} (hquote : isQuote quote = true) {cs : List Char}
    (h : (stringBody quote cs).Faultless) :
    ReadAhead ⟨.string, .silent 1 ++ stringBody quote cs⟩ (quote :: cs) := by
  obtain ⟨body, rest, rfl, hlength, hshrinks, -⟩ := stringBody_reads h
  have hweight := isWeightless_of_isQuote hquote
  have hmark : isWeightless '\x27' = false := by decide
  have hwritten : written ⟨.string, .silent 1 ++ stringBody quote (body ++ quote :: rest)⟩ =
      '\x27' :: ((stringBody quote (body ++ quote :: rest)).text ++ ['\x27']) := rfl
  refine ⟨quote :: (body ++ [quote]), rest, by simp, ?_, by simp, ?_, by simp, fun _ => ?_⟩
  · rw [Piece.length_append, hlength]
    simp [Piece.silent, Nat.add_comm]
  -- The lexeme ends with a quotation mark, whatever stands in it.
  · intro before after _
    refine ⟨quote, ?_, List.getLast?_concat (l := quote :: body)⟩
    simp only [isQuote, Bool.or_eq_true, beq_iff_eq] at hquote
    rcases hquote with rfl | rfl <;> simp
  · have hle := hshrinks.weight_le
    have hlen := hshrinks.length_le
    refine ⟨⟨'\x27', _, hwritten, hmark⟩, ?_, ?_, fun heq => .inl ?_⟩
    · simp only [hwritten, weight_cons, weight_append, hweight, hmark, weight_nil]
      omega
    · simp only [hwritten, List.length_cons, List.length_append, List.length_nil]
      omega
    · have heq' : weight (stringBody quote (body ++ quote :: rest)).text = weight body := by
        simp only [hwritten, weight_cons, weight_append, hweight, hmark, weight_nil] at heq
        omega
      simp [hwritten, hshrinks.length_eq heq']

/-- What an address without quotation marks is read from, up to its parenthesis. -/
theorem bareAddress_reads {cs : List Char} (h : (bareAddress cs).Faultless) :
    ∃ body rest, cs = body ++ ')' :: rest ∧ ReadsBody (bareAddress cs) body := by
  fun_induction bareAddress cs with
  | case1 => exact absurd h (Piece.not_faultless_fault _ _ _)
  | case2 c cs hclose =>
      rw [beq_iff_eq] at hclose
      exact ⟨[], cs, by rw [hclose]; rfl, rfl, .refl _, rfl, fun _ => rfl⟩
  | case3 c hclose hback =>
      exact absurd (Piece.faultless_append.1 h).2 (Piece.not_faultless_fault _ _ _)
  | case4 c hclose hback d cs ih =>
      obtain ⟨body, rest, rfl, hreads⟩ := ih (Piece.faultless_append.1 h).2
      exact ⟨[c, d] ++ body, rest, rfl, hreads.cons rfl (.refl _) rfl (fun _ => rfl)⟩
  | case5 c cs hclose hback ih =>
      obtain ⟨body, rest, rfl, hreads⟩ := ih (Piece.faultless_append.1 h).2
      exact ⟨[c] ++ body, rest, rfl, hreads.cons rfl (.refl _) rfl (fun _ => rfl)⟩

/-- What a quoted address is read from, up to its parenthesis. -/
theorem quotedAddress_reads {quote : Char} {cs : List Char}
    (h : (quotedAddress quote cs).Faultless) :
    ∃ body blanks rest, cs = body ++ quote :: (blanks ++ ')' :: rest) ∧
      (quotedAddress quote cs).length = body.length + 1 + blanks.length + 1 ∧
      Shrinks (quotedAddress quote cs).text body ∧
      ('\\' ∉ body → (quotedAddress quote cs).text = body) ∧ ∀ c ∈ blanks, isBlank c = true := by
  obtain ⟨hfront, hclose⟩ := Piece.faultless_append.1 h
  obtain ⟨body, after, hcs, hlength, hshrinks, hnotes, hverbatim⟩ :=
    stringBody_reads (Piece.faultless_append.1 hfront).1
  have hafter : cs.drop (body.length + 1) = after := by
    rw [hcs]
    exact List.drop_length_add_append 1
  obtain ⟨blanks, rest, rfl, htake, hdrop, hblanks⟩ := exists_blanks after
  rw [hlength, hafter, htake, hdrop, hnotes] at hclose
  unfold quotedAddress
  simp only [hafter, htake, hdrop, hnotes, Piece.length_append, Piece.text_append, hlength]
  -- Behind the blanks nothing but the parenthesis is faultless.
  cases rest with
  | nil => exact absurd hclose (Piece.not_faultless_fault _ _ _)
  | cons c rest =>
      simp only [addressClose, List.isEmpty_nil, if_true] at hclose ⊢
      split at hclose
      · next hc =>
          rw [beq_iff_eq] at hc
          subst hc
          refine ⟨body, blanks, rest, hcs, rfl, ?_, ?_, hblanks⟩
          · simpa [Piece.silent] using hshrinks
          · simpa [Piece.silent] using hverbatim
      · exact absurd hclose (Piece.not_faultless_fault _ _ _)

/-- A text without the blanks at its end. -/
theorem trimmed_sublist (cs : List Char) : (cs.reverse.dropWhile isBlank).reverse.Sublist cs := by
  have h := (List.dropWhile_sublist isBlank (l := cs.reverse)).reverse
  rwa [List.reverse_reverse] at h

/-- What an address is read from, up to its parenthesis. -/
theorem address_reads {cs : List Char} (h : (address cs).Faultless) :
    ∃ body rest, cs = body ++ ')' :: rest ∧ (address cs).length = body.length + 1 ∧
      weight (address cs).text ≤ weight body ∧ (address cs).text.length ≤ body.length := by
  generalize address cs = p, branch_address cs = hbranch at h ⊢
  cases hbranch with
  | ended => exact absurd (Piece.faultless_append.1 h).2 (Piece.not_faultless_fault _ _ _)
  | @quoted blanks hblanks quote hquote rest =>
      -- The text has a mark on either side, as what it is read from has.
      obtain ⟨body, behind, rest, rfl, hlength, hshrinks, -⟩ :=
        quotedAddress_reads (Piece.faultless_append.1 h).2
      have hweight := isWeightless_of_isQuote hquote
      have hmark : isWeightless '\x27' = false := by decide
      have hle := hshrinks.weight_le
      have hlen := hshrinks.length_le
      refine ⟨blanks ++ quote :: (body ++ quote :: behind), rest, by simp, ?_, ?_, ?_⟩
      · simp only [Piece.length_append, Piece.silent, Piece.withText, hlength, List.length_append,
          List.length_cons]
        omega
      · simp only [Piece.text_append, Piece.silent, Piece.withText, List.nil_append, weight_append,
          weight_cons, hweight, hmark, weight_nil, weight_of_isBlank hblanks, Bool.false_eq_true,
          if_false]
        omega
      · simp only [Piece.text_append, Piece.silent, Piece.withText, List.nil_append,
          List.length_append, List.length_cons, List.length_nil]
        omega
  | @bare blanks hblanks c _ _ rest =>
      obtain ⟨body, rest', hcs, hlength, hshrinks, -⟩ :=
        bareAddress_reads (Piece.faultless_append.1 h).2
      have htrimmed := trimmed_sublist (bareAddress (c :: rest)).text
      have hweight : weight ((bareAddress (c :: rest)).text.reverse.dropWhile isBlank).reverse ≤
          weight (bareAddress (c :: rest)).text := htrimmed.countP_le
      have hle := hshrinks.weight_le
      have hlen := hshrinks.length_le
      have hlen' := htrimmed.length_le
      refine ⟨blanks ++ body, rest', by rw [hcs, List.append_assoc], ?_, ?_, ?_⟩
      · simp only [Piece.length_append, Piece.silent, Piece.withText, hlength, List.length_append]
        omega
      · simp only [Piece.text_append, Piece.silent, Piece.withText, List.nil_append, weight_append]
        omega
      · simp only [Piece.text_append, Piece.silent, Piece.withText, List.nil_append,
          List.length_append]
        omega

/-- What an address token is read from. -/
theorem uri_readAhead {c : Char} {cs : List Char} (hletter : sameLetter c 'u' = true)
    (hopening : startsWord ['r', 'l', '('] cs = true) (h : (uri cs).Faultless) :
    (uri cs).ReadAhead (c :: cs) := by
  obtain ⟨word, after, rfl, hword⟩ := exists_of_startsWord hopening
  have hwordLength : word.length = 3 := by simpa using congrArg List.length hword
  have hdrop : (word ++ after).drop 3 = after := List.drop_left' hwordLength
  have haddress : (address ((word ++ after).drop 3)).Faultless := (Piece.faultless_append.1 h).2
  rw [hdrop] at haddress
  obtain ⟨body, rest, rfl, hlength, hweight, hlen⟩ := address_reads haddress
  -- The word may be written in any case, which weighs the same.
  have hfront : weight (c :: word) = 4 := by
    rw [sameLetter, beq_iff_eq] at hletter
    rw [← weight_map_toLower, List.map_cons, hword, hletter]
    decide
  have hopeningWeight : weight ['u', 'r', 'l', '('] = 4 := by decide
  have hclose : isWeightless ')' = false := by decide
  have htext : (uri (word ++ (body ++ ')' :: rest))).written =
      ['u', 'r', 'l', '('] ++ ((address (body ++ ')' :: rest)).text ++ [')']) := by
    rw [written, if_neg (by simp [uri])]
    simp only [uri, hdrop]
    rfl
  refine ⟨c :: word ++ (body ++ [')']), rest, by simp, ?_, by simp, ?_, by simp [uri], fun _ => ?_⟩
  · simp only [uri, hdrop, Piece.length_append, Piece.withText, hlength]
    simp [Piece.ofText, hwordLength]
    omega
  · intro before after _
    refine ⟨')', by simp, ?_⟩
    rw [← List.append_assoc]
    exact List.getLast?_concat
  · refine ⟨⟨'u', _, htext, by decide⟩, ?_, ?_, fun _ => .inr ⟨rfl, ?_⟩⟩
    · simp only [htext, weight_append, hfront, hopeningWeight]
      omega
    · simp only [htext, List.length_append, List.length_cons, List.length_nil, hwordLength]
      omega
    · rw [← List.append_assoc]
      exact List.getLast?_concat

/-! ## Ranges and comments -/

theorem rangeBody_takes (seen : List Char) (count : Nat) (cs : List Char) :
    (rangeBody seen count cs).TakesFrom cs := by
  induction cs generalizing seen count with
  | nil => exact ⟨[], [], rfl, Piece.takes_empty⟩
  | cons c cs ih =>
      simp only [rangeBody]
      split
      · next hc =>
          have hmark : c ≠ '!' := by
            rintro rfl
            revert hc
            decide
          refine Piece.TakesFrom.append ⟨[c], cs, rfl, rfl, .refl _, ?_⟩ (ih _ _)
          exact guarded_of_not_mem (by simpa using Ne.symm hmark)
      · exact ⟨[], c :: cs, rfl, Piece.takes_empty⟩

/-- What a Unicode range is read from. -/
theorem range_readAhead {c : Char} {cs : List Char} (hletter : sameLetter c 'u' = true)
    (h : rangeAhead cs = true) : (range cs).ReadAhead (c :: cs) := by
  obtain ⟨cs, rfl⟩ : ∃ cs', cs = '+' :: cs' := by
    unfold rangeAhead at h
    split at h
    · exact ⟨_, rfl⟩
    · cases h
  have hlower : c.toLower = 'u' := by
    rw [sameLetter, beq_iff_eq] at hletter
    exact hletter
  have hmark : c ≠ '!' := by
    rintro rfl
    revert hlower
    decide
  have hfront : (Piece.ofText ['U', '+']).Takes [c, '+'] := by
    refine ⟨rfl, (Shrinks.refl [c, '+']).congr ?_, guarded_of_not_mem ?_⟩
    · simp only [List.map_cons, List.map_nil, hlower]
      decide
    · simpa using Ne.symm hmark
  exact .ofTakes _ (Piece.TakesFrom.append ⟨[c, '+'], cs, rfl, hfront⟩ (rangeBody_takes _ _ cs))
    ⟨'U', _, rfl, by decide⟩ (by decide) (by decide)

/-- What a comment is read from, behind its opening. -/
theorem commentBody_reads {cs : List Char} (h : (commentBody cs).Faultless) :
    ∃ body rest, cs = body ++ '*' :: '/' :: rest ∧
      (commentBody cs).length = body.length + 2 ∧ (commentBody cs).text = body ∧
      ¬ ['*', '/'] <:+: body := by
  induction cs with
  | nil => exact absurd h (Piece.not_faultless_fault _ _ _)
  | cons c cs ih =>
      simp only [commentBody] at h ⊢
      split at h
      · next hend =>
          rw [if_pos hend]
          simp only [Bool.and_eq_true, beq_iff_eq] at hend
          obtain ⟨rfl, hslash⟩ := hend
          obtain ⟨rest, rfl⟩ : ∃ rest, cs = '/' :: rest := by
            cases cs with
            | nil => cases hslash
            | cons d rest => exact ⟨rest, by rw [Option.some.inj hslash]⟩
          exact ⟨[], rest, rfl, rfl, rfl, by simp⟩
      · next hend =>
          rw [if_neg hend]
          obtain ⟨body, rest, rfl, hlength, htext, hbody⟩ := ih (Piece.faultless_append.1 h).2
          refine ⟨c :: body, rest, rfl, ?_, ?_, ?_⟩
          · rw [Piece.length_append, hlength, List.length_cons]
            exact Nat.add_comm 1 _
          · rw [Piece.text_append, htext]
            rfl
          -- An end that begins here would have ended the comment.
          · rw [List.infix_cons_iff, not_or]
            refine ⟨fun hprefix => hend ?_, hbody⟩
            obtain ⟨rfl, hslash⟩ := List.cons_prefix_cons.1 hprefix
            obtain ⟨more, rfl⟩ := hslash
            rfl

/-! ## Separators -/

/-- A blank before an exclamation mark stands in no text that has one only in front. -/
theorem closed_of_not_mem {c : Char} {tail : List Char} (h : '!' ∉ tail) :
    ∀ before after, c :: tail = before ++ ' ' :: '!' :: after →
      ∃ d ∈ ['\x22', '\x27', ')', '/'], (c :: tail).getLast? = some d := by
  intro before after heq
  refine absurd ?_ h
  cases before with
  | nil => simp [(List.cons.inj heq).2]
  | cons b before => simp [(List.cons.inj heq).2]

/-- A separator is read from what it takes. -/
theorem ReadAhead.ofSeparator {l : Lexeme} {c : Char} {tail rest : List Char}
    (hsep : l.kind ∈ [.space, .comment, .commentOpen, .commentClose])
    (hlength : l.piece.length = tail.length + 1)
    (hclosed : ∀ before after, c :: tail = before ++ ' ' :: '!' :: after →
      ∃ d ∈ ['\x22', '\x27', ')', '/'], (c :: tail).getLast? = some d) :
    l.ReadAhead (c :: (tail ++ rest)) := by
  refine ⟨c :: tail, rest, rfl, hlength, by simp, hclosed, fun h => ?_, fun h => ?_⟩
  · simp [h] at hsep
  · simp only [List.mem_cons, List.not_mem_nil, or_false] at hsep
    refine absurd (.inl ?_) h
    rcases hsep with hk | hk | hk | hk <;> simp [hk]

/-- What `!important` is read from. -/
theorem important_readAhead {cs : List Char} {n : Nat} (h : importantAhead cs = some n) :
    ReadAhead ⟨.important, (Piece.silent (n + 1)).withText
      ['!', 'i', 'm', 'p', 'o', 'r', 't', 'a', 'n', 't']⟩ ('!' :: cs) := by
  obtain ⟨gap, after, rfl, htake, hdrop, hgap⟩ := exists_blanks cs
  unfold importantAhead at h
  simp only [htake, hdrop] at h
  split at h
  · next hword =>
      obtain ⟨word, rest, rfl, hraw⟩ := exists_of_startsWord hword
      have hlength : word.length = 9 := by simpa using congrArg List.length hraw
      obtain rfl := (Option.some.inj h).symm
      refine ⟨'!' :: (gap ++ word), rest, by simp, ?_, by simp, closed_of_not_mem ?_, fun _ => ?_,
        fun hsep => absurd (.inl (by simp)) hsep⟩
      · simp [Piece.withText, Piece.silent, hlength]
      · rw [List.mem_append, not_or]
        refine ⟨fun hmem => absurd (hgap _ hmem) (by decide),
          not_mem_of_map_toLower hraw (by decide) (by decide)⟩
      · have hweight : weight word = 9 := by
          rw [← weight_map_toLower, hraw]
          decide
        have hmark : isWeightless '!' = false := by decide
        simp only [weight_cons, weight_append, hweight, hmark, Bool.false_eq_true, if_false]
        omega
  · cases h

/-- What a word of media queries is read from. -/
theorem word_readAhead {kind : TokenKind} {first c : Char} {rest cs : List Char}
    (h : wordAhead first rest c cs = true) (hletters : '!' ∉ (first :: rest).map Char.toLower)
    (hsolid : isWeightless first = false) (hkind : kind ≠ .string)
    (himportant : kind ≠ .important) :
    (fixed kind (c :: cs.take rest.length)).ReadAhead (c :: cs) := by
  simp only [wordAhead, Bool.and_eq_true, sameLetter, beq_iff_eq] at h
  obtain ⟨⟨hletter, hword⟩, -⟩ := h
  obtain ⟨raw, after, rfl, hraw⟩ := exists_of_startsWord hword
  have hlength : raw.length = rest.length := by simpa using congrArg List.length hraw
  have htake : (raw ++ after).take rest.length = raw := List.take_left' hlength
  rw [htake]
  refine .ofTakes _ ⟨c :: raw, after, rfl, Piece.takes_ofText ?_⟩ ⟨c, raw, rfl, ?_⟩ hkind himportant
  · have hfolded : (c :: raw).map Char.toLower = (first :: rest).map Char.toLower := by
      simp [hletter, hraw]
    exact not_mem_of_map_toLower hfolded (by decide) hletters
  · rw [← isWeightless_toLower, hletter, isWeightless_toLower, hsolid]

/-- What a single character is read from. -/
theorem char_readAhead {c : Char} (cs : List Char) (hc : isBlank c = false) :
    (fixed .char [c]).ReadAhead (c :: cs) := by
  refine ⟨[c], cs, rfl, rfl, by simp, closed_of_not_mem (by simp), by simp [fixed], fun hsep => ?_⟩
  have hsemicolon : c ≠ ';' := by
    rintro rfl
    exact hsep (.inr ⟨rfl, rfl⟩)
  have hwritten : (fixed .char [c]).written = [c] := rfl
  refine ⟨⟨c, [], hwritten, by simp [isWeightless, hc, hsemicolon]⟩, ?_, ?_, fun _ => .inl ?_⟩ <;>
    simp [hwritten]

/-- What an operator of attribute selectors is read from. -/
theorem operator_readAhead {c : Char} {cs : List Char} {kind : TokenKind}
    (h : operator c cs = some kind) : (fixed kind [c, '=']).ReadAhead (c :: cs) := by
  unfold operator at h
  split at h
  · next hequals =>
      obtain ⟨rest, rfl⟩ : ∃ rest, cs = '=' :: rest := by
        cases cs with
        | nil => simp at hequals
        | cons d rest => exact ⟨rest, by simpa using hequals⟩
      split at h
      all_goals cases h
      all_goals
        exact .ofTakes _ ⟨_, rest, rfl, Piece.takes_ofText (by decide)⟩ ⟨_, _, rfl, by decide⟩
          (by decide) (by decide)
  · cases h

/-! ## All tokens -/

/-- What the opening of a comment in markup is read from. -/
theorem commentOpen_readAhead {cs : List Char} (h : startsWord ['!', '-', '-'] cs = true) :
    (fixed .commentOpen ['<', '!', '-', '-']).ReadAhead ('<' :: cs) := by
  obtain ⟨raw, rest, rfl, hraw⟩ := exists_of_startsWord h
  have hlength : raw.length = 3 := by simpa using congrArg List.length hraw
  refine .ofSeparator (by simp [fixed]) (by simp [fixed, Piece.ofText, hlength]) ?_
  intro before after heq
  refine absurd ?_ (not_mem_of_map_toLower (c := ' ') hraw (by decide) (by decide))
  cases before with
  | nil => cases (List.cons.inj heq).1
  | cons b before => simp [(List.cons.inj heq).2]

/-- What the closing of a comment in markup is read from. -/
theorem commentClose_readAhead {cs : List Char} (h : startsWord ['-', '>'] cs = true) :
    (fixed .commentClose ['-', '-', '>']).ReadAhead ('-' :: cs) := by
  obtain ⟨raw, rest, rfl, hraw⟩ := exists_of_startsWord h
  have hlength : raw.length = 2 := by simpa using congrArg List.length hraw
  refine .ofSeparator (by simp [fixed]) (by simp [fixed, Piece.ofText, hlength]) ?_
  exact closed_of_not_mem (not_mem_of_map_toLower hraw (by decide) (by decide))

/-- What a comment is read from. -/
theorem comment_readAhead {cs : List Char} (h : (commentBody cs).Faultless) :
    ReadAhead ⟨.comment, .silent 2 ++ commentBody cs⟩ ('/' :: '*' :: cs) := by
  obtain ⟨body, rest, rfl, hlength, -⟩ := commentBody_reads h
  have hshape : '/' :: '*' :: (body ++ '*' :: '/' :: rest) =
      '/' :: (('*' :: (body ++ ['*', '/'])) ++ rest) := by simp
  rw [hshape]
  refine .ofSeparator (by simp) ?_ ?_
  · rw [Piece.length_append, hlength]
    simp [Piece.silent]
    omega
  · intro before after _
    have hsplit : '/' :: '*' :: (body ++ ['*', '/']) =
        ('/' :: '*' :: (body ++ ['*'])) ++ ['/'] := by simp
    exact ⟨'/', by simp, by rw [hsplit, List.getLast?_concat]⟩

/-- What white space is read from. -/
theorem space_readAhead {c : Char} {cs : List Char} :
    ReadAhead ⟨.space, (Piece.silent (1 + (cs.takeWhile isBlank).length)).withText [' ']⟩
      (c :: cs) := by
  obtain ⟨blanks, rest, rfl, htake, -, hblank⟩ := exists_blanks cs
  rw [htake]
  refine .ofSeparator (by simp) (Nat.add_comm 1 _) (closed_of_not_mem (fun hmem => ?_))
  exact absurd (hblank _ hmem) (by decide)

/-- The character that starts a number. -/
theorem solid_of_numberAhead {c : Char} {cs : List Char} (h : numberAhead c cs = true) :
    isWeightless c = false ∧ c ≠ '!' := by
  have hstart : c.isDigit = true ∨ c = '.' ∨ c = '+' ∨ c = '-' := by
    simp only [numberAhead, isSign, Bool.or_eq_true, Bool.and_eq_true, beq_iff_eq] at h
    rcases h with (h | ⟨h | h | h, -⟩) | ⟨h | h, -⟩ <;> simp [h]
  rcases hstart with hdigit | rfl | rfl | rfl
  · exact nameClass_isNameChar c (by simp [isNameChar, hdigit])
  · decide
  · decide
  · decide

/-- What a token is read from, apart from the notes on telling it from a name. -/
theorem readBody_readAhead {c : Char} {cs : List Char} (h : (readBody c cs).Faultless) :
    (readBody c cs).ReadAhead (c :: cs) := by
  generalize readBody c cs = l, branch_readBody c cs = hbranch at h
  cases hbranch with
  | space => exact space_readAhead
  | commentClose hc hword => exact hc ▸ commentClose_readAhead hword
  | commentOpen hc hword => exact hc ▸ commentOpen_readAhead hword
  | only hword | not hword | and hword =>
      exact word_readAhead hword (by decide) (by decide) (by decide) (by decide)
  | uri hc hword => exact uri_readAhead hc hword h
  | range hc hrange => exact range_readAhead hc hrange
  -- Names and numbers are read from exactly what they take (`ReadAhead.ofTakes`).
  | ident hident =>
      obtain ⟨htakes, hsolid⟩ := ident_takes hident
      have hkind : (ident c cs).kind = .function ∨ (ident c cs).kind = .ident := by
        unfold ident
        simp only
        split
        · exact .inl rfl
        · exact .inr rfl
      rcases hkind with hkind | hkind <;>
        exact ReadAhead.ofTakes (ident c cs).kind htakes hsolid (by simp [hkind]) (by simp [hkind])
  | atKeyword hc =>
      obtain ⟨htakes, hsolid⟩ := atKeyword_takes cs
      have hkind : (atKeyword cs).kind = .atKeyword := by
        unfold atKeyword
        split <;> rfl
      rw [hc]
      exact ReadAhead.ofTakes (atKeyword cs).kind htakes hsolid (by simp [hkind]) (by simp [hkind])
  | number hnumber =>
      obtain ⟨hweight, hmark⟩ := solid_of_numberAhead hnumber
      obtain ⟨⟨m, hkind⟩, hsolid⟩ : (∃ m, (number c cs).kind = .quantity m) ∧
          Solid (number c cs).piece.text := by
        unfold number
        simp only
        split <;> exact ⟨⟨_, rfl⟩, c, _, rfl, hweight⟩
      exact ReadAhead.ofTakes (number c cs).kind (number_takes cs hmark) hsolid (by simp [hkind])
        (by simp [hkind])
  | comment tail hc hcs =>
      rw [hc, hcs]
      exact comment_readAhead (Piece.faultless_append.1 h).2
  | string hquote => exact string_readAhead hquote (Piece.faultless_append.1 h).2
  | hashName hc =>
      rw [hc]
      exact .ofTakes _ (hashName_takes cs) ⟨'#', _, rfl, by decide⟩ (by decide) (by decide)
  | className hc =>
      rw [hc]
      exact .ofTakes _ (className_takes cs) ⟨'.', _, rfl, by decide⟩ (by decide) (by decide)
  | important n hc hn => exact hc ▸ important_readAhead hn
  | operator kind hkind => exact operator_readAhead hkind
  | char hc => exact char_readAhead cs hc

/-- **What a token is read from.** -/
theorem read_readAhead {c : Char} {cs : List Char} (h : (read c cs).Faultless) :
    (read c cs).ReadAhead (c :: cs) := by
  have hbody : (readBody c cs).Faultless := fun n hn => h n (List.mem_append_right _ hn)
  obtain ⟨raw, rest, hcs, hraw⟩ := readBody_readAhead hbody
  exact ⟨raw, rest, hcs, hraw.length, hraw.nonempty, hraw.closed, hraw.important,
    fun hsep => ⟨(hraw.measured hsep).solid, (hraw.measured hsep).weight_le,
      (hraw.measured hsep).length_le, (hraw.measured hsep).tight⟩⟩

/-- A faultless token takes no more than there is. -/
theorem length_read_le {c : Char} {cs : List Char} (h : (read c cs).Faultless) :
    (read c cs).piece.length ≤ (c :: cs).length := by
  obtain ⟨raw, rest, hcs, hread⟩ := read_readAhead h
  rw [hread.length, hcs, List.length_append]
  exact Nat.le_add_right _ _

theorem read_semicolon (cs : List Char) : read ';' cs = fixed .char [';'] := by
  have hoperator : operator ';' cs = none := by
    unfold operator
    split <;> rfl
  have hbody : readBody ';' cs = readSymbol ';' cs := rfl
  rw [read, hbody, readSymbol, hoperator]
  rfl

/-- A token that starts with a character which weighs nothing is a separator. -/
theorem separates_of_isWeightless {c : Char} (h : isWeightless c = true) (cs : List Char) :
    (read c cs).Separates := by
  simp only [isWeightless, Bool.or_eq_true, beq_iff_eq] at h
  rcases h with h | rfl
  · have hread : (read c cs).kind = .space := by simp [read, readBody, h]
    exact .inl (by simp [hread])
  · rw [read_semicolon]
    exact .inr ⟨rfl, rfl⟩

end Lexeme

/-! ## Tokens in a text -/

namespace Scanned

/-- A token has a fault for each note that is one. -/
theorem faultless_iff {source : String} {p : Place} {cs : List Char} {l : Lexeme} :
    (∀ e ∈ (ofLexeme source p cs l).events, e.fault? = none) ↔ l.Faultless := by
  have hnote : ∀ n, (ScanEvent.ofNote source p cs n).fault? = none ↔ n.isFault = false := by
    intro n
    cases n <;> simp [ScanEvent.ofNote, ScanEvent.fault?, Note.isFault]
  simp only [ofLexeme, List.forall_mem_map, hnote]
  rfl

theorem faults_eq_nil_iff {source : String} {p : Place} {cs : List Char} {l : Lexeme} :
    (ofLexeme source p cs l).token.faults = [] ↔ l.Faultless := by
  rw [← @faultless_iff source p cs l]
  exact List.filterMap_eq_nil_iff

end Scanned

end EpubStyle
