import EpubStyle.Proofs.Spans.Transcripts

/-!
# Runs of blanks

White space is read up to the last blank of its run. Whether it also begins with the first one
depends on the token in front. No token ends within a run of blanks, but a name may end with the
blank that belongs to an escape, and what follows that is white space of its own (`Text.Uncut`,
`Lexeme.readBody_cutsNone`). So a faultless token without a backslash is a transcript of its span,
and white space is a whole run unless an escape in front of it has taken a blank
(`transcribes_of_scan`, `not_forall_isWholeRun`).
-/

set_option autoImplicit false

namespace EpubStyle

open Text

/-- No run of blanks is cut between two texts, unless the first one ends with an escape. -/
def Text.Uncut (raw rest : List Char) : Prop :=
  (∀ d ∈ rest.head?, isBlank d = false) ∨ (∃ b ∈ raw.getLast?, isBlank b = false) ∨
    ∃ front e, raw = front ++ Escape.sequence e ∧ Escape.read (e.written ++ rest) = .escape e

namespace Text.Uncut

variable {raw rest : List Char}

theorem of_all (hne : raw ≠ []) (h : ∀ c ∈ raw, isBlank c = false) : Uncut raw rest :=
  .inr (.inl ⟨raw.getLast hne, List.getLast?_eq_getLast_of_ne_nil hne, h _ (List.getLast_mem hne)⟩)

/-- What stands further in front does not matter. -/
theorem prepend (h : Uncut raw rest) (front : List Char) : Uncut (front ++ raw) rest := by
  rcases h with h | ⟨b, hb, hblank⟩ | ⟨more, e, rfl, he⟩
  · exact .inl h
  · refine .inr (.inl ⟨b, ?_, hblank⟩)
    rw [List.getLast?_append, Option.mem_def.1 hb]
    rfl
  · exact .inr (.inr ⟨front ++ more, e, (List.append_assoc ..).symm, he⟩)

/-- Behind a blank a run goes on only if the blank belongs to an escape. -/
theorem escape_of_blank (h : Uncut raw rest) {b d : Char} (hb : b ∈ raw.getLast?)
    (hbBlank : isBlank b = true) (hd : d ∈ rest.head?) (hdBlank : isBlank d = true) :
    ∃ front e, raw = front ++ Escape.sequence e ∧ Escape.read (e.written ++ rest) = .escape e := by
  rcases h with h | ⟨b', hb', hblank⟩ | h
  · rw [h d hd] at hdBlank
    cases hdBlank
  · obtain rfl := Option.mem_unique hb hb'
    rw [hblank] at hbBlank
    cases hbBlank
  · exact h

end Text.Uncut

/-- A name ends no run of blanks but behind an escape. -/
theorem NamePart.Along.uncut {rest raw : List Char} {literal : Char → Bool}
    {parts : List NamePart} (h : Along rest literal parts raw) {sign : List Char}
    (hsign : ∀ c ∈ sign, isBlank c = false) (hne : sign ++ raw ≠ []) :
    Uncut (sign ++ raw) rest := by
  rcases List.eq_nil_or_concat' raw with rfl | ⟨front, b, rfl⟩
  · exact .of_all hne (by simpa using hsign)
  · cases hb : isBlank b with
    | false => exact .inr (.inl ⟨b, by simp, hb⟩)
    | true =>
        obtain ⟨more, e, hraw, he⟩ := h.escape_of_blank List.getLast?_concat hb
        exact Uncut.prepend (.inr (.inr ⟨more, e, hraw, he⟩)) sign

/-- The piece cuts no run of blanks of the text that it is read from. -/
def Piece.CutsNone (p : Piece) (cs : List Char) : Prop :=
  Uncut (cs.take p.length) (cs.drop p.length)

namespace Piece.CutsNone

variable {p q : Piece} {cs : List Char}

theorem of_split (raw : List Char) {rest : List Char} (hlength : p.length = raw.length)
    (h : Uncut raw rest) : p.CutsNone (raw ++ rest) := by
  rwa [CutsNone, hlength, List.take_left, List.drop_left]

/-- Nothing is left to be cut. -/
theorem of_rest (h : ∀ d ∈ (cs.drop p.length).head?, isBlank d = false) : p.CutsNone cs := .inl h

theorem append (h : q.CutsNone (cs.drop p.length)) : (p ++ q).CutsNone cs := by
  rw [CutsNone, length_append, List.take_add, ← List.drop_drop]
  exact h.prepend _

end Piece.CutsNone

namespace Lexeme

/-! ## Comments, strings and addresses -/

theorem commentBody_cutsNone (cs : List Char) : (commentBody cs).CutsNone cs := by
  fun_induction commentBody cs with
  | case1 => exact .of_rest (by simp)
  | case2 c cs hend =>
      simp only [Bool.and_eq_true, beq_iff_eq] at hend
      obtain ⟨rest, rfl⟩ := List.head?_eq_some_iff.1 hend.2
      exact .inr (.inl ⟨'/', rfl, by decide⟩)
  | case3 c cs hend ih => exact .append ih

/-- What is skipped ends before a terminator. -/
theorem head?_drop_distanceTo (stop : Char → Bool) (current : Option Char) (cs : List Char) :
    ∀ d ∈ (cs.drop (distanceTo stop current cs)).head?, stop d = true := by
  induction cs generalizing current with
  | nil => simp
  | cons c cs ih =>
      rw [distanceTo]
      split
      · next h =>
          intro d hd
          obtain rfl := Option.some.inj hd
          exact (Bool.and_eq_true_iff.1 h).1
      · exact ih (some c)

theorem stringBody_cutsNone {quote : Char} (hquote : isQuote quote = true) (cs : List Char) :
    (stringBody quote cs).CutsNone cs := by
  fun_induction stringBody quote cs with
  | case1 => exact .of_rest (by simp)
  | case2 c cs hbreak =>
      apply Piece.CutsNone.of_rest
      intro d hd
      rw [Nat.add_comm, List.drop_succ_cons] at hd
      have hstop := head?_drop_distanceTo isTerminator (some c) cs d hd
      simp only [isTerminator, Bool.or_eq_true, beq_iff_eq] at hstop
      rcases hstop with (rfl | rfl) | rfl <;> decide
  | case3 => exact .of_rest (by simp [Piece.length_append, Piece.ofChar, Piece.fault])
  | case4 c hbreak hback cs ih => exact .append ih
  | case5 c hbreak hback d cs hne hd ih => exact .append ih
  | case6 c hbreak hback d cs hne hd ih => exact .append ih
  | case7 c cs hbreak hback hend =>
      obtain rfl := beq_iff_eq.1 hend
      exact .inr (.inl ⟨c, rfl, isBlank_of_isWeightless (isWeightless_of_isQuote hquote)⟩)
  | case8 c cs hbreak hback hend ih => exact .append ih

theorem bareAddress_cutsNone (cs : List Char) : (bareAddress cs).CutsNone cs := by
  fun_induction bareAddress cs with
  | case1 => exact .of_rest (by simp)
  | case2 c cs hclose =>
      obtain rfl := beq_iff_eq.1 hclose
      exact .inr (.inl ⟨')', rfl, by decide⟩)
  | case3 => exact .of_rest (by simp [Piece.length_append, Piece.ofChar, Piece.fault])
  | case4 c hclose hback d cs ih => exact .append ih
  | case5 c cs hclose hback ih => exact .append ih

theorem addressClose_cutsNone (clean : Bool) {cs : List Char}
    (h : ∀ d ∈ cs.head?, isBlank d = false) : (addressClose clean cs).CutsNone cs := by
  cases cs with
  | nil => exact .of_rest (by simp)
  | cons c cs =>
      simp only [addressClose]
      split
      · next hclose =>
          obtain rfl := beq_iff_eq.1 hclose
          exact .inr (.inl ⟨')', rfl, by decide⟩)
      · split <;> exact .of_rest h

theorem head?_drop_blanks (cs : List Char) :
    ∀ d ∈ (cs.drop (cs.takeWhile isBlank).length).head?, isBlank d = false := by
  intro d hd
  obtain ⟨rest, hdrop⟩ := List.head?_eq_some_iff.1 hd
  exact isBlank_of_drop hdrop

theorem quotedAddress_cutsNone (quote : Char) (cs : List Char) :
    (quotedAddress quote cs).CutsNone cs := by
  unfold quotedAddress
  apply Piece.CutsNone.append
  have hlength := Piece.length_append (stringBody quote cs) (Piece.silent
    ((cs.drop (stringBody quote cs).length).takeWhile isBlank).length)
  rw [hlength, ← List.drop_drop]
  exact addressClose_cutsNone _ (head?_drop_blanks _)

theorem address_cutsNone (cs : List Char) : (address cs).CutsNone cs := by
  generalize address cs = p, branch_address cs = hbranch
  cases hbranch with
  | ended =>
      apply Piece.CutsNone.append
      exact .of_rest (by simp [Piece.silent, Piece.fault])
  | @quoted blanks _ quote _ rest =>
      apply Piece.CutsNone.append
      have hrest : (blanks ++ quote :: rest).drop (blanks.length + 1) = rest :=
        List.drop_length_add_append 1
      exact hrest.symm ▸ quotedAddress_cutsNone quote rest
  | @bare blanks _ c _ _ rest =>
      apply Piece.CutsNone.append
      exact List.drop_left.symm ▸ bareAddress_cutsNone (c :: rest)

/-! ## Names and numbers -/

theorem named_cutsNone {l : Lexeme} {cs : List Char} (h : l.NamedAhead cs)
    (hpos : 0 < l.piece.length) : l.piece.CutsNone cs := by
  obtain ⟨sign, parts, raw, rest, rfl, hname⟩ := h
  refine .of_split _ hname.length (hname.along.uncut (fun c hc => (hname.plain c hc).2) ?_)
  intro hnil
  rw [hname.length, hnil] at hpos
  cases hpos

theorem number_cutsNone {c : Char} {cs : List Char} (h : numberAhead c cs = true) :
    (number c cs).piece.CutsNone (c :: cs) := by
  obtain ⟨numeral, parts, raw, rest, hcs, hne, hnumeral, halong, hlength, -⟩ := number_spells h
  rw [hcs]
  refine .of_split _ hlength (halong.uncut (fun d hd => ?_) (by simp [hne]))
  exact isBlank_of_isWeightless (isWeightless_of_class (by decide) (hnumeral d hd))

theorem range_cutsNone (c : Char) {cs : List Char} (h : rangeAhead cs = true) :
    (range cs).piece.CutsNone (c :: cs) := by
  obtain ⟨cs, rfl⟩ := exists_of_rangeAhead h
  obtain ⟨⟨rest, hrest⟩, hmem⟩ := rangeBody_prefix ['+', 'U'] 0 cs
  have hlength := length_rangeBody ['+', 'U'] 0 cs
  have hsplit : c :: '+' :: cs = ([c] ++ '+' :: (rangeBody ['+', 'U'] 0 cs).text) ++ rest :=
    congrArg (c :: '+' :: ·) hrest
  rw [hsplit]
  apply Piece.CutsNone.of_split
  · have hrange : (range ('+' :: cs)).piece.length = 2 + (rangeBody ['+', 'U'] 0 cs).length := rfl
    rw [hrange, hlength, Nat.add_comm]
    rfl
  · apply Uncut.prepend
    apply Uncut.of_all (List.cons_ne_nil _ _)
    refine List.forall_mem_cons.2 ⟨by decide, fun d hd => ?_⟩
    exact isBlank_of_isWeightless (isWeightless_of_class (by decide) (hmem d hd))

/-! ## Words -/

/-- A word that agrees with one without blanks has none. -/
theorem uncut_of_word {raw word : List Char} (h : raw.map Char.toLower = word.map Char.toLower)
    (hne : word ≠ []) (hword : word.any isWeightless = false) (rest : List Char) :
    Uncut raw rest := by
  apply Uncut.of_all
  · rintro rfl
    exact hne (List.map_eq_nil_iff.1 h.symm)
  · intro c hc
    have hmem : c.toLower ∈ word.map Char.toLower := h ▸ List.mem_map_of_mem hc
    obtain ⟨d, hd, hlower⟩ := List.mem_map.1 hmem
    apply isBlank_of_isWeightless
    rw [← isWeightless_toLower, ← hlower, isWeightless_toLower, ← Bool.not_eq_true]
    exact List.any_eq_false.1 hword d hd

theorem word_cutsNone {kind : TokenKind} {first c : Char} {word cs : List Char}
    (h : wordAhead first word c cs = true) (hword : (first :: word).any isWeightless = false) :
    (fixed kind (c :: cs.take word.length)).piece.CutsNone (c :: cs) := by
  simp only [wordAhead, Bool.and_eq_true, sameLetter, beq_iff_eq] at h
  obtain ⟨raw, rest, rfl, hraw⟩ := exists_of_startsWord h.1.2
  have hlength : raw.length = word.length := by simpa using congrArg List.length hraw
  rw [List.take_left' hlength]
  refine Piece.CutsNone.of_split (c :: raw) rfl
    (uncut_of_word ?_ (List.cons_ne_nil _ _) hword rest)
  rw [List.map_cons, List.map_cons, h.1.1, hraw]

theorem important_cutsNone {cs : List Char} {n : Nat} (h : importantAhead cs = some n) (c : Char) :
    ((Piece.silent (n + 1)).withText
      ['!', 'i', 'm', 'p', 'o', 'r', 't', 'a', 'n', 't']).CutsNone (c :: cs) := by
  obtain ⟨blanks, word, rest, rfl, -, hword, rfl⟩ := exists_of_importantAhead h
  refine Piece.CutsNone.of_split (c :: (blanks ++ word)) rfl ?_
  exact (uncut_of_word hword (by simp) (by decide) rest).prepend (c :: blanks)

/-! ## All tokens -/

/-- **No lexeme cuts a run of blanks**, whatever is wrong with it, unless it ends with an escape. -/
theorem readBody_cutsNone (c : Char) (cs : List Char) :
    (readBody c cs).piece.CutsNone (c :: cs) := by
  have hpos : 0 < (readBody c cs).piece.length := length_read_pos c cs
  generalize readBody c cs = l, branch_readBody c cs = hbranch at hpos ⊢
  cases hbranch with
  | space =>
      apply Piece.CutsNone.of_rest
      have hdrop : ∀ n, (c :: cs).drop (1 + n) = cs.drop n := by
        intro n
        rw [Nat.add_comm]
        rfl
      exact hdrop _ ▸ head?_drop_blanks cs
  -- A fixed text ends with a character that is no blank.
  | commentClose hc hstart =>
      obtain ⟨rest, rfl⟩ := exists_of_startsWord_fixed hstart (by decide)
      exact .inr (.inl ⟨'>', rfl, by decide⟩)
  | commentOpen hc hstart =>
      obtain ⟨rest, rfl⟩ := exists_of_startsWord_fixed hstart (by decide)
      exact .inr (.inl ⟨'-', rfl, by decide⟩)
  | only h | not h | and h => exact word_cutsNone h (by decide)
  | uri => exact .append (address_cutsNone _)
  | range hc h => exact range_cutsNone c h
  | ident h => exact named_cutsNone (ident_named h) hpos
  | atKeyword hc h => exact named_cutsNone (hc ▸ atKeyword_named h) hpos
  | hashName hc => exact named_cutsNone (hc ▸ hashName_named cs) hpos
  | className hc h => exact named_cutsNone (hc ▸ className_named h) hpos
  | number h => exact number_cutsNone h
  | comment tail hc hcs =>
      rw [hcs]
      exact .append (commentBody_cutsNone tail)
  | string hquote => exact .append (stringBody_cutsNone hquote cs)
  | important n hc h => exact important_cutsNone h c
  | operator kind h =>
      obtain ⟨rest, rfl⟩ := exists_of_operator h
      exact .inr (.inl ⟨'=', rfl, by decide⟩)
  | char hblank => exact .inr (.inl ⟨c, rfl, hblank⟩)

end Lexeme

/-! ## Tokens in a text -/

/-- A run of blanks as it stands between two texts: it is whole but for blanks in front that belong
to an escape. -/
structure Text.IsRun (before run behind : List Char) : Prop where
  ends : ∀ d ∈ behind.head?, isBlank d = false
  starts : ∀ b ∈ before.getLast?, isBlank b = true →
    ∃ front e, before = front ++ Escape.sequence e ∧
      Escape.read (e.written ++ (run ++ behind)) = .escape e

/-- A run of blanks with no blank on either side. -/
structure Text.IsWholeRun (before behind : List Char) : Prop where
  starts : ∀ b ∈ before.getLast?, isBlank b = false
  ends : ∀ d ∈ behind.head?, isBlank d = false

/-- A faultless lexeme is a transcript of the characters that it takes. -/
theorem Lexeme.transcribes_read {c : Char} {cs : List Char} (h : (read c cs).Faultless)
    (hback : '\\' ∉ (c :: cs).take (read c cs).piece.length) :
    Transcribes (read c cs).kind (read c cs).piece.text
      ((c :: cs).take (read c cs).piece.length) := by
  have hbody : (readBody c cs).Faultless := fun n hn => h n (List.mem_append_right _ hn)
  obtain ⟨raw, rest, hcs, hlength, htranscript⟩ := readBody_transcribed hbody
  have hread : (read c cs).piece.length = (readBody c cs).piece.length := rfl
  have hraw : (c :: cs).take (read c cs).piece.length = raw := by
    rw [hread, hlength, hcs, List.take_left]
  rw [hraw] at hback ⊢
  exact htranscript hback

/-- White space is read where a blank stands, and up to the last blank of the run. -/
theorem Lexeme.space_ends {c : Char} {cs : List Char} (h : (read c cs).kind = .space) :
    isBlank c = true ∧
      ∀ d ∈ ((c :: cs).drop (read c cs).piece.length).head?, isBlank d = false := by
  have hc : isBlank c = true := by
    have hkind : (readBody c cs).kind = .space := h
    generalize readBody c cs = l, branch_readBody c cs = hbranch at hkind
    cases hbranch with
    | space hc => exact hc
    | ident => rcases kind_ident c cs with hident | hident <;> rw [hident] at hkind <;> cases hkind
    | atKeyword => rw [kind_atKeyword] at hkind; cases hkind
    | number =>
        obtain ⟨m, hm⟩ := kind_number c cs
        rw [hm] at hkind
        cases hkind
    | operator kind hoperator =>
        have hmem := kind_operator hoperator
        obtain rfl : kind = .space := hkind
        simp at hmem
    | _ => cases hkind
  have hlength : (read c cs).piece.length = (cs.takeWhile isBlank).length + 1 := by
    simp [read, readBody, hc, Piece.withText, Piece.silent, Nat.add_comm]
  rw [hlength, List.drop_succ_cons]
  exact ⟨hc, head?_drop_blanks cs⟩

/-- **A faultless token without a backslash is a transcript of its span**, and white space is a run
of blanks that is whole but for the blanks of an escape. -/
theorem transcribes_of_scan {text source : String} {before after : List Scanned} {s : Scanned}
    (h : scan text source = before ++ s :: after) (hfaults : s.token.faults = [])
    (hback : '\\' ∉ s.token.span text after) :
    Transcribes s.token.kind s.token.text.toList (s.token.span text after) ∧
      (s.token.kind = .space →
        IsRun (s.token.before text) (s.token.span text after) (s.token.behind text after)) := by
  -- What was read in front cuts no run of blanks, unless nothing was read.
  obtain ⟨p, c, cs, rfl, hahead, hbefore, hspan⟩ :=
    exists_lexeme_of_scan h (fun front rest => front = [] ∨ Uncut front rest) (.inl rfl)
      (fun front c cs _ => .inr ((Lexeme.readBody_cutsNone c cs).prepend front))
  have hfaultless : (Lexeme.read c cs).Faultless := Scanned.faults_eq_nil_iff.1 hfaults
  rw [hspan] at hback ⊢
  have htranscript := Lexeme.transcribes_read hfaultless hback
  have htext : (Scanned.ofLexeme source p (c :: cs) (Lexeme.read c cs)).token.text.toList =
      (Lexeme.read c cs).piece.text := String.toList_ofList
  rw [htext]
  refine ⟨htranscript, fun hkind => ?_⟩
  obtain ⟨hblank, hends⟩ := Lexeme.space_ends hkind
  have hbehind : (Scanned.ofLexeme source p (c :: cs) (Lexeme.read c cs)).token.behind text after =
      (c :: cs).drop (Lexeme.read c cs).piece.length := by
    rw [Token.behind, hspan, hahead]
    rcases Nat.le_total (Lexeme.read c cs).piece.length (c :: cs).length with hle | hle
    · rw [List.length_take_of_le hle]
    · rw [List.take_of_length_le hle, List.drop_length, List.drop_eq_nil_of_le hle]
  rw [hbehind]
  refine ⟨hends, fun b hb hbBlank => ?_⟩
  rw [List.take_append_drop]
  rcases hbefore with hnil | huncut
  · rw [hnil] at hb
    cases hb
  · exact huncut.escape_of_blank hb hbBlank rfl hblank

/-- The address in `url( 'a' )` loses its blanks and keeps its quotation marks. -/
theorem transcribes_of_scan_address :
    ∃ s, scan "url( 'a' )" "" = [] ++ s :: [] ∧ s.token.faults = [] ∧
      '\\' ∉ s.token.span "url( 'a' )" [] ∧ s.token.text = "url('a')" ∧
      Transcribes .uri "url('a')".toList (s.token.span "url( 'a' )" []) := by
  have hscan : scan "url( 'a' )" "" = [] ++ ⟨⟨.uri, "url('a')", ⟨1, 1, 1, ""⟩, []⟩, []⟩ :: [] := by
    decide +kernel
  have hback : '\\' ∉ Token.span "url( 'a' )" ⟨.uri, "url('a')", ⟨1, 1, 1, ""⟩, []⟩ [] := by
    decide
  exact ⟨_, hscan, rfl, hback, rfl, (transcribes_of_scan hscan rfl hback).1⟩

/-- **White space need not be a whole run of blanks**: the first blank of two behind the escape in
`a\\31` belongs to the identifier. -/
theorem not_forall_isWholeRun :
    ¬ ∀ text source (before after : List Scanned) s, scan text source = before ++ s :: after →
      s.token.faults = [] → '\\' ∉ s.token.span text after →
      Transcribes s.token.kind s.token.text.toList (s.token.span text after) ∧
        (s.token.kind = .space →
          IsWholeRun (s.token.before text) (s.token.behind text after)) := by
  intro h
  have hscan : scan "a\\31  x" "" =
      [⟨⟨.ident, "a1", ⟨1, 1, 1, ""⟩, []⟩, []⟩] ++ ⟨⟨.space, " ", ⟨1, 6, 6, ""⟩, []⟩, []⟩ ::
        [⟨⟨.ident, "x", ⟨1, 7, 7, ""⟩, []⟩, []⟩] := by
    decide +kernel
  have hrun := (h _ _ _ _ _ hscan rfl (by decide)).2 rfl
  have hblank : isBlank ' ' = false := hrun.starts ' ' (by decide)
  cases hblank

end EpubStyle
