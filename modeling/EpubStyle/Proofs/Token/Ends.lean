import EpubStyle.Proofs.Token.Notes

/-!
# Where the end of the text is reported

A comment, a string or an address that the text breaks off is reported, and so is a backslash with
nothing behind it. A text ends once, but several readers look for its end: a quoted address has a
string read first and then looks for its parenthesis, and the test whether a name begins at a
backslash comes before any reader. `Piece.ends` counts the reports in a piece.

## What this module delivers

- `Piece.EndsOnce`: a piece has at most one report, and where it has one it takes all that is left
  of the text. Names, numbers and ranges never have one (the simp lemmas `ends_*`).
- `Lexeme.endsOnce_read`: this holds of every lexeme.
- `endsLast_scan`: of the tokens of a text only the last one can have a report, and only one.
-/

set_option autoImplicit false

namespace EpubStyle

open Text

/-! ## Counting reports -/

/-- The note reports that the text has ended too early. -/
def Note.isEnd : Note → Bool
  | fault _ code _ => code == .lexicalEnd
  | stepBack _ => false

/-- The fault reports that the text has ended too early. -/
def Fault.isEnd (f : Fault) : Bool := f.code == .lexicalEnd

namespace Piece

/-- The number of reports in a piece that the text has ended too early. -/
def ends (p : Piece) : Nat := p.notes.countP Note.isEnd

/-- At the front of the text `cs` the piece reports at most once that the text has ended, and then
nothing stands behind the piece. -/
structure EndsOnce (p : Piece) (cs : List Char) : Prop where
  once : p.ends ≤ 1
  final : p.ends ≠ 0 → cs.length ≤ p.length

theorem isEnd_shift (n : Nat) (note : Note) : (note.shift n).isEnd = note.isEnd := by
  cases note <;> rfl

@[simp] theorem ends_append (p q : Piece) : (p ++ q).ends = p.ends + q.ends := by
  have hshift : Note.isEnd ∘ Note.shift p.length = Note.isEnd := funext (isEnd_shift p.length)
  rw [ends, notes_append, List.countP_append, List.countP_map, hshift]
  rfl

@[simp] theorem ends_empty : ends {} = 0 := rfl

@[simp] theorem ends_ofChar (c : Char) : (ofChar c).ends = 0 := rfl

@[simp] theorem ends_ofText (cs : List Char) : (ofText cs).ends = 0 := rfl

@[simp] theorem ends_silent (n : Nat) : (silent n).ends = 0 := rfl

@[simp] theorem ends_stepBack (distance : Nat) : (stepBack distance).ends = 0 := rfl

@[simp] theorem ends_withText (p : Piece) (text : List Char) :
    (p.withText text).ends = p.ends := rfl

@[simp] theorem ends_fault (steps : Nat) (code : Code) (arguments : List Wording) :
    (fault steps code arguments).ends = if code = .lexicalEnd then 1 else 0 := by
  simp [ends, fault, List.countP_cons, Note.isEnd]

/-! ## Names -/

@[simp] theorem ends_ofEscape (literal : Char → Bool) (e : Escape) :
    (ofEscape literal e).ends = 0 := by
  simp only [ends, ofEscape]
  split <;> rfl

theorem ends_escape? {literal : Char → Bool} {cs : List Char} {p : Piece}
    (h : escape? literal cs = some p) : p.ends = 0 := by
  unfold escape? at h
  split at h <;> cases h
  exact ends_ofEscape literal _

@[simp] theorem ends_first (literal : Char → Bool) (cs : List Char) :
    (first literal cs).ends = 0 := by
  cases cs with
  | nil => rfl
  | cons c cs =>
      simp only [first]
      split
      · cases hescape : escape? literal cs with
        | none => rfl
        | some p => exact ends_escape? hescape
      · split <;> rfl

@[simp] theorem ends_run (accept : Char → Bool) (cs : List Char) : (run accept cs).ends = 0 := by
  fun_induction run accept cs with
  | case1 => rfl
  | case2 c cs hback e hread ih => simp [ih]
  | case3 => rfl
  | case4 => rfl
  | case5 c cs hback haccept ih => simp [ih]
  | case6 => rfl

@[simp] theorem ends_name (cs : List Char) : (name cs).ends = 0 := by
  simp [name]

/-! ## Pieces in a row -/

theorem EndsOnce.of_eq_zero {p : Piece} (h : p.ends = 0) (cs : List Char) : p.EndsOnce cs :=
  ⟨by omega, fun hne => absurd h hne⟩

/-- A piece without a report may stand before any other. -/
theorem EndsOnce.behind {p q : Piece} {cs : List Char} (hp : p.ends = 0)
    (hq : q.EndsOnce (cs.drop p.length)) : (p ++ q).EndsOnce cs where
  once := by
    rw [ends_append, hp, Nat.zero_add]
    exact hq.once
  final hne := by
    rw [ends_append, hp, Nat.zero_add] at hne
    have hle := hq.final hne
    rw [List.length_drop] at hle
    rw [length_append]
    omega

/-- A piece without a report may stand behind any other. -/
theorem EndsOnce.before {p q : Piece} {cs : List Char} (hp : p.EndsOnce cs) (hq : q.ends = 0) :
    (p ++ q).EndsOnce cs where
  once := by
    rw [ends_append, hq]
    exact hp.once
  final hne := by
    rw [ends_append, hq] at hne
    rw [length_append]
    exact Nat.le_add_right_of_le (hp.final hne)

theorem EndsOnce.withText {p : Piece} {cs : List Char} (h : p.EndsOnce cs) (text : List Char) :
    (p.withText text).EndsOnce cs :=
  ⟨h.once, h.final⟩

/-- The text has ended where this is reported. -/
theorem endsOnce_fault (steps : Nat) (arguments : List Wording) :
    (fault steps .lexicalEnd arguments).EndsOnce [] :=
  ⟨by simp, fun _ => Nat.zero_le _⟩

end Piece

namespace Lexeme

/-! ## Comments, strings and addresses -/

theorem endsOnce_commentBody (cs : List Char) : (commentBody cs).EndsOnce cs := by
  fun_induction commentBody cs with
  | case1 => exact Piece.endsOnce_fault _ _
  | case2 c cs hend => exact .of_eq_zero rfl _
  | case3 c cs hend ih => exact .behind rfl ih

theorem endsOnce_stringBody (quote : Char) (cs : List Char) :
    (stringBody quote cs).EndsOnce cs := by
  fun_induction stringBody quote cs with
  | case1 => exact Piece.endsOnce_fault _ _
  | case2 c cs hbreak => exact .of_eq_zero rfl _
  | case3 c hbreak hback => exact .behind rfl (Piece.endsOnce_fault _ _)
  | case4 c hbreak hback cs ih => exact .behind rfl ih
  | case5 c hbreak hback d cs hpair hbreak' ih => exact .behind rfl ih
  | case6 c hbreak hback d cs hpair hbreak' ih => exact .behind rfl ih
  | case7 c cs hbreak hback hquote => exact .of_eq_zero rfl _
  | case8 c cs hbreak hback hquote ih => exact .behind rfl ih

theorem endsOnce_bareAddress (cs : List Char) : (bareAddress cs).EndsOnce cs := by
  fun_induction bareAddress cs with
  | case1 => exact Piece.endsOnce_fault _ _
  | case2 c cs hclose => exact .of_eq_zero rfl _
  | case3 c hclose hback => exact .behind rfl (Piece.endsOnce_fault _ _)
  | case4 c hclose hback d cs ih => exact .behind rfl ih
  | case5 c cs hclose hback ih => exact .behind rfl ih

/-- The parenthesis is missed at the end of the text only. -/
theorem endsOnce_addressClose (clean : Bool) (cs : List Char) :
    (addressClose clean cs).EndsOnce cs := by
  cases cs with
  | nil =>
      cases clean with
      | false => exact .of_eq_zero rfl _
      | true => exact Piece.endsOnce_fault _ _
  | cons c cs =>
      refine .of_eq_zero ?_ _
      simp only [addressClose]
      split
      · rfl
      · split <;> rfl

/-- Where the string of an address has a fault, the parenthesis is not missed. -/
theorem ends_addressClose_false (cs : List Char) : (addressClose false cs).ends = 0 := by
  cases cs with
  | nil => rfl
  | cons c cs =>
      simp only [addressClose]
      split <;> rfl

theorem endsOnce_quotedAddress (quote : Char) (cs : List Char) :
    (quotedAddress quote cs).EndsOnce cs := by
  have hbody := endsOnce_stringBody quote cs
  simp only [quotedAddress]
  generalize stringBody quote cs = body at hbody
  generalize ((cs.drop body.length).takeWhile isBlank).length = gap
  by_cases hends : body.ends = 0
  · refine .behind (by simp [hends]) ?_
    rw [List.drop_drop]
    exact endsOnce_addressClose _ _
  · -- The string was broken off, so it is not clean, and that is all that is reported.
    have hnotes : body.notes.isEmpty = false := by
      rw [← Bool.not_eq_true, List.isEmpty_iff]
      intro hnil
      exact hends (by simp [Piece.ends, hnil])
    rw [hnotes]
    exact .before (.before hbody (Piece.ends_silent gap)) (ends_addressClose_false _)

theorem endsOnce_address (cs : List Char) : (address cs).EndsOnce cs := by
  generalize address cs = p, branch_address cs = hbranch
  cases hbranch with
  | @ended blanks _ =>
      refine .behind rfl ?_
      change Piece.EndsOnce _ (cs.drop cs.length)
      rw [List.drop_length]
      exact Piece.endsOnce_fault _ _
  | @quoted blanks _ quote _ rest =>
      refine .behind rfl (.withText ?_ _)
      have hrest : (blanks ++ quote :: rest).drop (blanks.length + 1) = rest :=
        List.drop_length_add_append 1
      exact hrest.symm ▸ endsOnce_quotedAddress quote rest
  | @bare blanks _ c _ _ rest =>
      refine .behind rfl (.withText ?_ _)
      exact List.drop_left.symm ▸ endsOnce_bareAddress (c :: rest)

/-! ## The other readers -/

@[simp] theorem ends_identStart (c : Char) (cs : List Char) : (identStart c cs).ends = 0 := by
  unfold identStart
  split
  · cases hescape : Piece.escape? isNameStart cs with
    | none => rfl
    | some p => exact Piece.ends_escape? hescape
  · split <;> simp

theorem ends_unit {cs : List Char} {p : Piece} (h : unit cs = some p) : p.ends = 0 := by
  unfold unit at h
  split at h
  · cases h
  · repeat' split at h
    all_goals cases h
    all_goals simp

@[simp] theorem ends_rangeBody (seen : List Char) (count : Nat) (cs : List Char) :
    (rangeBody seen count cs).ends = 0 := by
  induction cs generalizing seen count with
  | nil => rfl
  | cons c cs ih =>
      simp only [rangeBody]
      split
      · have hnotes : ∀ (b : Bool) (arguments : List Wording), Piece.ends
            ⟨[c], 1, if b then [.fault 1 .illegalUnicodeRange arguments] else []⟩ = 0 := by
          intro b arguments
          cases b <;> rfl
        rw [Piece.ends_append, ih, Nat.add_zero]
        exact hnotes _ _
      · rfl

theorem ends_ident (c : Char) (cs : List Char) : (ident c cs).piece.ends = 0 := by
  simp only [ident]
  split <;> simp

theorem ends_atKeyword (cs : List Char) : (atKeyword cs).piece.ends = 0 := by
  unfold atKeyword
  split <;> simp

theorem ends_number (c : Char) (cs : List Char) : (number c cs).piece.ends = 0 := by
  simp only [number]
  split
  · next suffix hunit => simp [ends_unit hunit]
  · rw [Piece.ends_append, Piece.ends_ofText]
    split <;> rfl

/-! ## Lexemes -/

theorem endsOnce_of_branch {c : Char} {cs : List Char} {l : Lexeme} (h : Branch c cs l) :
    l.piece.EndsOnce (c :: cs) := by
  cases h with
  | uri => exact .behind rfl ((endsOnce_address (cs.drop 3)).withText _)
  | comment tail hc hcs =>
      rw [hcs]
      exact .behind rfl (endsOnce_commentBody tail)
  | string => exact .behind rfl (endsOnce_stringBody c cs)
  | ident => exact .of_eq_zero (ends_ident c cs) _
  | atKeyword => exact .of_eq_zero (ends_atKeyword cs) _
  | number => exact .of_eq_zero (ends_number c cs) _
  | _ => exact .of_eq_zero (by simp [fixed, range, hashName, className]) _

/-- The test whether a name begins reports the end of the text only at a backslash with nothing
behind it. -/
theorem ends_probe (c : Char) (cs : List Char) :
    (probe c cs).countP Note.isEnd = if c = '\\' ∧ cs = [] then 1 else 0 := by
  by_cases hback : c = '\\'
  · subst hback
    cases cs <;> rfl
  · rw [if_neg fun h => hback h.1]
    simp only [probe, beq_iff_eq, hback, if_false]
    repeat' split
    all_goals rfl

/-- **A lexeme reports once at most that the text has ended**, and then it is the last one. -/
theorem endsOnce_read (c : Char) (cs : List Char) : (read c cs).piece.EndsOnce (c :: cs) := by
  have hbody := endsOnce_of_branch (branch_readBody c cs)
  have hends : (read c cs).piece.ends =
      (if c = '\\' ∧ cs = [] then 1 else 0) + (readBody c cs).piece.ends := by
    rw [← ends_probe]
    exact List.countP_append ..
  by_cases hback : c = '\\' ∧ cs = []
  · obtain ⟨rfl, rfl⟩ := hback
    exact ⟨Nat.le_refl 1, fun _ => Nat.le_refl 1⟩
  · rw [if_neg hback, Nat.zero_add] at hends
    exact ⟨hends ▸ hbody.once, fun hne => hbody.final (hends ▸ hne)⟩

end Lexeme

/-! ## Tokens -/

/-- The number of reports on a token that the text has ended too early. -/
def Token.ends (t : Token) : Nat := t.faults.countP Fault.isEnd

theorem Scanned.ends_ofLexeme (source : String) (p : Place) (cs : List Char) (l : Lexeme) :
    (Scanned.ofLexeme source p cs l).token.ends = l.piece.ends := by
  simp only [Scanned.ofLexeme, Token.ends, Piece.ends, List.filterMap_map, List.countP_filterMap]
  refine List.countP_congr fun n _ => ?_
  cases n <;> rfl

/-- Only the last token may have a report that the text has ended, and at most one. -/
inductive EndsLast : List Token → Prop
  | none : EndsLast []
  | last (t : Token) (h : t.ends ≤ 1) : EndsLast [t]
  | cons (t : Token) {ts : List Token} (h : t.ends = 0) (hts : EndsLast ts) : EndsLast (t :: ts)

theorem endsLast_scanFrom (source : String) (p : Place) (cs : List Char) :
    EndsLast ((scanFrom source p cs).map Scanned.token) := by
  fun_induction scanFrom source p cs with
  | case1 => exact .none
  | case2 p c cs l ih =>
      have hread : l.piece.EndsOnce (c :: cs) := Lexeme.endsOnce_read c cs
      have hends := Scanned.ends_ofLexeme source p (c :: cs) l
      by_cases hzero : l.piece.ends = 0
      · exact .cons _ (hends.trans hzero) ih
      · -- The lexeme has taken all that was left.
        have hdrop : cs.drop (l.piece.length - 1) = [] := by
          have hle := hread.final hzero
          rw [List.length_cons] at hle
          exact List.drop_eq_nil_of_le (by omega)
        rw [hdrop, scanFrom]
        exact .last _ (hends ▸ hread.once)

/-- **Of the tokens of a text only the last one can have a report that the text has ended.** -/
theorem endsLast_scan (text source : String) : EndsLast ((scan text source).map Scanned.token) :=
  endsLast_scanFrom source {} text.toList

namespace EndsLast

variable {ts : List Token}

theorem once (h : EndsLast ts) : (ts.flatMap Token.faults).countP Fault.isEnd ≤ 1 := by
  induction h with
  | none => simp
  | last t h => simpa [Token.ends] using h
  | cons t h hts ih =>
      rw [List.flatMap_cons, List.countP_append]
      rw [Token.ends] at h
      omega

theorem final (h : EndsLast ts) {before after : List Token} {t : Token}
    (hts : ts = before ++ t :: after) (hends : t.ends ≠ 0) : after = [] := by
  induction h generalizing before with
  | none => simp at hts
  | last u h =>
      cases before with
      | nil => exact (List.cons.inj hts).2.symm
      | cons b before => simp at hts
  | cons u h htail ih =>
      cases before with
      | nil =>
          obtain ⟨rfl, -⟩ := List.cons.inj hts
          exact absurd h hends
      | cons b before => exact ih (List.cons.inj hts).2

end EndsLast

end EpubStyle
