import EpubStyle.Proofs.Rescan.Addresses
import EpubStyle.Proofs.Spans.Basic
import EpubStyle.Proofs.Token.Openings

/-!
# Where faults are placed

A lexical fault points into the token that carries it: not before its first character, and before
the next token. The end of the text is reported one character past it, since the reader has to step
there to see it. One reader steps there twice: in an address without quotation marks a backslash
takes the character behind it, and if there is none, the end of the text is only seen by the step
after that (`Token.Dangles`).

## What this module delivers

- `Piece.Inside`: the faults of names, quantities and ranges are at characters of their own.
- `Piece.Placed`: those of comments, strings and quoted addresses are there as well, or one step
  past the end of a text that the piece takes to its end. `Lexeme.fault_address` says where an
  address reports its faults, and `Lexeme.reports_read` where any token does.
- `pointsInto_iff`: a fault points into its token unless the token is an address that leaves a
  backslash dangling, and then it is two characters past the end of the text.
-/

set_option autoImplicit false

namespace EpubStyle

open Text

/-- A text without a backslash in front hides nothing of what follows. -/
theorem exposed_append {front : List Char} (h : '\\' ∉ front) (cs : List Char) :
    exposed (front ++ cs) = front ++ exposed cs := by
  induction front with
  | nil => rfl
  | cons c front ih =>
      rw [List.mem_cons, not_or] at h
      rw [List.cons_append, exposed_cons _ (Ne.symm h.1), ih h.2, List.cons_append]

/-- Only an exposed backslash is left with nothing to hide. -/
theorem backslash_mem_exposed_append {front : List Char} (h : '\\' ∉ front) (cs : List Char) :
    '\\' ∈ exposed (front ++ cs) ↔ '\\' ∈ exposed cs := by
  rw [exposed_append h, List.mem_append]
  exact or_iff_right h

namespace Piece

/-! ## Faults at characters of the piece -/

/-- Every fault of the piece is at one of its own characters. -/
def Inside (p : Piece) : Prop :=
  ∀ steps code arguments, Note.fault steps code arguments ∈ p.notes → 1 ≤ steps ∧ steps ≤ p.length

/-- A fault behind a piece was found at its place in the second one. -/
theorem fault_append {p q : Piece} {steps : Nat} {code : Code} {arguments : List Wording}
    (h : Note.fault steps code arguments ∈ (p ++ q).notes) :
    Note.fault steps code arguments ∈ p.notes ∨
      ∃ n, steps = p.length + n ∧ Note.fault n code arguments ∈ q.notes := by
  rw [notes_append, List.mem_append, List.mem_map] at h
  rcases h with h | ⟨note, hnote, hshift⟩
  · exact .inl h
  · cases note with
    | fault n code' arguments' =>
        obtain ⟨rfl, rfl, rfl⟩ := Note.fault.inj hshift
        exact .inr ⟨n, rfl, hnote⟩
    | stepBack distance => cases hshift

theorem Faultless.not_mem {p : Piece} (h : p.Faultless) {steps : Nat} {code : Code}
    {arguments : List Wording} : Note.fault steps code arguments ∉ p.notes :=
  fun hmem => Bool.noConfusion (h _ hmem)

theorem Inside.of_faultless {p : Piece} (h : p.Faultless) : p.Inside :=
  fun _ _ _ hmem => absurd hmem h.not_mem

theorem Inside.append {p q : Piece} (hp : p.Inside) (hq : q.Inside) : (p ++ q).Inside := by
  intro steps code arguments hmem
  rw [length_append]
  rcases fault_append hmem with hfirst | ⟨n, rfl, hsecond⟩
  · have hplace := hp _ _ _ hfirst
    omega
  · have hplace := hq _ _ _ hsecond
    omega

theorem Inside.withText {p : Piece} (h : p.Inside) (text : List Char) :
    (p.withText text).Inside :=
  h

theorem inside_ofEscape (literal : Char → Bool) (e : Escape) : (ofEscape literal e).Inside := by
  intro steps code arguments hmem
  simp only [ofEscape] at hmem ⊢
  split at hmem
  · obtain ⟨rfl, -, -⟩ := Note.fault.inj (List.mem_singleton.1 hmem)
    exact ⟨Nat.le_refl 1, Nat.le_add_left 1 _⟩
  · cases hmem

theorem inside_escape? {literal : Char → Bool} {cs : List Char} {p : Piece}
    (h : escape? literal cs = some p) : p.Inside := by
  unfold escape? at h
  split at h <;> cases h
  exact inside_ofEscape literal _

theorem inside_stepBack (distance : Nat) : (stepBack distance).Inside :=
  .of_faultless (by simp [Faultless, stepBack, Note.isFault])

theorem inside_of_notes {p : Piece} (h : p.notes = []) : p.Inside := by
  simp [Inside, h]

theorem inside_first (literal : Char → Bool) (cs : List Char) : (first literal cs).Inside := by
  cases cs with
  | nil => exact inside_of_notes rfl
  | cons c cs =>
      simp only [first]
      split
      · cases hescape : escape? literal cs with
        | none => exact inside_stepBack 1
        | some p => exact inside_escape? hescape
      · split <;> exact inside_of_notes rfl

theorem inside_run (accept : Char → Bool) (cs : List Char) : (run accept cs).Inside := by
  fun_induction run accept cs with
  | case1 => exact inside_of_notes rfl
  | case2 c cs hback e hread ih => exact (inside_ofEscape accept e).append ih
  | case3 | case4 => exact inside_stepBack 1
  | case5 c cs hback haccept ih => exact (inside_of_notes rfl).append ih
  | case6 => exact inside_of_notes rfl

theorem inside_name (cs : List Char) : (name cs).Inside :=
  (inside_first isNameStart cs).append (inside_run isNameChar _)

/-! ## Faults at the end of the text -/

/-- At the front of the text `cs` every fault of the piece is at one of its characters, or one step
past the end of the text, which the piece then takes to its end. -/
def Placed (p : Piece) (cs : List Char) : Prop :=
  ∀ steps code arguments, Note.fault steps code arguments ∈ p.notes →
    steps ≤ cs.length + 1 ∧ (steps ≤ p.length ∨ cs.length ≤ p.length)

theorem TakesFrom.length_le {p : Piece} {cs : List Char} (h : p.TakesFrom cs) :
    p.length ≤ cs.length := by
  obtain ⟨raw, rest, rfl, hraw⟩ := h
  rw [hraw.length, List.length_append]
  exact Nat.le_add_right _ _

theorem Inside.placed {p : Piece} {cs : List Char} (h : p.Inside) (hp : p.length ≤ cs.length) :
    p.Placed cs := by
  intro steps code arguments hmem
  have hplace := h _ _ _ hmem
  exact ⟨by omega, .inl hplace.2⟩

theorem placed_of_notes {p : Piece} (h : p.notes = []) (cs : List Char) : p.Placed cs := by
  simp [Placed, h]

/-- Behind a piece without faults no fault stands before the first character. -/
theorem one_le_of_fault {p q : Piece} {steps : Nat} {code : Code} {arguments : List Wording}
    (hp : p.notes = []) (hlength : 0 < p.length)
    (h : Note.fault steps code arguments ∈ (p ++ q).notes) : 1 ≤ steps := by
  rcases fault_append h with hfirst | ⟨n, rfl, -⟩
  · rw [hp] at hfirst
    cases hfirst
  · exact Nat.le_add_right_of_le hlength

/-- A piece without faults may stand before any other. -/
theorem Placed.behind {p q : Piece} {cs : List Char} (hp : p.notes = [])
    (hlength : p.length ≤ cs.length) (hq : q.Placed (cs.drop p.length)) : (p ++ q).Placed cs := by
  intro steps code arguments hmem
  rcases fault_append hmem with hfirst | ⟨n, rfl, hsecond⟩
  · rw [hp] at hfirst
    cases hfirst
  · have hplace := hq _ _ _ hsecond
    rw [List.length_drop] at hplace
    rw [length_append]
    omega

/-- A piece without faults may stand behind any other. -/
theorem Placed.before {p q : Piece} {cs : List Char} (hp : p.Placed cs) (hq : q.notes = []) :
    (p ++ q).Placed cs := by
  intro steps code arguments hmem
  rw [notes_append, hq, List.map_nil, List.append_nil] at hmem
  have hplace := hp _ _ _ hmem
  rw [length_append]
  omega

/-- Where the text has ended, one step sees it. -/
theorem placed_fault (arguments : List Wording) : (fault 1 .lexicalEnd arguments).Placed [] := by
  intro steps code arguments' hmem
  obtain ⟨rfl, -, -⟩ := Note.fault.inj (List.mem_singleton.1 hmem)
  exact ⟨Nat.le_refl 1, .inr (Nat.le_refl 0)⟩

end Piece

namespace Lexeme

/-! ## Names, quantities and ranges -/

theorem inside_identStart (c : Char) (cs : List Char) : (identStart c cs).Inside := by
  unfold identStart
  split
  · cases hescape : Piece.escape? isNameStart cs with
    | none => exact Piece.inside_of_notes rfl
    | some p => exact Piece.inside_escape? hescape
  · split
    · exact (Piece.inside_of_notes rfl).append (Piece.inside_first isNameStart cs)
    · exact Piece.inside_of_notes rfl

theorem inside_ident (c : Char) (cs : List Char) : (ident c cs).piece.Inside := by
  have hname := (inside_identStart c cs).append
    (Piece.inside_run isNameChar ((c :: cs).drop (identStart c cs).length))
  simp only [ident]
  split
  · exact hname.append (Piece.inside_of_notes rfl)
  · exact hname

theorem inside_atKeyword (cs : List Char) : (atKeyword cs).piece.Inside := by
  unfold atKeyword
  split <;> exact (Piece.inside_of_notes rfl).append (Piece.inside_name _)

theorem inside_unit {cs : List Char} {p : Piece} (h : unit cs = some p) : p.Inside := by
  unfold unit at h
  split at h
  · cases h
  · repeat' split at h
    all_goals cases h
    · exact Piece.inside_of_notes rfl
    · exact Piece.inside_name _
    · exact (Piece.inside_stepBack 1).append (Piece.inside_name _)

theorem inside_number (c : Char) (cs : List Char) : (number c cs).piece.Inside := by
  simp only [number]
  split
  · next suffix hunit =>
      have hsuffix : suffix.Inside := inside_unit hunit
      exact (Piece.inside_of_notes rfl).append (hsuffix.withText _)
  · refine (Piece.inside_of_notes rfl).append ?_
    split
    · exact Piece.inside_stepBack 1
    · exact Piece.inside_of_notes rfl

theorem inside_rangeBody (seen : List Char) (count : Nat) (cs : List Char) :
    (rangeBody seen count cs).Inside := by
  induction cs generalizing seen count with
  | nil => exact Piece.inside_of_notes rfl
  | cons c cs ih =>
      simp only [rangeBody]
      split
      · have hdigit : ∀ (seventh : Bool) (arguments : List Wording), Piece.Inside
            ⟨[c], 1, if seventh then [.fault 1 .illegalUnicodeRange arguments] else []⟩ := by
          intro seventh arguments steps code arguments' hmem
          cases seventh with
          | false => cases hmem
          | true =>
              obtain ⟨rfl, -, -⟩ := Note.fault.inj (List.mem_singleton.1 hmem)
              exact ⟨Nat.le_refl 1, Nat.le_refl 1⟩
        exact (hdigit _ _).append (ih _ _)
      · exact Piece.inside_of_notes rfl

/-! ## Comments and strings -/

theorem placed_commentBody (cs : List Char) : (commentBody cs).Placed cs := by
  fun_induction commentBody cs with
  | case1 => exact Piece.placed_fault _
  | case2 => exact Piece.placed_of_notes rfl _
  | case3 c cs hend ih => exact .behind rfl (Nat.succ_le_succ (Nat.zero_le _)) ih

theorem placed_stringBody (quote : Char) (cs : List Char) : (stringBody quote cs).Placed cs := by
  have htwo : ∀ (c d : Char) (cs : List Char), 2 ≤ (c :: d :: cs).length :=
    fun _ _ _ => Nat.le_add_left 2 _
  fun_induction stringBody quote cs with
  | case1 => exact Piece.placed_fault _
  | case2 c cs hbreak =>
      -- The fault is at the line break that ends the string.
      intro steps code arguments hmem
      obtain ⟨rfl, -, -⟩ := Note.fault.inj (List.mem_singleton.1 hmem)
      exact ⟨Nat.le_add_left 1 _, .inl (Nat.le_add_right 1 _)⟩
  | case3 c hbreak hback => exact .behind rfl (Nat.le_refl 1) (Piece.placed_fault _)
  | case4 c hbreak hback cs ih => exact .behind rfl (Nat.le_add_left 3 _) ih
  | case5 c hbreak hback d cs hpair hbreak' ih => exact .behind rfl (htwo c d cs) ih
  | case6 c hbreak hback d cs hpair hbreak' ih => exact .behind rfl (htwo c d cs) ih
  | case7 => exact Piece.placed_of_notes rfl _
  | case8 c cs hbreak hback hquote ih => exact .behind rfl (Nat.le_add_left 1 _) ih

/-! ## Addresses -/

/-- **Where an address without quotation marks reports the end of the text**: one step past it, or
two steps if a backslash stands there. -/
theorem fault_bareAddress {cs : List Char} {steps : Nat} {code : Code} {arguments : List Wording}
    (h : Note.fault steps code arguments ∈ (bareAddress cs).notes) :
    (bareAddress cs).length = cs.length ∧
      steps = cs.length + if '\\' ∈ exposed cs then 2 else 1 := by
  fun_induction bareAddress cs generalizing steps with
  | case1 =>
      obtain ⟨rfl, -, -⟩ := Note.fault.inj (List.mem_singleton.1 h)
      exact ⟨rfl, rfl⟩
  | case2 => cases h
  -- A backslash at the end is exposed, and the fault is counted one step further.
  | case3 c hclose hback =>
      rw [beq_iff_eq] at hback
      subst hback
      obtain ⟨rfl, -, -⟩ := Note.fault.inj (List.mem_singleton.1 h)
      exact ⟨rfl, rfl⟩
  -- A character behind a backslash is not exposed, and neither is the backslash.
  | case4 c hclose hback d cs ih =>
      rw [beq_iff_eq] at hback
      subst hback
      rcases Piece.fault_append h with hfirst | ⟨n, rfl, hrest⟩
      · cases hfirst
      · obtain ⟨hlength, rfl⟩ := ih hrest
        rw [Piece.length_append, hlength, exposed]
        simp only [Piece.ofText, List.length_cons, List.length_nil]
        omega
  | case5 c cs hclose hback ih =>
      rcases Piece.fault_append h with hfirst | ⟨n, rfl, hrest⟩
      · cases hfirst
      · obtain ⟨hlength, rfl⟩ := ih hrest
        have hc : c ≠ '\\' := by simpa using hback
        rw [Piece.length_append, hlength, exposed_cons cs hc]
        simp only [Piece.ofChar, List.length_cons, List.mem_cons, Ne.symm hc, false_or]
        omega

theorem placed_addressClose (clean : Bool) (cs : List Char) :
    (addressClose clean cs).Placed cs := by
  unfold addressClose
  split
  · split
    · exact Piece.placed_fault _
    · exact Piece.placed_of_notes rfl _
  · split
    · exact Piece.placed_of_notes rfl _
    · split
      · -- The fault is at the character before the wrong one.
        intro steps code arguments hmem
        obtain ⟨rfl, -, -⟩ := Note.fault.inj (List.mem_singleton.1 hmem)
        exact ⟨Nat.zero_le _, .inl (Nat.zero_le _)⟩
      · exact Piece.placed_of_notes rfl _

/-- A missing parenthesis is no fault where the string has one. -/
theorem notes_addressClose_false (cs : List Char) : (addressClose false cs).notes = [] := by
  unfold addressClose
  split
  · rfl
  · split <;> rfl

theorem placed_quotedAddress (quote : Char) (cs : List Char) :
    (quotedAddress quote cs).Placed cs := by
  have hbody := placed_stringBody quote cs
  simp only [quotedAddress]
  cases hnotes : (stringBody quote cs).notes with
  | nil =>
      -- The string is closed, and blanks may follow.
      obtain ⟨body, rest, hcs, hreads⟩ := stringBody_reads (Piece.faultless_of_notes hnotes)
      have hgap := (List.takeWhile_prefix isBlank (l := rest)).length_le
      have hdrop : cs.drop (stringBody quote cs).length = rest := by
        rw [hreads.length]
        conv => lhs; rw [hcs]
        exact List.drop_length_add_append 1
      refine .behind ?_ ?_ ?_
      · rw [Piece.notes_append, hnotes]
        rfl
      · rw [hdrop, Piece.length_append, hreads.length]
        have hlength := congrArg List.length hcs
        simp only [List.length_append, List.length_cons] at hlength
        simp only [Piece.silent]
        omega
      · rw [Piece.length_append, ← List.drop_drop]
        exact placed_addressClose _ _
  | cons note notes =>
      exact (hbody.before rfl).before (notes_addressClose_false _)

/-- Behind its blanks the text does not start with a quotation mark. -/
def unquoted (cs : List Char) : Bool := (cs.dropWhile isBlank).head?.all fun c => !isQuote c

theorem unquoted_of_isQuote {blanks : List Char} (h : ∀ c ∈ blanks, isBlank c = true) {c : Char}
    (hc : isQuote c = true) (cs : List Char) : unquoted (blanks ++ c :: cs) = false := by
  have hblank : isBlank c = false := by
    simp only [isQuote, Bool.or_eq_true, beq_iff_eq] at hc
    rcases hc with rfl | rfl <;> decide
  rw [unquoted, List.dropWhile_append_of_pos h, List.dropWhile_cons_of_neg (by simp [hblank])]
  simp [hc]

/-- In an address without quotation marks a backslash is left with nothing to hide. -/
def Dangling (cs : List Char) : Prop := unquoted cs = true ∧ '\\' ∈ exposed cs

instance (cs : List Char) : Decidable (Dangling cs) := inferInstanceAs (Decidable (_ ∧ _))

theorem backslash_not_mem_blanks {blanks : List Char} (h : ∀ c ∈ blanks, isBlank c = true) :
    '\\' ∉ blanks :=
  fun hmem => absurd (h _ hmem) (by decide)

/-- Blanks alone leave no backslash dangling. -/
theorem not_dangling_of_blanks {blanks : List Char} (h : ∀ c ∈ blanks, isBlank c = true) :
    ¬ Dangling blanks := by
  have hback := backslash_not_mem_blanks h
  rintro ⟨-, hends⟩
  rw [exposed_of_not_mem hback] at hends
  exact hback hends

/-- What begins with a quotation mark leaves no backslash dangling. -/
theorem not_dangling_of_isQuote {blanks : List Char} (h : ∀ c ∈ blanks, isBlank c = true)
    {quote : Char} (hquote : isQuote quote = true) (cs : List Char) :
    ¬ Dangling (blanks ++ quote :: cs) := by
  rintro ⟨hunquoted, -⟩
  rw [unquoted_of_isQuote h hquote] at hunquoted
  cases hunquoted

/-- Without a quotation mark only a backslash is asked for, and none stands among the blanks. -/
theorem dangling_iff {blanks : List Char} (h : ∀ c ∈ blanks, isBlank c = true) {c : Char}
    (hblank : isBlank c = false) (hquote : isQuote c = false) (cs : List Char) :
    Dangling (blanks ++ c :: cs) ↔ '\\' ∈ exposed (c :: cs) := by
  have hunquoted : unquoted (blanks ++ c :: cs) = true := by
    rw [unquoted, List.dropWhile_append_of_pos h, List.dropWhile_cons_of_neg (by simp [hblank])]
    simp [hquote]
  rw [Dangling, backslash_mem_exposed_append (backslash_not_mem_blanks h)]
  exact and_iff_right hunquoted

/-- **Where an address reports a fault**: in its place, unless a backslash is left dangling. Then
the address takes all that is left of the text, and the fault is two steps past the end. -/
theorem fault_address {cs : List Char} {steps : Nat} {code : Code} {arguments : List Wording}
    (h : Note.fault steps code arguments ∈ (address cs).notes) :
    if Dangling (cs.take (address cs).length) then
      (address cs).length = cs.length ∧ steps = cs.length + 2
    else
      steps ≤ cs.length + 1 ∧
        (steps ≤ (address cs).length ∨ cs.length ≤ (address cs).length) := by
  generalize address cs = p, branch_address cs = hbranch at h ⊢
  cases hbranch with
  | ended hblanks =>
      have hlength :
          (Piece.silent cs.length ++ Piece.fault 1 .lexicalEnd []).length = cs.length := rfl
      have hplace : (Piece.silent cs.length ++ Piece.fault 1 .lexicalEnd []).Placed cs := by
        refine .behind rfl (Nat.le_refl _) ?_
        simp only [Piece.silent, List.drop_length]
        exact Piece.placed_fault []
      rw [if_neg]
      · exact hplace _ _ _ h
      · -- The text ends behind the blanks, which hold no backslash.
        rw [hlength, List.take_length]
        exact not_dangling_of_blanks hblanks
  | @quoted blanks hblanks quote hquote rest =>
      have hplace : (Piece.silent (blanks.length + 1) ++ (quotedAddress quote rest).withText
          ('\x27' :: ((quotedAddress quote rest).text ++ ['\x27']))).Placed
            (blanks ++ quote :: rest) := by
        refine .behind rfl (by simp [Piece.silent]) ?_
        have hrest : (blanks ++ quote :: rest).drop (blanks.length + 1) = rest :=
          List.drop_length_add_append 1
        simp only [Piece.silent, hrest]
        exact placed_quotedAddress quote rest
      rw [if_neg]
      · exact hplace _ _ _ h
      · have htaken : (blanks ++ quote :: rest).take
            (blanks.length + 1 + (quotedAddress quote rest).length) =
              blanks ++ quote :: rest.take (quotedAddress quote rest).length := by
          rw [Nat.add_assoc, List.take_length_add_append, Nat.add_comm 1, List.take_succ_cons]
        rw [Piece.length_append]
        simp only [Piece.silent, Piece.withText, htaken]
        exact not_dangling_of_isQuote hblanks hquote _
  | @bare blanks hblanks c hblank hquote rest =>
      rcases Piece.fault_append h with hfirst | ⟨n, rfl, hbare⟩
      · cases hfirst
      · -- The address was not closed, so it takes the whole text.
        obtain ⟨hend, rfl⟩ := fault_bareAddress hbare
        have hall : (Piece.silent blanks.length ++ (bareAddress (c :: rest)).withText
            ((bareAddress (c :: rest)).text.reverse.dropWhile isBlank).reverse).length =
              (blanks ++ c :: rest).length := by
          rw [Piece.length_append, List.length_append, ← hend]
          rfl
        rw [hall, List.take_length, if_congr (dangling_iff hblanks hblank hquote rest) rfl rfl,
          List.length_append]
        split
        · exact ⟨rfl, (Nat.add_assoc ..).symm⟩
        · exact ⟨Nat.le_of_eq (Nat.add_assoc ..).symm, .inr (Nat.le_refl _)⟩

/-! ## Every token -/

/-- At the front of `text` the lexeme reports its faults in their places. Only where an address
leaves a backslash dangling behind its parenthesis they are two steps past the end of the text. -/
def Reports (l : Lexeme) (text : List Char) : Prop :=
  ∀ steps code arguments, Note.fault steps code arguments ∈ l.piece.notes →
    if l.kind = .uri ∧ Dangling ((text.take l.piece.length).drop 4) then
      l.piece.length = text.length ∧ steps = text.length + 2
    else steps ≤ text.length + 1 ∧ (steps ≤ l.piece.length ∨ text.length ≤ l.piece.length)

theorem Reports.of_placed {l : Lexeme} {text : List Char} (hkind : l.kind ≠ .uri)
    (h : l.piece.Placed text) : l.Reports text := by
  intro steps code arguments hmem
  rw [if_neg fun hdangling => hkind hdangling.1]
  exact h _ _ _ hmem

theorem reports_uri (c : Char) {cs : List Char} (h : startsWord ['r', 'l', '('] cs = true) :
    (uri cs).Reports (c :: cs) := by
  intro steps code arguments hmem
  have hthree : 3 ≤ cs.length := by
    obtain ⟨word, after, rfl, hword⟩ := exists_of_startsWord h
    have hlength : word.length = 3 := by simpa using congrArg List.length hword
    rw [List.length_append, hlength]
    exact Nat.le_add_right _ _
  have hlength : (uri cs).piece.length = 4 + (address (cs.drop 3)).length := rfl
  have htext : (c :: cs).length = 4 + (cs.drop 3).length := by
    rw [List.length_cons, List.length_drop]
    omega
  have htaken : ((c :: cs).take (uri cs).piece.length).drop 4 =
      (cs.drop 3).take (address (cs.drop 3)).length := by
    rw [hlength, List.drop_take, Nat.add_sub_cancel_left, List.drop_succ_cons]
  have hkind : (uri cs).kind = .uri := rfl
  rcases Piece.fault_append hmem with hfirst | ⟨n, rfl, haddress⟩
  · cases hfirst
  · have hplace := fault_address haddress
    have hfour : (Piece.ofText ['u', 'r', 'l', '(']).length = 4 := rfl
    rw [htaken, hlength, htext, hfour, if_congr (and_iff_right hkind) rfl rfl]
    split at hplace
    · next hdangling => rw [if_pos hdangling]; omega
    · next hdangling => rw [if_neg hdangling]; omega

theorem reports_readBody (c : Char) (cs : List Char) : (readBody c cs).Reports (c :: cs) := by
  generalize readBody c cs = l, branch_readBody c cs = hbranch
  cases hbranch with
  -- Only addresses dangle, so the faults of all others need only be placed.
  | uri hc hword => exact reports_uri c hword
  | range hc hrange =>
      obtain ⟨raw, rest, hcs, hraw⟩ := range_readAhead hc hrange
      have hinside : (range cs).piece.Inside :=
        (Piece.inside_of_notes rfl).append (inside_rangeBody _ _ _)
      refine .of_placed (fun hkind => by cases hkind) (hinside.placed ?_)
      rw [hraw.length, hcs, List.length_append]
      exact Nat.le_add_right _ _
  | ident hident =>
      refine .of_placed ?_ ((inside_ident c cs).placed (ident_takes hident).1.length_le)
      rcases kind_ident c cs with hkind | hkind <;> rw [hkind] <;> decide
  | atKeyword hc =>
      refine .of_placed ?_ ((inside_atKeyword cs).placed ?_)
      · rw [kind_atKeyword]
        decide
      · rw [hc]
        exact (atKeyword_takes cs).1.length_le
  | number hnumber =>
      obtain ⟨m, hkind⟩ := kind_number c cs
      refine .of_placed (fun huri => by rw [hkind] at huri; cases huri)
        ((inside_number c cs).placed (number_takes cs (solid_of_numberAhead hnumber).2).length_le)
  | hashName hc =>
      have hinside : (hashName cs).piece.Inside :=
        (Piece.inside_of_notes rfl).append (Piece.inside_run _ _)
      refine .of_placed (fun hkind => by cases hkind) (hinside.placed ?_)
      rw [hc]
      exact (hashName_takes cs).length_le
  | className hc =>
      have hinside : (className cs).piece.Inside :=
        (Piece.inside_of_notes rfl).append (Piece.inside_name _)
      refine .of_placed (fun hkind => by cases hkind) (hinside.placed ?_)
      rw [hc]
      exact (className_takes cs).length_le
  | comment tail hc hcs =>
      rw [hcs]
      refine .of_placed (fun hkind => by cases hkind) (.behind rfl (Nat.le_add_left 2 _) ?_)
      exact placed_commentBody tail
  | string =>
      refine .of_placed (fun hkind => by cases hkind) (.behind rfl (Nat.le_add_left 1 _) ?_)
      exact placed_stringBody c cs
  | operator kind hoperator =>
      refine .of_placed (fun hkind => ?_) (Piece.placed_of_notes rfl _)
      have hmem := kind_operator hoperator
      obtain rfl : kind = .uri := hkind
      simp at hmem
  | _ => exact .of_placed (fun hkind => by cases hkind) (Piece.placed_of_notes rfl _)

/-- Telling a token from a name reports one thing only: a backslash that ends the text. -/
theorem eq_of_mem_probe {c : Char} {cs : List Char} {steps : Nat} {code : Code}
    {arguments : List Wording} (h : Note.fault steps code arguments ∈ probe c cs) :
    steps = 1 ∧ c = '\\' ∧ cs = [] := by
  unfold probe at h
  repeat' split at h
  all_goals simp_all

/-- **Where a token reports its faults.** -/
theorem reports_read (c : Char) (cs : List Char) : (read c cs).Reports (c :: cs) := by
  intro steps code arguments hmem
  rcases List.mem_append.1 hmem with hprobe | hbody
  · obtain ⟨rfl, rfl, rfl⟩ := eq_of_mem_probe hprobe
    decide
  · exact reports_readBody c cs _ _ _ hbody

/-- No fault stands before the first character of a token. -/
theorem one_le_of_fault_read {c : Char} {cs : List Char} {steps : Nat} {code : Code}
    {arguments : List Wording} (h : Note.fault steps code arguments ∈ (read c cs).piece.notes) :
    1 ≤ steps := by
  rcases List.mem_append.1 h with hprobe | hbody
  · obtain ⟨rfl, -, -⟩ := eq_of_mem_probe hprobe
    exact Nat.le_refl 1
  · generalize readBody c cs = l, branch_readBody c cs = hbranch at hbody
    cases hbranch with
    | ident => exact (inside_ident c cs _ _ _ hbody).1
    | atKeyword => exact (inside_atKeyword cs _ _ _ hbody).1
    | number => exact (inside_number c cs _ _ _ hbody).1
    | uri | range | comment | string | hashName | className =>
        exact Piece.one_le_of_fault rfl (Nat.succ_pos _) hbody
    | _ => cases hbody

end Lexeme

/-! ## Faults and the text -/

/-- The token is an address without quotation marks, and the last backslash of the characters it was
read from hides nothing: the text ends there. -/
def Token.Dangles (t : Token) (raw : List Char) : Prop :=
  t.kind = .uri ∧ Lexeme.Dangling (raw.drop 4)

/-- A fault points into the token `t` of a text with the tokens `after` behind it: it is not before
its first character, and it is before the next token, or at most one character past the end. -/
structure Fault.PointsInto (f : Fault) (text : String) (t : Token) (after : List Scanned) :
    Prop where
  begin_le : t.location.offset ≤ f.location.offset
  before_next : ∀ s ∈ after.head?, f.location.offset < s.token.location.offset
  le_end : after = [] → f.location.offset ≤ text.length + 1

/-- The faults of a token come from the notes of its lexeme. -/
theorem Scanned.exists_note {source : String} {p : Place} {cs : List Char} {l : Lexeme} {f : Fault}
    (h : f ∈ (ofLexeme source p cs l).token.faults) :
    ∃ steps, Note.fault steps f.code f.arguments ∈ l.piece.notes ∧
      f.location.offset = p.offset + steps := by
  simp only [ofLexeme, List.mem_filterMap, List.mem_map] at h
  obtain ⟨event, ⟨note, hnote, rfl⟩, hfault⟩ := h
  cases note with
  | fault steps code arguments =>
      obtain rfl := Option.some.inj hfault
      exact ⟨steps, hnote, Place.offset_advance p steps cs⟩
  | stepBack distance => cases hfault

/-- What is read behind a token, and how much of the text is left where it begins. -/
theorem exists_lexeme_and_rest {text source : String} {before after : List Scanned} {s : Scanned}
    (h : scan text source = before ++ s :: after) :
    ∃ p c cs, s = Scanned.ofLexeme source p (c :: cs) (Lexeme.read c cs) ∧
      text.length = p.offset + (c :: cs).length ∧
      s.token.span text after = (c :: cs).take (Lexeme.read c cs).piece.length ∧
      after = scanFrom source (p.advance (Lexeme.read c cs).piece.length (c :: cs))
        ((c :: cs).drop (Lexeme.read c cs).piece.length) := by
  have hstart : ({} : Place).offset = ([] : List Char).length := rfl
  obtain ⟨p, front, c, cs, htext, hoffset, -, hs, hafter⟩ :=
    exists_lexeme_of_scanFrom (fun _ _ => True) (fun _ _ _ _ => trivial) hstart trivial h
  obtain ⟨-, d, ds, -, hahead, -, hspan⟩ :=
    exists_lexeme_of_scan h (fun _ _ => True) trivial fun _ _ _ _ => trivial
  rw [List.nil_append] at htext
  have hlocation : s.token.location.offset = front.length + 1 := by
    rw [hs, ← hoffset]
    exact Place.offset_advance p 1 (c :: cs)
  -- The text from the token on is the same.
  rw [Token.ahead, hlocation, htext, Nat.add_sub_cancel, List.drop_left] at hahead
  obtain ⟨rfl, rfl⟩ := List.cons.inj hahead
  refine ⟨p, c, cs, hs, ?_, hspan, hafter⟩
  rw [← String.length_toList, htext, List.length_append, hoffset]

/-- **A fault points into the token that carries it, unless a backslash is left dangling there.**
Then the token is the last one and the fault is two characters past the end of the text. -/
theorem pointsInto_iff {text source : String} {before after : List Scanned} {s : Scanned}
    {f : Fault} (h : scan text source = before ++ s :: after) (hf : f ∈ s.token.faults) :
    (f.PointsInto text s.token after ↔ ¬ s.token.Dangles (s.token.span text after)) ∧
      (s.token.Dangles (s.token.span text after) →
        after = [] ∧ f.location.offset = text.length + 2) := by
  obtain ⟨p, c, cs, rfl, htext, hspan, hafter⟩ := exists_lexeme_and_rest h
  obtain ⟨steps, hnote, hoffset⟩ := Scanned.exists_note hf
  have hbegin : (Scanned.ofLexeme source p (c :: cs) (Lexeme.read c cs)).token.location.offset =
      p.offset + 1 := Place.offset_advance p 1 (c :: cs)
  have hone := Lexeme.one_le_of_fault_read hnote
  have hreports := Lexeme.reports_read c cs _ _ _ hnote
  rw [hspan]
  -- A fault of a dangling lexeme is two steps past it, and nothing is left to scan.
  split at hreports
  · next hdangles =>
      have hnil : after = [] := by
        rw [hafter, List.drop_eq_nil_of_le (Nat.le_of_eq hreports.1.symm), scanFrom]
      have hend : f.location.offset = text.length + 2 := by omega
      refine ⟨⟨fun hpoints => ?_, fun hnot => absurd hdangles hnot⟩, fun _ => ⟨hnil, hend⟩⟩
      have hle := hpoints.le_end hnil
      omega
  · next hdangles =>
      refine ⟨⟨fun _ => hdangles, fun _ => ⟨by omega, fun next hnext => ?_, fun _ => by omega⟩⟩,
        fun hd => absurd hd hdangles⟩
      -- What is scanned next begins one place behind the end of this lexeme.
      cases hrest : (c :: cs).drop (Lexeme.read c cs).piece.length with
      | nil =>
          rw [hafter, hrest, scanFrom] at hnext
          cases hnext
      | cons d ds =>
          rw [hafter, hrest, scanFrom] at hnext
          obtain rfl := Option.some.inj hnext
          have hnext : (Scanned.ofLexeme source
              (p.advance (Lexeme.read c cs).piece.length (c :: cs)) (d :: ds)
              (Lexeme.read d ds)).token.location.offset =
                p.offset + (Lexeme.read c cs).piece.length + 1 := by
            rw [← Place.offset_advance p _ (c :: cs)]
            exact Place.offset_advance _ 1 (d :: ds)
          have hlt : (Lexeme.read c cs).piece.length < (c :: cs).length := by
            have hleft : 0 < ((c :: cs).drop (Lexeme.read c cs).piece.length).length := by
              rw [hrest]
              exact Nat.succ_pos _
            rw [List.length_drop] at hleft
            exact Nat.lt_of_sub_pos hleft
          omega

/-- The line break that ends a string is reported between the beginnings of the string and of the
semicolon. -/
theorem pointsInto_brokenString : ∃ before s after f,
    scan "'a\nb;c" "" = before ++ s :: after ∧ f ∈ s.token.faults ∧
      f.PointsInto "'a\nb;c" s.token after ∧ after ≠ [] := by
  have hscan : scan "'a\nb;c" "" = [] ++ ⟨⟨.string, "a", ⟨1, 1, 1, ""⟩,
      [⟨.illegalChar, ⟨2, 2, 3, ""⟩, [.phrase .newline, .phrase .stringToken]⟩]⟩,
      [.fault ⟨.illegalChar, ⟨2, 2, 3, ""⟩, [.phrase .newline, .phrase .stringToken]⟩]⟩ ::
      [⟨⟨.char, ";", ⟨2, 2, 5, ""⟩, []⟩, []⟩, ⟨⟨.ident, "c", ⟨2, 3, 6, ""⟩, []⟩, []⟩] := by
    decide +kernel
  have hfault := List.mem_singleton_self
    (⟨.illegalChar, ⟨2, 2, 3, ""⟩, [.phrase .newline, .phrase .stringToken]⟩ : Fault)
  have hpoints := (pointsInto_iff hscan hfault).1.2 fun hdangles => by cases hdangles.1
  exact ⟨[], _, _, _, hscan, hfault, hpoints, by simp⟩

/-- Not every fault points into its token: with nothing behind the backslash of an address, the end
of a text of five characters is reported at the seventh. -/
theorem not_forall_pointsInto : ¬ ∀ (text source : String) (before after : List Scanned)
    (s : Scanned) (f : Fault), scan text source = before ++ s :: after → f ∈ s.token.faults →
      f.PointsInto text s.token after := by
  intro h
  have hscan : scan "url(\\" "" = [] ++ ⟨⟨.uri, "url(\\)", ⟨1, 1, 1, ""⟩,
      [⟨.lexicalEnd, ⟨1, 7, 7, ""⟩, []⟩]⟩, [.fault ⟨.lexicalEnd, ⟨1, 7, 7, ""⟩, []⟩]⟩ :: [] := by
    decide +kernel
  have hpoints := h _ _ _ _ _ _ hscan (List.mem_singleton_self _)
  exact absurd (hpoints.le_end rfl) (by decide)

end EpubStyle
