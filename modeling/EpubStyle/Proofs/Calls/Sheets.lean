import EpubStyle.Proofs.Calls.Machines

/-!
# The constructs of a style sheet

Four kinds of construct are read by calls of their own: a sequence of simple selectors, the
selectors of a rule set, a declaration, and an at-rule up to its block or its end. `StylePart` names
them, and `Sheet.production` finds them in the machine of style sheets.

The machine reports what is wrong in many places: where a token is taken into the construct, where
the next token decides what stood before it, and where a rejected declaration is skipped. Each step
keeps to one rule (`StylePart.Fair`): it goes on without a word, or it leaves the construct with its
event, or it leaves the construct with one problem. The exception is a declaration that is rejected
at a semicolon inside parentheses: its problem is reported there, and the call goes on in silence.
`Sheet.honest` collects the rule for all steps.

No answer stands outside these constructs (`Sheet.covered`): where something is delivered or
reported, one of them is under way or starts.
-/

set_option autoImplicit false

namespace EpubStyle

/-- The kinds of construct that are read by calls of their own. -/
inductive StylePart where
  /-- A sequence of simple selectors. -/
  | sequence
  /-- The selectors of a rule set. -/
  | selectors
  | declaration
  /-- An at-rule up to its block, or up to its end if it has none. -/
  | atRule
  deriving DecidableEq, Repr, Inhabited

/-- A sequence of simple selectors is under way. -/
def SelectorPhase.inSequence : SelectorPhase → Bool
  | opening | between _ => false
  | _ => true

namespace StylePart

/-- The signal delivers a construct of this kind. Sequences are delivered with their selectors. -/
def delivers : StylePart → Signal → Bool
  | selectors, .event (.selectors _) => true
  | declaration, .event (.declaration _) => true
  | atRule, .event (.atRule _) => true
  | _, _ => false

/-- The problems for which a construct of this kind is rejected. -/
def Blames : StylePart → Problem → Prop
  | atRule, p => ∃ t, p = .unexpected t
  | _, p => p.Misplaced

theorem Blames.misplaced {part : StylePart} {p : Problem} (h : part.Blames p) : p.Misplaced := by
  cases part with
  | atRule =>
      obtain ⟨t, rfl⟩ := h
      exact Problem.misplaced_unexpected t
  | _ => exact h

/-- The tokens may run out before a construct of this kind is read. An at-rule is delivered even
then. -/
def RunsOut (part : StylePart) : Prop := part ≠ .atRule

/-- A construct of this kind is under way. -/
def within : StylePart → SheetPhase → Bool
  | sequence, .selecting s => s.phase.inSequence
  | selectors, .selecting _ => true
  | declaration, .block _ (.reading _) => true
  | declaration, .block _ (.skippingNested _) => true
  | atRule, .header .. => true
  | _, _ => false

/-- A construct of this kind has been rejected, and the rest of it is skipped. -/
def rejected : StylePart → SheetPhase → Bool
  | declaration, .block _ (.skippingNested _) => true
  | _, _ => false

end StylePart

/-- The signal is the answer of some call: a construct that is delivered, or what is wrong with one.
That the tokens end too early is no answer. -/
def Signal.Answers : Signal → Prop
  | event (.selectors _) | event (.declaration _) | event (.atRule _) => True
  | problem p => p.isPrematureEnd = false
  | _ => False

namespace Sheet

/-- The token ends the block around the statements. -/
def closes (m : Sheet) (t : Token) : Bool := t.isChar '}' && !m.enclosing.isEmpty

/-- A construct of the kind starts with the token, if the token is taken. -/
def begins (part : StylePart) (m : Sheet) (t : Token) : Bool :=
  match part, m.phase with
  | .atRule, .statement => !m.closes t && t.kind == .atKeyword
  | .selectors, .statement | .sequence, .statement => !m.closes t && t.kind != .atKeyword
  | .sequence, .selecting s =>
      match s.phase with
      | .opening => true
      | .between spaced =>
          spaced && !t.isOneOf ['{', ','] && (t.char?.bind Combinator.ofChar?).isNone
      | _ => false
  | .declaration, .block _ .opened | .declaration, .block _ .between => !t.isChar '}'
  | _, _ => false

/-- The token stands behind a sequence of simple selectors that is complete. -/
def endsSequence (m : Sheet) (t : Token) : Bool :=
  match m.phase with
  | .selecting s =>
      match s.phase with
      | .member => t.isBlank || t.isOneOf [',', '{', '>', '+', '~']
      | _ => false
  | _ => false

/-- The machine of style sheets. -/
def machine : Machine Sheet where
  settle := settle
  pass m t ahead := if m.ignores t then (m, []) else m.take t ahead
  finish m :=
    m.unopened ++
      (m.expected?.map fun what => Signal.problem (.premature m.lastLocation what)).toList ++
      m.closings

/-- The constructs of a kind in a style sheet. -/
def production (part : StylePart) : Production Sheet where
  starts m t := !m.ignores t && m.begins part t
  inside m := part.within m.phase
  endsBefore m t := part == .sequence && m.endsSequence t
  rejected m := part.rejected m.phase
  delivers := part.delivers

/-- The machine with its step in two halves is the machine of the grammar. -/
theorem machine_run (m : Sheet) (ts : List Token) : machine.run m ts = m.run ts := by
  induction ts generalizing m with
  | nil =>
      simp only [Machine.run, run, finish, machine]
      cases (m.settle none).1.expected? <;> simp
  | cons t ahead ih =>
      simp only [Machine.run, run, step]
      simp only [ih]
      simp only [machine]
      split <;> simp

end Sheet

/-! ## Inside a sequence -/

/-- If the selectors go on, then inside a sequence. -/
def SelectingStep.Inner : SelectingStep → Prop
  | pending s => s.phase.inSequence = true
  | complete _ | rejected _ => True

namespace Selecting

open SelectingStep

variable (s : Selecting) (t : Token)

@[simp] theorem inner_rejected (p : Problem) : (SelectingStep.rejected p).Inner := trivial

@[simp] theorem inner_place (c : Construct) (blame : Token) : (s.place c blame).Inner := by
  unfold place
  repeat' split
  all_goals trivial

@[simp] theorem inner_placeType (start : Token) (use : TypeUse) (text : String) :
    (s.placeType start use text).Inner := by
  cases use with
  | simple => exact s.inner_place _ _
  | «attribute» bracket => rfl

theorem inner_startType? {use : TypeUse} {step : SelectingStep}
    (h : s.startType? use t = some step) : step.Inner := by
  unfold startType? at h
  repeat' split at h
  all_goals cases h
  all_goals rfl

@[simp] theorem inner_startSimple : (s.startSimple t).Inner := by
  unfold startSimple
  split
  · next step h => exact s.inner_startType? t h
  · repeat' split
    · exact s.inner_place _ _
    · exact s.inner_place _ _
    · exact s.inner_place _ _
    all_goals trivial

@[simp] theorem inner_startSequence : (s.startSequence t).Inner := by
  simp only [startSequence]
  split <;> exact inner_startSimple _ t

theorem inner_stepTyping (start : Token) (use : TypeUse) (phase : TypePhase) :
    (s.stepTyping start use t phase).Inner := by
  cases phase with
  | name text => rfl
  | bar => exact s.inner_placeType start use _
  | qualified text =>
      simp only [stepTyping]
      split
      · exact s.inner_placeType start use _
      · trivial

theorem inner_stepPseudo (head : PseudoHead) : (s.stepPseudo head t).Inner := by
  unfold stepPseudo
  repeat' split
  · rfl
  · exact s.inner_place _ _
  · rfl
  · rfl
  · trivial

theorem inner_stepArgument (head : PseudoHead) (name : String) (members : List Construct)
    (b : Building) : (s.stepArgument head name members t b).Inner := by
  cases b <;> trivial

theorem inner_stepAttributeValue (bracket : Location) (parts : List Construct) (start : Token)
    (b : Building) : (s.stepAttributeValue bracket parts start b).Inner := by
  cases b <;> trivial

theorem inner_closeNegation (argument : Construct) : (s.closeNegation argument t).Inner := by
  unfold closeNegation
  split
  · trivial
  · exact inner_place _ _ _

/-- What the next token decides is decided inside the sequence. -/
theorem inner_settle (next : Option Token) (h : s.phase.inSequence = true) :
    (s.settle next).Inner := by
  unfold settle
  split
  · split
    · exact h
    · exact s.inner_placeType _ _ _
  · split
    · split
      · exact h
      · trivial
    · exact h
  · exact h

/-- **A sequence is left by its own end or with a problem.** -/
theorem inner_step (h : s.phase.inSequence = true)
    (hmember : s.phase = .member →
      t.isBlank = false ∧ t.isOneOf [',', '{', '>', '+', '~'] = false) : (s.step t).Inner := by
  -- One case for each phase inside a sequence.
  cases hphase : s.phase with
  | opening | between spaced =>
      rw [hphase] at h
      cases h
  | member =>
      obtain ⟨hblank, hends⟩ := hmember hphase
      simp only [Token.isBlank, Bool.or_eq_false_iff] at hblank
      simp only [step, hphase, hblank.1, hblank.2, hends, Bool.false_eq_true, if_false]
      exact s.inner_startSimple t
  | typing phase start use =>
      simp only [step, hphase]
      exact s.inner_stepTyping t start use phase
  | attributeName bracket =>
      simp only [step, hphase]
      split
      · next step hstep => exact s.inner_startType? t hstep
      · trivial
  | attributeOperator bracket name =>
      simp only [step, hphase]
      repeat' split
      · exact s.inner_place _ _
      · rfl
      · trivial
  | attributeValue bracket parts =>
      simp only [step, hphase]
      exact s.inner_stepAttributeValue _ _ _ _
  | attributeNested bracket parts start n =>
      simp only [step, hphase]
      exact s.inner_stepAttributeValue _ _ _ _
  | attributeClose bracket parts =>
      simp only [step, hphase]
      split
      · exact s.inner_place _ _
      · trivial
  | pseudo head =>
      simp only [step, hphase]
      exact s.inner_stepPseudo t head
  | «arguments» head name members =>
      simp only [step, hphase]
      repeat' split
      · exact s.inner_place _ _
      · trivial
      · exact s.inner_stepArgument t _ _ _ _
  | argumentNested head name members n =>
      simp only [step, hphase]
      exact s.inner_stepArgument t _ _ _ _
  | negated =>
      simp only [step, hphase]
      exact s.inner_startSimple t
  | negationClose argument =>
      simp only [step, hphase]
      split
      · exact s.inner_closeNegation t _
      · trivial

end Selecting

/-! ## Single steps -/

namespace StylePart

/-- What a step may do to a construct of the kind that `was` rejected or not. -/
def Fair (part : StylePart) (was : Bool) (step : SheetStep) : Prop :=
  (Sheet.production part).Fair part.Blames part.RunsOut was (part.within step.1.phase)
    (part.rejected step.1.phase) step.2

variable {part : StylePart} {m : Sheet} {t : Token}

/-! ### Selectors -/

theorem fair_skipRule (hpart : part = .sequence ∨ part = .selectors) {p : Problem}
    (hp : p.Misplaced) : part.Fair false (m.skipRule t [.problem p]) := by
  have hblames : part.Blames p := by rcases hpart with rfl | rfl <;> exact hp
  unfold Sheet.skipRule
  split <;> exact .refused (by rcases hpart with rfl | rfl <;> rfl)
    (by rcases hpart with rfl | rfl <;> rfl) rfl hblames

theorem fair_selectors {step : SelectingStep} (h : ∀ p, step = .rejected p → p.Misplaced) :
    StylePart.selectors.Fair false (m.afterSelecting t step) := by
  cases step with
  | pending s => exact .on rfl rfl rfl
  | complete list => exact .delivered rfl rfl rfl
  | rejected p => exact fair_skipRule (.inr rfl) (h p rfl)

/-- In a sequence the step must not only go on, it must stay there. -/
theorem fair_sequence {step : SelectingStep} (h : step.Unfinished) (hinner : step.Inner) :
    StylePart.sequence.Fair false (m.afterSelecting t step) := by
  cases step with
  | pending s => exact .on hinner rfl rfl
  | complete list => exact h.elim
  | rejected p => exact fair_skipRule (.inl rfl) h

/-! ### Declarations -/

/-- Only a semicolon inside parentheses keeps a rejected declaration under way. -/
theorem fair_givenUp (owner : BlockOwner) {p : Problem} (hp : p.Misplaced) (depth : Nat) :
    StylePart.declaration.Fair false (m.goOn owner [.problem p] (BlockPhase.givenUp t depth)) := by
  unfold BlockPhase.givenUp
  split
  · exact .refused rfl (by cases owner <;> rfl) rfl hp
  split
  · split
    · exact .refused rfl rfl rfl hp
    · exact Production.Keeps.rejected p hp
  · exact .refused rfl rfl rfl hp

theorem fair_stepBlock {owner : BlockOwner} {phase : BlockPhase}
    (hphase : m.phase = .block owner phase)
    (h : m.begins .declaration t = true ∨ StylePart.declaration.within m.phase = true) :
    StylePart.declaration.Fair (StylePart.declaration.rejected m.phase)
      (m.stepBlock owner t phase) := by
  obtain ⟨signals, next, hturn, hstep⟩ := Sheet.exists_blockTurn hphase t
  rw [hstep]
  rcases m with ⟨last, enclosing, _⟩
  obtain rfl := hphase
  cases hturn with
  | ends hclosable hclose =>
      -- Only a declaration that is skipped from inside parentheses is left in silence.
      cases phase with
      | skippingNested depth => exact .skipped rfl (by cases owner <;> rfl) rfl
      | opened | between => simp [Sheet.begins, within, hclose] at h
      | skipping depth => rcases h with h | h <;> cases h
      | reading r => cases hclosable
  | name hstarting hname => rcases hstarting with rfl | rfl <;> exact .on rfl rfl rfl
  | nameless hstarting hclose =>
      rcases hstarting with rfl | rfl <;>
        exact fair_givenUp owner (Problem.misplaced_expecting t _) 0
  | takes hread => exact .on rfl rfl rfl
  | completes hread => split <;> exact .delivered rfl rfl rfl
  | rejects hread => exact fair_givenUp owner (Reading.misplaced_of_rejected hread) _
  | opens | closes | skips => rcases h with h | h <;> cases h
  | skipsNested hclose hnext =>
      rcases hnext with rfl | ⟨depth', rfl⟩
      · exact .skipped rfl rfl rfl
      · exact .on rfl rfl rfl

/-! ### At-rules -/

theorem fair_stepHeader (name : String) (location : Location) (parameters : List Construct)
    (nesting : Option Nesting) (ahead : List Token) :
    StylePart.atRule.Fair false (m.stepHeader name location parameters nesting t ahead) := by
  obtain ⟨step, hturn, hstep⟩ := m.exists_headerTurn name location parameters nesting t ahead
  rw [hstep]
  cases hturn with
  | parameter =>
      cases Sheet.parameterStep nesting t with
      | complete c => exact .on rfl rfl rfl
      | pending n => exact .on rfl rfl rfl
      | rejected =>
          simp only [Sheet.afterParameter]
          split <;> exact .refused rfl rfl rfl ⟨t, rfl⟩
  | ends | opensStatements | opensDeclarations => exact .delivered rfl rfl rfl

end StylePart

namespace Sheet

variable {m : Sheet} {t : Token}

/-- A token that does not end the block around the statements starts a statement. -/
theorem stepStatement_of_not_closes (h : m.closes t = false) :
    m.stepStatement t =
      if t.kind == .atKeyword then m.enter (.header (Text.lowerCase t.text) t.location [] none) []
      else m.afterSelecting t ((Selecting.ofLocation t.location).step t) := by
  unfold closes at h
  unfold stepStatement
  split
  · next heq hclose =>
      rw [heq, hclose] at h
      cases h
  · rfl

/-- A token that ends the block around the statements does nothing else. -/
theorem stepStatement_of_closes (h : m.closes t = true) :
    ∃ name outer, m.stepStatement t =
      ({ m with enclosing := outer }, [.event (.endAtRule name)]) := by
  simp only [closes, Bool.and_eq_true, Bool.not_eq_true', List.isEmpty_eq_false_iff] at h
  obtain ⟨name, outer, henclosing⟩ := List.exists_cons_of_ne_nil h.2
  exact ⟨name, outer, by simp [stepStatement, henclosing, h.1]⟩

/-- Selectors start with any token that does not start an at-rule. -/
theorem stepStatement_of_begins {part : StylePart} (hpart : part = .sequence ∨ part = .selectors)
    (hphase : m.phase = .statement) (h : m.begins part t = true) :
    m.stepStatement t = m.afterSelecting t ((Selecting.ofLocation t.location).step t) := by
  have hstarts : m.closes t = false ∧ (t.kind == .atKeyword) = false := by
    rcases hpart with rfl | rfl <;> simpa [begins, hphase] using h
  simp only [stepStatement_of_not_closes hstarts.1, hstarts.2, Bool.false_eq_true, if_false]

/-- Where a sequence starts, selectors go on inside it. -/
theorem inner_of_begins {last : Option Token} {enclosing : List String} {s : Selecting}
    (h : begins .sequence ⟨last, enclosing, .selecting s⟩ t = true) :
    (s.step t).Unfinished ∧ (s.step t).Inner := by
  cases hphase : s.phase with
  | opening =>
      simp only [Selecting.step, hphase]
      exact ⟨s.unfinished_startSequence t, s.inner_startSequence t⟩
  | between spaced =>
      simp only [begins, hphase, Token.isOneOf, List.any_cons, List.any_nil, Bool.or_false,
        Bool.and_eq_true, Bool.not_eq_true', Bool.or_eq_false_iff, Option.isNone_iff_eq_none] at h
      obtain ⟨⟨rfl, hopen, hcomma⟩, hcombinator⟩ := h
      simp only [Selecting.step, hphase, Selecting.stepBetween, hopen, hcomma, hcombinator,
        Bool.false_eq_true, if_false, if_true]
      exact ⟨Selecting.unfinished_startSequence _ t, Selecting.inner_startSequence _ t⟩
  | _ => simp [begins, hphase] at h

/-- Inside a sequence the list of selectors is not complete. -/
theorem unfinished_of_within {last : Option Token} {enclosing : List String} {s : Selecting}
    (h : s.phase.inSequence = true)
    (hends : endsSequence ⟨last, enclosing, .selecting s⟩ t = false) : (s.step t).Unfinished := by
  by_cases hmember : s.phase = .member
  · simp only [endsSequence, hmember, Token.isBlank, Bool.or_eq_false_iff] at hends
    simp only [Selecting.step, hmember, hends.1.1, hends.1.2, hends.2, Bool.false_eq_true, if_false]
    exact s.unfinished_startSimple t
  · refine s.unfinished_step t hmember fun spaced hbetween => ?_
    rw [hbetween] at h
    cases h

end Sheet

namespace StylePart

/-- **What taking a token does to a construct** that starts with it or is under way. -/
theorem fair_take {part : StylePart} {m : Sheet} {t : Token} (ahead : List Token)
    (h : m.begins part t = true ∨
      part.within m.phase = true ∧ (part = .sequence → m.endsSequence t = false)) :
    part.Fair (part.rejected m.phase) (m.take t ahead) := by
  rcases m with ⟨last, enclosing, phase⟩
  cases phase with
  | statement =>
      have hbegins := h.resolve_right (fun hwithin => by cases part <;> cases hwithin.1)
      cases part with
      | sequence =>
          -- The selectors of a rule set open with a sequence.
          have hopens : (Selecting.ofLocation t.location).step t =
              (Selecting.ofLocation t.location).startSequence t := rfl
          simp only [Sheet.take, Sheet.stepStatement_of_begins (.inl rfl) rfl hbegins, hopens]
          exact fair_sequence (Selecting.unfinished_startSequence _ t)
            (Selecting.inner_startSequence _ t)
      | selectors =>
          simp only [Sheet.take, Sheet.stepStatement_of_begins (.inr rfl) rfl hbegins]
          exact fair_selectors fun p => Selecting.misplaced_of_rejected _ t
      | declaration => cases hbegins
      | atRule =>
          simp only [Sheet.begins, Bool.and_eq_true, Bool.not_eq_true'] at hbegins
          simp only [Sheet.take, Sheet.stepStatement_of_not_closes hbegins.1, hbegins.2, if_true]
          exact .on rfl rfl rfl
  | selecting s =>
      cases part with
      | sequence =>
          have hstep : (s.step t).Unfinished ∧ (s.step t).Inner := by
            rcases h with h | ⟨h, hends⟩
            · exact Sheet.inner_of_begins h
            · exact ⟨Sheet.unfinished_of_within h (hends rfl), s.inner_step t h fun hmember => by
                simpa [Sheet.endsSequence, hmember] using hends rfl⟩
          exact fair_sequence hstep.1 hstep.2
      | selectors => exact fair_selectors fun p => Selecting.misplaced_of_rejected _ t
      | declaration | atRule => rcases h with h | ⟨h, -⟩ <;> cases h
  | skippingRule depth | skippingAtRule depth =>
      rcases h with h | ⟨h, -⟩ <;> cases part <;> cases h
  | header name location parameters nesting =>
      cases part with
      | atRule => exact fair_stepHeader name location parameters nesting ahead
      | sequence | selectors | declaration => rcases h with h | ⟨h, -⟩ <;> cases h
  | block owner phase =>
      cases part with
      | declaration => exact fair_stepBlock rfl (h.imp_right And.left)
      | sequence | selectors | atRule => rcases h with h | ⟨h, -⟩ <;> cases h

end StylePart

namespace Sheet

/-! ## Whole calls -/

theorem rejected_of_begins {part : StylePart} {m : Sheet} {t : Token} (h : m.begins part t = true) :
    part.rejected m.phase = false := by
  rcases m with ⟨last, enclosing, phase⟩
  cases part <;> cases phase with
    | block owner phase => cases phase <;> first | rfl | cases h
    | _ => rfl

/-- Settling a token inside a construct goes on without a word, or rejects selectors. -/
theorem fair_settle {part : StylePart} {m : Sheet} (next : Option Token)
    (h : part.within m.phase = true) :
    (m.settle next).2 = [] ∧ part.within (m.settle next).1.phase = true ∧
        part.rejected (m.settle next).1.phase = part.rejected m.phase ∨
      part.within (m.settle next).1.phase = false ∧ part.rejected m.phase = false ∧
        ∃ p, (m.settle next).2 = [.problem p] ∧ part.Blames p := by
  -- Only selectors have anything to settle.
  by_cases hphase : ∃ s, m.phase = .selecting s
  · obtain ⟨s, hphase⟩ := hphase
    have hpart : part = .sequence ∨ part = .selectors := by
      rw [hphase] at h
      cases part with
      | sequence => exact .inl rfl
      | selectors => exact .inr rfl
      | declaration | atRule => cases h
    have hunfinished := s.unfinished_settle next
    simp only [settle, hphase]
    cases hsettle : s.settle next with
    | pending s' =>
        refine .inl ⟨rfl, ?_, by rcases hpart with rfl | rfl <;> rfl⟩
        rcases hpart with rfl | rfl
        · rw [hphase] at h
          have hinner := s.inner_settle next h
          rwa [hsettle] at hinner
        · rfl
    | complete list =>
        rw [hsettle] at hunfinished
        exact hunfinished.elim
    | rejected p =>
        rw [hsettle] at hunfinished
        refine .inr ⟨by rcases hpart with rfl | rfl <;> rfl, by rcases hpart with rfl | rfl <;> rfl,
          p, rfl, ?_⟩
        rcases hpart with rfl | rfl <;> exact hunfinished
  · rw [settle_of_not_selecting m next fun s hs => hphase ⟨s, hs⟩]
    exact .inl ⟨rfl, h, rfl⟩

/-- Inside a construct the end of the tokens is too early, and only an at-rule is delivered
before that is reported. -/
theorem finish_of_within {part : StylePart} {m : Sheet} (h : part.within m.phase = true) :
    (machine.finish m).any Signal.isPrematureEnd = true ∧
      Machine.untilEnd (machine.finish m) = m.unopened := by
  have hpremature : ∀ (location : Location) (what : Wording),
      (Signal.problem (.premature location what)).isPrematureEnd = true := fun _ _ => rfl
  have hevent : ∀ e, (Signal.event e).isPrematureEnd = false := fun _ => rfl
  rcases m with ⟨last, enclosing, phase⟩
  simp only [Machine.untilEnd]
  cases phase with
  | selecting s => simp [machine, expected?, unopened, hpremature]
  | header name location parameters nesting =>
      simp [machine, expected?, unopened, hpremature, atRuleEvent, hevent]
  | block owner phase =>
      cases phase with
      | reading r => simp [machine, expected?, unopened, hpremature]
      | skippingNested depth => simp [machine, expected?, unopened, hpremature]
      | opened | between | skipping depth => cases part <;> cases h
  | statement | skippingRule depth | skippingAtRule depth => cases part <;> cases h

/-- Where the tokens end inside a construct, an at-rule is delivered and nothing else. -/
theorem accounts_ending {part : StylePart} {m : Sheet} (h : part.within m.phase = true) :
    (Machine.ending (production part) (machine.finish m)).Accounts part.Blames part.RunsOut
      (part.rejected m.phase) (Signal.problems (Machine.untilEnd (machine.finish m))) := by
  obtain ⟨hpremature, hlast⟩ := finish_of_within h
  rcases m with ⟨last, enclosing, phase⟩
  cases part with
  | atRule =>
      cases phase with
      | header name location parameters nesting =>
          simp only [Machine.ending, hlast, hpremature]
          exact ⟨rfl, rfl⟩
      | _ => cases h
  | sequence | selectors | declaration =>
      have hnothing : unopened ⟨last, enclosing, phase⟩ = [] := by
        cases phase with
        | header name location parameters nesting => cases h
        | _ => rfl
      simp only [Machine.ending, hlast, hpremature, hnothing]
      intro hpart
      cases hpart

/-- **The constructs of a style sheet report what they should.** -/
theorem honest (part : StylePart) : (production part).Honest machine part.Blames part.RunsOut where
  delivers p := by cases part <;> rfl
  start m t h := by
    simp only [production, Bool.and_eq_true] at h
    exact rejected_of_begins h.2
  settle m next h := by
    rcases fair_settle next h with ⟨hsignals, hwithin, hrejected⟩ | hleft
    · exact .inl ⟨hwithin, hsignals, hrejected⟩
    · exact .inr hleft
  ends m t h hends := by
    -- Only a sequence ends at a token that is not its own.
    have hpart : part = .sequence := by
      simp only [production, Bool.and_eq_true, beq_iff_eq] at hends
      exact hends.1
    subst hpart
    rfl
  pass m t ahead h := by
    have hfair : part.Fair (part.rejected m.phase) (machine.pass m t ahead) := by
      simp only [machine]
      split
      · next hignores =>
          refine .on ?_ rfl rfl
          rcases h with h | h
          · simp [production, hignores] at h
          · exact h.1
      · refine StylePart.fair_take ahead ?_
        rcases h with h | ⟨h, hends⟩
        · simp only [production, Bool.and_eq_true] at h
          exact .inl h.2
        · refine .inr ⟨h, fun hpart => ?_⟩
          simpa [production, hpart] using hends
    exact hfair
  finish m h := accounts_ending h

/-! ## What no call leaves out -/

/-- The constructs that share out the tokens of a style sheet. Sequences are parts of selectors. -/
def statements : List (Production Sheet) :=
  [production .selectors, production .declaration, production .atRule]

theorem mem_statements {part : StylePart} (h : part ≠ .sequence) :
    production part ∈ statements := by
  cases part with
  | sequence => exact absurd rfl h
  | selectors | declaration | atRule => simp [statements]

theorem exists_of_mem_statements {P : Production Sheet} (h : P ∈ statements) :
    ∃ part, part ≠ .sequence ∧ P = production part := by
  simp only [statements, List.mem_cons, List.not_mem_nil, or_false] at h
  rcases h with rfl | rfl | rfl
  · exact ⟨.selectors, by simp, rfl⟩
  · exact ⟨.declaration, by simp, rfl⟩
  · exact ⟨.atRule, by simp, rfl⟩

theorem within_afterSelecting {part : StylePart} (hpart : part ≠ .sequence) {m : Sheet} {t : Token}
    {step : SelectingStep} (h : part.within (m.afterSelecting t step).1.phase = true) :
    part = .selectors := by
  cases part with
  | sequence => exact absurd rfl hpart
  | selectors => rfl
  | declaration | atRule =>
      cases step with
      | pending s => cases h
      | complete list => cases h
      | rejected p =>
          simp only [afterSelecting, skipRule] at h
          split at h <;> cases h

theorem within_stepHeader {part : StylePart} {m : Sheet} {t : Token} {name : String}
    {location : Location} {parameters : List Construct} {nesting : Option Nesting}
    {ahead : List Token}
    (h : part.within (m.stepHeader name location parameters nesting t ahead).1.phase = true) :
    part = .atRule := by
  obtain ⟨step, hturn, hstep⟩ := m.exists_headerTurn name location parameters nesting t ahead
  rw [hstep] at h
  cases hturn with
  | parameter =>
      cases part with
      | atRule => rfl
      | sequence | selectors | declaration =>
          cases hb : parameterStep nesting t with
          | complete c | pending n =>
              rw [hb] at h
              cases h
          | rejected =>
              simp only [hb, afterParameter, enter] at h
              split at h <;> cases h
  | ends | opensStatements | opensDeclarations => cases part <;> cases h

/-- A token that starts a declaration does not end its block. -/
theorem begins_of_starting {last : Option Token} {enclosing : List String} {owner : BlockOwner}
    {phase : BlockPhase} (hstarting : phase.Starting) {t : Token} (hclose : t.isChar '}' = false) :
    begins .declaration ⟨last, enclosing, .block owner phase⟩ t = true := by
  rcases hstarting with rfl | rfl <;> simp [begins, hclose]

/-- What follows a statement that is being skipped is none of the constructs. -/
theorem within_skipping (part : StylePart) (m : Sheet) (t : Token) (ahead : List Token)
    {depth : Nat} (h : m.phase = .skippingRule depth ∨ m.phase = .skippingAtRule depth) :
    part.within (m.take t ahead).1.phase = false ∧ (m.take t ahead).2 = [] := by
  have hstatement : part.within .statement = false := by cases part <;> rfl
  have hrule : ∀ n, part.within (.skippingRule n) = false := by cases part <;> exact fun _ => rfl
  have hatRule : ∀ n, part.within (.skippingAtRule n) = false := by
    cases part <;> exact fun _ => rfl
  rcases m with ⟨last, enclosing, phase⟩
  rcases h with rfl | rfl
  · simp only [take, stepSkippingRule, enter]
    repeat' split
    all_goals simp [hstatement, hrule]
  · simp only [take, stepSkippingAtRule, enter]
    repeat' split
    all_goals simp [hstatement, hatRule]

/-- **A construct comes to be under way only where one starts.** -/
theorem begins_or_within {part : StylePart} (hpart : part ≠ .sequence) {m : Sheet} {t : Token}
    {ahead : List Token} (h : part.within (m.take t ahead).1.phase = true) :
    m.begins part t = true ∨ part.within m.phase = true := by
  rcases m with ⟨last, enclosing, phase⟩
  -- A step changes the phase in few ways, and each of them tells the construct.
  cases phase with
  | statement =>
      cases hcloses : closes ⟨last, enclosing, .statement⟩ t with
      | true =>
          obtain ⟨name, outer, hstep⟩ := stepStatement_of_closes hcloses
          simp only [take, hstep] at h
          cases part <;> cases h
      | false =>
          simp only [take, stepStatement_of_not_closes hcloses] at h
          cases hkind : t.kind == .atKeyword with
          | true =>
              simp only [hkind, if_true, enter] at h
              cases part with
              | atRule => exact .inl (by simp [begins, hcloses, hkind])
              | sequence | selectors | declaration => cases h
          | false =>
              simp only [hkind, Bool.false_eq_true, if_false] at h
              obtain rfl := within_afterSelecting hpart h
              exact .inl (by simpa [begins, hcloses] using hkind)
  | selecting s =>
      obtain rfl := within_afterSelecting hpart h
      exact .inr rfl
  | skippingRule depth =>
      rw [(within_skipping part _ t ahead (.inl rfl)).1] at h
      cases h
  | header name location parameters nesting =>
      obtain rfl := within_stepHeader h
      exact .inr rfl
  | skippingAtRule depth =>
      rw [(within_skipping part _ t ahead (.inr rfl)).1] at h
      cases h
  | block owner phase =>
      obtain ⟨signals, next, hturn, hstep⟩ :=
        exists_blockTurn (m := ⟨last, enclosing, .block owner phase⟩) rfl t
      simp only [take, hstep] at h
      have hdeclaration : part = .declaration := by
        cases next <;> cases part <;> first | rfl | cases h
      subst hdeclaration
      cases hturn with
      | name hstarting hname =>
          have hclose : t.isChar '}' = false := by simp [Token.isChar, hname]
          exact .inl (begins_of_starting hstarting hclose)
      | nameless hstarting hclose => exact .inl (begins_of_starting hstarting hclose)
      | takes | completes | rejects | skipsNested => exact .inr rfl
      | ends | opens | closes => cases h
      | skips hbrace hnext => rcases hnext with rfl | ⟨-, rfl⟩ <;> cases h

/-- The end of a block is no answer. -/
theorem not_answers_closing (owner : BlockOwner) : ¬ (Signal.event owner.closing).Answers := by
  cases owner <;> exact id

/-- The answers that selectors give while they are read. -/
theorem claims_afterSelecting {m : Sheet} {t : Token} {step : SelectingStep} {s : Signal}
    (hs : s ∈ (m.afterSelecting t step).2) : (production .selectors).Claims s := by
  cases step with
  | pending selecting => cases hs
  | complete list =>
      obtain rfl := List.mem_singleton.1 hs
      exact .inl rfl
  | rejected p =>
      have hproblem : s = .problem p := by
        simp only [afterSelecting, skipRule] at hs
        split at hs <;> exact List.mem_singleton.1 hs
      exact .inr ⟨p, hproblem⟩

/-- The answers that an at-rule gives up to its block. -/
theorem claims_stepHeader {m : Sheet} {t : Token} {name : String} {location : Location}
    {parameters : List Construct} {nesting : Option Nesting} {ahead : List Token} {s : Signal}
    (hs : s ∈ (m.stepHeader name location parameters nesting t ahead).2) (h : s.Answers) :
    (production .atRule).Claims s := by
  obtain ⟨step, hturn, hstep⟩ := m.exists_headerTurn name location parameters nesting t ahead
  rw [hstep] at hs
  cases hturn with
  | parameter =>
      cases hb : parameterStep nesting t with
      | complete c | pending n =>
          rw [hb] at hs
          cases hs
      | rejected =>
          rw [hb] at hs
          exact .inr ⟨_, List.mem_singleton.1 hs⟩
  | ends =>
      simp only [enter, List.mem_cons, List.not_mem_nil, or_false] at hs
      rcases hs with rfl | rfl
      · exact .inl rfl
      · exact h.elim
  | opensStatements | opensDeclarations =>
      obtain rfl := List.mem_singleton.1 hs
      exact .inl rfl

/-- The answers that a block gives are those of a declaration that is under way or starts. -/
theorem claims_stepBlock {last : Option Token} {enclosing : List String} {owner : BlockOwner}
    {phase : BlockPhase} (t : Token) :
    ∀ s ∈ (stepBlock ⟨last, enclosing, .block owner phase⟩ owner t phase).2, s.Answers →
      (production .declaration).Claims s ∧
        (begins .declaration ⟨last, enclosing, .block owner phase⟩ t = true ∨
          StylePart.declaration.within (.block owner phase) = true) := by
  obtain ⟨signals, next, hturn, hstep⟩ :=
    exists_blockTurn (m := ⟨last, enclosing, .block owner phase⟩) rfl t
  rw [hstep]
  -- Closing the block adds nothing but its end, which is no answer.
  refine forall_mem_goOn.2 ⟨?_, fun _ h => absurd h (not_answers_closing owner)⟩
  cases hturn with
  | nameless hstarting hclose =>
      refine List.forall_mem_singleton.2 fun _ => ⟨.inr ⟨_, rfl⟩, .inl ?_⟩
      exact begins_of_starting hstarting hclose
  | completes => exact List.forall_mem_singleton.2 fun _ => ⟨.inl rfl, .inr rfl⟩
  | rejects => exact List.forall_mem_singleton.2 fun _ => ⟨.inr ⟨_, rfl⟩, .inr rfl⟩
  | ends | name | takes | opens | closes | skips | skipsNested => exact List.forall_mem_nil _

/-- **Only a construct that is under way or starts has an answer**, and it is one of its kind. -/
theorem exists_part_of_answers {m : Sheet} {t : Token} {ahead : List Token} {s : Signal}
    (hs : s ∈ (m.take t ahead).2) (hanswers : s.Answers) :
    ∃ part : StylePart, part ≠ .sequence ∧ (production part).Claims s ∧
      (m.begins part t = true ∨ part.within m.phase = true) := by
  rcases m with ⟨last, enclosing, phase⟩
  cases phase with
  | statement =>
      cases hcloses : closes ⟨last, enclosing, .statement⟩ t with
      | true =>
          obtain ⟨name, outer, hstep⟩ := stepStatement_of_closes hcloses
          simp only [take, hstep, List.mem_singleton] at hs
          subst hs
          exact hanswers.elim
      | false =>
          simp only [take, stepStatement_of_not_closes hcloses] at hs
          cases hkind : t.kind == .atKeyword with
          | true =>
              simp only [hkind] at hs
              cases hs
          | false =>
              simp only [hkind] at hs
              exact ⟨.selectors, by decide, claims_afterSelecting hs,
                .inl (by simpa [begins, hcloses] using hkind)⟩
  | selecting selecting => exact ⟨.selectors, by decide, claims_afterSelecting hs, .inr rfl⟩
  | skippingRule depth =>
      rw [(within_skipping .selectors _ t ahead (.inl rfl)).2] at hs
      cases hs
  | header name location parameters nesting =>
      exact ⟨.atRule, by decide, claims_stepHeader hs hanswers, .inr rfl⟩
  | skippingAtRule depth =>
      rw [(within_skipping .selectors _ t ahead (.inr rfl)).2] at hs
      cases hs
  | block owner phase =>
      obtain ⟨hclaims, hplace⟩ := claims_stepBlock t s hs hanswers
      exact ⟨.declaration, by decide, hclaims, hplace⟩

/-- Settling opens no construct, and only selectors have an answer then. -/
theorem settle_covered {m : Sheet} (next : Option Token) :
    (∀ s ∈ (m.settle next).2, (production .selectors).Claims s ∧
        StylePart.selectors.within m.phase = true) ∧
      ∀ part : StylePart, part ≠ .sequence → part.within (m.settle next).1.phase = true →
        part.within m.phase = true := by
  by_cases hphase : ∃ s, m.phase = .selecting s
  · obtain ⟨selecting, hphase⟩ := hphase
    have hwithin : StylePart.selectors.within m.phase = true := by rw [hphase]; rfl
    refine ⟨fun s hs => ⟨?_, hwithin⟩, fun part hpart h => ?_⟩
    · rcases fair_settle next hwithin with ⟨hsilent, -⟩ | ⟨-, -, p, hp, -⟩
      · rw [hsilent] at hs
        cases hs
      · rw [hp] at hs
        exact .inr ⟨p, List.mem_singleton.1 hs⟩
    · have hselectors : part = .selectors := by
        simp only [settle, hphase] at h
        cases part with
        | sequence => exact absurd rfl hpart
        | selectors => rfl
        | declaration | atRule =>
            cases hsettle : selecting.settle next <;>
              simp [hsettle, enter, hphase, StylePart.within] at h
      rw [hselectors, hphase]
      rfl
  · rw [settle_of_not_selecting m next fun s hs => hphase ⟨s, hs⟩]
    exact ⟨fun s hs => absurd hs List.not_mem_nil, fun _ _ h => h⟩

/-- What the end of the tokens calls for besides the closing of what is open. -/
theorem mem_unopened_of_answers {m : Sheet} {s : Signal} (hs : s ∈ machine.finish m)
    (h : s.Answers) : s ∈ m.unopened := by
  simp only [machine, List.mem_append, closings, List.mem_map] at hs
  rcases hs with (hs | hs) | ⟨e, he, rfl⟩
  · exact hs
  · rw [Option.mem_toList, Option.map_eq_some_iff] at hs
    obtain ⟨what, -, rfl⟩ := hs
    cases h
  · rcases he with he | ⟨name, -, rfl⟩
    · split at he
      · obtain rfl := List.mem_singleton.1 he
        exact h.elim
      · obtain rfl := List.mem_singleton.1 he
        exact absurd h (not_answers_closing _)
      · cases he
    · exact h.elim

/-- **No answer of a style sheet is left out by its calls.** -/
theorem covered : machine.Covered statements Signal.Answers where
  settle m next s hs hanswers :=
    ⟨production .selectors, mem_statements (by decide), (settle_covered next).1 s hs⟩
  settled P hP m next h := by
    obtain ⟨part, hpart, rfl⟩ := exists_of_mem_statements hP
    exact (settle_covered next).2 part hpart h
  pass m t ahead s hs hanswers := by
    simp only [machine] at hs
    split at hs
    · cases hs
    · next hignores =>
        obtain ⟨part, hpart, hclaims, h⟩ := exists_part_of_answers hs hanswers
        refine ⟨production part, mem_statements hpart, hclaims, h.imp_left fun hbegins => ?_⟩
        simp [production, hignores, hbegins]
  passed P hP m t ahead h := by
    obtain ⟨part, hpart, rfl⟩ := exists_of_mem_statements hP
    simp only [machine] at h
    split at h
    · exact .inr h
    · next hignores =>
        refine (begins_or_within hpart h).imp_left fun hbegins => ?_
        simp [production, hignores, hbegins]
  ends P hP m t := by
    obtain ⟨part, hpart, rfl⟩ := exists_of_mem_statements hP
    simp [production, hpart]
  finish m s hs hanswers := by
    have hmem := mem_unopened_of_answers hs hanswers
    have hheader : StylePart.atRule.within m.phase = true ∧ (production .atRule).Claims s := by
      unfold unopened at hmem
      split at hmem
      · next hphase =>
          obtain rfl := List.mem_singleton.1 hmem
          exact ⟨by rw [hphase]; rfl, .inl rfl⟩
      · cases hmem
    refine ⟨⟨production .atRule, mem_statements (by decide), hheader.2, hheader.1⟩, ?_⟩
    rwa [(finish_of_within hheader.1).2]

end Sheet

end EpubStyle
