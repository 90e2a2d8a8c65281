import EpubStyle.Grammar.Sheet
import EpubStyle.Proofs.Concrete.Properties
import EpubStyle.Proofs.Concrete.SelectorReading

/-!
# What one token does to selectors and declarations

A step inside a list of selectors or a declaration goes on, completes or rejects. Three facts about
it are needed wherever the machine of style sheets is followed through a whole text, and each is
said here once for every phase:

* only an opening brace completes a list of selectors, and the list is not empty
  (`Selecting.outcome_step`), as only the end of a declaration completes it
  (`Reading.of_step_eq_complete`);
* no brace is taken into selectors, declarations or values (`Selecting.outcome_step`,
  `Reading.not_pending_of_isBrace`, `Token.IsBrace.step`);
* a problem that a step reports is one of the grammar and not of the scanner, and never that the
  tokens ended (`Problem.Misplaced`).
-/

set_option autoImplicit false

namespace EpubStyle

/-! ## Problems -/

/-- A problem with the order of tokens, not with the characters of one. -/
def Problem.Grammatical (p : Problem) : Prop := p.code.isLexical = false

namespace Problem

@[simp] theorem grammatical_unexpected (t : Token) : (unexpected t).Grammatical := rfl

@[simp] theorem grammatical_expecting (t : Token) (what : Wording) :
    (expecting t what).Grammatical := rfl

@[simp] theorem grammatical_premature (location : Location) (what : Wording) :
    (premature location what).Grammatical := rfl

/-- A problem with the order of tokens that were read, not with where they end. -/
structure Misplaced (p : Problem) : Prop where
  grammatical : p.Grammatical
  ne_grammaticalEnd : p.code ≠ .grammaticalEnd

@[simp] theorem misplaced_unexpected (t : Token) : (unexpected t).Misplaced :=
  ⟨rfl, by simp [unexpected]⟩

@[simp] theorem misplaced_expecting (t : Token) (what : Wording) :
    (expecting t what).Misplaced :=
  ⟨rfl, by simp [expecting]⟩

end Problem

/-! ## Selectors -/

namespace SelectingStep

/-- The list of selectors goes on, or is given up with a problem of its tokens. -/
def Unfinished : SelectingStep → Prop
  | pending _ => True
  | complete _ => False
  | rejected p => p.Misplaced

/-- The token is not taken into the list. -/
def Refused : SelectingStep → Prop
  | pending _ => False
  | complete _ | rejected _ => True

/-- What may become of a list of selectors with the token `t`. -/
structure Outcome (t : Token) (step : SelectingStep) : Prop where
  pending : t.IsBrace → step.Refused
  complete : ∀ list, step = .complete list → t.isChar '{' = true ∧ list ≠ []
  rejected : ∀ p, step = .rejected p → p.Misplaced

@[simp] theorem unfinished_pending (s : Selecting) : (pending s).Unfinished := trivial

@[simp] theorem unfinished_rejected (p : Problem) : (rejected p).Unfinished ↔ p.Misplaced :=
  Iff.rfl

variable {t : Token} {step : SelectingStep}

/-- A step that goes on unless the token is a brace. -/
theorem Unfinished.outcome (h : step.Unfinished) (hbrace : t.IsBrace → step.Refused) :
    Outcome t step := by
  constructor
  · exact hbrace
  · rintro list rfl
    exact h.elim
  · rintro p rfl
    exact h

theorem Unfinished.ne_complete (h : step.Unfinished) (list : List Selector) :
    step ≠ .complete list := by
  rintro rfl
  exact h

end SelectingStep

namespace Selecting

open SelectingStep

variable (s : Selecting) (t : Token)

@[simp] theorem unfinished_enter (phase : SelectorPhase) : (s.enter phase).Unfinished := trivial

@[simp] theorem unfinished_place (c : Construct) (blame : Token) :
    (s.place c blame).Unfinished := by
  unfold place
  repeat' split
  all_goals simp

@[simp] theorem unfinished_placeType (start : Token) (use : TypeUse) (text : String) :
    (s.placeType start use text).Unfinished := by
  cases use with
  | simple => exact s.unfinished_place _ _
  | «attribute» bracket => exact s.unfinished_enter _

theorem unfinished_startType? {use : TypeUse} {step : SelectingStep}
    (h : s.startType? use t = some step) : step.Unfinished := by
  unfold startType? at h
  repeat' split at h
  all_goals cases h
  all_goals trivial

@[simp] theorem unfinished_startSimple : (s.startSimple t).Unfinished := by
  unfold startSimple
  split
  · next step h => exact s.unfinished_startType? t h
  · repeat' split
    all_goals simp

@[simp] theorem unfinished_startSequence : (s.startSequence t).Unfinished := by
  simp only [startSequence]
  split <;> exact unfinished_startSimple _ t

@[simp] theorem unfinished_stepTyping (start : Token) (use : TypeUse) (phase : TypePhase) :
    (s.stepTyping start use t phase).Unfinished := by
  cases phase with
  | name text => exact s.unfinished_enter _
  | bar => exact s.unfinished_placeType start use _
  | qualified text =>
      simp only [stepTyping]
      split
      · exact s.unfinished_placeType start use _
      · exact Problem.misplaced_expecting t _

@[simp] theorem unfinished_stepPseudo (head : PseudoHead) : (s.stepPseudo head t).Unfinished := by
  unfold stepPseudo
  repeat' split
  all_goals simp

@[simp] theorem unfinished_stepArgument (head : PseudoHead) (name : String)
    (members : List Construct) (b : Building) :
    (s.stepArgument head name members t b).Unfinished := by
  cases b <;> simp [stepArgument]

@[simp] theorem unfinished_stepAttributeValue (bracket : Location) (parts : List Construct)
    (start : Token) (b : Building) :
    (s.stepAttributeValue bracket parts start b).Unfinished := by
  cases b <;> simp [stepAttributeValue]

@[simp] theorem unfinished_closeNegation (argument : Construct) :
    (s.closeNegation argument t).Unfinished := by
  unfold closeNegation
  split <;> simp

/-- What is decided before a token never completes the list. -/
theorem unfinished_settle (next : Option Token) : (s.settle next).Unfinished := by
  unfold settle
  repeat' split
  all_goals simp

theorem misplaced_endSelector {p : Problem} (h : s.endSelector = .error p) : p.Misplaced := by
  unfold endSelector at h
  split at h
  · cases h
    exact ⟨rfl, by simp⟩
  · cases h

theorem finished_endSelector {s' : Selecting} (h : s.endSelector = .ok s') : s'.finished ≠ [] := by
  unfold endSelector at h
  split at h
  · cases h
  · cases h
    simp

/-! Where no sequence has ended, a brace is refused. -/

theorem refused_startType? {use : TypeUse} (h : t.IsBrace) : s.startType? use t = none := by
  have hstar : t.isChar '*' = false := h.isChar_eq_false (by decide) (by decide)
  have hbar : t.isChar '|' = false := h.isChar_eq_false (by decide) (by decide)
  simp [startType?, h.kind, hstar, hbar]

theorem refused_startSimple (h : t.IsBrace) : (s.startSimple t).Refused := by
  have hbracket : t.isChar '[' = false := h.isChar_eq_false (by decide) (by decide)
  have hcolon : t.isChar ':' = false := h.isChar_eq_false (by decide) (by decide)
  simp [startSimple, s.refused_startType? t h, h.kind, hbracket, hcolon, Refused]

theorem refused_startSequence (h : t.IsBrace) : (s.startSequence t).Refused := by
  simp only [startSequence]
  split <;> exact refused_startSimple _ t h

/-- Behind a sequence the list may be complete. -/
theorem outcome_stepBetween (spaced : Bool) : SelectingStep.Outcome t (s.stepBetween spaced t) := by
  unfold stepBetween
  -- Of the tokens that may follow only the opening brace ends the whole list.
  by_cases hopen : t.isChar '{' = true
  · simp only [hopen, if_true]
    cases hend : s.endSequence.endSelector with
    | ok s' =>
        constructor
        · intro _
          trivial
        · rintro list ⟨⟩
          exact ⟨hopen, by simpa using finished_endSelector _ hend⟩
        · intro p hp
          cases hp
    | error p =>
        apply Unfinished.outcome
        · exact misplaced_endSelector _ hend
        · intro _
          trivial
  · simp only [hopen, Bool.false_eq_true, if_false]
    have hcomma : t.IsBrace → t.isChar ',' = false :=
      fun h => h.isChar_eq_false (by decide) (by decide)
    split
    · next hc =>
        cases hend : s.endSequence.endSelector with
        | ok s' =>
            apply Unfinished.outcome (unfinished_pending _)
            intro h
            simp [hcomma h] at hc
        | error p =>
            apply Unfinished.outcome
            · exact misplaced_endSelector _ hend
            · intro _
              trivial
    · split
      · next kind hkind =>
          apply Unfinished.outcome (unfinished_pending _)
          intro h
          have hclose : t.isChar '}' = true := h.resolve_left hopen
          simp [Token.char?, h.kind, Token.text_of_isChar hclose, Combinator.ofChar?] at hkind
      · split
        · apply Unfinished.outcome
          · exact unfinished_startSequence _ t
          · exact refused_startSequence _ t
        · apply Unfinished.outcome
          · exact Problem.misplaced_unexpected t
          · intro _
            trivial

/-- A brace takes no decision back. -/
theorem not_typing_of_settle (h : s.settle (some t) = .pending s) (hbrace : t.IsBrace)
    {phase : TypePhase} {start : Token} {use : TypeUse}
    (hphase : s.phase = .typing phase start use) :
    ∃ text, phase = .qualified text := by
  have hbar : t.isChar '|' = false := hbrace.isChar_eq_false (by decide) (by decide)
  cases phase with
  | name text =>
      simp only [settle, hphase, Option.any_some, hbar, Bool.false_eq_true, if_false] at h
      exact absurd hphase (not_typing_of_placeType h _ _ _)
  | bar => simp [settle, hphase, hbrace.kind] at h
  | qualified text => exact ⟨text, rfl⟩

/-- What has been decided before a token needs no second decision. -/
theorem settle_of_settle {s s' : Selecting} {t : Token} (h : s.settle (some t) = .pending s') :
    s'.settle (some t) = .pending s' := by
  rcases s with ⟨finished, location, components, sequence, start, negations, phase⟩
  cases phase with
  | typing phase start use =>
      -- Only a type is ever in doubt: its name may turn out to be a namespace at the bar behind it.
      cases phase with
      | name text =>
          simp only [settle] at h
          split at h
          · next hbar =>
              cases h
              simp [settle, hbar]
          · exact settled_of_placeType h t
      | bar =>
          simp only [settle] at h
          split at h
          · next hident =>
              cases h
              simp [settle, hident]
          · cases h
      | qualified text =>
          cases h
          rfl
  | _ =>
      cases h
      rfl

/-- Behind a simple selector the sequence goes on or ends. -/
theorem outcome_member (hphase : s.phase = .member) : SelectingStep.Outcome t (s.step t) := by
  have hkind : ∀ {kind : TokenKind}, kind ≠ .char → (t.kind == kind) = true → ¬ t.IsBrace := by
    intro kind hkind htoken hbrace
    rw [hbrace.kind, beq_iff_eq] at htoken
    exact hkind htoken.symm
  simp only [step, hphase]
  split
  · next hspace =>
      apply (s.unfinished_enter _).outcome
      intro hbrace
      exact absurd hbrace (hkind (by simp) hspace)
  split
  · next hcomment =>
      apply (s.unfinished_enter _).outcome
      intro hbrace
      exact absurd hbrace (hkind (by simp) hcomment)
  split
  · exact s.outcome_stepBetween t false
  · exact (s.unfinished_startSimple t).outcome (s.refused_startSimple t)

/-- Anywhere else the list is not complete. -/
theorem unfinished_step (hmember : s.phase ≠ .member)
    (hbetween : ∀ spaced, s.phase ≠ .between spaced) : (s.step t).Unfinished := by
  unfold step
  split
  · exact s.unfinished_startSequence t
  · next hphase => exact absurd hphase hmember
  · next spaced hphase => exact absurd hphase (hbetween spaced)
  · exact s.unfinished_stepTyping t _ _ _
  · split
    · next step hstep => exact s.unfinished_startType? t hstep
    · exact Problem.misplaced_expecting t _
  · split
    · exact s.unfinished_place _ _
    · split <;> simp
  · exact s.unfinished_stepAttributeValue _ _ _ _
  · exact s.unfinished_stepAttributeValue _ _ _ _
  · split <;> simp
  · exact s.unfinished_stepPseudo t _
  · split
    · exact s.unfinished_place _ _
    · split <;> simp
  · exact s.unfinished_stepArgument t _ _ _ _
  · exact s.unfinished_startSimple t
  · split <;> simp

/-- Anywhere else a brace is refused. -/
theorem refused_step (hmember : s.phase ≠ .member) (hbetween : ∀ spaced, s.phase ≠ .between spaced)
    (h : s.settle (some t) = .pending s) (hbrace : t.IsBrace) : (s.step t).Refused := by
  -- A brace is no name, opens no group and closes none, so no phase has a use for it.
  have hmark : ∀ c, c ≠ '{' → c ≠ '}' → t.isChar c = false := fun _ => hbrace.isChar_eq_false
  cases hphase : s.phase with
  | opening =>
      simp only [step, hphase]
      exact s.refused_startSequence t hbrace
  | member => exact absurd hphase hmember
  | between spaced => exact absurd hphase (hbetween spaced)
  | typing phase start use =>
      obtain ⟨text, rfl⟩ := s.not_typing_of_settle t h hbrace hphase
      simp [step, hphase, stepTyping, hbrace.kind, hmark, Refused]
  | attributeName bracket => simp [step, hphase, s.refused_startType? t hbrace, Refused]
  | attributeOperator bracket name => simp [step, hphase, hmark, hbrace.operator, Refused]
  | attributeValue bracket parts => simp [step, hphase, hbrace.start, stepAttributeValue, Refused]
  | attributeNested bracket parts start n =>
      simp [step, hphase, hbrace.step, stepAttributeValue, Refused]
  | attributeClose bracket parts => simp [step, hphase, hmark, Refused]
  | pseudo head => simp [step, hphase, stepPseudo, hmark, hbrace.kind, Refused]
  | «arguments» head name members =>
      have hclose : t.isChar ')' = false := hmark _ (by decide) (by decide)
      simp only [step, hphase, hclose, hbrace.start, stepArgument, Bool.false_eq_true, if_false]
      split <;> trivial
  | argumentNested head name members n => simp [step, hphase, hbrace.step, stepArgument, Refused]
  | negated =>
      simp only [step, hphase]
      exact s.refused_startSimple t hbrace
  | negationClose argument => simp [step, hphase, hmark, Refused]

/-- **What a token does to selectors** once everything before it is decided. -/
theorem outcome_step (h : s.settle (some t) = .pending s) : SelectingStep.Outcome t (s.step t) := by
  by_cases hmember : s.phase = .member
  · exact s.outcome_member t hmember
  by_cases hbetween : ∃ spaced, s.phase = .between spaced
  · obtain ⟨spaced, hphase⟩ := hbetween
    simp only [step, hphase]
    exact s.outcome_stepBetween t spaced
  · have hbetween' : ∀ spaced, s.phase ≠ .between spaced := fun spaced he => hbetween ⟨spaced, he⟩
    apply (s.unfinished_step t hmember hbetween').outcome
    exact s.refused_step t hmember hbetween' h

/-- Whatever is wrong with a selector is a problem of its tokens. -/
theorem misplaced_of_rejected {p : Problem} (h : s.step t = .rejected p) : p.Misplaced := by
  by_cases hmember : s.phase = .member
  · exact (s.outcome_member t hmember).rejected p h
  by_cases hbetween : ∃ spaced, s.phase = .between spaced
  · obtain ⟨spaced, hphase⟩ := hbetween
    simp only [step, hphase] at h
    exact (s.outcome_stepBetween t spaced).rejected p h
  · have hstep := s.unfinished_step t hmember (fun spaced he => hbetween ⟨spaced, he⟩)
    rwa [h] at hstep

end Selecting

/-! ## Declarations -/

namespace Reading

variable {setting : Setting} {r : Reading} {last t : Token}

/-- Whatever is wrong with a declaration is a problem of its tokens. -/
theorem misplaced_of_rejected {p : Problem} {depth : Nat}
    (h : r.step setting last t = .rejected p depth) : p.Misplaced := by
  have htake : ∀ d b, Reading.take d t b = .rejected p depth → p.Misplaced := by
    intro d b hb
    cases b <;> cases hb
    exact Problem.misplaced_unexpected t
  cases r with
  | named name =>
      simp only [Reading.step] at h
      split at h <;> cases h
      exact Problem.misplaced_expecting t _
  | valued d =>
      simp only [Reading.step, stepValued] at h
      split at h
      · cases h
        exact Problem.misplaced_expecting t _
      split at h
      · split at h <;> cases h
        exact Problem.misplaced_unexpected last
      split at h
      · cases h
      · exact htake _ _ h
  | nested d n => exact htake _ _ h

/-- No declaration goes on with a brace. -/
theorem not_pending_of_isBrace (hbrace : t.IsBrace) (r' : Reading) :
    r.step setting last t ≠ .pending r' := by
  have hcolon : t.isChar ':' = false := hbrace.isChar_eq_false (by decide) (by decide)
  cases r with
  | named name => simp [Reading.step, hcolon]
  | valued d =>
      simp only [Reading.step, stepValued, hbrace.start, hbrace.kind]
      repeat' split
      all_goals simp_all [take]
  | nested d n => simp [Reading.step, hbrace.step, take]

end Reading

end EpubStyle
