import EpubStyle.Proofs.Calls.Sheets

/-!
# The declarations of a style attribute

A style attribute is read declaration by declaration, so it has calls of one kind
(`StyleAttribute.declarations`). They keep to the rule of the declarations in a block: a declaration
is delivered without a word, or one problem is reported (`StyleAttribute.honest`).

Where the text ends behind an `!important` without a value, the problem names the last token. There
is one, because a declaration under way has taken its name: `Begun` carries that.
-/

set_option autoImplicit false

namespace EpubStyle

namespace AttributePhase

/-- A declaration is under way. -/
def reads : AttributePhase → Bool
  | reading _ | skippingNested _ => true
  | leading | between | stopped => false

/-- A declaration has been rejected, and the rest of it is skipped. -/
def rejects : AttributePhase → Bool
  | skippingNested _ => true
  | leading | between | reading _ | stopped => false

end AttributePhase

namespace StyleAttribute

/-- A style attribute that has taken a token if a declaration is under way. -/
def Begun : Type := { m : StyleAttribute // m.phase.reads = true → m.last.isSome = true }

theorem isSome_step (m : Begun) (t : Token) :
    (m.1.step t).1.phase.reads = true → (m.1.step t).1.last.isSome = true := by
  unfold step
  split
  · exact m.2
  · exact fun _ => rfl

/-- The machine of style attributes. It settles nothing before a token. -/
def machine : Machine Begun where
  settle m _ := (m, [])
  pass m t _ := (⟨(m.1.step t).1, isSome_step m t⟩, (m.1.step t).2)
  finish m := m.1.finish

/-- Before the first token. -/
def Begun.initial : Begun := ⟨StyleAttribute.initial, fun h => by cases h⟩

/-- A declaration starts with the token, if the token is taken. -/
def begins (m : StyleAttribute) (t : Token) : Bool :=
  match m.phase with
  | .leading => !t.isChar ';'
  | .between => true
  | .reading _ | .skippingNested _ | .stopped => false

/-- The declarations of a style attribute. -/
def declarations : Production Begun where
  starts m t := !t.isBlank && m.1.begins t
  inside m := m.1.phase.reads
  endsBefore _ _ := false
  rejected m := m.1.phase.rejects
  delivers := StylePart.declaration.delivers

/-- The machine with its step in two halves is the machine of the grammar. -/
theorem machine_run (m : Begun) (ts : List Token) : machine.run m ts = m.1.run ts := by
  induction ts generalizing m with
  | nil => rfl
  | cons t ahead ih =>
      simp only [Machine.run, run, ih]
      rfl

/-! ## Single steps -/

/-- What a step may do to a declaration that `was` rejected or not. -/
def Fair (was : Bool) (step : AttributePhase × List Signal) : Prop :=
  declarations.Fair Problem.Misplaced True was step.1.reads step.1.rejects step.2

theorem fair_startDeclaration (t : Token) : Fair false (startDeclaration t) := by
  unfold startDeclaration
  split
  · exact .on rfl rfl rfl
  · exact .refused rfl rfl rfl (Problem.misplaced_expecting t _)

theorem fair_afterReading {t : Token} {step : ReadingStep}
    (h : ∀ p depth, step = .rejected p depth → p.Misplaced) : Fair false (afterReading t step) := by
  cases step with
  | pending r => exact .on rfl rfl rfl
  | complete d => exact .delivered rfl rfl rfl
  | rejected p depth =>
      simp only [afterReading]
      split
      · exact Production.Keeps.rejected p (h p depth rfl)
      · exact .refused rfl rfl rfl (h p depth rfl)

/-- **What taking a token does to a declaration** that starts with it or is under way. -/
theorem fair_take {m : StyleAttribute} {t : Token}
    (h : m.begins t = true ∨ m.phase.reads = true) : Fair m.phase.rejects (m.take t) := by
  rcases m with ⟨last, phase⟩
  cases phase with
  | leading =>
      have hsemicolon : t.isChar ';' = false := by
        rcases h with h | h
        · simpa [begins] using h
        · cases h
      simp only [take, hsemicolon]
      exact fair_startDeclaration t
  | between => exact fair_startDeclaration t
  | reading r => exact fair_afterReading fun p depth => Reading.misplaced_of_rejected
  | skippingNested depth =>
      simp only [take]
      repeat' split
      · exact .skipped rfl rfl rfl
      · exact .skipped rfl rfl rfl
      · exact .on rfl rfl rfl
  | stopped => rcases h with h | h <;> cases h

/-! ## Whole calls -/

/-- Where the text ends inside a declaration, the declaration is delivered if it has a value. -/
theorem accounts_ending (m : Begun) (h : m.1.phase.reads = true) :
    (Machine.ending declarations m.1.finish).Accounts Problem.Misplaced True m.1.phase.rejects
      (Signal.problems (Machine.untilEnd m.1.finish)) := by
  rcases m with ⟨⟨last, phase⟩, hlast⟩
  cases phase with
  | leading | between | stopped => cases h
  | skippingNested depth => trivial
  | reading r =>
      cases r with
      | named name => trivial
      | nested d n => trivial
      | valued d =>
          simp only [finish]
          split
          · exact ⟨rfl, rfl⟩
          split
          · obtain ⟨t, rfl⟩ := Option.isSome_iff_exists.1 (hlast rfl)
            exact ⟨_, rfl, Problem.misplaced_unexpected t⟩
          · trivial

/-- **The declarations of a style attribute report what they should.** -/
theorem honest : declarations.Honest machine Problem.Misplaced True where
  delivers p := rfl
  start m t h := by
    rcases m with ⟨⟨last, phase⟩, hlast⟩
    simp only [declarations, Bool.and_eq_true] at h
    cases phase with
    | skippingNested depth => cases h.2
    | leading | between | reading r | stopped => rfl
  settle m next h := .inl ⟨h, rfl, rfl⟩
  ends m t h hends := by cases hends
  pass m t ahead h := by
    cases hblank : t.isBlank with
    | true =>
        have hinside : m.1.phase.reads = true := by
          rcases h with h | h
          · simp [declarations, hblank] at h
          · exact h.1
        have hstep : m.1.step t = (m.1, []) := by simp only [step, hblank, if_true]
        simp only [machine, hstep]
        exact .on hinside rfl rfl
    | false =>
        have hstep : m.1.step t = (⟨some t, (m.1.take t).1⟩, (m.1.take t).2) := by
          simp only [step, hblank, Bool.false_eq_true, if_false]
        have hfair : Fair m.1.phase.rejects (m.1.take t) := by
          refine fair_take (h.imp (fun h => ?_) And.left)
          simp only [declarations, Bool.and_eq_true] at h
          exact h.2
        simp only [machine, declarations, hstep]
        exact hfair
  finish m h := accounts_ending m h

/-! ## What no call leaves out -/

/-- Declarations and problems are what a declaration answers with. -/
theorem claims_of_ofDeclarations {s : Signal} (h : s.OfDeclarations) : declarations.Claims s := by
  match s, h with
  | .event (.declaration d), _ => exact .inl rfl
  | .problem p, _ => exact .inr ⟨p, rfl⟩

/-- Only a declaration that is under way or starts has an answer. -/
theorem begins_or_reads {m : StyleAttribute} {t : Token} (h : (m.take t).2 ≠ [] ∨
    (m.take t).1.reads = true) : m.begins t = true ∨ m.phase.reads = true := by
  rcases m with ⟨last, phase⟩
  cases phase with
  | leading =>
      cases hsemicolon : t.isChar ';' with
      | true => simp [take, hsemicolon, AttributePhase.reads] at h
      | false => simp [begins, hsemicolon]
  | between => exact .inl rfl
  | reading r | skippingNested depth => exact .inr rfl
  | stopped => simp [take, AttributePhase.reads] at h

/-- What the end of the text calls for inside a declaration. -/
theorem reads_of_finish {m : StyleAttribute} (h : m.finish ≠ []) : m.phase.reads = true := by
  rcases m with ⟨last, phase⟩
  cases phase with
  | leading | between | stopped => exact absurd rfl h
  | reading r | skippingNested depth => rfl

/-- Where the text ends, there is an answer or the report that it ends too early. -/
theorem mem_untilEnd_of_answers {m : StyleAttribute} {s : Signal} (hs : s ∈ m.finish)
    (h : s.Answers) : s ∈ Machine.untilEnd m.finish := by
  have hlength : m.finish.length ≤ 1 := by
    unfold finish
    repeat' split
    all_goals simp [Option.length_toList]
    all_goals split <;> simp
  have hfinish : m.finish = [s] := by
    cases hcase : m.finish with
    | nil => simp [hcase] at hs
    | cons s' rest =>
        rw [hcase] at hs hlength
        obtain rfl : rest = [] := by simpa using hlength
        rw [List.mem_singleton.1 hs]
  have hgoes : s.isPrematureEnd = false := by
    cases s with
    | event e => rfl
    | problem p => exact h
    | stepBack distance => exact h.elim
  simp [hfinish, Machine.untilEnd, hgoes]

/-- **No answer of a style attribute is left out by its calls.** -/
theorem covered : machine.Covered [declarations] Signal.Answers where
  settle m next s hs := by cases hs
  settled P hP m next h := h
  pass m t ahead s hs hanswers := by
    refine ⟨declarations, by simp, claims_of_ofDeclarations (m.1.declares_step t s hs).1, ?_⟩
    simp only [machine, step] at hs
    split at hs
    · cases hs
    · next hblank =>
        refine (begins_or_reads (.inl (List.ne_nil_of_mem hs))).imp_left fun hbegins => ?_
        simp [declarations, hblank, hbegins]
  passed P hP m t ahead h := by
    obtain rfl := List.mem_singleton.1 hP
    simp only [machine, declarations, step] at h
    split at h
    · exact .inr h
    · next hblank =>
        refine (begins_or_reads (.inr h)).imp_left fun hbegins => ?_
        simp [declarations, hblank, hbegins]
  ends P hP m t := by
    obtain rfl := List.mem_singleton.1 hP
    rfl
  finish m s hs hanswers :=
    ⟨⟨declarations, by simp, claims_of_ofDeclarations (m.1.ofDeclarations_finish s hs),
      reads_of_finish (List.ne_nil_of_mem hs)⟩, mem_untilEnd_of_answers hs hanswers⟩

end StyleAttribute

end EpubStyle
