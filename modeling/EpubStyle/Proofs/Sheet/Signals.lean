import EpubStyle.Parse
import EpubStyle.Proofs.Sheet.Blocks
import EpubStyle.Proofs.Sheet.Outcomes

/-!
# The signals of a style sheet

The machine of style sheets signals events and problems of the grammar and never goes back in the
text (`Sheet.fromGrammar_signals`). A handler that never gives up therefore receives every event,
and what it collects depends on nothing but the problems (`deliver_of_patient`).
-/

set_option autoImplicit false

namespace EpubStyle

namespace Signal

/-- The event of a signal. -/
def event? : Signal → Option Event
  | event e => some e
  | problem _ | stepBack _ => none

/-- The problem of a signal. -/
def problem? : Signal → Option Problem
  | problem p => some p
  | event _ | stepBack _ => none

/-- The signals are events and problems. -/
def Grammatical (signals : List Signal) : Prop :=
  ∀ distance : Nat, Signal.stepBack distance ∉ signals

/-- No signal says that the tokens ended too early. -/
def Complete (signals : List Signal) : Prop :=
  ∀ p : Problem, Signal.problem p ∈ signals → p.code ≠ .grammaticalEnd

theorem Complete.append_right {s s' : List Signal} (h : Complete (s ++ s')) :
    Complete s' :=
  fun p hp => h p (List.mem_append_right _ hp)

/-- The signals report no problem. -/
def Flawless (signals : List Signal) : Prop :=
  ∀ p : Problem, Signal.problem p ∉ signals

theorem Flawless.complete {s : List Signal} (h : Flawless s) : Complete s :=
  fun p hp => absurd hp (h p)

theorem Flawless.append_left {s s' : List Signal} (h : Flawless (s ++ s')) : Flawless s :=
  fun p hp => h p (List.mem_append_left _ hp)

theorem Flawless.append_right {s s' : List Signal} (h : Flawless (s ++ s')) : Flawless s' :=
  fun p hp => h p (List.mem_append_right _ hp)

end Signal

/-! ## Delivery -/

/-- A handler that lets every parse go on to its end. -/
def Handler.Patient (h : Handler) : Prop := ∀ collected, h.respond collected ≠ .giveUp

theorem Handler.patient_collecting : Handler.Patient (.collecting none) :=
  fun _ => by simp [Handler.respond]

/-- The problems that a handler which never gives up has collected in the end. -/
def collected (h : Handler) (signals : List Signal) : List Problem :=
  match h with
  | .forgiving => []
  | .collecting _ | .strict => signals.filterMap Signal.problem?

/-- **What a handler receives that never gives up**: every event, and the problems it collects. -/
theorem deliver_of_patient {h : Handler} (hh : h.Patient) (capacity n : Nat) {signals : List Signal}
    (hs : Signal.Grammatical signals) :
    deliver h capacity n signals =
      ⟨signals.filterMap Signal.event?, collected h signals, none⟩ := by
  induction signals generalizing n with
  | nil => cases h <;> rfl
  | cons s signals ih =>
      have htail : Signal.Grammatical signals := fun d hd => hs d (List.mem_cons_of_mem _ hd)
      cases s with
      | event e =>
          cases h <;> simp [deliver, ih n htail, Signal.event?, Signal.problem?, collected,
            List.filterMap_cons]
      | problem p =>
          cases h with
          | strict => exact absurd rfl (hh 0)
          | forgiving =>
              simp [deliver, Handler.respond, ih n htail, Signal.event?, collected,
                List.filterMap_cons]
          | collecting limit =>
              cases limit with
              | some limit =>
                  exact absurd (show (Handler.collecting (some limit)).respond limit = .giveUp by
                    simp [Handler.respond]) (hh limit)
              | none =>
                  simp [deliver, Handler.respond, ih (n + 1) htail, Signal.event?,
                    Signal.problem?, collected, List.filterMap_cons]
      | stepBack d => exact absurd (List.mem_cons_self ..) (hs d)

/-! ## What grammars signal -/

/-- The signal is an event or a problem of the grammar. -/
def Signal.FromGrammar : Signal → Prop
  | event _ => True
  | problem p => p.Grammatical
  | stepBack _ => False

namespace Signal

@[simp] theorem fromGrammar_event (e : Event) : (event e).FromGrammar := trivial

@[simp] theorem fromGrammar_problem (p : Problem) : (problem p).FromGrammar ↔ p.Grammatical :=
  Iff.rfl

/-- The signal is an event or a problem with the order of tokens that were read. -/
def OfTokens : Signal → Prop
  | event _ => True
  | problem p => p.Misplaced
  | stepBack _ => False

@[simp] theorem ofTokens_event (e : Event) : (event e).OfTokens := trivial

@[simp] theorem ofTokens_problem (p : Problem) : (problem p).OfTokens ↔ p.Misplaced :=
  Iff.rfl

theorem OfTokens.fromGrammar {s : Signal} (h : s.OfTokens) : s.FromGrammar := by
  cases s with
  | event e => trivial
  | problem p => exact h.grammatical
  | stepBack distance => exact h

/-- Such signals never say that the tokens ended. -/
theorem complete_of_ofTokens {signals : List Signal} (h : ∀ s ∈ signals, s.OfTokens) :
    Complete signals :=
  fun p hp => Problem.Misplaced.ne_grammaticalEnd (h (.problem p) hp)

/-- Signals of a grammar say nothing about going back. -/
theorem grammatical_of_fromGrammar {signals : List Signal} (h : ∀ s ∈ signals, s.FromGrammar) :
    Grammatical signals :=
  fun _ hd => h _ hd

end Signal

namespace Sheet

variable (m : Sheet) (t : Token)

theorem ofTokens_stepBlock {owner : BlockOwner} {phase : BlockPhase}
    (h : m.phase = .block owner phase) : ∀ s ∈ (m.stepBlock owner t phase).2, s.OfTokens := by
  obtain ⟨signals, next, hturn, hstep⟩ := exists_blockTurn h t
  rw [hstep, forall_mem_goOn]
  refine ⟨?_, fun _ => trivial⟩
  cases hturn with
  | nameless => simp
  | completes => simp
  | rejects hrejected => simpa using Reading.misplaced_of_rejected hrejected
  | ends | name | takes | opens | closes | skips | skipsNested => simp

theorem ofTokens_afterSelecting (s : Selecting) :
    ∀ x ∈ (m.afterSelecting t (s.step t)).2, x.OfTokens := by
  cases hstep : s.step t with
  | pending s => simp [afterSelecting, enter]
  | complete list => simp [afterSelecting, enter]
  | rejected p =>
      have hp : p.Misplaced := s.misplaced_of_rejected t hstep
      simp only [afterSelecting, skipRule]
      split <;> simpa [enter] using hp

theorem ofTokens_stepHeader (name : String) (location : Location) (parameters : List Construct)
    (nesting : Option Nesting) (ahead : List Token) :
    ∀ s ∈ (m.stepHeader name location parameters nesting t ahead).2, s.OfTokens := by
  obtain ⟨step, hturn, hstep⟩ := m.exists_headerTurn name location parameters nesting t ahead
  rw [hstep]
  cases hturn with
  | parameter => cases parameterStep nesting t <;> simp [afterParameter, enter]
  | ends | opensStatements | opensDeclarations => simp [enter, atRuleEvent]

theorem ofTokens_settle (next : Option Token) : ∀ s ∈ (m.settle next).2, s.OfTokens := by
  unfold settle
  split
  · next s _ =>
      cases hsettle : s.settle next with
      | pending s => simp [enter]
      | complete list => simp
      | rejected p =>
          have hp : p.Misplaced := by simpa [hsettle] using s.unfinished_settle next
          simpa [enter] using hp
  · simp

theorem ofTokens_take (ahead : List Token) : ∀ s ∈ (m.take t ahead).2, s.OfTokens := by
  simp only [take]
  split
  · simp only [stepStatement]
    split
    · simp
    · split
      · simp [enter]
      · exact m.ofTokens_afterSelecting t _
  · exact m.ofTokens_afterSelecting t _
  · simp only [stepSkippingRule]
    repeat' split
    all_goals simp [enter]
  · exact m.ofTokens_stepHeader t _ _ _ _ ahead
  · simp only [stepSkippingAtRule]
    repeat' split
    all_goals simp [enter]
  · next hphase => exact m.ofTokens_stepBlock t hphase

/-- **What a step signals**: events, and problems with the tokens up to the one that it takes. -/
theorem ofTokens_step (ahead : List Token) : ∀ s ∈ (m.step t ahead).2, s.OfTokens := by
  simp only [step]
  split
  · exact m.ofTokens_settle (some t)
  · intro s hs
    rcases List.mem_append.1 hs with hs | hs
    · exact m.ofTokens_settle (some t) s hs
    · exact ofTokens_take _ t ahead s hs

theorem fromGrammar_finish : ∀ s ∈ m.finish, s.FromGrammar := by
  intro s hs
  simp only [finish, List.mem_append] at hs
  rcases hs with ((hs | hs) | hs) | hs
  · exact (m.ofTokens_settle none s hs).fromGrammar
  · simp only [unopened] at hs
    split at hs <;> simp_all [atRuleEvent]
  · split at hs <;> simp_all
  · simp only [closings, List.mem_map] at hs
    obtain ⟨e, -, rfl⟩ := hs
    trivial

theorem fromGrammar_run (ts : List Token) (m : Sheet) : ∀ s ∈ m.run ts, s.FromGrammar := by
  induction ts generalizing m with
  | nil => exact m.fromGrammar_finish
  | cons t ts ih =>
      intro s hs
      rcases List.mem_append.1 hs with hs | hs
      · exact (m.ofTokens_step t ts s hs).fromGrammar
      · exact ih _ s hs

/-- **A style sheet is read without going back**, and what is wrong with it is a problem of the
grammar. -/
theorem fromGrammar_signals (ts : List Token) : ∀ s ∈ signals ts, s.FromGrammar := by
  intro s hs
  simp only [signals, List.mem_cons, List.mem_append, List.not_mem_nil, or_false] at hs
  rcases hs with rfl | hs | rfl
  · trivial
  · exact fromGrammar_run ts initial s hs
  · trivial

theorem grammatical_signals (ts : List Token) : Signal.Grammatical (signals ts) :=
  Signal.grammatical_of_fromGrammar (fromGrammar_signals ts)

end Sheet

end EpubStyle
