import EpubStyle.Proofs.Sheet.Signals

/-!
# The signals of a style attribute

Between its start and its end a style attribute signals declarations and problems of the grammar,
and nothing else (`StyleAttribute.ofDeclarations_run`).
-/

set_option autoImplicit false

namespace EpubStyle

/-- The signal is a declaration or a problem of the grammar. -/
def Signal.OfDeclarations : Signal → Prop
  | event (.declaration _) => True
  | problem p => p.Grammatical
  | event _ | stepBack _ => False

namespace Signal

/-- Such signals come from a grammar. -/
theorem OfDeclarations.fromGrammar {s : Signal} (h : s.OfDeclarations) : s.FromGrammar := by
  cases s with
  | event e => trivial
  | problem p => exact h
  | stepBack distance => exact h

/-- The events among such signals are declarations. -/
theorem exists_declarations {signals : List Signal} (h : ∀ s ∈ signals, s.OfDeclarations) :
    ∃ ds : List Declaration, signals.filterMap event? = ds.map Event.declaration := by
  induction signals with
  | nil => exact ⟨[], rfl⟩
  | cons s signals ih =>
      obtain ⟨ds, hds⟩ := ih (fun s hs => h s (List.mem_cons_of_mem _ hs))
      have hs : s.OfDeclarations := h s (List.mem_cons_self ..)
      match s, hs with
      | event (.declaration d), _ => exact ⟨d :: ds, by simp [event?, hds]⟩
      | problem p, _ => exact ⟨ds, hds⟩

end Signal

namespace StyleAttribute

variable (m : StyleAttribute) (t : Token)

theorem declares_startDeclaration :
    ∀ s ∈ (startDeclaration t).2, s.OfDeclarations ∧ s.OfTokens := by
  unfold startDeclaration
  split
  · simp
  · simp [Signal.OfDeclarations]

theorem declares_afterReading (r : Reading) (last : Token) :
    ∀ s ∈ (afterReading t (r.step .attribute last t)).2, s.OfDeclarations ∧ s.OfTokens := by
  cases hstep : r.step .attribute last t with
  | pending r' => simp [afterReading]
  | complete d => simp [afterReading, Signal.OfDeclarations]
  | rejected p depth =>
      have hp : p.Misplaced := Reading.misplaced_of_rejected hstep
      simpa [afterReading, Signal.OfDeclarations] using And.intro hp.grammatical hp

/-- **What a step signals**: declarations, and problems with the tokens up to the one that it
takes. -/
theorem declares_step : ∀ s ∈ (m.step t).2, s.OfDeclarations ∧ s.OfTokens := by
  simp only [step, take]
  split
  · simp
  · split
    · split
      · simp
      · exact declares_startDeclaration t
    · exact declares_startDeclaration t
    · exact declares_afterReading t _ _
    · repeat' split
      all_goals simp
    · simp

theorem ofDeclarations_finish : ∀ s ∈ m.finish, s.OfDeclarations := by
  have hpremature : ∀ what, Signal.OfDeclarations (.problem (.premature m.lastLocation what)) :=
    fun what => Problem.grammatical_premature _ what
  simp only [finish]
  repeat' split
  all_goals simp_all [Signal.OfDeclarations]

/-- **What a style attribute signals** between its start and its end. -/
theorem ofDeclarations_run (ts : List Token) (m : StyleAttribute) :
    ∀ s ∈ m.run ts, s.OfDeclarations := by
  induction ts generalizing m with
  | nil => exact m.ofDeclarations_finish
  | cons t ts ih =>
      intro s hs
      rcases List.mem_append.1 hs with hs | hs
      · exact (m.declares_step t s hs).1
      · exact ih _ s hs

theorem fromGrammar_signals (ts : List Token) : ∀ s ∈ signals ts, s.FromGrammar := by
  intro s hs
  simp only [signals, List.mem_cons, List.mem_append, List.not_mem_nil, or_false] at hs
  rcases hs with rfl | hs | rfl
  · trivial
  · exact (ofDeclarations_run ts initial s hs).fromGrammar
  · trivial

end StyleAttribute

/-- **Either grammar signals events and problems of the grammar.** -/
theorem Grammar.fromGrammar_signals (g : Grammar) (ts : List Token) :
    ∀ s ∈ g.signals ts, s.FromGrammar := by
  cases g with
  | sheet => exact Sheet.fromGrammar_signals ts
  | styleAttribute => exact StyleAttribute.fromGrammar_signals ts

end EpubStyle
