import EpubStyle.Proofs.Sheet.Signals

/-!
# Handlers of problems

A handler of problems decides from its own state what to do at each problem, and may give the parse
up at any of them. The handlers that come with the parser are of this kind: what they receive is
what `deliver` says (`Handler.receive_errorHandler`). A handler that never gives up receives every
event, and every problem in its order (`ErrorHandler.receive_of_patient`).
-/

set_option autoImplicit false

namespace EpubStyle

/-! ## Patience -/

/-- A handler that lets every parse go on to its end. -/
def ErrorHandler.Patient {σ : Type} (h : ErrorHandler σ) : Prop :=
  ∀ (state : σ) (p : Problem), (h.error state p).2 = none

/-- Handlers of the parser that never give up are such handlers. -/
theorem Handler.Patient.errorHandler {h : Handler} (hh : h.Patient) : h.errorHandler.Patient := by
  intro collected p
  simp only [Handler.errorHandler]
  cases hrespond : h.respond collected.length with
  | collect => rfl
  | drop => rfl
  | giveUp => exact absurd hrespond (hh collected.length)

/-! ## The handlers of the parser -/

/-- **What a handler of the parser receives** with these problems collected. -/
theorem Handler.receive_errorHandler (h : Handler) (capacity : Nat) (collected : List Problem)
    (signals : List Signal) :
    h.errorHandler.receive capacity collected signals =
      { events := (deliver h capacity collected.length signals).events
        state := collected ++ (deliver h capacity collected.length signals).problems
        failure := (deliver h capacity collected.length signals).failure } := by
  induction signals generalizing collected with
  | nil => simp [ErrorHandler.receive, deliver, Delivery.empty]
  | cons s signals ih =>
      cases s with
      | event e => simp only [ErrorHandler.receive, deliver, ih]
      | problem p =>
          simp only [ErrorHandler.receive, deliver, errorHandler]
          cases h.respond collected.length with
          | collect =>
              -- The problem moves from what is delivered to what has been collected before.
              have hcollected := ih (collected ++ [p])
              rw [List.length_append, List.length_singleton] at hcollected
              simp only [errorHandler] at hcollected
              simp [hcollected]
          | drop => exact ih collected
          | giveUp => simp [Delivery.failed]
      | stepBack distance =>
          simp only [ErrorHandler.receive, deliver]
          split
          · exact ih collected
          · simp [Delivery.failed]

/-- A parse with a handler of the parser. -/
theorem Handler.parseText_errorHandler (h : Handler) (o : ParseOptions) (g : Grammar)
    (text source : String) :
    h.errorHandler.parseText [] o g text source =
      { events := (parseText o h g text source).events
        state := (parseText o h g text source).problems
        failure := (parseText o h g text source).failure } := by
  simp only [ErrorHandler.parseText, parseText, parseAny]
  split
  · rfl
  · exact h.receive_errorHandler o.capacity [] _

/-! ## Handlers that never give up -/

/-- **What a handler receives that never gives up**: every event, and the problems one by one. -/
theorem ErrorHandler.receive_of_patient {σ : Type} {h : ErrorHandler σ} (hh : h.Patient)
    (capacity : Nat) (state : σ) {signals : List Signal} (hs : Signal.Grammatical signals) :
    h.receive capacity state signals =
      { events := signals.filterMap Signal.event?
        state := (signals.filterMap Signal.problem?).foldl (fun s p => (h.error s p).1) state
        failure := none } := by
  induction signals generalizing state with
  | nil => rfl
  | cons s signals ih =>
      have htail : Signal.Grammatical signals := fun d hd => hs d (List.mem_cons_of_mem _ hd)
      cases s with
      | event e =>
          simp [receive, ih state htail, Signal.event?, Signal.problem?, List.filterMap_cons]
      | problem p =>
          have hgoes : h.error state p = ((h.error state p).1, none) := by
            rw [← hh state p]
          rw [receive, hgoes]
          simp [ih _ htail, Signal.event?, Signal.problem?, List.filterMap_cons]
      | stepBack d => exact absurd (List.mem_cons_self ..) (hs d)

end EpubStyle
