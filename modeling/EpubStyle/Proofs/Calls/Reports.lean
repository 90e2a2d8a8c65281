import EpubStyle.Proofs.Calls.StyleAttributes

/-!
# One report for each construct that is not built

Either grammar is read in calls (`Grammar.calls`). A handler that never gives up sees a call as a
part of the whole run: it comes to the call with some state, receives the problems of the call one
by one, and goes on (`ErrorHandler.through`). A call that builds its construct gives it nothing to
receive, and one that builds nothing gives it one problem of the grammar. For an at-rule that is an
unexpected token, and an at-rule is delivered even where the tokens run out.

The calls leave nothing out: whatever a run delivers or reports, besides the end of the tokens, is
the answer of a call for selectors, a declaration or an at-rule.
-/

set_option autoImplicit false

namespace EpubStyle

/-- The state of a handler behind signals, if it never gives up. -/
def ErrorHandler.through {σ : Type} (h : ErrorHandler σ) (state : σ) (signals : List Signal) : σ :=
  (Signal.problems signals).foldl (fun s p => (h.error s p).1) state

theorem ErrorHandler.through_append {σ : Type} (h : ErrorHandler σ) (state : σ)
    (s s' : List Signal) : h.through state (s ++ s') = h.through (h.through state s) s' := by
  simp [through]

/-- The calls for constructs of a kind while tokens are read by a grammar. A style attribute holds
declarations only. -/
def Grammar.calls (g : Grammar) (part : StylePart) (ts : List Token) : List Call :=
  match g, part with
  | .sheet, part => Sheet.machine.calls (Sheet.production part) .initial ts
  | .styleAttribute, .declaration =>
      StyleAttribute.machine.calls StyleAttribute.declarations .initial ts
  | .styleAttribute, .sequence | .styleAttribute, .selectors | .styleAttribute, .atRule => []

/-- What a call for a construct of the kind reports, by its answer. -/
structure Call.Accounted (part : StylePart) (c : Call) : Prop where
  built : c.answer = .built → Signal.problems c.signals = []
  nothing : c.answer = .nothing →
    ∃ p, Signal.problems c.signals = [p] ∧ p.Grammatical ∧ part.Blames p
  exhausted : c.answer = .exhausted → part ≠ .atRule
  /-- Whether the construct was built is seen from what is delivered. -/
  delivered : part ≠ .sequence → (c.answer = .built ↔ c.signals.any part.delivers = true)

theorem Call.accounted {part : StylePart} {c : Call} {RunsOut : Prop}
    (haccounts : c.answer.Accounts part.Blames RunsOut false (Signal.problems c.signals))
    (hrunsOut : RunsOut → part ≠ .atRule)
    (hdelivered : part ≠ .sequence → (c.answer = .built ↔ c.signals.any part.delivers = true)) :
    c.Accounted part where
  built h := by
    rw [h] at haccounts
    exact haccounts.2
  nothing h := by
    rw [h] at haccounts
    obtain ⟨p, hp, hblames⟩ := haccounts
    exact ⟨p, hp, hblames.misplaced.grammatical, hblames⟩
  exhausted h := by
    rw [h] at haccounts
    exact hrunsOut haccounts
  delivered := hdelivered

namespace Grammar

variable {g : Grammar} {part : StylePart} {ts : List Token} {c : Call}

theorem accounted_of_mem_calls (hc : c ∈ g.calls part ts) : c.Accounted part := by
  cases g with
  | sheet =>
      refine Call.accounted ((Sheet.honest part).accounts hc) id fun hpart => ?_
      refine (Sheet.honest part).built_iff (fun m t => ?_) hc
      simp [Sheet.production, hpart]
  | styleAttribute =>
      cases part with
      | declaration =>
          refine Call.accounted (StyleAttribute.honest.accounts hc) (fun _ => by decide) fun _ => ?_
          exact StyleAttribute.honest.built_iff (fun m t => rfl) hc
      | sequence | selectors | atRule => cases hc

/-- A call is a part of what is signalled, and behind a call that ran out of tokens their end is
reported. -/
theorem exists_append_of_mem_calls (hc : c ∈ g.calls part ts) :
    ∃ front back, g.signals ts = front ++ c.signals ++ back ∧
      (c.answer = .exhausted → ∃ s ∈ back.head?, Signal.isPrematureEnd s = true) := by
  -- What stands around the run is the start and the finish of the document.
  have hwrap : ∀ {run : List Signal},
      (∃ front back, run = front ++ c.signals ++ back ∧
        (c.answer = .exhausted → ∃ s ∈ back.head?, Signal.isPrematureEnd s = true)) →
      ∃ front back, .event .start :: (run ++ [.event .finish]) = front ++ c.signals ++ back ∧
        (c.answer = .exhausted → ∃ s ∈ back.head?, Signal.isPrematureEnd s = true) := by
    rintro run ⟨front, back, rfl, hend⟩
    refine ⟨.event .start :: front, back ++ [.event .finish], by simp, fun hexhausted => ?_⟩
    obtain ⟨s, hs, hs'⟩ := hend hexhausted
    exact ⟨s, by simp [List.head?_append, Option.mem_def.1 hs], hs'⟩
  cases g with
  | sheet =>
      have hpart := Machine.exists_append_of_mem_calls hc
      rw [Sheet.machine_run] at hpart
      exact hwrap hpart
  | styleAttribute =>
      cases part with
      | declaration =>
          have hpart := Machine.exists_append_of_mem_calls hc
          rw [StyleAttribute.machine_run] at hpart
          exact hwrap hpart
      | sequence | selectors | atRule => cases hc

/-- **Every answer of a run is the answer of a call**: a problem, or a construct of the kind that
the call is for. -/
theorem exists_call_of_answers {s : Signal} (hs : s ∈ g.signals ts) (h : s.Answers) :
    ∃ part, part ≠ .sequence ∧ (part.delivers s = true ∨ ∃ p, s = .problem p) ∧
      ∃ c ∈ g.calls part ts, s ∈ c.signals := by
  -- The start and the finish of the document answer nothing.
  have hinner : ∀ {run : List Signal}, s ∈ .event .start :: (run ++ [.event .finish]) →
      s ∈ run := by
    intro run hmem
    simp only [List.mem_cons, List.mem_append, List.not_mem_nil, or_false] at hmem
    rcases hmem with rfl | hmem | rfl
    · exact h.elim
    · exact hmem
    · exact h.elim
  cases g with
  | sheet =>
      have hrun : s ∈ Sheet.machine.run .initial ts := by
        rw [Sheet.machine_run]
        exact hinner hs
      have hoff : ∀ P ∈ Sheet.statements, P.inside Sheet.initial = false := by
        intro P hP
        obtain ⟨part, -, rfl⟩ := Sheet.exists_of_mem_statements hP
        cases part <;> rfl
      obtain ⟨P, hP, hclaims, hcall⟩ := Sheet.covered.mem_call hoff hrun h
      obtain ⟨part, hpart, rfl⟩ := Sheet.exists_of_mem_statements hP
      exact ⟨part, hpart, hclaims, hcall⟩
  | styleAttribute =>
      have hrun : s ∈ StyleAttribute.machine.run .initial ts := by
        rw [StyleAttribute.machine_run]
        exact hinner hs
      have hoff : ∀ P ∈ [StyleAttribute.declarations],
          P.inside StyleAttribute.Begun.initial = false := by
        intro P hP
        obtain rfl := List.mem_singleton.1 hP
        rfl
      obtain ⟨P, hP, hclaims, hcall⟩ := StyleAttribute.covered.mem_call hoff hrun h
      obtain rfl := List.mem_singleton.1 hP
      exact ⟨.declaration, by decide, hclaims, hcall⟩

end Grammar

/-- **One report for each construct that is not built.** A handler that never gives up passes
through every call. A call that builds its construct reports nothing to it, and a call that builds
nothing reports one problem of the grammar: for an at-rule an unexpected token. Every answer of the
run is the answer of some call. -/
theorem ErrorHandler.receive_calls {σ : Type} {h : ErrorHandler σ} (hh : h.Patient)
    (capacity : Nat) (state : σ) (g : Grammar) (ts : List Token) :
    (∀ part, ∀ c ∈ g.calls part ts,
      c.Accounted part ∧
        ∃ front back, g.signals ts = front ++ c.signals ++ back ∧
          (c.answer = .exhausted → ∃ s ∈ back.head?, Signal.isPrematureEnd s = true) ∧
          h.receive capacity state (g.signals ts) =
            { events := (g.signals ts).filterMap Signal.event?
              state := h.through (h.through (h.through state front) c.signals) back
              failure := none }) ∧
      ∀ s ∈ g.signals ts, s.Answers →
        ∃ part, part ≠ .sequence ∧ (part.delivers s = true ∨ ∃ p, s = .problem p) ∧
          ∃ c ∈ g.calls part ts, s ∈ c.signals := by
  have hreceive := ErrorHandler.receive_of_patient hh capacity state
    (Signal.grammatical_of_fromGrammar (g.fromGrammar_signals ts))
  refine ⟨fun part c hc => ⟨Grammar.accounted_of_mem_calls hc, ?_⟩,
    fun s hs hanswers => Grammar.exists_call_of_answers hs hanswers⟩
  obtain ⟨front, back, hsignals, hend⟩ := Grammar.exists_append_of_mem_calls hc
  refine ⟨front, back, hsignals, hend, ?_⟩
  have hthrough : h.through state (g.signals ts) =
      h.through (h.through (h.through state front) c.signals) back := by
    rw [hsignals, through_append, through_append]
  rw [← hthrough]
  exact hreceive

/-- The declaration `b:` in a style attribute, rejected at a semicolon. -/
theorem ErrorHandler.receive_calls_rejected :
    (Handler.collecting none).errorHandler.Patient ∧
      ∃ c ∈ Grammar.styleAttribute.calls .declaration
          [⟨.ident, "b", .start, []⟩, ⟨.char, ":", .start, []⟩, ⟨.char, ";", .start, []⟩],
        c.answer = .nothing ∧ c.Accounted .declaration := by
  have hpatient := Handler.patient_collecting.errorHandler
  refine ⟨hpatient, ?_⟩
  have hcalls := (ErrorHandler.receive_calls hpatient 0 [] .styleAttribute
    [⟨.ident, "b", .start, []⟩, ⟨.char, ":", .start, []⟩, ⟨.char, ";", .start, []⟩]).1 .declaration
  refine ⟨_, List.mem_singleton.2 rfl, ?_⟩
  exact ⟨rfl, (hcalls _ (List.mem_singleton.2 rfl)).1⟩

end EpubStyle
