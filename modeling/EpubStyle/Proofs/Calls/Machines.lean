import EpubStyle.Proofs.Parse.PrematureEnds

/-!
# Constructs read by a machine

A machine that takes one token a step has no function for a construct of the grammar: a declaration
is under way between two of its states. A `Production` says which states these are, and with it the
run falls into *calls*: a call is given the tokens from the first one of a construct up to where the
construct is left, and it has the signals of these steps (`Machine.calls`). It ends in one of three
ways (`Answer`): the construct was built, nothing was built, or the tokens ran out first.

## What this module delivers

- `Machine.exists_append_of_mem_calls`: the signals of a call are a part of the signals of the run,
  with nothing left out between them.
- `Production.Honest` says of single steps what they report about a construct, and
  `Production.Honest.accounts` says it of whole calls: nothing if the construct was built, and one
  problem if it was not. `Production.Honest.built_iff` ties the answer to what is delivered.
- `Machine.Covered` says of single steps that some production answers for what they signal, and
  `Machine.Covered.mem_call` that each such signal of a run is one of a call.
-/

set_option autoImplicit false

namespace EpubStyle

/-- A machine with its step in two halves: it settles what the next token ends, and then it passes
that token. `finish` is what happens where no token follows. -/
structure Machine (σ : Type) where
  settle : σ → Option Token → σ × List Signal
  pass : σ → Token → List Token → σ × List Signal
  finish : σ → List Signal

/-- A kind of construct, told from the states of a machine. -/
structure Production (σ : Type) where
  /-- A construct starts with the token. -/
  starts : σ → Token → Bool
  /-- A construct is under way. -/
  inside : σ → Bool
  /-- The construct under way is complete, and the token stands behind it. -/
  endsBefore : σ → Token → Bool
  /-- The construct under way has been rejected, and the rest of it is skipped. -/
  rejected : σ → Bool
  /-- The signal delivers a construct. -/
  delivers : Signal → Bool

/-- How a call ends. -/
inductive Answer where
  | built
  | nothing
  /-- The tokens ran out first. -/
  | exhausted
  deriving DecidableEq, Repr, Inhabited

/-- The reading of one construct. -/
structure Call where
  answer : Answer
  /-- The tokens that were passed. -/
  tokens : List Token
  /-- What happened on the way. -/
  signals : List Signal
  deriving Repr, Inhabited

/-- The signal can come from a construct of the kind: it delivers one, or it is a problem. -/
def Production.Claims {σ : Type} (P : Production σ) (s : Signal) : Prop :=
  P.delivers s = true ∨ ∃ p, s = .problem p

/-- The signal says that the tokens ended too early. -/
def Signal.isPrematureEnd (s : Signal) : Bool := s.problem?.any Problem.isPrematureEnd

/-- The problems among signals. -/
def Signal.problems (signals : List Signal) : List Problem := signals.filterMap Signal.problem?

namespace Signal

@[simp] theorem problems_nil : problems [] = [] := rfl

@[simp] theorem problems_append (s s' : List Signal) :
    problems (s ++ s') = problems s ++ problems s' :=
  List.filterMap_append

@[simp] theorem problems_event (e : Event) (s : List Signal) :
    problems (event e :: s) = problems s := rfl

@[simp] theorem problems_problem (p : Problem) (s : List Signal) :
    problems (problem p :: s) = p :: problems s := rfl

end Signal

/-- The call when tokens with signals of their own come before it. -/
def Call.after (tokens : List Token) (signals : List Signal) (c : Call) : Call :=
  ⟨c.answer, tokens ++ c.tokens, signals ++ c.signals⟩

namespace Machine

variable {σ : Type} (M : Machine σ) (P : Production σ)

/-- Run the machine over the tokens and finish. -/
def run (m : σ) : List Token → List Signal
  | [] => (M.settle m none).2 ++ M.finish (M.settle m none).1
  | t :: ahead =>
      let settled := M.settle m (some t)
      let passed := M.pass settled.1 t ahead
      settled.2 ++ (passed.2 ++ run passed.1 ahead)

/-- The answer of a construct that a token ends, with the signals of its step. -/
def answer (signals : List Signal) : Answer :=
  if signals.any P.delivers then .built else .nothing

/-- The signals of the end of the tokens up to the report that they end too early. -/
def untilEnd (signals : List Signal) : List Signal :=
  signals.takeWhile (fun s => !s.isPrematureEnd)

/-- The answer of a construct that is under way where the tokens end. -/
def ending (signals : List Signal) : Answer :=
  if signals.any Signal.isPrematureEnd && !(untilEnd signals).any P.delivers then .exhausted
  else answer P (untilEnd signals)

/-- The rest of a call. Where the tokens end, it goes up to the report of that. -/
def resume (m : σ) : List Token → Call
  | [] =>
      let settled := M.settle m none
      if P.inside settled.1 then
        let finished := M.finish settled.1
        ⟨ending P finished, [], settled.2 ++ untilEnd finished⟩
      else ⟨.nothing, [], settled.2⟩
  | t :: ahead =>
      let settled := M.settle m (some t)
      if !P.inside settled.1 then ⟨.nothing, [], settled.2⟩
      else if P.endsBefore settled.1 t then ⟨.built, [], settled.2⟩
      else
        let passed := M.pass settled.1 t ahead
        if P.inside passed.1 then (resume passed.1 ahead).after [t] (settled.2 ++ passed.2)
        else ⟨answer P passed.2, [t], settled.2 ++ passed.2⟩

/-- The call that starts with the token `t`, which has been settled. -/
def call (m : σ) (t : Token) (ahead : List Token) : Call :=
  let passed := M.pass m t ahead
  if P.inside passed.1 then (M.resume P passed.1 ahead).after [t] passed.2
  else ⟨answer P passed.2, [t], passed.2⟩

/-- The calls of a run, in the order of their first tokens. -/
def calls (m : σ) : List Token → List Call
  | [] => []
  | t :: ahead =>
      let settled := (M.settle m (some t)).1
      (if P.starts settled t then [M.call P settled t ahead] else []) ++
        calls (M.pass settled t ahead).1 ahead

/-! ## Calls are parts of the run -/

variable {M P}

theorem answer_ne_exhausted (signals : List Signal) : answer P signals ≠ .exhausted := by
  unfold answer
  split <;> simp

theorem any_of_ending_eq_exhausted {signals : List Signal} (h : ending P signals = .exhausted) :
    signals.any Signal.isPrematureEnd = true := by
  unfold ending at h
  split at h
  · next hend =>
      simp only [Bool.and_eq_true] at hend
      exact hend.1
  · exact absurd h (answer_ne_exhausted _)

theorem append_untilEnd (signals : List Signal) :
    ∃ back, signals = untilEnd signals ++ back ∧
      (signals.any Signal.isPrematureEnd = true →
        ∃ s ∈ back.head?, Signal.isPrematureEnd s = true) := by
  refine ⟨signals.dropWhile (fun s => !s.isPrematureEnd),
    List.takeWhile_append_dropWhile.symm, fun h => ?_⟩
  induction signals with
  | nil => cases h
  | cons s signals ih =>
      cases hs : s.isPrematureEnd with
      | true => exact ⟨s, by simp [hs], hs⟩
      | false =>
          simp only [List.any_cons, hs, Bool.false_or] at h
          simpa [hs] using ih h

/-- The rest of a call is the front of the run, and behind a call that is exhausted the run reports
that the tokens ended. -/
theorem run_eq_resume (m : σ) (ts : List Token) :
    ∃ back, M.run m ts = (M.resume P m ts).signals ++ back ∧
      ((M.resume P m ts).answer = .exhausted →
        ∃ s ∈ back.head?, Signal.isPrematureEnd s = true) := by
  induction ts generalizing m with
  | nil =>
      simp only [run, resume]
      split
      · obtain ⟨back, hback, hend⟩ := append_untilEnd (M.finish (M.settle m none).1)
        refine ⟨back, by rw [List.append_assoc, ← hback], fun hexhausted => hend ?_⟩
        exact any_of_ending_eq_exhausted hexhausted
      · exact ⟨_, rfl, fun h => nomatch h⟩
  | cons t ahead ih =>
      simp only [run, resume]
      split
      · exact ⟨_, rfl, fun h => nomatch h⟩
      split
      · exact ⟨_, rfl, fun h => nomatch h⟩
      split
      · obtain ⟨back, hback, hend⟩ := ih (M.pass (M.settle m (some t)).1 t ahead).1
        exact ⟨back, by simp [Call.after, hback], hend⟩
      · exact ⟨_, (List.append_assoc ..).symm, fun h => absurd h (answer_ne_exhausted _)⟩

theorem pass_eq_call (m : σ) (t : Token) (ahead : List Token) :
    ∃ back, (M.pass m t ahead).2 ++ M.run (M.pass m t ahead).1 ahead =
        (M.call P m t ahead).signals ++ back ∧
      ((M.call P m t ahead).answer = .exhausted →
        ∃ s ∈ back.head?, Signal.isPrematureEnd s = true) := by
  simp only [call]
  split
  · obtain ⟨back, hback, hend⟩ := run_eq_resume (M := M) (P := P) (M.pass m t ahead).1 ahead
    exact ⟨back, by simp [Call.after, hback], hend⟩
  · exact ⟨_, rfl, fun h => absurd h (answer_ne_exhausted _)⟩

/-- **A call is a part of the run**, and behind a call that is exhausted the run reports that the
tokens ended. -/
theorem exists_append_of_mem_calls {m : σ} {ts : List Token} {c : Call} (h : c ∈ M.calls P m ts) :
    ∃ front back, M.run m ts = front ++ c.signals ++ back ∧
      (c.answer = .exhausted → ∃ s ∈ back.head?, Signal.isPrematureEnd s = true) := by
  induction ts generalizing m with
  | nil => cases h
  | cons t ahead ih =>
      simp only [run]
      rcases List.mem_append.1 h with h | h
      · obtain ⟨back, hback, hend⟩ := pass_eq_call (M := M) (P := P) (M.settle m (some t)).1 t ahead
        split at h
        · obtain rfl := List.mem_singleton.1 h
          exact ⟨_, back, by rw [hback, List.append_assoc], hend⟩
        · cases h
      · obtain ⟨front, back, hrun, hend⟩ := ih h
        refine ⟨(M.settle m (some t)).2 ++ ((M.pass (M.settle m (some t)).1 t ahead).2 ++ front),
          back, ?_, hend⟩
        rw [hrun]
        simp

end Machine

/-! ## What a call reports -/

namespace Answer

/-- What is reported while a construct comes to its answer, if it is rejected for problems that it
`Blames`, and if it `RunsOut` of tokens at all. A construct that has been `rejected` before has
reported its problem. -/
def Accounts (Blames : Problem → Prop) (RunsOut : Prop) (rejected : Bool) (ps : List Problem) :
    Answer → Prop
  | built => rejected = false ∧ ps = []
  | nothing => if rejected then ps = [] else ∃ p, ps = [p] ∧ Blames p
  | exhausted => RunsOut

end Answer

namespace Production

variable {σ : Type} {P : Production σ} {M : Machine σ} {Blames : Problem → Prop}
  {RunsOut : Prop}

/-- What a step signals that does not leave the construct: nothing, or the problem for which the
construct is rejected. -/
inductive Keeps (Blames : Problem → Prop) : Bool → Bool → List Signal → Prop
  | on (rejected : Bool) : Keeps Blames rejected rejected []
  | rejected (p : Problem) (h : Blames p) : Keeps Blames false true [.problem p]

/-- What a step may do to a construct that `was` rejected or not: it goes on `inside` the construct,
which is `now` rejected or not, or it leaves the construct with all that has to be reported. -/
def Fair (P : Production σ) (Blames : Problem → Prop) (RunsOut : Prop) (was inside now : Bool)
    (signals : List Signal) : Prop :=
  if inside then Keeps Blames was now signals
  else (Machine.answer P signals).Accounts Blames RunsOut was (Signal.problems signals)

/-- A problem of the construct goes with every answer but the construct itself, and with no other
step. -/
structure Honest (P : Production σ) (M : Machine σ) (Blames : Problem → Prop) (RunsOut : Prop) :
    Prop where
  delivers : ∀ p, P.delivers (.problem p) = false
  start : ∀ m t, P.starts m t = true → P.rejected m = false
  settle : ∀ m next, P.inside m = true →
    P.inside (M.settle m next).1 = true ∧ (M.settle m next).2 = [] ∧
        P.rejected (M.settle m next).1 = P.rejected m ∨
      P.inside (M.settle m next).1 = false ∧ P.rejected m = false ∧
        ∃ p, (M.settle m next).2 = [.problem p] ∧ Blames p
  ends : ∀ m t, P.inside m = true → P.endsBefore m t = true → P.rejected m = false
  pass : ∀ m t ahead, P.starts m t = true ∨ P.inside m = true ∧ P.endsBefore m t = false →
    P.Fair Blames RunsOut (P.rejected m) (P.inside (M.pass m t ahead).1)
      (P.rejected (M.pass m t ahead).1) (M.pass m t ahead).2
  finish : ∀ m, P.inside m = true →
    (Machine.ending P (M.finish m)).Accounts Blames RunsOut (P.rejected m)
      (Signal.problems (Machine.untilEnd (M.finish m)))

theorem answer_eq_built_iff {signals : List Signal} :
    Machine.answer P signals = .built ↔ signals.any P.delivers = true := by
  unfold Machine.answer
  split <;> simp_all

theorem answer_eq_nothing_iff {signals : List Signal} :
    Machine.answer P signals = .nothing ↔ signals.any P.delivers = false := by
  unfold Machine.answer
  split <;> simp_all

namespace Fair

variable {was inside now : Bool} {signals : List Signal}

/-- A step goes on without a word. -/
theorem on (hinside : inside = true) (hnow : now = was) (hsignals : signals = []) :
    P.Fair Blames RunsOut was inside now signals := by
  subst hinside hnow hsignals
  exact .on now

/-- A step leaves the construct with its event. -/
theorem delivered (hinside : inside = false) (hdelivers : signals.any P.delivers = true)
    (hproblems : Signal.problems signals = []) :
    P.Fair Blames RunsOut false inside now signals := by
  subst hinside
  rw [Fair, answer_eq_built_iff.2 hdelivers]
  exact ⟨rfl, hproblems⟩

/-- A step leaves the construct with one problem. -/
theorem refused (hinside : inside = false) (hdelivers : signals.any P.delivers = false)
    {p : Problem} (hproblems : Signal.problems signals = [p]) (hp : Blames p) :
    P.Fair Blames RunsOut false inside now signals := by
  subst hinside
  rw [Fair, answer_eq_nothing_iff.2 hdelivers]
  exact ⟨p, hproblems, hp⟩

/-- A step leaves a construct that had been rejected. -/
theorem skipped (hinside : inside = false) (hdelivers : signals.any P.delivers = false)
    (hproblems : Signal.problems signals = []) :
    P.Fair Blames RunsOut true inside now signals := by
  subst hinside
  rw [Fair, answer_eq_nothing_iff.2 hdelivers]
  exact hproblems

end Fair

namespace Honest

theorem accounts_after {rejected rejected' : Bool} {c : Call} {tokens : List Token}
    {signals : List Signal} (h : Keeps Blames rejected rejected' signals)
    (hc : c.answer.Accounts Blames RunsOut rejected' (Signal.problems c.signals)) :
    (c.after tokens signals).answer.Accounts Blames RunsOut rejected
      (Signal.problems (c.after tokens signals).signals) := by
  have hsignals : Signal.problems (c.after tokens signals).signals =
      Signal.problems signals ++ Signal.problems c.signals := Signal.problems_append _ _
  have hanswer : (c.after tokens signals).answer = c.answer := rfl
  rw [hsignals, hanswer]
  cases h with
  | on => exact hc
  | rejected p hp =>
      cases hcase : c.answer with
      | built =>
          rw [hcase] at hc
          cases hc.1
      | nothing =>
          rw [hcase] at hc
          have hnil : Signal.problems c.signals = [] := hc
          exact ⟨p, by rw [hnil]; rfl, hp⟩
      | exhausted =>
          rw [hcase] at hc
          exact hc

/-- What is settled where a construct is left is its problem. -/
theorem accounts_settled {m : σ} {signals : List Signal} (hrejected : P.rejected m = false)
    (h : ∃ p, signals = [.problem p] ∧ Blames p) :
    Answer.nothing.Accounts Blames RunsOut (P.rejected m) (Signal.problems signals) := by
  obtain ⟨p, rfl, hp⟩ := h
  rw [hrejected]
  exact ⟨p, rfl, hp⟩

/-- **What the rest of a call reports**, by the steps of the machine. -/
theorem accounts_resume (h : P.Honest M Blames RunsOut) {m : σ} (hm : P.inside m = true)
    (ts : List Token) :
    (M.resume P m ts).answer.Accounts Blames RunsOut (P.rejected m)
      (Signal.problems (M.resume P m ts).signals) := by
  -- The machine settles at the end of the tokens as it does before a token.
  induction ts generalizing m with
  | nil =>
      rcases h.settle m none hm with ⟨hinside, hsignals, hsame⟩ | ⟨hinside, hrejected, hleft⟩
      · simp only [Machine.resume, hinside, if_true, hsignals, List.nil_append]
        rw [← hsame]
        exact h.finish _ hinside
      · simp only [Machine.resume, hinside, Bool.false_eq_true, if_false]
        exact accounts_settled hrejected hleft
  | cons t ahead ih =>
      rcases h.settle m (some t) hm with ⟨hinside, hsignals, hsame⟩ | ⟨hinside, hrejected, hleft⟩
      · simp only [Machine.resume, hinside, hsignals, List.nil_append, Bool.not_true,
          Bool.false_eq_true, if_false]
        rw [← hsame]
        split
        · next hends => exact ⟨h.ends _ t hinside hends, rfl⟩
        · next hends =>
            have hpass := h.pass _ t ahead (.inr ⟨hinside, by simpa using hends⟩)
            split
            · next hkept =>
                simp only [Fair, hkept, if_true] at hpass
                exact accounts_after hpass (ih hkept)
            · next hgone =>
                simp only [Fair, hgone, Bool.false_eq_true, if_false] at hpass
                exact hpass
      · simp only [Machine.resume, hinside, Bool.not_false, if_true]
        exact accounts_settled hrejected hleft

/-- **What a call reports**: nothing if the construct was built, one problem if it was not. -/
theorem accounts (h : P.Honest M Blames RunsOut) {m : σ} {ts : List Token} {c : Call}
    (hc : c ∈ M.calls P m ts) :
    c.answer.Accounts Blames RunsOut false (Signal.problems c.signals) := by
  induction ts generalizing m with
  | nil => cases hc
  | cons t ahead ih =>
      rcases List.mem_append.1 hc with hc | hc
      · split at hc
        · next hstarts =>
            obtain rfl := List.mem_singleton.1 hc
            have hpass := h.pass _ t ahead (.inl hstarts)
            rw [h.start _ t hstarts] at hpass
            simp only [Machine.call]
            split
            · next hkept =>
                simp only [Fair, hkept, if_true] at hpass
                exact accounts_after hpass (h.accounts_resume hkept ahead)
            · next hleft =>
                simp only [Fair, hleft, Bool.false_eq_true, if_false] at hpass
                exact hpass
        · cases hc
      · exact ih hc

/-! ## What a call delivers -/

theorem ending_eq_built_iff {signals : List Signal} :
    Machine.ending P signals = .built ↔ (Machine.untilEnd signals).any P.delivers = true := by
  unfold Machine.ending
  split
  · next hend =>
      simp only [Bool.and_eq_true, Bool.not_eq_true'] at hend
      simp [hend.2]
  · exact answer_eq_built_iff

/-- A step that does not leave the construct delivers nothing. -/
theorem any_delivers_of_keeps (h : P.Honest M Blames RunsOut) {rejected rejected' : Bool}
    {signals : List Signal} (hkeeps : Keeps Blames rejected rejected' signals) :
    signals.any P.delivers = false := by
  cases hkeeps with
  | on => rfl
  | rejected p hp => simp [h.delivers p]

/-- A construct that does not end before the next token is built where it is delivered. -/
theorem resume_eq_built_iff (h : P.Honest M Blames RunsOut)
    (hends : ∀ m t, P.endsBefore m t = false) {m : σ} (hm : P.inside m = true) (ts : List Token) :
    (M.resume P m ts).answer = .built ↔
      (M.resume P m ts).signals.any P.delivers = true := by
  -- A problem that is settled delivers nothing.
  have hsettled : ∀ signals : List Signal, (∃ p, signals = [.problem p] ∧ Blames p) →
      (Answer.nothing = .built ↔ signals.any P.delivers = true) := by
    rintro signals ⟨p, rfl, -⟩
    simp [h.delivers p]
  induction ts generalizing m with
  | nil =>
      rcases h.settle m none hm with ⟨hinside, hsignals, -⟩ | ⟨hinside, -, hleft⟩
      · simp only [Machine.resume, hinside, if_true, hsignals, List.nil_append]
        exact ending_eq_built_iff
      · simp only [Machine.resume, hinside, Bool.false_eq_true, if_false]
        exact hsettled _ hleft
  | cons t ahead ih =>
      rcases h.settle m (some t) hm with ⟨hinside, hsignals, -⟩ | ⟨hinside, -, hleft⟩
      · have hpass := h.pass _ t ahead (.inr ⟨hinside, hends _ t⟩)
        simp only [Machine.resume, hinside, hsignals, hends, List.nil_append, Bool.not_true,
          Bool.false_eq_true, if_false]
        split
        · next hkept =>
            simp only [Fair, hkept, if_true] at hpass
            simpa [Call.after, h.any_delivers_of_keeps hpass] using ih hkept
        · exact answer_eq_built_iff
      · simp only [Machine.resume, hinside, Bool.not_false, if_true]
        exact hsettled _ hleft

/-- **A construct is built where it is delivered**, if it does not end before the next token. -/
theorem built_iff (h : P.Honest M Blames RunsOut) (hends : ∀ m t, P.endsBefore m t = false) {m : σ}
    {ts : List Token} {c : Call} (hc : c ∈ M.calls P m ts) :
    c.answer = .built ↔ c.signals.any P.delivers = true := by
  induction ts generalizing m with
  | nil => cases hc
  | cons t ahead ih =>
      rcases List.mem_append.1 hc with hc | hc
      · split at hc
        · next hstarts =>
            obtain rfl := List.mem_singleton.1 hc
            have hpass := h.pass _ t ahead (.inl hstarts)
            simp only [Machine.call]
            split
            · next hkept =>
                simp only [Fair, hkept, if_true] at hpass
                simpa [Call.after, h.any_delivers_of_keeps hpass]
                  using h.resume_eq_built_iff hends hkept ahead
            · exact answer_eq_built_iff
        · cases hc
      · exact ih hc

end Honest

end Production

/-! ## What no call leaves out -/

namespace Machine

variable {σ : Type} {M : Machine σ} {P : Production σ}

/-- Inside a construct the rest of a call goes on like a call that starts. -/
theorem signals_resume_cons {m : σ} {t : Token} {ahead : List Token}
    (hinside : P.inside (M.settle m (some t)).1 = true)
    (hends : P.endsBefore (M.settle m (some t)).1 t = false) :
    (M.resume P m (t :: ahead)).signals =
      (M.settle m (some t)).2 ++ (M.call P (M.settle m (some t)).1 t ahead).signals := by
  simp only [resume, call, hinside, hends, Bool.not_true, Bool.false_eq_true, if_false]
  split <;> simp [Call.after]

theorem mem_resume_of_mem_settle {m : σ} {ts : List Token} {s : Signal}
    (h : s ∈ (M.settle m ts.head?).2) : s ∈ (M.resume P m ts).signals := by
  cases ts with
  | nil =>
      simp only [resume]
      split
      · exact List.mem_append_left _ h
      · exact h
  | cons t ahead =>
      simp only [resume]
      repeat' split
      · exact h
      · exact h
      · exact List.mem_append_left _ (List.mem_append_left _ h)
      · exact List.mem_append_left _ h

theorem mem_call_of_mem_pass {m : σ} {t : Token} {ahead : List Token} {s : Signal}
    (h : s ∈ (M.pass m t ahead).2) : s ∈ (M.call P m t ahead).signals := by
  simp only [call]
  split
  · exact List.mem_append_left _ h
  · exact h

theorem mem_call_of_mem_resume {m : σ} {t : Token} {ahead : List Token} {s : Signal}
    (hinside : P.inside (M.pass m t ahead).1 = true)
    (h : s ∈ (M.resume P (M.pass m t ahead).1 ahead).signals) :
    s ∈ (M.call P m t ahead).signals := by
  simp only [call, hinside, if_true]
  exact List.mem_append_right _ h

/-- Some production of the list answers for each signal that is `Claimed`, and a construct comes to
be under way only where one starts. -/
structure Covered (M : Machine σ) (productions : List (Production σ)) (Claimed : Signal → Prop) :
    Prop where
  settle : ∀ m next, ∀ s ∈ (M.settle m next).2, Claimed s →
    ∃ P ∈ productions, P.Claims s ∧ P.inside m = true
  settled : ∀ P ∈ productions, ∀ m next, P.inside (M.settle m next).1 = true → P.inside m = true
  pass : ∀ m t ahead, ∀ s ∈ (M.pass m t ahead).2, Claimed s →
    ∃ P ∈ productions, P.Claims s ∧ (P.starts m t = true ∨ P.inside m = true)
  passed : ∀ P ∈ productions, ∀ m t ahead, P.inside (M.pass m t ahead).1 = true →
    P.starts m t = true ∨ P.inside m = true
  ends : ∀ P ∈ productions, ∀ m t, P.endsBefore m t = false
  finish : ∀ m, ∀ s ∈ M.finish m, Claimed s →
    (∃ P ∈ productions, P.Claims s ∧ P.inside m = true) ∧
      s ∈ untilEnd (M.finish m)

variable {productions : List (Production σ)} {Claimed : Signal → Prop}

/-- Each signal is one of the construct under way or of a call. -/
theorem Covered.mem_resume_or_call (h : M.Covered productions Claimed) {m : σ} {ts : List Token}
    {s : Signal} (hs : s ∈ M.run m ts) (hclaimed : Claimed s) :
    (∃ P ∈ productions, P.Claims s ∧ P.inside m = true ∧ s ∈ (M.resume P m ts).signals) ∨
      ∃ P ∈ productions, P.Claims s ∧ ∃ c ∈ M.calls P m ts, s ∈ c.signals := by
  induction ts generalizing m with
  | nil =>
      simp only [run] at hs
      rcases List.mem_append.1 hs with hs | hs
      · obtain ⟨P, hP, hclaims, hinside⟩ := h.settle m none s hs hclaimed
        exact .inl ⟨P, hP, hclaims, hinside, mem_resume_of_mem_settle hs⟩
      · obtain ⟨⟨P, hP, hclaims, hinside⟩, hlast⟩ := h.finish _ s hs hclaimed
        refine .inl ⟨P, hP, hclaims, h.settled P hP m none hinside, ?_⟩
        simp only [resume, hinside, if_true]
        exact List.mem_append_right _ hlast
  | cons t ahead ih =>
      -- What a construct signals while the token is passed goes to it or to the call that starts.
      have hgoes : ∀ P ∈ productions, P.Claims s →
          s ∈ (M.call P (M.settle m (some t)).1 t ahead).signals →
          P.starts (M.settle m (some t)).1 t = true ∨ P.inside (M.settle m (some t)).1 = true →
          (∃ P ∈ productions,
              P.Claims s ∧ P.inside m = true ∧ s ∈ (M.resume P m (t :: ahead)).signals) ∨
            ∃ P ∈ productions, P.Claims s ∧ ∃ c ∈ M.calls P m (t :: ahead), s ∈ c.signals := by
        rintro P hP hclaims hmem (hstarts | hinside)
        · refine .inr ⟨P, hP, hclaims, _, List.mem_append_left _ ?_, hmem⟩
          simp only [hstarts, if_true, List.mem_singleton]
        · refine .inl ⟨P, hP, hclaims, h.settled P hP m _ hinside, ?_⟩
          rw [signals_resume_cons hinside (h.ends P hP _ t)]
          exact List.mem_append_right _ hmem
      simp only [run] at hs
      rcases List.mem_append.1 hs with hs | hs
      · obtain ⟨P, hP, hclaims, hinside⟩ := h.settle m (some t) s hs hclaimed
        exact .inl ⟨P, hP, hclaims, hinside, mem_resume_of_mem_settle hs⟩
      rcases List.mem_append.1 hs with hs | hs
      · obtain ⟨P, hP, hclaims, hbegun⟩ := h.pass _ t ahead s hs hclaimed
        exact hgoes P hP hclaims (mem_call_of_mem_pass hs) hbegun
      · rcases ih hs with ⟨P, hP, hclaims, hinside, hmem⟩ | ⟨P, hP, hclaims, c, hc, hmem⟩
        · exact hgoes P hP hclaims (mem_call_of_mem_resume hinside hmem)
            (h.passed P hP _ t ahead hinside)
        · exact .inr ⟨P, hP, hclaims, c, List.mem_append_right _ hc, hmem⟩

/-- **Each signal of a run is one of a call**, if no construct is under way at first. -/
theorem Covered.mem_call (h : M.Covered productions Claimed) {m : σ}
    (hm : ∀ P ∈ productions, P.inside m = false) {ts : List Token} {s : Signal}
    (hs : s ∈ M.run m ts) (hclaimed : Claimed s) :
    ∃ P ∈ productions, P.Claims s ∧ ∃ c ∈ M.calls P m ts, s ∈ c.signals := by
  refine (h.mem_resume_or_call hs hclaimed).resolve_left ?_
  rintro ⟨P, hP, -, hinside, -⟩
  rw [hm P hP] at hinside
  cases hinside

end Machine

end EpubStyle
