import EpubStyle.Proofs.Parse.Handlers
import EpubStyle.Proofs.Sheet.Resynchronisation
import EpubStyle.Proofs.StyleAttribute.Signals

/-!
# Where the tokens end too early

Tokens may end anywhere: in a block, in a selector, between the name of a declaration and its colon.
Whatever is open there is one problem, and it is the last one: behind it the reader only closes what
it had opened (`Signal.EndsOnce`). This holds of either grammar and of every list of tokens
(`Grammar.endsOnce_signals`).

No step of either grammar speaks of the end (`Signal.Complete`), so everything is decided where the
tokens have run out. A style sheet is then either between two statements of its top level and
reports nothing, or inside a statement and reports exactly one end
(`Sheet.prematureEnds_signals`).
-/

set_option autoImplicit false

namespace EpubStyle

/-- The problem is that the tokens ended inside a statement. -/
def Problem.isPrematureEnd (p : Problem) : Bool := p.code == .grammaticalEnd

namespace Signal

/-- The signal closes something that is open, or the whole document. -/
def Closes : Signal → Prop
  | event (.endAtRule _) | event (.endSelectors _) | event .finish => True
  | event _ | problem _ | stepBack _ => False

/-- The ends inside a statement that are reported. -/
def prematureEnds (signals : List Signal) : List Problem :=
  (signals.filterMap problem?).filter Problem.isPrematureEnd

/-- An end inside a statement is reported at most once, and behind the report is nothing but the
closing of what is open. -/
structure EndsOnce (signals : List Signal) : Prop where
  once : (prematureEnds signals).length ≤ 1
  final : ∀ (before : List Signal) (p : Problem) (after : List Signal),
    signals = before ++ .problem p :: after → p.code = .grammaticalEnd → ∀ s ∈ after, s.Closes

/-! ## Reports in a list of signals -/

@[simp] theorem prematureEnds_append (s s' : List Signal) :
    prematureEnds (s ++ s') = prematureEnds s ++ prematureEnds s' := by
  simp [prematureEnds]

theorem prematureEnds_of_complete {signals : List Signal} (h : Complete signals) :
    prematureEnds signals = [] := by
  simp only [prematureEnds, List.filter_eq_nil_iff, List.mem_filterMap]
  rintro p ⟨s, hs, hp⟩
  cases s with
  | problem q =>
      cases hp
      simpa [Problem.isPrematureEnd] using h p hs
  | event e => cases hp
  | stepBack distance => cases hp

theorem Complete.append {s s' : List Signal} (h : Complete s) (h' : Complete s') :
    Complete (s ++ s') := by
  intro p hp
  rcases List.mem_append.1 hp with hp | hp
  · exact h p hp
  · exact h' p hp

theorem complete_events (events : List Event) : Complete (events.map event) := by
  intro p hp
  simp at hp

theorem complete_of_closes {signals : List Signal} (h : ∀ s ∈ signals, s.Closes) :
    Complete signals :=
  fun p hp => (h (.problem p) hp).elim

/-- How reading ends: without a word about where the tokens end, or with one report of it and then
the closing of what is open. -/
inductive Concluded : List Signal → Prop
  | complete {signals : List Signal} (h : Complete signals) : Concluded signals
  | premature (front : List Signal) (p : Problem) (back : List Signal) (hfront : Complete front)
      (hp : p.code = .grammaticalEnd) (hback : ∀ s ∈ back, s.Closes) :
      Concluded (front ++ .problem p :: back)

namespace Concluded

variable {signals : List Signal}

/-- Whatever is read before may go in front. -/
theorem prepend {front : List Signal} (hfront : Complete front) (h : Concluded signals) :
    Concluded (front ++ signals) := by
  cases h with
  | complete h => exact .complete (hfront.append h)
  | premature front' p back hfront' hp hback =>
      rw [← List.append_assoc]
      exact .premature (front ++ front') p back (hfront.append hfront') hp hback

/-- Closing signals may go behind. -/
theorem close {closing : List Signal} (h : Concluded signals) (hclosing : ∀ s ∈ closing, s.Closes) :
    Concluded (signals ++ closing) := by
  cases h with
  | complete h => exact .complete (h.append (complete_of_closes hclosing))
  | premature front p back hfront hp hback =>
      rw [List.append_assoc, List.cons_append]
      refine .premature front p (back ++ closing) hfront hp ?_
      intro s hs
      rcases List.mem_append.1 hs with hs | hs
      · exact hback s hs
      · exact hclosing s hs

theorem endsOnce (h : Concluded signals) : EndsOnce signals := by
  cases h with
  | complete h =>
      constructor
      · simp [prematureEnds_of_complete h]
      · rintro before p after rfl hp
        exact absurd hp (h p (by simp))
  | premature front p back hfront hp hback =>
      constructor
      · have hone : prematureEnds (.problem p :: back) = p :: prematureEnds back := by
          simp [prematureEnds, problem?, Problem.isPrematureEnd, hp]
        simp [hone, prematureEnds_of_complete hfront,
          prematureEnds_of_complete (complete_of_closes hback)]
      · intro before q after hsplit hq
        -- The report stands neither in front, which is complete, nor among what is closed.
        rcases List.append_eq_append_iff.1 hsplit with
          ⟨rest, hbefore, hrest⟩ | ⟨rest, hfront', hrest⟩
        · cases rest with
          | nil =>
              obtain ⟨-, rfl⟩ := List.cons.inj hrest
              exact hback
          | cons s rest =>
              obtain ⟨-, hrest⟩ := List.cons.inj hrest
              exact (hback (.problem q) (by simp [hrest])).elim
        · cases rest with
          | nil =>
              obtain ⟨-, rfl⟩ := List.cons.inj hrest
              exact hback
          | cons s rest =>
              obtain ⟨rfl, -⟩ := List.cons.inj hrest
              exact absurd hq (hfront q (by simp [hfront']))

end Concluded

end Signal

/-! ## Style sheets -/

namespace Sheet

/-- No step says that the tokens end. -/
theorem complete_feed (behind ts : List Token) (m : Sheet) :
    Signal.Complete (feed behind m ts).2 := by
  induction ts generalizing m with
  | nil =>
      intro p hp
      cases hp
  | cons t ts ih => exact (Signal.complete_of_ofTokens (m.ofTokens_step t _)).append (ih _)

/-- Between two statements of the top level nothing is left to do. -/
theorem finish_of_atTop {m : Sheet} (h : m.AtTop) : m.finish = [] := by
  rcases m with ⟨last, enclosing, phase⟩
  obtain ⟨rfl, rfl⟩ := h
  rfl

/-- What is closed where the tokens end. -/
theorem closes_closings (m : Sheet) : ∀ s ∈ m.closings, s.Closes := by
  intro s hs
  simp only [closings, List.mem_map, List.mem_append] at hs
  obtain ⟨e, he | ⟨name, -, rfl⟩, rfl⟩ := hs
  · split at he
    · obtain rfl := List.mem_singleton.1 he
      trivial
    · next owner _ _ =>
        obtain rfl := List.mem_singleton.1 he
        cases owner <;> trivial
    · cases he
  · trivial

/-- Inside a statement the end of the tokens is reported once. -/
theorem finish_of_not_atTop {m : Sheet} (h : ¬ m.AtTop) :
    ∃ (front : List Signal) (p : Problem) (back : List Signal),
      m.finish = front ++ .problem p :: back ∧ Signal.Complete front ∧
        p.code = .grammaticalEnd ∧ ∀ s ∈ back, s.Closes := by
  obtain ⟨what, hwhat⟩ := m.atTop_or_expected.resolve_left h
  refine ⟨(m.settle none).2 ++ (m.settle none).1.unopened,
    .premature (m.settle none).1.lastLocation what, (m.settle none).1.closings, ?_, ?_, rfl,
    closes_closings _⟩
  · simp [finish, hwhat]
  · apply Signal.Complete.append
    · exact Signal.complete_of_ofTokens (m.ofTokens_settle none)
    · unfold unopened
      split <;> exact Signal.complete_of_ofTokens (by simp [atRuleEvent])

/-- The signals of a style sheet: what its tokens give, what their end gives, and the end. -/
theorem signals_eq (ts : List Token) :
    signals ts =
      (.event .start :: (feed [] initial ts).2) ++
        ((feed [] initial ts).1.finish ++ [.event .finish]) := by
  have hrun := run_append initial ts []
  rw [List.append_nil] at hrun
  simp [signals, hrun, run]

theorem complete_start_feed (ts : List Token) :
    Signal.Complete (.event .start :: (feed [] initial ts).2) :=
  (Signal.complete_events [.start]).append (complete_feed [] ts initial)

theorem concluded_signals (ts : List Token) : Signal.Concluded (signals ts) := by
  rw [signals_eq]
  apply Signal.Concluded.prepend (complete_start_feed ts)
  apply Signal.Concluded.close
  · by_cases htop : (feed [] initial ts).1.AtTop
    · rw [finish_of_atTop htop]
      exact .complete (Signal.complete_events [])
    · obtain ⟨front, p, back, heq, hfront, hp, hback⟩ := finish_of_not_atTop htop
      rw [heq]
      exact .premature front p back hfront hp hback
  · simp [Signal.Closes]

/-- **Every end inside a statement of a style sheet is reported**, and no other one. -/
theorem prematureEnds_signals (ts : List Token) :
    ((feed [] initial ts).1.AtTop → Signal.prematureEnds (signals ts) = []) ∧
      (¬ (feed [] initial ts).1.AtTop → ∃ p, Signal.prematureEnds (signals ts) = [p]) := by
  have hfinish : Signal.prematureEnds (signals ts) =
      Signal.prematureEnds (feed [] initial ts).1.finish := by
    have hend : Signal.prematureEnds [.event .finish] = [] := rfl
    rw [signals_eq, Signal.prematureEnds_append, Signal.prematureEnds_append, hend,
      Signal.prematureEnds_of_complete (complete_start_feed ts), List.nil_append, List.append_nil]
  rw [hfinish]
  constructor
  · intro htop
    rw [finish_of_atTop htop]
    rfl
  · intro htop
    obtain ⟨front, p, back, heq, hfront, hp, hback⟩ := finish_of_not_atTop htop
    refine ⟨p, ?_⟩
    rw [heq, Signal.prematureEnds_append, Signal.prematureEnds_of_complete hfront]
    have hclosed := Signal.prematureEnds_of_complete (Signal.complete_of_closes hback)
    simpa [Signal.prematureEnds, Signal.problem?, Problem.isPrematureEnd, hp] using hclosed

end Sheet

/-! ## Style attributes -/

namespace StyleAttribute

/-- Where the tokens end a style attribute signals at most one thing. -/
theorem concluded_finish (m : StyleAttribute) : Signal.Concluded m.finish := by
  have hpremature : ∀ what,
      Signal.Concluded [.problem (.premature m.lastLocation what)] := by
    intro what
    exact .premature [] _ [] (Signal.complete_events []) rfl (by simp)
  simp only [finish]
  split
  · exact .complete (Signal.complete_events [])
  · exact .complete (Signal.complete_events [])
  · exact .complete (Signal.complete_events [])
  · split
    · exact .complete (Signal.complete_events [.declaration _])
    · split
      · cases m.last with
        | none => exact .complete (Signal.complete_events [])
        | some t => exact .complete (Signal.complete_of_ofTokens (by simp))
      · exact hpremature _
  · exact hpremature _
  · exact hpremature _

theorem concluded_run (ts : List Token) (m : StyleAttribute) : Signal.Concluded (m.run ts) := by
  induction ts generalizing m with
  | nil => exact m.concluded_finish
  | cons t ts ih =>
      apply Signal.Concluded.prepend
      · exact Signal.complete_of_ofTokens (fun s hs => (m.declares_step t s hs).2)
      · exact ih _

theorem concluded_signals (ts : List Token) : Signal.Concluded (signals ts) := by
  have hstart : signals ts = [Event.start].map .event ++ (initial.run ts ++ [.event .finish]) := rfl
  rw [hstart]
  apply Signal.Concluded.prepend (Signal.complete_events _)
  apply (concluded_run ts initial).close
  simp [Signal.Closes]

end StyleAttribute

/-! ## Either grammar, with every patient handler -/

/-- **The end of the tokens is reported at most once and is final**, by either grammar. -/
theorem Grammar.endsOnce_signals (g : Grammar) (ts : List Token) :
    Signal.EndsOnce (g.signals ts) := by
  cases g with
  | sheet => exact (Sheet.concluded_signals ts).endsOnce
  | styleAttribute => exact (StyleAttribute.concluded_signals ts).endsOnce

/-- **Premature ends.** A handler that never gives up receives every event and every problem of a
grammar. Among them the end of the tokens is reported at most once and is final. A style sheet
reports it exactly where the tokens run out inside a statement. -/
theorem ErrorHandler.receive_prematureEnds {σ : Type} {h : ErrorHandler σ} (hh : h.Patient)
    (capacity : Nat) (state : σ) (g : Grammar) (ts : List Token) :
    h.receive capacity state (g.signals ts) =
        { events := (g.signals ts).filterMap Signal.event?
          state := ((g.signals ts).filterMap Signal.problem?).foldl
            (fun s p => (h.error s p).1) state
          failure := none } ∧
      Signal.EndsOnce (g.signals ts) ∧
      (g = .sheet →
        ((Sheet.feed [] .initial ts).1.AtTop → Signal.prematureEnds (g.signals ts) = []) ∧
          (¬ (Sheet.feed [] .initial ts).1.AtTop →
            ∃ p, Signal.prematureEnds (g.signals ts) = [p])) := by
  refine ⟨?_, g.endsOnce_signals ts, ?_⟩
  · exact ErrorHandler.receive_of_patient hh capacity state
      (Signal.grammatical_of_fromGrammar (g.fromGrammar_signals ts))
  · rintro rfl
    exact Sheet.prematureEnds_signals ts

/-- A style sheet that ends behind the brace of an at-rule. -/
theorem ErrorHandler.receive_prematureEnds_unclosed :
    (Handler.collecting none).errorHandler.Patient ∧
      ∃ p, Signal.prematureEnds (Grammar.sheet.signals
        [⟨.atKeyword, "@page", .start, []⟩, ⟨.char, "\x7b", .start, []⟩]) = [p] := by
  have hpatient := Handler.patient_collecting.errorHandler
  have hreceived := ErrorHandler.receive_prematureEnds hpatient 0 [] .sheet
    [⟨.atKeyword, "@page", .start, []⟩, ⟨.char, "\x7b", .start, []⟩]
  refine ⟨hpatient, (hreceived.2.2 rfl).2 ?_⟩
  rintro ⟨hphase, -⟩
  cases hphase

end EpubStyle
