import EpubStyle.Proofs.Parse.Handlers
import EpubStyle.Proofs.Sheet.Verdicts

/-!
# Isolation of declarations

A declaration that is given up is skipped up to the semicolon that ends it, so that the entries of a
block do not disturb each other (`EntryRule.Isolates`). What is skipped may contain semicolons of
its own, inside parentheses, brackets and functions. The machine passes over these only if it gives
the declaration up at one of them: given up at any other token, the declaration is taken to end at
the next semicolon, wherever that stands.

A rule set isolates its declarations if and only if each of its entries is isolated
(`EntryRule.isolates_iff`). The argument counts verdicts: the rule set comes to those of its entries
(`Sheet.run_entries`), every entry to at least one, and only an isolated entry to no second one.
-/

set_option autoImplicit false

namespace EpubStyle

open Concrete

/-! ## Whole rule sets -/

/-- The entries of a block come to the verdicts of each, in order. -/
theorem Sheet.run_entries {f : Entry → List (Option Declaration)} (entries : Entries)
    (h : ∀ e ∈ entries.toList, e.Accounts (f e)) (last : Option Token) (enclosing : List String)
    (owner : BlockOwner) {phase : BlockPhase} (hphase : phase.Starting) (closer : Mark '}')
    (us : List Token) :
    ∃ last' signals, Announces signals (entries.toList.flatMap f) ∧
      Sheet.run ⟨last, enclosing, .block owner phase⟩ (entries.tokens ++ closer.1 :: us) =
        signals ++ .event owner.closing :: Sheet.run ⟨last', enclosing, .statement⟩ us := by
  -- A semicolon leads to where the next entry may start, the closing brace out of the block.
  induction entries generalizing last phase with
  | last e =>
      obtain ⟨verdicts, phase', missing, hrun, hends, htotal⟩ :=
        h e (List.mem_singleton_self e) phase hphase
      obtain ⟨last₁, signals, hsignals, hrun⟩ := hrun.run_eq last enclosing owner (closer.1 :: us)
      obtain ⟨last', signals', hsignals', hclose⟩ :=
        hends.step_closeBrace closer last₁ enclosing owner us
      refine ⟨last', signals ++ signals', ?_, ?_⟩
      · simpa [Entries.toList, htotal] using hsignals.append hsignals'
      · rw [Entries.tokens, hrun, Sheet.run_cons hclose]
        simp
  | cons e semicolon rest ih =>
      obtain ⟨verdicts, phase', missing, hrun, hends, htotal⟩ :=
        h e (List.mem_cons_self ..) phase hphase
      obtain ⟨last₁, signals, hsignals, hrun⟩ := hrun.run_eq last enclosing owner
        (semicolon.1 :: (rest.tokens ++ closer.1 :: us))
      obtain ⟨last₂, signals₂, hstep, hsignals₂⟩ := (hends.blockStep semicolon).step_eq
        (Token.not_isBrace_of_semicolon semicolon.2) last₁ enclosing owner
        (rest.tokens ++ closer.1 :: us)
      obtain ⟨last', signals', hsignals', hrest⟩ :=
        ih (fun e he => h e (List.mem_cons_of_mem _ he)) last₂ (.inr rfl)
      refine ⟨last', signals ++ (signals₂ ++ signals'), ?_, ?_⟩
      · simpa [Entries.toList, htotal] using hsignals.append (hsignals₂.append hsignals')
      · rw [Entries.tokens, List.append_assoc, List.cons_append, hrun, Sheet.run_cons hstep, hrest]
        simp

namespace Concrete.EntryRule

/-- The declarations delivered. -/
def declarations (r : EntryRule) : List Declaration :=
  (Sheet.signals r.tokens).filterMap (fun s => s.verdict?.join)

/-- The problems reported. -/
def problems (r : EntryRule) : List Problem := (Sheet.signals r.tokens).filterMap Signal.problem?

/-- The rule set with one entry only. -/
def alone (r : EntryRule) (e : Entry) : EntryRule := { r with entries := .last e }

/-- On its own the entry is read without a problem. -/
def valid (r : EntryRule) (e : Entry) : Bool := (r.alone e).problems.isEmpty

/-- The entries do not disturb each other. A handler that never gives up receives the declarations
that it would receive of each valid entry on its own, and each invalid entry is one problem. -/
structure Isolates (r : EntryRule) : Prop where
  events : ∀ {σ : Type} (h : ErrorHandler σ), h.Patient → ∀ capacity state,
    (h.receive capacity state (Sheet.signals r.tokens)).events =
      .start :: .selectors r.selectors.selectors ::
        (((r.entries.toList.filter r.valid).flatMap (fun e => (r.alone e).declarations)).map
          Event.declaration ++ [.endSelectors r.selectors.selectors, .finish])
  problems : r.problems.length = (r.entries.toList.filter (fun e => !r.valid e)).length
  grammatical : ∀ p ∈ r.problems, p.Grammatical

variable (r : EntryRule) {f : Entry → List (Option Declaration)}

/-- **What a rule set signals.** -/
theorem exists_signals (h : ∀ e ∈ r.entries.toList, e.Accounts (f e)) :
    ∃ signals, Announces signals (r.entries.toList.flatMap f) ∧
      Sheet.signals r.tokens =
        .event .start :: .event (.selectors r.selectors.selectors) ::
          (signals ++ [.event (.endSelectors r.selectors.selectors), .event .finish]) := by
  obtain ⟨last₁, hselectors⟩ := Sheet.run_selectors none [] r.selectors r.opener
    (r.entries.tokens ++ [r.closer.1])
  obtain ⟨last', signals, hsignals, hrun⟩ := Sheet.run_entries r.entries h last₁ []
    (.selectors r.selectors.selectors) (.inl rfl) r.closer []
  refine ⟨signals, hsignals, ?_⟩
  have hfinish : Sheet.run ⟨last', [], .statement⟩ [] = [] := rfl
  rw [hfinish] at hrun
  simp only [Sheet.signals, Sheet.initial, tokens, hselectors, hrun, BlockOwner.closing]
  simp

theorem declarations_eq (h : ∀ e ∈ r.entries.toList, e.Accounts (f e)) :
    r.declarations = (r.entries.toList.flatMap f).filterMap id := by
  obtain ⟨signals, hsignals, heq⟩ := r.exists_signals h
  have hinner : signals.filterMap (fun s => s.verdict?.join) =
      (r.entries.toList.flatMap f).filterMap id := by
    have hmap := congrArg (List.filterMap Option.join) hsignals
    simp only [List.filterMap_map, Function.comp_def, Option.join_some] at hmap
    exact hmap
  rw [declarations, heq, ← hinner]
  simp [Signal.verdict?]

theorem length_problems (h : ∀ e ∈ r.entries.toList, e.Accounts (f e)) :
    r.problems.length = (r.entries.toList.flatMap f).countP Option.isNone := by
  obtain ⟨signals, hsignals, heq⟩ := r.exists_signals h
  rw [← hsignals.length_problems, problems, heq]
  simp [List.filterMap_cons, Signal.problem?]

/-- A handler that never gives up receives the declarations between the events of the selectors. -/
theorem events_eq {σ : Type} {h : ErrorHandler σ} (hh : h.Patient) (capacity : Nat) (state : σ) :
    (h.receive capacity state (Sheet.signals r.tokens)).events =
      .start :: .selectors r.selectors.selectors ::
        (r.declarations.map Event.declaration ++
          [.endSelectors r.selectors.selectors, .finish]) := by
  obtain ⟨f, hf⟩ := Classical.axiomOfChoice (fun e : Entry => e.exists_outcome)
  have haccounts : ∀ e ∈ r.entries.toList, e.Accounts (f e) := fun e _ => (hf e).accounts
  obtain ⟨signals, hsignals, heq⟩ := r.exists_signals haccounts
  rw [h.receive_of_patient hh capacity state (Sheet.grammatical_signals r.tokens),
    r.declarations_eq haccounts, ← hsignals.events, heq]
  simp [Signal.event?]

/-- On its own an entry is valid if all its verdicts are declarations. -/
theorem valid_iff {e : Entry} {total : List (Option Declaration)} (h : e.Accounts total) :
    r.valid e = true ↔ none ∉ total := by
  -- Every verdict without a declaration is a problem, and there are no other problems.
  have halone : (r.alone e).problems.length = total.countP Option.isNone := by
    have hlength := (r.alone e).length_problems (f := fun _ => total) (by
      intro e' he'
      rwa [List.mem_singleton.1 he'])
    simpa [alone, Entries.toList] using hlength
  rw [valid, List.isEmpty_iff, ← List.length_eq_zero_iff, halone, List.countP_eq_zero]
  constructor
  · intro hall hnone
    exact hall none hnone rfl
  · intro hnone v hv hisNone
    rw [Option.isNone_iff_eq_none.1 hisNone] at hv
    exact hnone hv

/-- On its own an entry delivers the declarations among its verdicts. -/
theorem declarations_alone {e : Entry} {total : List (Option Declaration)} (h : e.Accounts total) :
    (r.alone e).declarations = total.filterMap id := by
  have heq := (r.alone e).declarations_eq (f := fun _ => total) (by
    intro e' he'
    rwa [List.mem_singleton.1 he'])
  simpa [alone, Entries.toList] using heq

/-- An entry with a single verdict is valid if that is a declaration. -/
theorem valid_eq {e : Entry} {v : Option Declaration} (h : e.Accounts [v]) :
    r.valid e = v.isSome := by
  have hvalid := r.valid_iff h
  cases v with
  | none => simpa using hvalid
  | some d => simpa using hvalid

/-! ## Isolated entries are enough -/

section Counting

variable {l : List Entry} (hf : ∀ e : Entry, e.Outcome (f e))
include hf

/-- Of isolated entries the valid ones are declared. -/
theorem filterMap_flatMap (hisolated : ∀ e ∈ l, e.isolated = true) :
    (l.flatMap f).filterMap id =
      (l.filter r.valid).flatMap (fun e => (r.alone e).declarations) := by
  induction l with
  | nil => rfl
  | cons e l ih =>
      have hrest := ih (fun e he => hisolated e (List.mem_cons_of_mem _ he))
      obtain ⟨v, hv⟩ := (hf e).exists_eq (hisolated e (List.mem_cons_self ..))
      have haccounts : e.Accounts [v] := hv ▸ (hf e).accounts
      rw [List.flatMap_cons, List.filterMap_append, hrest, hv, List.filter_cons,
        r.valid_eq haccounts]
      cases v with
      | none => rfl
      | some d =>
          rw [if_pos Option.isSome_some, List.flatMap_cons, r.declarations_alone haccounts]

/-- Of isolated entries the others are one problem each. -/
theorem countP_flatMap (hisolated : ∀ e ∈ l, e.isolated = true) :
    (l.flatMap f).countP Option.isNone = (l.filter (fun e => !r.valid e)).length := by
  induction l with
  | nil => rfl
  | cons e l ih =>
      have hrest := ih (fun e he => hisolated e (List.mem_cons_of_mem _ he))
      obtain ⟨v, hv⟩ := (hf e).exists_eq (hisolated e (List.mem_cons_self ..))
      have haccounts : e.Accounts [v] := hv ▸ (hf e).accounts
      rw [List.flatMap_cons, List.countP_append, hrest, hv, List.filter_cons, r.valid_eq haccounts]
      cases v with
      | none => simp [Nat.add_comm]
      | some d => simp

end Counting

/-- Isolated entries do not disturb each other. -/
theorem isolates_of_isolated (h : ∀ e ∈ r.entries.toList, e.isolated = true) : r.Isolates := by
  obtain ⟨f, hf⟩ := Classical.axiomOfChoice (fun e : Entry => e.exists_outcome)
  have haccounts : ∀ e ∈ r.entries.toList, e.Accounts (f e) := fun e _ => (hf e).accounts
  -- The verdicts of an entry are the same in this rule set and in the one that holds it alone.
  constructor
  · intro σ handler hpatient capacity state
    rw [r.events_eq hpatient, r.declarations_eq haccounts, r.filterMap_flatMap hf h]
  · rw [r.length_problems haccounts, r.countP_flatMap hf h]
  · intro p hp
    obtain ⟨s, hs, hproblem⟩ := List.mem_filterMap.1 hp
    have hgrammar := Sheet.fromGrammar_signals r.tokens s hs
    cases s with
    | problem q =>
        cases hproblem
        exact hgrammar
    | event e => cases hproblem
    | stepBack distance => cases hproblem

/-! ## Isolated entries are needed -/

/-- Each verdict is a declaration or a problem. -/
theorem length_verdicts (verdicts : List (Option Declaration)) :
    verdicts.length = (verdicts.filterMap id).length + verdicts.countP Option.isNone := by
  induction verdicts with
  | nil => rfl
  | cons v verdicts ih =>
      cases v with
      | none => simp [ih, Nat.add_assoc]
      | some d => simp [ih]; omega

section Counting

variable {l : List Entry} (hf : ∀ e : Entry, e.Outcome (f e))
include hf

/-- There is a verdict for every entry. -/
theorem length_le_length_flatMap (l : List Entry) : l.length ≤ (l.flatMap f).length := by
  induction l with
  | nil => exact Nat.le_refl 0
  | cons e l ih =>
      have hpos : 1 ≤ (f e).length := (hf e).length_pos
      rw [List.flatMap_cons, List.length_append, List.length_cons]
      omega

/-- If there are no more verdicts than entries, each has its own. -/
theorem isolated_of_length_le (hlength : (l.flatMap f).length ≤ l.length) :
    ∀ e ∈ l, e.isolated = true := by
  induction l with
  | nil => simp
  | cons e l ih =>
      have hrest : l.length ≤ (l.flatMap f).length := length_le_length_flatMap hf l
      rw [List.flatMap_cons, List.length_append, List.length_cons] at hlength
      intro e' he'
      rcases List.mem_cons.1 he' with rfl | he'
      · cases hf e' with
        | single haccounts hisolated v htotal => exact hisolated
        | several haccounts hother hproblem hmany => omega
      · have hpos : 1 ≤ (f e).length := (hf e).length_pos
        exact ih (by omega) e' he'

/-- A valid entry declares at most once. -/
theorem length_declarations_le {e : Entry} (hvalid : r.valid e = true) :
    (r.alone e).declarations.length ≤ 1 := by
  have hnone : none ∉ f e := (r.valid_iff (hf e).accounts).1 hvalid
  rw [r.declarations_alone (hf e).accounts]
  cases hf e with
  | several haccounts hother hproblem hmany => exact absurd hproblem hnone
  | single haccounts hisolated v htotal =>
      rw [htotal]
      exact List.length_filterMap_le ..

/-- Valid entries declare at most once each. -/
theorem length_flatMap_declarations_le (l : List Entry) :
    ((l.filter r.valid).flatMap (fun e => (r.alone e).declarations)).length ≤
      (l.filter r.valid).length := by
  induction l with
  | nil => exact Nat.le_refl 0
  | cons e l ih =>
      rw [List.filter_cons]
      split
      · next hvalid =>
          have hone := r.length_declarations_le hf hvalid
          rw [List.flatMap_cons, List.length_append, List.length_cons]
          omega
      · exact ih

end Counting

/-- A rule set that isolates its declarations declares what the valid entries declare. -/
theorem Isolates.declarations_eq {r : EntryRule} (h : r.Isolates) :
    r.declarations =
      (r.entries.toList.filter r.valid).flatMap (fun e => (r.alone e).declarations) := by
  have hpatient : Handler.forgiving.Patient := by
    intro _ hgives
    cases hgives
  have hevents := h.events Handler.forgiving.errorHandler hpatient.errorHandler 0 []
  rw [r.events_eq hpatient.errorHandler] at hevents
  have hdeclared := List.append_cancel_right (List.cons.inj (List.cons.inj hevents).2).2
  exact (List.map_inj_right (fun _ _ h => Event.declaration.inj h)).1 hdeclared

/-- Entries that do not disturb each other are isolated. -/
theorem isolated_of_isolates {r : EntryRule} (h : r.Isolates) :
    ∀ e ∈ r.entries.toList, e.isolated = true := by
  obtain ⟨f, hf⟩ := Classical.axiomOfChoice (fun e : Entry => e.exists_outcome)
  have haccounts : ∀ e ∈ r.entries.toList, e.Accounts (f e) := fun e _ => (hf e).accounts
  -- There are no more verdicts than entries: a declaration for each valid one, a problem for each
  -- other one.
  apply isolated_of_length_le hf
  have hdeclared := r.length_flatMap_declarations_le hf r.entries.toList
  have hproblems := h.problems
  have hverdicts := length_verdicts (r.entries.toList.flatMap f)
  have hsplit : r.entries.toList.length =
      (r.entries.toList.filter r.valid).length +
        (r.entries.toList.filter (fun e => !r.valid e)).length := by
    rw [List.length_eq_countP_add_countP r.valid, List.countP_eq_length_filter,
      List.countP_eq_length_filter]
    simp
  rw [← h.declarations_eq, r.declarations_eq haccounts] at hdeclared
  rw [r.length_problems haccounts] at hproblems
  omega

/-- **A rule set isolates its declarations if and only if every entry is isolated**: an entry that
is given up is given up at a semicolon or behind all of them. -/
theorem isolates_iff : r.Isolates ↔ ∀ e ∈ r.entries.toList, e.isolated = true :=
  ⟨isolated_of_isolates, r.isolates_of_isolated⟩

/-- The selector `a`. -/
def plainSelector : SelectorList where
  earlier := .start
  last := ⟨⟨.start, .one (.plain (.type (.plain ⟨⟨.ident, "a", .start, []⟩, .inl rfl⟩)))⟩, rfl⟩
  gap := .empty

/-- The entry `1px (;c:d;)`, which is given up at its first token. -/
def givenUpOutside : Entry where
  gap := .empty
  first := ⟨.quantity .length, "1px", .start, []⟩
  rest := [⟨.char, "(", .start, []⟩, ⟨.char, ";", .start, []⟩, ⟨.ident, "c", .start, []⟩,
    ⟨.char, ":", .start, []⟩, ⟨.ident, "d", .start, []⟩, ⟨.char, ";", .start, []⟩,
    ⟨.char, ")", .start, []⟩]
  significant := rfl
  shaped := by
    intro t ht
    simp only [List.mem_cons, List.not_mem_nil, or_false] at ht
    rcases ht with rfl | rfl | rfl | rfl | rfl | rfl | rfl | rfl <;>
      exact ⟨by simp, by simp, by simp [MatchOperator.ofToken?, Token.isChar]⟩
  nested := by decide

/-- A declaration that is rejected outside the parentheses behind it ends at the first semicolon in
them, and a declaration is read from their inside. -/
theorem not_forall_isolates : ¬ ∀ r : EntryRule, r.Isolates := by
  intro h
  have hisolated := isolated_of_isolates (h ⟨plainSelector, ⟨⟨.char, "\x7b", .start, []⟩, rfl⟩,
    .last givenUpOutside, ⟨⟨.char, "\x7d", .start, []⟩, rfl⟩⟩)
  exact absurd (hisolated givenUpOutside (List.mem_singleton_self _)) (by decide)

end Concrete.EntryRule

end EpubStyle
