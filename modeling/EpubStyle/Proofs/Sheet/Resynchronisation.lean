import EpubStyle.Proofs.Sheet.Feed
import EpubStyle.Proofs.Sheet.Signals

/-!
# Resynchronisation between statements

Whatever is wrong in a list of tokens, a style sheet that does not end too early in it is between
two statements of the top level behind it (`atTop_of_complete`). The state there remembers nothing
but the token taken last, and that is forgotten with the next token (`run_congr_of_atTop`). So what
follows is read as if it stood alone (`run_append_of_complete`).

The lookahead does not spoil this. A brace of an at-rule may look past the end of the list only if
no brace and no semicolon is left in it; then the block that it opens cannot close, and the list
ends too early (`premature_of_block`).
-/

set_option autoImplicit false

namespace EpubStyle

namespace Sheet

/-- Between two statements outside every block. -/
structure AtTop (m : Sheet) : Prop where
  phase : m.phase = .statement
  enclosing : m.enclosing = []

/-! ## Ending too early -/

/-- Settling at the end of the tokens keeps every phase but that of selectors. -/
theorem settle_of_not_selecting (m : Sheet) (next : Option Token)
    (h : ∀ s, m.phase ≠ .selecting s) : m.settle next = (m, []) := by
  rcases m with ⟨last, enclosing, phase⟩
  cases phase with
  | selecting s => exact absurd rfl (h s)
  | statement | skippingRule | header | skippingAtRule | block => rfl

/-- Settling selectors leaves a phase at which tokens must follow. -/
theorem expected_settle_of_selecting (m : Sheet) (s : Selecting) (h : m.phase = .selecting s) :
    ∃ what, (m.settle none).1.expected? = some what := by
  simp only [settle, h]
  cases s.settle none with
  | pending s => exact ⟨_, rfl⟩
  | complete list => exact ⟨_, by simp only [expected?, h]; rfl⟩
  | rejected p => exact ⟨_, rfl⟩

/-- Anywhere but between two statements of the top level the end of the tokens is too early. -/
theorem atTop_or_expected (m : Sheet) :
    m.AtTop ∨ ∃ what, (m.settle none).1.expected? = some what := by
  by_cases hs : ∃ s, m.phase = .selecting s
  · obtain ⟨s, hs⟩ := hs
    exact Or.inr (expected_settle_of_selecting m s hs)
  · rw [settle_of_not_selecting m none (fun s e => hs ⟨s, e⟩)]
    rcases m with ⟨last, enclosing, phase⟩
    cases phase with
    | statement =>
        cases enclosing with
        | nil => exact Or.inl ⟨rfl, rfl⟩
        | cons name outer => exact Or.inr ⟨_, rfl⟩
    | selecting s => exact absurd ⟨s, rfl⟩ hs
    | skippingRule | header | skippingAtRule => exact Or.inr ⟨_, rfl⟩
    | block owner phase => cases phase <;> exact Or.inr ⟨_, rfl⟩

/-- If the end of the tokens is no problem, it comes between two statements of the top level. -/
theorem atTop_of_finish (m : Sheet) (h : Signal.Complete m.finish) : m.AtTop := by
  rcases atTop_or_expected m with htop | ⟨what, hwhat⟩
  · exact htop
  · refine absurd rfl (h (.premature (m.settle none).1.lastLocation what) ?_)
    simp [finish, hwhat]

/-! ## Blocks -/

/-- A block of declarations stays open until a closing brace. -/
theorem stepBlock_phase (m : Sheet) (owner : BlockOwner) (phase : BlockPhase) {t : Token}
    (h : t.isChar '}' = false) (hm : m.phase = .block owner phase) :
    ∃ phase', (m.stepBlock owner t phase).1.phase = .block owner phase' := by
  obtain ⟨signals, next, hturn, hstep⟩ := exists_blockTurn hm t
  rw [hstep]
  cases next with
  | some phase' => exact ⟨phase', rfl⟩
  | none =>
      have hclose : t.isChar '}' = true := hturn.isChar_of_eq_none rfl
      rw [h] at hclose
      cases hclose

/-- A step inside a block of declarations stays in it unless the token is a closing brace. -/
theorem step_phase_of_block (m : Sheet) (owner : BlockOwner) (phase : BlockPhase) {t : Token}
    (ahead : List Token) (h : t.isChar '}' = false) (hm : m.phase = .block owner phase) :
    ∃ phase', (m.step t ahead).1.phase = .block owner phase' := by
  have hsettle : m.settle (some t) = (m, []) :=
    settle_of_not_selecting m _ (by simp [hm])
  simp only [step, hsettle]
  split
  · exact ⟨phase, hm⟩
  · simp only [take, hm]
    exact stepBlock_phase m owner phase h hm

/-- A block that no token closes ends too early. -/
theorem premature_of_block (ts : List Token) (m : Sheet) (owner : BlockOwner) (phase : BlockPhase)
    (hts : ∀ t ∈ ts, t.isChar '}' = false) (hm : m.phase = .block owner phase) :
    ¬ Signal.Complete (m.run ts) := by
  induction ts generalizing m phase with
  | nil =>
      intro h
      have htop := atTop_of_finish m h
      rw [htop.phase] at hm
      exact absurd hm (by simp)
  | cons t ts ih =>
      intro h
      obtain ⟨phase', hphase⟩ :=
        step_phase_of_block m owner phase ts (hts t (List.mem_cons_self ..)) hm
      exact ih (m.step t ts).1 phase' (fun u hu => hts u (List.mem_cons_of_mem _ hu)) hphase
        h.append_right

/-! ## Lookahead past the end -/

/-- A step that needs its lookahead and finds nothing there opens a block of declarations. -/
theorem step_eq_or_opened (m : Sheet) (t : Token) {a : List Token} (b : List Token)
    (h : holdsStatements a = false) :
    m.step t b = m.step t a ∨ ∃ name, (m.step t a).1.phase = .block (.atRule name) .opened := by
  -- The lookahead counts for an opening brace only, and only behind parameters that are closed.
  by_cases hopen : t.isChar '{' = true
  · rcases m with ⟨last, enclosing, phase⟩
    cases phase with
    | header name location parameters nesting =>
        cases nesting with
        | some n => exact Or.inl rfl
        | none =>
            by_cases hblank : t.isBlank = true
            · exact Or.inl (by simp [step, settle, ignores, hblank])
            · by_cases hsemi : t.isChar ';' = true
              · exact Or.inl (by simp [step, settle, take, stepHeader, hsemi])
              · refine Or.inr ⟨name, ?_⟩
                simp [step, settle, ignores, hblank, take, stepHeader, hsemi, hopen, h, enter]
    | selecting s =>
        have hphase : ∀ name location parameters nesting,
            (settle ⟨last, enclosing, .selecting s⟩ (some t)).1.phase ≠
              .header name location parameters nesting := by
          simp only [settle]
          cases s.settle (some t) <;> simp [enter]
        exact Or.inl (by simp only [step, take_of_not_header _ t b a hphase])
    | statement | skippingRule | skippingAtRule | block => exact Or.inl rfl
  · exact Or.inl (by simp only [step, take_of_not_openBrace _ b a (by simpa using hopen)])

/-- A step that is followed by a complete run does not look past the end of it. -/
theorem step_append_of_complete (m : Sheet) (t : Token) (ts behind : List Token)
    (h : Signal.Complete ((m.step t ts).1.run ts)) : m.step t (ts ++ behind) = m.step t ts := by
  by_cases hts : ∃ u ∈ ts, u.isOneOf ['{', ';', '}'] = true
  · exact step_congr m t (holdsStatements_append behind hts)
  · have hnone : ∀ u ∈ ts, u.isOneOf ['{', ';', '}'] = false := by
      intro u hu
      rw [← Bool.not_eq_true]
      exact fun hc => hts ⟨u, hu, hc⟩
    have hheld : holdsStatements ts = false := by
      clear h hts
      induction ts with
      | nil => rfl
      | cons u us ih =>
          have hu := hnone u (List.mem_cons_self ..)
          simp only [Token.isOneOf, List.any_cons, List.any_nil, Bool.or_eq_false_iff] at hu
          simp [holdsStatements, hu, Token.isOneOf,
            ih (fun v hv => hnone v (List.mem_cons_of_mem _ hv))]
    rcases step_eq_or_opened m t (ts ++ behind) hheld with heq | ⟨name, hopened⟩
    · exact heq
    · refine absurd h (premature_of_block ts _ _ _ (fun u hu => ?_) hopened)
      have hu' := hnone u hu
      simp only [Token.isOneOf, List.any_cons, List.any_nil, Bool.or_eq_false_iff] at hu'
      exact hu'.2.2.1

/-- A complete run is not changed by the tokens behind it, and ends between two statements of the
top level. -/
theorem feed_of_complete (ts behind : List Token) (m : Sheet) (h : Signal.Complete (m.run ts)) :
    feed behind m ts = feed [] m ts ∧ (feed [] m ts).1.AtTop ∧
      (feed [] m ts).1.finish = [] ∧ m.run ts = (feed [] m ts).2 := by
  induction ts generalizing m with
  | nil =>
      have htop := atTop_of_finish m h
      have hfinish : m.finish = [] := by
        rcases m with ⟨last, enclosing, phase⟩
        obtain ⟨rfl, rfl⟩ := htop
        rfl
      exact ⟨rfl, htop, hfinish, hfinish⟩
  | cons t ts ih =>
      have hrest : Signal.Complete ((m.step t ts).1.run ts) := h.append_right
      obtain ⟨hfeed, htop, hfinish, hrun⟩ := ih _ hrest
      have hstep := step_append_of_complete m t ts behind hrest
      refine ⟨?_, ?_, ?_, ?_⟩
      · simp only [feed, hstep, hfeed, List.append_nil]
      · simpa only [feed, List.append_nil] using htop
      · simpa only [feed, List.append_nil] using hfinish
      · simp only [run, feed, hrun, List.append_nil]

/-! ## Forgetting what came before -/

/-- The token taken first at the top level is all that the state remembers. -/
theorem take_congr_of_atTop {m m' : Sheet} (h : m.AtTop) (h' : m'.AtTop) {t : Token}
    (ht : t.isBlank = false) (ahead : List Token) : m.take t ahead = m'.take t ahead := by
  rcases m with ⟨last, enclosing, phase⟩
  rcases m' with ⟨last', enclosing', phase'⟩
  obtain ⟨rfl, rfl⟩ := h
  obtain ⟨rfl, rfl⟩ := h'
  by_cases hat : (t.kind == .atKeyword) = true
  · simp [take, stepStatement, hat, enter]
  · simp only [take, stepStatement, hat, Bool.false_eq_true, if_false]
    cases (Selecting.ofLocation t.location).step t with
    | pending s => cases hs : s.phase <;> simp [afterSelecting, enter, hs, ht]
    | complete list => rfl
    | rejected p => by_cases hc : t.isChar '}' = true <;> simp [afterSelecting, skipRule, hc, enter]

theorem atTop_initial : initial.AtTop := ⟨rfl, rfl⟩

/-- At the top level a run does not depend on what was read before. -/
theorem run_congr_of_atTop (ts : List Token) {m m' : Sheet} (h : m.AtTop) (h' : m'.AtTop) :
    m.run ts = m'.run ts := by
  induction ts with
  | nil =>
      rcases m with ⟨last, enclosing, phase⟩
      rcases m' with ⟨last', enclosing', phase'⟩
      obtain ⟨rfl, rfl⟩ := h
      obtain ⟨rfl, rfl⟩ := h'
      rfl
  | cons t ts ih =>
      have hsettle : ∀ {n : Sheet}, n.AtTop → n.settle (some t) = (n, []) :=
        fun hn => settle_of_not_selecting _ _ (by simp [hn.phase])
      have hignores : ∀ {n : Sheet}, n.AtTop → n.ignores t = !TokenClass.topLevel t := by
        intro n hn
        simp [ignores, hn.phase, hn.enclosing]
      by_cases ht : TokenClass.topLevel t = true
      · have hblank : t.isBlank = false := by
          simp only [TokenClass.topLevel, Bool.and_eq_true, Bool.not_eq_true'] at ht
          exact ht.1.1
        simp [run, step, hsettle h, hsettle h', hignores h, hignores h', ht,
          take_congr_of_atTop h h' hblank]
      · simp only [run, step, hsettle h, hsettle h', hignores h, hignores h', ht]
        simpa using ih

/-! ## Two lists in a row -/

/-- Tokens behind a complete run are read as a style sheet of their own. -/
theorem run_append_of_complete (ts us : List Token) (h : Signal.Complete (initial.run ts)) :
    initial.run (ts ++ us) = initial.run ts ++ initial.run us := by
  obtain ⟨hfeed, htop, -, hrun⟩ := feed_of_complete ts us initial h
  rw [run_append, hfeed, ← hrun, run_congr_of_atTop us htop atTop_initial]

end Sheet

/-! ## What a handler receives -/

/-- **Resynchronisation.** If the first of two lists of tokens does not end too early, a handler
that never gives up receives for both in a row the events of the first without its finish and those
of the second without its start, and the problems of the first and then those of the second. -/
theorem Sheet.deliver_append {h : Handler} (hh : h.Patient) (capacity : Nat) (ts us : List Token)
    (hts : Signal.Complete (Sheet.signals ts)) :
    ∃ first second : List Event,
      (deliver h capacity 0 (Sheet.signals ts)).events = first ++ [.finish] ∧
      (deliver h capacity 0 (Sheet.signals us)).events = .start :: second ∧
      deliver h capacity 0 (Sheet.signals (ts ++ us)) =
        { events := first ++ second
          problems := (deliver h capacity 0 (Sheet.signals ts)).problems ++
            (deliver h capacity 0 (Sheet.signals us)).problems
          failure := none } := by
  have hrun : Signal.Complete (Sheet.initial.run ts) := by
    intro p hp
    exact hts p (by simp [Sheet.signals, hp])
  simp only [deliver_of_patient hh capacity 0 (Sheet.grammatical_signals _)]
  refine ⟨.start :: (Sheet.initial.run ts).filterMap Signal.event?,
    (Sheet.initial.run us).filterMap Signal.event? ++ [.finish], ?_, ?_, ?_⟩
  · simp [Sheet.signals, Signal.event?]
  · simp [Sheet.signals, Signal.event?]
  · cases h <;>
      simp [Sheet.signals, Signal.event?, Signal.problem?, collected,
        Sheet.run_append_of_complete ts us hrun, List.filterMap_cons]

/-- A stray closing brace is one problem, and the rule set behind it is read as if it stood
alone. -/
theorem Sheet.deliver_append_strayBrace :
    Handler.Patient (.collecting none) ∧
      Signal.Complete (Sheet.signals [⟨.char, "\x7d", .start, []⟩]) ∧
      ∃ first second : List Event,
        (deliver (.collecting none) 0 0
          (Sheet.signals [⟨.char, "\x7d", .start, []⟩])).events = first ++ [.finish] ∧
        (deliver (.collecting none) 0 0
          (Sheet.signals [⟨.ident, "a", .start, []⟩, ⟨.char, "\x7b", .start, []⟩,
            ⟨.char, "\x7d", .start, []⟩])).events = .start :: second ∧
        deliver (.collecting none) 0 0
          (Sheet.signals ([⟨.char, "\x7d", .start, []⟩] ++
            [⟨.ident, "a", .start, []⟩, ⟨.char, "\x7b", .start, []⟩,
              ⟨.char, "\x7d", .start, []⟩])) =
          { events := first ++ second
            problems := (deliver (.collecting none) 0 0
                (Sheet.signals [⟨.char, "\x7d", .start, []⟩])).problems ++
              (deliver (.collecting none) 0 0
                (Sheet.signals [⟨.ident, "a", .start, []⟩, ⟨.char, "\x7b", .start, []⟩,
                  ⟨.char, "\x7d", .start, []⟩])).problems
            failure := none } := by
  have hpatient : Handler.Patient (.collecting none) := fun n => by simp [Handler.respond]
  have hcomplete : Signal.Complete (Sheet.signals [⟨.char, "\x7d", .start, []⟩]) := by
    intro p hp
    have hsignals : Sheet.signals [⟨.char, "\x7d", .start, []⟩] =
        [.event .start, .problem (.unexpected ⟨.char, "\x7d", .start, []⟩), .event .finish] := by
      rfl
    rw [hsignals] at hp
    have hp' : p = .unexpected ⟨.char, "\x7d", .start, []⟩ := by simpa using hp
    simp [hp', Problem.unexpected]
  exact ⟨hpatient, hcomplete, Sheet.deliver_append hpatient 0 _ _ hcomplete⟩

end EpubStyle
