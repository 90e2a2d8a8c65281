import EpubStyle.Parse
import EpubStyle.Proofs.Concrete.Properties
import EpubStyle.Proofs.Concrete.Punctuation
import EpubStyle.Proofs.Concrete.SelectorTrees

/-!
# Reading style sheets

Every well-formed style sheet is read as what it says, without a problem
(`StyleSheet.signals_tokens`), so every handler receives exactly its events
(`StyleSheet.deliver_signals`). The same goes for style attributes
(`InlineStyle.signals_tokens`).

The machine of style sheets passes the tokens on to the readers of selectors, values and
declarations. What these do with a token is what the machine does (`step_selecting`,
`step_header`, `step_reading`), so a run over the tokens of a tree goes on behind them
(`run_selecting`, `run_header`, `run_reading`). From these the tokens of declarations
(`run_declarations`) and of statements (`run_statements`) are read by induction over the trees.
-/

set_option autoImplicit false

namespace EpubStyle

open Concrete

namespace Sheet

section Steps

variable (last : Option Token) (enclosing : List String)

/-! ## Selectors -/

/-- A token that selectors take. -/
theorem step_selecting {s s' : Selecting} {t : Token} (h : s.advance t = .pending s')
    (ahead : List Token) :
    ∃ last', step ⟨last, enclosing, .selecting s⟩ t ahead =
      (⟨last', enclosing, .selecting s'⟩, []) := by
  refine ⟨(step ⟨last, enclosing, .selecting s⟩ t ahead).1.last, ?_⟩
  simp only [Selecting.advance] at h
  cases hsettle : s.settle (some t) with
  | complete list => simp [hsettle] at h
  | rejected p => simp [hsettle] at h
  | pending s₁ =>
      rw [hsettle] at h
      simp only at h
      split at h
      · next hloose =>
          cases h
          simp only [step, settle, hsettle, enter, ignores, hloose, if_true]
      · next hloose =>
          simp only [step, settle, hsettle, enter, ignores, hloose, if_false, take, h,
            afterSelecting, List.append_nil, Bool.false_eq_true]

/-- A token that completes selectors. -/
theorem step_selecting_complete {s : Selecting} {list : List Selector} {t : Token}
    (h : s.advance t = .complete list) (ahead : List Token) :
    ∃ last', step ⟨last, enclosing, .selecting s⟩ t ahead =
      (⟨last', enclosing, .block (.selectors list) .opened⟩, [.event (.selectors list)]) := by
  refine ⟨(step ⟨last, enclosing, .selecting s⟩ t ahead).1.last, ?_⟩
  simp only [Selecting.advance] at h
  cases hsettle : s.settle (some t) with
  | complete list => exact absurd hsettle ((s.unfinished_settle (some t)).ne_complete list)
  | rejected p => simp [hsettle] at h
  | pending s₁ =>
      rw [hsettle] at h
      simp only at h
      split at h
      · cases h
      · next hloose =>
          simp only [step, settle, hsettle, enter, ignores, hloose, if_false, take, h,
            afterSelecting, List.nil_append, Bool.false_eq_true]

/-- What becomes of the selectors of a rule set says which phase comes next. -/
theorem afterSelecting_congr (phase phase' : SheetPhase) (t : Token) (step : SelectingStep) :
    afterSelecting ⟨last, enclosing, phase⟩ t step =
      afterSelecting ⟨last, enclosing, phase'⟩ t step := by
  cases step with
  | pending s | complete list => rfl
  | rejected p =>
      simp only [afterSelecting, skipRule]
      split <;> rfl

/-- A rule set starts like selectors. -/
theorem step_statement {t : Token} (hseparates : separates enclosing.isEmpty t = false)
    (hblank : t.isBlank = false) (hat : t.kind ≠ .atKeyword)
    (hclose : enclosing = [] ∨ t.isChar '}' = false) (ahead : List Token) :
    step ⟨last, enclosing, .statement⟩ t ahead =
      step ⟨last, enclosing, .selecting (.ofLocation t.location)⟩ t ahead := by
  have hkind : (t.kind == .atKeyword) = false := by simpa using hat
  have hignores : ignores ⟨last, enclosing, .statement⟩ t = false := by
    simpa [ignores, separates] using hseparates
  have hstatement : stepStatement ⟨last, enclosing, .statement⟩ t =
      afterSelecting ⟨last, enclosing, .statement⟩ t
        ((Selecting.ofLocation t.location).step t) := by
    rcases hclose with rfl | hclose
    · simp [stepStatement, hkind]
    · cases enclosing <;> simp [stepStatement, hkind, hclose]
  have htake : take ⟨last, enclosing, .statement⟩ t ahead =
      take ⟨last, enclosing, .selecting (.ofLocation t.location)⟩ t ahead := by
    simp only [take, hstatement,
      afterSelecting_congr last enclosing .statement (.selecting (.ofLocation t.location))]
  have hloose : ignores ⟨last, enclosing, .selecting (.ofLocation t.location)⟩ t = false := by
    simp [ignores, hblank]
  have hsettle : settle ⟨last, enclosing, .selecting (.ofLocation t.location)⟩ (some t) =
      (⟨last, enclosing, .selecting (.ofLocation t.location)⟩, []) := rfl
  have hsettle' : settle ⟨last, enclosing, .statement⟩ (some t) =
      (⟨last, enclosing, .statement⟩, []) := rfl
  simp only [step, hsettle, hsettle', hignores, hloose, htake, Bool.false_eq_true, if_false]

/-! ## At-rules -/

/-- The name of an at-rule. -/
theorem step_atKeyword {t : Token} (h : t.kind = .atKeyword) (ahead : List Token) :
    ∃ last', step ⟨last, enclosing, .statement⟩ t ahead =
      (⟨last', enclosing, .header (Text.lowerCase t.text) t.location [] none⟩, []) := by
  refine ⟨(step ⟨last, enclosing, .statement⟩ t ahead).1.last, ?_⟩
  have hchar : ∀ c, t.isChar c = false := Token.isChar_of_kind (by simp [h])
  have hignores : ignores ⟨last, enclosing, .statement⟩ t = false := by
    simp [ignores, TokenClass.topLevel, Token.isBlank, h]
  have hstatement : stepStatement ⟨last, enclosing, .statement⟩ t =
      (⟨last, enclosing, .header (Text.lowerCase t.text) t.location [] none⟩, []) := by
    cases enclosing <;> simp [stepStatement, hchar, h, enter]
  simp only [step, settle, hignores, take, hstatement, Bool.false_eq_true, if_false,
    List.append_nil]

/-- A token that the parameters of an at-rule take. -/
theorem step_header (name : String) (location : Location) {r r' : Reader} {t : Token}
    (h : r.step Token.isBlank .atRuleParameter TokenClass.semicolonOrOpenBrace t = some r')
    (ahead : List Token) :
    ∃ last', step ⟨last, enclosing, .header name location r.values r.nesting⟩ t ahead =
      (⟨last', enclosing, .header name location r'.values r'.nesting⟩, []) := by
  refine ⟨(step ⟨last, enclosing, .header name location r.values r.nesting⟩ t ahead).1.last, ?_⟩
  rcases r with ⟨values, nesting⟩
  have hafter : ∀ b nesting', Reader.take ⟨values, nesting⟩ b = some r' →
      afterParameter ⟨last, enclosing, .header name location values nesting'⟩ name location values
        t b = (⟨last, enclosing, .header name location r'.values r'.nesting⟩, []) := by
    intro b nesting' hb
    cases b with
    | complete c | pending n =>
        cases hb
        rfl
    | rejected => cases hb
  by_cases hblank : t.isBlank = true
  · have hr : r' = ⟨values, nesting⟩ := by
      cases nesting <;> simpa [Reader.step, hblank] using h.symm
    subst hr
    simp only [step, settle, ignores, hblank, if_true]
  · cases nesting with
    | some n =>
        simp only [Reader.step, hblank, Bool.false_eq_true, if_false] at h
        simp only [step, settle, ignores, hblank, take, stepHeader, hafter _ _ h,
          Bool.false_eq_true, if_false, List.append_nil]
    | none =>
        simp only [Reader.step, hblank, Bool.false_eq_true, if_false] at h
        have hstart : t.valueStart ≠ .nothing := by
          intro hnothing
          simp [Nesting.start, hnothing, Reader.take] at h
        simp only [step, settle, ignores, hblank, take, stepHeader, hafter _ _ h,
          Token.not_isChar_of_valueStart hstart (c := ';') (by simp),
          Token.not_isChar_of_valueStart hstart (c := '{') (by simp),
          Bool.false_eq_true, if_false, List.append_nil]

/-! ## Declarations -/

/-- A token that a declaration takes. -/
theorem step_reading (owner : BlockOwner) {r r' : Reading} {t : Token}
    (h : r.advance .block t t = .pending r') (ahead : List Token) :
    ∃ last', step ⟨last, enclosing, .block owner (.reading r)⟩ t ahead =
      (⟨last', enclosing, .block owner (.reading r')⟩, []) := by
  refine ⟨(step ⟨last, enclosing, .block owner (.reading r)⟩ t ahead).1.last, ?_⟩
  simp only [Reading.advance] at h
  split at h
  · next hblank =>
      cases h
      simp only [step, settle, ignores, hblank, if_true]
  · next hblank =>
      simp only [step, settle, ignores, hblank, take, stepBlock,
        Reading.step_eq_pending (last.getD t) h, afterReading, enter, Bool.false_eq_true, if_false,
        List.append_nil]

/-- A token that completes a declaration, and the block if it is a brace. -/
theorem step_reading_complete (owner : BlockOwner) {r : Reading} {d : Declaration} {t : Token}
    (h : r.advance .block t t = .complete d) (ahead : List Token) :
    ∃ last', step ⟨last, enclosing, .block owner (.reading r)⟩ t ahead =
      if t.isChar '}' then
        (⟨last', enclosing, .statement⟩, [.event (.declaration d), .event owner.closing])
      else (⟨last', enclosing, .block owner .between⟩, [.event (.declaration d)]) := by
  refine ⟨(step ⟨last, enclosing, .block owner (.reading r)⟩ t ahead).1.last, ?_⟩
  simp only [Reading.advance] at h
  split at h
  · cases h
  · next hblank =>
      cases hclose : t.isChar '}' <;>
        simp only [step, settle, ignores, hblank, take, stepBlock,
          Reading.step_eq_complete (last.getD t) h, afterReading, hclose, enter, closeBlock,
          Bool.false_eq_true, if_false, if_true, List.nil_append, List.cons_append]

/-! ## Runs over the tokens of a tree -/

/-- Behind the first signals of a run the others follow. -/
theorem run_cons {m m' : Sheet} {t : Token} {ts : List Token} {signals : List Signal}
    (h : m.step t ts = (m', signals)) : m.run (t :: ts) = signals ++ m'.run ts := by
  simp [run, h]

theorem run_selecting {s s' : Selecting} {ts : List Token} (h : s.feed ts = some s')
    (us : List Token) :
    ∃ last', run ⟨last, enclosing, .selecting s⟩ (ts ++ us) =
      run ⟨last', enclosing, .selecting s'⟩ us := by
  induction ts generalizing s last with
  | nil =>
      cases h
      exact ⟨last, rfl⟩
  | cons t ts ih =>
      simp only [Selecting.feed] at h
      cases hadvance : s.advance t with
      | pending s₁ =>
          rw [hadvance] at h
          obtain ⟨last₁, hstep⟩ := step_selecting last enclosing hadvance (ts ++ us)
          obtain ⟨last', hrun⟩ := ih last₁ h
          exact ⟨last', by rw [List.cons_append, run_cons hstep, List.nil_append, hrun]⟩
      | complete list => simp [hadvance] at h
      | rejected p => simp [hadvance] at h

theorem run_header (name : String) (location : Location) {r r' : Reader} {ts : List Token}
    (h : r.feed Token.isBlank .atRuleParameter TokenClass.semicolonOrOpenBrace ts = some r')
    (us : List Token) :
    ∃ last', run ⟨last, enclosing, .header name location r.values r.nesting⟩ (ts ++ us) =
      run ⟨last', enclosing, .header name location r'.values r'.nesting⟩ us := by
  induction ts generalizing r last with
  | nil =>
      cases h
      exact ⟨last, rfl⟩
  | cons t ts ih =>
      rw [Reader.feed_cons] at h
      obtain ⟨r₁, htake, hrest⟩ := Option.bind_eq_some_iff.1 h
      obtain ⟨last₁, hstep⟩ := step_header last enclosing name location htake (ts ++ us)
      obtain ⟨last', hrun⟩ := ih last₁ hrest
      exact ⟨last', by rw [List.cons_append, run_cons hstep, List.nil_append, hrun]⟩

theorem run_reading (owner : BlockOwner) {r r' : Reading} {ts : List Token}
    (h : r.feed .block ts = some r') (us : List Token) :
    ∃ last', run ⟨last, enclosing, .block owner (.reading r)⟩ (ts ++ us) =
      run ⟨last', enclosing, .block owner (.reading r')⟩ us := by
  induction ts generalizing r last with
  | nil =>
      cases h
      exact ⟨last, rfl⟩
  | cons t ts ih =>
      simp only [Reading.feed] at h
      cases hadvance : r.advance .block t t with
      | pending r₁ =>
          rw [hadvance] at h
          obtain ⟨last₁, hstep⟩ := step_reading last enclosing owner hadvance (ts ++ us)
          obtain ⟨last', hrun⟩ := ih last₁ h
          exact ⟨last', by rw [List.cons_append, run_cons hstep, List.nil_append, hrun]⟩
      | complete d => simp [hadvance] at h
      | rejected p depth => simp [hadvance] at h

/-- The name of a declaration. -/
theorem step_name (owner : BlockOwner) (phase : BlockPhase) (h : phase = .opened ∨ phase = .between)
    (name : Word .ident) (ahead : List Token) :
    ∃ last', step ⟨last, enclosing, .block owner phase⟩ name.1 ahead =
      (⟨last', enclosing, .block owner (.reading (.named name.1))⟩, []) := by
  refine ⟨(step ⟨last, enclosing, .block owner phase⟩ name.1 ahead).1.last, ?_⟩
  have hblank : name.1.isBlank = false := by simp [Token.isBlank, name.2]
  have hchar : name.1.isChar '}' = false := Token.isChar_of_kind (by simp [name.2]) _
  rcases h with rfl | rfl <;>
    simp only [step, settle, ignores, hblank, take, stepBlock, startDeclaration, hchar, name.2,
      BEq.rfl, enter, Bool.false_eq_true, if_false, if_true, List.append_nil]

/-- A brace that closes a block between two declarations. -/
theorem step_closeBrace (owner : BlockOwner) (phase : BlockPhase)
    (h : phase = .opened ∨ phase = .between) (closer : Mark '}') (ahead : List Token) :
    ∃ last', step ⟨last, enclosing, .block owner phase⟩ closer.1 ahead =
      (⟨last', enclosing, .statement⟩, [.event owner.closing]) := by
  refine ⟨(step ⟨last, enclosing, .block owner phase⟩ closer.1 ahead).1.last, ?_⟩
  rcases h with rfl | rfl <;>
    simp only [step, settle, ignores, Token.not_isBlank_of_isChar closer.2, take, stepBlock,
      startDeclaration, closer.2, closeBlock, enter, Bool.false_eq_true, if_false, if_true,
      List.nil_append]

/-- **The tokens of a block of declarations** are read as its declarations. -/
theorem run_declarations (d : Declarations) (owner : BlockOwner) (phase : BlockPhase)
    (h : phase = .opened ∨ phase = .between) (closer : Mark '}') (us : List Token) :
    ∃ last', run ⟨last, enclosing, .block owner phase⟩ (d.tokens ++ closer.1 :: us) =
      d.events.map Signal.event ++
        .event owner.closing :: run ⟨last', enclosing, .statement⟩ us := by
  induction d generalizing last phase with
  | nil =>
      obtain ⟨last', hstep⟩ := step_closeBrace last enclosing owner phase h closer us
      refine ⟨last', ?_⟩
      rw [Declarations.tokens, List.nil_append, run_cons hstep]
      rfl
  | blank t fits rest ih =>
      have hstep : step ⟨last, enclosing, .block owner phase⟩ t (rest.tokens ++ closer.1 :: us) =
          (⟨last, enclosing, .block owner phase⟩, []) := by
        simp only [step, settle, ignores, fits, if_true]
      obtain ⟨last', hrun⟩ := ih last phase h
      refine ⟨last', ?_⟩
      rw [Declarations.tokens, List.cons_append, run_cons hstep, List.nil_append, hrun]
      rfl
  | last p =>
      obtain ⟨d, hfeed, hvalue, hd⟩ := p.feed_rest .block
      obtain ⟨last₁, hname⟩ := step_name last enclosing owner phase h p.name
        (p.rest ++ closer.1 :: us)
      obtain ⟨last₂, hrest⟩ := run_reading last₁ enclosing owner hfeed (closer.1 :: us)
      have hends : Setting.ends .block closer.1 = true := by simp [Setting.ends, closer.2]
      obtain ⟨last', hclose⟩ := step_reading_complete last₂ enclosing owner
        (Reading.advance_of_ends hvalue hends closer.1) us
      simp only [closer.2, if_true] at hclose
      refine ⟨last', ?_⟩
      rw [Declarations.tokens, Property.tokens, List.cons_append, run_cons hname, List.nil_append,
        hrest, run_cons hclose, hd]
      rfl
  | cons p semicolon rest ih =>
      obtain ⟨d, hfeed, hvalue, hd⟩ := p.feed_rest .block
      obtain ⟨last₁, hname⟩ := step_name last enclosing owner phase h p.name
        (p.rest ++ semicolon.1 :: (rest.tokens ++ closer.1 :: us))
      obtain ⟨last₂, hrest⟩ := run_reading last₁ enclosing owner hfeed
        (semicolon.1 :: (rest.tokens ++ closer.1 :: us))
      have hends : Setting.ends .block semicolon.1 = true := by simp [Setting.ends, semicolon.2]
      obtain ⟨last₃, hsemicolon⟩ := step_reading_complete last₂ enclosing owner
        (Reading.advance_of_ends hvalue hends semicolon.1) (rest.tokens ++ closer.1 :: us)
      simp only [Token.isChar_eq_false semicolon.2 (d := '}') (by decide), Bool.false_eq_true,
        if_false] at hsemicolon
      obtain ⟨last', hrun⟩ := ih last₃ .between (.inr rfl)
      refine ⟨last', ?_⟩
      rw [Declarations.tokens, Property.tokens, List.append_assoc, List.cons_append,
        List.cons_append, run_cons hname, List.nil_append, hrest, run_cons hsemicolon, hrun, hd]
      rfl

/-- The tokens of an at-rule up to its block or its end. -/
theorem run_heading (h : Heading) (us : List Token) :
    ∃ last', run ⟨last, enclosing, .statement⟩ (h.tokens ++ us) =
      run ⟨last', enclosing,
        .header h.lowerName h.name.1.location h.parameters.latest none⟩ us := by
  have hparameters := Reader.feed_tokens .atRuleParameter TokenClass.semicolonOrOpenBrace
    (by simp [Context.Broad])
    (fun t ht => by
      simp only [TokenClass.semicolonOrOpenBrace, Token.isOneOf, List.any_cons, List.any_nil,
        Bool.or_false, Bool.or_eq_true] at ht
      rcases ht with ht | ht <;> exact Token.valueStart_of_isChar ht (by simp))
    (fun t ht => Token.valueStart_of_isBlank ht) h.parameters []
  obtain ⟨last₁, hname⟩ := step_atKeyword last enclosing h.name.2 (h.parameters.tokens ++ us)
  obtain ⟨last', hrun⟩ := run_header last₁ enclosing h.lowerName h.name.1.location
    hparameters us
  refine ⟨last', ?_⟩
  rw [Heading.tokens, List.cons_append, run_cons hname, List.nil_append]
  rw [List.append_nil] at hrun
  exact hrun

/-- The semicolon that ends an at-rule. -/
theorem step_header_semicolon (name : String) (location : Location) (cs : List Construct)
    (semicolon : Mark ';') (ahead : List Token) :
    ∃ last', step ⟨last, enclosing, .header name location cs none⟩ semicolon.1 ahead =
      (⟨last', enclosing, .statement⟩,
        [.event (.atRule ⟨name, cs.reverse, false, location⟩), .event (.endAtRule name)]) := by
  refine ⟨(step ⟨last, enclosing, .header name location cs none⟩ semicolon.1 ahead).1.last, ?_⟩
  simp only [step, settle, ignores, Token.not_isBlank_of_isChar semicolon.2, take, stepHeader,
    semicolon.2, enter, atRuleEvent, Bool.false_eq_true, if_false, if_true, List.nil_append]

/-- The brace that opens the block of an at-rule. -/
theorem step_header_openBrace (name : String) (location : Location) (cs : List Construct)
    (opener : Mark '{') (ahead : List Token) :
    ∃ last', step ⟨last, enclosing, .header name location cs none⟩ opener.1 ahead =
      (if holdsStatements ahead then ⟨last', name :: enclosing, .statement⟩
        else ⟨last', enclosing, .block (.atRule name) .opened⟩,
        [.event (.atRule ⟨name, cs.reverse, true, location⟩)]) := by
  refine ⟨(step ⟨last, enclosing, .header name location cs none⟩ opener.1 ahead).1.last, ?_⟩
  cases hahead : holdsStatements ahead <;>
    simp only [step, settle, ignores, Token.not_isBlank_of_isChar opener.2, take, stepHeader,
      Token.isChar_eq_false opener.2 (d := ';') (by decide), opener.2, hahead, enter, atRuleEvent,
      Bool.false_eq_true, if_false, if_true, List.nil_append]

/-- The brace that closes a block of statements. -/
theorem step_statement_closeBrace (name : String) (closer : Mark '}') (ahead : List Token) :
    ∃ last', step ⟨last, name :: enclosing, .statement⟩ closer.1 ahead =
      (⟨last', enclosing, .statement⟩, [.event (.endAtRule name)]) := by
  refine ⟨(step ⟨last, name :: enclosing, .statement⟩ closer.1 ahead).1.last, ?_⟩
  simp only [step, settle, ignores, List.isEmpty_cons, Token.not_isBlank_of_isChar closer.2, take,
    stepStatement, closer.2, Bool.false_eq_true, if_false, List.nil_append]

/-- A list of selectors starts like a statement. -/
theorem exists_first (x : SelectorList) :
    ∃ t ts, x.tokens = t :: ts ∧ StartsSequence t := by
  have hlinked : ∀ c : LinkedSelector, ∃ t ts, c.tokens = t :: ts ∧ StartsSequence t := by
    rintro ⟨lead, m⟩
    induction lead generalizing m with
    | start => exact ⟨m.first, m.rest, rfl, m.startsSequence⟩
    | link before n l ih =>
        obtain ⟨t, ts, hts, hstarts⟩ := ih n
        refine ⟨t, ts ++ (l.tokens ++ m.tokens), ?_, hstarts⟩
        simp only [LinkedSelector.tokens, Lead.tokens] at hts ⊢
        rw [← List.cons_append, ← hts]
        simp
  obtain ⟨earlier, last, gap⟩ := x
  simp only [SelectorList.tokens]
  induction earlier generalizing last gap with
  | start =>
      obtain ⟨t, ts, hts, hstarts⟩ := hlinked last.1
      exact ⟨t, ts ++ gap.1, by simp [Earlier.tokens, hts], hstarts⟩
  | comma before s gap' t' after ih =>
      obtain ⟨t, ts, hts, hstarts⟩ := ih s gap'
      refine ⟨t, ts ++ (t'.1 :: after.1 ++ (last.1.tokens ++ gap.1)), ?_, hstarts⟩
      simp only [Earlier.tokens]
      rw [← List.cons_append, ← hts]
      simp

/-- The tokens of the selectors of a rule set and the brace behind them. -/
theorem run_selectors (x : SelectorList) (opener : Mark '{') (us : List Token) :
    ∃ last', run ⟨last, enclosing, .statement⟩ (x.tokens ++ opener.1 :: us) =
      .event (.selectors x.selectors) ::
        run ⟨last', enclosing, .block (.selectors x.selectors) .opened⟩ us := by
  obtain ⟨t, ts, hts, hstarts⟩ := exists_first x
  obtain ⟨s, hfeed, hends⟩ := x.feed_tokens t.location
  have hseparates : separates enclosing.isEmpty t = false := by
    simp only [separates, hstarts.topLevel, hstarts.notBlank]
    split <;> rfl
  have hstatement : run ⟨last, enclosing, .statement⟩ (x.tokens ++ opener.1 :: us) =
      run ⟨last, enclosing, .selecting (.ofLocation t.location)⟩ (x.tokens ++ opener.1 :: us) := by
    rw [hts, List.cons_append, run, run, step_statement last enclosing hseparates
      hstarts.notBlank hstarts.notAtKeyword (.inr (hstarts.notEnd '}' (by simp)))]
  obtain ⟨last₁, hselectors⟩ := run_selecting last enclosing hfeed (opener.1 :: us)
  obtain ⟨last', hopen⟩ := step_selecting_complete last₁ enclosing (hends opener) us
  exact ⟨last', by rw [hstatement, hselectors, run_cons hopen]; rfl⟩

/-- **The tokens of statements are read as their events**, whatever follows them. -/
theorem run_statements {top : Bool} {leads : Option Bool} (s : Statements top leads)
    (htop : enclosing.isEmpty = top) (us : List Token) :
    ∃ last', run ⟨last, enclosing, .statement⟩ (s.tokens ++ us) =
      s.events.map Signal.event ++ run ⟨last', enclosing, .statement⟩ us := by
  induction s generalizing last enclosing us with
  | nil => exact ⟨last, rfl⟩
  | separator t fits rest ih =>
      have hstep : step ⟨last, enclosing, .statement⟩ t (rest.tokens ++ us) =
          (⟨last, enclosing, .statement⟩, []) := by
        have hignores : ignores ⟨last, enclosing, .statement⟩ t = true := by
          rw [← htop] at fits
          exact fits
        simp only [step, settle, hignores, if_true]
      obtain ⟨last', hrun⟩ := ih last enclosing htop us
      refine ⟨last', ?_⟩
      rw [Statements.tokens, List.cons_append, run_cons hstep, List.nil_append, hrun]
      rfl
  | rule x opener block closer rest ih =>
      obtain ⟨last₁, hselectors⟩ := run_selectors last enclosing x opener
        (block.tokens ++ closer.1 :: (rest.tokens ++ us))
      obtain ⟨last₂, hblock⟩ := run_declarations last₁ enclosing block (.selectors x.selectors)
        .opened (.inl rfl) closer (rest.tokens ++ us)
      obtain ⟨last', hrun⟩ := ih last₂ enclosing htop us
      refine ⟨last', ?_⟩
      simp only [Statements.tokens, Statements.events, List.append_assoc, List.cons_append]
      rw [hselectors, hblock, hrun]
      simp [BlockOwner.closing]
  | plain heading semicolon rest ih =>
      obtain ⟨last₁, hheading⟩ := run_heading last enclosing heading
        (semicolon.1 :: (rest.tokens ++ us))
      obtain ⟨last₂, hend⟩ := step_header_semicolon last₁ enclosing heading.lowerName
        heading.name.1.location heading.parameters.latest semicolon (rest.tokens ++ us)
      obtain ⟨last', hrun⟩ := ih last₂ enclosing htop us
      refine ⟨last', ?_⟩
      simp only [Statements.tokens, Statements.events, List.append_assoc, List.cons_append]
      rw [hheading, run_cons hend, hrun]
      rfl
  | declared heading opener block closer rest ih =>
      obtain ⟨last₁, hheading⟩ := run_heading last enclosing heading
        (opener.1 :: (block.tokens ++ closer.1 :: (rest.tokens ++ us)))
      obtain ⟨last₂, hopen⟩ := step_header_openBrace last₁ enclosing heading.lowerName
        heading.name.1.location heading.parameters.latest opener
        (block.tokens ++ closer.1 :: (rest.tokens ++ us))
      simp only [block.holdsStatements closer, Bool.false_eq_true, if_false] at hopen
      obtain ⟨last₃, hblock⟩ := run_declarations last₂ enclosing block (.atRule heading.lowerName)
        .opened (.inl rfl) closer (rest.tokens ++ us)
      obtain ⟨last', hrun⟩ := ih last₃ enclosing htop us
      refine ⟨last', ?_⟩
      simp only [Statements.tokens, Statements.events, List.append_assoc, List.cons_append]
      rw [hheading, run_cons hopen, hblock, hrun]
      simp [BlockOwner.closing, Heading.rule]
  | nested heading opener block closer rest ihb ih =>
      obtain ⟨last₁, hheading⟩ := run_heading last enclosing heading
        (opener.1 :: (block.tokens ++ closer.1 :: (rest.tokens ++ us)))
      obtain ⟨last₂, hopen⟩ := step_header_openBrace last₁ enclosing heading.lowerName
        heading.name.1.location heading.parameters.latest opener
        (block.tokens ++ closer.1 :: (rest.tokens ++ us))
      -- The lookahead finds the statement that the block begins with.
      have hholds : holdsStatements (block.tokens ++ closer.1 :: (rest.tokens ++ us)) = true :=
        (block.holdsStatements_iff closer _).2 rfl
      simp only [hholds, if_true] at hopen
      obtain ⟨last₃, hblock⟩ := ihb last₂ (heading.lowerName :: enclosing) rfl
        (closer.1 :: (rest.tokens ++ us))
      obtain ⟨last₄, hclose⟩ := step_statement_closeBrace last₃ enclosing heading.lowerName closer
        (rest.tokens ++ us)
      obtain ⟨last', hrun⟩ := ih last₄ enclosing htop us
      refine ⟨last', ?_⟩
      simp only [Statements.tokens, Statements.events, List.append_assoc, List.cons_append]
      rw [hheading, run_cons hopen, hblock, run_cons hclose, hrun]
      simp [Heading.rule]

end Steps

end Sheet

namespace Concrete

/-- The signals of a well-formed style sheet are its events. -/
theorem StyleSheet.signals_tokens (s : StyleSheet) :
    Sheet.signals s.tokens = s.events.map Signal.event := by
  obtain ⟨last', hrun⟩ := Sheet.run_statements none [] s.statements rfl []
  have hfinish : Sheet.run ⟨last', [], .statement⟩ [] = [] := rfl
  rw [List.append_nil, hfinish, List.append_nil] at hrun
  simp only [Sheet.signals, Sheet.initial, StyleSheet.tokens, StyleSheet.events, hrun]
  simp

/-- Events are handed on by every handler. -/
theorem deliver_events (h : Handler) (capacity collected : Nat) (events : List Event) :
    deliver h capacity collected (events.map Signal.event) = ⟨events, [], none⟩ := by
  induction events with
  | nil => rfl
  | cons e events ih => simp [deliver, ih]

/-- **Every well-formed style sheet is read without a problem**, and every handler receives exactly
its events. -/
theorem StyleSheet.deliver_signals (s : StyleSheet) (h : Handler) (capacity : Nat) :
    deliver h capacity 0 (Sheet.signals s.tokens) = ⟨s.events, [], none⟩ := by
  rw [s.signals_tokens, deliver_events]

end Concrete

end EpubStyle
