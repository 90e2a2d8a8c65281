import EpubStyle.Proofs.Concrete.Entries
import EpubStyle.Proofs.Concrete.SheetReading
import EpubStyle.Proofs.Sheet.Signals

/-!
# Steps inside a block of declarations

As long as no brace comes, a block of declarations stays open and each token does one of a few
things to what is under way in it (`BlockStep`). The block then delivers declarations and reports
problems and nothing else, so what becomes of the tokens is a list of verdicts: a declaration, or
none for a problem (`Announces`). `BlockRun` is a row of such steps. The machine of style sheets
takes exactly these steps (`BlockStep.step_eq`, `exists_blockStep`, `BlockRun.run_eq`), wherever the
block stands and whatever follows the tokens.
-/

set_option autoImplicit false

namespace EpubStyle

open Concrete

/-! ## Verdicts -/

/-- What a signal says of a declaration: that it is one, or that there is none because of a
problem. -/
def Signal.verdict? : Signal → Option (Option Declaration)
  | event (.declaration d) => some (some d)
  | problem _ => some none
  | event _ | stepBack _ => none

/-- The signals say nothing but these verdicts. -/
def Announces (signals : List Signal) (verdicts : List (Option Declaration)) : Prop :=
  signals.map Signal.verdict? = verdicts.map some

namespace Announces

variable {signals signals' : List Signal} {verdicts verdicts' : List (Option Declaration)}

theorem nil : Announces [] [] := rfl

theorem problem (p : Problem) : Announces [.problem p] [none] := rfl

theorem declaration (d : Declaration) : Announces [.event (.declaration d)] [some d] := rfl

theorem append (h : Announces signals verdicts) (h' : Announces signals' verdicts') :
    Announces (signals ++ signals') (verdicts ++ verdicts') := by
  simp only [Announces, List.map_append] at h h' ⊢
  rw [h, h']

/-- The first signal says the first verdict. -/
theorem exists_cons {v : Option Declaration} (h : Announces signals (v :: verdicts)) :
    ∃ s rest, signals = s :: rest ∧ s.verdict? = some v ∧ Announces rest verdicts := by
  cases signals with
  | nil => cases h
  | cons s rest =>
      obtain ⟨hs, hrest⟩ := List.cons_eq_cons.1 h
      exact ⟨s, rest, rfl, hs, hrest⟩

/-- The events are the declarations of the verdicts. -/
theorem events (h : Announces signals verdicts) :
    signals.filterMap Signal.event? = (verdicts.filterMap id).map Event.declaration := by
  induction verdicts generalizing signals with
  | nil =>
      obtain rfl := List.map_eq_nil_iff.1 h
      rfl
  | cons v verdicts ih =>
      obtain ⟨s, rest, rfl, hs, hrest⟩ := h.exists_cons
      cases s with
      | event e =>
          cases e <;> cases hs
          simp [Signal.event?, ih hrest]
      | problem p =>
          cases hs
          simpa [Signal.event?, List.filterMap_cons] using ih hrest
      | stepBack distance => cases hs

/-- There are as many problems as verdicts without a declaration. -/
theorem length_problems (h : Announces signals verdicts) :
    (signals.filterMap Signal.problem?).length = verdicts.countP Option.isNone := by
  induction verdicts generalizing signals with
  | nil =>
      obtain rfl := List.map_eq_nil_iff.1 h
      rfl
  | cons v verdicts ih =>
      obtain ⟨s, rest, rfl, hs, hrest⟩ := h.exists_cons
      cases s with
      | event e =>
          cases e <;> cases hs
          simpa [Signal.problem?, List.filterMap_cons] using ih hrest
      | problem p =>
          cases hs
          simp [Signal.problem?, ih hrest]
      | stepBack distance => cases hs

end Announces

/-! ## One token -/

/-- What follows a declaration that is rejected at the token `t`, with `depth` open parentheses and
brackets before it, if the token is no brace. -/
def BlockPhase.behind (t : Token) (depth : Nat) : BlockPhase :=
  if t.isChar ';' then (if depth = 0 then .between else .skippingNested depth) else .skipping 0

theorem BlockPhase.givenUp_eq {t : Token} (hbrace : ¬ t.IsBrace) (depth : Nat) :
    givenUp t depth = some (.behind t depth) := by
  have hopen : t.isChar '{' = false := by simpa using fun h => hbrace (.inl h)
  have hclose : t.isChar '}' = false := by simpa using fun h => hbrace (.inr h)
  simp only [givenUp, behind, hopen, hclose, Bool.false_eq_true, if_false]
  split <;> rfl

/-- What a token that is no brace does inside a block of declarations. -/
inductive BlockStep (t : Token) : BlockPhase → List (Option Declaration) → BlockPhase → Prop
  | blank (phase : BlockPhase) (hblank : t.isBlank = true) : BlockStep t phase [] phase
  | name {phase : BlockPhase} (hphase : phase.Starting) (hname : t.kind = .ident) :
      BlockStep t phase [] (.reading (.named t))
  | nameless {phase : BlockPhase} (hphase : phase.Starting) (hblank : t.isBlank = false)
      (hname : t.kind ≠ .ident) : BlockStep t phase [none] (.behind t 0)
  | takes {r r' : Reading} (h : r.advance .block t t = .pending r') :
      BlockStep t (.reading r) [] (.reading r')
  | completes {r : Reading} {d : Declaration} (h : r.advance .block t t = .complete d) :
      BlockStep t (.reading r) [some d] .between
  | rejects {r : Reading} {p : Problem} {depth : Nat}
      (h : r.advance .block t t = .rejected p depth) :
      BlockStep t (.reading r) [none] (.behind t depth)
  | skips {depth : Nat} (hblank : t.isBlank = false) (h : (t.isChar ';' && depth == 0) = false) :
      BlockStep t (.skipping depth) [] (.skipping depth)
  | resumes (hsemicolon : t.isChar ';' = true) : BlockStep t (.skipping 0) [] .between
  | skipsNested {depth : Nat} (hblank : t.isBlank = false)
      (h : (nestingStep depth t == 0 && t.isChar ';') = false) :
      BlockStep t (.skippingNested depth) [] (.skippingNested (nestingStep depth t))
  | resumesNested {depth : Nat} (hdepth : nestingStep depth t = 0)
      (hsemicolon : t.isChar ';' = true) : BlockStep t (.skippingNested depth) [] .between

section Steps

variable {t : Token} {phase phase' : BlockPhase} {verdicts : List (Option Declaration)}

/-- Every token that is no brace does one of these things. -/
theorem exists_blockStep (t : Token) (phase : BlockPhase) :
    ∃ verdicts phase', BlockStep t phase verdicts phase' := by
  -- Blank tokens come first, since they do the same in every phase.
  by_cases hblank : t.isBlank = true
  · exact ⟨_, _, .blank phase hblank⟩
  have hblank : t.isBlank = false := by simpa using hblank
  have hstart : phase.Starting → ∃ verdicts phase', BlockStep t phase verdicts phase' := by
    intro hphase
    by_cases hname : t.kind = .ident
    · exact ⟨_, _, .name hphase hname⟩
    · exact ⟨_, _, .nameless hphase hblank hname⟩
  cases phase with
  | opened => exact hstart (.inl rfl)
  | between => exact hstart (.inr rfl)
  | reading r =>
      cases hadvance : r.advance .block t t with
      | pending r' => exact ⟨_, _, .takes hadvance⟩
      | complete d => exact ⟨_, _, .completes hadvance⟩
      | rejected p depth => exact ⟨_, _, .rejects hadvance⟩
  | skipping depth =>
      cases hend : t.isChar ';' && depth == 0 with
      | false => exact ⟨_, _, .skips hblank hend⟩
      | true =>
          simp only [Bool.and_eq_true, beq_iff_eq] at hend
          obtain ⟨hsemicolon, rfl⟩ := hend
          exact ⟨_, _, .resumes hsemicolon⟩
  | skippingNested depth =>
      cases hend : nestingStep depth t == 0 && t.isChar ';' with
      | false => exact ⟨_, _, .skipsNested hblank hend⟩
      | true =>
          simp only [Bool.and_eq_true, beq_iff_eq] at hend
          exact ⟨_, _, .resumesNested hend.1 hend.2⟩

/-- A token that is not blank is taken in the phase of the block. -/
theorem Sheet.step_block (last : Option Token) (enclosing : List String) (owner : BlockOwner)
    (hblank : t.isBlank = false) (ahead : List Token) {outcome : SheetPhase} {signals : List Signal}
    (h : Sheet.stepBlock ⟨last, enclosing, .block owner phase⟩ owner t phase =
      (⟨last, enclosing, outcome⟩, signals)) :
    ∃ last', Sheet.step ⟨last, enclosing, .block owner phase⟩ t ahead =
      (⟨last', enclosing, outcome⟩, signals) := by
  refine ⟨(Sheet.step ⟨last, enclosing, .block owner phase⟩ t ahead).1.last, ?_⟩
  simp only [Sheet.step, Sheet.settle, Sheet.ignores, hblank, Sheet.take, h, Bool.false_eq_true,
    if_false, List.nil_append]

/-- What such a token says is what it says in the phase of the block. -/
theorem Sheet.announces_step_block (last : Option Token) (enclosing : List String)
    (owner : BlockOwner) (hblank : t.isBlank = false) (ahead : List Token) {signals : List Signal}
    (h : Sheet.stepBlock ⟨last, enclosing, .block owner phase⟩ owner t phase =
      (⟨last, enclosing, .block owner phase'⟩, signals))
    (hsignals : Announces signals verdicts) :
    ∃ last' signals, Sheet.step ⟨last, enclosing, .block owner phase⟩ t ahead =
      (⟨last', enclosing, .block owner phase'⟩, signals) ∧ Announces signals verdicts := by
  obtain ⟨last', hstep⟩ := Sheet.step_block last enclosing owner hblank ahead h
  exact ⟨last', signals, hstep, hsignals⟩

/-- Where a rejected declaration leaves the block. -/
theorem Sheet.skipDeclaration_eq (m : Sheet) (owner : BlockOwner) (hbrace : ¬ t.IsBrace)
    (p : Problem) (depth : Nat) :
    m.skipDeclaration owner t p depth =
      (⟨m.last, m.enclosing, .block owner (.behind t depth)⟩, [.problem p]) := by
  rw [Sheet.skipDeclaration_eq_goOn, BlockPhase.givenUp_eq hbrace]
  rfl

/-- **The machine takes these steps**, wherever the block stands. -/
theorem BlockStep.step_eq (h : BlockStep t phase verdicts phase') (hbrace : ¬ t.IsBrace)
    (last : Option Token) (enclosing : List String) (owner : BlockOwner) (ahead : List Token) :
    ∃ last' signals, Sheet.step ⟨last, enclosing, .block owner phase⟩ t ahead =
      (⟨last', enclosing, .block owner phase'⟩, signals) ∧ Announces signals verdicts := by
  have hopen : t.isChar '{' = false := by simpa using fun h => hbrace (.inl h)
  have hclose : t.isChar '}' = false := by simpa using fun h => hbrace (.inr h)
  cases h with
  | blank phase hblank =>
      refine ⟨last, [], ?_, .nil⟩
      simp only [Sheet.step, Sheet.settle, Sheet.ignores, hblank, if_true]
  | name hphase hname =>
      obtain ⟨last', hstep⟩ := Sheet.step_name last enclosing owner phase hphase ⟨t, hname⟩ ahead
      exact ⟨last', [], hstep, .nil⟩
  | nameless hphase hblank hname =>
      have hkind : (t.kind == .ident) = false := by simpa using hname
      have hblock : Sheet.stepBlock ⟨last, enclosing, .block owner phase⟩ owner t phase =
          (⟨last, enclosing, .block owner (.behind t 0)⟩,
            [.problem (.expecting t (.phrase .propertyName))]) := by
        rcases hphase with rfl | rfl <;>
          simp only [Sheet.stepBlock, Sheet.startDeclaration, hclose, hkind, Bool.false_eq_true,
            if_false, Sheet.skipDeclaration_eq _ owner hbrace]
      exact Sheet.announces_step_block last enclosing owner hblank ahead hblock (.problem _)
  | takes h =>
      obtain ⟨last', hstep⟩ := Sheet.step_reading last enclosing owner h ahead
      exact ⟨last', [], hstep, .nil⟩
  | completes h =>
      obtain ⟨last', hstep⟩ := Sheet.step_reading_complete last enclosing owner h ahead
      rw [hclose] at hstep
      exact ⟨last', _, hstep, .declaration _⟩
  | @rejects r p depth h =>
      -- The machine may blame another token for the problem, but the depth is the same.
      simp only [Reading.advance] at h
      split at h
      · cases h
      next hblank =>
        obtain ⟨p', hrejected⟩ := Reading.step_eq_rejected (last.getD t) h
        have hblock : Sheet.stepBlock ⟨last, enclosing, .block owner (.reading r)⟩ owner t
            (.reading r) =
              (⟨last, enclosing, .block owner (.behind t depth)⟩, [.problem p']) := by
          simp only [Sheet.stepBlock, hrejected, Sheet.afterReading,
            Sheet.skipDeclaration_eq _ owner hbrace]
        have hblank : t.isBlank = false := by simpa using hblank
        exact Sheet.announces_step_block last enclosing owner hblank ahead hblock (.problem _)
  | @skips depth hblank h =>
      have hblock : Sheet.stepBlock ⟨last, enclosing, .block owner (.skipping depth)⟩ owner t
          (.skipping depth) = (⟨last, enclosing, .block owner (.skipping depth)⟩, []) := by
        simp only [Sheet.stepBlock, hopen, hclose, h, Bool.false_eq_true, if_false]
      exact Sheet.announces_step_block last enclosing owner hblank ahead hblock .nil
  | resumes hsemicolon =>
      have hblock : Sheet.stepBlock ⟨last, enclosing, .block owner (.skipping 0)⟩ owner t
          (.skipping 0) = (⟨last, enclosing, .block owner .between⟩, []) := by
        simp [Sheet.stepBlock, hopen, hclose, hsemicolon, Sheet.enter]
      have hblank : t.isBlank = false := Token.not_isBlank_of_isChar hsemicolon
      exact Sheet.announces_step_block last enclosing owner hblank ahead hblock .nil
  | @skipsNested depth hblank h =>
      have hblock : Sheet.stepBlock ⟨last, enclosing, .block owner (.skippingNested depth)⟩ owner t
          (.skippingNested depth) =
            (⟨last, enclosing, .block owner (.skippingNested (nestingStep depth t))⟩, []) := by
        simp only [Sheet.stepBlock, hclose, h, Bool.false_eq_true, if_false, Sheet.enter]
      exact Sheet.announces_step_block last enclosing owner hblank ahead hblock .nil
  | @resumesNested depth hdepth hsemicolon =>
      have hblock : Sheet.stepBlock ⟨last, enclosing, .block owner (.skippingNested depth)⟩ owner t
          (.skippingNested depth) = (⟨last, enclosing, .block owner .between⟩, []) := by
        simp [Sheet.stepBlock, hclose, hdepth, hsemicolon, Sheet.enter]
      have hblank : t.isBlank = false := Token.not_isBlank_of_isChar hsemicolon
      exact Sheet.announces_step_block last enclosing owner hblank ahead hblock .nil

end Steps

/-! ## Many tokens -/

/-- What tokens without braces do inside a block of declarations. -/
inductive BlockRun : BlockPhase → List Token → List (Option Declaration) → BlockPhase → Prop
  | nil (phase : BlockPhase) : BlockRun phase [] [] phase
  | cons {t : Token} {ts : List Token} {phase phase₁ phase' : BlockPhase}
      {verdicts rest : List (Option Declaration)} (hbrace : ¬ t.IsBrace)
      (hstep : BlockStep t phase verdicts phase₁) (hrest : BlockRun phase₁ ts rest phase') :
      BlockRun phase (t :: ts) (verdicts ++ rest) phase'

namespace BlockRun

variable {phase phase₁ phase' : BlockPhase} {ts us : List Token}
  {verdicts rest : List (Option Declaration)}

theorem append (h : BlockRun phase ts verdicts phase₁) (h' : BlockRun phase₁ us rest phase') :
    BlockRun phase (ts ++ us) (verdicts ++ rest) phase' := by
  induction h with
  | nil phase => exact h'
  | cons hbrace hstep hrest ih =>
      rw [List.cons_append, List.append_assoc]
      exact .cons hbrace hstep (ih h')

/-- **The machine takes these steps one after the other**, and goes on behind them. -/
theorem run_eq (h : BlockRun phase ts verdicts phase') (last : Option Token)
    (enclosing : List String) (owner : BlockOwner) (behind : List Token) :
    ∃ last' signals, Announces signals verdicts ∧
      Sheet.run ⟨last, enclosing, .block owner phase⟩ (ts ++ behind) =
        signals ++ Sheet.run ⟨last', enclosing, .block owner phase'⟩ behind := by
  -- The last token differs from step to step, so the steps hold whatever it is.
  induction h generalizing last with
  | nil phase => exact ⟨last, [], .nil, rfl⟩
  | @cons t ts _ _ _ _ _ hbrace hstep hrest ih =>
      obtain ⟨last₁, signals, hstep, hsignals⟩ := hstep.step_eq hbrace last enclosing owner
        (ts ++ behind)
      obtain ⟨last', signals', hsignals', hrun⟩ := ih last₁
      refine ⟨last', signals ++ signals', hsignals.append hsignals', ?_⟩
      rw [List.cons_append, Sheet.run_cons hstep, hrun, List.append_assoc]

end BlockRun

/-! ## The end of a declaration -/

/-- A declaration, or what is skipped of it, may end in this phase. The end is a semicolon or the
closing brace of the block, and with it comes the verdict if it is still missing. -/
inductive BlockPhase.Ends : BlockPhase → List (Option Declaration) → Prop
  | read {r : Reading} {d : Declaration}
      (h : ∀ t, Setting.ends .block t = true → r.advance .block t t = .complete d) :
      Ends (.reading r) [some d]
  | unread {r : Reading}
      (h : ∀ t, Setting.ends .block t = true → ∃ p, r.advance .block t t = .rejected p 0) :
      Ends (.reading r) [none]
  | skipped : Ends (.skipping 0) []
  | skippedNested : Ends (.skippingNested 0) []

namespace BlockPhase.Ends

variable {phase : BlockPhase} {verdicts : List (Option Declaration)}

/-- Outside every function and group a declaration may end. -/
theorem exists_of_tracks {r : Reading} (hr : r.Tracks []) : ∃ v, Ends (.reading r) [v] := by
  have hblank : ∀ {t}, Setting.ends .block t = true → t.isBlank = false := by
    intro t ht
    simp only [Setting.ends, BEq.rfl, Bool.true_and, Bool.or_eq_true] at ht
    rcases ht with h | h <;> exact Token.not_isBlank_of_isChar h
  have hcolon : ∀ {t}, Setting.ends .block t = true → t.isChar ':' = false := by
    intro t ht
    simp only [Setting.ends, BEq.rfl, Bool.true_and, Bool.or_eq_true] at ht
    rcases ht with h | h <;> exact Token.isChar_eq_false h (by decide)
  cases r with
  | named name =>
      -- A name without a colon is no declaration.
      refine ⟨none, .unread ?_⟩
      intro t ht
      simp [Reading.advance, hblank ht, Reading.step, hcolon ht]
  | nested d n => cases hr.1
  | valued d =>
      -- With a value the declaration is complete at its end, without one it is rejected there.
      by_cases hvalue : d.value = []
      · refine ⟨none, .unread ?_⟩
        intro t ht
        simp only [Reading.advance, hblank ht, Reading.step, Reading.stepValued, ht, hvalue,
          List.isEmpty_nil, Bool.false_eq_true, if_false, if_true]
        split <;> exact ⟨_, rfl⟩
      · exact ⟨_, .read (fun t ht => Reading.advance_of_ends hvalue ht t)⟩

/-- A semicolon ends the declaration. -/
theorem blockStep (h : phase.Ends verdicts) (semicolon : Mark ';') :
    BlockStep semicolon.1 phase verdicts .between := by
  have hends : Setting.ends .block semicolon.1 = true := by simp [Setting.ends, semicolon.2]
  cases h with
  | read h => exact .completes (h _ hends)
  | unread h =>
      obtain ⟨p, hp⟩ := h _ hends
      have hbehind : BlockPhase.behind semicolon.1 0 = .between := by
        simp [BlockPhase.behind, semicolon.2]
      exact hbehind ▸ .rejects hp
  | skipped => exact .resumes semicolon.2
  | skippedNested =>
      apply BlockStep.resumesNested _ semicolon.2
      have hkind : semicolon.1.kind = .char := Token.kind_of_isChar semicolon.2
      have hmark : ∀ c, c ≠ ';' → semicolon.1.isChar c = false :=
        fun c hc => Token.isChar_eq_false semicolon.2 hc.symm
      simp [nestingStep, hkind, Token.isOneOf, hmark]

/-- So does the closing brace of the block. -/
theorem step_closeBrace (h : phase.Ends verdicts) (closer : Mark '}') (last : Option Token)
    (enclosing : List String) (owner : BlockOwner) (ahead : List Token) :
    ∃ last' signals, Announces signals verdicts ∧
      Sheet.step ⟨last, enclosing, .block owner phase⟩ closer.1 ahead =
        (⟨last', enclosing, .statement⟩, signals ++ [.event owner.closing]) := by
  have hends : Setting.ends .block closer.1 = true := by simp [Setting.ends, closer.2]
  have hblank : closer.1.isBlank = false := Token.not_isBlank_of_isChar closer.2
  have hopen : closer.1.isChar '{' = false := Token.isChar_eq_false closer.2 (by decide)
  cases h with
  | @read r d h =>
      obtain ⟨last', hstep⟩ := Sheet.step_reading_complete last enclosing owner (h _ hends) ahead
      rw [closer.2, if_pos rfl] at hstep
      exact ⟨last', [.event (.declaration d)], .declaration d, hstep⟩
  -- The brace rejects what was read, and closes the block all the same.
  | @unread r h =>
      obtain ⟨p, hp⟩ := h _ hends
      rw [Reading.advance, hblank, if_neg (by simp)] at hp
      obtain ⟨p', hrejected⟩ := Reading.step_eq_rejected (last.getD closer.1) hp
      have hblock : Sheet.stepBlock ⟨last, enclosing, .block owner (.reading r)⟩ owner closer.1
          (.reading r) = (⟨last, enclosing, .statement⟩, [.problem p', .event owner.closing]) := by
        simp only [Sheet.stepBlock, hrejected, Sheet.afterReading, Sheet.skipDeclaration, closer.2,
          if_true, Sheet.closeBlock, Sheet.enter, List.cons_append, List.nil_append]
      obtain ⟨last', hstep⟩ := Sheet.step_block last enclosing owner hblank ahead hblock
      exact ⟨last', [.problem p'], .problem p', hstep⟩
  | skipped =>
      have hblock : Sheet.stepBlock ⟨last, enclosing, .block owner (.skipping 0)⟩ owner closer.1
          (.skipping 0) = (⟨last, enclosing, .statement⟩, [.event owner.closing]) := by
        simp [Sheet.stepBlock, hopen, closer.2, Sheet.closeBlock, Sheet.enter]
      obtain ⟨last', hstep⟩ := Sheet.step_block last enclosing owner hblank ahead hblock
      exact ⟨last', [], .nil, hstep⟩
  | skippedNested =>
      have hblock : Sheet.stepBlock ⟨last, enclosing, .block owner (.skippingNested 0)⟩ owner
          closer.1 (.skippingNested 0) =
            (⟨last, enclosing, .statement⟩, [.event owner.closing]) := by
        simp [Sheet.stepBlock, closer.2, Sheet.closeBlock, Sheet.enter]
      obtain ⟨last', hstep⟩ := Sheet.step_block last enclosing owner hblank ahead hblock
      exact ⟨last', [], .nil, hstep⟩

end BlockPhase.Ends

end EpubStyle
