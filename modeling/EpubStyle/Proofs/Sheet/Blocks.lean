import EpubStyle.Grammar.Sheet
import EpubStyle.Proofs.Concrete.Tokens

/-!
# One token in a block of declarations or in an at-rule

A token that is taken in a block does one of a few things to what is under way there. `BlockTurn`
has a case for each, and a case tells in which phase it comes, what is said about a declaration, and
in which phase the block goes on unless the token ends it. `HeaderTurn` does the same for a token in
the parameters of an at-rule.

`Sheet.exists_blockTurn` and `Sheet.exists_headerTurn` say that the machine does nothing else there.
What every step keeps is proved along these cases, and in a block the rest of the style sheet is
touched by `Sheet.goOn` alone.
-/

set_option autoImplicit false

namespace EpubStyle

/-! ## Blocks -/

namespace BlockPhase

/-- A declaration may start. -/
def Starting (phase : BlockPhase) : Prop := phase = .opened ∨ phase = .between

/-- A closing brace would be that of the block, and no declaration is being read. -/
def Closable : BlockPhase → Prop
  | opened | between | skipping 0 | skippingNested _ => True
  | reading _ | skipping (_ + 1) => False

theorem Starting.closable {phase : BlockPhase} (h : phase.Starting) : phase.Closable := by
  rcases h with rfl | rfl <;> trivial

/-- How a block goes on, if it does, when a declaration is rejected at the token `t` with `depth`
open parentheses and brackets before it. -/
def givenUp (t : Token) (depth : Nat) : Option BlockPhase :=
  if t.isChar '}' then none
  else if t.isChar ';' then some (if depth = 0 then .between else .skippingNested depth)
  else some (.skipping (if t.isChar '{' then 1 else 0))

end BlockPhase

/-- **What a token does in a block**: what is said about a declaration, and how the block goes on
unless it ends. The token taken before is `last`. -/
inductive BlockTurn (last t : Token) : BlockPhase → List Signal → Option BlockPhase → Prop
  | ends {phase : BlockPhase} (hphase : phase.Closable) (hclose : t.isChar '}' = true) :
      BlockTurn last t phase [] none
  | name {phase : BlockPhase} (hphase : phase.Starting) (hname : t.kind = .ident) :
      BlockTurn last t phase [] (some (.reading (.named t)))
  /-- Something else starts than the name of a property. -/
  | nameless {phase : BlockPhase} (hphase : phase.Starting) (hclose : t.isChar '}' = false) :
      BlockTurn last t phase [.problem (.expecting t (.phrase .propertyName))]
        (BlockPhase.givenUp t 0)
  | takes {r r' : Reading} (h : r.step .block last t = .pending r') :
      BlockTurn last t (.reading r) [] (some (.reading r'))
  | completes {r : Reading} {d : Declaration} (h : r.step .block last t = .complete d) :
      BlockTurn last t (.reading r) [.event (.declaration d)]
        (if t.isChar '}' then none else some .between)
  | rejects {r : Reading} {p : Problem} {depth : Nat}
      (h : r.step .block last t = .rejected p depth) :
      BlockTurn last t (.reading r) [.problem p] (BlockPhase.givenUp t depth)
  | opens {depth : Nat} (hopen : t.isChar '{' = true) :
      BlockTurn last t (.skipping depth) [] (some (.skipping (depth + 1)))
  | closes {depth : Nat} (hclose : t.isChar '}' = true) :
      BlockTurn last t (.skipping (depth + 1)) [] (some (.skipping depth))
  | skips {depth : Nat} {phase' : BlockPhase} (hbrace : ¬ t.IsBrace)
      (hphase : phase' = .skipping depth ∨ depth = 0 ∧ phase' = .between) :
      BlockTurn last t (.skipping depth) [] (some phase')
  /-- Only parentheses and brackets are counted here, and an opening brace is passed over. -/
  | skipsNested {depth : Nat} {phase' : BlockPhase} (hclose : t.isChar '}' = false)
      (hphase : phase' = .between ∨ ∃ depth', phase' = .skippingNested depth') :
      BlockTurn last t (.skippingNested depth) [] (some phase')

theorem BlockPhase.isChar_of_givenUp {t : Token} {depth : Nat} (h : givenUp t depth = none) :
    t.isChar '}' = true := by
  unfold givenUp at h
  split at h
  · assumption
  · split at h <;> cases h

/-- A block is left by a closing brace and by nothing else. -/
theorem BlockTurn.isChar_of_eq_none {last t : Token} {phase : BlockPhase} {signals : List Signal}
    {next : Option BlockPhase} (h : BlockTurn last t phase signals next) (hnext : next = none) :
    t.isChar '}' = true := by
  cases h with
  | ends hphase hclose => exact hclose
  | nameless hphase hclose => exact BlockPhase.isChar_of_givenUp hnext
  | completes h =>
      split at hnext
      · assumption
      · cases hnext
  | rejects h => exact BlockPhase.isChar_of_givenUp hnext
  | name | takes | opens | closes | skips | skipsNested => cases hnext

namespace Sheet

variable (m : Sheet) (owner : BlockOwner)

/-- A block goes on in a phase, or it ends. -/
def goOn (signals : List Signal) : Option BlockPhase → SheetStep
  | some phase => m.enter (.block owner phase) signals
  | none => m.closeBlock owner signals

theorem skipDeclaration_eq_goOn (t : Token) (p : Problem) (depth : Nat) :
    m.skipDeclaration owner t p depth = m.goOn owner [.problem p] (BlockPhase.givenUp t depth) := by
  unfold skipDeclaration BlockPhase.givenUp
  split
  · rfl
  split <;> rfl

variable {m owner}

theorem exists_turn_startDeclaration {phase : BlockPhase} (hphase : phase.Starting)
    (last t : Token) : ∃ signals next, BlockTurn last t phase signals next ∧
      m.startDeclaration owner t = m.goOn owner signals next := by
  unfold startDeclaration
  split
  · next hclose => exact ⟨_, _, .ends hphase.closable hclose, rfl⟩
  next hclose =>
  split
  · next hname => exact ⟨_, _, .name hphase (by simpa using hname), rfl⟩
  · exact ⟨_, _, .nameless hphase (by simpa using hclose), skipDeclaration_eq_goOn ..⟩

/-- **In a block the machine does one of these things.** -/
theorem exists_blockTurn {phase : BlockPhase} (h : m.phase = .block owner phase) (t : Token) :
    ∃ signals next, BlockTurn (m.last.getD t) t phase signals next ∧
      m.stepBlock owner t phase = m.goOn owner signals next := by
  cases phase with
  | opened => exact exists_turn_startDeclaration (.inl rfl) _ t
  | between => exact exists_turn_startDeclaration (.inr rfl) _ t
  | reading r =>
      simp only [stepBlock]
      cases hstep : r.step .block (m.last.getD t) t with
      | pending r' => exact ⟨_, _, .takes hstep, rfl⟩
      | complete d =>
          refine ⟨_, _, .completes hstep, ?_⟩
          simp only [afterReading]
          split <;> rfl
      | rejected p depth => exact ⟨_, _, .rejects hstep, skipDeclaration_eq_goOn ..⟩
  | skipping depth =>
      -- A token that is skipped leaves the state as it is, which is to enter its phase again.
      have hstay : (m, []) = m.goOn owner [] (some (.skipping depth)) := by
        simp [goOn, enter, ← h]
      simp only [stepBlock]
      split
      · next hopen => exact ⟨_, _, .opens hopen, rfl⟩
      next hopen =>
      split
      · next hclose =>
          cases depth with
          | zero => exact ⟨_, _, .ends trivial hclose, rfl⟩
          | succ depth => exact ⟨_, _, .closes hclose, rfl⟩
      next hclose =>
      have hbrace : ¬ t.IsBrace := Token.not_isBrace hopen hclose
      split
      · next hend =>
          simp only [Bool.and_eq_true, beq_iff_eq] at hend
          exact ⟨_, _, .skips hbrace (.inr ⟨hend.2, rfl⟩), rfl⟩
      · exact ⟨_, _, .skips hbrace (.inl rfl), hstay⟩
  | skippingNested depth =>
      simp only [stepBlock]
      split
      · next hclose => exact ⟨_, _, .ends trivial hclose, rfl⟩
      next hclose =>
      have hclose : t.isChar '}' = false := by simpa using hclose
      split
      · exact ⟨_, _, .skipsNested hclose (.inl rfl), rfl⟩
      · exact ⟨_, _, .skipsNested hclose (.inr ⟨_, rfl⟩), rfl⟩

/-- What a block says is said of its declarations, or it is that the block ends. -/
theorem forall_mem_goOn {P : Signal → Prop} {signals : List Signal} {next : Option BlockPhase} :
    (∀ s ∈ (m.goOn owner signals next).2, P s) ↔
      (∀ s ∈ signals, P s) ∧ (next = none → P (.event owner.closing)) := by
  cases next with
  | some phase => simp [goOn, enter]
  | none => simp [goOn, closeBlock, enter, or_imp, forall_and]

/-! ## At-rules -/

/-- What a token makes of the parameter that is under way, or of one that starts with it. -/
def parameterStep (nesting : Option Nesting) (t : Token) : Building :=
  match nesting with
  | some n => n.step .atRuleParameter TokenClass.semicolonOrOpenBrace t
  | none => Nesting.start .atRuleParameter t

/-- **What a token does in the parameters of an at-rule.** -/
inductive HeaderTurn (m : Sheet) (name : String) (location : Location)
    (parameters : List Construct) (nesting : Option Nesting) (t : Token) : SheetStep → Prop
  | parameter (hends : nesting = none → t.isChar '{' = false) :
      HeaderTurn m name location parameters nesting t
        (m.afterParameter name location parameters t (parameterStep nesting t))
  | ends (hnesting : nesting = none) (hsemicolon : t.isChar ';' = true) :
      HeaderTurn m name location parameters nesting t
        (m.enter .statement [atRuleEvent name location parameters false, .event (.endAtRule name)])
  | opensStatements (hnesting : nesting = none) (hopen : t.isChar '{' = true) :
      HeaderTurn m name location parameters nesting t
        ({ m with enclosing := name :: m.enclosing, phase := .statement },
          [atRuleEvent name location parameters true])
  | opensDeclarations (hnesting : nesting = none) (hopen : t.isChar '{' = true) :
      HeaderTurn m name location parameters nesting t
        (m.enter (.block (.atRule name) .opened) [atRuleEvent name location parameters true])

/-- **In the parameters of an at-rule the machine does one of these things.** -/
theorem exists_headerTurn (m : Sheet) (name : String) (location : Location)
    (parameters : List Construct) (nesting : Option Nesting) (t : Token) (ahead : List Token) :
    ∃ step, HeaderTurn m name location parameters nesting t step ∧
      m.stepHeader name location parameters nesting t ahead = step := by
  cases nesting with
  | some n => exact ⟨_, .parameter (fun h => nomatch h), rfl⟩
  | none =>
      simp only [stepHeader]
      split
      · next hsemicolon => exact ⟨_, .ends rfl hsemicolon, rfl⟩
      split
      · next hopen =>
          split
          · exact ⟨_, .opensStatements rfl hopen, rfl⟩
          · exact ⟨_, .opensDeclarations rfl hopen, rfl⟩
      · next hopen => exact ⟨_, .parameter (fun _ => by simpa using hopen), rfl⟩

end Sheet

end EpubStyle
