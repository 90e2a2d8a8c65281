import EpubStyle.Proofs.Sheet.Resynchronisation

/-!
# What one token does to the open blocks

While a style sheet is read, braces are open: those of blocks that an event has opened, and those of
blocks that are skipped. `Sheet.openBlocks` lists them, innermost first. A token then does one of
three things, with the events that go with it (`Sheet.Turn`, `Sheet.turn_step`): it leaves the open
blocks as they are, it opens one, or it closes the innermost one. Which token delivers which events
is said here once, and everything about the order of events follows from it.

Only an opening brace opens a block and only a closing brace closes one. The converse fails in a few
phases, in which a brace is passed over although it opens or closes a block (`Sheet.overlooks`).
-/

set_option autoImplicit false

namespace EpubStyle

/-! ## Open blocks -/

/-- What an open brace belongs to. -/
inductive OpenBlock where
  /-- A block that is skipped. -/
  | skipped
  /-- A block of declarations. -/
  | declarations (owner : BlockOwner)
  /-- The block of an at-rule with this name, with statements in it. -/
  | statements (name : String)
  deriving Repr, Inhabited

namespace OpenBlock

/-- The events that open a block: its selectors, or its at-rule. -/
def OpenedBy : OpenBlock → List Event → Prop
  | skipped, events => events = []
  | declarations (.selectors list), events => list ≠ [] ∧ events = [.selectors list]
  | declarations (.atRule name), events | statements name, events =>
      ∃ r : AtRule, r.hasBlock = true ∧ r.name = name ∧ events = [.atRule r]

/-- The events that close a block. A declaration may end with its block. -/
def ClosedBy : OpenBlock → List Event → Prop
  | skipped, events => events = []
  | declarations owner, events =>
      ∃ ds : List Declaration, ds.length ≤ 1 ∧
        events = ds.map Event.declaration ++ [owner.closing]
  | statements name, events => events = [.endAtRule name]

/-- Statements stand here: outside every block, or in a block of statements. -/
def OfStatements : Option OpenBlock → Prop
  | none | some (statements _) => True
  | some skipped | some (declarations _) => False

/-- The events inside a block that open and close none: a declaration among declarations, an at-rule
without a block among statements. -/
def Holds : Option OpenBlock → List Event → Prop
  | some (declarations _), events => ∃ d, events = [.declaration d]
  | place, events =>
      OfStatements place ∧
        ∃ r : AtRule, r.hasBlock = false ∧ events = [.atRule r, .endAtRule r.name]

theorem ofStatements_of_map (names : List String) :
    OfStatements (names.map statements).head? := by
  cases names <;> trivial

end OpenBlock

namespace Sheet

/-- The open blocks, innermost first. -/
def openBlocks (m : Sheet) : List OpenBlock :=
  let outer := m.enclosing.map OpenBlock.statements
  match m.phase with
  | .statement | .selecting _ | .header .. => outer
  | .skippingRule depth | .skippingAtRule depth => List.replicate depth .skipped ++ outer
  | .block owner (.skipping depth) => List.replicate depth .skipped ++ .declarations owner :: outer
  | .block owner _ => .declarations owner :: outer

/-- A brace that is passed over although blocks are open around it. The end of the block around a
rejected rule set or at-rule is taken for the end of what is rejected. An opening brace is not
counted where it makes an at-rule rejected inside a function or group, and where a declaration is
skipped from inside one. -/
def overlooks (m : Sheet) (t : Token) : Bool :=
  match m.phase with
  | .selecting _ | .skippingRule 0 | .skippingAtRule 0 | .header _ _ _ none =>
      t.isChar '}' && !m.enclosing.isEmpty
  | .header _ _ _ (some _) => (t.isChar '{' || t.isChar '}') && !m.enclosing.isEmpty
  | .block _ (.skippingNested _) => t.isChar '{'
  | _ => false

/-- What one token does to the open blocks `before` it, and the events it delivers. -/
inductive Turn (t : Token) (overlooked : Bool) (before after : List OpenBlock)
    (events : List Event) : Prop
  /-- The open blocks stay as they are. A brace leaves them so only if no block is open, or if it is
  overlooked. -/
  | stays (hblocks : after = before)
      (hevents : events = [] ∨ OpenBlock.Holds before.head? events)
      (hbrace : t.IsBrace → events = [] ∧ (before = [] ∨ overlooked = true))
  | opens (b : OpenBlock) (hopen : t.isChar '{' = true) (hblocks : after = b :: before)
      (hplace : b = .skipped ∨ OpenBlock.OfStatements before.head?) (hevents : b.OpenedBy events)
  | closes (b : OpenBlock) (hclose : t.isChar '}' = true) (hblocks : before = b :: after)
      (hevents : b.ClosedBy events)

/-- What one step does to the open blocks. -/
def Turns (m : Sheet) (t : Token) (step : SheetStep) : Prop :=
  Turn t (m.overlooks t) m.openBlocks step.1.openBlocks (step.2.filterMap Signal.event?)

variable {m : Sheet} {t : Token}

/-- A token that is no brace and delivers nothing. -/
theorem Turns.ofOther {step : SheetStep} (hbrace : ¬ t.IsBrace)
    (hblocks : step.1.openBlocks = m.openBlocks)
    (hevents : step.2.filterMap Signal.event? = []) : Turns m t step :=
  .stays hblocks (.inl hevents) (fun h => absurd h hbrace)

/-- A brace that neither opens nor closes a block. -/
theorem Turns.ofOverlooked {step : SheetStep} (hblocks : step.1.openBlocks = m.openBlocks)
    (hevents : step.2.filterMap Signal.event? = [])
    (hbrace : t.IsBrace → m.openBlocks = [] ∨ m.overlooks t = true) : Turns m t step :=
  .stays hblocks (.inl hevents) (fun h => ⟨hevents, hbrace h⟩)

/-! ## Rule sets -/

/-- Selectors stand where a statement does, so a closing brace there belongs to the block around
them. -/
theorem turns_afterSelecting (hblocks : m.openBlocks = m.enclosing.map .statements)
    (hclose : t.isChar '}' = true → m.openBlocks = [] ∨ m.overlooks t = true)
    {step : SelectingStep} (h : step.Outcome t) : Turns m t (m.afterSelecting t step) := by
  cases step with
  | pending s => exact .ofOther (fun hbrace => h.pending hbrace) hblocks.symm rfl
  | complete list =>
      obtain ⟨hopen, hlist⟩ := h.complete list rfl
      apply Turn.opens (.declarations (.selectors list)) hopen
      · exact congrArg (List.cons _) hblocks.symm
      · exact .inr (hblocks ▸ OpenBlock.ofStatements_of_map _)
      · exact ⟨hlist, rfl⟩
  | rejected p =>
      -- The token at which the selectors are given up is the first one that is skipped.
      simp only [afterSelecting, skipRule]
      split
      · next hc =>
          apply Turns.ofOverlooked
          · exact hblocks.symm
          · rfl
          · intro _
            exact hclose hc
      · next hc =>
          by_cases hopen : t.isChar '{' = true
          · apply Turn.opens .skipped hopen
            · simp only [hopen, if_true]
              exact congrArg (List.cons _) hblocks.symm
            · exact .inl rfl
            · rfl
          · apply Turns.ofOther (Token.not_isBrace hopen hc)
            · simp only [hopen, Bool.false_eq_true, if_false]
              exact hblocks.symm
            · rfl

/-- A closing brace that is met while a rule set or an at-rule is skipped. With no open brace it is
that of the block around, which is overlooked. -/
theorem turns_uncount (skipping : Nat → SheetPhase)
    (hskipping : ∀ depth, (⟨m.last, m.enclosing, skipping depth⟩ : Sheet).openBlocks =
      List.replicate depth .skipped ++ m.enclosing.map .statements)
    (hclose : t.isChar '}' = true) (depth : Nat) (hphase : m.phase = skipping depth)
    (hoverlooked : depth = 0 → m.enclosing ≠ [] → m.overlooks t = true) :
    Turns m t
      (if depth ≤ 1 then m.enter .statement [] else m.enter (skipping (depth - 1)) []) := by
  have hblocks : m.openBlocks = List.replicate depth .skipped ++ m.enclosing.map .statements := by
    obtain ⟨last, enclosing, phase⟩ := m
    obtain rfl := hphase
    exact hskipping depth
  -- With no open brace and with one the skipping ends. Only with one does the brace close a block.
  rcases depth with _ | _ | depth
  · apply Turns.ofOverlooked
    · exact hblocks.symm
    · rfl
    · intro _
      by_cases hnone : m.enclosing = []
      · exact .inl (by rw [hblocks, hnone]; rfl)
      · exact .inr (hoverlooked rfl hnone)
  · exact .closes .skipped hclose hblocks rfl
  · apply Turn.closes .skipped hclose
    · rw [hblocks, if_neg (by omega)]
      exact congrArg (List.cons _) (hskipping (depth + 1)).symm
    · rw [if_neg (by omega)]
      rfl

/-- Skipping counts the braces that it meets. -/
theorem turns_stepSkippingRule (depth : Nat) (hphase : m.phase = .skippingRule depth) :
    Turns m t (m.stepSkippingRule depth t) := by
  simp only [stepSkippingRule]
  split
  · next hopen =>
      obtain ⟨last, enclosing, phase⟩ := m
      obtain rfl := hphase
      exact .opens .skipped hopen rfl (.inl rfl) rfl
  · next hopen =>
      split
      · next hclose =>
          apply turns_uncount .skippingRule _ hclose depth hphase
          · rintro rfl hsome
            simpa [overlooks, hphase, hclose] using hsome
          · intro _
            rfl
      · next hclose => exact .ofOther (Token.not_isBrace hopen hclose) rfl rfl

/-! ## At-rules -/

theorem turns_stepSkippingAtRule (depth : Nat) (hphase : m.phase = .skippingAtRule depth) :
    Turns m t (m.stepSkippingAtRule depth t) := by
  simp only [stepSkippingAtRule]
  split
  · next hend =>
      obtain ⟨last, enclosing, phase⟩ := m
      obtain rfl := hphase
      simp only [Bool.and_eq_true, beq_iff_eq] at hend
      obtain ⟨hsemicolon, rfl⟩ := hend
      exact .ofOther (Token.not_isBrace_of_semicolon hsemicolon) rfl rfl
  · split
    · next hopen =>
        obtain ⟨last, enclosing, phase⟩ := m
        obtain rfl := hphase
        exact .opens .skipped hopen rfl (.inl rfl) rfl
    · next hopen =>
        split
        · next hclose =>
            apply turns_uncount .skippingAtRule _ hclose depth hphase
            · rintro rfl hsome
              simpa [overlooks, hphase, hclose] using hsome
            · intro _
              rfl
        · next hclose => exact .ofOther (Token.not_isBrace hopen hclose) rfl rfl

/-- A parameter takes no brace. A brace that it cannot take rejects the at-rule and is not
counted. -/
theorem turns_afterParameter (hblocks : m.openBlocks = m.enclosing.map .statements)
    (name : String) (location : Location) (parameters : List Construct) {b : Building}
    (hrejected : t.IsBrace → b = .rejected)
    (hbrace : t.IsBrace → m.openBlocks = [] ∨ m.overlooks t = true) :
    Turns m t (m.afterParameter name location parameters t b) := by
  cases b with
  | complete c => exact .ofOther (fun h => by cases hrejected h) hblocks.symm rfl
  | pending n => exact .ofOther (fun h => by cases hrejected h) hblocks.symm rfl
  | rejected =>
      apply Turns.ofOverlooked _ rfl hbrace
      simp only [afterParameter, enter]
      split <;> exact hblocks.symm

theorem turns_stepHeader (name : String) (location : Location) (parameters : List Construct)
    (nesting : Option Nesting) (ahead : List Token)
    (hphase : m.phase = .header name location parameters nesting) :
    Turns m t (m.stepHeader name location parameters nesting t ahead) := by
  obtain ⟨step, hturn, hstep⟩ := m.exists_headerTurn name location parameters nesting t ahead
  rw [hstep]
  obtain ⟨last, enclosing, _⟩ := m
  obtain rfl := hphase
  have hplace {b : OpenBlock} : b = .skipped ∨
      OpenBlock.OfStatements (enclosing.map OpenBlock.statements).head? :=
    .inr (OpenBlock.ofStatements_of_map enclosing)
  cases hturn with
  | parameter hends =>
      apply turns_afterParameter rfl
      · intro hbrace
        cases nesting with
        | some n => exact hbrace.step _ _ n
        | none => exact hbrace.start _
      · intro hbrace
        cases enclosing with
        | nil => exact .inl rfl
        | cons name outer =>
            refine .inr ?_
            cases nesting with
            -- Inside a parameter both braces are overlooked, so that neither is counted.
            | some n => simpa [overlooks, Token.IsBrace] using hbrace
            -- Outside every parameter an opening brace ends the header, so this is a closing one.
            | none =>
                have hclose : t.isChar '}' = true := hbrace.resolve_left (by simp [hends rfl])
                simp [overlooks, hclose]
  | ends hnesting hsemicolon =>
      apply Turn.stays
      · rfl
      · exact .inr (by cases enclosing <;> exact ⟨trivial, _, rfl, rfl⟩)
      · exact fun h => absurd h (Token.not_isBrace_of_semicolon hsemicolon)
  | opensStatements hnesting hopen =>
      exact .opens (.statements name) hopen rfl hplace ⟨_, rfl, rfl, rfl⟩
  | opensDeclarations hnesting hopen =>
      exact .opens (.declarations (.atRule name)) hopen rfl hplace ⟨_, rfl, rfl, rfl⟩

/-! ## Blocks of declarations -/

section Blocks

variable (owner : BlockOwner)

/-- A closing brace ends the block. -/
theorem turns_closeBlock
    (hblocks : m.openBlocks = .declarations owner :: m.enclosing.map .statements)
    (hclose : t.isChar '}' = true) (ds : List Declaration) {signals : List Signal}
    (hds : ds.length ≤ 1)
    (hsignals : signals.filterMap Signal.event? = ds.map Event.declaration) :
    Turns m t (m.closeBlock owner signals) := by
  apply Turn.closes (.declarations owner) hclose hblocks
  exact ⟨ds, hds, by simp [closeBlock, enter, hsignals, Signal.event?]⟩

/-- A declaration that is rejected ends with its block, or its own block is skipped. -/
theorem turns_givenUp
    (hblocks : m.openBlocks = .declarations owner :: m.enclosing.map .statements) (p : Problem)
    (depth : Nat) : Turns m t (m.goOn owner [.problem p] (BlockPhase.givenUp t depth)) := by
  unfold BlockPhase.givenUp
  split
  · next hclose => exact turns_closeBlock owner hblocks hclose [] (Nat.zero_le 1) rfl
  next hclose =>
  split
  · next hsemicolon =>
      apply Turns.ofOther (Token.not_isBrace_of_semicolon hsemicolon)
      · simp only [goOn, enter]
        split <;> exact hblocks.symm
      · rfl
  · by_cases hopen : t.isChar '{' = true
    · apply Turn.opens .skipped hopen
      · simp only [hopen, if_true]
        exact congrArg (List.cons _) hblocks.symm
      · exact .inl rfl
      · rfl
    · apply Turns.ofOther (Token.not_isBrace hopen hclose)
      · simp only [hopen, Bool.false_eq_true, if_false]
        exact hblocks.symm
      · rfl

theorem turns_stepBlock (phase : BlockPhase) (hphase : m.phase = .block owner phase) :
    Turns m t (m.stepBlock owner t phase) := by
  obtain ⟨signals, next, hturn, hstep⟩ := exists_blockTurn hphase t
  rw [hstep]
  obtain ⟨last, enclosing, _⟩ := m
  obtain rfl := hphase
  cases hturn with
  | ends hclosable hclose =>
      refine turns_closeBlock owner ?_ hclose [] (Nat.zero_le 1) rfl
      cases phase with
      | skipping depth => cases depth <;> first | rfl | cases hclosable
      | opened | between | skippingNested depth => rfl
      | reading r => cases hclosable
  | name hstarting hname =>
      apply Turns.ofOther
      · intro hbrace
        simp [hbrace.kind] at hname
      · rcases hstarting with rfl | rfl <;> rfl
      · rfl
  | nameless hstarting hclose =>
      apply turns_givenUp
      rcases hstarting with rfl | rfl <;> rfl
  | takes hread =>
      exact .ofOther (fun hbrace => Reading.not_pending_of_isBrace hbrace _ hread) rfl rfl
  | @completes r d hread =>
      have hends : t.isChar ';' = true ∨ t.isChar '}' = true := by
        simpa [Setting.ends] using (Reading.of_step_eq_complete hread).1
      -- A declaration that the closing brace completes is delivered together with the block's end.
      split
      · next hclose => exact turns_closeBlock owner rfl hclose [d] (Nat.le_refl 1) rfl
      · next hclose =>
          have hsemicolon : t.isChar ';' = true := hends.resolve_right hclose
          apply Turn.stays
          · rfl
          · exact .inr ⟨d, rfl⟩
          · exact fun h => absurd h (Token.not_isBrace_of_semicolon hsemicolon)
  | rejects => exact turns_givenUp owner rfl _ _
  | opens hopen => exact .opens .skipped hopen rfl (.inl rfl) rfl
  | closes hclose => exact .closes .skipped hclose rfl rfl
  | skips hbrace hnext => rcases hnext with rfl | ⟨rfl, rfl⟩ <;> exact .ofOther hbrace rfl rfl
  | skipsNested hclose hnext =>
      -- Here only parentheses and brackets are counted: the first closing brace ends the block.
      have hbrace : t.IsBrace → t.isChar '{' = true := fun h => h.resolve_right (by simp [hclose])
      rcases hnext with rfl | ⟨depth', rfl⟩ <;>
        exact .ofOverlooked rfl rfl fun h => .inr (hbrace h)

end Blocks

/-! ## All phases -/

theorem turns_stepStatement (hphase : m.phase = .statement) : Turns m t (m.stepStatement t) := by
  obtain ⟨last, enclosing, phase⟩ := m
  obtain rfl := hphase
  simp only [stepStatement]
  split
  · next name outer hclose => exact .closes (.statements name) hclose rfl rfl
  · next enclosing _ _ hstatement =>
      split
      · next hat =>
          apply Turns.ofOther
          · intro hbrace
            simp [hbrace.kind] at hat
          · rfl
          · rfl
      · apply turns_afterSelecting rfl
        · intro hclose
          cases enclosing with
          | nil => exact .inl rfl
          | cons name outer => exact (hstatement name outer rfl hclose).elim
        · exact Selecting.outcome_step _ t rfl

theorem turns_take (ahead : List Token)
    (hsettled : ∀ s, m.phase = .selecting s → s.settle (some t) = .pending s) :
    Turns m t (m.take t ahead) := by
  -- The last token is remembered for the locations of problems and has no part in any block.
  have hlast : ∀ (step : SheetStep) (last : Option Token), Turns m t step →
      Turns m t ({ step.1 with last := last }, step.2) := fun _ _ h => h
  apply hlast
  cases hphase : m.phase with
  | statement => exact turns_stepStatement hphase
  | selecting s =>
      apply turns_afterSelecting
      · simp [openBlocks, hphase]
      · intro hclose
        cases henclosing : m.enclosing with
        | nil => exact .inl (by simp [openBlocks, hphase, henclosing])
        | cons name outer => exact .inr (by simp [overlooks, hphase, henclosing, hclose])
      · exact s.outcome_step t (hsettled s hphase)
  | skippingRule depth => exact turns_stepSkippingRule depth hphase
  | header name location parameters nesting =>
      exact turns_stepHeader name location parameters nesting ahead hphase
  | skippingAtRule depth => exact turns_stepSkippingAtRule depth hphase
  | block owner phase => exact turns_stepBlock owner phase hphase

/-! Settling opens and closes nothing. -/

theorem openBlocks_settle (next : Option Token) : (m.settle next).1.openBlocks = m.openBlocks := by
  unfold settle
  split
  · next s hphase => split <;> simp [openBlocks, hphase, enter]
  · rfl

theorem overlooks_settle (next : Option Token) (t : Token) :
    (m.settle next).1.overlooks t = m.overlooks t := by
  unfold settle
  split
  · next s hphase => split <;> simp [overlooks, hphase, enter]
  · rfl

theorem events_settle (next : Option Token) :
    (m.settle next).2.filterMap Signal.event? = [] := by
  unfold settle
  split
  · split <;> rfl
  · rfl

theorem settled_settle (s : Selecting) (h : (m.settle (some t)).1.phase = .selecting s) :
    s.settle (some t) = .pending s := by
  unfold settle at h
  split at h
  · next s' hphase =>
      split at h
      · next hsettle =>
          cases h
          exact Selecting.settle_of_settle hsettle
      · next list hsettle =>
          exact absurd hsettle ((s'.unfinished_settle (some t)).ne_complete list)
      · cases h
  · next hphase => exact absurd h (hphase s)

theorem not_isBrace_of_ignores (h : m.ignores t = true) : ¬ t.IsBrace := by
  intro hbrace
  have hblank : t.isBlank = false := hbrace.not_isBlank
  have htop : TokenClass.topLevel t = true := by simp [TokenClass.topLevel, hblank, hbrace.kind]
  unfold ignores at h
  repeat' split at h
  all_goals simp_all

/-- **What one token does to the open blocks**, whatever the state. -/
theorem turn_step (m : Sheet) (t : Token) (ahead : List Token) : Turns m t (m.step t ahead) := by
  simp only [step]
  split
  · next hignores =>
      apply Turns.ofOther (not_isBrace_of_ignores hignores)
      · exact openBlocks_settle _
      · exact events_settle _
  · have htake : Turns (m.settle (some t)).1 t ((m.settle (some t)).1.take t ahead) :=
      turns_take ahead settled_settle
    simp only [Turns, openBlocks_settle, overlooks_settle] at htake
    simpa [Turns, events_settle] using htake

end Sheet

end EpubStyle
