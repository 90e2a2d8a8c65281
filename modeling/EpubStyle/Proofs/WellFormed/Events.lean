import EpubStyle.Proofs.Parse.Documents
import EpubStyle.Proofs.WellFormed.Selectors

/-!
# Well-formed events

Whatever a parse delivers is well-formed (`ErrorHandler.parseText_wellFormed`): selectors alternate
sequences and combinators, declarations have a value, names of at-rules begin with an at sign, and
everything inside is a value or a simple selector. It does not matter what is wrong with the text
and when the handler gives up, because the machines of both grammars keep only well-formed parts
of what they have read (`Sheet.Sound`, `StyleAttribute.Sound`) and drop what they reject.
-/

set_option autoImplicit false

namespace EpubStyle

open Text

/-! ## Declarations and at-rules -/

/-- A declaration as it may be delivered. -/
structure Declaration.WellFormed (d : Declaration) : Prop where
  name : Uncapitalized d.name
  nonempty : d.value ≠ []
  values : ∀ c ∈ d.value, c.IsValue

/-- The name of an at-rule. -/
structure AtRuleName (name : String) : Prop where
  atSign : name.toList.head? = some '@'
  uncapitalized : Uncapitalized name

/-- An at-rule as it may be delivered. -/
structure AtRule.WellFormed (r : AtRule) : Prop where
  name : AtRuleName r.name
  parameters : ∀ c ∈ r.parameters, c.IsValue

/-- An event as it may be delivered. -/
def Event.WellFormed : Event → Prop
  | start | finish => True
  | atRule r => r.WellFormed
  | endAtRule name => AtRuleName name
  | selectors list | endSelectors list => ∀ s ∈ list, s.WellFormed
  | declaration d => d.WellFormed

/-- The event of a signal, if there is one, is well-formed. -/
def Signal.WellFormed : Signal → Prop
  | event e => e.WellFormed
  | problem _ | stepBack _ => True

/-! ## Declarations under way -/

/-- The invariant of a declaration whose colon has been read. -/
structure Draft.Sound (d : Draft) : Prop where
  name : Uncapitalized d.name
  values : ∀ c ∈ d.value, c.IsValue

/-- The invariant of a declaration. -/
def Reading.Sound : Reading → Prop
  | named _ => True
  | valued d => d.Sound
  | nested d n => d.Sound ∧ n.Sound

/-- The declaration goes on within its invariant, or is complete and well-formed. -/
def ReadingStep.Sound : ReadingStep → Prop
  | pending r => r.Sound
  | complete d => d.WellFormed
  | rejected _ _ => True

theorem Draft.sound_ofName (name : Token) : (Draft.ofName name).Sound where
  name := uncapitalized_lowerCase name.text
  values := by simp [Draft.ofName]

theorem Draft.Sound.wellFormed {d : Draft} (h : d.Sound) (hvalue : d.value ≠ []) :
    d.toDeclaration.WellFormed where
  name := h.name
  nonempty := by simpa [Draft.toDeclaration] using hvalue
  values := fun c hc => h.values c (List.mem_reverse.1 hc)

namespace Reading

variable {r : Reading}

theorem sound_take {d : Draft} (h : d.Sound) (t : Token) {b : Building}
    (hb : b.Sound .propertyValue) : (take d t b).Sound := by
  cases b with
  | complete c =>
      refine ⟨h.name, ?_⟩
      intro e he
      rcases List.mem_cons.1 he with rfl | he
      · exact hb.1
      · exact h.values e he
  | pending n => exact ⟨⟨h.name, h.values⟩, hb⟩
  | rejected => trivial

/-- **One more token keeps the invariant of a declaration**, and completes it only with a value. -/
theorem Sound.step (h : r.Sound) (setting : Setting) (last : Token) {t : Token} (ht : t.Shaped) :
    (r.step setting last t).Sound := by
  cases r with
  | named name =>
      simp only [Reading.step]
      split
      · exact Draft.sound_ofName name
      · trivial
  | valued d =>
      simp only [Reading.step, stepValued]
      split
      · trivial
      split
      · split
        · trivial
        · next hvalue => exact Draft.Sound.wellFormed h (by simpa using hvalue)
      split
      · exact ⟨h.name, h.values⟩
      · exact sound_take h t (Nesting.sound_start ht)
  | nested d n => exact sound_take h.1 t (h.2.step _ ht)

end Reading

/-! ## Style sheets -/

/-- What a block belongs to is well-formed. -/
def BlockOwner.Sound : BlockOwner → Prop
  | selectors list => ∀ s ∈ list, s.WellFormed
  | atRule name => AtRuleName name

/-- The invariant of a block of declarations. -/
def BlockPhase.Sound : BlockPhase → Prop
  | reading r => r.Sound
  | opened | between | skipping _ | skippingNested _ => True

/-- The invariant of what is under way in a style sheet. -/
def SheetPhase.Sound : SheetPhase → Prop
  | selecting s => s.Sound
  | header name _ parameters nesting =>
      AtRuleName name ∧ (∀ c ∈ parameters, c.IsValue) ∧ ∀ n, nesting = some n → n.Sound
  | block owner phase => owner.Sound ∧ phase.Sound
  | statement | skippingRule _ | skippingAtRule _ => True

/-- The invariant of a style sheet. -/
structure Sheet.Sound (m : Sheet) : Prop where
  enclosing : ∀ name ∈ m.enclosing, AtRuleName name
  phase : m.phase.Sound

/-- A step keeps the invariant and signals well-formed events. -/
structure SheetStep.Sound (step : SheetStep) : Prop where
  state : step.1.Sound
  signals : ∀ s ∈ step.2, s.WellFormed

/-- The token taken last is remembered beside the invariant. -/
theorem SheetStep.Sound.remember {step : SheetStep} (h : step.Sound) (last : Option Token) :
    SheetStep.Sound ({ step.1 with last := last }, step.2) :=
  ⟨⟨h.state.enclosing, h.state.phase⟩, h.signals⟩

theorem BlockOwner.Sound.closing {owner : BlockOwner} (h : owner.Sound) :
    owner.closing.WellFormed := by
  cases owner <;> exact h

theorem BlockPhase.sound_givenUp (t : Token) (depth : Nat) :
    ∀ phase ∈ BlockPhase.givenUp t depth, phase.Sound := by
  unfold BlockPhase.givenUp
  repeat' split
  all_goals rintro _ ⟨⟩
  all_goals trivial

/-- **One more token keeps the invariant of a block.** -/
theorem BlockTurn.sound {last t : Token} {phase : BlockPhase} {signals : List Signal}
    {next : Option BlockPhase} (h : BlockTurn last t phase signals next) (hphase : phase.Sound)
    (ht : t.Shaped) : (∀ s ∈ signals, s.WellFormed) ∧ ∀ phase' ∈ next, phase'.Sound := by
  cases h with
  | takes hstep =>
      have hr := Reading.Sound.step hphase .block last ht
      rw [hstep] at hr
      exact ⟨by simp, by rintro _ ⟨⟩; exact hr⟩
  | completes hstep =>
      have hd := Reading.Sound.step hphase .block last ht
      rw [hstep] at hd
      refine ⟨List.forall_mem_singleton.2 hd, ?_⟩
      split <;> simp [BlockPhase.Sound]
  | nameless | rejects => exact ⟨by simp [Signal.WellFormed], BlockPhase.sound_givenUp t _⟩
  | skips hbrace hnext =>
      rcases hnext with rfl | ⟨-, rfl⟩ <;> simp [BlockPhase.Sound]
  | skipsNested hclose hnext =>
      rcases hnext with rfl | ⟨depth', rfl⟩ <;> simp [BlockPhase.Sound]
  | ends | name | opens | closes => simp [BlockPhase.Sound, Reading.Sound]

namespace Sheet

variable {m : Sheet} {t : Token}

theorem sound_initial : initial.Sound where
  enclosing := by simp [initial]
  phase := trivial

namespace Sound

theorem enter (h : m.Sound) {phase : SheetPhase} {signals : List Signal} :
    SheetStep.Sound (m.enter phase signals) ↔ phase.Sound ∧ ∀ s ∈ signals, s.WellFormed :=
  ⟨fun hstep => ⟨hstep.state.phase, hstep.signals⟩,
    fun hstep => ⟨⟨h.enclosing, hstep.1⟩, hstep.2⟩⟩

theorem stay (h : m.Sound) : SheetStep.Sound (m, []) := ⟨h, by simp⟩

theorem afterSelecting (h : m.Sound) (t : Token) {step : SelectingStep} (hstep : step.Sound) :
    SheetStep.Sound (m.afterSelecting t step) := by
  cases step with
  | pending s => exact h.enter.2 ⟨hstep, by simp⟩
  | complete list =>
      exact h.enter.2 ⟨⟨hstep, trivial⟩, List.forall_mem_singleton.2 hstep⟩
  | rejected p =>
      simp only [Sheet.afterSelecting, skipRule]
      split <;> exact h.enter.2 ⟨trivial, by simp [Signal.WellFormed]⟩

theorem stepSkippingRule (h : m.Sound) (depth : Nat) (t : Token) :
    SheetStep.Sound (m.stepSkippingRule depth t) := by
  unfold Sheet.stepSkippingRule
  split
  · exact h.enter.2 ⟨trivial, by simp⟩
  split
  · split <;> exact h.enter.2 ⟨trivial, by simp⟩
  · exact h.stay

/-! Blocks of declarations. -/

theorem stepBlock (h : m.Sound) {owner : BlockOwner} (howner : owner.Sound) {phase : BlockPhase}
    (hphase : m.phase = .block owner phase) (hsound : phase.Sound) (ht : t.Spelled) :
    SheetStep.Sound (m.stepBlock owner t phase) := by
  obtain ⟨signals, next, hturn, hstep⟩ := exists_blockTurn hphase t
  obtain ⟨hsignals, hnext⟩ := hturn.sound hsound ht.toShaped
  rw [hstep]
  refine ⟨⟨?_, ?_⟩, forall_mem_goOn.2 ⟨hsignals, fun _ => howner.closing⟩⟩
  · cases next <;> exact h.enclosing
  · cases next with
    | some phase' => exact ⟨howner, hnext phase' rfl⟩
    | none => trivial

/-! At-rules. -/

/-- The parameters of an at-rule as the rule is opened. -/
theorem wellFormed_atRuleEvent {name : String} (hname : AtRuleName name) (l : Location)
    {parameters : List Construct} (hparameters : ∀ c ∈ parameters, c.IsValue) (hasBlock : Bool) :
    (atRuleEvent name l parameters hasBlock).WellFormed :=
  ⟨hname, fun c hc => hparameters c (List.mem_reverse.1 hc)⟩

theorem afterParameter (h : m.Sound) {name : String} (hname : AtRuleName name) (l : Location)
    {parameters : List Construct} (hparameters : ∀ c ∈ parameters, c.IsValue) (t : Token)
    {b : Building} (hb : b.Sound .atRuleParameter) :
    SheetStep.Sound (m.afterParameter name l parameters t b) := by
  cases b with
  | complete c =>
      refine h.enter.2 ⟨⟨hname, ?_, by simp⟩, by simp⟩
      intro d hd
      rcases List.mem_cons.1 hd with rfl | hd
      · exact hb.1
      · exact hparameters d hd
  | pending n =>
      refine h.enter.2 ⟨⟨hname, hparameters, ?_⟩, by simp⟩
      rintro _ ⟨⟩
      exact hb
  | rejected =>
      simp only [Sheet.afterParameter]
      refine h.enter.2 ⟨?_, by simp [Signal.WellFormed]⟩
      split <;> trivial

theorem stepHeader (h : m.Sound) {name : String} (hname : AtRuleName name) (l : Location)
    {parameters : List Construct} (hparameters : ∀ c ∈ parameters, c.IsValue)
    {nesting : Option Nesting} (hnesting : ∀ n, nesting = some n → n.Sound) (ht : t.Spelled)
    (ahead : List Token) :
    SheetStep.Sound (m.stepHeader name l parameters nesting t ahead) := by
  have hevent := wellFormed_atRuleEvent hname l hparameters
  obtain ⟨step, hturn, hstep⟩ := m.exists_headerTurn name l parameters nesting t ahead
  rw [hstep]
  cases hturn with
  | parameter =>
      refine h.afterParameter hname l hparameters t ?_
      cases nesting with
      | some n => exact (hnesting n rfl).step _ ht.toShaped
      | none => exact Nesting.sound_start ht.toShaped
  | ends => exact h.enter.2 ⟨trivial, by simpa using ⟨hevent false, hname⟩⟩
  | opensStatements =>
      refine ⟨⟨?_, trivial⟩, List.forall_mem_singleton.2 (hevent true)⟩
      exact List.forall_mem_cons.2 ⟨hname, h.enclosing⟩
  | opensDeclarations =>
      exact h.enter.2 ⟨⟨hname, trivial⟩, List.forall_mem_singleton.2 (hevent true)⟩

theorem stepSkippingAtRule (h : m.Sound) (depth : Nat) (t : Token) :
    SheetStep.Sound (m.stepSkippingAtRule depth t) := by
  unfold Sheet.stepSkippingAtRule
  split
  · exact h.enter.2 ⟨trivial, by simp⟩
  split
  · exact h.enter.2 ⟨trivial, by simp⟩
  split
  · split <;> exact h.enter.2 ⟨trivial, by simp⟩
  · exact h.stay

/-- The keyword of an at-rule in lower case is its name. -/
theorem atRuleName_of_kind (ht : t.Spelled) (hkind : t.kind = .atKeyword) :
    AtRuleName (lowerCase t.text) where
  atSign := by
    have hhead := ht.atSign hkind
    rw [lowerCase, String.toList_map, List.head?_map, hhead]
    rfl
  uncapitalized := uncapitalized_lowerCase t.text

/-! One token. -/

theorem stepStatement (h : m.Sound) (ht : t.Spelled) : SheetStep.Sound (m.stepStatement t) := by
  unfold Sheet.stepStatement
  split
  · next name outer hm _ =>
      have henclosing : ∀ x ∈ name :: outer, AtRuleName x := hm ▸ h.enclosing
      refine ⟨⟨fun x hx => henclosing x (List.mem_cons_of_mem _ hx), h.phase⟩, ?_⟩
      exact List.forall_mem_singleton.2 (henclosing name (List.mem_cons_self ..))
  · split
    · next hkind =>
        exact h.enter.2 ⟨⟨atRuleName_of_kind ht (by simpa using hkind), by simp, by simp⟩, by simp⟩
    · exact h.afterSelecting t ((Selecting.sound_ofLocation t.location).step ht)

theorem settle (h : m.Sound) (next : Option Token) : SheetStep.Sound (m.settle next) := by
  have hphase := h.phase
  unfold Sheet.settle
  split
  · next s hs =>
      rw [hs] at hphase
      have hsettle := Selecting.Sound.settle hphase next
      split
      · next s' hs' => exact h.enter.2 ⟨by rwa [hs'] at hsettle, by simp⟩
      · exact h.stay
      · exact h.enter.2 ⟨trivial, by simp [Signal.WellFormed]⟩
  · exact h.stay

theorem take (h : m.Sound) (ht : t.Spelled) (ahead : List Token) :
    SheetStep.Sound (m.take t ahead) := by
  have hsound := h.phase
  unfold Sheet.take
  cases hphase : m.phase with
  | statement => exact (h.stepStatement ht).remember _
  | selecting s =>
      rw [hphase] at hsound
      exact (h.afterSelecting t (Selecting.Sound.step hsound ht)).remember _
  | skippingRule depth => exact (h.stepSkippingRule depth t).remember _
  | header name location parameters nesting =>
      rw [hphase] at hsound
      exact (h.stepHeader hsound.1 location hsound.2.1 hsound.2.2 ht ahead).remember _
  | skippingAtRule depth => exact (h.stepSkippingAtRule depth t).remember _
  | block owner phase =>
      rw [hphase] at hsound
      exact (h.stepBlock hsound.1 hphase hsound.2 ht).remember _

/-- **One more token keeps the invariant of a style sheet.** -/
theorem step (h : m.Sound) (ht : t.Spelled) (ahead : List Token) :
    SheetStep.Sound (m.step t ahead) := by
  have hsettled := h.settle (some t)
  simp only [Sheet.step]
  split
  · exact hsettled
  · have htaken := hsettled.state.take ht ahead
    refine ⟨htaken.state, ?_⟩
    intro s hs
    rcases List.mem_append.1 hs with hs | hs
    · exact hsettled.signals s hs
    · exact htaken.signals s hs

/-- What is closed where the tokens end has been opened before. -/
theorem finish (h : m.Sound) : ∀ s ∈ m.finish, s.WellFormed := by
  have hsettled := h.settle none
  have hphase := hsettled.state.phase
  intro s hs
  simp only [Sheet.finish, List.mem_append] at hs
  -- What settles, a header without a block, what is missing, and what is still open.
  rcases hs with ((hs | hs) | hs) | hs
  · exact hsettled.signals s hs
  · simp only [unopened] at hs
    split at hs
    · next name l parameters nesting hheader =>
        rw [hheader] at hphase
        obtain rfl := List.mem_singleton.1 hs
        exact wellFormed_atRuleEvent hphase.1 l hphase.2.1 false
    · cases hs
  · split at hs
    · obtain rfl := List.mem_singleton.1 hs
      trivial
    · cases hs
  · simp only [closings, List.mem_map, List.mem_append] at hs
    obtain ⟨e, he | ⟨name, hname, rfl⟩, rfl⟩ := hs
    · split at he
      · next hheader =>
          rw [hheader] at hphase
          obtain rfl := List.mem_singleton.1 he
          exact hphase.1
      · next hblock =>
          rw [hblock] at hphase
          obtain rfl := List.mem_singleton.1 he
          exact hphase.1.closing
      · cases he
    · exact hsettled.state.enclosing name hname

end Sound

/-- **Every run of a style sheet signals well-formed events.** -/
theorem wellFormed_run (ts : List Token) (hts : ∀ t ∈ ts, t.Spelled) {m : Sheet} (h : m.Sound) :
    ∀ s ∈ m.run ts, s.WellFormed := by
  induction ts generalizing m with
  | nil => exact h.finish
  | cons t ts ih =>
      have hstep := h.step (hts t (List.mem_cons_self ..)) ts
      intro s hs
      rcases List.mem_append.1 hs with hs | hs
      · exact hstep.signals s hs
      · exact ih (fun u hu => hts u (List.mem_cons_of_mem _ hu)) hstep.state s hs

end Sheet

/-! ## Style attributes -/

/-- The invariant of what is under way in a style attribute. -/
def AttributePhase.Sound : AttributePhase → Prop
  | reading r => r.Sound
  | leading | between | skippingNested _ | stopped => True

namespace StyleAttribute

variable {m : StyleAttribute} {t : Token}

theorem sound_startDeclaration (t : Token) :
    (startDeclaration t).1.Sound ∧ ∀ s ∈ (startDeclaration t).2, s.WellFormed := by
  unfold startDeclaration
  split
  · exact ⟨trivial, by simp⟩
  · exact ⟨trivial, by simp [Signal.WellFormed]⟩

theorem sound_afterReading (t : Token) {step : ReadingStep} (hstep : step.Sound) :
    (afterReading t step).1.Sound ∧ ∀ s ∈ (afterReading t step).2, s.WellFormed := by
  cases step with
  | pending r => exact ⟨hstep, by simp [afterReading]⟩
  | complete d => exact ⟨trivial, List.forall_mem_singleton.2 hstep⟩
  | rejected p depth =>
      simp only [afterReading]
      refine ⟨?_, by simp [Signal.WellFormed]⟩
      split <;> trivial

theorem sound_take (h : m.phase.Sound) (ht : t.Shaped) :
    (m.take t).1.Sound ∧ ∀ s ∈ (m.take t).2, s.WellFormed := by
  unfold take
  split
  · split
    · exact ⟨trivial, by simp⟩
    · exact sound_startDeclaration t
  · exact sound_startDeclaration t
  · next r hr =>
      rw [hr] at h
      exact sound_afterReading t (Reading.Sound.step h .attribute _ ht)
  · split
    · exact ⟨trivial, by simp⟩
    · simp only
      split <;> exact ⟨trivial, by simp⟩
  · exact ⟨trivial, by simp⟩

/-- **One more token keeps the invariant of a style attribute.** -/
theorem sound_step (h : m.phase.Sound) (ht : t.Shaped) :
    (m.step t).1.phase.Sound ∧ ∀ s ∈ (m.step t).2, s.WellFormed := by
  unfold step
  split
  · exact ⟨h, by simp⟩
  · exact sound_take h ht

theorem wellFormed_finish (h : m.phase.Sound) : ∀ s ∈ m.finish, s.WellFormed := by
  unfold finish
  split
  · simp
  · simp
  · simp
  · next d hd =>
      rw [hd] at h
      split
      · next hvalue =>
          exact List.forall_mem_singleton.2 (Draft.Sound.wellFormed h (by simpa using hvalue))
      · split <;> simp [Signal.WellFormed]
  · simp [Signal.WellFormed]
  · simp [Signal.WellFormed]

/-- **Every run of a style attribute signals well-formed events.** -/
theorem wellFormed_run (ts : List Token) (hts : ∀ t ∈ ts, t.Shaped) {m : StyleAttribute}
    (h : m.phase.Sound) : ∀ s ∈ m.run ts, s.WellFormed := by
  induction ts generalizing m with
  | nil => exact wellFormed_finish h
  | cons t ts ih =>
      have hstep := sound_step h (hts t (List.mem_cons_self ..))
      intro s hs
      rcases List.mem_append.1 hs with hs | hs
      · exact hstep.2 s hs
      · exact ih (fun u hu => hts u (List.mem_cons_of_mem _ hu)) hstep.1 s hs

end StyleAttribute

/-! ## Parses -/

/-- **Both grammars signal well-formed events** of tokens as the scanner makes them. -/
theorem Grammar.wellFormed_signals (g : Grammar) {ts : List Token} (hts : ∀ t ∈ ts, t.Spelled) :
    ∀ s ∈ g.signals ts, s.WellFormed := by
  intro s hs
  cases g with
  | sheet =>
      simp only [Grammar.signals, Sheet.signals, List.mem_cons, List.mem_append,
        List.not_mem_nil, or_false] at hs
      rcases hs with rfl | hs | rfl
      · trivial
      · exact Sheet.wellFormed_run ts hts Sheet.sound_initial s hs
      · trivial
  | styleAttribute =>
      simp only [Grammar.signals, StyleAttribute.signals, List.mem_cons, List.mem_append,
        List.not_mem_nil, or_false] at hs
      rcases hs with rfl | hs | rfl
      · trivial
      · exact StyleAttribute.wellFormed_run ts (fun t ht => (hts t ht).toShaped)
          (m := .initial) trivial s hs
      · trivial

/-- **Every text is read as well-formed events**, whatever is wrong with it. -/
theorem wellFormed_parseSignals (g : Grammar) (text source : String) :
    ∀ s ∈ parseSignals g text source, s.WellFormed := by
  intro s hs
  rcases List.mem_append.1 hs with hs | hs
  · -- Scanning finds faults and steps back, and delivers nothing.
    have hscanner := fromScanner_scan text source s hs
    cases s with
    | event e => exact hscanner.elim
    | problem p | stepBack distance => trivial
  · apply g.wellFormed_signals _ s hs
    intro t ht
    obtain ⟨x, hx, rfl⟩ := List.mem_map.1 ht
    exact spelled_of_mem_scan x hx

/-- What is received is among what is signalled. -/
theorem Received.mem {signals : List Signal} {events : List Event} {failure : Option Failure}
    (h : Received signals events failure) {e : Event} (he : e ∈ events) :
    Signal.event e ∈ signals := by
  have hevent : ∀ l : List Signal, e ∈ l.filterMap Signal.event? → Signal.event e ∈ l := by
    intro l hl
    obtain ⟨s, hs, hse⟩ := List.mem_filterMap.1 hl
    cases s with
    | event e' =>
        obtain rfl := Option.some.inj hse
        exact hs
    | problem p | stepBack distance => cases hse
  cases h with
  | all => exact hevent _ he
  | cut before s after f hsignals hs =>
      rw [hsignals]
      exact List.mem_append_left _ (hevent _ he)

/-- **Whatever a parse delivers is well-formed**, by either grammar, with every handler and also
where the handler gives up. -/
theorem ErrorHandler.parseText_wellFormed {σ : Type} (h : ErrorHandler σ) (state : σ)
    (o : ParseOptions) (g : Grammar) (text source : String) :
    ∀ e ∈ (h.parseText state o g text source).events, e.WellFormed := by
  intro e he
  unfold parseText at he
  split at he
  · cases he
  · have hsignal := (h.received_receive o.capacity state (parseSignals g text source)).mem he
    exact wellFormed_parseSignals g text source _ hsignal

/-- Names written with capital letters, in a text that the handler gives up behind them. -/
theorem ErrorHandler.parseText_wellFormed_capitals :
    ∃ e : Event, e ∈ (Handler.strict.errorHandler.parseText [] .default .sheet
        "a:NOT(.b)\x7bC:D(1);;\x7d" "").events ∧
      e = .declaration ⟨"c", [.function "d" [.quantity "1" .integer ⟨1, 15, 15, ""⟩]
        ⟨1, 13, 13, ""⟩], false, ⟨1, 11, 11, ""⟩⟩ ∧
      e.WellFormed := by
  have hevent : (Handler.strict.errorHandler.parseText [] .default .sheet
      "a:NOT(.b)\x7bC:D(1);;\x7d" "").events[2]? =
        some (.declaration ⟨"c", [.function "d" [.quantity "1" .integer ⟨1, 15, 15, ""⟩]
          ⟨1, 13, 13, ""⟩], false, ⟨1, 11, 11, ""⟩⟩) := by
    with_unfolding_all rfl
  have hmem := List.mem_of_getElem? hevent
  exact ⟨_, hmem, rfl, ErrorHandler.parseText_wellFormed _ _ _ _ _ _ _ hmem⟩

end EpubStyle
