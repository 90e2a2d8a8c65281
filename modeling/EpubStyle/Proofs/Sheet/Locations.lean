import EpubStyle.Proofs.Sheet.Signals
import EpubStyle.Proofs.Token.Notes

/-!
# Where problems are

The machine of style sheets makes up no locations. A problem of the grammar is at a token that was
read, or at the start of the text if there is none (`Sheet.within_signals`). The machine may report
a location long after it has read it, so the tokens and locations that it keeps are part of the
invariant: the token taken last, the start of the current selector, and the first token of a type
selector or of the value of an attribute.

A scanner counts lines and columns from one, at each token and at each fault. So does therefore all
that happens while a style sheet is parsed (`counted_parseSignals`).
-/

set_option autoImplicit false

namespace EpubStyle

section Within

variable (L : Location → Prop)

/-- Problems are at such locations. -/
def Signal.Within : Signal → Prop
  | problem p => L p.location
  | event _ | stepBack _ => True

/-- The locations that a phase of a selector may still report. -/
def SelectorPhase.Within : SelectorPhase → Prop
  | typing _ start _ | attributeNested _ _ start _ => L start.location
  | _ => True

/-- The locations that selectors may still report. -/
structure Selecting.Within (s : Selecting) : Prop where
  location : L s.location
  phase : s.phase.Within L

/-- The locations behind a step of selectors. -/
def SelectingStep.Within : SelectingStep → Prop
  | pending s => s.Within L
  | complete _ => True
  | rejected p => L p.location

/-- The locations that a style sheet may still report in its phase. -/
def SheetPhase.Within : SheetPhase → Prop
  | selecting s => s.Within L
  | _ => True

/-- The locations that a style sheet may still report. -/
structure Sheet.Within (m : Sheet) : Prop where
  last : ∀ t ∈ m.last, L t.location
  phase : m.phase.Within L

/-- A step keeps the invariant and reports such locations. -/
structure SheetStep.Within (step : SheetStep) : Prop where
  state : step.1.Within L
  signals : ∀ s ∈ step.2, s.Within L

end Within

variable {L : Location → Prop}

/-! ## Selectors -/

namespace Selecting.Within

variable {s : Selecting} {t start : Token}

theorem enter (h : s.Within L) {phase : SelectorPhase} (hphase : phase.Within L) :
    (s.enter phase).Within L :=
  ⟨h.location, hphase⟩

/-- What precedes the current sequence does not count. -/
theorem ofLocation {location : Location} (h : L location) :
    (Selecting.ofLocation location).Within L :=
  ⟨h, trivial⟩

theorem place (h : s.Within L) (c : Construct) (ht : L t.location) : (s.place c t).Within L := by
  unfold Selecting.place
  split
  · split
    · exact ht
    · exact ⟨h.location, trivial⟩
  · split
    · exact h.enter trivial
    · exact ht

theorem placeType (h : s.Within L) (hstart : L start.location) (use : TypeUse) (text : String) :
    (s.placeType start use text).Within L := by
  cases use with
  | simple => exact h.place _ hstart
  | «attribute» bracket => exact h.enter trivial

theorem startType? (h : s.Within L) (ht : L t.location) {use : TypeUse} {step : SelectingStep}
    (hstep : s.startType? use t = some step) : step.Within L := by
  unfold Selecting.startType? at hstep
  split at hstep
  · obtain rfl := Option.some.inj hstep
    exact h.enter ht
  · split at hstep
    · obtain rfl := Option.some.inj hstep
      exact h.enter ht
    · cases hstep

theorem startSimple (h : s.Within L) (ht : L t.location) : (s.startSimple t).Within L := by
  unfold Selecting.startSimple
  split
  · next step hstep => exact h.startType? ht hstep
  split
  · exact h.place _ ht
  · exact h.place _ ht
  · exact h.place _ ht
  · split
    · exact h.enter trivial
    · split
      · exact h.enter trivial
      · exact ht

/-- A sequence starts at its first token, and so may a selector. -/
theorem startSequence (h : s.Within L) (ht : L t.location) : (s.startSequence t).Within L := by
  have hsequence : Selecting.Within L { s with sequence := [], sequenceStart := t.location } :=
    ⟨h.location, h.phase⟩
  simp only [Selecting.startSequence]
  split
  · exact startSimple ⟨ht, h.phase⟩ ht
  · exact hsequence.startSimple ht

theorem endSelector (h : s.Within L) :
    (∀ p, s.endSelector = .error p → L p.location) ∧
      ∀ s', s.endSelector = .ok s' → s'.Within L := by
  unfold Selecting.endSelector
  split
  · constructor
    · rintro p ⟨⟩
      exact h.location
    · rintro s' ⟨⟩
  · constructor
    · rintro p ⟨⟩
    · rintro s' ⟨⟩
      exact ⟨h.location, trivial⟩

theorem stepBetween (h : s.Within L) (spaced : Bool) (ht : L t.location) :
    (s.stepBetween spaced t).Within L := by
  have hend : s.endSequence.Within L := ⟨h.location, h.phase⟩
  unfold Selecting.stepBetween
  simp only
  split
  · cases hselector : s.endSequence.endSelector with
    | ok s' => trivial
    | error p => exact hend.endSelector.1 p hselector
  split
  · cases hselector : s.endSequence.endSelector with
    | ok s' => exact hend.endSelector.2 s' hselector
    | error p => exact hend.endSelector.1 p hselector
  split
  · exact ⟨hend.location, trivial⟩
  · split
    · exact startSequence ⟨hend.location, hend.phase⟩ ht
    · exact ht

theorem stepTyping (h : s.Within L) (hstart : L start.location) (use : TypeUse)
    (ht : L t.location) (phase : TypePhase) : (s.stepTyping start use t phase).Within L := by
  cases phase with
  | name text => exact h.enter hstart
  | bar => exact h.placeType hstart use _
  | qualified text =>
      simp only [Selecting.stepTyping]
      split
      · exact h.placeType hstart use _
      · exact ht

theorem stepPseudo (h : s.Within L) (head : PseudoHead) (ht : L t.location) :
    (s.stepPseudo head t).Within L := by
  unfold Selecting.stepPseudo
  split
  · exact h.enter trivial
  split
  · exact h.place _ ht
  · split
    · exact ⟨h.location, trivial⟩
    · exact h.enter trivial
  · exact ht

theorem stepArgument (h : s.Within L) (head : PseudoHead) (name : String)
    (members : List Construct) (ht : L t.location) (b : Building) :
    (s.stepArgument head name members t b).Within L := by
  cases b with
  | complete c | pending n => exact h.enter trivial
  | rejected => exact ht

/-- The value of an attribute is blamed on its first token. -/
theorem stepAttributeValue (h : s.Within L) (bracket : Location) (parts : List Construct)
    (hstart : L start.location) (b : Building) :
    (s.stepAttributeValue bracket parts start b).Within L := by
  cases b with
  | complete c => exact h.enter trivial
  | pending n => exact h.enter hstart
  | rejected => exact hstart

theorem closeNegation (h : s.Within L) (argument : Construct) (ht : L t.location) :
    (s.closeNegation argument t).Within L := by
  unfold Selecting.closeNegation
  split
  · exact ht
  · next head outer _ =>
      have houter : Selecting.Within L { s with negations := outer } := ⟨h.location, h.phase⟩
      exact houter.place _ ht

theorem settle (h : s.Within L) {next : Option Token} (hnext : ∀ t ∈ next, L t.location) :
    (s.settle next).Within L := by
  have hphase := h.phase
  unfold Selecting.settle
  split
  · next text start use htyping =>
      rw [htyping] at hphase
      split
      · exact h
      · exact h.placeType hphase use text
  · split
    · split
      · exact h
      · exact hnext _ rfl
    · exact h
  · exact h

/-- **One more token keeps the locations of selectors.** -/
theorem step (h : s.Within L) (ht : L t.location) : (s.step t).Within L := by
  have hphase := h.phase
  unfold Selecting.step
  -- The phases in their order; only a type selector and the value of an attribute keep the token
  -- that they may blame.
  split
  · exact h.startSequence ht
  · split
    · exact h.enter trivial
    split
    · exact h.enter trivial
    split
    · exact h.stepBetween false ht
    · exact h.startSimple ht
  · exact h.stepBetween _ ht
  · next phase start use htyping =>
      rw [htyping] at hphase
      exact h.stepTyping hphase use ht phase
  · split
    · next step hstep => exact h.startType? ht hstep
    · exact ht
  · split
    · exact h.place _ ht
    · split
      · exact h.enter trivial
      · exact ht
  · exact h.stepAttributeValue _ _ ht _
  · next bracket parts start n hnested =>
      rw [hnested] at hphase
      exact h.stepAttributeValue bracket parts hphase _
  · split
    · exact h.place _ ht
    · exact ht
  · exact h.stepPseudo _ ht
  · split
    · exact h.place _ ht
    · split
      · exact ht
      · exact h.stepArgument _ _ _ ht _
  · exact h.stepArgument _ _ _ ht _
  · exact h.startSimple ht
  · split
    · exact h.closeNegation _ ht
    · exact ht

end Selecting.Within

/-! ## Declarations -/

/-- A declaration is blamed on the token that ends it or on the one before. -/
theorem Reading.within_of_rejected {setting : Setting} {r : Reading} {last t : Token} {p : Problem}
    {depth : Nat} (hlast : L last.location) (ht : L t.location)
    (h : r.step setting last t = .rejected p depth) : L p.location := by
  have htake : ∀ d b, Reading.take d t b = .rejected p depth → L p.location := by
    intro d b hb
    cases b <;> cases hb
    exact ht
  cases r with
  | named name =>
      simp only [Reading.step] at h
      split at h <;> cases h
      exact ht
  | valued d =>
      simp only [Reading.step, stepValued] at h
      split at h
      · cases h
        exact ht
      split at h
      · split at h <;> cases h
        exact hlast
      split at h
      · cases h
      · exact htake _ _ h
  | nested d n => exact htake _ _ h

/-! ## Style sheets -/

namespace Sheet.Within

variable {m : Sheet} {t : Token}

theorem enter (h : m.Within L) {phase : SheetPhase} {signals : List Signal}
    (hphase : phase.Within L) (hsignals : ∀ s ∈ signals, s.Within L) :
    SheetStep.Within L (m.enter phase signals) :=
  ⟨⟨h.last, hphase⟩, hsignals⟩

/-- Most steps report nothing. -/
theorem goOn (h : m.Within L) {phase : SheetPhase} (hphase : phase.Within L) :
    SheetStep.Within L (m.enter phase []) :=
  h.enter hphase (List.forall_mem_nil _)

theorem stay (h : m.Within L) : SheetStep.Within L (m, []) := ⟨h, List.forall_mem_nil _⟩

theorem afterSelecting (h : m.Within L) (t : Token) {step : SelectingStep}
    (hstep : step.Within L) : SheetStep.Within L (m.afterSelecting t step) := by
  cases step with
  | pending s => exact h.goOn hstep
  | complete list => exact h.enter trivial (List.forall_mem_singleton.2 trivial)
  | rejected p =>
      simp only [Sheet.afterSelecting, skipRule]
      split <;> exact h.enter trivial (List.forall_mem_singleton.2 hstep)

theorem stepSkippingRule (h : m.Within L) (depth : Nat) (t : Token) :
    SheetStep.Within L (m.stepSkippingRule depth t) := by
  unfold Sheet.stepSkippingRule
  split
  · exact h.goOn trivial
  split
  · split <;> exact h.goOn trivial
  · exact h.stay

theorem stepBlock (h : m.Within L) (ht : L t.location) {owner : BlockOwner} {phase : BlockPhase}
    (hphase : m.phase = .block owner phase) : SheetStep.Within L (m.stepBlock owner t phase) := by
  obtain ⟨signals, next, hturn, hstep⟩ := exists_blockTurn hphase t
  rw [hstep]
  refine ⟨⟨?_, ?_⟩, forall_mem_goOn.2 ⟨?_, fun _ => trivial⟩⟩
  · cases next <;> exact h.last
  · cases next <;> trivial
  · cases hturn with
    | nameless => exact List.forall_mem_singleton.2 ht
    | completes => exact List.forall_mem_singleton.2 trivial
    | rejects hrejected =>
        -- A problem is at the last token, or at this one if it is the first.
        have hlast : L (m.last.getD t).location := by
          cases hm : m.last with
          | none => exact ht
          | some last => exact h.last last hm
        exact List.forall_mem_singleton.2 (Reading.within_of_rejected hlast ht hrejected)
    | ends | name | takes | opens | closes | skips | skipsNested => exact List.forall_mem_nil _

theorem afterParameter (h : m.Within L) (name : String) (l : Location)
    (parameters : List Construct) (ht : L t.location) (b : Building) :
    SheetStep.Within L (m.afterParameter name l parameters t b) := by
  cases b with
  | complete c | pending n => exact h.goOn trivial
  | rejected =>
      refine h.enter ?_ (List.forall_mem_singleton.2 ht)
      split <;> trivial

theorem stepHeader (h : m.Within L) (name : String) (l : Location) (parameters : List Construct)
    (nesting : Option Nesting) (ht : L t.location) (ahead : List Token) :
    SheetStep.Within L (m.stepHeader name l parameters nesting t ahead) := by
  obtain ⟨step, hturn, hstep⟩ := m.exists_headerTurn name l parameters nesting t ahead
  rw [hstep]
  cases hturn with
  | parameter => exact h.afterParameter name l parameters ht _
  | ends => exact h.enter trivial (by simp [atRuleEvent, Signal.Within])
  | opensStatements => exact ⟨⟨h.last, trivial⟩, List.forall_mem_singleton.2 trivial⟩
  | opensDeclarations => exact h.enter trivial (List.forall_mem_singleton.2 trivial)

theorem stepSkippingAtRule (h : m.Within L) (depth : Nat) (t : Token) :
    SheetStep.Within L (m.stepSkippingAtRule depth t) := by
  unfold Sheet.stepSkippingAtRule
  split
  · exact h.goOn trivial
  split
  · exact h.goOn trivial
  split
  · split <;> exact h.goOn trivial
  · exact h.stay

theorem stepStatement (h : m.Within L) (ht : L t.location) :
    SheetStep.Within L (m.stepStatement t) := by
  unfold Sheet.stepStatement
  split
  · exact ⟨⟨h.last, h.phase⟩, List.forall_mem_singleton.2 trivial⟩
  · split
    · exact h.goOn trivial
    · exact h.afterSelecting t ((Selecting.Within.ofLocation ht).step ht)

theorem settle (h : m.Within L) {next : Option Token} (hnext : ∀ t ∈ next, L t.location) :
    SheetStep.Within L (m.settle next) := by
  have hphase := h.phase
  unfold Sheet.settle
  split
  · next s hs =>
      rw [hs] at hphase
      have hsettle := Selecting.Within.settle hphase hnext
      split
      · next s' hs' => exact h.goOn (by rwa [hs'] at hsettle)
      · exact h.stay
      · next p hp =>
          rw [hp] at hsettle
          exact h.enter trivial (List.forall_mem_singleton.2 hsettle)
  · exact h.stay

/-- Another token is remembered. -/
theorem remember {step : SheetStep} (h : step.Within L) {last : Option Token}
    (hlast : ∀ u ∈ last, L u.location) :
    SheetStep.Within L ({ step.1 with last := last }, step.2) :=
  ⟨⟨hlast, h.state.phase⟩, h.signals⟩

theorem take (h : m.Within L) (ht : L t.location) (ahead : List Token) :
    SheetStep.Within L (m.take t ahead) := by
  have hphase := h.phase
  have htoken : ∀ u ∈ some t, L u.location := by
    rintro u ⟨⟩
    exact ht
  unfold Sheet.take
  apply remember
  · split
    · exact h.stepStatement ht
    · next s hs =>
        rw [hs] at hphase
        exact h.afterSelecting t (Selecting.Within.step hphase ht)
    · exact h.stepSkippingRule _ t
    · exact h.stepHeader _ _ _ _ ht ahead
    · exact h.stepSkippingAtRule _ t
    · next hphase => exact h.stepBlock ht hphase
  -- Blanks between sequences are not remembered, every other token is.
  · split
    · split
      · split
        · exact h.last
        · exact htoken
      · exact htoken
    · exact htoken

/-- **One more token keeps the locations of a style sheet.** -/
theorem step (h : m.Within L) (ht : L t.location) (ahead : List Token) :
    SheetStep.Within L (m.step t ahead) := by
  have htoken : ∀ u ∈ some t, L u.location := by
    rintro u ⟨⟩
    exact ht
  have hsettled := h.settle htoken
  simp only [Sheet.step]
  split
  · exact hsettled
  · have htaken := hsettled.state.take ht ahead
    refine ⟨htaken.state, ?_⟩
    intro s hs
    rcases List.mem_append.1 hs with hs | hs
    · exact hsettled.signals s hs
    · exact htaken.signals s hs

/-- What is missing where the tokens end is missed behind the last one. -/
theorem finish (h : m.Within L) (hstart : L Location.start) : ∀ s ∈ m.finish, s.Within L := by
  have hnone : ∀ t ∈ (none : Option Token), L t.location := by rintro t ⟨⟩
  have hsettled := h.settle hnone
  intro s hs
  simp only [Sheet.finish, List.mem_append] at hs
  -- The selector that the end settles, an at-rule still in its header, what is missing, and the
  -- events that close what is open.
  rcases hs with ((hs | hs) | hs) | hs
  · exact hsettled.signals s hs
  · simp only [unopened] at hs
    split at hs
    · rw [List.mem_singleton.1 hs]
      trivial
    · cases hs
  · split at hs
    · rw [List.mem_singleton.1 hs]
      change L (Sheet.lastLocation _)
      unfold lastLocation
      cases hlast : (m.settle none).1.last with
      | none => exact hstart
      | some t => exact hsettled.state.last t hlast
    · cases hs
  · simp only [closings, List.mem_map] at hs
    obtain ⟨e, -, rfl⟩ := hs
    trivial

/-- **A run reports locations of tokens**, or the start if there are none. -/
theorem run (ts : List Token) (h : m.Within L) (hstart : L Location.start)
    (hts : ∀ t ∈ ts, L t.location) : ∀ s ∈ m.run ts, s.Within L := by
  induction ts generalizing m with
  | nil => exact h.finish hstart
  | cons t ts ih =>
      have hstep := h.step (hts t (List.mem_cons_self ..)) ts
      intro s hs
      rcases List.mem_append.1 hs with hs | hs
      · exact hstep.signals s hs
      · exact ih hstep.state (fun u hu => hts u (List.mem_cons_of_mem _ hu)) s hs

end Sheet.Within

/-- **Problems with a style sheet are at its tokens**, or at the start of its text. -/
theorem Sheet.within_signals {ts : List Token} (hstart : L Location.start)
    (hts : ∀ t ∈ ts, L t.location) : ∀ s ∈ Sheet.signals ts, s.Within L := by
  have hinitial : Sheet.initial.Within L := ⟨by rintro t ⟨⟩, trivial⟩
  intro s hs
  simp only [signals, List.mem_cons, List.mem_append, List.not_mem_nil, or_false] at hs
  rcases hs with rfl | hs | rfl
  · trivial
  · exact hinitial.run ts hstart hts s hs
  · trivial

/-! ## Lines and columns -/

/-- The line and the column are counted from one. -/
structure Location.Counted (l : Location) : Prop where
  line : 1 ≤ l.line
  column : 1 ≤ l.column

namespace Text.Place

/-- A reader counts from one. -/
structure Counted (p : Place) : Prop where
  line : 1 ≤ p.line
  column : 1 ≤ p.column

variable {p : Place}

theorem Counted.step (h : p.Counted) (c : Option Char) : (p.step c).Counted := by
  have hline := h.line
  have hcolumn := h.column
  simp only [Place.step]
  split
  · exact ⟨hline, hcolumn⟩
  split
  · exact ⟨Nat.le_succ_of_le hline, hcolumn⟩
  split
  · exact ⟨hline, Nat.le_refl 1⟩
  split
  · exact ⟨hline, Nat.le_succ_of_le hcolumn⟩
  · exact ⟨hline, hcolumn⟩

theorem Counted.advance (h : p.Counted) (n : Nat) (cs : List Char) : (p.advance n cs).Counted := by
  induction n generalizing p cs with
  | zero => exact h
  | succ n ih =>
      cases cs with
      | nil => exact ih (h.step none) []
      | cons c cs => exact ih (h.step (some c)) cs

theorem Counted.location (h : p.Counted) (source : String) : (p.location source).Counted :=
  ⟨h.line, h.column⟩

end Text.Place

/-- Tokens and faults of a text are counted. -/
theorem counted_scanFrom (source : String) {p : Text.Place} (h : p.Counted) (cs : List Char) :
    ∀ s ∈ scanFrom source p cs, s.token.location.Counted ∧
      ∀ e ∈ s.events, e.toSignal.Within Location.Counted := by
  fun_induction scanFrom source p cs with
  | case1 => exact List.forall_mem_nil _
  | case2 p c cs l ih =>
      intro s hs
      rcases List.mem_cons.1 hs with rfl | hs
      · refine ⟨(h.advance 1 (c :: cs)).location source, ?_⟩
        intro e he
        obtain ⟨n, -, rfl⟩ := List.mem_map.1 he
        cases n with
        | fault steps code arguments => exact (h.advance steps (c :: cs)).location source
        | stepBack distance => trivial
      · exact ih (h.advance _ _) s hs

/-- **All problems with a style sheet are counted**, those of the scanner and those of the
grammar. -/
theorem counted_parseSignals (text source : String) :
    ∀ s ∈ parseSignals .sheet text source, s.Within Location.Counted := by
  have hstart : Text.Place.Counted {} := ⟨Nat.le_refl 1, Nat.le_refl 1⟩
  have hscan := counted_scanFrom source hstart text.toList
  intro s hs
  rcases List.mem_append.1 hs with hs | hs
  · obtain ⟨t, ht, hevents⟩ := List.mem_flatMap.1 hs
    obtain ⟨e, he, rfl⟩ := List.mem_map.1 hevents
    exact (hscan t ht).2 e he
  · apply Sheet.within_signals ⟨Nat.le_refl 1, Nat.le_refl 1⟩ _ s hs
    intro t ht
    obtain ⟨u, hu, rfl⟩ := List.mem_map.1 ht
    exact (hscan u hu).1

end EpubStyle
