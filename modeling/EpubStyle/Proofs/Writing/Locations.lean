import EpubStyle.Proofs.Writing.Strokes

/-!
# Events without their locations

`Event.unlocated` gives every construct of an event the same location. Nothing else depends on
locations: what is written for events (`eventStrokes_unlocated`), what a place in the grammar
permits (`Context.permits_unlocated`), and whether the pseudo-elements of a selector are right
(`Selector.pseudoElementFault?_unlocated`).
-/

set_option autoImplicit false

namespace EpubStyle

/-! ## The same location everywhere -/

namespace Construct

mutual

/-- A construct with the same location everywhere. -/
def unlocated : Construct → Construct
  | atom kind value _ => atom kind value .start
  | combinator kind _ => combinator kind .start
  | matching operator _ => matching operator .start
  | quantity value measure _ => quantity value measure .start
  | atRule name parameters hasBlock _ => atRule name (unlocatedEach parameters) hasBlock .start
  | function name arguments _ => function name (unlocatedEach arguments) .start
  | declaration name value important _ => declaration name (unlocatedEach value) important .start
  | selector components _ => selector (unlocatedEach components) .start
  | sequence components _ => sequence (unlocatedEach components) .start
  | attributeSelector components _ => attributeSelector (unlocatedEach components) .start
  | group delimiter components _ => group delimiter (unlocatedEach components) .start
  | pseudo kind name _ => pseudo kind name .start
  | pseudoFunction kind name arguments _ =>
      pseudoFunction kind name (unlocatedEach arguments) .start

/-- Constructs with the same location everywhere. -/
def unlocatedEach : List Construct → List Construct
  | [] => []
  | c :: cs => unlocated c :: unlocatedEach cs

end

theorem unlocatedEach_eq_map (cs : List Construct) : unlocatedEach cs = cs.map unlocated := by
  induction cs with
  | nil => rfl
  | cons c cs ih => rw [unlocatedEach, ih, List.map_cons]

/-! ## What does not depend on locations -/

@[simp] theorem isTypeSelector_unlocated (c : Construct) :
    c.unlocated.isTypeSelector = c.isTypeSelector := by
  cases c with
  | atom kind value l => cases kind <;> rfl
  | _ => rfl

@[simp] theorem isPseudoElement_unlocated (c : Construct) :
    c.unlocated.isPseudoElement = c.isPseudoElement := by
  cases c with
  | pseudo kind name l | pseudoFunction kind name arguments l => cases kind <;> rfl
  | _ => rfl

/-- The members of a sequence, each with the same location everywhere. -/
theorem sequenceMembers?_unlocated (c : Construct) :
    c.unlocated.sequenceMembers? = c.sequenceMembers?.map (List.map unlocated) := by
  cases c with
  | sequence components l => simp [unlocated, sequenceMembers?, unlocatedEach_eq_map]
  | _ => rfl

mutual

theorem strokes_unlocated (c : Construct) : c.unlocated.strokes = c.strokes := by
  cases c with
  | atom kind value l => cases kind <;> rfl
  | combinator kind l => rfl
  | matching operator l => rfl
  | quantity value measure l => rfl
  | pseudo kind name l => rfl
  | atRule name parameters hasBlock l =>
      simp [unlocated, strokes, strokesEach_unlocated true parameters]
  | function name cs l | declaration name cs important l | selector cs l | sequence cs l
  | attributeSelector cs l | group delimiter cs l | pseudoFunction kind name cs l =>
      simp [unlocated, strokes, strokesJoined_unlocated _ cs]

theorem strokesEach_unlocated (spaced : Bool) (cs : List Construct) :
    strokesEach spaced (unlocatedEach cs) = strokesEach spaced cs := by
  cases cs with
  | nil => rfl
  | cons c cs =>
      simp [unlocatedEach, strokesEach, strokes_unlocated c, strokesEach_unlocated spaced cs]

theorem strokesJoined_unlocated (spaced : Bool) (cs : List Construct) :
    strokesJoined spaced (unlocatedEach cs) = strokesJoined spaced cs := by
  cases cs with
  | nil => rfl
  | cons c cs =>
      simp [unlocatedEach, strokesJoined, strokes_unlocated c, strokesEach_unlocated spaced cs]

end

end Construct

/-- What a place of the grammar permits does not depend on locations. -/
theorem Context.permits_unlocated {context : Context} (h : context ∈ Context.all) (c : Construct) :
    context.permits c.unlocated = context.permits c := by
  simp only [Context.all, List.mem_cons, List.not_mem_nil, or_false] at h
  cases c with
  | atom kind value l => rcases h with rfl | rfl | rfl | rfl | rfl | rfl <;> cases kind <;> rfl
  | pseudo kind name l | pseudoFunction kind name arguments l =>
      rcases h with rfl | rfl | rfl | rfl | rfl | rfl <;> cases kind <;> rfl
  | _ => rcases h with rfl | rfl | rfl | rfl | rfl | rfl <;> rfl

theorem Context.permits_congr {context : Context} (h : context ∈ Context.all) {c d : Construct}
    (heq : c.unlocated = d.unlocated) : context.permits c = context.permits d := by
  rw [← permits_unlocated h c, heq, permits_unlocated h d]

/-- A declaration with the same location everywhere. -/
def Declaration.unlocated (d : Declaration) : Declaration :=
  ⟨d.name, Construct.unlocatedEach d.value, d.important, .start⟩

/-- An at-rule with the same location everywhere. -/
def AtRule.unlocated (r : AtRule) : AtRule :=
  ⟨r.name, Construct.unlocatedEach r.parameters, r.hasBlock, .start⟩

/-- A selector with the same location everywhere. -/
def Selector.unlocated (s : Selector) : Selector := ⟨Construct.unlocatedEach s.components, .start⟩

/-- What is wrong with the pseudo-elements of a selector does not depend on locations. -/
theorem Selector.pseudoElementFault?_unlocated (s : Selector) :
    s.unlocated.pseudoElementFault? = s.pseudoElementFault? := by
  have hsequences : s.unlocated.sequences = s.sequences.map (List.map Construct.unlocated) := by
    simp only [sequences, unlocated, Construct.unlocatedEach_eq_map, List.filterMap_map,
      List.map_filterMap]
    congr 1
    funext c
    exact c.sequenceMembers?_unlocated
  have hflatten : s.unlocated.sequences.flatten = s.sequences.flatten.map Construct.unlocated := by
    rw [hsequences, List.map_flatten]
  rw [pseudoElementFault?, pseudoElementFault?, hflatten, hsequences]
  simp [List.countP_map, Function.comp_def, ← List.map_dropLast]

/-- An event with the same location everywhere. -/
def Event.unlocated : Event → Event
  | start => start
  | finish => finish
  | atRule r => atRule r.unlocated
  | endAtRule name => endAtRule name
  | selectors list => selectors (list.map Selector.unlocated)
  | endSelectors list => endSelectors (list.map Selector.unlocated)
  | declaration d => declaration d.unlocated

theorem selectorStrokes_unlocated (list : List Selector) :
    selectorStrokes (list.map Selector.unlocated) = selectorStrokes list := by
  have hone (s : Selector) : s.unlocated.toConstruct.strokes = s.toConstruct.strokes :=
    Construct.strokes_unlocated s.toConstruct
  induction list with
  | nil => rfl
  | cons s rest ih =>
      cases rest with
      | nil => exact hone s
      | cons s' rest => simp [selectorStrokes, hone, ← ih]

/-- **What is written does not depend on locations.** -/
theorem eventStrokes_unlocated (es : List Event) (blocks : List Bool) :
    eventStrokes blocks (es.map Event.unlocated) = eventStrokes blocks es := by
  induction es generalizing blocks with
  | nil => rfl
  | cons e es ih =>
      have hdeclaration (d : Declaration) :
          d.unlocated.toConstruct.strokes = d.toConstruct.strokes :=
        Construct.strokes_unlocated d.toConstruct
      have hrule (r : AtRule) : r.unlocated.toConstruct.strokes = r.toConstruct.strokes :=
        Construct.strokes_unlocated r.toConstruct
      cases e with
      | start | finish => exact ih blocks
      | selectors list =>
          simp [Event.unlocated, eventStrokes, selectorStrokes_unlocated, ih]
      | endSelectors list => simp [Event.unlocated, eventStrokes, ih]
      | declaration d => simp [Event.unlocated, eventStrokes, hdeclaration, ih]
      | atRule r =>
          have hblock : r.unlocated.hasBlock = r.hasBlock := rfl
          simp [Event.unlocated, eventStrokes, hrule, hblock, ih]
      | endAtRule name => simp [Event.unlocated, eventStrokes, ih]

end EpubStyle
