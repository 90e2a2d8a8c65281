import EpubStyle.Grammar.Selecting
import EpubStyle.Proofs.Concrete.Tokens
import EpubStyle.Proofs.Token.Openings
import EpubStyle.Proofs.WellFormed.Values

/-!
# Well-formed selectors

A selector is made of sequences of simple selectors with a combinator between any two
(`Alternates`), and at most one pseudo-element stands in it, in its last sequence
(`Selector.WellFormed`). Every selector that a list of selectors completes is well-formed
(`Selecting.Sound.step`).

What has been read of a list is kept latest first, so the invariant is about lists in reverse: the
components of the current selector are sequences, each with the combinator behind it (`Linked`), and
only the last member of the current sequence may be a type selector. Each phase adds what it holds
of the simple selector under way (`SelectorPhase.Sound`). Pseudo-elements are counted only where a
selector ends.
-/

set_option autoImplicit false

namespace EpubStyle

open Text

/-! ## Simple selectors -/

/-- What stands between the brackets of an attribute selector: a name, or a name that is compared
with a word or a string. -/
inductive AttributeParts : List Construct → Prop
  | presence (name : String) (l : Location) : AttributeParts [.atom .typeSelector name l]
  | comparison (name : String) (l : Location) (operator : MatchOperator) (l' : Location)
      (kind : AtomKind) (value : String) (l'' : Location)
      (hkind : kind = .keyword ∨ kind = .string) :
      AttributeParts
        [.atom .typeSelector name l, .matching operator l', .atom kind value l'']

/-- A pseudo selector with arguments that is no negation. -/
structure PlainArguments (name : String) (arguments : List Construct) : Prop where
  uncapitalized : Uncapitalized name
  not_negation : name ≠ ":not" ∧ name ≠ "::not"
  arguments : ∀ c ∈ arguments, c.IsValue ∧ Context.pseudoArgument.permits c = true

/-- A simple selector. -/
inductive Construct.IsSimple : Construct → Prop
  | typeSelector (value : String) (l : Location) : IsSimple (.atom .typeSelector value l)
  | hashName (value : String) (l : Location) : IsSimple (.atom .hashName value l)
  | className (value : String) (l : Location) : IsSimple (.atom .className value l)
  /-- A percentage, which is a selector inside an at-rule for key frames. -/
  | percentage (value : String) (l : Location) : IsSimple (.quantity value .percentage l)
  | attributeSelector (parts : List Construct) (l : Location) (hparts : AttributeParts parts) :
      IsSimple (.attributeSelector parts l)
  | pseudo (kind : PseudoKind) (name : String) (l : Location) : IsSimple (.pseudo kind name l)
  | negation (kind : PseudoKind) (argument : Construct) (l : Location)
      (hargument : argument.IsSimple) (hpermits : Context.negation.permits argument = true) :
      IsSimple (.pseudoFunction kind (kind.colons ++ "not") [argument] l)
  | pseudoFunction (kind : PseudoKind) (name : String) (arguments : List Construct) (l : Location)
      (harguments : PlainArguments name arguments) :
      IsSimple (.pseudoFunction kind name arguments l)

/-- The members of a sequence: simple selectors, of which only the first may be a type selector. -/
structure SequenceMembers (members : List Construct) : Prop where
  nonempty : members ≠ []
  simple : ∀ c ∈ members, c.IsSimple
  typeFirst : ∀ c ∈ members.tail, c.isTypeSelector = false

/-- Sequences with a combinator between any two. -/
inductive Alternates : List Construct → Prop
  | last (members : List Construct) (l : Location) (h : SequenceMembers members) :
      Alternates [.sequence members l]
  | link (members : List Construct) (l : Location) (kind : Combinator) (l' : Location)
      (rest : List Construct) (h : SequenceMembers members) (hrest : Alternates rest) :
      Alternates (.sequence members l :: .combinator kind l' :: rest)

/-- A selector as it may be delivered. -/
structure Selector.WellFormed (s : Selector) : Prop where
  alternates : Alternates s.components
  pseudoElement : s.sequences.flatten.countP Construct.isPseudoElement ≤ 1
  pseudoElementLast : ∀ members ∈ s.sequences.dropLast, ∀ c ∈ members, c.isPseudoElement = false

/-! ## Selectors under way -/

/-- Sequences, each with the combinator behind it, latest first. -/
inductive Linked : List Construct → Prop
  | nil : Linked []
  | cons (kind : Combinator) (l' : Location) (members : List Construct) (l : Location)
      (rest : List Construct) (h : SequenceMembers members) (hrest : Linked rest) :
      Linked (.combinator kind l' :: .sequence members l :: rest)

theorem Linked.alternates {components back : List Construct} (h : Linked components)
    (hback : Alternates back) : Alternates (components.reverse ++ back) := by
  induction h generalizing back with
  | nil => exact hback
  | cons kind l' members l rest hmembers hrest ih =>
      have hnext := ih (Alternates.link members l kind l' back hmembers hback)
      simpa using hnext

/-- What is read of an attribute selector up to its operator. -/
def AttributeOpening (parts : List Construct) : Prop :=
  ∃ name l operator l', parts = [.atom .typeSelector name l, .matching operator l']

/-- What a phase holds of the simple selector under way, and that a sequence which may end is not
empty. -/
def SelectorPhase.Sound (sequence : List Construct) : SelectorPhase → Prop
  | member | between _ => sequence ≠ []
  | attributeOperator _ name => ∃ text l, name = .atom .typeSelector text l
  | attributeValue _ parts => AttributeOpening parts
  | attributeNested _ parts _ n => AttributeOpening parts ∧ n.Sound
  | attributeClose _ parts => AttributeParts parts
  | arguments _ name members => PlainArguments name members
  | argumentNested _ name members n => PlainArguments name members ∧ n.Sound
  | negationClose argument => argument.IsSimple ∧ Context.negation.permits argument = true
  | opening | typing .. | attributeName _ | pseudo _ | negated => True

/-- What is kept of the selectors read so far is well-formed. -/
structure Selecting.Regular (s : Selecting) : Prop where
  finished : ∀ x ∈ s.finished, x.WellFormed
  components : Linked s.components
  members : ∀ c ∈ s.sequence, c.IsSimple
  typeFirst : ∀ c ∈ s.sequence.dropLast, c.isTypeSelector = false

/-- The invariant of a list of selectors. -/
structure Selecting.Sound (s : Selecting) : Prop extends s.Regular where
  phase : s.phase.Sound s.sequence

/-- The list goes on within its invariant, or is complete with well-formed selectors. -/
def SelectingStep.Sound : SelectingStep → Prop
  | pending s => s.Sound
  | complete list => ∀ x ∈ list, x.WellFormed
  | rejected _ => True

/-- The name of a function is empty or begins with something else than a colon. -/
theorem Token.Spelled.head?_functionName {t : Token} (ht : t.Spelled)
    (hkind : t.kind = .function) : t.functionName.toList.head? ≠ some ':' := by
  obtain ⟨name, hname⟩ := ht.function hkind
  have hcolon := ht.colon hkind
  rw [hname, String.toList_append] at hcolon
  rw [functionName_of_text hname, lowerCase, String.toList_map]
  cases hchars : name.toList with
  | nil => simp
  | cons c cs =>
      rw [hchars] at hcolon
      intro hhead
      -- Only a colon has the lower case of one.
      have hlower : c = ':' := eq_of_toLower (by simpa using hhead) (by decide)
      exact hcolon (by simp [hlower])

namespace PlainArguments

/-- A pseudo selector is a negation only if its function is. -/
theorem ofFunction {t : Token} (ht : t.Spelled) (hkind : t.kind = .function)
    (hnot : (t.functionName == "not") = false) (kind : PseudoKind) :
    PlainArguments (kind.colons ++ t.functionName) [] where
  uncapitalized := by
    apply Uncapitalized.append
    · cases kind <;> simp [Uncapitalized, PseudoKind.colons]
    · exact uncapitalized_lowerCase _
  not_negation := by
    have hname : t.functionName.toList ≠ ['n', 'o', 't'] := by
      intro h
      have heq : t.functionName = "not" := by rw [← String.toList_inj, h]; rfl
      simp [heq] at hnot
    have hcolon := ht.head?_functionName hkind
    -- Two colons make no negation, and one makes it only with the name itself.
    cases kind with
    | pseudoElement =>
        refine ⟨fun h => ?_, fun h => hname ?_⟩
        · simp [← String.toList_inj, PseudoKind.colons] at h
        · simpa [← String.toList_inj, PseudoKind.colons] using h
    | pseudoClass =>
        refine ⟨fun h => hname ?_, fun h => hcolon ?_⟩
        · simpa [← String.toList_inj, PseudoKind.colons] using h
        · have hchars : t.functionName.toList = [':', 'n', 'o', 't'] := by
            simpa [← String.toList_inj, PseudoKind.colons] using h
          simp [hchars]
  arguments := by simp

theorem cons {name : String} {members : List Construct} {c : Construct}
    (h : PlainArguments name members) (hc : c.IsValue ∧ Context.pseudoArgument.permits c = true) :
    PlainArguments name (c :: members) where
  uncapitalized := h.uncapitalized
  not_negation := h.not_negation
  arguments := by
    intro d hd
    rcases List.mem_cons.1 hd with rfl | hd
    · exact hc
    · exact h.arguments d hd

end PlainArguments

namespace Selecting

variable {s : Selecting}

theorem sound_ofLocation (l : Location) : (ofLocation l).Sound where
  finished := by simp [ofLocation]
  components := .nil
  members := by simp [ofLocation]
  typeFirst := by simp [ofLocation]
  phase := trivial

/-- Entering a phase asks for what that phase holds. -/
theorem Regular.enter (h : s.Regular) {phase : SelectorPhase} (hphase : phase.Sound s.sequence) :
    (s.enter phase).Sound :=
  ⟨⟨h.finished, h.components, h.members, h.typeFirst⟩, hphase⟩

/-- A simple selector may go wherever it is permitted. -/
theorem Regular.place (h : s.Regular) {c : Construct} (hc : c.IsSimple) (blame : Token) :
    (s.place c blame).Sound := by
  unfold Selecting.place
  split
  · split
    · trivial
    · next htype =>
        refine ⟨⟨h.finished, h.components, ?_, ?_⟩, by simp [SelectorPhase.Sound]⟩
        · intro d hd
          rcases List.mem_cons.1 hd with rfl | hd
          · exact hc
          · exact h.members d hd
        · -- A type selector was placed only if the sequence was empty, and so it comes first.
          intro d hd
          cases hsequence : s.sequence with
          | nil => simp [hsequence] at hd
          | cons e rest =>
              simp only [hsequence, List.dropLast_cons_cons, List.mem_cons] at hd
              rcases hd with rfl | hd
              · simpa [hsequence] using htype
              · exact h.typeFirst d (by rw [hsequence]; exact hd)
  · split
    · next hpermits => exact h.enter ⟨hc, hpermits⟩
    · trivial

theorem Regular.placeType (h : s.Regular) (start : Token) (use : TypeUse) (text : String) :
    (s.placeType start use text).Sound := by
  cases use with
  | simple => exact h.place (.typeSelector text start.location) start
  | «attribute» bracket => exact h.enter ⟨text, start.location, rfl⟩

theorem Regular.startType? (h : s.Regular) {use : TypeUse} {t : Token} {step : SelectingStep}
    (hstep : s.startType? use t = some step) : step.Sound := by
  unfold Selecting.startType? at hstep
  split at hstep
  · cases hstep
    exact h.enter trivial
  · split at hstep
    · cases hstep
      exact h.enter trivial
    · cases hstep

theorem Regular.startSimple (h : s.Regular) (t : Token) : (s.startSimple t).Sound := by
  unfold Selecting.startSimple
  split
  · next step hstep => exact h.startType? hstep
  · split
    · exact h.place (.hashName t.text t.location) t
    · exact h.place (.className t.text t.location) t
    · exact h.place (.percentage t.text t.location) t
    · split
      · exact h.enter trivial
      · split
        · exact h.enter trivial
        · trivial

/-- A new sequence forgets the members of the one before. -/
theorem Regular.startSequence (h : s.Regular) (t : Token) : (s.startSequence t).Sound := by
  simp only [Selecting.startSequence]
  split
  all_goals
    apply Regular.startSimple
    exact ⟨h.finished, h.components, by simp, by simp⟩

/-! ## The end of a sequence -/

/-- The members of the current sequence in their order. -/
theorem Regular.sequenceMembers (h : s.Regular) (hnonempty : s.sequence ≠ []) :
    SequenceMembers s.sequence.reverse where
  nonempty := by simpa using hnonempty
  simple := fun c hc => h.members c (List.mem_reverse.1 hc)
  typeFirst := by
    intro c hc
    rw [List.tail_reverse, List.mem_reverse] at hc
    exact h.typeFirst c hc

/-- A selector whose pseudo-elements have no fault. -/
theorem wellFormed_of_fault {x : Selector} (h : Alternates x.components)
    (hfault : x.pseudoElementFault? = none) : x.WellFormed := by
  unfold Selector.pseudoElementFault? at hfault
  split at hfault
  · cases hfault
  · next hcount =>
      split at hfault
      · cases hfault
      · next hlast =>
          refine ⟨h, Nat.le_of_not_lt hcount, ?_⟩
          intro members hmembers c hc
          rw [← Bool.not_eq_true]
          intro helement
          exact hlast (List.any_eq_true.2 ⟨members, hmembers, List.any_eq_true.2 ⟨c, hc, helement⟩⟩)

/-- A selector joins the finished ones only if it is well-formed. -/
theorem Regular.endSelector (h : s.Regular) (hnonempty : s.sequence ≠ []) {s' : Selecting}
    (hend : s.endSequence.endSelector = .ok s') : s'.Sound := by
  have halternates : Alternates s.endSequence.current.components := by
    have hlast := Alternates.last _ s.sequenceStart (h.sequenceMembers hnonempty)
    simpa [Selecting.current, Selecting.endSequence] using h.components.alternates hlast
  unfold Selecting.endSelector at hend
  split at hend
  · cases hend
  · next hfault =>
      cases hend
      refine ⟨⟨?_, .nil, h.members, h.typeFirst⟩, trivial⟩
      intro x hx
      rcases List.mem_cons.1 hx with rfl | hx
      · exact wellFormed_of_fault halternates hfault
      · exact h.finished x hx

/-- Behind a sequence the list ends, or goes on with a combinator or a comma. -/
theorem Regular.stepBetween (h : s.Regular) (hnonempty : s.sequence ≠ []) (spaced : Bool)
    (t : Token) : (s.stepBetween spaced t).Sound := by
  have hlinked : ∀ kind l, Linked (.combinator kind l :: s.endSequence.components) :=
    fun kind l => .cons kind l _ s.sequenceStart _ (h.sequenceMembers hnonempty) h.components
  simp only [Selecting.stepBetween]
  split
  · split
    · next s' hend =>
        intro x hx
        exact (h.endSelector hnonempty hend).finished x (List.mem_reverse.1 hx)
    · trivial
  split
  · split
    · next s' hend => exact h.endSelector hnonempty hend
    · trivial
  split
  · exact ⟨⟨h.finished, hlinked _ _, h.members, h.typeFirst⟩, trivial⟩
  split
  · apply Regular.startSequence
    exact ⟨h.finished, hlinked _ _, h.members, h.typeFirst⟩
  · trivial

/-! ## Names, attributes and arguments -/

theorem Regular.stepTyping (h : s.Regular) (start : Token) (use : TypeUse) (t : Token)
    (phase : TypePhase) : (s.stepTyping start use t phase).Sound := by
  cases phase with
  | name text => exact h.enter trivial
  | bar => exact h.placeType start use _
  | qualified text =>
      simp only [Selecting.stepTyping]
      split
      · exact h.placeType start use _
      · trivial

theorem Regular.stepPseudo (h : s.Regular) (head : PseudoHead) {t : Token} (ht : t.Spelled) :
    (s.stepPseudo head t).Sound := by
  unfold Selecting.stepPseudo
  split
  · exact h.enter trivial
  · split
    · exact h.place (.pseudo head.kind _ head.location) t
    · next hkind =>
        split
        · exact ⟨⟨h.finished, h.components, h.members, h.typeFirst⟩, trivial⟩
        · next hnot => exact h.enter (.ofFunction ht hkind (by simpa using hnot) head.kind)
    · trivial

theorem Regular.stepArgument (h : s.Regular) (head : PseudoHead) {name : String}
    {members : List Construct} (hmembers : PlainArguments name members) (t : Token) {b : Building}
    (hb : b.Sound .pseudoArgument) : (s.stepArgument head name members t b).Sound := by
  cases b with
  | complete c => exact h.enter (hmembers.cons hb)
  | pending n => exact h.enter ⟨hmembers, hb⟩
  | rejected => trivial

/-- The value of an attribute is a word or a string. -/
theorem attributeParts_of_opening {parts : List Construct} (hparts : AttributeOpening parts)
    {c : Construct} (hc : Context.attributeValue.permits c = true) :
    AttributeParts (parts ++ [c]) := by
  obtain ⟨name, l, operator, l', rfl⟩ := hparts
  cases c with
  | atom kind value l'' =>
      refine .comparison name l operator l' kind value l'' ?_
      cases kind <;> simp [Context.attributeValue] at hc ⊢
  | _ => simp [Context.attributeValue] at hc

theorem Regular.stepAttributeValue (h : s.Regular) (bracket : Location) {parts : List Construct}
    (hparts : AttributeOpening parts) (start : Token) {b : Building}
    (hb : b.Sound .attributeValue) : (s.stepAttributeValue bracket parts start b).Sound := by
  cases b with
  | complete c => exact h.enter (attributeParts_of_opening hparts hb.2)
  | pending n => exact h.enter ⟨hparts, hb⟩
  | rejected => trivial

theorem Regular.closeNegation (h : s.Regular) {argument : Construct}
    (hargument : argument.IsSimple) (hpermits : Context.negation.permits argument = true)
    (t : Token) : (s.closeNegation argument t).Sound := by
  unfold Selecting.closeNegation
  split
  · trivial
  · next head outer _ =>
      apply Regular.place
      · exact ⟨h.finished, h.components, h.members, h.typeFirst⟩
      · exact .negation head.kind argument head.location hargument hpermits

/-! ## One token -/

/-- What is decided before a token keeps the invariant. -/
theorem Sound.settle (h : s.Sound) (next : Option Token) : (s.settle next).Sound := by
  unfold Selecting.settle
  split
  · split
    · exact h
    · exact h.placeType _ _ _
  · split
    · split
      · exact h
      · trivial
    · exact h
  · exact h

/-- **One more token keeps the invariant of a list of selectors**, and completes it only with
well-formed selectors. -/
theorem Sound.step (h : s.Sound) {t : Token} (ht : t.Spelled) : (s.step t).Sound := by
  have hphase := h.phase
  unfold Selecting.step
  -- One case for each phase, in the order of the definition.
  split
  · exact h.startSequence t
  · next hmember =>
      rw [hmember] at hphase
      split
      · exact h.enter hphase
      split
      · exact h.enter hphase
      split
      · exact h.stepBetween hphase false t
      · exact h.startSimple t
  · next spaced hbetween =>
      rw [hbetween] at hphase
      exact h.stepBetween hphase spaced t
  · exact h.stepTyping _ _ t _
  · split
    · next step hstep => exact h.startType? hstep
    · trivial
  · next bracket name hname =>
      rw [hname] at hphase
      obtain ⟨text, l, rfl⟩ := hphase
      split
      · exact h.place (.attributeSelector _ bracket (.presence text l)) t
      · split
        · exact h.enter ⟨text, l, _, t.location, rfl⟩
        · trivial
  · next bracket parts hparts =>
      rw [hparts] at hphase
      exact h.stepAttributeValue bracket hphase t (Nesting.sound_start ht.toShaped)
  · next bracket parts start n hparts =>
      rw [hparts] at hphase
      exact h.stepAttributeValue bracket hphase.1 start (hphase.2.step _ ht.toShaped)
  · next bracket parts hparts =>
      rw [hparts] at hphase
      split
      · exact h.place (.attributeSelector parts bracket hphase) t
      · trivial
  · exact h.stepPseudo _ ht
  · next head name members hmembers =>
      rw [hmembers] at hphase
      split
      · apply h.place
        apply Construct.IsSimple.pseudoFunction
        exact ⟨hphase.uncapitalized, hphase.not_negation,
          fun c hc => hphase.arguments c (List.mem_reverse.1 hc)⟩
      · split
        · trivial
        · exact h.stepArgument head hphase t (Nesting.sound_start ht.toShaped)
  · next head name members n hmembers =>
      rw [hmembers] at hphase
      exact h.stepArgument head hphase.1 t (hphase.2.step _ ht.toShaped)
  · exact h.startSimple t
  · next argument hargument =>
      rw [hargument] at hphase
      split
      · exact h.closeNegation hphase.1 hphase.2 t
      · trivial

end Selecting

end EpubStyle
