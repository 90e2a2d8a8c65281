import EpubStyle.Proofs.Concrete.SheetReading
import EpubStyle.Proofs.Sheet.Feed
import EpubStyle.Proofs.Sheet.Signals

/-!
# Comments next to white space

A comment next to white space may be taken away: the events stay, and so do the number of problems
and their codes. There is one exception. A sequence of simple selectors ends at the comment right
behind it, and what says whether white space separates it from the next sequence is that token
alone, not the white space behind the comment. So `a/**/ b` is no descendant selector: `b` is not
expected and the rule set is skipped (`not_forall_agree`). Everywhere else the statement holds
(`agree_signals_comment`).

What one blank token does is said once (`atBlank`). In most states it does the same whichever it is,
in some it is refused, and behind a sequence it matters whether it is white space. After white space
no state is left in which a comment matters, so a comment behind it does nothing. A comment before
it leads to a state that the white space alone would have led to, up to the token taken last, or to
one that differs in what `SelectorPhase.between` knows.
-/

set_option autoImplicit false

namespace EpubStyle

open Concrete

/-! ## The same reports -/

/-- The same events, and problems of the same number with the same codes. -/
structure Signal.Agree (signals signals' : List Signal) : Prop where
  events : signals.filterMap Signal.event? = signals'.filterMap Signal.event?
  codes : (signals.filterMap Signal.problem?).map (fun p => p.code) =
    (signals'.filterMap Signal.problem?).map (fun p => p.code)

namespace Signal.Agree

theorem refl (signals : List Signal) : Agree signals signals := ⟨rfl, rfl⟩

theorem append {s s' u u' : List Signal} (h : Agree s s') (hu : Agree u u') :
    Agree (s ++ u) (s' ++ u') := by
  constructor
  · rw [List.filterMap_append, List.filterMap_append, h.events, hu.events]
  · rw [List.filterMap_append, List.filterMap_append, List.map_append, List.map_append, h.codes,
      hu.codes]

theorem problem {p p' : Problem} (h : p.code = p'.code) : Agree [.problem p] [.problem p'] := by
  constructor
  · rfl
  · simp [Signal.problem?, h]

end Signal.Agree

/-! ## Behind a sequence -/

/-- The tokens that a simple selector may start with. -/
def TokenClass.simpleSelector : TokenClass := fun t =>
  t.kind == .ident || t.kind == .hashName || t.kind == .className ||
    t.kind == .quantity .percentage || t.isOneOf ['*', '|', '[', ':']

theorem startsSequence_of_simpleSelector {t : Token} (h : TokenClass.simpleSelector t = true) :
    StartsSequence t := by
  simp only [TokenClass.simpleSelector, Token.isOneOf, List.any_cons, List.any_nil, Bool.or_false,
    Bool.or_eq_true, beq_iff_eq, or_assoc] at h
  rcases h with h | h | h | h | h | h | h | h
  · exact startsSequence_of_kind (by simp [h])
  · exact startsSequence_of_kind (by simp [h])
  · exact startsSequence_of_kind (by simp [h])
  · exact startsSequence_of_kind (by simp [h])
  · exact startsSequence_of_isChar h (by decide)
  · exact startsSequence_of_isChar h (by decide)
  · exact startsSequence_of_isChar h (by decide)
  · exact startsSequence_of_isChar h (by decide)

namespace Selecting

variable (s : Selecting) {t : Token}

/-- No other token starts a simple selector. -/
theorem startSimple_of_not_simpleSelector (h : TokenClass.simpleSelector t = false) :
    s.startSimple t = .rejected (.unexpected t) := by
  simp only [TokenClass.simpleSelector, Token.isOneOf, List.any_cons, List.any_nil, Bool.or_false,
    Bool.or_eq_false_iff, beq_eq_false_iff_ne] at h
  obtain ⟨⟨⟨⟨hident, hhash⟩, hclass⟩, hpercentage⟩, hstar, hbar, hbracket, hcolon⟩ := h
  simp only [startSimple, startType?, beq_false_of_ne hident, hstar, hbar, hbracket, hcolon,
    Bool.or_self, Bool.false_eq_true, if_false]

/-- White space behind a sequence matters only to a token that starts a simple selector. -/
theorem stepBetween_of_not_simpleSelector (h : TokenClass.simpleSelector t = false) :
    s.stepBetween true t = s.stepBetween false t := by
  have hstart : ∀ s' : Selecting, s'.startSequence t = .rejected (.unexpected t) := by
    intro s'
    simp only [startSequence]
    split <;> exact startSimple_of_not_simpleSelector _ h
  simp only [stepBetween, hstart, if_true, Bool.false_eq_true, if_false]

/-- Without white space a token that starts a simple selector is refused. -/
theorem stepBetween_of_simpleSelector (h : TokenClass.simpleSelector t = true) :
    s.stepBetween false t = .rejected (.unexpected t) := by
  have hstarts : StartsSequence t := startsSequence_of_simpleSelector h
  simp only [stepBetween, hstarts.notEnd '{' (by simp), hstarts.notEnd ',' (by simp),
    hstarts.notCombinator, Bool.false_eq_true, if_false]

end Selecting

/-! ## What a blank token does -/

namespace Sheet

/-- Nothing under way in the sheet is sensitive to white space. -/
def Loose (m : Sheet) : Prop := ∀ s, m.phase = .selecting s → s.phase.isTight = false

/-- The sheet has read simple selectors of a sequence and would go on with it at the next token. -/
def inSequence (m : Sheet) (next : Token) : Bool :=
  match (m.settle (some next)).1.phase with
  | .selecting s => match s.phase with
      | .member => true
      | _ => false
  | _ => false

/-- **What white space or a comment does**: the same whichever of them it is and whatever follows,
or what ends a sequence, or it is refused. -/
inductive AtBlank (m : Sheet) : Prop
  | alike (m' : Sheet) (signals : List Signal) (hloose : m'.Loose)
      (hsequence : ∀ t : Token, t.isBlank = true → m.inSequence t = false)
      (hstep : ∀ t : Token, t.isBlank = true → ∀ ahead, m.step t ahead = (m', signals))
  | behind (s : Selecting)
      (hsequence : ∀ t : Token, t.isBlank = true → m.inSequence t = true)
      (hstep : ∀ t : Token, t.isBlank = true → ∀ ahead, m.step t ahead =
        (⟨m.last, m.enclosing, .selecting (s.inPhase (.between (t.kind == .space)))⟩, []))
  | refused (code : Code)
      (hsequence : ∀ t : Token, t.isBlank = true → m.inSequence t = false)
      (hstep : ∀ t : Token, t.isBlank = true → ∀ ahead, ∃ last p, p.code = code ∧
        m.step t ahead = (⟨last, m.enclosing, .skippingRule 0⟩, [.problem p]))

theorem Loose.ignores {m : Sheet} (h : m.Loose) {t : Token} (hblank : t.isBlank = true) :
    m.ignores t = true := by
  rcases m with ⟨last, enclosing, phase⟩
  cases phase with
  | statement => simp [Sheet.ignores, TokenClass.topLevel, hblank]
  | selecting s => simp [Sheet.ignores, hblank, h s rfl]
  | skippingRule | header | skippingAtRule | block => exact hblank

theorem Loose.settle {m : Sheet} (h : m.Loose) (next : Option Token) :
    m.settle next = (m, []) := by
  rcases m with ⟨last, enclosing, phase⟩
  cases phase with
  | selecting s =>
      have hloose := h s rfl
      rcases s with ⟨finished, location, components, sequence, start, negations, phase⟩
      cases phase with
      | typing => simp [SelectorPhase.isTight] at hloose
      | _ => rfl
  | statement | skippingRule | header | skippingAtRule | block => rfl

/-- Where nothing is sensitive to it, a blank token is passed over. -/
theorem Loose.step {m : Sheet} (h : m.Loose) {t : Token} (hblank : t.isBlank = true)
    (ahead : List Token) : m.step t ahead = (m, []) := by
  simp only [Sheet.step, h.settle, h.ignores hblank, if_true]

theorem Loose.inSequence {m : Sheet} (h : m.Loose) (t : Token) : m.inSequence t = false := by
  simp only [Sheet.inSequence, h.settle]
  split
  · next s hs =>
      have hloose := h s hs
      split
      · next hphase => simp [hphase, SelectorPhase.isTight] at hloose
      · rfl
  · rfl

theorem loose_of_not_selecting {m : Sheet} (h : ∀ s, m.phase ≠ .selecting s) : m.Loose :=
  fun s hs => absurd hs (h s)

section Selecting

variable (last : Option Token) (enclosing : List String) {s s' : Selecting} {t : Token}

theorem settle_selecting_of_pending (h : s.settle (some t) = .pending s') :
    settle ⟨last, enclosing, .selecting s⟩ (some t) = (⟨last, enclosing, .selecting s'⟩, []) := by
  simp only [settle, h, enter]

theorem settle_selecting_of_rejected {p : Problem} (h : s.settle (some t) = .rejected p) :
    settle ⟨last, enclosing, .selecting s⟩ (some t) =
      (⟨last, enclosing, .skippingRule 0⟩, [.problem p]) := by
  simp only [settle, h, enter]

/-- A type selector that a blank token ends. -/
theorem step_of_settle_loose (h : s.settle (some t) = .pending s')
    (hloose : s'.phase.isTight = false) (hblank : t.isBlank = true) (ahead : List Token) :
    step ⟨last, enclosing, .selecting s⟩ t ahead = (⟨last, enclosing, .selecting s'⟩, []) := by
  simp only [step, settle_selecting_of_pending last enclosing h, ignores, hblank, hloose,
    Bool.not_false, Bool.and_self, if_true]

/-- A type selector that a blank token ends and that may not stand where it does. -/
theorem step_of_settle_rejected {p : Problem} (h : s.settle (some t) = .rejected p)
    (hblank : t.isBlank = true) (ahead : List Token) :
    step ⟨last, enclosing, .selecting s⟩ t ahead =
      (⟨last, enclosing, .skippingRule 0⟩, [.problem p]) := by
  simp only [step, settle_selecting_of_rejected last enclosing h, ignores, hblank, if_true]

/-- A blank token that ends a sequence. -/
theorem step_of_settle_member (h : s.settle (some t) = .pending s') (hphase : s'.phase = .member)
    (hblank : t.isBlank = true) (ahead : List Token) :
    step ⟨last, enclosing, .selecting s⟩ t ahead =
      (⟨last, enclosing, .selecting (s'.inPhase (.between (t.kind == .space)))⟩, []) := by
  have hstep : s'.step t = .pending (s'.inPhase (.between (t.kind == .space))) := by
    rcases Token.isBlank_iff.1 hblank with hkind | hkind <;>
      simp [Selecting.step, hphase, hkind, Selecting.enter]
  simp only [step, settle_selecting_of_pending last enclosing h, ignores, hphase,
    SelectorPhase.isTight, Bool.not_true, Bool.and_false, Bool.false_eq_true, if_false, take, hstep,
    afterSelecting, enter, hblank, if_true, List.append_nil]

/-- A blank token that a tight phase refuses. -/
theorem step_of_refused {p : Problem} (h : s.settle (some t) = .pending s)
    (htight : s.phase.isTight = true) (hstep : s.step t = .rejected p) (hblank : t.isBlank = true)
    (ahead : List Token) :
    step ⟨last, enclosing, .selecting s⟩ t ahead =
      (⟨some t, enclosing, .skippingRule 0⟩, [.problem p]) := by
  simp only [step, settle_selecting_of_pending last enclosing h, ignores, htight, Bool.not_true,
    Bool.and_false, Bool.false_eq_true, if_false, take, hstep, afterSelecting, skipRule,
    Token.isChar_of_isBlank hblank, enter, List.nil_append]

/-- Behind a type selector that a blank token ends a sequence may go on, or nothing may. -/
theorem placeType_phase {start : Token} {use : TypeUse} {text : String}
    (h : s.placeType start use text = .pending s') :
    s'.phase = .member ∨ s'.phase.isTight = false := by
  cases use with
  | simple =>
      simp only [Selecting.placeType, Selecting.place] at h
      split at h
      · split at h
        · cases h
        · cases h
          exact .inl rfl
      · split at h
        · cases h
          exact .inr rfl
        · cases h
  | «attribute» bracket =>
      cases h
      exact .inr rfl

theorem Loose.atBlank {m : Sheet} (h : m.Loose) : AtBlank m :=
  .alike m [] h (fun t _ => h.inSequence t) (fun _ hblank => h.step hblank)

/-- A type selector that is decided before the blank token. -/
theorem atBlank_of_settle (start : Token) (use : TypeUse) (text : String)
    (h : ∀ t : Token, t.isBlank = true → s.settle (some t) = s.placeType start use text) :
    AtBlank ⟨last, enclosing, .selecting s⟩ := by
  cases hplace : s.placeType start use text with
  | complete list =>
      exact absurd hplace ((s.unfinished_placeType start use text).ne_complete list)
  | rejected p =>
      refine .refused p.code (fun t hblank => ?_) (fun t hblank ahead => ⟨last, p, rfl, ?_⟩)
      · simp only [inSequence,
          settle_selecting_of_rejected last enclosing ((h t hblank).trans hplace)]
      · exact step_of_settle_rejected last enclosing ((h t hblank).trans hplace) hblank ahead
  | pending s' =>
      -- Behind a type that is placed stands a member, or blanks mean nothing.
      rcases placeType_phase hplace with hmember | hloose
      · refine .behind s' (fun t hblank => ?_) (fun t hblank ahead => ?_)
        · simp only [inSequence,
            settle_selecting_of_pending last enclosing ((h t hblank).trans hplace), hmember]
        · have hsettled := (h t hblank).trans hplace
          exact step_of_settle_member last enclosing hsettled hmember hblank ahead
      · refine .alike ⟨last, enclosing, .selecting s'⟩ [] ?_ (fun t hblank => ?_)
          (fun t hblank ahead => ?_)
        · rintro s ⟨⟩
          exact hloose
        · have hnot : s'.phase ≠ .member := by
            intro hmember
            simp [hmember, SelectorPhase.isTight] at hloose
          simp only [inSequence,
            settle_selecting_of_pending last enclosing ((h t hblank).trans hplace)]
        · exact step_of_settle_loose last enclosing ((h t hblank).trans hplace) hloose hblank ahead

end Selecting

/-- **Every state is one of the three.** -/
theorem atBlank (m : Sheet) : AtBlank m := by
  rcases m with ⟨last, enclosing, phase⟩
  have hkind : ∀ t : Token, t.isBlank = true → (t.kind == .ident) = false := by
    intro t hblank
    rcases Token.isBlank_iff.1 hblank with hkind | hkind <;> simp [hkind]
  cases phase with
  | statement | skippingRule | header | skippingAtRule | block =>
      exact (loose_of_not_selecting (by simp)).atBlank
  | selecting s =>
      rcases s with ⟨finished, location, components, sequence, start, negations, phase⟩
      -- Three phases are tight: in a sequence, in a type selector and in a pseudo selector.
      cases phase with
      | member =>
          exact .behind _ (fun _ _ => rfl)
            (fun t hblank => step_of_settle_member last enclosing rfl rfl hblank)
      | pseudo head =>
          refine .refused .unexpectedToken (fun _ _ => rfl) (fun t hblank ahead =>
            ⟨some t, .unexpected t, rfl, step_of_refused last enclosing rfl rfl ?_ hblank ahead⟩)
          simp only [Selecting.step, Selecting.stepPseudo, Token.isChar_of_isBlank hblank,
            Bool.false_and, Bool.false_eq_true, if_false]
          rcases Token.isBlank_iff.1 hblank with hkind | hkind <;> simp only [hkind]
      | typing phase first use =>
          cases phase with
          | name text =>
              apply atBlank_of_settle last enclosing first use text
              intro t hblank
              simp [Selecting.settle, Token.isChar_of_isBlank hblank]
          | bar =>
              have hsettle : ∀ t : Token, t.isBlank = true → Selecting.settle
                  ⟨finished, location, components, sequence, start, negations,
                    .typing .bar first use⟩ (some t) =
                  .rejected (.expecting t (.phrase .typeOrUniversalSelector)) := by
                intro t hblank
                simp [Selecting.settle, hkind t hblank]
              refine .refused .expectingToken (fun t hblank => ?_) (fun t hblank ahead =>
                ⟨last, _, rfl, step_of_settle_rejected last enclosing (hsettle t hblank) hblank
                  ahead⟩)
              simp only [inSequence,
                settle_selecting_of_rejected last enclosing (hsettle t hblank)]
          | qualified text =>
              refine .refused .expectingToken (fun _ _ => rfl) (fun t hblank ahead =>
                ⟨some t, .expecting t (.phrase .typeOrUniversalSelector), rfl,
                  step_of_refused last enclosing rfl rfl ?_ hblank ahead⟩)
              simp only [Selecting.step, Selecting.stepTyping, hkind t hblank,
                Token.isChar_of_isBlank hblank, Bool.or_self, Bool.false_eq_true, if_false]
      | _ =>
          refine Loose.atBlank ?_
          rintro s ⟨⟩
          rfl

/-- Behind white space or a comment nothing is sensitive to more of it. -/
theorem loose_step_blank (m : Sheet) {t : Token} (hblank : t.isBlank = true) (ahead : List Token) :
    (m.step t ahead).1.Loose := by
  cases m.atBlank with
  | alike m' signals hloose hsequence hstep =>
      rw [hstep t hblank ahead]
      exact hloose
  | behind s hsequence hstep =>
      rw [hstep t hblank ahead]
      rintro s ⟨⟩
      rfl
  | refused code hsequence hstep =>
      obtain ⟨last, p, -, hp⟩ := hstep t hblank ahead
      rw [hp]
      exact loose_of_not_selecting (by simp)

/-! ## A comment and the white space behind it -/

section Runs

variable (last : Option Token) (enclosing : List String) {ts : List Token}

theorem Loose.run_cons {m : Sheet} (h : m.Loose) {t : Token} (hblank : t.isBlank = true)
    (ts : List Token) : m.run (t :: ts) = m.run ts := by
  simp only [run, h.step hblank, List.nil_append]

theorem loose_between (s : Selecting) (spaced : Bool) :
    Loose ⟨last, enclosing, .selecting (s.inPhase (.between spaced))⟩ := by
  rintro s ⟨⟩
  rfl

theorem loose_skippingRule (depth : Nat) : Loose ⟨last, enclosing, .skippingRule depth⟩ :=
  loose_of_not_selecting (by simp)

/-- A significant token behind a sequence. -/
theorem step_between (s : Selecting) (spaced : Bool) {t : Token} (hblank : t.isBlank = false)
    (ahead : List Token) :
    step ⟨last, enclosing, .selecting (s.inPhase (.between spaced))⟩ t ahead =
      take ⟨last, enclosing, .selecting (s.inPhase (.between spaced))⟩ t ahead := by
  simp only [step, settle, Selecting.settle, enter, ignores, hblank, Bool.false_and,
    Bool.false_eq_true, if_false, List.nil_append]

/-- Where no simple selector starts, it does not matter whether white space stood in front. -/
theorem run_between (s : Selecting)
    (h : ∀ u ∈ ts.find? TokenClass.significant, TokenClass.simpleSelector u = false) :
    run ⟨last, enclosing, .selecting (s.inPhase (.between false))⟩ ts =
      run ⟨last, enclosing, .selecting (s.inPhase (.between true))⟩ ts := by
  induction ts with
  | nil => rfl
  | cons t ts ih =>
      by_cases hblank : t.isBlank = true
      · have hrest : ∀ u ∈ ts.find? TokenClass.significant,
            TokenClass.simpleSelector u = false := by
          simpa [TokenClass.significant, hblank] using h
        rw [(loose_between last enclosing s false).run_cons hblank,
          (loose_between last enclosing s true).run_cons hblank, ih hrest]
      · have hsimple : TokenClass.simpleSelector t = false :=
          h t (by simp [TokenClass.significant, hblank])
        have hblank' : t.isBlank = false := by simpa using hblank
        have hbetween : (s.inPhase (.between true)).stepBetween true t =
            (s.inPhase (.between false)).stepBetween false t := by
          rw [Selecting.stepBetween_of_not_simpleSelector _ hsimple]
          rfl
        -- Both phases give the token to the selectors, and these do not say which phase it was.
        have htake : take ⟨last, enclosing, .selecting (s.inPhase (.between false))⟩ t ts =
            take ⟨last, enclosing, .selecting (s.inPhase (.between true))⟩ t ts := by
          simp only [take, Selecting.step, hbetween,
            afterSelecting_congr last enclosing (.selecting (s.inPhase (.between _))) .statement]
        simp only [run, step_between last enclosing s _ hblank', htake]

/-- Where a simple selector starts without white space in front, its token is refused. -/
theorem problem_of_run_between (s : Selecting) {u : Token}
    (hu : u ∈ ts.find? TokenClass.significant) (hsimple : TokenClass.simpleSelector u = true) :
    Signal.problem (.unexpected u) ∈
      run ⟨last, enclosing, .selecting (s.inPhase (.between false))⟩ ts := by
  induction ts with
  | nil => simp at hu
  | cons t ts ih =>
      by_cases hblank : t.isBlank = true
      · rw [(loose_between last enclosing s false).run_cons hblank]
        exact ih (by simpa [TokenClass.significant, hblank] using hu)
      · obtain rfl : t = u := by simpa [TokenClass.significant, hblank] using hu
        have hblank' : t.isBlank = false := by simpa using hblank
        have hproblem : Signal.problem (.unexpected t) ∈
            (take ⟨last, enclosing, .selecting (s.inPhase (.between false))⟩ t ts).2 := by
          simp only [take, Selecting.step, Selecting.stepBetween_of_simpleSelector _ hsimple,
            afterSelecting, skipRule]
          split <;> simp [enter]
        rw [run, step_between last enclosing s false hblank']
        exact List.mem_append_left _ hproblem

/-- The token taken last matters to a rule set that is skipped only where the tokens end. -/
theorem agree_run_skippingRule (last' : Option Token) (depth : Nat) (ts : List Token) :
    Signal.Agree (run ⟨last, enclosing, .skippingRule depth⟩ ts)
      (run ⟨last', enclosing, .skippingRule depth⟩ ts) := by
  induction ts with
  | nil =>
      refine (Signal.Agree.problem ?_).append (.refl _)
      rfl
  | cons t ts ih =>
      by_cases hblank : t.isBlank = true
      · rw [(loose_skippingRule last enclosing depth).run_cons hblank,
          (loose_skippingRule last' enclosing depth).run_cons hblank]
        exact ih
      · have hstep : step ⟨last, enclosing, .skippingRule depth⟩ t ts =
            step ⟨last', enclosing, .skippingRule depth⟩ t ts := by
          simp only [step, settle, ignores, hblank, take, stepSkippingRule, Bool.false_eq_true,
            if_false, enter]
          repeat' split
          all_goals rfl
        rw [run, run, hstep]
        exact .refl _

end Runs

/-- The second of two blank tokens is passed over. -/
theorem run_blank_blank (m : Sheet) {t u : Token} (ht : t.isBlank = true) (hu : u.isBlank = true)
    (ts : List Token) :
    m.run (t :: u :: ts) = (m.step t (u :: ts)).2 ++ (m.step t (u :: ts)).1.run ts := by
  change (m.step t (u :: ts)).2 ++ (m.step t (u :: ts)).1.run (u :: ts) = _
  rw [(m.loose_step_blank ht _).run_cons hu]

section Comment

variable {comment space : Token}

/-- **A comment before white space may be taken away**, unless it stands behind a sequence and
another one follows. -/
theorem agree_run_comment (m : Sheet) (hcomment : comment.kind = .comment)
    (hspace : space.kind = .space) (ts : List Token)
    (h : m.inSequence comment = true →
      ∀ u ∈ ts.find? TokenClass.significant, TokenClass.simpleSelector u = false) :
    Signal.Agree (m.run (comment :: space :: ts)) (m.run (space :: ts)) := by
  have hcommentBlank : comment.isBlank = true := Token.isBlank_iff.2 (.inr hcomment)
  have hspaceBlank : space.isBlank = true := Token.isBlank_iff.2 (.inl hspace)
  rw [m.run_blank_blank hcommentBlank hspaceBlank, run]
  cases m.atBlank with
  | alike m' signals hloose hsequence hstep =>
      rw [hstep comment hcommentBlank, hstep space hspaceBlank]
      exact .refl _
  | behind s hsequence hstep =>
      rw [hstep comment hcommentBlank, hstep space hspaceBlank, hcomment, hspace]
      -- The states differ in whether white space stood in front of the next significant token.
      have hbetween := run_between m.last m.enclosing s (h (hsequence comment hcommentBlank))
      exact .append (.refl []) (hbetween ▸ .refl _)
  | refused code hsequence hstep =>
      obtain ⟨last, p, hp, hrefused⟩ := hstep comment hcommentBlank (space :: ts)
      obtain ⟨last', p', hp', hrefused'⟩ := hstep space hspaceBlank ts
      -- Both are refused, and the rule set is skipped with another token taken last.
      rw [hrefused, hrefused']
      exact (Signal.Agree.problem (hp.trans hp'.symm)).append
        (agree_run_skippingRule last m.enclosing last' 0 ts)

/-- Between two sequences the comment takes the white space behind it away. -/
theorem problem_of_run_comment (m : Sheet) (hcomment : comment.kind = .comment)
    (hspace : space.kind = .space) {ts : List Token} (hsequence : m.inSequence comment = true)
    {u : Token} (hu : u ∈ ts.find? TokenClass.significant)
    (hsimple : TokenClass.simpleSelector u = true) :
    Signal.problem (.unexpected u) ∈ m.run (comment :: space :: ts) := by
  have hcommentBlank : comment.isBlank = true := Token.isBlank_iff.2 (.inr hcomment)
  have hspaceBlank : space.isBlank = true := Token.isBlank_iff.2 (.inl hspace)
  rw [m.run_blank_blank hcommentBlank hspaceBlank]
  cases m.atBlank with
  | behind s _ hstep =>
      rw [hstep comment hcommentBlank, hcomment]
      exact problem_of_run_between m.last m.enclosing s hu hsimple
  | alike m' signals _ hnot _ => simp [hnot comment hcommentBlank] at hsequence
  | refused code hnot _ => simp [hnot comment hcommentBlank] at hsequence

end Comment

/-! ## A comment anywhere -/

/-- Blank tokens ahead do not tell what kind of block opens. -/
theorem holdsStatements_blank {t : Token} (hblank : t.isBlank = true) (ts us : List Token) :
    holdsStatements (ts ++ t :: us) = holdsStatements (ts ++ us) := by
  induction ts with
  | nil => simp [holdsStatements, Token.isOneOf, Token.isChar_of_isBlank hblank]
  | cons u ts ih => simp only [List.cons_append, holdsStatements, ih]

/-- A blank token behind the tokens that are fed makes no difference to them. -/
theorem feed_blank {t : Token} (hblank : t.isBlank = true) (m : Sheet) (ts us : List Token) :
    feed (t :: us) m ts = feed us m ts := by
  induction ts generalizing m with
  | nil => rfl
  | cons u ts ih => simp only [feed, step_congr m u (holdsStatements_blank hblank ts us), ih]

/-- The sheet that has read the tokens `before`, with the tokens `after` in sight. -/
def reached (before after : List Token) : Sheet := (feed after initial before).1

/-- The comment stands right behind a sequence, and what follows starts another one. -/
structure Parts (before : List Token) (comment : Token) (after : List Token) : Prop where
  behind : (reached before after).inSequence comment = true
  ahead : ∃ u ∈ after.find? TokenClass.significant, TokenClass.simpleSelector u = true

section Comment

variable {before after : List Token} {comment : Token}

/-- A comment goes into the state that the tokens before it have reached. -/
theorem signals_comment (hblank : comment.isBlank = true) :
    signals (before ++ comment :: after) =
      (.event .start :: (feed after initial before).2) ++
        ((reached before after).run (comment :: after) ++ [.event .finish]) := by
  simp only [signals, run_append, feed_blank hblank, reached, List.cons_append, List.append_assoc]

theorem signals_reached (before after : List Token) :
    signals (before ++ after) =
      (.event .start :: (feed after initial before).2) ++
        ((reached before after).run after ++ [.event .finish]) := by
  simp only [signals, run_append, reached, List.cons_append, List.append_assoc]

/-- Behind white space nothing is sensitive to a comment. -/
theorem loose_reached (h : ∃ t ∈ before.getLast?, t.kind = .space) (after : List Token) :
    (reached before after).Loose := by
  obtain ⟨space, hlast, hspace⟩ := h
  obtain ⟨earlier, rfl⟩ := List.getLast?_eq_some_iff.1 hlast
  have hblank : space.isBlank = true := Token.isBlank_iff.2 (.inl hspace)
  rw [reached, feed_append]
  exact loose_step_blank _ hblank _

/-- **Comments next to white space.** A comment next to white space may be taken away: the events
stay the same, and so do the number of problems and their codes. Only where it parts two sequences
it may not, because then it is reported that the second one is not expected. -/
theorem agree_signals_comment (before after : List Token) (comment : Token)
    (hcomment : comment.kind = .comment)
    (hspace : (∃ t ∈ before.getLast?, t.kind = .space) ∨ ∃ t ∈ after.head?, t.kind = .space) :
    (¬ Parts before comment after →
      Signal.Agree (signals (before ++ comment :: after)) (signals (before ++ after))) ∧
    (Parts before comment after → ∃ u ∈ after.find? TokenClass.significant,
      Signal.problem (.unexpected u) ∈ signals (before ++ comment :: after)) := by
  have hblank : comment.isBlank = true := Token.isBlank_iff.2 (.inr hcomment)
  rw [signals_comment hblank, signals_reached]
  -- Behind white space a comment changes nothing; before white space it may part two sequences.
  rcases hspace with hbefore | ⟨space, hhead, hspace⟩
  · have hloose := loose_reached hbefore after
    constructor
    · intro _
      rw [hloose.run_cons hblank]
      exact .refl _
    · rintro ⟨hbehind, -⟩
      simp [hloose.inSequence] at hbehind
  · obtain ⟨ts, rfl⟩ := List.head?_eq_some_iff.1 hhead
    have hspaceBlank : space.isBlank = true := Token.isBlank_iff.2 (.inl hspace)
    have hfind : (space :: ts).find? TokenClass.significant =
        ts.find? TokenClass.significant := by simp [TokenClass.significant, hspaceBlank]
    constructor
    · intro hparts
      refine .append (.refl _) (.append (agree_run_comment _ hcomment hspace ts ?_) (.refl _))
      intro hbehind u hu
      rw [← Bool.not_eq_true]
      intro hsimple
      exact hparts ⟨hbehind, u, hfind ▸ hu, hsimple⟩
    · rintro ⟨hbehind, u, hu, hsimple⟩
      refine ⟨u, hu, ?_⟩
      have hproblem := problem_of_run_comment _ hcomment hspace hbehind (hfind ▸ hu) hsimple
      simp [hproblem]

/-- The comment in `a/**/ {}` may be taken away, the one in `a/**/ b{}` parts two sequences. -/
theorem agree_signals_comment_names :
    Signal.Agree
      (signals [⟨.ident, "a", .start, []⟩, ⟨.comment, "", .start, []⟩, ⟨.space, " ", .start, []⟩,
        ⟨.char, "\x7b", .start, []⟩, ⟨.char, "\x7d", .start, []⟩])
      (signals [⟨.ident, "a", .start, []⟩, ⟨.space, " ", .start, []⟩,
        ⟨.char, "\x7b", .start, []⟩, ⟨.char, "\x7d", .start, []⟩]) ∧
    Signal.problem (.unexpected ⟨.ident, "b", .start, []⟩) ∈
      signals [⟨.ident, "a", .start, []⟩, ⟨.comment, "", .start, []⟩, ⟨.space, " ", .start, []⟩,
        ⟨.ident, "b", .start, []⟩, ⟨.char, "\x7b", .start, []⟩, ⟨.char, "\x7d", .start, []⟩] := by
  constructor
  · refine (agree_signals_comment [⟨.ident, "a", .start, []⟩]
      [⟨.space, " ", .start, []⟩, ⟨.char, "\x7b", .start, []⟩, ⟨.char, "\x7d", .start, []⟩]
      ⟨.comment, "", .start, []⟩ rfl (.inr (by decide))).1 ?_
    rintro ⟨-, hahead⟩
    revert hahead
    decide
  · obtain ⟨u, hu, hproblem⟩ := (agree_signals_comment [⟨.ident, "a", .start, []⟩]
      [⟨.space, " ", .start, []⟩, ⟨.ident, "b", .start, []⟩, ⟨.char, "\x7b", .start, []⟩,
        ⟨.char, "\x7d", .start, []⟩]
      ⟨.comment, "", .start, []⟩ rfl (.inr (by decide))).2 ⟨by decide, by decide⟩
    obtain rfl : ⟨.ident, "b", .start, []⟩ = u := by
      simpa [TokenClass.significant, Token.isBlank] using hu
    exact hproblem

/-- A comment between the name of an element type and the white space behind it takes the combinator
away, so not every comment next to white space may be taken away. -/
theorem not_forall_agree :
    ¬ ∀ (before after : List Token) (comment : Token), comment.kind = .comment →
      ((∃ t ∈ before.getLast?, t.kind = .space) ∨ ∃ t ∈ after.head?, t.kind = .space) →
      Signal.Agree (signals (before ++ comment :: after)) (signals (before ++ after)) := by
  intro h
  have hagree := h [⟨.ident, "a", .start, []⟩]
    [⟨.space, " ", .start, []⟩, ⟨.ident, "b", .start, []⟩, ⟨.char, "\x7b", .start, []⟩,
      ⟨.char, "\x7d", .start, []⟩]
    ⟨.comment, "", .start, []⟩ rfl (.inr (by decide))
  exact absurd hagree.codes (by decide)

end Comment

end Sheet

end EpubStyle
