import EpubStyle.Proofs.Concrete.SelectorReading
import EpubStyle.Proofs.Sheet.Outcomes

/-!
# Selectors that have been read

Tokens that the machine of selectors takes without a problem are the tokens of a tree. `Reads s ts`
says which trees the tokens `ts` make up in the state `s`: the selectors and sequences that are
finished (`Between`, `Within`), the members of the current sequence (`InSequence`), the negation
around a simple selector (`Around`) and the part of it that has been read (`Partial`). Each token
that is taken keeps this up (`Reads.advance`), and the brace that ends the list leaves a
`SelectorList` (`exists_selectorList_of_feed`).

Two things are never finished, so nothing is said of the trees in them: a function or group as the
value of an attribute or the argument of a pseudo selector, and a negation inside another.
-/

set_option autoImplicit false

namespace EpubStyle

namespace Concrete

open Selecting

/-! ## What has been read -/

/-- Between a comma or a combinator and the sequence behind it, or at the start. -/
def Between (s : Selecting) (ts : List Token) : Prop :=
  s.negations = [] ∧ ∃ (e : Earlier) (lead : Lead), s.finished = e.latest ∧
    ts = e.tokens ++ lead.tokens ∧ (∀ l, s.components = lead.components l) ∧
    (lead = .start ∨ ∀ l, s.location = lead.location l)

/-- Behind the members of a sequence. -/
def InSequence (s : Selecting) (ts : List Token) : Prop :=
  ∃ (e : Earlier) (lead : Lead) (m : Members), s.finished = e.latest ∧
    ts = e.tokens ++ (lead.tokens ++ m.tokens) ∧ s.components = lead.components m.first.location ∧
    s.location = lead.location m.first.location ∧ s.sequence = m.latest ∧
    s.sequenceStart = m.first.location

/-- Before a sequence that starts at `l`. -/
def BeforeSequence (s : Selecting) (l : Location) (ts : List Token) : Prop :=
  ∃ (e : Earlier) (lead : Lead), s.finished = e.latest ∧ ts = e.tokens ++ lead.tokens ∧
    s.components = lead.components l ∧ s.location = lead.location l ∧ s.sequence = [] ∧
    s.sequenceStart = l

/-- Before a simple selector that starts at `l`. -/
def Within (s : Selecting) (l : Location) (ts : List Token) : Prop :=
  BeforeSequence s l ts ∨ InSequence s ts

/-- Before a simple selector that starts at `l`, perhaps in a negation. -/
inductive Around (s : Selecting) (l : Location) (ts : List Token) : Prop
  | sequence (hnegations : s.negations = []) (h : Within s l ts)
  | negation (colons : Colons) (f : Word .function) (isNegation : f.1.functionName = "not")
      (gap : Gap) (us : List Token) (hnegations : s.negations = [colons.head])
      (h : Within s colons.first.location us)
      (hts : ts = us ++ colons.first :: (colons.rest ++ f.1 :: gap.1))
  | deeper (head next : PseudoHead) (outer : List PseudoHead)
      (hnegations : s.negations = head :: next :: outer)

theorem Around.inPhase {s : Selecting} {l : Location} {ts : List Token} (h : Around s l ts)
    (phase : SelectorPhase) : Around (s.inPhase phase) l ts := by
  cases h with
  | sequence hnegations h => exact .sequence hnegations h
  | negation colons f isNegation gap us hnegations h hts =>
      exact .negation colons f isNegation gap us hnegations h hts
  | deeper head next outer hnegations => exact .deeper head next outer hnegations

/-- The tokens of a type name that has been started with the token `start`. -/
def TypePart (start : Token) (ts : List Token) : TypePhase → Prop
  | .name text => (start.kind = .ident ∨ start.isChar '*' = true) ∧ ts = [start] ∧ text = start.text
  | .bar => start.isChar '|' = true ∧ ts = [start]
  | .qualified text => (start.kind = .ident ∨ start.isChar '*' = true) ∧
      ∃ bar : Mark '|', ts = [start, bar.1] ∧ text = start.text ++ "|"

/-- The tokens `ts` of a simple selector at `l` in which the tokens `us` of a type name come
last. -/
def TypePlace (l : Location) (start : Token) (us ts : List Token) : TypeUse → Prop
  | .simple => ts = us ∧ l = start.location
  | .attribute bracket =>
      ∃ (o : Mark '[') (gap : Gap), ts = o.1 :: (gap.1 ++ us) ∧ l = o.1.location ∧
        bracket = o.1.location

/-- The tokens of a simple selector that has been started at `l`. -/
def Partial (l : Location) (ts : List Token) : SelectorPhase → Prop
  | .opening | .member | .between _ | .negated => False
  | .typing phase start use =>
      ∃ us : List Token, TypePart start us phase ∧ TypePlace l start us ts use
  | .attributeName bracket =>
      ∃ (o : Mark '[') (gap : Gap), ts = o.1 :: gap.1 ∧ l = o.1.location ∧ bracket = o.1.location
  | .attributeOperator bracket name =>
      ∃ (o : Mark '[') (gap : Gap) (n : TypeName) (after : Gap),
        ts = o.1 :: (gap.1 ++ (n.tokens ++ after.1)) ∧ l = o.1.location ∧
        bracket = o.1.location ∧ name = n.construct
  | .attributeValue bracket parts =>
      ∃ (o : Mark '[') (gap : Gap) (n : TypeName) (after : Gap) (operator : Token)
        (matching : MatchOperator) (behind : Gap),
        MatchOperator.ofToken? operator = some matching ∧
        ts = o.1 :: (gap.1 ++ (n.tokens ++ (after.1 ++ operator :: behind.1))) ∧
        l = o.1.location ∧ bracket = o.1.location ∧
        parts = [n.construct, .matching matching operator.location]
  | .attributeClose bracket parts =>
      ∃ (o : Mark '[') (gap : Gap) (n : TypeName) (after : Gap) (test : AttributeTest),
        ts = o.1 :: (gap.1 ++ (n.tokens ++ (after.1 ++ test.tokens))) ∧ l = o.1.location ∧
        bracket = o.1.location ∧ parts = n.construct :: test.parts
  | .pseudo head =>
      ∃ colons : Colons, ts = colons.first :: colons.rest ∧ l = colons.first.location ∧
        head = colons.head
  | .arguments head name members =>
      ∃ (colons : Colons) (f : Word .function) (arguments : Arguments),
        f.1.functionName ≠ "not" ∧ ts = colons.first :: (colons.rest ++ f.1 :: arguments.tokens) ∧
        l = colons.first.location ∧ head = colons.head ∧
        name = colons.kind.colons ++ f.1.functionName ∧ members = arguments.latest
  | .negationClose argument =>
      ∃ (p : Plain) (gap : Gap), Context.negation.permits p.construct = true ∧
        ts = p.tokens ++ gap.1 ∧ l = p.first.location ∧ argument = p.construct
  | .attributeNested .. | .argumentNested .. => True

/-- The trees that the tokens taken so far make up. -/
def Reads (s : Selecting) (ts : List Token) : Prop :=
  match s.phase with
  | .opening => Between s ts
  | .member => s.negations = [] ∧ InSequence s ts
  | .between spaced => s.negations = [] ∧ ∃ (us : List Token) (gap : Gap), InSequence s us ∧
      ts = us ++ gap.1 ∧
      (spaced = true → ∃ (space : Word .space) (after : Gap), gap.1 = space.1 :: after.1)
  | .negated => s.negations ≠ [] ∧ ∀ l, Around s l ts
  | phase => ∃ (l : Location) (us vs : List Token), Around s l us ∧ Partial l vs phase ∧
      ts = us ++ vs

theorem Reads.of_partial {s : Selecting} {l : Location} {us : List Token} (vs : List Token)
    (h : Around s l us) (hpartial : Partial l vs s.phase) : Reads s (us ++ vs) := by
  rcases s with ⟨finished, location, components, sequence, start, negations, phase⟩
  cases phase with
  | opening | member | between | negated => exact hpartial.elim
  | _ => exact ⟨l, us, vs, h, hpartial, rfl⟩

/-! ## Finished simple selectors -/

/-- No negation is permitted in a negation. -/
theorem not_permits_negation (kind : PseudoKind) (argument : Construct) (l : Location) :
    Context.negation.permits
      (.pseudoFunction kind (kind.colons ++ "not") [argument] l) = false := by
  cases kind with
  | pseudoElement => rfl
  | pseudoClass =>
      have hname : Text.sameText (PseudoKind.pseudoClass.colons ++ "not") ":not" = true := by
        decide +kernel
      simp [Context.negation, Construct.isNegation, hname]

/-- A simple selector that is placed joins the trees. -/
theorem Reads.place (x : Simple) {s s' : Selecting} {ts : List Token} {blame : Token}
    (h : Around s x.first.location ts) (hplace : s.place x.construct blame = .pending s') :
    Reads s' (ts ++ x.tokens) := by
  -- Inside a negation a selector becomes its argument; elsewhere it joins the sequence.
  have hnegation : s.negations ≠ [] → Reads s' (ts ++ x.tokens) := by
    intro hne
    simp only [Selecting.place] at hplace
    split at hplace
    · next hnil => exact absurd hnil hne
    · split at hplace
      · next hpermits =>
          cases hplace
          cases x with
          | negation colons _ _ _ _ _ _ _ =>
              simp [Simple.construct, not_permits_negation] at hpermits
          | plain p =>
              refine Reads.of_partial p.tokens (h.inPhase _) ?_
              exact ⟨p, .empty, hpermits, by simp, rfl, rfl⟩
      · cases hplace
  cases h with
  | negation colons f isNegation gap us hnegations h hts => exact hnegation (by simp [hnegations])
  | deeper head next outer hnegations => exact hnegation (by simp [hnegations])
  | sequence hnegations h =>
      simp only [Selecting.place, hnegations] at hplace
      split at hplace
      · cases hplace
      · next hgoes =>
          cases hplace
          rcases h with h | h
          · obtain ⟨e, lead, hfinished, hts, hcomponents, hlocation, hsequence, hstart⟩ := h
            exact ⟨rfl, e, lead, .one x, hfinished, by simp [hts, Members.tokens,
              Members.first, Members.rest, Simple.tokens], hcomponents, hlocation,
              by simp [hsequence, Members.latest], hstart⟩
          · obtain ⟨e, lead, m, hfinished, hts, hcomponents, hlocation, hsequence, hstart⟩ := h
            have hnotType : x.construct.isTypeSelector = false := by
              have hne : m.latest.isEmpty = false := by cases m <;> rfl
              simpa [hsequence, hne] using hgoes
            exact ⟨rfl, e, lead, .more m x hnotType, hfinished, by simp [hts, Members.tokens,
              Members.first, Members.rest], hcomponents, hlocation,
              by simp [hsequence, Members.latest], hstart⟩

/-- A finished type name is a simple selector or the name of an attribute. -/
theorem Reads.placeType (n : TypeName) {s s' : Selecting} {l : Location} {us vs : List Token}
    {use : TypeUse} (h : Around s l us) (hplace : TypePlace l n.first n.tokens vs use)
    (hstep : s.placeType n.first use n.text = .pending s') : Reads s' (us ++ vs) := by
  rcases use with _ | bracket
  · obtain ⟨rfl, rfl⟩ := hplace
    exact Reads.place (.plain (.type n)) h hstep
  · obtain ⟨o, gap, rfl, rfl, rfl⟩ := hplace
    cases hstep
    exact .of_partial _ (h.inPhase _) ⟨o, gap, n, .empty, by simp, rfl, rfl, rfl⟩

/-! ## One token -/

section Steps

variable {s s' : Selecting} {l : Location} {us vs ts : List Token} {t : Token}

theorem Reads.startType (use : TypeUse) (vs : List Token) (h : Around s l us)
    (hplace : TypePlace l t [t] vs use) (hstep : s.startType? use t = some (.pending s')) :
    Reads s' (us ++ vs) := by
  simp only [startType?, Selecting.enter] at hstep
  split at hstep
  · next hname =>
      cases hstep
      refine .of_partial _ (h.inPhase _) ⟨[t], ⟨?_, rfl, rfl⟩, hplace⟩
      simpa using hname
  · split at hstep
    · next hbar =>
        cases hstep
        exact .of_partial _ (h.inPhase _) ⟨[t], ⟨hbar, rfl⟩, hplace⟩
    · cases hstep

/-- The first token of a simple selector. -/
theorem Reads.startSimple (h : Around s t.location us) (hstep : s.startSimple t = .pending s') :
    Reads s' (us ++ [t]) := by
  simp only [Selecting.startSimple] at hstep
  split at hstep
  · next step htype =>
      subst hstep
      exact Reads.startType .simple _ h ⟨rfl, rfl⟩ htype
  · split at hstep
    · next hkind => exact Reads.place (.plain (.hashName ⟨t, hkind⟩)) h hstep
    · next hkind => exact Reads.place (.plain (.className ⟨t, hkind⟩)) h hstep
    · next hkind => exact Reads.place (.plain (.percentage ⟨t, hkind⟩)) h hstep
    · split at hstep
      · next hbracket =>
          cases hstep
          exact .of_partial _ (h.inPhase _) ⟨⟨t, hbracket⟩, .empty, by simp, rfl, rfl⟩
      · split at hstep
        · next hcolon =>
            cases hstep
            exact .of_partial _ (h.inPhase _) ⟨.one ⟨t, hcolon⟩, rfl, rfl, rfl⟩
        · cases hstep

/-- The first token of a sequence. -/
theorem Reads.startSequence {e : Earlier} (lead : Lead) (hnegations : s.negations = [])
    (hfinished : s.finished = e.latest) (hts : ts = e.tokens ++ lead.tokens)
    (hcomponents : s.components = lead.components t.location)
    (hlocation : lead = .start ∨ s.location = lead.location t.location)
    (hstep : s.startSequence t = .pending s') : Reads s' (ts ++ [t]) := by
  simp only [Selecting.startSequence] at hstep
  split at hstep
  · next hempty =>
      refine Reads.startSimple ?_ hstep
      refine .sequence hnegations (.inl ⟨e, lead, hfinished, hts, hcomponents, ?_, rfl, rfl⟩)
      cases lead with
      | start => rfl
      | link before m k => simp [hcomponents, Lead.components] at hempty
  · next hne =>
      refine Reads.startSimple ?_ hstep
      refine .sequence hnegations (.inl ⟨e, lead, hfinished, hts, hcomponents, ?_, rfl, rfl⟩)
      rcases hlocation with rfl | hlocation
      · simp [hcomponents, Lead.components] at hne
      · exact hlocation

/-- The token behind a sequence, unless it ends the list. -/
theorem Reads.stepBetween {spaced : Bool} (gap : Gap)
    (hchar : t.kind = .char → ∃ c, t.text.toList = [c]) (hnegations : s.negations = [])
    (h : InSequence s us)
    (hspaced : spaced = true → ∃ (space : Word .space) (after : Gap), gap.1 = space.1 :: after.1)
    (hstep : s.stepBetween spaced t = .pending s') : Reads s' (us ++ gap.1 ++ [t]) := by
  obtain ⟨e, lead, m, hfinished, rfl, hcomponents, hlocation, hsequence, hstart⟩ := h
  have hmembers : Construct.sequence s.sequence.reverse s.sequenceStart = m.sequence := by
    rw [hsequence, hstart, Members.sequence]
  let c : LinkedSelector := ⟨lead, m⟩
  have hcurrent : s.endSequence.current = c.selector := by
    simp only [current, endSequence, hmembers, hcomponents, hlocation]
    rfl
  simp only [Selecting.stepBetween] at hstep
  -- In the order of the definition: brace, comma, combinator, and a sequence behind white space.
  split at hstep
  · split at hstep <;> cases hstep
  · split at hstep
    · next hcomma =>
        simp only [endSelector] at hstep
        cases hlegal : s.endSequence.current.pseudoElementFault? with
        | some phrase => simp [hlegal] at hstep
        | none =>
            rw [hlegal] at hstep
            cases hstep
            have hc : c.selector.pseudoElementFault? = none := by rw [← hcurrent, hlegal]
            refine ⟨hnegations, .comma e ⟨c, hc⟩ gap ⟨t, hcomma⟩ .empty, .start, ?_, ?_,
              fun _ => rfl, .inl rfl⟩
            · simp only [hcurrent, Earlier.latest]
              exact congrArg _ hfinished
            · simp [Earlier.tokens, Lead.tokens, LinkedSelector.tokens, c]
    · split at hstep
      · next kind hcombinator =>
          cases hstep
          obtain ⟨d, hd, hkind⟩ := Option.bind_eq_some_iff.1 hcombinator
          have hd' : t.isChar d = true := by
            have htext : t.kind = .char := by
              simp only [Token.char?] at hd
              split at hd
              · next hk => simpa using hk
              · cases hd
            obtain ⟨x, hx⟩ := hchar htext
            simp only [Token.char?, htext, hx, BEq.rfl, if_true, List.head?_cons] at hd
            cases hd
            simp [Token.isChar, htext, hx]
          refine ⟨hnegations, e, .link lead m (.written gap d kind hkind ⟨t, hd'⟩ .empty),
            hfinished, ?_, fun l => ?_, .inr (fun l => ?_)⟩
          · simp [Lead.tokens, Link.tokens]
          · simp [Lead.components, Link.construct, endSequence, hmembers, hcomponents]
          · exact hlocation
      · split at hstep
        · next hsp =>
            obtain ⟨space, after, hgap⟩ := hspaced hsp
            refine Reads.startSequence (e := e) (.link lead m (.descendant space after))
              ?_ ?_ ?_ ?_ (.inr ?_) hstep
            · exact hnegations
            · exact hfinished
            · simp [Lead.tokens, Link.tokens, hgap]
            · simp [Lead.components, Link.construct, endSequence, hmembers, hcomponents]
            · exact hlocation
        · cases hstep

/-- The parenthesis that closes a negation. -/
theorem Reads.closeNegation (p : Plain) (gap : Gap) (ht : t.isChar ')' = true)
    (hpermits : Context.negation.permits p.construct = true) (h : Around s p.first.location us)
    (hstep : s.closeNegation p.construct t = .pending s') :
    Reads s' (us ++ (p.tokens ++ gap.1) ++ [t]) := by
  cases h with
  | sequence hnegations h => simp [Selecting.closeNegation, hnegations] at hstep
  | deeper head next outer hnegations =>
      simp [Selecting.closeNegation, hnegations, Selecting.place, not_permits_negation] at hstep
  | negation colons f isNegation before us hnegations h hts =>
      simp only [Selecting.closeNegation, hnegations] at hstep
      have hplaced := Reads.place
        (.negation colons f isNegation before p hpermits gap ⟨t, ht⟩)
        (s := { s with negations := [] }) (.sequence rfl h) hstep
      simpa [hts, Simple.tokens, Simple.first, Simple.rest] using hplaced

/-- The token behind the colons of a pseudo selector. -/
theorem Reads.stepPseudo (colons : Colons) (h : Around s colons.first.location us)
    (hstep : s.stepPseudo colons.head t = .pending s') :
    Reads s' (us ++ colons.first :: colons.rest ++ [t]) := by
  simp only [Selecting.stepPseudo] at hstep
  split at hstep
  · next hcolon =>
      cases colons with
      | one colon =>
          simp only [Bool.and_eq_true] at hcolon
          cases hstep
          have hpart := Reads.of_partial [colon.1, t]
            (h.inPhase (.pseudo ⟨.pseudoElement, colon.1.location⟩))
            ⟨.two colon ⟨t, hcolon.1⟩, rfl, rfl, rfl⟩
          simpa [Colons.first, Colons.rest, Colons.head] using hpart
      | two colon second => simp [Colons.head, Colons.kind] at hcolon
  · split at hstep
    · next hkind =>
        have hplaced := Reads.place (.plain (.pseudo colons ⟨t, hkind⟩)) h hstep
        simpa [Simple.tokens, Simple.first, Simple.rest, Plain.first, Plain.rest] using hplaced
    · next hkind =>
        split at hstep
        · next hname =>
            have hname' : t.functionName = "not" := by simpa using hname
            cases hstep
            refine ⟨by simp, fun l => ?_⟩
            cases h with
            | sequence hnegations h =>
                refine .negation colons ⟨t, hkind⟩ hname' .empty us ?_ h (by simp)
                simp [hnegations]
            | negation around _ _ _ _ hnegations =>
                exact .deeper colons.head around.head [] (by simp [hnegations])
            | deeper head next outer hnegations =>
                exact .deeper colons.head head (next :: outer) (by simp [hnegations])
        · next hname =>
            have hname' : t.functionName ≠ "not" := by simpa using hname
            cases hstep
            have hpart := Reads.of_partial (colons.first :: (colons.rest ++ [t]))
              (h.inPhase (.arguments colons.head (colons.head.kind.colons ++ t.functionName) []))
              ⟨colons, ⟨t, hkind⟩, .nil, hname', rfl, rfl, rfl, rfl, rfl⟩
            simpa using hpart
    · cases hstep

/-- An argument of a pseudo selector, or what starts a function or group. -/
theorem Reads.startArgument (colons : Colons) (f : Word .function)
    (hname : f.1.functionName ≠ "not") (arguments : Arguments)
    (h : Around s colons.first.location us) (ht : t.isChar ')' = false)
    (hstep : s.stepArgument colons.head (colons.kind.colons ++ f.1.functionName) arguments.latest t
      (Nesting.start .pseudoArgument t) = .pending s') :
    Reads s' (us ++ colons.first :: (colons.rest ++ f.1 :: arguments.tokens) ++ [t]) := by
  have hnested : ∀ n : Nesting, s.stepArgument colons.head (colons.kind.colons ++ f.1.functionName)
      arguments.latest t (.pending n) = .pending s' →
      Reads s' (us ++ colons.first :: (colons.rest ++ f.1 :: arguments.tokens) ++ [t]) := by
    intro n hn
    cases hn
    have hpart := Reads.of_partial
      (colons.first :: (colons.rest ++ f.1 :: arguments.tokens) ++ [t])
      (h.inPhase (.argumentNested colons.head (colons.kind.colons ++ f.1.functionName)
        arguments.latest n)) trivial
    simpa using hpart
  cases hstart : t.valueStart with
  | atom c =>
      simp only [Nesting.start, hstart] at hstep
      split at hstep
      · next hpermits =>
          cases hstep
          have hpart := Reads.of_partial
            (colons.first :: (colons.rest ++ f.1 :: (arguments.tokens ++ [t])))
            (h.inPhase (.arguments colons.head (colons.kind.colons ++ f.1.functionName)
              (c :: arguments.latest)))
            ⟨colons, f, .atom arguments t c hstart hpermits ht, hname, rfl, rfl, rfl, rfl, rfl⟩
          simpa using hpart
      · cases hstep
  | function name =>
      simp only [Nesting.start, hstart] at hstep
      exact hnested _ hstep
  | group delimiter =>
      simp only [Nesting.start, hstart] at hstep
      exact hnested _ hstep
  | nothing =>
      simp only [Nesting.start, hstart] at hstep
      cases hstep

/-- In a selector no function or group is taken, so none that is open is ever finished. -/
theorem Nesting.step_ne_complete {context : Context}
    (hcontext : context ∈ [.attributeValue, .pseudoArgument]) (limit : TokenClass) (n : Nesting)
    (c : Construct) : n.step context limit t ≠ .complete c := by
  have hclose : ∀ f : Frame, context.permits f.close = false := by
    rintro ⟨opening, location, members⟩
    simp only [List.mem_cons, List.not_mem_nil, or_false] at hcontext
    rcases hcontext with rfl | rfl <;> cases opening <;> rfl
  have hplace : ∀ (m : Nesting) (d : Construct), m.place context d ≠ .complete c := by
    intro m d
    simp only [Nesting.place]
    split <;> simp
  simp only [Nesting.step]
  split
  · simp only [Nesting.close]
    split
    · simp [hclose]
    · exact hplace _ _
  · split
    · simp
    · split
      · exact hplace _ _
      all_goals simp

/-- The value of an attribute, or what starts a function or group. -/
theorem Reads.startAttributeValue (o : Mark '[') (gap : Gap) (n : TypeName) (after : Gap)
    {operator : Token} {matching : MatchOperator} (behind : Gap)
    (hoperator : MatchOperator.ofToken? operator = some matching) (h : Around s o.1.location us)
    (hstep : s.stepAttributeValue o.1.location [n.construct, .matching matching operator.location] t
      (Nesting.start .attributeValue t) = .pending s') :
    Reads s' (us ++ o.1 :: (gap.1 ++ (n.tokens ++ (after.1 ++ operator :: behind.1))) ++ [t]) := by
  rw [List.append_assoc]
  cases hstart : t.valueStart with
  | atom c =>
      simp only [Nesting.start, hstart] at hstep
      split at hstep
      · next hpermits =>
          cases hstep
          have hread := Reads.of_partial _ (h.inPhase (.attributeClose o.1.location
              ([n.construct, .matching matching operator.location] ++ [c])))
            ⟨o, gap, n, after, ⟨operator, matching, hoperator, behind, t, c, hstart, hpermits,
              .empty⟩, rfl, rfl, rfl, rfl⟩
          simpa [AttributeTest.tokens] using hread
      · cases hstep
  | function name | group delimiter =>
      simp only [Nesting.start, hstart, stepAttributeValue] at hstep
      cases hstep
      exact Reads.of_partial _ (h.inPhase _) trivial
  | nothing =>
      simp only [Nesting.start, hstart, stepAttributeValue] at hstep
      cases hstep

/-- The operator behind the name of an attribute, or the bracket that closes the selector. -/
theorem Reads.stepOperator (o : Mark '[') (gap : Gap) (n : TypeName) (after : Gap)
    (hphase : s.phase = .attributeOperator o.1.location n.construct)
    (h : Around s o.1.location us) (hstep : s.step t = .pending s') :
    Reads s' (us ++ o.1 :: (gap.1 ++ (n.tokens ++ after.1)) ++ [t]) := by
  simp only [Selecting.step, hphase] at hstep
  split at hstep
  · next hclose =>
      have hplaced := Reads.place (.plain (.attributed o gap n after none ⟨t, hclose⟩)) h hstep
      simpa [Simple.tokens, Simple.first, Simple.rest, Plain.first, Plain.rest] using hplaced
  · split at hstep
    · next operator hoperator =>
        cases hstep
        have hread := Reads.of_partial _ (h.inPhase (.attributeValue o.1.location
            [n.construct, .matching operator t.location]))
          ⟨o, gap, n, after, t, operator, .empty, hoperator, rfl, rfl, rfl, rfl⟩
        simpa using hread
    · cases hstep

/-- The token behind a member of a sequence. -/
theorem Reads.stepMember (hchar : t.kind = .char → ∃ c, t.text.toList = [c])
    (hphase : s.phase = .member) (hnegations : s.negations = []) (h : InSequence s ts)
    (hstep : s.step t = .pending s') : Reads s' (ts ++ [t]) := by
  simp only [Selecting.step, hphase] at hstep
  split at hstep
  · next hspace =>
      cases hstep
      have hspace' : t.kind = .space := by simpa using hspace
      have hblank : t.isBlank = true := Token.isBlank_iff.2 (.inl hspace')
      exact ⟨hnegations, ts, Gap.empty.snoc t hblank, h, rfl, fun _ => ⟨⟨t, hspace'⟩, .empty, rfl⟩⟩
  · split at hstep
    · next hcomment =>
        -- A comment ends the sequence as well, but no combinator is read from it.
        cases hstep
        have hblank : t.isBlank = true := Token.isBlank_iff.2 (.inr (by simpa using hcomment))
        exact ⟨hnegations, ts, Gap.empty.snoc t hblank, h, rfl, by simp⟩
    · split at hstep
      · simpa using Reads.stepBetween .empty hchar hnegations h (by simp) hstep
      · exact Reads.startSimple (.sequence hnegations (.inr h)) hstep

/-! ## A token in each phase -/

/-- White space and comments where they only separate. -/
theorem Reads.blank (h : Reads s ts) (hblank : t.isBlank = true)
    (hloose : s.phase.isTight = false) (hts : ts ≠ []) : Reads s (ts ++ [t]) := by
  rcases s with ⟨finished, location, components, sequence, start, negations, phase⟩
  -- What is in progress ends with a gap in every loose phase, and the blank goes there.
  cases phase with
  | member | typing | pseudo => cases hloose
  | opening =>
      obtain ⟨hnegations, e, lead, hfinished, rfl, hcomponents, hlocation⟩ := h
      cases lead with
      | start =>
          cases e with
          | start => exact absurd rfl hts
          | comma before c gap comma after =>
              exact ⟨hnegations, .comma before c gap comma (after.snoc t hblank), .start, hfinished,
                by simp [Earlier.tokens, Lead.tokens], hcomponents, hlocation⟩
      | link before m k =>
          cases k with
          | descendant space after =>
              exact ⟨hnegations, e, .link before m (.descendant space (after.snoc t hblank)),
                hfinished, by simp [Lead.tokens, Link.tokens], hcomponents,
                .inr (hlocation.resolve_left (by simp))⟩
          | written gap c k isCombinator u after =>
              exact ⟨hnegations, e, .link before m (.written gap c k isCombinator u
                (after.snoc t hblank)), hfinished, by simp [Lead.tokens, Link.tokens], hcomponents,
                .inr (hlocation.resolve_left (by simp))⟩
  | between spaced =>
      obtain ⟨hnegations, us, gap, hus, rfl, hspaced⟩ := h
      refine ⟨hnegations, us, gap.snoc t hblank, hus, by simp, fun hsp => ?_⟩
      obtain ⟨space, after, hgap⟩ := hspaced hsp
      exact ⟨space, after.snoc t hblank, by simp [hgap]⟩
  | negated =>
      obtain ⟨hne, h⟩ := h
      refine ⟨hne, fun l => ?_⟩
      cases h l with
      | sequence hnegations _ => exact absurd hnegations hne
      | deeper head next outer hnegations => exact .deeper head next outer hnegations
      | negation colons f isNegation gap us hnegations h hts =>
          exact .negation colons f isNegation (gap.snoc t hblank) us hnegations h (by simp [hts])
  | attributeName bracket =>
      obtain ⟨l, us, _, haround, ⟨o, gap, rfl, hl, hbracket⟩, rfl⟩ := h
      exact ⟨l, us, _, haround, ⟨o, gap.snoc t hblank, rfl, hl, hbracket⟩, by simp⟩
  | attributeOperator bracket name =>
      obtain ⟨l, us, _, haround, ⟨o, gap, n, after, rfl, hrest⟩, rfl⟩ := h
      exact ⟨l, us, _, haround, ⟨o, gap, n, after.snoc t hblank, rfl, hrest⟩, by simp⟩
  | attributeValue bracket parts =>
      obtain ⟨l, us, _, haround, ⟨o, gap, n, after, op, m, behind, hop, rfl, hrest⟩, rfl⟩ := h
      exact ⟨l, us, _, haround, ⟨o, gap, n, after, op, m, behind.snoc t hblank, hop, rfl, hrest⟩,
        by simp⟩
  | attributeClose bracket parts =>
      obtain ⟨l, us, _, haround, ⟨o, gap, n, after, test, rfl, hrest⟩, rfl⟩ := h
      exact ⟨l, us, _, haround, ⟨o, gap, n, after, { test with after := test.after.snoc t hblank },
        rfl, hrest⟩, by simp [AttributeTest.tokens]⟩
  | arguments head name members =>
      obtain ⟨l, us, _, haround, ⟨colons, f, arguments, hname, rfl, hrest⟩, rfl⟩ := h
      exact ⟨l, us, _, haround, ⟨colons, f, .blank arguments t hblank, hname, rfl, hrest⟩,
        by simp [Arguments.tokens]⟩
  | negationClose argument =>
      obtain ⟨l, us, _, haround, ⟨p, gap, hpermits, rfl, hrest⟩, rfl⟩ := h
      exact ⟨l, us, _, haround, ⟨p, gap.snoc t hblank, hpermits, rfl, hrest⟩, by simp⟩
  | attributeNested bracket parts start n =>
      obtain ⟨l, us, vs, haround, -, rfl⟩ := h
      exact ⟨l, us, vs ++ [t], haround, trivial, by simp⟩
  | argumentNested head name members n =>
      obtain ⟨l, us, vs, haround, -, rfl⟩ := h
      exact ⟨l, us, vs ++ [t], haround, trivial, by simp⟩

/-- A token that is taken, in a phase where nothing is left to settle. -/
theorem Reads.take (h : Reads s ts) (hchar : t.kind = .char → ∃ c, t.text.toList = [c])
    (hphase : ∀ phase start use, s.phase ≠ .typing phase start use)
    (hstep : s.step t = .pending s') : Reads s' (ts ++ [t]) := by
  rcases s with ⟨finished, location, components, sequence, start, negations, phase⟩
  let s : Selecting := ⟨finished, location, components, sequence, start, negations, phase⟩
  -- One case for each phase: what is in progress there, with one more token.
  cases phase with
  | typing phase start use => exact absurd rfl (hphase phase start use)
  | opening =>
      obtain ⟨hnegations, e, lead, hfinished, hts, hcomponents, hlocation⟩ := h
      exact Reads.startSequence (s := s) _ hnegations hfinished hts (hcomponents _)
        (hlocation.imp id (fun h => h _)) hstep
  | member => exact Reads.stepMember hchar rfl h.1 h.2 hstep
  | between spaced =>
      obtain ⟨hnegations, us, gap, hmembers, rfl, hspaced⟩ := h
      exact Reads.stepBetween (s := s) gap hchar hnegations hmembers hspaced hstep
  | negated => exact Reads.startSimple (h.2 _) hstep
  | attributeName bracket =>
      obtain ⟨l, us, _, haround, ⟨o, gap, rfl, hl, hbracket⟩, rfl⟩ := h
      simp only [Selecting.step] at hstep
      split at hstep
      · next step htype =>
          subst hstep
          have hread := Reads.startType (.attribute bracket) (o.1 :: (gap.1 ++ [t])) haround
            ⟨o, gap, rfl, hl, hbracket⟩ htype
          simpa using hread
      · cases hstep
  | attributeOperator bracket name =>
      obtain ⟨l, us, _, haround, ⟨o, gap, n, after, rfl, rfl, rfl, rfl⟩, rfl⟩ := h
      exact Reads.stepOperator o gap n after rfl haround hstep
  | attributeValue bracket parts =>
      obtain ⟨l, us, _, haround, ⟨o, gap, n, after, op, m, behind, hop, rfl, rfl, rfl, rfl⟩, rfl⟩ :=
        h
      exact Reads.startAttributeValue o gap n after behind hop haround hstep
  | attributeNested bracket parts first n =>
      obtain ⟨l, us, vs, haround, -, rfl⟩ := h
      simp only [Selecting.step] at hstep
      cases hbuild : n.step .attributeValue TokenClass.closeBracket t with
      | complete c => exact absurd hbuild (Nesting.step_ne_complete (by simp) _ n c)
      | pending n' =>
          rw [hbuild] at hstep
          cases hstep
          exact ⟨_, us, vs ++ [t], haround.inPhase _, trivial, (List.append_assoc ..)⟩
      | rejected =>
          rw [hbuild] at hstep
          cases hstep
  | attributeClose bracket parts =>
      obtain ⟨l, us, _, haround, ⟨o, gap, n, after, test, rfl, rfl, rfl, rfl⟩, rfl⟩ := h
      simp only [Selecting.step] at hstep
      split at hstep
      · next hclose =>
          have hplaced := Reads.place (.plain (.attributed o gap n after (some test) ⟨t, hclose⟩))
            haround hstep
          simpa [Simple.tokens, Simple.first, Simple.rest, Plain.first, Plain.rest] using hplaced
      · cases hstep
  | pseudo head =>
      obtain ⟨l, us, _, haround, ⟨colons, rfl, rfl, rfl⟩, rfl⟩ := h
      exact Reads.stepPseudo colons haround hstep
  | arguments head name members =>
      obtain ⟨l, us, _, haround, ⟨colons, f, arguments, hname, rfl, rfl, rfl, rfl, rfl⟩, rfl⟩ := h
      simp only [Selecting.step] at hstep
      split at hstep
      · next hclose =>
          have hplaced := Reads.place
            (.plain (.functional colons f hname arguments ⟨t, hclose⟩)) haround hstep
          simpa [Simple.tokens, Simple.first, Simple.rest, Plain.first, Plain.rest] using hplaced
      · next hclose =>
          split at hstep
          · cases hstep
          · exact Reads.startArgument colons f hname arguments haround (by simpa using hclose) hstep
  | argumentNested head name members n =>
      obtain ⟨l, us, vs, haround, -, rfl⟩ := h
      simp only [Selecting.step] at hstep
      cases hbuild : n.step .pseudoArgument TokenClass.openBrace t with
      | complete c => exact absurd hbuild (Nesting.step_ne_complete (by simp) _ n c)
      | pending n' =>
          rw [hbuild] at hstep
          cases hstep
          exact ⟨_, us, vs ++ [t], haround.inPhase _, trivial, (List.append_assoc ..)⟩
      | rejected =>
          rw [hbuild] at hstep
          cases hstep
  | negationClose argument =>
      obtain ⟨l, us, _, haround, ⟨p, gap, hpermits, rfl, rfl, rfl⟩, rfl⟩ := h
      simp only [Selecting.step] at hstep
      split at hstep
      · next hclose => exact Reads.closeNegation p gap hclose hpermits haround hstep
      · cases hstep

theorem TypePlace.snoc {start : Token} {use : TypeUse} (h : TypePlace l start us vs use)
    (t : Token) : TypePlace l start (us ++ [t]) (vs ++ [t]) use := by
  rcases use with _ | bracket
  · exact ⟨by rw [h.1], h.2⟩
  · obtain ⟨o, gap, rfl, hrest⟩ := h
    exact ⟨o, gap, by simp, hrest⟩

/-- A token in a phase where nothing is left to settle. -/
theorem Reads.loose_or_take (h : Reads s ts) (hts : ts = [] → t.isBlank = false)
    (hchar : t.kind = .char → ∃ c, t.text.toList = [c])
    (hphase : ∀ phase start use, s.phase ≠ .typing phase start use)
    (hstep : (if t.isBlank && !s.phase.isTight then .pending s else s.step t) = .pending s') :
    Reads s' (ts ++ [t]) := by
  split at hstep
  · next hblank =>
      cases hstep
      simp only [Bool.and_eq_true, Bool.not_eq_true'] at hblank
      exact h.blank hblank.1 hblank.2 (fun e => by simp [hts e] at hblank)
  · exact h.take hchar hphase hstep

/-- What the next token settles, the tokens before it have made up. -/
theorem Reads.settle (h : Reads s ts) (hsettle : s.settle (some t) = .pending s') :
    Reads s' ts := by
  simp only [Selecting.settle] at hsettle
  split at hsettle
  · next text start use hphase =>
      split at hsettle
      · cases hsettle
        exact h
      · rcases s with ⟨finished, location, components, sequence, sequenceStart, negations, phase⟩
        cases hphase
        obtain ⟨l, us, vs, haround, ⟨ws, ⟨hstart, rfl, rfl⟩, hplace⟩, rfl⟩ := h
        exact Reads.placeType (.plain ⟨start, hstart⟩) haround hplace hsettle
  · split at hsettle <;> cases hsettle
    exact h
  · cases hsettle
    exact h

/-- **What has been read grows by one token at a time.** -/
theorem Reads.advance (h : Reads s ts) (hts : ts = [] → t.isBlank = false)
    (hchar : t.kind = .char → ∃ c, t.text.toList = [c]) (hstep : s.advance t = .pending s') :
    Reads s' (ts ++ [t]) := by
  -- A name is settled before the token is taken; in the other phases there is nothing to settle.
  by_cases htyping : ∃ phase start use, s.phase = .typing phase start use
  · rcases s with ⟨finished, location, components, sequence, sequenceStart, negations, phase⟩
    obtain ⟨phase, start, use, rfl⟩ := htyping
    let s : Selecting := ⟨finished, location, components, sequence, sequenceStart, negations,
      .typing phase start use⟩
    obtain ⟨l, us, vs, haround, ⟨ws, hpart, hplace⟩, rfl⟩ := h
    cases phase with
    | name text =>
        obtain ⟨hstart, rfl, rfl⟩ := hpart
        by_cases hbar : t.isChar '|' = true
        · have hany : (some t).any (·.isChar '|') = true := hbar
          simp only [Selecting.advance, Selecting.settle, hany, if_true, Selecting.step, stepTyping,
            Token.not_isBlank_of_isChar hbar, Bool.false_and, Bool.false_eq_true, if_false] at hstep
          cases hstep
          rw [List.append_assoc]
          exact Reads.of_partial _ (haround.inPhase _)
            ⟨_, ⟨hstart, ⟨t, hbar⟩, rfl, rfl⟩, hplace.snoc t⟩
        · have hany : (some t).any (·.isChar '|') = false := by simpa using hbar
          simp only [Selecting.advance, Selecting.settle, hany, Bool.false_eq_true,
            if_false] at hstep
          cases htype : s.placeType start use start.text with
          | pending s₁ =>
              rw [htype] at hstep
              have hread := Reads.placeType (.plain ⟨start, hstart⟩) haround hplace htype
              exact hread.loose_or_take hts hchar (not_typing_of_placeType htype) hstep
          | complete list => simp [s, htype] at hstep
          | rejected p => simp [s, htype] at hstep
    | bar =>
        obtain ⟨hstart, rfl⟩ := hpart
        simp only [Selecting.advance, Selecting.settle] at hstep
        by_cases hkind : t.kind = .ident
        · have hblank : t.isBlank = false := by simp [Token.isBlank, hkind]
          simp only [hkind, BEq.rfl, if_true, hblank, Bool.false_and, Bool.false_eq_true, if_false,
            Selecting.step, stepTyping] at hstep
          rw [List.append_assoc]
          exact Reads.placeType (.bare ⟨start, hstart⟩ ⟨t, hkind⟩) haround (hplace.snoc t) hstep
        · simp [hkind] at hstep
    | qualified text =>
        obtain ⟨hstart, bar, rfl, rfl⟩ := hpart
        simp only [Selecting.advance, Selecting.settle, SelectorPhase.isTight, Bool.not_true,
          Bool.and_false, Bool.false_eq_true, if_false, Selecting.step, stepTyping] at hstep
        split at hstep
        · next hname =>
            have hname' : t.kind = .ident ∨ t.isChar '*' = true := by simpa using hname
            rw [List.append_assoc]
            exact Reads.placeType (.qualified ⟨start, hstart⟩ bar ⟨t, hname'⟩) haround
              (hplace.snoc t) hstep
        · cases hstep
  · have hphase : ∀ phase start use, s.phase ≠ .typing phase start use :=
      fun phase start use he => htyping ⟨phase, start, use, he⟩
    have hsettle : s.settle (some t) = .pending s := by
      rcases s with ⟨finished, location, components, sequence, start, negations, phase⟩
      cases phase with
      | typing phase start use => exact absurd rfl (hphase phase start use)
      | _ => rfl
    rw [Selecting.advance, hsettle] at hstep
    exact h.loose_or_take hts hchar hphase hstep

theorem Reads.feed (h : Reads s ts) (hts : ts = [] → ∀ u ∈ us.head?, u.isBlank = false)
    (hchar : ∀ u ∈ us, u.kind = .char → ∃ c, u.text.toList = [c])
    (hfeed : s.feed us = some s') : Reads s' (ts ++ us) := by
  induction us generalizing s ts with
  | nil =>
      cases hfeed
      simpa using h
  | cons u us ih =>
      simp only [Selecting.feed] at hfeed
      cases hstep : s.advance u with
      | pending s₁ =>
          rw [hstep] at hfeed
          have hread :=
            h.advance (fun e => hts e u (by simp)) (hchar u (List.mem_cons_self ..)) hstep
          have hmore := ih hread (by simp) (fun v hv => hchar v (List.mem_cons_of_mem _ hv)) hfeed
          rwa [List.append_assoc] at hmore
      | complete list =>
          rw [hstep] at hfeed
          cases hfeed
      | rejected p =>
          rw [hstep] at hfeed
          cases hfeed

/-! ## The end of the list -/

/-- Only an opening brace behind a sequence ends the list. -/
theorem stepBetween_of_step {list : List Selector} (h : s.step t = .complete list) :
    (s.phase = .member ∨ ∃ spaced, s.phase = .between spaced) ∧
      ∃ spaced, s.stepBetween spaced t = .complete list := by
  by_cases hmember : s.phase = .member
  · refine ⟨.inl hmember, false, ?_⟩
    simp only [step, hmember] at h
    split at h
    · cases h
    split at h
    · cases h
    split at h
    · exact h
    · exact absurd h ((s.unfinished_startSimple t).ne_complete list)
  by_cases hbetween : ∃ spaced, s.phase = .between spaced
  · obtain ⟨spaced, hphase⟩ := hbetween
    simp only [step, hphase] at h
    exact ⟨.inr ⟨spaced, hphase⟩, spaced, h⟩
  · have hunfinished := s.unfinished_step t hmember (fun spaced he => hbetween ⟨spaced, he⟩)
    exact absurd h (hunfinished.ne_complete list)

/-- The brace behind the last sequence. -/
theorem exists_selectorList_of_stepBetween {spaced : Bool} {list : List Selector} (gap : Gap)
    (h : InSequence s us) (hstep : s.stepBetween spaced t = .complete list) :
    t.isChar '{' = true ∧ ∃ x : SelectorList, x.tokens = us ++ gap.1 ∧ x.selectors = list := by
  obtain ⟨e, lead, m, hfinished, rfl, hcomponents, hlocation, hsequence, hstart⟩ := h
  let c : LinkedSelector := ⟨lead, m⟩
  have hcurrent : s.endSequence.current = c.selector := by
    simp only [current, endSequence, hsequence, hstart, hcomponents, hlocation]
    rfl
  simp only [Selecting.stepBetween, endSelector] at hstep
  split at hstep
  · next hbrace =>
      cases hlegal : s.endSequence.current.pseudoElementFault? with
      | some phrase => simp [hlegal] at hstep
      | none =>
          rw [hlegal] at hstep
          cases hstep
          have hc : c.selector.pseudoElementFault? = none := by rw [← hcurrent, hlegal]
          refine ⟨hbrace, ⟨e, ⟨c, hc⟩, gap⟩,
            by simp [SelectorList.tokens, LinkedSelector.tokens, c], ?_⟩
          simp only [SelectorList.selectors, hcurrent]
          exact congrArg (fun finished => (c.selector :: finished).reverse) hfinished.symm
  · split at hstep
    · cases hlegal : s.endSequence.current.pseudoElementFault? <;> simp [hlegal] at hstep
    · split at hstep
      · cases hstep
      · split at hstep
        · exact absurd hstep ((unfinished_startSequence _ t).ne_complete list)
        · cases hstep

/-- Trees that are complete with the next token. -/
theorem Reads.complete {list : List Selector} (h : Reads s ts)
    (hstep : s.advance t = .complete list) :
    t.isChar '{' = true ∧ ∃ x : SelectorList, x.tokens = ts ∧ x.selectors = list := by
  simp only [Selecting.advance] at hstep
  cases hsettle : s.settle (some t) with
  | rejected p =>
      rw [hsettle] at hstep
      cases hstep
  | complete list' => exact absurd hsettle ((s.unfinished_settle (some t)).ne_complete list')
  | pending s₁ =>
      rw [hsettle] at hstep
      have hread := h.settle hsettle
      simp only at hstep
      split at hstep
      · cases hstep
      · obtain ⟨hphase, spaced, hbetween⟩ := stepBetween_of_step hstep
        rcases hphase with hphase | ⟨spaced', hphase⟩
        · simp only [Reads, hphase] at hread
          simpa using exists_selectorList_of_stepBetween .empty hread.2 hbetween
        · simp only [Reads, hphase] at hread
          obtain ⟨-, us, gap, hsequence, rfl, -⟩ := hread
          exact exists_selectorList_of_stepBetween gap hsequence hbetween

/-- **Tokens that are read as a list of selectors are the tokens of such a list.** -/
theorem exists_selectorList_of_feed {list : List Selector}
    (hhead : ∀ u ∈ ts.head?, u.isBlank = false)
    (hchar : ∀ u ∈ ts, u.kind = .char → ∃ c, u.text.toList = [c])
    (hfeed : (ofLocation l).feed ts = some s) (hend : s.advance t = .complete list) :
    t.isChar '{' = true ∧ ∃ x : SelectorList, x.tokens = ts ∧ x.selectors = list := by
  have hinitial : Reads (ofLocation l) [] :=
    ⟨rfl, .start, .start, rfl, rfl, fun _ => rfl, .inl rfl⟩
  exact (hinitial.feed (fun _ => hhead) hchar hfeed).complete hend

end Steps

end Concrete

end EpubStyle
