import EpubStyle.Proofs.Concrete.Selectors

/-!
# Reading selectors

`Selecting.advance` gives the machine of selectors one token, blank or not, and `Selecting.feed`
gives it several. A type selector is only finished by the token behind it, so a state may stand for
another one that it turns into with any next token but a bar (`Selecting.Becomes`).

Every tree of the concrete syntax is read as what it says, from the inside out: `TypeName.reaches`,
`Plain.reaches`, `Simple.reaches`, `Members.reaches`, `Lead.reaches`, `Earlier.reaches`, and for
the whole list with its brace `SelectorList.feed_tokens`.
-/

set_option autoImplicit false

namespace EpubStyle

open Concrete

namespace Selecting

/-- The same selectors in another phase. -/
abbrev inPhase (s : Selecting) (phase : SelectorPhase) : Selecting := { s with phase := phase }

/-! ## One token after the other -/

/-- Settle what the token ends, then take it unless it only separates. -/
def advance (s : Selecting) (t : Token) : SelectingStep :=
  match s.settle (some t) with
  | .pending s => if t.isBlank && !s.phase.isTight then .pending s else s.step t
  | .complete list => .complete list
  | .rejected p => .rejected p

/-- Give tokens one after the other, none of which ends the list. -/
def feed (s : Selecting) : List Token → Option Selecting
  | [] => some s
  | t :: ts =>
      match s.advance t with
      | .pending s => s.feed ts
      | .complete _ | .rejected _ => none

@[simp] theorem feed_nil (s : Selecting) : s.feed [] = some s := rfl

theorem feed_append (s : Selecting) (ts us : List Token) :
    s.feed (ts ++ us) = (s.feed ts).bind (fun s' => s'.feed us) := by
  induction ts generalizing s with
  | nil => rfl
  | cons t ts ih =>
      simp only [List.cons_append, feed]
      cases s.advance t with
      | pending s' => exact ih s'
      | complete list => rfl
      | rejected p => rfl

/-- A state that no token changes before it is taken. -/
def Settled (s : Selecting) : Prop := ∀ t : Token, s.settle (some t) = .pending s

/-- With any next token but a bar, one state is as good as the other. -/
def Becomes (s s' : Selecting) : Prop :=
  ∀ t : Token, t.isChar '|' = false → s.advance t = s'.advance t

/-- The tokens lead from one state to another, up to what the next token settles. -/
def Reaches (s : Selecting) (ts : List Token) (s' : Selecting) : Prop :=
  ∃ u, s.feed ts = some u ∧ u.Becomes s'

theorem Reaches.refl (s : Selecting) : s.Reaches [] s := ⟨s, rfl, fun _ _ => rfl⟩

theorem Reaches.feed_trans {s s' s'' : Selecting} {ts us : List Token} (h : s.feed ts = some s')
    (h' : s'.Reaches us s'') : s.Reaches (ts ++ us) s'' := by
  obtain ⟨u, hfeed, hbecomes⟩ := h'
  exact ⟨u, by rw [feed_append, h, Option.bind_some, hfeed], hbecomes⟩

/-- One token before the others. -/
theorem Reaches.cons {s s' s'' : Selecting} {t : Token} {ts : List Token}
    (h : s.advance t = .pending s') (h' : s'.Reaches ts s'') : s.Reaches (t :: ts) s'' := by
  have hfeed : s.feed [t] = some s' := by simp [feed, h]
  exact Reaches.feed_trans hfeed h'

theorem Reaches.of_feed {s s' : Selecting} {ts : List Token} (h : s.feed ts = some s') :
    s.Reaches ts s' := ⟨s', h, fun _ _ => rfl⟩

/-- One way after the other, unless the second starts with a bar. -/
theorem Reaches.trans {s s' s'' : Selecting} {ts us : List Token} (h : s.Reaches ts s')
    (h' : s'.Reaches us s'') (hbar : ∀ t ∈ us.head?, t.isChar '|' = false) :
    s.Reaches (ts ++ us) s'' := by
  obtain ⟨u, hfeed, hbecomes⟩ := h
  obtain ⟨u', hfeed', hbecomes'⟩ := h'
  -- The first token of the second way settles the state in which the first way ends.
  cases us with
  | nil =>
      cases hfeed'
      refine ⟨u, by simpa using hfeed, fun t ht => ?_⟩
      rw [hbecomes t ht, hbecomes' t ht]
  | cons t us =>
      refine ⟨u', ?_, hbecomes'⟩
      rw [feed_append, hfeed, Option.bind_some]
      simp only [feed] at hfeed' ⊢
      rw [hbecomes t (hbar t (by simp))]
      exact hfeed'

/-- One token of a settled state. -/
theorem Settled.advance {s : Selecting} (h : s.Settled) {t : Token} (ht : t.isBlank = false) :
    s.advance t = s.step t := by
  simp [Selecting.advance, h t, ht]

/-- One token more, unless it is a bar. -/
theorem Reaches.snoc {s s' s'' : Selecting} {ts : List Token} {t : Token} (h : s.Reaches ts s')
    (hbar : t.isChar '|' = false) (hstep : s'.advance t = .pending s'') :
    s.Reaches (ts ++ [t]) s'' :=
  h.trans (.of_feed (by simp [feed, hstep])) (by simpa using hbar)

/-- White space and comments between the parts of a selector. -/
theorem feed_gap {s : Selecting} (h : s.Settled) (hloose : s.phase.isTight = false) (g : Gap) :
    s.feed g.1 = some s := by
  rcases g with ⟨ts, hts⟩
  induction ts with
  | nil => rfl
  | cons t ts ih =>
      have ht : t.isBlank = true := hts t (List.mem_cons_self ..)
      simp only [feed, advance, h t, ht, hloose, Bool.not_false, Bool.and_self, if_true]
      exact ih (fun u hu => hts u (List.mem_cons_of_mem _ hu))

theorem not_bar_of_gap (g : Gap) : ∀ t ∈ g.1.head?, t.isChar '|' = false := by
  intro t ht
  have hblank := g.2 t (List.mem_of_head? ht)
  rw [← Bool.not_eq_true]
  intro hbar
  simp [Token.not_isBlank_of_isChar hbar] at hblank

theorem Reaches.gap {s s' : Selecting} {ts : List Token} (h : s.Reaches ts s') (hs : s'.Settled)
    (hloose : s'.phase.isTight = false) (g : Gap) : s.Reaches (ts ++ g.1) s' :=
  h.trans (.of_feed (feed_gap hs hloose g)) (not_bar_of_gap g)

/-! ## Placing simple selectors -/

/-- A simple selector is placed whatever has been under way. -/
theorem place_phase (s : Selecting) (phase : SelectorPhase) (c : Construct) (blame : Token) :
    (s.inPhase phase).place c blame = s.place c blame := by
  rcases s with ⟨finished, location, components, sequence, start, negations, phase'⟩
  cases negations <;> rfl

/-- Behind a simple selector nothing is left to settle. -/
theorem settled_of_place {s s' : Selecting} {c : Construct} {blame : Token}
    (h : s.place c blame = .pending s') : s'.Settled := by
  intro t
  simp only [place] at h
  split at h
  · split at h
    · cases h
    · cases h
      rfl
  · split at h
    · cases h
      rfl
    · cases h

/-- A finished type name, in the same way. -/
theorem settled_of_placeType {s s' : Selecting} {start : Token} {use : TypeUse} {text : String}
    (h : s.placeType start use text = .pending s') : s'.Settled := by
  rcases use with _ | bracket
  · exact settled_of_place h
  · cases h
    exact fun _ => rfl

/-- Behind a type name the simple selector goes on, or another one starts. -/
theorem not_typing_of_placeType {s s' : Selecting} {start : Token} {use : TypeUse}
    {text : String} (h : s.placeType start use text = .pending s') (phase : TypePhase)
    (start' : Token) (use' : TypeUse) : s'.phase ≠ .typing phase start' use' := by
  rcases use with _ | bracket
  · simp only [placeType, place, enter] at h
    split at h
    · split at h <;> cases h
      simp
    · split at h <;> cases h
      simp
  · cases h
    simp

theorem placeType_phase (s : Selecting) (phase : SelectorPhase) (start : Token) (use : TypeUse)
    (text : String) :
    (s.inPhase phase).placeType start use text =
      s.placeType start use text := by
  rcases use with _ | bracket
  · exact place_phase s phase _ start
  · rfl

end Selecting

namespace Concrete

open Selecting

/-! ## Type names -/

theorem not_isBlank_of_nameOrStar (t : NameOrStar) : t.1.isBlank = false := by
  rcases t.2 with h | h
  · simp [Token.isBlank, h]
  · exact Token.not_isBlank_of_isChar h

theorem isNameOrStar (t : NameOrStar) : (t.1.kind == .ident || t.1.isChar '*') = true := by
  rcases t.2 with h | h <;> simp [h]

/-- The tokens of a type name are read as its text. -/
theorem TypeName.reaches (n : TypeName) (use : TypeUse) (s s' : Selecting)
    (h : s.placeType n.first use n.text = .pending s') :
    ∃ u, s.startType? use n.first = some (.pending u) ∧ u.Reaches n.rest s' := by
  have hsettled := settled_of_placeType h
  cases n with
  | plain t =>
      -- Whether a bar follows is only known with the next token, which then settles the name.
      refine ⟨(s.inPhase (.typing (.name t.1.text) t.1 use)), ?_, ?_⟩
      · simp only [startType?, TypeName.first, isNameOrStar t, if_true]
        rfl
      · refine ⟨_, rfl, fun u hu => ?_⟩
        have hu' : (some u).any (·.isChar '|') = false := by simp [hu]
        have hsettle : (s.inPhase (.typing (.name t.1.text) t.1 use)).settle
            (some u) = .pending s' := by
          simp only [Selecting.settle, hu', Bool.false_eq_true, if_false, placeType_phase]
          exact h
        simp only [Selecting.advance, hsettle, hsettled u]
  | bare bar t =>
      have hkind : (t.1.kind == .ident) = true := by simp [t.2]
      have hblank : t.1.isBlank = false := by simp [Token.isBlank, t.2]
      refine ⟨(s.inPhase (.typing .bar bar.1 use)), ?_, ?_⟩
      · simp [startType?, TypeName.first, Token.kind_of_isChar bar.2, bar.2,
          Token.isChar_eq_false bar.2 (d := '*') (by decide), Selecting.enter]
      · refine Reaches.of_feed ?_
        simp only [TypeName.rest, Selecting.feed, Selecting.advance, Selecting.settle, hkind,
          if_true, hblank, Bool.false_and, Bool.false_eq_true, if_false, Selecting.step,
          stepTyping, placeType_phase]
        rw [show s.placeType bar.1 use ("|" ++ t.1.text) = .pending s' from h]
  | qualified space bar t =>
      have hbar : (some bar.1).any (·.isChar '|') = true := by simp [bar.2]
      refine ⟨(s.inPhase (.typing (.name space.1.text) space.1 use)), ?_, ?_⟩
      · simp only [startType?, TypeName.first, isNameOrStar space, if_true]
        rfl
      · refine Reaches.of_feed ?_
        simp only [TypeName.rest, Selecting.feed, Selecting.advance, Selecting.settle, hbar,
          if_true, Token.not_isBlank_of_isChar bar.2, Bool.false_and, Bool.false_eq_true, if_false,
          Selecting.step, stepTyping, Selecting.enter, not_isBlank_of_nameOrStar t, isNameOrStar t,
          placeType_phase]
        rw [show s.placeType space.1 use (space.1.text ++ "|" ++ t.1.text) = .pending s' from h]

/-! ## Simple selectors -/

/-- The operator of an attribute selector is a token of its own. -/
theorem operator_facts {t : Token} {o : MatchOperator} (h : MatchOperator.ofToken? t = some o) :
    t.isBlank = false ∧ t.isChar '|' = false ∧ t.isChar ']' = false := by
  cases hk : t.kind with
  | char =>
      have heq : t.isChar '=' = true := by
        simp only [MatchOperator.ofToken?, hk] at h
        rcases hc : t.isChar '=' with _ | _
        · simp [hc] at h
        · rfl
      exact ⟨Token.not_isBlank_of_isChar heq, Token.isChar_eq_false heq (by decide),
        Token.isChar_eq_false heq (by decide)⟩
  | _ => simp_all [MatchOperator.ofToken?, Token.isBlank, Token.isChar]

/-- The operator and the value of an attribute selector are read as its parts. -/
theorem AttributeTest.feed_tokens (a : AttributeTest) (s : Selecting) (bracket : Location)
    (name : Construct) :
    (s.inPhase (.attributeOperator bracket name)).feed a.tokens =
      some (s.inPhase (.attributeClose bracket (name :: a.parts))) := by
  obtain ⟨hblank, -, hclose⟩ := operator_facts a.isOperator
  have hvalue : a.value.isBlank = false :=
    Token.not_isBlank_of_valueStart (by simp [a.isValue])
  let matched : Selecting :=
    s.inPhase (.attributeValue bracket [name, .matching a.matching a.operator.location])
  have hoperator : (s.inPhase (.attributeOperator bracket name)).advance a.operator =
      .pending matched := by
    rw [Settled.advance (fun _ => rfl) hblank]
    simp [Selecting.step, hclose, a.isOperator, Selecting.enter, matched]
  have hpart : matched.advance a.value =
      .pending (s.inPhase (.attributeClose bracket (name :: a.parts))) := by
    rw [Settled.advance (fun _ => rfl) hvalue]
    simp [Selecting.step, Nesting.start, a.isValue, a.permitted, stepAttributeValue,
      Selecting.enter, AttributeTest.parts, matched]
  simp only [AttributeTest.tokens, feed, hoperator]
  rw [feed_append, feed_gap (fun _ => rfl) rfl, Option.bind_some]
  simp only [feed, hpart]
  exact feed_gap (fun _ => rfl) rfl _

/-- The colons of a pseudo selector are read as its kind. -/
theorem Colons.feed_rest (c : Colons) (s : Selecting) :
    (s.inPhase (.pseudo ⟨.pseudoClass, c.first.location⟩)).feed c.rest =
      some (s.inPhase (.pseudo c.head)) := by
  cases c with
  | one colon => rfl
  | two colon second =>
      simp [Colons.rest, feed, Selecting.advance, Selecting.settle,
        Token.not_isBlank_of_isChar second.2, Selecting.step, stepPseudo, second.2,
        Selecting.enter, Colons.head, Colons.kind, Colons.first]

/-- The arguments of a pseudo selector are read as its arguments. -/
theorem Arguments.feed_tokens (a : Arguments) (s : Selecting) (head : PseudoHead) (name : String) :
    (s.inPhase (.arguments head name [])).feed a.tokens =
      some (s.inPhase (.arguments head name a.latest)) := by
  induction a with
  | nil => rfl
  | blank before t fits ih =>
      rw [Arguments.tokens, feed_append, ih, Option.bind_some]
      exact feed_gap (fun _ => rfl) rfl (Gap.empty.snoc t fits)
  | atom before t c fits permitted goes ih =>
      have hstart : t.valueStart ≠ .nothing := by simp [fits]
      have hbrace : t.isChar '{' = false := Token.not_isChar_of_valueStart hstart (by simp)
      rw [Arguments.tokens, feed_append, ih, Option.bind_some]
      simp only [feed]
      rw [Settled.advance (fun _ => rfl) (Token.not_isBlank_of_valueStart hstart)]
      simp [Selecting.step, goes, hbrace, Nesting.start, fits, permitted, stepArgument,
        Selecting.enter, Arguments.latest]

/-- A character that starts no type name. -/
theorem startType?_of_isChar (s : Selecting) (use : TypeUse) {t : Token} {c : Char}
    (h : t.isChar c = true) (hstar : c ≠ '*') (hbar : c ≠ '|') : s.startType? use t = none := by
  simp [startType?, Token.kind_of_isChar h, Token.isChar_eq_false h hstar,
    Token.isChar_eq_false h hbar]

theorem startSimple_colon (s : Selecting) {t : Token} (h : t.isChar ':' = true) :
    s.startSimple t = .pending (s.inPhase (.pseudo ⟨.pseudoClass, t.location⟩)) := by
  simp [startSimple, startType?_of_isChar s .simple h (by decide) (by decide),
    Token.kind_of_isChar h, Token.isChar_eq_false h (d := '[') (by decide), h, Selecting.enter]

theorem startSimple_bracket (s : Selecting) {t : Token} (h : t.isChar '[' = true) :
    s.startSimple t = .pending (s.inPhase (.attributeName t.location)) := by
  simp [startSimple, startType?_of_isChar s .simple h (by decide) (by decide),
    Token.kind_of_isChar h, h, Selecting.enter]

/-- A token that is no name and no character starts no type name. -/
theorem startType?_of_kind (s : Selecting) (use : TypeUse) {t : Token} (hname : t.kind ≠ .ident)
    (hchar : t.kind ≠ .char) : s.startType? use t = none := by
  simp [startType?, hname, Token.isChar_of_kind hchar]

theorem Colons.isColon (c : Colons) : c.first.isChar ':' = true := by
  cases c with
  | one colon | two colon _ => exact colon.2

theorem TypeName.not_isBlank (n : TypeName) : n.first.isBlank = false := by
  cases n with
  | plain t | qualified t _ _ => exact not_isBlank_of_nameOrStar t
  | bare bar _ => exact Token.not_isBlank_of_isChar bar.2

/-- Behind its bracket an attribute selector is read up to the name of its attribute. -/
theorem TypeName.reaches_attribute (n : TypeName) (s : Selecting) (l : Location)
    (before after : Gap) :
    (s.inPhase (.attributeName l)).Reaches (before.1 ++ (n.tokens ++ after.1))
      (s.inPhase (.attributeOperator l n.construct)) := by
  obtain ⟨u, hstart, hname⟩ := n.reaches (.attribute l) (s.inPhase (.attributeName l))
    (s.inPhase (.attributeOperator l n.construct)) rfl
  have hfirst : (s.inPhase (.attributeName l)).advance n.first = .pending u := by
    rw [Settled.advance (fun _ => rfl) n.not_isBlank]
    simp [Selecting.step, hstart]
  apply Reaches.feed_trans (feed_gap (fun _ => rfl) rfl before)
  exact (Reaches.cons hfirst hname).gap (fun _ => rfl) rfl after

/-- The tokens of a simple selector lead to the place where it goes. -/
theorem Plain.reaches (p : Plain) (s s' : Selecting)
    (h : ∀ blame : Token, s.place p.construct blame = .pending s') :
    ∃ u, s.startSimple p.first = .pending u ∧ u.Reaches p.rest s' := by
  cases p with
  | type n =>
      obtain ⟨u, hstart, hreaches⟩ := n.reaches .simple s s' (h n.first)
      exact ⟨u, by simp only [startSimple, Plain.first, hstart], hreaches⟩
  | hashName t | className t | percentage t =>
      -- A single token is placed at once.
      refine ⟨s', ?_, .refl s'⟩
      have hnone : s.startType? .simple t.1 = none :=
        startType?_of_kind s .simple (by simp [t.2]) (by simp [t.2])
      simp only [startSimple, Plain.first, hnone, t.2]
      exact h t.1
  | attributed bracket before name after test closer =>
      let l := bracket.1.location
      refine ⟨s.inPhase (.attributeName l), startSimple_bracket s bracket.2, ?_⟩
      have hname := name.reaches_attribute s l before after
      have hblank : closer.1.isBlank = false := Token.not_isBlank_of_isChar closer.2
      have hbar : closer.1.isChar '|' = false := Token.isChar_eq_false closer.2 (by decide)
      cases test with
      | none =>
          have hclose : (s.inPhase (.attributeOperator l name.construct)).advance closer.1 =
              .pending s' := by
            rw [Settled.advance (fun _ => rfl) hblank]
            simp only [Selecting.step, closer.2, if_true, place_phase]
            exact h closer.1
          simpa [Plain.rest] using hname.snoc hbar hclose
      | some test =>
          have hclose : (s.inPhase (.attributeClose l (name.construct :: test.parts))).advance
              closer.1 = .pending s' := by
            rw [Settled.advance (fun _ => rfl) hblank]
            simp only [Selecting.step, closer.2, if_true, place_phase]
            exact h closer.1
          have hoperator : ∀ t ∈ test.tokens.head?, t.isChar '|' = false := by
            simpa [AttributeTest.tokens] using (operator_facts test.isOperator).2.1
          have htest := hname.trans (.of_feed (test.feed_tokens s l name.construct)) hoperator
          simpa [Plain.rest] using htest.snoc hbar hclose
  | pseudo colons name =>
      refine ⟨_, startSimple_colon s colons.isColon, ?_⟩
      have hchar : name.1.kind ≠ .char := by simp [name.2]
      have hname : (s.inPhase (.pseudo colons.head)).advance name.1 = .pending s' := by
        rw [Settled.advance (fun _ => rfl) (by simp [Token.isBlank, name.2])]
        simp only [Selecting.step, stepPseudo, name.2, Token.isChar_of_kind hchar, place_phase,
          Bool.false_and, Bool.false_eq_true, if_false]
        exact h name.1
      exact .feed_trans (colons.feed_rest s) (.of_feed (by simp [feed, hname]))
  | functional colons f notNegation arguments closer =>
      refine ⟨_, startSimple_colon s colons.isColon, ?_⟩
      let name := colons.kind.colons ++ f.1.functionName
      have hchar : f.1.kind ≠ .char := by simp [f.2]
      have hf : (s.inPhase (.pseudo colons.head)).advance f.1 =
          .pending (s.inPhase (.arguments colons.head name [])) := by
        rw [Settled.advance (fun _ => rfl) (by simp [Token.isBlank, f.2])]
        simp [Selecting.step, stepPseudo, f.2, Token.isChar_of_kind hchar, notNegation,
          Selecting.enter, Colons.head, name]
      have hclose : (s.inPhase (.arguments colons.head name arguments.latest)).advance closer.1 =
          .pending s' := by
        rw [Settled.advance (fun _ => rfl) (Token.not_isBlank_of_isChar closer.2)]
        simp only [Selecting.step, closer.2, if_true, place_phase]
        exact h closer.1
      refine .feed_trans (colons.feed_rest s) (.cons hf ?_)
      exact .feed_trans (arguments.feed_tokens s _ _) (.of_feed (by simp [feed, hclose]))

/-- A token that starts a sequence and cannot be taken for what may stand between two sequences or
between two statements. -/
structure StartsSequence (t : Token) : Prop where
  notBlank : t.isBlank = false
  notEnd : ∀ c ∈ [',', '{', '>', '+', '~', '}', ';'], t.isChar c = false
  notCombinator : t.char?.bind Combinator.ofChar? = none
  topLevel : TokenClass.topLevel t = true
  notAtKeyword : t.kind ≠ .atKeyword

theorem startsSequence_of_kind {t : Token}
    (h : t.kind ∈ [.ident, .hashName, .className, .quantity .percentage]) : StartsSequence t := by
  simp only [List.mem_cons, List.not_mem_nil, or_false] at h
  have hchar : t.kind ≠ .char := by rcases h with h | h | h | h <;> simp [h]
  have hblank : t.isBlank = false := by rcases h with h | h | h | h <;> simp [Token.isBlank, h]
  refine ⟨hblank, fun c _ => Token.isChar_of_kind hchar c, by simp [Token.char?, hchar], ?_, ?_⟩
  · rcases h with h | h | h | h <;> simp [TokenClass.topLevel, Token.isBlank, h]
  · rcases h with h | h | h | h <;> simp [h]

theorem startsSequence_of_isChar {t : Token} {c : Char} (h : t.isChar c = true)
    (hc : c ∉ [',', '{', '>', '+', '~', '}', ';']) : StartsSequence t where
  notBlank := Token.not_isBlank_of_isChar h
  notEnd := fun d hd => Token.isChar_eq_false h (fun e => hc (e ▸ hd))
  notCombinator := by
    simp only [List.mem_cons, List.not_mem_nil, or_false, not_or] at hc
    simp only [Token.char?, Token.kind_of_isChar h, Token.text_of_isChar h, BEq.rfl, if_true,
      List.head?_cons, Option.bind_some]
    unfold Combinator.ofChar?
    split <;> simp_all
  topLevel := by
    simp [TokenClass.topLevel, Token.not_isBlank_of_isChar h, Token.kind_of_isChar h]
  notAtKeyword := by simp [Token.kind_of_isChar h]

theorem Colons.startsSequence (c : Colons) : StartsSequence c.first :=
  startsSequence_of_isChar c.isColon (by decide)

theorem NameOrStar.startsSequence (t : NameOrStar) : StartsSequence t.1 := by
  rcases t.2 with h | h
  · exact startsSequence_of_kind (by simp [h])
  · exact startsSequence_of_isChar h (by decide)

/-- A simple selector starts with a name or with one of a few characters. -/
theorem Plain.startsSequence (p : Plain) : StartsSequence p.first := by
  cases p with
  | type n =>
      cases n with
      | plain t | qualified t _ _ => exact NameOrStar.startsSequence t
      | bare bar _ => exact startsSequence_of_isChar bar.2 (by decide)
  | hashName t | className t | percentage t =>
      exact startsSequence_of_kind (by simp [Plain.first, t.2])
  | attributed bracket _ _ _ _ _ => exact startsSequence_of_isChar bracket.2 (by decide)
  | pseudo colons _ | functional colons _ _ _ _ => exact colons.startsSequence

theorem Simple.startsSequence (x : Simple) : StartsSequence x.first := by
  cases x with
  | plain p => exact p.startsSequence
  | negation colons _ _ _ _ _ _ _ => exact colons.startsSequence

theorem Members.startsSequence (m : Members) : StartsSequence m.first := by
  induction m with
  | one x => exact x.startsSequence
  | more before x notType ih => exact ih

/-- Only a type selector starts with a bar. -/
theorem Simple.not_bar (x : Simple) (h : x.construct.isTypeSelector = false) :
    x.first.isChar '|' = false := by
  have hcolons (c : Colons) : c.first.isChar '|' = false :=
    Token.isChar_eq_false c.isColon (by decide)
  cases x with
  | negation colons _ _ _ _ _ _ _ => exact hcolons colons
  | plain p =>
      cases p with
      | type n => simp [Simple.construct, Plain.construct, TypeName.construct,
          Construct.isTypeSelector] at h
      | hashName t | className t | percentage t =>
          exact Token.isChar_of_kind (by simp [Simple.first, Plain.first, t.2]) _
      | attributed bracket _ _ _ _ _ => exact Token.isChar_eq_false bracket.2 (by decide)
      | pseudo colons _ | functional colons _ _ _ _ => exact hcolons colons

/-- The tokens of a simple selector add it to the current sequence. -/
theorem Simple.reaches (x : Simple) {s : Selecting} (hnegations : s.negations = [])
    (hfirst : x.construct.isTypeSelector = true → s.sequence = []) :
    ∃ u, s.startSimple x.first = .pending u ∧
      u.Reaches x.rest { s with sequence := x.construct :: s.sequence, phase := .member } := by
  rcases s with ⟨finished, location, components, sequence, start, negations, phase⟩
  cases hnegations
  have hplace : ∀ (q : SelectorPhase) (blame : Token),
      Selecting.place ⟨finished, location, components, sequence, start, [], q⟩ x.construct blame =
        .pending ⟨finished, location, components, x.construct :: sequence, start, [], .member⟩ := by
    intro q blame
    have hgoes : (x.construct.isTypeSelector && !sequence.isEmpty) = false := by
      rcases htype : x.construct.isTypeSelector with _ | _
      · rfl
      · simp [show sequence = [] from hfirst htype]
    simp only [Selecting.place, hgoes, Bool.false_eq_true, if_false]
  cases x with
  | plain p => exact p.reaches _ _ (hplace phase)
  | negation colons f isNegation before argument permitted after closer =>
      let s : Selecting := ⟨finished, location, components, sequence, start, [], phase⟩
      let inside : Selecting :=
        ⟨finished, location, components, sequence, start, [colons.head], .negated⟩
      refine ⟨_, startSimple_colon s colons.isColon, ?_⟩
      have hchar : f.1.kind ≠ .char := by simp [f.2]
      have hf : (s.inPhase (.pseudo colons.head)).advance f.1 = .pending inside := by
        rw [Settled.advance (fun _ => rfl) (by simp [Token.isBlank, f.2])]
        simp [Selecting.step, stepPseudo, f.2, Token.isChar_of_kind hchar, isNegation, s, inside]
      obtain ⟨u, hstart, hargument⟩ := argument.reaches inside
        (inside.inPhase (.negationClose argument.construct))
        (fun blame => by simp [Selecting.place, inside, permitted, Selecting.enter])
      have hinside : inside.advance argument.first = .pending u := by
        rw [Settled.advance (fun _ => rfl) argument.startsSequence.notBlank]
        exact hstart
      -- The parenthesis places the whole negation, outside of which nothing has changed.
      have hclose : (inside.inPhase (.negationClose argument.construct)).advance closer.1 =
          .pending ⟨finished, location, components, .pseudoFunction colons.kind
            (colons.kind.colons ++ "not") [argument.construct] colons.first.location :: sequence,
            start, [], .member⟩ := by
        rw [Settled.advance (fun _ => rfl) (Token.not_isBlank_of_isChar closer.2)]
        simp only [Selecting.step, closer.2, if_true, closeNegation, inside]
        exact hplace _ closer.1
      have hall := (((Reaches.cons hinside hargument).gap (fun _ => rfl) rfl after).snoc
        (Token.isChar_eq_false closer.2 (by decide)) hclose)
      refine .feed_trans (colons.feed_rest s) (.cons hf ?_)
      exact .feed_trans (feed_gap (fun _ => rfl) rfl before)
        (by simpa [Plain.tokens, Simple.construct] using hall)

/-! ## Sequences -/

/-- The tokens of a sequence are read as its members. -/
theorem Members.reaches (m : Members) {s : Selecting} (hnegations : s.negations = [])
    (hsequence : s.sequence = []) :
    ∃ u, s.startSimple m.first = .pending u ∧
      u.Reaches m.rest { s with sequence := m.latest, phase := .member } := by
  induction m with
  | one x =>
      obtain ⟨u, hstart, hreaches⟩ := x.reaches hnegations (fun _ => hsequence)
      refine ⟨u, hstart, ?_⟩
      rwa [hsequence] at hreaches
  | more before x notType ih =>
      obtain ⟨u, hstart, hreaches⟩ := ih
      obtain ⟨v, hx, hmore⟩ := x.reaches
        (s := { s with sequence := before.latest, phase := .member }) hnegations (by simp [notType])
      have hblank := x.startsSequence.notBlank
      have hfirst : Selecting.advance { s with sequence := before.latest, phase := .member }
          x.first = .pending v := by
        rw [Settled.advance (fun _ => rfl) hblank]
        simp only [Token.isBlank, Bool.or_eq_false_iff] at hblank
        have hgoes : x.first.isOneOf [',', '{', '>', '+', '~'] = false := by
          have hends := x.startsSequence.notEnd
          simp only [List.mem_cons, List.not_mem_nil, or_false, forall_eq_or_imp, forall_eq]
            at hends
          simp [Token.isOneOf, hends]
        simp only [Selecting.step, hblank, hgoes, Bool.false_eq_true, if_false]
        exact hx
      refine ⟨u, hstart, hreaches.trans (.cons hfirst hmore) ?_⟩
      simpa [Simple.tokens] using x.not_bar notType

/-! ## Selectors -/

/-- A token that ends a sequence does so behind white space and comments too. -/
theorem exists_stepBetween (s : Selecting) (g : Gap) {c : Char} {t : Token} (h : t.isChar c = true)
    (hc : c ∈ [',', '{', '>', '+', '~']) :
    ∃ u, (s.inPhase .member).feed g.1 = some u ∧
      u.advance t = (s.inPhase .member).stepBetween false t := by
  have hblank : t.isBlank = false := Token.not_isBlank_of_isChar h
  have hspaced : ∀ (q : SelectorPhase) (spaced : Bool),
      (s.inPhase q).stepBetween spaced t = (s.inPhase .member).stepBetween false t := by
    intro q spaced
    have hchar : t.char? = some c := by
      simp [Token.char?, Token.kind_of_isChar h, Token.text_of_isChar h]
    simp only [List.mem_cons, List.not_mem_nil, or_false] at hc
    rcases hc with rfl | rfl | rfl | rfl | rfl <;>
      simp [stepBetween, endSequence, endSelector, current, Token.isChar, Token.kind_of_isChar h,
        Token.text_of_isChar h, hchar, Combinator.ofChar?]
  have hbetween : ∀ spaced, (s.inPhase (.between spaced)).advance t =
      (s.inPhase .member).stepBetween false t := by
    intro spaced
    rw [Settled.advance (fun _ => rfl) hblank]
    exact hspaced _ _
  -- Without white space the token comes right behind a member.
  rcases g with ⟨ts, hts⟩
  cases ts with
  | nil =>
      refine ⟨_, rfl, ?_⟩
      have hends : t.isOneOf [',', '{', '>', '+', '~'] = true :=
        List.any_eq_true.2 ⟨c, hc, h⟩
      have hkind : t.kind = .char := Token.kind_of_isChar h
      rw [Settled.advance (fun _ => rfl) hblank]
      simp [Selecting.step, hkind, hends]
  | cons b bs =>
      have hb : b.isBlank = true := hts b (List.mem_cons_self ..)
      have hmore : ∀ spaced, (s.inPhase (.between spaced)).feed bs =
          some (s.inPhase (.between spaced)) := fun spaced =>
        feed_gap (fun _ => rfl) rfl ⟨bs, fun u hu => hts u (List.mem_cons_of_mem _ hu)⟩
      have hfirst : ∃ spaced, (s.inPhase .member).advance b =
          .pending (s.inPhase (.between spaced)) := by
        rcases Token.isBlank_iff.1 hb with hb | hb
        · exact ⟨true, by simp [Selecting.advance, Selecting.settle, SelectorPhase.isTight,
            Selecting.step, hb, Selecting.enter]⟩
        · exact ⟨false, by simp [Selecting.advance, Selecting.settle, SelectorPhase.isTight,
            Selecting.step, hb, Selecting.enter]⟩
      obtain ⟨spaced, hfirst⟩ := hfirst
      refine ⟨s.inPhase (.between spaced), ?_, hbetween spaced⟩
      simp only [feed, hfirst]
      exact hmore spaced

/-- The tokens of a sequence that starts a selector or follows a combinator. -/
theorem Members.reaches_opening (m : Members) {s : Selecting} (hphase : s.phase = .opening)
    (hnegations : s.negations = []) :
    s.Reaches m.tokens
      ⟨s.finished, if s.components.isEmpty then m.first.location else s.location, s.components,
        m.latest, m.first.location, [], .member⟩ := by
  rcases s with ⟨finished, location, components, sequence, start, negations, phase⟩
  cases hphase
  cases hnegations
  obtain ⟨u, hstart, hreaches⟩ := m.reaches
    (s := ⟨finished, if components.isEmpty then m.first.location else location, components, [],
      m.first.location, [], .opening⟩) rfl rfl
  refine .cons ?_ hreaches
  rw [Settled.advance (fun _ => rfl) m.startsSequence.notBlank]
  simp only [Selecting.step, startSequence]
  cases components with
  | nil => exact hstart
  | cons c cs => exact hstart

/-- The tokens of a combinator and of the sequence behind it. -/
theorem Link.reaches (l : Link) (m : Members) {s : Selecting} (hphase : s.phase = .member)
    (hnegations : s.negations = []) :
    s.Reaches (l.tokens ++ m.tokens)
      ⟨s.finished, s.location, l.construct m.first.location :: s.endSequence.components, m.latest,
        m.first.location, [], .member⟩ := by
  rcases s with ⟨finished, location, components, sequence, start, negations, phase⟩
  cases hphase
  cases hnegations
  let s : Selecting := ⟨finished, location, components, sequence, start, [], .member⟩
  cases l with
  | descendant space after =>
      have hspace : s.advance space.1 = .pending (s.inPhase (.between true)) := by
        simp [Selecting.advance, Selecting.settle, SelectorPhase.isTight, Selecting.step,
          space.2, Selecting.enter, s]
      obtain ⟨u, hstart, hreaches⟩ := m.reaches
        (s := ⟨finished, location, .combinator .descendant m.first.location ::
          s.endSequence.components, [], m.first.location, [], .between true⟩) rfl rfl
      have hstarts := m.startsSequence
      have hfirst : (s.inPhase (.between true)).advance m.first = .pending u := by
        rw [Settled.advance (fun _ => rfl) hstarts.notBlank]
        simp only [Selecting.step, stepBetween, hstarts.notEnd '{' (by simp),
          hstarts.notEnd ',' (by simp), hstarts.notCombinator, Bool.false_eq_true, if_false,
          if_true]
        exact hstart
      exact .cons hspace (.feed_trans (feed_gap (fun _ => rfl) rfl after) (.cons hfirst hreaches))
  | written gap c k isCombinator t after =>
      have hc : c ∈ [',', '{', '>', '+', '~'] := by
        unfold Combinator.ofChar? at isCombinator
        split at isCombinator <;> simp_all
      have hchar : t.1.char? = some c := by
        simp [Token.char?, Token.kind_of_isChar t.2, Token.text_of_isChar t.2]
      have hne : c ≠ '{' ∧ c ≠ ',' := by
        constructor <;> rintro rfl <;> simp [Combinator.ofChar?] at isCombinator
      obtain ⟨u, hgap, hends⟩ := exists_stepBetween s gap t.2 hc
      let opened : Selecting := ⟨finished, location, .combinator k t.1.location ::
        s.endSequence.components, sequence, start, [], .opening⟩
      have hcombinator : u.advance t.1 = .pending opened := by
        rw [hends]
        simp only [stepBetween, Token.isChar_eq_false t.2 hne.1, Token.isChar_eq_false t.2 hne.2,
          hchar, Option.bind_some, isCombinator, Bool.false_eq_true, if_false]
        rfl
      have hmore := m.reaches_opening (s := opened) rfl rfl
      simp only [Link.tokens, List.append_assoc, List.cons_append]
      exact .feed_trans hgap (.cons hcombinator
        (.feed_trans (feed_gap (fun _ => rfl) rfl after) hmore))

/-- The tokens of a selector are read as its sequences and combinators. -/
theorem Lead.reaches (lead : Lead) (m : Members) {s : Selecting} (hphase : s.phase = .opening)
    (hcomponents : s.components = []) (hnegations : s.negations = []) :
    s.Reaches (lead.tokens ++ m.tokens)
      ⟨s.finished, lead.location m.first.location, lead.components m.first.location, m.latest,
        m.first.location, [], .member⟩ := by
  induction lead generalizing m with
  | start =>
      have hopening := m.reaches_opening hphase hnegations
      rw [hcomponents] at hopening
      exact hopening
  | link before n l ih =>
      have hlink := l.reaches m
        (s := ⟨s.finished, before.location n.first.location, before.components n.first.location,
          n.latest, n.first.location, [], .member⟩) rfl rfl
      -- A bar would still belong to the name before it.
      have hbar : ∀ t ∈ (l.tokens ++ m.tokens).head?, t.isChar '|' = false := by
        cases l with
        | descendant space after =>
            simpa [Link.tokens] using Token.isChar_of_kind (t := space.1) (by simp [space.2]) '|'
        | written gap c k isCombinator t after =>
            have ht : t.1.isChar '|' = false :=
              Token.isChar_eq_false t.2 (by rintro rfl; simp [Combinator.ofChar?] at isCombinator)
            rcases gap with ⟨ts, hts⟩
            cases ts with
            | nil => simpa [Link.tokens] using ht
            | cons b bs => simpa [Link.tokens] using not_bar_of_gap ⟨b :: bs, hts⟩
      have hall := (ih n).trans hlink hbar
      simp only [Lead.tokens, List.append_assoc] at hall ⊢
      exact hall

/-- The selectors before the last of a list are read as finished ones. -/
theorem Earlier.feed_tokens (e : Earlier) (l : Location) :
    ∃ s, (Selecting.ofLocation l).feed e.tokens = some s ∧ s.finished = e.latest ∧
      s.components = [] ∧ s.negations = [] ∧ s.phase = .opening := by
  induction e with
  | start => exact ⟨_, rfl, rfl, rfl, rfl, rfl⟩
  | comma before c gap t after ih =>
      obtain ⟨s, hfeed, hfinished, hcomponents, hnegations, hphase⟩ := ih
      have hselector := c.1.lead.reaches c.1.last hphase hcomponents hnegations
      let read : Selecting := ⟨s.finished, c.1.selector.location, c.1.lead.components
        c.1.last.first.location, c.1.last.latest, c.1.last.first.location, [], .member⟩
      obtain ⟨u, hgap, hends⟩ := exists_stepBetween read gap t.2 (by simp)
      let finished : Selecting := ⟨c.1.selector :: s.finished, c.1.selector.location, [],
        c.1.last.latest, c.1.last.first.location, [], .opening⟩
      have hcomma : u.advance t.1 = .pending finished := by
        have hlegal : (read.inPhase .member).endSequence.current.pseudoElementFault? = none := c.2
        rw [hends]
        simp only [stepBetween, Token.isChar_eq_false t.2 (d := '{') (by decide), t.2, endSelector,
          hlegal, Bool.false_eq_true, if_false, if_true]
        rfl
      obtain ⟨v, hv, hbecomes⟩ := hselector.trans (.of_feed hgap) (not_bar_of_gap gap)
      refine ⟨finished, ?_, by simp [Earlier.latest, ← hfinished, finished], rfl, rfl, rfl⟩
      rw [Earlier.tokens, feed_append, hfeed, Option.bind_some, LinkedSelector.tokens]
      rw [show c.1.lead.tokens ++ c.1.last.tokens ++ (gap.1 ++ t.1 :: after.1) =
        (c.1.lead.tokens ++ c.1.last.tokens ++ gap.1) ++ t.1 :: after.1 by simp]
      rw [feed_append, hv, Option.bind_some]
      simp only [feed, hbecomes t.1 (Token.isChar_eq_false t.2 (by decide)), hcomma]
      exact feed_gap (fun _ => rfl) rfl after

/-- **The tokens of a list of selectors are read as these selectors**, up to the brace that opens
the block. -/
theorem SelectorList.feed_tokens (list : SelectorList) (l : Location) :
    ∃ s, (Selecting.ofLocation l).feed list.tokens = some s ∧
      ∀ t : Mark '{', s.advance t.1 = .complete list.selectors := by
  obtain ⟨s, hfeed, hfinished, hcomponents, hnegations, hphase⟩ := list.earlier.feed_tokens l
  -- The last selector is finished by the brace, as an earlier one is by its comma.
  let c := list.last
  have hselector := c.1.lead.reaches c.1.last hphase hcomponents hnegations
  let read : Selecting := ⟨s.finished, c.1.selector.location, c.1.lead.components
    c.1.last.first.location, c.1.last.latest, c.1.last.first.location, [], .member⟩
  have hgap : ∀ t : Mark '{', ∃ u, (read.inPhase .member).feed list.gap.1 = some u ∧
      u.advance t.1 = .complete list.selectors := by
    intro t
    obtain ⟨u, hgap, hends⟩ := exists_stepBetween read list.gap t.2 (by simp)
    refine ⟨u, hgap, ?_⟩
    have hlegal : (read.inPhase .member).endSequence.current.pseudoElementFault? = none := c.2
    rw [hends]
    simp only [stepBetween, t.2, endSelector, hlegal, if_true]
    simp only [SelectorList.selectors, ← hfinished]
    rfl
  obtain ⟨u, hu, -⟩ := hgap ⟨⟨.char, "\x7b", .start, []⟩, by decide⟩
  obtain ⟨v, hv, hbecomes⟩ := hselector.trans (.of_feed hu) (not_bar_of_gap list.gap)
  refine ⟨v, ?_, fun t => ?_⟩
  · rw [SelectorList.tokens, feed_append, hfeed, Option.bind_some]
    exact hv
  · obtain ⟨u', hu', hends⟩ := hgap t
    rw [hbecomes t.1 (Token.isChar_eq_false t.2 (by decide))]
    rw [hu] at hu'
    cases hu'
    exact hends

end Concrete

end EpubStyle
