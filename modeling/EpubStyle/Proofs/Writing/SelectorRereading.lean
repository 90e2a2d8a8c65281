import EpubStyle.Proofs.Writing.ValueRereading

/-!
# Selectors that are laid out are read as they were

Tokens that are laid out as the strokes of selectors are those of a list of selectors, which differ
from the first in their locations only (`SelectorList.reread`). The parts come first, from the name
of a type (`TypeName.reread`) over simple selectors (`Plain.reread`, `Simple.reread`) to sequences
(`Members.reread`) and whole selectors (`LinkedSelector.reread`).

A descendant combinator is written as a space. It is read back as one because the sequence behind
it starts with a sign (`Members.exists_sign`).
-/

set_option autoImplicit false

namespace EpubStyle

open Concrete

/-- Without spaces the first construct is written like the others. -/
theorem Construct.strokesJoined_false (cs : List Construct) :
    strokesJoined false cs = strokesEach false cs := by
  cases cs with
  | nil => rfl
  | cons c cs => simp [strokesJoined, strokesEach, Stroke.gap]

/-- One more construct behind those that are written without spaces. -/
theorem Construct.strokesEach_concat (cs : List Construct) (c : Construct) :
    strokesEach false (cs ++ [c]) = strokesEach false cs ++ c.strokes := by
  simp [strokesEach_append, strokesEach, Stroke.gap]

/-- The kind of a token that is a hash name, a class name or a quantity where a value starts. -/
theorem Token.kind_of_valueStart {t : Token} {text : String} {l : Location} :
    (t.valueStart = .atom (.atom .hashName text l) → t.kind = .hashName) ∧
      (t.valueStart = .atom (.atom .className text l) → t.kind = .className) ∧
        ∀ m, t.valueStart = .atom (.quantity text m l) → t.kind = .quantity m := by
  unfold valueStart
  cases hk : t.kind with
  | char => simp only; split <;> simp
  | _ => simp

namespace Concrete

variable {ss : List Stroke} {ts : List Token}

/-! ## Simple selectors -/

theorem TypeName.reread (n : TypeName) (h : Laid (n.construct.strokes ++ ss) ts) :
    ∃ (m : TypeName) (vs : List Token), ts = m.tokens ++ vs ∧
      m.construct.unlocated = n.construct.unlocated ∧ Laid ss vs := by
  obtain ⟨_, vs, rfl, ⟨m, htext, rfl⟩, hrest⟩ := Laid.of_sign h
  exact ⟨m, vs, rfl, by simp [TypeName.construct, Construct.unlocated, htext], hrest⟩

theorem AttributeTest.reread (a : AttributeTest)
    (h : Laid (Construct.strokesEach false a.parts ++ ss) ts) :
    ∃ (b : AttributeTest) (vs : List Token), ts = b.tokens ++ vs ∧
      b.parts.map Construct.unlocated = a.parts.map Construct.unlocated ∧ Laid ss vs := by
  have hstrokes : Construct.strokesEach false a.parts =
      .sign (.matching a.matching) :: a.construct.strokes := by
    simp [AttributeTest.parts, Construct.strokesEach, Construct.strokes, Stroke.gap]
  rw [hstrokes] at h
  obtain ⟨_, _, rfl, ⟨t, ht, rfl⟩, hvalue⟩ := Laid.of_sign h
  obtain ⟨u, d, vs, rfl, hu, heq, hrest⟩ := hvalue.of_atom a.isValue
  have hpermitted : Context.attributeValue.permits d = true := by
    rw [Context.permits_congr (by simp [Context.all]) heq, a.permitted]
  exact ⟨⟨t, a.matching, ht, .empty, u, d, hu, hpermitted, .empty⟩, vs,
    by simp [AttributeTest.tokens], by simp [AttributeTest.parts, Construct.unlocated, heq], hrest⟩

theorem Arguments.reread (a : Arguments)
    (h : Laid (Construct.strokesEach false a.latest.reverse ++ ss) ts) :
    ∃ (b : Arguments) (vs : List Token), ts = b.tokens ++ vs ∧
      b.latest.map Construct.unlocated = a.latest.map Construct.unlocated ∧ Laid ss vs := by
  induction a generalizing ss ts with
  | nil => exact ⟨.nil, ts, rfl, rfl, h⟩
  | blank before t fits ih => exact ih h
  | atom before t c fits permitted goes ih =>
      rw [Arguments.latest, List.reverse_cons, Construct.strokesEach_concat,
        List.append_assoc] at h
      obtain ⟨b, _, rfl, hlatest, hvalue⟩ := ih h
      obtain ⟨u, d, vs, rfl, hu, heq, hrest⟩ := hvalue.of_atom fits
      have hpermitted : Context.pseudoArgument.permits d = true := by
        rw [Context.permits_congr (by simp [Context.all]) heq, permitted]
      have hgoes : u.isChar ')' = false := by
        rw [← goes]
        exact TokenClass.settled_isChar ')' fits hu heq
      exact ⟨.atom b u d hu hpermitted hgoes, vs, by simp [Arguments.tokens],
        by simp [Arguments.latest, heq, hlatest], hrest⟩

/-- **A simple selector is read as it was.** -/
theorem Plain.reread (p : Plain) (h : Laid (p.construct.strokes ++ ss) ts) :
    ∃ (q : Plain) (vs : List Token), ts = q.tokens ++ vs ∧
      q.construct.unlocated = p.construct.unlocated ∧ Laid ss vs := by
  cases p with
  | type n =>
      obtain ⟨m, vs, rfl, heq, hrest⟩ := n.reread h
      exact ⟨.type m, vs, rfl, heq, hrest⟩
  | hashName t =>
      obtain ⟨_, vs, rfl, ⟨u, hu, rfl⟩, hrest⟩ := Laid.of_sign h
      have htext := (Token.of_valueStart_atom hu).1
      exact ⟨.hashName ⟨u, Token.kind_of_valueStart.1 hu⟩, vs, rfl,
        by simp [Plain.construct, Construct.unlocated, htext], hrest⟩
  | className t =>
      obtain ⟨_, vs, rfl, ⟨u, hu, rfl⟩, hrest⟩ := Laid.of_sign h
      have htext := (Token.of_valueStart_atom hu).1
      exact ⟨.className ⟨u, Token.kind_of_valueStart.2.1 hu⟩, vs, rfl,
        by simp [Plain.construct, Construct.unlocated, htext], hrest⟩
  | percentage t =>
      obtain ⟨_, vs, rfl, ⟨u, hu, rfl⟩, hrest⟩ := Laid.of_sign h
      have htext : u.text = t.1.text := by
        rcases Token.eq_of_valueStart_atom hu with ⟨_, heq⟩ | ⟨_, heq⟩
        · cases heq
        · exact (Construct.quantity.inj heq).1.symm
      exact ⟨.percentage ⟨u, Token.kind_of_valueStart.2.2 _ hu⟩, vs, rfl,
        by simp [Plain.construct, Construct.unlocated, htext], hrest⟩
  -- Nothing is written between the parts, so they are read without gaps.
  | attributed bracket before name after test closer =>
      simp only [Plain.construct, Construct.strokes, Construct.strokesJoined, List.cons_append,
        List.append_assoc] at h
      obtain ⟨bracket', _, rfl, hname⟩ := Laid.of_mark h
      obtain ⟨name', _, rfl, heq, htest⟩ := name.reread hname
      cases test with
      | none =>
          obtain ⟨closer', vs, rfl, hrest⟩ := Laid.of_mark htest
          exact ⟨.attributed bracket' .empty name' .empty none closer', vs,
            by simp [Plain.tokens, Plain.first, Plain.rest],
            by simp [Plain.construct, Construct.unlocated, Construct.unlocatedEach_eq_map, heq],
            hrest⟩
      | some test =>
          obtain ⟨test', _, rfl, hparts, hcloser⟩ := test.reread htest
          obtain ⟨closer', vs, rfl, hrest⟩ := Laid.of_mark hcloser
          exact ⟨.attributed bracket' .empty name' .empty (some test') closer', vs,
            by simp [Plain.tokens, Plain.first, Plain.rest],
            by simp [Plain.construct, Construct.unlocated, Construct.unlocatedEach_eq_map, heq,
              hparts],
            hrest⟩
  | pseudo colons name =>
      obtain ⟨_, vs, rfl, ⟨colons', name', hkind, hname, rfl⟩, hrest⟩ := Laid.of_sign h
      refine ⟨.pseudo colons' name', vs, rfl, ?_, hrest⟩
      simp only [Plain.construct, Construct.unlocated, hkind, hname]
  | functional colons f notNegation arguments closer =>
      simp only [Plain.construct, Construct.strokes, List.cons_append, List.append_assoc,
        Construct.strokesJoined_false] at h
      obtain ⟨_, _, rfl, ⟨colons', f', hkind, hname, rfl⟩, harguments⟩ := Laid.of_sign h
      obtain ⟨arguments', _, rfl, hlatest, hcloser⟩ := arguments.reread harguments
      obtain ⟨closer', vs, rfl, hrest⟩ := Laid.of_mark hcloser
      have hsame : f'.1.functionName = f.1.functionName := (String.append_right_inj _).1 hname
      refine ⟨.functional colons' f' (by rwa [hsame]) arguments' closer', vs, ?_, ?_, hrest⟩
      · simp [Plain.tokens, Plain.first, Plain.rest]
      · simp [Plain.construct, Construct.unlocated, Construct.unlocatedEach_eq_map, hkind, hsame,
          List.map_reverse, hlatest]

theorem Simple.reread (x : Simple) (h : Laid (x.construct.strokes ++ ss) ts) :
    ∃ (y : Simple) (vs : List Token), ts = y.tokens ++ vs ∧
      y.construct.unlocated = x.construct.unlocated ∧ Laid ss vs := by
  cases x with
  | plain p =>
      obtain ⟨q, vs, rfl, heq, hrest⟩ := p.reread h
      exact ⟨.plain q, vs, rfl, heq, hrest⟩
  | negation colons f isNegation before argument permitted after closer =>
      simp only [Simple.construct, Construct.strokes, Construct.strokesJoined,
        Construct.strokesEach, List.append_nil, List.cons_append, List.append_assoc] at h
      obtain ⟨_, _, rfl, ⟨colons', f', hkind, hname, rfl⟩, hargument⟩ := Laid.of_sign h
      obtain ⟨argument', _, rfl, heq, hcloser⟩ := argument.reread hargument
      obtain ⟨closer', vs, rfl, hrest⟩ := Laid.of_mark hcloser
      have hnot : f'.1.functionName = "not" := (String.append_right_inj _).1 hname
      have hpermitted : Context.negation.permits argument'.construct = true := by
        rw [Context.permits_congr (by simp [Context.all]) heq, permitted]
      refine ⟨.negation colons' f' hnot .empty argument' hpermitted .empty closer', vs, ?_, ?_,
        hrest⟩
      · simp [Simple.tokens, Simple.first, Simple.rest]
      · simp [Simple.construct, Construct.unlocated, Construct.unlocatedEach_eq_map, hkind, heq]

/-- What is written for a simple selector starts with a sign. -/
theorem Plain.exists_sign (p : Plain) : ∃ x rest, p.construct.strokes = .sign x :: rest := by
  cases p <;> exact ⟨_, _, rfl⟩

theorem Simple.exists_sign (x : Simple) : ∃ y rest, x.construct.strokes = .sign y :: rest := by
  cases x with
  | plain p => exact p.exists_sign
  | negation => exact ⟨_, _, rfl⟩

/-! ## Sequences -/

theorem Members.strokes_sequence (m : Members) :
    m.sequence.strokes = Construct.strokesEach false m.latest.reverse := by
  rw [Members.sequence, Construct.strokes, Construct.strokesJoined_false]

theorem Members.exists_sign (m : Members) : ∃ x rest, m.sequence.strokes = .sign x :: rest := by
  rw [m.strokes_sequence]
  induction m with
  | one x =>
      obtain ⟨y, rest, hstrokes⟩ := x.exists_sign
      exact ⟨y, rest, by simp [Members.latest, Construct.strokesEach, Stroke.gap, hstrokes]⟩
  | more before x notType ih =>
      obtain ⟨y, rest, hstrokes⟩ := ih
      exact ⟨y, rest ++ x.construct.strokes,
        by simp [Members.latest, Construct.strokesEach_concat, hstrokes]⟩

/-- **A sequence is read as it was.** -/
theorem Members.reread (m : Members) (h : Laid (m.sequence.strokes ++ ss) ts) :
    ∃ (n : Members) (vs : List Token), ts = n.tokens ++ vs ∧
      n.sequence.unlocated = m.sequence.unlocated ∧ Laid ss vs := by
  rw [m.strokes_sequence] at h
  suffices hmembers : ∃ (n : Members) (vs : List Token), ts = n.tokens ++ vs ∧
      n.latest.map Construct.unlocated = m.latest.map Construct.unlocated ∧ Laid ss vs by
    obtain ⟨n, vs, htokens, hlatest, hrest⟩ := hmembers
    exact ⟨n, vs, htokens, by simp [Members.sequence, Construct.unlocated,
      Construct.unlocatedEach_eq_map, List.map_reverse, hlatest], hrest⟩
  induction m generalizing ss ts with
  | one x =>
      rw [Members.latest, List.reverse_singleton, ← List.nil_append [x.construct],
        Construct.strokesEach_concat] at h
      obtain ⟨y, vs, rfl, heq, hrest⟩ := x.reread h
      exact ⟨.one y, vs, rfl, by simp [Members.latest, heq], hrest⟩
  | more before x notType ih =>
      rw [Members.latest, List.reverse_cons, Construct.strokesEach_concat, List.append_assoc] at h
      obtain ⟨n, _, rfl, hlatest, hlast⟩ := ih h
      obtain ⟨y, vs, rfl, heq, hrest⟩ := x.reread hlast
      have hnotType : y.construct.isTypeSelector = false := by
        rw [← Construct.isTypeSelector_unlocated, heq, Construct.isTypeSelector_unlocated, notType]
      exact ⟨.more n y hnotType, vs, by simp [Members.tokens, Members.first, Members.rest],
        by simp [Members.latest, heq, hlatest], hrest⟩

/-! ## Selectors -/

/-- A combinator is read as it was before a sign. -/
theorem Link.reread (k : Link) (next : Location) {x : Sign}
    (h : Laid ((k.construct next).strokes ++ .sign x :: ss) ts) :
    ∃ (k' : Link) (vs : List Token), ts = k'.tokens ++ vs ∧
      (∀ next', (k'.construct next').unlocated = (k.construct next).unlocated) ∧
        Laid (.sign x :: ss) vs := by
  cases k with
  | descendant space after =>
      obtain ⟨t, vs, rfl, hrest⟩ := Laid.of_space h
      exact ⟨.descendant t .empty, vs, rfl, fun _ => rfl, hrest⟩
  | written before c kind isCombinator t after =>
      have hstrokes : kind.strokes = [.sign (.mark c)] := by
        unfold Combinator.ofChar? at isCombinator
        split at isCombinator <;> cases isCombinator <;> rfl
      simp only [Link.construct, Construct.strokes, hstrokes] at h
      obtain ⟨t', vs, rfl, hrest⟩ := Laid.of_mark h
      exact ⟨.written .empty c kind isCombinator t' .empty, vs, rfl, fun _ => rfl, hrest⟩

/-- The sequences before the last one are read as they were. -/
theorem Lead.reread (l : Lead) (next : Location) {x : Sign}
    (h : Laid (Construct.strokesEach false (l.components next).reverse ++ .sign x :: ss) ts) :
    ∃ (l' : Lead) (vs : List Token), ts = l'.tokens ++ vs ∧
      (∀ next', (l'.components next').map Construct.unlocated =
        (l.components next).map Construct.unlocated) ∧ Laid (.sign x :: ss) vs := by
  induction l generalizing next x ss ts with
  | start => exact ⟨.start, ts, rfl, fun _ => rfl, h⟩
  | link before m k ih =>
      rw [Lead.components, List.reverse_cons, List.reverse_cons, Construct.strokesEach_concat,
        Construct.strokesEach_concat, List.append_assoc, List.append_assoc] at h
      obtain ⟨y, more, hsign⟩ := m.exists_sign
      have hfirst : m.sequence.strokes ++ ((k.construct next).strokes ++ .sign x :: ss) =
          .sign y :: (more ++ ((k.construct next).strokes ++ .sign x :: ss)) := by rw [hsign]; rfl
      rw [hfirst] at h
      obtain ⟨l', _, rfl, hcomponents, hsequence⟩ := ih _ h
      rw [← hfirst] at hsequence
      obtain ⟨n, _, rfl, hmembers, hlink⟩ := m.reread hsequence
      obtain ⟨k', vs, rfl, hk, hrest⟩ := k.reread next hlink
      refine ⟨.link l' n k', vs, by simp [Lead.tokens], fun next' => ?_, hrest⟩
      simp [Lead.components, hcomponents, hmembers, hk]

/-- **A selector is read as it was.** -/
theorem LinkedSelector.reread (c : LinkedSelector)
    (h : Laid (c.selector.toConstruct.strokes ++ ss) ts) :
    ∃ (d : LinkedSelector) (vs : List Token), ts = d.tokens ++ vs ∧
      d.selector.unlocated = c.selector.unlocated ∧ Laid ss vs := by
  have hstrokes : c.selector.toConstruct.strokes = Construct.strokesEach false
      (c.lead.components c.last.first.location).reverse ++ c.last.sequence.strokes := by
    simp [LinkedSelector.selector, LinkedSelector.components, Selector.toConstruct,
      Construct.strokes, Construct.strokesJoined_false, Construct.strokesEach_concat]
  obtain ⟨x, more, hsign⟩ := c.last.exists_sign
  rw [hstrokes, List.append_assoc, hsign, List.cons_append] at h
  obtain ⟨lead, _, rfl, hlead, hlast⟩ := c.lead.reread _ h
  rw [← List.cons_append, ← hsign] at hlast
  obtain ⟨last, vs, rfl, heq, hrest⟩ := c.last.reread hlast
  refine ⟨⟨lead, last⟩, vs, by simp [LinkedSelector.tokens], ?_, hrest⟩
  simp [LinkedSelector.selector, LinkedSelector.components, Selector.unlocated,
    Construct.unlocatedEach_eq_map, List.map_reverse, hlead, heq]

theorem Legal.reread (c : Legal) (h : Laid (c.1.selector.toConstruct.strokes ++ ss) ts) :
    ∃ (d : Legal) (vs : List Token), ts = d.1.tokens ++ vs ∧
      d.1.selector.unlocated = c.1.selector.unlocated ∧ Laid ss vs := by
  obtain ⟨d, vs, htokens, heq, hrest⟩ := c.1.reread h
  have hlegal : d.selector.pseudoElementFault? = none := by
    rw [← Selector.pseudoElementFault?_unlocated, heq, Selector.pseudoElementFault?_unlocated, c.2]
  exact ⟨⟨d, hlegal⟩, vs, htokens, heq, hrest⟩

/-! ## Lists of selectors -/

/-- One more selector in front. -/
theorem selectorStrokes_cons (s : Selector) {list : List Selector} (h : list ≠ []) :
    selectorStrokes (s :: list) =
      s.toConstruct.strokes ++ .sign (.mark ',') :: Stroke.space :: selectorStrokes list := by
  cases list with
  | nil => exact absurd rfl h
  | cons s' list => rfl

/-- The earlier selectors of a list are read as they were. -/
theorem Earlier.reread (e : Earlier) {list : List Selector} (hlist : list ≠ [])
    (h : Laid (selectorStrokes (e.latest.reverse ++ list) ++ ss) ts) :
    ∃ (e' : Earlier) (vs : List Token), ts = e'.tokens ++ vs ∧
      e'.latest.map Selector.unlocated = e.latest.map Selector.unlocated ∧
        Laid (selectorStrokes list ++ ss) vs := by
  induction e generalizing list with
  | start => exact ⟨.start, ts, rfl, rfl, h⟩
  | comma before s gap t after ih =>
      rw [Earlier.latest, List.reverse_cons, List.append_assoc, List.singleton_append] at h
      obtain ⟨e', _, rfl, hlatest, hselector⟩ := ih (List.cons_ne_nil _ _) h
      rw [selectorStrokes_cons _ hlist, List.append_assoc] at hselector
      obtain ⟨s', _, rfl, heq, hcomma⟩ := Legal.reread s hselector
      obtain ⟨t', _, rfl, hgap⟩ := Laid.of_mark hcomma
      obtain ⟨after', vs, rfl, hrest⟩ := Laid.of_blank hgap
      exact ⟨.comma e' s' .empty t' after', vs, by simp [Earlier.tokens],
        by simp [Earlier.latest, heq, hlatest], hrest⟩

/-- **A list of selectors is read as it was.** -/
theorem SelectorList.reread (l : SelectorList)
    (h : Laid (selectorStrokes l.selectors ++ Stroke.space :: ss) ts) :
    ∃ (l' : SelectorList) (vs : List Token), ts = l'.tokens ++ vs ∧
      l'.selectors.map Selector.unlocated = l.selectors.map Selector.unlocated ∧ Laid ss vs := by
  rw [SelectorList.selectors, List.reverse_cons] at h
  obtain ⟨earlier, _, rfl, hlatest, hlast⟩ := l.earlier.reread (List.cons_ne_nil _ _) h
  obtain ⟨last, _, rfl, heq, hgap⟩ := Legal.reread l.last hlast
  obtain ⟨gap, vs, rfl, hrest⟩ := Laid.of_blank hgap
  refine ⟨⟨earlier, last, gap⟩, vs, by simp [SelectorList.tokens], ?_, hrest⟩
  simp [SelectorList.selectors, List.map_reverse, hlatest, heq]

end Concrete

end EpubStyle
