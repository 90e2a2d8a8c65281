import EpubStyle.Proofs.Writing.SelectorRereading

/-!
# The tokens of a style sheet carry its strokes

`Carried` says that tokens hold the signs of strokes in order, with separators anywhere between
them, and at least one `!important` among the values of a declaration that is written with one. It
says nothing about where white space stands, nor in which place among its values a declaration is
marked as important.

The tokens of every style sheet carry the strokes of its events (`StyleSheet.carried`). Most of that
is said by the signs (`Construct.signs_strokes`), since a construct of a style sheet that is no
declaration is `Quiet`: no `!important` is written for it.
-/

set_option autoImplicit false

namespace EpubStyle

open Concrete

/-! ## The signs among strokes -/

namespace Stroke

/-- The sign of a stroke. -/
def sign? : Stroke → Option Sign
  | sign x => some x
  | _ => none

/-- The signs among strokes. -/
def signs (ss : List Stroke) : List Sign := ss.filterMap sign?

@[simp] theorem signs_nil : signs [] = [] := rfl

@[simp] theorem signs_append (ss ss' : List Stroke) : signs (ss ++ ss') = signs ss ++ signs ss' :=
  List.filterMap_append

@[simp] theorem signs_sign (x : Sign) (ss : List Stroke) : signs (sign x :: ss) = x :: signs ss :=
  rfl

@[simp] theorem signs_blank (c : Char) (fits : Text.isBlank c = true) (ss : List Stroke) :
    signs (blank c fits :: ss) = signs ss := rfl

@[simp] theorem signs_space (ss : List Stroke) : signs (space :: ss) = signs ss := rfl

@[simp] theorem signs_lineBreak (ss : List Stroke) : signs (lineBreak :: ss) = signs ss := rfl

@[simp] theorem signs_importance (ss : List Stroke) : signs (importance :: ss) = signs ss := rfl

@[simp] theorem signs_semicolon (ss : List Stroke) : signs (semicolon :: ss) = signs ss := rfl

@[simp] theorem signs_gap (spaced : Bool) : signs (gap spaced) = [] := by
  cases spaced <;> rfl

end Stroke

open Stroke

namespace Construct

mutual

/-- The signs among the strokes of a construct are its own. -/
theorem signs_strokes (c : Construct) : Stroke.signs c.strokes = c.signs := by
  cases c with
  | atom kind value l => cases kind <;> rfl
  | combinator kind l => cases kind <;> rfl
  | matching operator l => rfl
  | quantity value measure l => rfl
  | pseudo kind name l => rfl
  | atRule name parameters hasBlock l => simp [strokes, signs, signs_strokesEach true parameters]
  | declaration name value important l =>
      cases important <;> simp [strokes, signs, signs_strokesJoined true value]
  | function name cs l | selector cs l | sequence cs l | attributeSelector cs l
  | group delimiter cs l | pseudoFunction kind name cs l =>
      simp [strokes, signs, signs_strokesJoined _ cs]

theorem signs_strokesEach (spaced : Bool) (cs : List Construct) :
    Stroke.signs (strokesEach spaced cs) = signsEach cs := by
  cases cs with
  | nil => rfl
  | cons c cs => simp [strokesEach, signsEach, signs_strokes c, signs_strokesEach spaced cs]

theorem signs_strokesJoined (spaced : Bool) (cs : List Construct) :
    Stroke.signs (strokesJoined spaced cs) = signsEach cs := by
  cases cs with
  | nil => rfl
  | cons c cs => simp [strokesJoined, signsEach, signs_strokes c, signs_strokesEach spaced cs]

end

end Construct

theorem signs_selectorStrokes (list : List Selector) :
    Stroke.signs (selectorStrokes list) = selectorSigns list := by
  induction list with
  | nil => rfl
  | cons s rest ih =>
      cases rest with
      | nil => exact Construct.signs_strokes s.toConstruct
      | cons s' rest => simp [selectorStrokes, selectorSigns, Construct.signs_strokes, ih]

/-! ## Quiet constructs -/

/-- No `!important` is written for the construct. -/
def Construct.Quiet (c : Construct) : Prop := importance ∉ c.strokes

namespace Construct

theorem quiet_strokesEach (spaced : Bool) {cs : List Construct} (h : ∀ c ∈ cs, c.Quiet) :
    importance ∉ strokesEach spaced cs := by
  induction cs with
  | nil => simp [strokesEach]
  | cons c cs ih =>
      have hc : importance ∉ c.strokes := h c (List.mem_cons_self ..)
      have hcs := ih (fun d hd => h d (List.mem_cons_of_mem _ hd))
      cases spaced <;> simp [strokesEach, Stroke.gap, hc, hcs]

theorem quiet_strokesJoined (spaced : Bool) {cs : List Construct} (h : ∀ c ∈ cs, c.Quiet) :
    importance ∉ strokesJoined spaced cs := by
  cases cs with
  | nil => simp [strokesJoined]
  | cons c cs =>
      have hc : importance ∉ c.strokes := h c (List.mem_cons_self ..)
      have hcs := quiet_strokesEach spaced (fun d hd => h d (List.mem_cons_of_mem _ hd))
      simp [strokesJoined, hc, hcs]

end Construct

/-- A single token that is a value is written as one sign. -/
theorem Token.strokes_of_valueStart {t : Token} {c : Construct} (h : t.valueStart = .atom c) :
    ∃ x, c.strokes = [.sign x] ∧ c.signs = [x] ∧ x.Shape [t] := by
  obtain ⟨kind, rfl⟩ | ⟨m, rfl⟩ := Token.eq_of_valueStart_atom h
  · cases kind with
    | typeSelector => exact absurd h (Token.valueStart_ne_typeSelector t _ _)
    | _ => exact ⟨_, rfl, rfl, t, h, rfl⟩
  · exact ⟨_, rfl, rfl, t, h, rfl⟩

theorem Token.quiet_of_valueStart {t : Token} {c : Construct} (h : t.valueStart = .atom c) :
    c.Quiet := by
  obtain ⟨x, hstrokes, -⟩ := Token.strokes_of_valueStart h
  simp [Construct.Quiet, hstrokes]

namespace Concrete

theorem Values.quiet {filler stop : TokenClass} (v : Values filler stop) :
    ∀ c ∈ v.latest, c.Quiet := by
  induction v with
  | nil => simp [Values.latest]
  | filler before t fits ih => exact ih
  | atom before t c fits goes ih =>
      intro d hd
      rcases List.mem_cons.1 hd with rfl | hd
      · exact Token.quiet_of_valueStart fits
      · exact ih d hd
  | nested before t o fits members closer ihb ihm =>
      intro d hd
      rcases List.mem_cons.1 hd with rfl | hd
      · have hmembers := Construct.quiet_strokesJoined true
          (fun c hc => ihm c (List.mem_reverse.1 hc))
        simp [Construct.Quiet, Frame.strokes_close, hmembers]
      · exact ihb d hd

theorem AttributeTest.quiet (a : AttributeTest) : ∀ c ∈ a.parts, c.Quiet := by
  intro c hc
  simp only [AttributeTest.parts, List.mem_cons, List.not_mem_nil, or_false] at hc
  rcases hc with rfl | rfl
  · simp [Construct.Quiet, Construct.strokes]
  · exact Token.quiet_of_valueStart a.isValue

theorem Arguments.quiet (a : Arguments) : ∀ c ∈ a.latest, c.Quiet := by
  induction a with
  | nil => simp [Arguments.latest]
  | blank before t fits ih => exact ih
  | atom before t c fits permitted goes ih =>
      intro d hd
      rcases List.mem_cons.1 hd with rfl | hd
      · exact Token.quiet_of_valueStart fits
      · exact ih d hd

theorem TypeName.quiet (n : TypeName) : n.construct.Quiet := by
  simp [TypeName.construct, Construct.Quiet, Construct.strokes]

theorem Plain.quiet (p : Plain) : p.construct.Quiet := by
  cases p with
  | type n => exact n.quiet
  | hashName t | className t | percentage t | pseudo colons name =>
      simp [Plain.construct, Construct.Quiet, Construct.strokes]
  | attributed bracket before name after test closer =>
      have hparts : ∀ c ∈ name.construct :: (test.map AttributeTest.parts).getD [], c.Quiet := by
        intro c hc
        rcases List.mem_cons.1 hc with rfl | hc
        · exact name.quiet
        · cases test with
          | none => cases hc
          | some test => exact test.quiet c hc
      simp [Plain.construct, Construct.Quiet, Construct.strokes,
        Construct.quiet_strokesJoined false hparts]
  | functional colons f notNegation arguments closer =>
      have harguments := Construct.quiet_strokesJoined false
        (fun c hc => arguments.quiet c (List.mem_reverse.1 hc))
      simp [Plain.construct, Construct.Quiet, Construct.strokes, harguments]

theorem Simple.quiet (x : Simple) : x.construct.Quiet := by
  cases x with
  | plain p => exact p.quiet
  | negation colons f isNegation before argument permitted after closer =>
      have hargument : importance ∉ argument.construct.strokes := argument.quiet
      simp [Simple.construct, Construct.Quiet, Construct.strokes, Construct.strokesJoined,
        Construct.strokesEach, hargument]

theorem Members.quiet (m : Members) : m.sequence.Quiet := by
  rw [Construct.Quiet, m.strokes_sequence]
  refine Construct.quiet_strokesEach false (fun c hc => ?_)
  have hmem := List.mem_reverse.1 hc
  clear hc
  induction m with
  | one x =>
      rw [List.mem_singleton.1 hmem]
      exact x.quiet
  | more before x notType ih =>
      rcases List.mem_cons.1 hmem with rfl | hmem
      · exact x.quiet
      · exact ih hmem

theorem Link.quiet (k : Link) (next : Location) : (k.construct next).Quiet := by
  cases k with
  | descendant space after => simp [Link.construct, Construct.Quiet, Construct.strokes,
      Combinator.strokes]
  | written before c kind isCombinator t after =>
      cases kind <;> simp [Link.construct, Construct.Quiet, Construct.strokes, Combinator.strokes]

theorem Lead.quiet (l : Lead) (next : Location) : ∀ c ∈ l.components next, c.Quiet := by
  induction l generalizing next with
  | start => simp [Lead.components]
  | link before m k ih =>
      intro c hc
      simp only [Lead.components, List.mem_cons] at hc
      rcases hc with rfl | rfl | hc
      · exact k.quiet next
      · exact m.quiet
      · exact ih _ c hc

theorem LinkedSelector.quiet (c : LinkedSelector) : c.selector.toConstruct.Quiet := by
  refine Construct.quiet_strokesJoined false (fun d hd => ?_)
  rcases List.mem_cons.1 (List.mem_reverse.1 hd) with rfl | hd
  · exact c.last.quiet
  · exact c.lead.quiet _ d hd

theorem SelectorList.quiet (l : SelectorList) : importance ∉ selectorStrokes l.selectors := by
  have hselectors : ∀ s ∈ l.selectors, s.toConstruct.Quiet := by
    intro s hs
    rcases List.mem_cons.1 (List.mem_reverse.1 hs) with rfl | hs
    · exact l.last.1.quiet
    · generalize l.earlier = e at hs
      induction e with
      | start => cases hs
      | comma before s' gap t after ih =>
          rcases List.mem_cons.1 hs with rfl | hs
          · exact s'.1.quiet
          · exact ih hs
  generalize l.selectors = list at hselectors
  induction list with
  | nil => simp [selectorStrokes]
  | cons s rest ih =>
      have hs : importance ∉ s.toConstruct.strokes := hselectors s (List.mem_cons_self ..)
      cases rest with
      | nil => exact hs
      | cons s' rest =>
          have hrest := ih (fun u hu => hselectors u (List.mem_cons_of_mem _ hu))
          simp [selectorStrokes, hs, hrest]

theorem Heading.quiet (g : Heading) (hasBlock : Bool) :
    importance ∉ (g.rule hasBlock).toConstruct.strokes := by
  have hparameters := Construct.quiet_strokesEach true
    (fun c hc => g.parameters.quiet c (List.mem_reverse.1 hc))
  simpa [Heading.rule, AtRule.toConstruct, Construct.strokes] using hparameters

end Concrete

/-! ## Tokens that carry strokes -/

/-- The tokens hold the signs of the strokes in order, and an `!important` among the values of each
declaration that is written with one. -/
inductive Carried : List Stroke → List Token → Prop
  | nil : Carried [] []
  | quiet (vs : List Stroke) (us : List Token) {ss : List Stroke} {ts : List Token}
      (hquiet : importance ∉ vs) (h : Spelled .separator (signs vs) us) (rest : Carried ss ts) :
      Carried (vs ++ ss) (us ++ ts)
  | important {vs ss : List Stroke} {us ts : List Token} (hquiet : importance ∉ vs)
      (hvalued : signs vs ≠ []) (h : Spelled .separator (signs vs) us)
      (hmark : ∃ t ∈ us, t.kind = .important) (rest : Carried ss ts) :
      Carried (vs ++ space :: importance :: ss) (us ++ ts)

/-- Tokens spell the same signs wherever they are placed. -/
theorem Spelled.map_unplaced {xs : List Sign} {ts : List Token} (h : Spelled .separator xs ts) :
    Spelled .separator xs (ts.map Token.unplaced) := by
  induction h with
  | nil => exact .nil
  | separator t ht rest ih => exact .separator t.unplaced ht ih
  | sign hx rest ih =>
      rw [List.map_append]
      exact .sign (Sign.shape_unplaced_iff.2 hx) ih

/-- Tokens carry the same strokes wherever they are placed. -/
theorem Carried.map_unplaced {ss : List Stroke} {ts : List Token} (h : Carried ss ts) :
    Carried ss (ts.map Token.unplaced) := by
  induction h with
  | nil => exact .nil
  | quiet vs us hquiet h rest ih =>
      rw [List.map_append]
      exact .quiet vs _ hquiet h.map_unplaced ih
  | important hquiet hvalued h hmark rest ih =>
      obtain ⟨t, ht, hkind⟩ := hmark
      rw [List.map_append]
      exact .important hquiet hvalued h.map_unplaced
        ⟨t.unplaced, List.mem_map.2 ⟨t, ht, rfl⟩, hkind⟩ ih

/-- A separator in front. -/
theorem Carried.separator {ss : List Stroke} {t : Token} {ts : List Token}
    (ht : TokenClass.separator t = true) (h : Carried ss ts) : Carried ss (t :: ts) :=
  .quiet [] [t] (by simp) (.separator t ht .nil) h

/-- A closing brace carries its stroke. -/
theorem Carried.closing {ss : List Stroke} {ts : List Token} (closer : Mark '}')
    (h : Carried ss ts) : Carried (closingStrokes ++ ss) (closer.1 :: ts) :=
  .quiet closingStrokes [closer.1] (by decide) (.mark closer .nil rfl) h

namespace Concrete

/-- A list of values that is not empty has a sign. -/
theorem Values.signs_ne_nil {filler stop : TokenClass} (v : Values filler stop)
    (h : v.latest ≠ []) : Construct.signsEach v.latest.reverse ≠ [] := by
  cases hlatest : v.latest with
  | nil => exact absurd hlatest h
  | cons c cs =>
      have hc : c.signs ≠ [] := by
        have hmem : c ∈ v.latest := by simp [hlatest]
        clear h hlatest
        induction v with
        | nil => cases hmem
        | filler before t fits ih => exact ih hmem
        | atom before t d fits goes ih =>
            rcases List.mem_cons.1 hmem with rfl | hmem
            · obtain ⟨x, -, hsigns, -⟩ := Token.strokes_of_valueStart fits
              simp [hsigns]
            · exact ih hmem
        | nested before t o fits members closer ihb _ =>
            rcases List.mem_cons.1 hmem with rfl | hmem
            · simp [Frame.signs_close]
            · exact ihb hmem
      simp [Construct.signsEach, hc]

variable (blocks : List Bool) (es : List Event) {ts : List Token}

/-- **The tokens of a declaration carry its strokes.** -/
theorem Property.carried (p : Property) (h : Carried (eventStrokes blocks es) ts) :
    Carried (eventStrokes blocks (.declaration p.declaration :: es)) (p.tokens ++ ts) := by
  have hfiller : ∀ t, TokenClass.blankOrImportant t = true → TokenClass.separator t = true := by
    intro t ht
    simp only [TokenClass.blankOrImportant, Bool.or_eq_true, beq_iff_eq] at ht
    rcases ht with ht | ht
    · exact separator_of_isBlank ht
    · exact separator_of_important ht
  have hvalue := p.body.spelled (fun _ => separator_of_isBlank) hfiller
  have hquiet := Construct.quiet_strokesJoined true
    (fun c hc => p.body.quiet c (List.mem_reverse.1 hc))
  have hname : Spelled .separator [.property p.declaration.name, .mark ':']
      (p.name.1 :: (p.gap.1 ++ [p.colon.1])) :=
    .cons ⟨p.name, rfl, rfl⟩
      ((p.gap.spelled (fun _ => separator_of_isBlank)).append (.mark p.colon .nil rfl))
  have hend : Carried (space :: semicolon :: lineBreak :: eventStrokes blocks es) ts :=
    .quiet [space, semicolon, lineBreak] [] (by decide) .nil h
  -- The value, with an `!important` if there is one, and the end of the line.
  have hbody : Carried (Construct.strokesJoined true p.declaration.value ++
      ((if p.declaration.important then [space, importance] else []) ++
        space :: semicolon :: lineBreak :: eventStrokes blocks es)) (p.body.tokens ++ ts) := by
    have hsigns : signs (Construct.strokesJoined true p.declaration.value) =
        Construct.signsEach p.body.latest.reverse := Construct.signs_strokesJoined true _
    cases himportant : p.declaration.important with
    | false => exact .quiet _ _ hquiet (hsigns ▸ hvalue) hend
    | true =>
        obtain ⟨t, ht, hkind⟩ := List.any_eq_true.1 himportant
        exact .important hquiet (hsigns ▸ p.body.signs_ne_nil p.valued) (hsigns ▸ hvalue)
          ⟨t, ht, by simpa using hkind⟩ hend
  have hline := Carried.quiet [space, space, .sign (.property p.declaration.name), space,
    .sign (.mark ':'), space] _ (by simp) hname hbody
  simpa [eventStrokes, Declaration.toConstruct, Construct.strokes, Property.tokens, Property.rest]
    using hline

theorem Declarations.carried (d : Declarations) (h : Carried (eventStrokes blocks es) ts) :
    Carried (eventStrokes blocks (d.events ++ es)) (d.tokens ++ ts) := by
  induction d with
  | nil => exact h
  | blank t fits rest ih => exact Carried.separator (separator_of_isBlank fits) ih
  | last p => exact p.carried blocks es h
  | cons p semicolon rest ih =>
      have hrest := p.carried blocks _ (Carried.separator (separator_of_semicolon semicolon) ih)
      simpa [Declarations.events, Declarations.declarations, Declarations.tokens] using hrest

/-- The tokens of an at-rule carry its strokes, up to its opening brace. -/
theorem Heading.carried_opening (g : Heading) (opener : Mark '{')
    (h : Carried (eventStrokes (true :: blocks) es) ts) :
    Carried (eventStrokes blocks (.atRule (g.rule true) :: es)) (g.tokens ++ opener.1 :: ts) := by
  have hspelled := (g.spelled (fun _ => separator_of_isBlank) true).append (.mark opener .nil rfl)
  have hquiet : importance ∉ (g.rule true).toConstruct.strokes ++ openingStrokes := by
    simpa [openingStrokes] using g.quiet true
  have hline := Carried.quiet _ _ hquiet
    (by simpa [openingStrokes, Construct.signs_strokes] using hspelled) h
  simpa [eventStrokes, Heading.rule] using hline

/-- **The tokens of statements carry their strokes**, before those of what follows. -/
theorem Statements.carried {top : Bool} {leads : Option Bool} (s : Statements top leads)
    (h : Carried (eventStrokes blocks es) ts) :
    Carried (eventStrokes blocks (s.events ++ es)) (s.tokens ++ ts) := by
  induction s generalizing blocks es ts with
  | nil => exact h
  | separator t fits rest ih => exact Carried.separator (separator_of_separates fits) (ih _ _ h)
  | rule list opener block closer rest ih =>
      have hblock := block.carried blocks (.endSelectors list.selectors :: (rest.events ++ es))
        (Carried.closing closer (ih blocks es h))
      have hspelled :=
        (list.spelled (fun _ => separator_of_isBlank)).append (.mark opener .nil rfl)
      have hquiet : importance ∉ selectorStrokes list.selectors ++ openingStrokes := by
        simpa [openingStrokes] using list.quiet
      have hline := Carried.quiet _ _ hquiet
        (by simpa [openingStrokes, signs_selectorStrokes] using hspelled) hblock
      simpa [Statements.events, Statements.tokens, eventStrokes] using hline
  | plain heading semicolon rest ih =>
      have hspelled := (heading.spelled (fun _ => separator_of_isBlank) false).append
        (.separator semicolon.1 (separator_of_semicolon semicolon) .nil)
      have hquiet : importance ∉ (heading.rule false).toConstruct.strokes ++ endingStrokes := by
        simpa [endingStrokes] using heading.quiet false
      have hline := Carried.quiet _ _ hquiet
        (by simpa [endingStrokes, Construct.signs_strokes] using hspelled) (ih blocks es h)
      simpa [Statements.events, Statements.tokens, eventStrokes, Heading.rule] using hline
  | declared heading opener block closer rest ih =>
      have hblock := block.carried (true :: blocks)
        (.endAtRule heading.lowerName :: (rest.events ++ es))
        (Carried.closing closer (ih blocks es h))
      simpa [Statements.events, Statements.tokens] using
        heading.carried_opening blocks _ opener hblock
  | nested heading opener block closer rest ihb ih =>
      have hblock := ihb (true :: blocks) (.endAtRule heading.lowerName :: (rest.events ++ es))
        (Carried.closing closer (ih blocks es h))
      simpa [Statements.events, Statements.tokens] using
        heading.carried_opening blocks _ opener hblock

/-- **The tokens of a style sheet carry the strokes of its events.** -/
theorem StyleSheet.carried (s : StyleSheet) : Carried (eventStrokes [] s.events) s.tokens := by
  have h := s.statements.carried [] [.finish] .nil
  simpa [StyleSheet.events, StyleSheet.tokens, eventStrokes] using h

end Concrete

end EpubStyle
