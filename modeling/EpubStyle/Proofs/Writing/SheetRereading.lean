import EpubStyle.Proofs.Writing.SelectorRereading

/-!
# Style sheets that are laid out are read as they were

Tokens that are laid out as the strokes of a style sheet are those of a style sheet with the same
events, up to locations (`StyleSheet.reread`). Its parts are declarations (`Property.reread`,
`Declarations.reread`), at-rules up to their block or end (`Heading.reread`) and statements
(`Statements.reread`).

A declaration is written with its `!important` behind all values. That is where it is read back,
and nowhere else, since no other token of a value is one (`Concrete.Values.not_important`).
-/

set_option autoImplicit false

namespace EpubStyle

open Concrete

namespace Concrete

variable {ss : List Stroke} {ts : List Token}

/-! ## Declarations -/

/-- The body of a declaration, from the white space behind its colon to its semicolon. -/
theorem Property.reread_body (p : Property)
    (h : Laid (Stroke.space :: (Construct.strokesJoined true p.declaration.value ++
      ((if p.declaration.important then [Stroke.space, .importance] else []) ++
        Stroke.space :: ss))) ts) :
    ∃ (body : Values TokenClass.blankOrImportant TokenClass.never) (vs : List Token),
      ts = body.tokens ++ vs ∧
        body.latest.map Construct.unlocated = p.body.latest.map Construct.unlocated ∧
          body.tokens.any (fun t => t.kind == .important) = p.declaration.important ∧
            Laid ss vs := by
  have hblank : ∀ t : Token, t.isBlank = true → TokenClass.blankOrImportant t = true :=
    fun t ht => by simp [TokenClass.blankOrImportant, ht]
  obtain ⟨before, _, rfl, hvalue⟩ := Laid.of_blank h
  obtain ⟨w, _, rfl, hlatest, himportance⟩ :=
    p.body.reread TokenClass.settled_never (row_strokesJoined true) hvalue
  -- The white space behind the colon goes in front of the values.
  obtain ⟨space, hspace, hspaceLatest⟩ :=
    Values.exists_gap TokenClass.never (fun _ => id) before
  obtain ⟨w', htokens, hlatest'⟩ := space.exists_append w
  rw [hspaceLatest, List.append_nil] at hlatest'
  rw [hspace] at htokens
  cases himportant : p.declaration.important with
  | false =>
      rw [himportant] at himportance
      obtain ⟨after, vs, rfl, hrest⟩ := Laid.of_blank himportance
      obtain ⟨plain, hplain, hplainLatest⟩ := w'.exists_spaced (fun _ => id) after
      obtain ⟨body, hbody, hbodyLatest⟩ := plain.exists_weakened hblank
      refine ⟨body, vs, by simp [hbody, hplain, htokens], by rw [hbodyLatest, hplainLatest,
        hlatest', hlatest], ?_, hrest⟩
      rw [hbody, List.any_eq_false]
      intro t ht
      simpa using plain.not_important t ht
  -- The `!important` and the white space around it are fillers behind the values.
  | true =>
      rw [himportant] at himportance
      obtain ⟨gap, _, rfl, hmark⟩ := Laid.of_blank himportance
      obtain ⟨mark, _, rfl, hgap⟩ := Laid.of_importance hmark
      obtain ⟨after, vs, rfl, hrest⟩ := Laid.of_blank hgap
      obtain ⟨plain, hplain, hplainLatest⟩ := w'.exists_spaced (fun _ => id) gap
      obtain ⟨value, hvalue, hvalueLatest⟩ := plain.exists_weakened hblank
      obtain ⟨body, hbody, hbodyLatest⟩ :=
        (Values.filler value mark.1 (by simp [TokenClass.blankOrImportant, mark.2])).exists_spaced
          hblank after
      refine ⟨body, vs, by simp [hbody, hvalue, Values.tokens, hplain, htokens], ?_, ?_, hrest⟩
      · rw [hbodyLatest, Values.latest, hvalueLatest, hplainLatest, hlatest', hlatest]
      · simp [hbody, Values.tokens, mark.2]

/-- **A declaration is read as it was**, up to its semicolon. -/
theorem Property.reread (p : Property)
    (h : Laid (p.declaration.toConstruct.strokes ++ ss) ts) :
    ∃ (q : Property) (semicolon : Mark ';') (vs : List Token),
      ts = q.tokens ++ semicolon.1 :: vs ∧
        q.declaration.unlocated = p.declaration.unlocated ∧ Laid ss vs := by
  simp only [Declaration.toConstruct, Construct.strokes, List.cons_append, List.append_assoc,
    List.nil_append] at h
  obtain ⟨_, _, rfl, ⟨name, hname, rfl⟩, hgap⟩ := Laid.of_sign h
  obtain ⟨gap, _, rfl, hcolon⟩ := Laid.of_blank hgap
  obtain ⟨colon, _, rfl, hbody⟩ := Laid.of_mark hcolon
  obtain ⟨body, _, rfl, hlatest, himportant, hsemicolon⟩ := p.reread_body hbody
  obtain ⟨semicolon, vs, rfl, hrest⟩ := hsemicolon.of_semicolon
  have hvalued : body.latest ≠ [] := by
    intro hnil
    rw [hnil, List.map_nil] at hlatest
    exact p.valued (List.map_eq_nil_iff.1 hlatest.symm)
  refine ⟨⟨name, gap, colon, body, hvalued⟩, semicolon, vs, ?_, ?_, hrest⟩
  · simp [Property.tokens, Property.rest]
  · rw [Declaration.unlocated, Declaration.unlocated, Construct.unlocatedEach_eq_map,
      Construct.unlocatedEach_eq_map]
    simp only [Property.declaration] at hname himportant ⊢
    rw [hname, himportant, List.map_reverse, List.map_reverse, hlatest]

/-- The declaration at the front, with the white space around it. -/
theorem Property.reread_line (p : Property) {blocks : List Bool} {es : List Event}
    (h : Laid (eventStrokes blocks (.declaration p.declaration :: es)) ts) :
    ∃ (before : Gap) (q : Property) (semicolon : Mark ';') (after : Gap) (vs : List Token),
      ts = before.1 ++ (q.tokens ++ semicolon.1 :: (after.1 ++ vs)) ∧
        q.declaration.unlocated = p.declaration.unlocated ∧ Laid (eventStrokes blocks es) vs := by
  rw [eventStrokes, List.cons_append, List.cons_append] at h
  obtain ⟨first, _, rfl, hsecond⟩ := Laid.of_blank h
  obtain ⟨second, _, rfl, hdeclaration⟩ := Laid.of_blank hsecond
  obtain ⟨q, semicolon, _, rfl, heq, hlineBreak⟩ := p.reread hdeclaration
  obtain ⟨after, vs, rfl, hrest⟩ := Laid.of_blank hlineBreak
  refine ⟨⟨first.1 ++ second.1, fun t ht => ?_⟩, q, semicolon, after, vs, by simp, heq, hrest⟩
  rcases List.mem_append.1 ht with ht | ht
  · exact first.2 t ht
  · exact second.2 t ht

/-- **Declarations are read as they were.** -/
theorem Declarations.reread (d : Declarations) {blocks : List Bool} {es : List Event}
    (h : Laid (eventStrokes blocks (d.events ++ es)) ts) :
    ∃ (d' : Declarations) (vs : List Token), ts = d'.tokens ++ vs ∧
      d'.events.map Event.unlocated = d.events.map Event.unlocated ∧
        Laid (eventStrokes blocks es) vs := by
  -- One line: a declaration between the white space that belongs to its line.
  have hline (p q : Property) (semicolon : Mark ';') (before after : Gap) (rest : Declarations)
      (heq : q.declaration.unlocated = p.declaration.unlocated) :
      ∃ d' : Declarations,
        d'.tokens = before.1 ++ (q.tokens ++ semicolon.1 :: (after.1 ++ rest.tokens)) ∧
          d'.events.map Event.unlocated =
            (Event.declaration p.declaration :: rest.events).map Event.unlocated := by
    obtain ⟨tail, htail, htailEvents⟩ := rest.exists_spaced after
    obtain ⟨d', htokens, hevents⟩ := (Declarations.cons q semicolon tail).exists_spaced before
    refine ⟨d', by simp [htokens, Declarations.tokens, htail], ?_⟩
    have hcons : d'.events = .declaration q.declaration :: tail.events := hevents
    simp [hcons, htailEvents, Event.unlocated, heq]
  induction d generalizing ts with
  | nil => exact ⟨.nil, ts, rfl, rfl, h⟩
  | blank t fits rest ih => exact ih h
  | last p =>
      obtain ⟨before, q, semicolon, after, vs, rfl, heq, hrest⟩ := p.reread_line h
      obtain ⟨d', htokens, hevents⟩ := hline p q semicolon before after .nil heq
      exact ⟨d', vs, by simp [htokens, Declarations.tokens], hevents, hrest⟩
  | cons p semicolon rest ih =>
      obtain ⟨before, q, semicolon', after, _, rfl, heq, hmore⟩ := p.reread_line h
      obtain ⟨rest', vs, rfl, hevents, hrest⟩ := ih hmore
      obtain ⟨d', htokens, hevents'⟩ := hline p q semicolon' before after rest' heq
      refine ⟨d', vs, by simp [htokens], ?_, hrest⟩
      rw [hevents', List.map_cons, hevents]
      rfl

/-! ## Statements -/

/-- **An at-rule is read as it was**, up to its block or its end. -/
theorem Heading.reread (g : Heading) (hasBlock : Bool)
    (h : Laid ((g.rule hasBlock).toConstruct.strokes ++ ss) ts) :
    ∃ (g' : Heading) (vs : List Token), ts = g'.tokens ++ vs ∧
      (∀ b, (g'.rule b).unlocated = (g.rule b).unlocated) ∧ Laid ss vs := by
  obtain ⟨_, _, rfl, ⟨name, hname, rfl⟩, hparameters⟩ := Laid.of_sign h
  obtain ⟨parameters, vs, rfl, hlatest, hrest⟩ :=
    g.parameters.reread TokenClass.settled_never (row_strokesEach true) hparameters
  refine ⟨⟨name, parameters⟩, vs, rfl, fun b => ?_, hrest⟩
  have hlower : Heading.lowerName ⟨name, parameters⟩ = g.lowerName := hname
  simp [Heading.rule, AtRule.unlocated, Construct.unlocatedEach_eq_map, List.map_reverse, hlower,
    hlatest]

/-- An at-rule is read as it was, up to the line behind its opening brace. -/
theorem Heading.reread_opening (g : Heading)
    (h : Laid ((g.rule true).toConstruct.strokes ++ openingStrokes ++ ss) ts) :
    ∃ (g' : Heading) (opener : Mark '{') (after : Gap) (vs : List Token),
      ts = g'.tokens ++ opener.1 :: (after.1 ++ vs) ∧
        (∀ b, (g'.rule b).unlocated = (g.rule b).unlocated) ∧ Laid ss vs := by
  rw [List.append_assoc] at h
  obtain ⟨g', _, rfl, hrule, hspace⟩ := g.reread true h
  obtain ⟨before, _, rfl, hbrace⟩ := Laid.of_blank hspace
  obtain ⟨opener, after, vs, rfl, hrest⟩ := Laid.of_line hbrace
  obtain ⟨parameters, htokens, hlatest⟩ := g'.parameters.exists_spaced (fun _ => id) before
  refine ⟨⟨g'.name, parameters⟩, opener, after, vs, ?_, fun b => ?_, hrest⟩
  · simp [Heading.tokens, htokens]
  · rw [← hrule]
    simp [Heading.rule, Heading.lowerName, hlatest]

/-- At-rules that differ in their locations only have the same name. -/
theorem Heading.lowerName_eq (g : Heading) {g' : Heading}
    (h : ∀ b, (g'.rule b).unlocated = (g.rule b).unlocated) : g'.lowerName = g.lowerName :=
  congrArg AtRule.name (h true)

/-- White space may stand between statements anywhere. -/
theorem separates_of_isBlank {top : Bool} {t : Token} (h : t.isBlank = true) :
    separates top t = true := by
  cases top with
  | false => exact h
  | true => simp [separates, TokenClass.topLevel, h]

/-- White space before statements. -/
theorem Statements.exists_spaced {top : Bool} {leads : Option Bool} (g : Gap)
    (s : Statements top leads) :
    ∃ s' : Statements top leads, s'.tokens = g.1 ++ s.tokens ∧ s'.events = s.events := by
  obtain ⟨ts, hblank⟩ := g
  induction ts with
  | nil => exact ⟨s, rfl, rfl⟩
  | cons t ts ih =>
      obtain ⟨s', htokens, hevents⟩ := ih (fun u hu => hblank u (List.mem_cons_of_mem _ hu))
      exact ⟨.separator t (separates_of_isBlank (hblank t (List.mem_cons_self ..))) s',
        by simp [Statements.tokens, htokens], hevents⟩

/-- **Statements are read as they were.** -/
theorem Statements.reread {top : Bool} {leads : Option Bool} (s : Statements top leads)
    {blocks : List Bool} {es : List Event} (h : Laid (eventStrokes blocks (s.events ++ es)) ts) :
    ∃ (s' : Statements top leads) (vs : List Token), ts = s'.tokens ++ vs ∧
      s'.events.map Event.unlocated = s.events.map Event.unlocated ∧
        Laid (eventStrokes blocks es) vs := by
  induction s generalizing blocks es ts with
  | nil => exact ⟨.nil, ts, rfl, rfl, h⟩
  | separator t fits rest ih => exact ih h
  -- Lines end in white space, which goes to what is read behind it: a block or the statements left.
  | rule list opener block closer rest ih =>
      rw [Statements.events, List.cons_append, List.append_assoc, eventStrokes,
        List.append_assoc] at h
      obtain ⟨list', _, rfl, hlist, hopener⟩ := list.reread h
      obtain ⟨opener', inside, _, rfl, hblock⟩ := Laid.of_line hopener
      obtain ⟨block', _, rfl, hdeclarations, hcloser⟩ := block.reread hblock
      obtain ⟨closer', after, _, rfl, hmore⟩ := Laid.of_line hcloser
      obtain ⟨rest', vs, rfl, hevents, hrest⟩ := ih hmore
      obtain ⟨spaced, hspaced, hspacedEvents⟩ := block'.exists_spaced inside
      obtain ⟨tail, htail, htailEvents⟩ := rest'.exists_spaced after
      refine ⟨.rule list' opener' spaced closer' tail, vs, ?_, ?_, hrest⟩
      · simp [Statements.tokens, hspaced, htail]
      · simp [Statements.events, hspacedEvents, htailEvents, Event.unlocated, hlist,
          hdeclarations, hevents]
  | plain heading semicolon rest ih =>
      rw [Statements.events, List.cons_append, List.cons_append, eventStrokes,
        List.append_assoc] at h
      obtain ⟨heading', _, rfl, hrule, hsemicolon⟩ := heading.reread false h
      obtain ⟨semicolon', _, rfl, hlineBreak⟩ := Laid.of_semicolon hsemicolon
      obtain ⟨after, _, rfl, hmore⟩ := Laid.of_blank hlineBreak
      obtain ⟨rest', vs, rfl, hevents, hrest⟩ := ih hmore
      obtain ⟨tail, htail, htailEvents⟩ := rest'.exists_spaced after
      refine ⟨.plain heading' semicolon' tail, vs, ?_, ?_, hrest⟩
      · simp [Statements.tokens, htail]
      · simp [Statements.events, htailEvents, Event.unlocated, hrule, heading.lowerName_eq hrule,
          hevents]
  | declared heading opener block closer rest ih =>
      rw [Statements.events, List.cons_append, List.append_assoc, eventStrokes] at h
      obtain ⟨heading', opener', inside, _, rfl, hrule, hblock⟩ := heading.reread_opening h
      obtain ⟨block', _, rfl, hdeclarations, hcloser⟩ := block.reread hblock
      obtain ⟨closer', after, _, rfl, hmore⟩ := Laid.of_line hcloser
      obtain ⟨rest', vs, rfl, hevents, hrest⟩ := ih hmore
      obtain ⟨spaced, hspaced, hspacedEvents⟩ := block'.exists_spaced inside
      obtain ⟨tail, htail, htailEvents⟩ := rest'.exists_spaced after
      refine ⟨.declared heading' opener' spaced closer' tail, vs, ?_, ?_, hrest⟩
      · simp [Statements.tokens, hspaced, htail]
      · simp [Statements.events, hspacedEvents, htailEvents, Event.unlocated, hrule,
          heading.lowerName_eq hrule, hdeclarations, hevents]
  | nested heading opener block closer rest ihb ih =>
      rw [Statements.events, List.cons_append, List.append_assoc, eventStrokes] at h
      obtain ⟨heading', opener', inside, _, rfl, hrule, hblock⟩ := heading.reread_opening h
      obtain ⟨block', _, rfl, hstatements, hcloser⟩ := ihb hblock
      obtain ⟨closer', after, _, rfl, hmore⟩ := Laid.of_line hcloser
      obtain ⟨rest', vs, rfl, hevents, hrest⟩ := ih hmore
      obtain ⟨spaced, hspaced, hspacedEvents⟩ := block'.exists_spaced inside
      obtain ⟨tail, htail, htailEvents⟩ := rest'.exists_spaced after
      refine ⟨.nested heading' opener' spaced closer' tail, vs, ?_, ?_, hrest⟩
      · simp [Statements.tokens, hspaced, htail]
      · simp [Statements.events, hspacedEvents, htailEvents, Event.unlocated, hrule,
          heading.lowerName_eq hrule, hstatements, hevents]

/-- **A style sheet is read as it was.** -/
theorem StyleSheet.reread (s : StyleSheet) (h : Laid (eventStrokes [] s.events) ts) :
    ∃ s' : StyleSheet, s'.tokens = ts ∧
      s'.events.map Event.unlocated = s.events.map Event.unlocated := by
  have hstatements : Laid (eventStrokes [] (s.statements.events ++ [.finish])) ts := h
  obtain ⟨statements, vs, rfl, hevents, hrest⟩ := s.statements.reread hstatements
  cases hrest
  refine ⟨⟨s.leads, statements⟩, by simp [StyleSheet.tokens], ?_⟩
  simp [StyleSheet.events, hevents]

end Concrete

end EpubStyle
