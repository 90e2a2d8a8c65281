import EpubStyle.Proofs.Concrete.SelectorReading
import EpubStyle.Proofs.Concrete.Sheets
import EpubStyle.Proofs.Sheet.Feed

/-!
# Braces and semicolons

Selectors, declarations without their ends, and at-rules up to their block hold no braces and no
semicolons (`Unpunctuated`). So the lookahead at the brace of an at-rule, which goes to the first of
these, tells exactly whether the first statement behind the brace has a block
(`Statements.holdsStatements_iff`), and never takes declarations for statements
(`Declarations.holdsStatements`).
-/

set_option autoImplicit false

namespace EpubStyle

/-- A token that is neither a brace nor a semicolon. -/
def Token.Inner (t : Token) : Prop := t.isOneOf ['{', ';', '}'] = false

/-- Tokens without braces and semicolons. -/
def Unpunctuated (ts : List Token) : Prop := ∀ t ∈ ts, t.Inner

@[simp] theorem unpunctuated_nil : Unpunctuated [] := by simp [Unpunctuated]

@[simp] theorem unpunctuated_cons (t : Token) (ts : List Token) :
    Unpunctuated (t :: ts) ↔ t.Inner ∧ Unpunctuated ts := by
  simp [Unpunctuated]

@[simp] theorem unpunctuated_append (ts us : List Token) :
    Unpunctuated (ts ++ us) ↔ Unpunctuated ts ∧ Unpunctuated us := by
  simp [Unpunctuated, or_imp, forall_and]

/-- The lookahead passes over tokens without braces and semicolons. -/
theorem holdsStatements_of_unpunctuated {ts : List Token} (h : Unpunctuated ts) (us : List Token) :
    holdsStatements (ts ++ us) = holdsStatements us := by
  induction ts with
  | nil => rfl
  | cons t ts ih =>
      obtain ⟨ht, hts⟩ := (unpunctuated_cons t ts).1 h
      simp only [Token.Inner, Token.isOneOf, List.any_cons, List.any_nil,
        Bool.or_eq_false_iff] at ht
      simp [holdsStatements, Token.isOneOf, ht, ih hts]

theorem Token.inner_of_kind {t : Token} (h : t.kind ≠ .char) : t.Inner := by
  simp [Inner, isOneOf, isChar_of_kind h]

theorem Token.inner_of_isChar {t : Token} {c : Char} (h : t.isChar c = true)
    (hc : c ∉ ['{', ';', '}']) : t.Inner := by
  simp only [List.mem_cons, List.not_mem_nil, or_false, not_or] at hc
  simp [Inner, isOneOf, isChar_eq_false h hc.1, isChar_eq_false h hc.2.1, isChar_eq_false h hc.2.2]

theorem Token.inner_of_valueStart {t : Token} (h : t.valueStart ≠ .nothing) : t.Inner := by
  simp [Inner, isOneOf, not_isChar_of_valueStart h]

theorem Token.inner_of_isBlank {t : Token} (h : t.isBlank = true) : t.Inner := by
  refine inner_of_kind (fun hk => ?_)
  simp [isBlank, hk] at h

namespace Concrete

theorem Gap.unpunctuated (g : Gap) : Unpunctuated g.1 :=
  fun t ht => Token.inner_of_isBlank (g.2 t ht)

/-! ## Values -/

theorem Values.unpunctuated {filler stop : TokenClass} (v : Values filler stop)
    (h : ∀ t, filler t = true → t.Inner) : Unpunctuated v.tokens := by
  induction v with
  | nil => simp [Values.tokens]
  | filler before t fits ih => simp [Values.tokens, ih h, h t fits]
  | atom before t c fits goes ih =>
      simp [Values.tokens, ih h, Token.inner_of_valueStart (t := t) (by simp [fits])]
  | nested before t o fits members closer ihb ihm =>
      have ht : t.Inner := by
        refine Token.inner_of_valueStart ?_
        rw [fits]
        cases o <;> simp [Opening.toStart]
      have hcloser : closer.1.Inner := by
        refine Token.inner_of_isChar closer.2 ?_
        cases o with
        | function name => simp [Opening.closer]
        | group delimiter => cases delimiter <;> simp [Opening.closer]
      simp [Values.tokens, ihb h, ht, ihm (fun t ht => Token.inner_of_isBlank ht), hcloser]

theorem Heading.unpunctuated (h : Heading) : Unpunctuated h.tokens := by
  have hname : h.name.1.Inner := Token.inner_of_kind (by simp [h.name.2])
  have hparameters := h.parameters.unpunctuated (fun t ht => Token.inner_of_isBlank ht)
  simp [Heading.tokens, hname, hparameters]

theorem Property.unpunctuated (p : Property) : Unpunctuated p.tokens := by
  have hname : p.name.1.Inner := Token.inner_of_kind (by simp [p.name.2])
  have hcolon : p.colon.1.Inner := Token.inner_of_isChar p.colon.2 (by decide)
  have hbody := p.body.unpunctuated (fun t ht => by
    simp only [TokenClass.blankOrImportant, Bool.or_eq_true, beq_iff_eq] at ht
    rcases ht with ht | ht
    · exact Token.inner_of_isBlank ht
    · exact Token.inner_of_kind (by simp [ht]))
  simp [Property.tokens, Property.rest, hname, hcolon, hbody, p.gap.unpunctuated]

/-! ## Selectors -/

theorem NameOrStar.inner (t : NameOrStar) : t.1.Inner := by
  rcases t.2 with h | h
  · exact Token.inner_of_kind (by simp [h])
  · exact Token.inner_of_isChar h (by decide)

theorem TypeName.unpunctuated (n : TypeName) : Unpunctuated n.tokens := by
  cases n with
  | plain t => simp [TypeName.tokens, TypeName.first, TypeName.rest, NameOrStar.inner t]
  | bare bar t =>
      simp [TypeName.tokens, TypeName.first, TypeName.rest,
        Token.inner_of_isChar bar.2 (by decide), Token.inner_of_kind (t := t.1) (by simp [t.2])]
  | qualified space bar t =>
      simp [TypeName.tokens, TypeName.first, TypeName.rest, NameOrStar.inner,
        Token.inner_of_isChar bar.2 (by decide)]

theorem AttributeTest.unpunctuated (a : AttributeTest) : Unpunctuated a.tokens := by
  have hoperator : a.operator.Inner := by
    cases hk : a.operator.kind with
    | char =>
        have heq : a.operator.isChar '=' = true := by
          have h := a.isOperator
          simp only [MatchOperator.ofToken?, hk] at h
          split at h
          · next hc => exact hc
          · cases h
        exact Token.inner_of_isChar heq (by decide)
    | _ => exact Token.inner_of_kind (by simp [hk])
  have hvalue : a.value.Inner := Token.inner_of_valueStart (by simp [a.isValue])
  simp [AttributeTest.tokens, hoperator, hvalue, a.gap.unpunctuated, a.after.unpunctuated]

theorem Colons.unpunctuated (c : Colons) : c.first.Inner ∧ Unpunctuated c.rest := by
  cases c with
  | one colon =>
      simp [Colons.first, Colons.rest, Token.inner_of_isChar colon.2 (by decide)]
  | two colon second =>
      simp [Colons.first, Colons.rest, Token.inner_of_isChar colon.2 (by decide),
        Token.inner_of_isChar second.2 (by decide)]

theorem Arguments.unpunctuated (a : Arguments) : Unpunctuated a.tokens := by
  induction a with
  | nil => simp [Arguments.tokens]
  | blank before t fits ih => simp [Arguments.tokens, ih, Token.inner_of_isBlank fits]
  | atom before t c fits permitted goes ih =>
      simp [Arguments.tokens, ih, Token.inner_of_valueStart (t := t) (by simp [fits])]

theorem Plain.unpunctuated (p : Plain) : Unpunctuated p.tokens := by
  cases p with
  | type n => exact n.unpunctuated
  | hashName t | className t | percentage t =>
      simp [Plain.tokens, Plain.first, Plain.rest, Token.inner_of_kind (t := t.1) (by simp [t.2])]
  | attributed bracket before name after test closer =>
      have htest : Unpunctuated ((test.map AttributeTest.tokens).getD []) := by
        cases test with
        | none => simp
        | some test => exact test.unpunctuated
      simp [Plain.tokens, Plain.first, Plain.rest, Token.inner_of_isChar bracket.2 (by decide),
        Gap.unpunctuated, name.unpunctuated, htest, Token.inner_of_isChar closer.2 (by decide)]
  | pseudo colons name =>
      simp [Plain.tokens, Plain.first, Plain.rest, colons.unpunctuated,
        Token.inner_of_kind (t := name.1) (by simp [name.2])]
  | functional colons f notNegation arguments closer =>
      simp [Plain.tokens, Plain.first, Plain.rest, colons.unpunctuated, arguments.unpunctuated,
        Token.inner_of_kind (t := f.1) (by simp [f.2]),
        Token.inner_of_isChar closer.2 (by decide)]

theorem Simple.unpunctuated (x : Simple) : Unpunctuated x.tokens := by
  cases x with
  | plain p => exact p.unpunctuated
  | negation colons f isNegation before argument permitted after closer =>
      simp [Simple.tokens, Simple.first, Simple.rest, colons.unpunctuated, Gap.unpunctuated,
        argument.unpunctuated, Token.inner_of_kind (t := f.1) (by simp [f.2]),
        Token.inner_of_isChar closer.2 (by decide)]

theorem Members.unpunctuated (m : Members) : Unpunctuated m.tokens := by
  induction m with
  | one x => exact x.unpunctuated
  | more before x notType ih =>
      have hall := (unpunctuated_append before.tokens x.tokens).2 ⟨ih, x.unpunctuated⟩
      simpa [Members.tokens, Members.first, Members.rest] using hall

theorem Link.unpunctuated (l : Link) : Unpunctuated l.tokens := by
  cases l with
  | descendant space after =>
      simp [Link.tokens, Token.inner_of_kind (t := space.1) (by simp [space.2]), Gap.unpunctuated]
  | written before c k isCombinator t after =>
      have ht : t.1.Inner := by
        refine Token.inner_of_isChar t.2 ?_
        unfold Combinator.ofChar? at isCombinator
        split at isCombinator <;> simp_all
      simp [Link.tokens, Gap.unpunctuated, ht]

theorem LinkedSelector.unpunctuated (c : LinkedSelector) : Unpunctuated c.tokens := by
  have hlead : Unpunctuated c.lead.tokens := by
    induction c.lead with
    | start => simp [Lead.tokens]
    | link before m l ih => simp [Lead.tokens, ih, m.unpunctuated, l.unpunctuated]
  simp [LinkedSelector.tokens, hlead, c.last.unpunctuated]

theorem SelectorList.unpunctuated (x : SelectorList) : Unpunctuated x.tokens := by
  have hearlier : Unpunctuated x.earlier.tokens := by
    induction x.earlier with
    | start => simp [Earlier.tokens]
    | comma before s gap t after ih =>
        simp [Earlier.tokens, ih, s.1.unpunctuated, Gap.unpunctuated,
          Token.inner_of_isChar t.2 (by decide)]
  simp [SelectorList.tokens, hearlier, x.last.1.unpunctuated, x.gap.unpunctuated]

/-! ## The lookahead -/

theorem holdsStatements_openBrace (t : Mark '{') (ts : List Token) :
    holdsStatements (t.1 :: ts) = true := by
  simp [holdsStatements, t.2]

theorem holdsStatements_closeBrace (t : Mark '}') (ts : List Token) :
    holdsStatements (t.1 :: ts) = false := by
  simp [holdsStatements, Token.isOneOf, t.2, Token.isChar_eq_false t.2 (d := '{') (by decide)]

theorem holdsStatements_semicolon (t : Mark ';') (ts : List Token) :
    holdsStatements (t.1 :: ts) = false := by
  simp [holdsStatements, Token.isOneOf, t.2, Token.isChar_eq_false t.2 (d := '{') (by decide)]

/-- Declarations are not taken for statements. -/
theorem Declarations.holdsStatements (d : Declarations) (closer : Mark '}') (ts : List Token) :
    holdsStatements (d.tokens ++ closer.1 :: ts) = false := by
  induction d with
  | nil => exact holdsStatements_closeBrace closer ts
  | blank t fits rest ih =>
      have ht : Unpunctuated [t] := by simp [Token.inner_of_isBlank fits]
      exact (holdsStatements_of_unpunctuated ht _).trans ih
  | last p =>
      exact (holdsStatements_of_unpunctuated p.unpunctuated _).trans
        (holdsStatements_closeBrace closer ts)
  | cons p semicolon rest ih =>
      rw [Declarations.tokens, List.append_assoc]
      exact (holdsStatements_of_unpunctuated p.unpunctuated _).trans
        (holdsStatements_semicolon semicolon _)

/-- **The lookahead tells whether the first statement of a block has a block itself.** -/
theorem Statements.holdsStatements_iff {leads : Option Bool} (s : Statements false leads)
    (closer : Mark '}') (ts : List Token) :
    EpubStyle.holdsStatements (s.tokens ++ closer.1 :: ts) = true ↔ leads = some true := by
  generalize htop : false = top at s
  induction s with
  | nil => simp [Statements.tokens, holdsStatements_closeBrace]
  | separator t fits rest ih =>
      subst htop
      have ht : Unpunctuated [t] := by
        have hblank : t.isBlank = true := fits
        simp [Token.inner_of_isBlank hblank]
      rw [← ih rfl]
      exact Bool.eq_iff_iff.1 (holdsStatements_of_unpunctuated ht _)
  | rule list opener block closer' rest _ =>
      simp only [Statements.tokens, List.append_assoc, List.cons_append,
        holdsStatements_of_unpunctuated list.unpunctuated, holdsStatements_openBrace]
  | plain heading semicolon rest _ =>
      simp [Statements.tokens, holdsStatements_of_unpunctuated heading.unpunctuated,
        holdsStatements_semicolon]
  | declared heading opener block closer' rest _ =>
      simp only [Statements.tokens, List.append_assoc, List.cons_append,
        holdsStatements_of_unpunctuated heading.unpunctuated, holdsStatements_openBrace]
  | nested heading opener block closer' rest _ _ =>
      simp only [Statements.tokens, List.append_assoc, List.cons_append,
        holdsStatements_of_unpunctuated heading.unpunctuated, holdsStatements_openBrace]

end Concrete

end EpubStyle
