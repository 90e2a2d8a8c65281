import EpubStyle.Proofs.Concrete.Sheets

/-!
# The signs of a style

A `Sign` is the smallest thing that is written for a construct: a single token, or the few tokens of
a qualified name or of a pseudo selector. `Construct.signs` are the signs of a construct, with the
brackets that belong to it, and `eventSigns` those of events, with the braces around their blocks.

`Sign.Shape` says which tokens are a sign. Tokens spell a list of signs if they are those of its
signs in order, with separators between them (`Spelled`). Every tree of the concrete syntax spells
the signs of what it stands for: `Values.spelled`, `Plain.spelled`, `SelectorList.spelled`,
`Property.spelled`, and for whole styles `StyleSheet.spelled` and `InlineStyle.spelled`.
-/

set_option autoImplicit false

namespace EpubStyle

open Concrete

/-! ## Signs -/

/-- The smallest thing that is written for a construct. -/
inductive Sign where
  /-- A single character with a structural meaning. -/
  | mark (c : Char)
  /-- A single token that is a value. -/
  | value (kind : AtomKind) (text : String)
  | quantity (text : String) (measure : Measure)
  | typeName (text : String)
  | matching (operator : MatchOperator)
  /-- The name of a function and its parenthesis. -/
  | function (name : String)
  /-- The opening parenthesis or bracket of a group. -/
  | group (delimiter : Delimiter)
  | property (name : String)
  | atKeyword (name : String)
  /-- The colons of a pseudo selector and its name. -/
  | pseudo (kind : PseudoKind) (name : String)
  /-- The colons of a pseudo selector, its name and its parenthesis. -/
  | pseudoFunction (kind : PseudoKind) (name : String)
  deriving DecidableEq, Repr

namespace Sign

/-- The text of a sign; strings have no quotation marks. -/
def text : Sign → String
  | mark c => String.singleton c
  | value _ text | quantity text _ | typeName text => text
  | matching operator => operator.spelling
  | group delimiter => delimiter.opening
  | property name | atKeyword name | pseudo _ name => name
  | function name | pseudoFunction _ name => name ++ "("

/-- The texts of signs in a row. -/
def texts : List Sign → String
  | [] => ""
  | x :: xs => x.text ++ texts xs

/-- The tokens are those of a sign. -/
def Shape (ts : List Token) : Sign → Prop
  | mark c => c ≠ ';' ∧ ∃ t : Mark c, ts = [t.1]
  | value kind text =>
      ∃ t : Token, t.valueStart = .atom (.atom kind text t.location) ∧ ts = [t]
  | quantity text measure =>
      ∃ t : Token, t.valueStart = .atom (.quantity text measure t.location) ∧ ts = [t]
  | typeName text => ∃ n : TypeName, n.text = text ∧ ts = n.tokens
  | matching operator => ∃ t : Token, MatchOperator.ofToken? t = some operator ∧ ts = [t]
  | function name => ∃ f : Word .function, f.1.functionName = name ∧ ts = [f.1]
  | group delimiter => ∃ t : Token, t.valueStart = .group delimiter ∧ ts = [t]
  | property name => ∃ t : Word .ident, Text.lowerCase t.1.text = name ∧ ts = [t.1]
  | atKeyword name => ∃ t : Word .atKeyword, Text.lowerCase t.1.text = name ∧ ts = [t.1]
  | pseudo kind name =>
      ∃ (colons : Colons) (t : Word .ident), colons.kind = kind ∧
        kind.colons ++ t.1.text = name ∧ ts = colons.first :: (colons.rest ++ [t.1])
  | pseudoFunction kind name =>
      ∃ (colons : Colons) (f : Word .function), colons.kind = kind ∧
        kind.colons ++ f.1.functionName = name ∧ ts = colons.first :: (colons.rest ++ [f.1])

end Sign

/-! ## The signs of constructs and events -/

/-- The sign of a combinator. White space is none. -/
def Combinator.signs : Combinator → List Sign
  | descendant => []
  | child => [.mark '>']
  | adjacent => [.mark '+']
  | general => [.mark '~']

/-- The closing character of a group. -/
def Delimiter.closer : Delimiter → Char
  | parenthesis => ')'
  | bracket => ']'

namespace Construct

mutual

/-- The signs of a construct, with the brackets that belong to it. -/
def signs : Construct → List Sign
  | atom .typeSelector value _ => [.typeName value]
  | atom kind value _ => [.value kind value]
  | quantity value measure _ => [.quantity value measure]
  | combinator kind _ => kind.signs
  | matching operator _ => [.matching operator]
  | atRule name parameters _ _ => .atKeyword name :: signsEach parameters
  | declaration name value _ _ => .property name :: .mark ':' :: signsEach value
  | selector components _ | sequence components _ => signsEach components
  | attributeSelector components _ => .mark '[' :: (signsEach components ++ [.mark ']'])
  | group delimiter components _ =>
      .group delimiter :: (signsEach components ++ [.mark delimiter.closer])
  | pseudo kind name _ => [.pseudo kind name]
  | function name arguments _ => .function name :: (signsEach arguments ++ [.mark ')'])
  | pseudoFunction kind name arguments _ =>
      .pseudoFunction kind name :: (signsEach arguments ++ [.mark ')'])

/-- The signs of constructs in a row. -/
def signsEach : List Construct → List Sign
  | [] => []
  | c :: cs => signs c ++ signsEach cs

end

end Construct

attribute [local simp] Construct.signs Construct.signsEach

@[simp] theorem Construct.signsEach_append (cs ds : List Construct) :
    signsEach (cs ++ ds) = signsEach cs ++ signsEach ds := by
  induction cs with
  | nil => simp
  | cons c cs ih => simp [ih]

/-- The signs of selectors, with commas between them. -/
def selectorSigns : List Selector → List Sign
  | [] => []
  | [s] => s.toConstruct.signs
  | s :: rest => s.toConstruct.signs ++ .mark ',' :: selectorSigns rest

/-- The signs of events. Each at-rule that is open says in `blocks`, innermost first, whether it has
a block that must be closed. -/
def eventSigns (blocks : List Bool) : List Event → List Sign
  | [] => []
  | .start :: es | .finish :: es => eventSigns blocks es
  | .selectors list :: es => selectorSigns list ++ .mark '{' :: eventSigns blocks es
  | .endSelectors _ :: es => .mark '}' :: eventSigns blocks es
  | .declaration d :: es => d.toConstruct.signs ++ eventSigns blocks es
  | .atRule r :: es =>
      r.toConstruct.signs ++ ((if r.hasBlock then [.mark '{'] else []) ++
        eventSigns (r.hasBlock :: blocks) es)
  | .endAtRule _ :: es =>
      (if blocks.headD false then [.mark '}'] else []) ++ eventSigns blocks.tail es

attribute [local simp] eventSigns

/-! ## Tokens that spell signs -/

/-- The tokens that may stand between the signs of a style: white space, comments and their
delimiters, `!important` and semicolons. -/
def TokenClass.separator : TokenClass := fun t =>
  t.isBlank || t.kind == .commentOpen || t.kind == .commentClose || t.kind == .important ||
    t.isChar ';'

/-- The tokens are those of the signs in order, with separators between them. -/
inductive Spelled (separates : TokenClass) : List Sign → List Token → Prop
  | nil : Spelled separates [] []
  | separator {xs : List Sign} {ts : List Token} (t : Token) (h : separates t = true)
      (rest : Spelled separates xs ts) : Spelled separates xs (t :: ts)
  | sign {x : Sign} {xs : List Sign} {us ts : List Token} (h : x.Shape us)
      (rest : Spelled separates xs ts) : Spelled separates (x :: xs) (us ++ ts)

namespace Spelled

variable {separates : TokenClass}

theorem append {xs ys : List Sign} {ts us : List Token} (h : Spelled separates xs ts)
    (h' : Spelled separates ys us) : Spelled separates (xs ++ ys) (ts ++ us) := by
  induction h with
  | nil => exact h'
  | separator t ht rest ih => exact .separator t ht ih
  | sign hx rest ih =>
      rw [List.append_assoc]
      exact .sign hx ih

/-- The tokens of one sign. -/
theorem ofShape {x : Sign} {ts : List Token} (h : x.Shape ts) : Spelled separates [x] ts := by
  simpa using Spelled.sign h (Spelled.nil : Spelled separates [] [])

/-- A token that is a sign, before others. -/
theorem cons {x : Sign} {xs : List Sign} {t : Token} {ts : List Token} (h : x.Shape [t])
    (rest : Spelled separates xs ts) : Spelled separates (x :: xs) (t :: ts) :=
  .sign h rest

/-- A structural character, before others. -/
theorem mark {c : Char} (t : Mark c) {xs : List Sign} {ts : List Token}
    (rest : Spelled separates xs ts) (hc : (c == ';') = false) :
    Spelled separates (.mark c :: xs) (t.1 :: ts) :=
  .cons (x := .mark c) ⟨beq_eq_false_iff_ne.1 hc, t, rfl⟩ rest

/-- Separators alone spell nothing. -/
theorem separators {ts : List Token} (h : ∀ t ∈ ts, separates t = true) :
    Spelled separates [] ts := by
  induction ts with
  | nil => exact .nil
  | cons t ts ih =>
      exact .separator t (h t (List.mem_cons_self ..))
        (ih (fun u hu => h u (List.mem_cons_of_mem _ hu)))

end Spelled

/-- No single token is a type selector where a value starts. -/
theorem Token.valueStart_ne_typeSelector (t : Token) (text : String) (l : Location) :
    t.valueStart ≠ .atom (.atom .typeSelector text l) := by
  unfold valueStart
  split <;> try simp
  split <;> simp

/-- What is written for what opens a function or group, and for what closes it. -/
def Opening.sign : Opening → Sign
  | function name => .function name
  | group delimiter => .group delimiter

theorem Opening.closer_group (d : Delimiter) : (group d).closer = d.closer := by
  cases d <;> rfl

theorem Opening.closer_ne_semicolon (o : Opening) : o.closer ≠ ';' := by
  cases o with
  | function name => simp [closer]
  | group delimiter => cases delimiter <;> simp [closer]

theorem Frame.signs_close (o : Opening) (l : Location) (members : List Construct) :
    (Frame.close ⟨o, l, members⟩).signs =
      o.sign :: (Construct.signsEach members.reverse ++ [.mark o.closer]) := by
  cases o with
  | function name => simp [close, Opening.sign, Opening.closer]
  | group delimiter =>
      simp [close, Opening.sign, Opening.closer_group]

namespace Concrete

section Trees

/-! ## Values -/

variable {separates : TokenClass} (hblank : ∀ t : Token, t.isBlank = true → separates t = true)

include hblank in
theorem Gap.spelled (g : Gap) : Spelled separates [] g.1 :=
  .separators (fun t ht => hblank t (g.2 t ht))

/-- A single token that is a value is the sign of its construct. -/
theorem shape_of_atom {t : Token} {c : Construct} (h : t.valueStart = .atom c) :
    Spelled separates c.signs [t] := by
  obtain ⟨kind, rfl⟩ | ⟨m, rfl⟩ := Token.eq_of_valueStart_atom h
  · cases kind with
    | typeSelector => exact absurd h (Token.valueStart_ne_typeSelector t _ _)
    | _ => exact .ofShape ⟨t, h, rfl⟩
  · exact .ofShape ⟨t, h, rfl⟩

/-- A token that opens a function or group is the sign of it. -/
theorem shape_of_opening {t : Token} {o : Opening} (h : t.valueStart = o.toStart) :
    o.sign.Shape [t] := by
  cases o with
  | function name =>
      obtain ⟨hkind, hname⟩ := Token.function_of_valueStart h
      exact ⟨⟨t, hkind⟩, hname, rfl⟩
  | group delimiter => exact ⟨t, h, rfl⟩

include hblank in
/-- **The tokens of values spell their signs.** -/
theorem Values.spelled {filler stop : TokenClass} (v : Values filler stop)
    (hfiller : ∀ t, filler t = true → separates t = true) :
    Spelled separates (Construct.signsEach v.latest.reverse) v.tokens := by
  induction v with
  | nil => exact .nil
  | filler before t fits ih =>
      simpa [Values.latest, Values.tokens] using
        (ih hfiller).append (.separator t (hfiller t fits) .nil)
  | atom before t c fits goes ih =>
      simpa [Values.latest, Values.tokens] using
        (ih hfiller).append (shape_of_atom fits)
  | nested before t o fits members closer ihb ihm =>
      have hcloser := beq_eq_false_iff_ne.2 (Opening.closer_ne_semicolon o)
      have hinside := (ihm hblank).append (.mark closer .nil hcloser)
      simpa [Values.latest, Values.tokens, Frame.signs_close] using
        (ihb hfiller).append (.cons (shape_of_opening fits) hinside)

include hblank in
theorem Heading.spelled (h : Heading) (hasBlock : Bool) :
    Spelled separates (h.rule hasBlock).toConstruct.signs h.tokens :=
  .cons ⟨h.name, rfl, rfl⟩ (h.parameters.spelled hblank hblank)

include hblank in
/-- **The tokens of a declaration spell its signs**, where `!important` separates. -/
theorem Property.spelled (himportant : ∀ t : Token, t.kind = .important → separates t = true)
    (p : Property) : Spelled separates p.declaration.toConstruct.signs p.tokens := by
  have hfiller : ∀ t, TokenClass.blankOrImportant t = true → separates t = true := by
    intro t ht
    simp only [TokenClass.blankOrImportant, Bool.or_eq_true, beq_iff_eq] at ht
    rcases ht with ht | ht
    · exact hblank t ht
    · exact himportant t ht
  have hvalue := p.body.spelled hblank hfiller
  exact .cons ⟨p.name, rfl, rfl⟩ ((p.gap.spelled hblank).append (.mark p.colon hvalue rfl))

/-! ## Selectors -/

theorem TypeName.spelled (n : TypeName) : Spelled separates n.construct.signs n.tokens :=
  .ofShape ⟨n, rfl, rfl⟩

include hblank in
theorem AttributeTest.spelled (a : AttributeTest) :
    Spelled separates (Construct.signsEach a.parts) a.tokens := by
  have hvalue := (shape_of_atom a.isValue).append (a.after.spelled hblank)
  have hoperator : Sign.Shape [a.operator] (.matching a.matching) :=
    ⟨a.operator, a.isOperator, rfl⟩
  simpa [AttributeTest.parts, AttributeTest.tokens] using
    Spelled.cons hoperator ((a.gap.spelled hblank).append hvalue)

include hblank in
theorem Arguments.spelled (a : Arguments) :
    Spelled separates (Construct.signsEach a.latest.reverse) a.tokens := by
  induction a with
  | nil => exact .nil
  | blank before t fits ih =>
      simpa [Arguments.latest, Arguments.tokens] using
        ih.append (.separator t (hblank t fits) .nil)
  | atom before t c fits permitted goes ih =>
      simpa [Arguments.latest, Arguments.tokens] using
        ih.append (shape_of_atom fits)

include hblank in
/-- **The tokens of a simple selector spell its signs.** -/
theorem Plain.spelled (p : Plain) : Spelled separates p.construct.signs p.tokens := by
  cases p with
  | type n => exact n.spelled
  | hashName t => exact .ofShape ⟨t.1, by simp [Token.valueStart, t.2], rfl⟩
  | className t => exact .ofShape ⟨t.1, by simp [Token.valueStart, t.2], rfl⟩
  | percentage t => exact .ofShape ⟨t.1, by simp [Token.valueStart, t.2], rfl⟩
  | attributed bracket before name after test closer =>
      have htest : Spelled separates (Construct.signsEach ((test.map AttributeTest.parts).getD []))
          ((test.map AttributeTest.tokens).getD []) := by
        cases test with
        | none => exact .nil
        | some test => exact test.spelled hblank
      have hinside := name.spelled.append ((after.spelled hblank).append
        (htest.append (.mark closer .nil rfl)))
      have hall := Spelled.mark bracket ((before.spelled hblank).append hinside) rfl
      simpa [Plain.construct, Plain.tokens, Plain.first, Plain.rest] using hall
  | pseudo colons name => exact .ofShape ⟨colons, name, rfl, rfl, rfl⟩
  | functional colons f notNegation arguments closer =>
      have hhead : Sign.Shape (colons.first :: (colons.rest ++ [f.1]))
          (.pseudoFunction colons.kind (colons.kind.colons ++ f.1.functionName)) :=
        ⟨colons, f, rfl, rfl, rfl⟩
      simpa [Plain.construct, Plain.tokens, Plain.first, Plain.rest] using
        Spelled.sign hhead ((arguments.spelled hblank).append (.mark closer .nil rfl))

include hblank in
theorem Simple.spelled (x : Simple) : Spelled separates x.construct.signs x.tokens := by
  cases x with
  | plain p => exact p.spelled hblank
  | negation colons f isNegation before argument permitted after closer =>
      have hhead : Sign.Shape (colons.first :: (colons.rest ++ [f.1]))
          (.pseudoFunction colons.kind (colons.kind.colons ++ "not")) :=
        ⟨colons, f, rfl, by rw [isNegation], rfl⟩
      have hinside := (argument.spelled hblank).append ((after.spelled hblank).append
        (.mark closer .nil rfl))
      simpa [Simple.construct, Simple.tokens, Simple.first, Simple.rest] using
        Spelled.sign hhead ((before.spelled hblank).append hinside)

include hblank in
theorem Members.spelled (m : Members) :
    Spelled separates (Construct.signsEach m.latest.reverse) m.tokens := by
  induction m with
  | one x =>
      simpa [Members.latest, Members.tokens, Members.first, Members.rest, Simple.tokens] using
        x.spelled hblank
  | more before x notType ih =>
      simpa [Members.latest, Members.tokens, Members.first, Members.rest] using
        ih.append (x.spelled hblank)

include hblank in
theorem Link.spelled (l : Link) (next : Location) :
    Spelled separates (l.construct next).signs l.tokens := by
  cases l with
  | descendant space after =>
      exact .separator space.1 (hblank space.1 (Token.isBlank_iff.2 (.inl space.2)))
        (after.spelled hblank)
  | written before c k isCombinator t after =>
      obtain ⟨hmark, hc⟩ : k.signs = [.mark c] ∧ (c == ';') = false := by
        unfold Combinator.ofChar? at isCombinator
        split at isCombinator <;> cases isCombinator <;> exact ⟨rfl, rfl⟩
      simpa [Link.construct, Link.tokens, hmark] using
        (before.spelled hblank).append (.mark t (after.spelled hblank) hc)

include hblank in
theorem Lead.spelled (l : Lead) (next : Location) :
    Spelled separates (Construct.signsEach (l.components next).reverse) l.tokens := by
  induction l generalizing next with
  | start => exact .nil
  | link before m l ih =>
      simpa [Lead.components, Lead.tokens, Members.sequence] using
        (ih m.first.location).append ((m.spelled hblank).append (l.spelled hblank next))

include hblank in
/-- **The tokens of a selector spell its signs.** -/
theorem LinkedSelector.spelled (c : LinkedSelector) :
    Spelled separates c.selector.toConstruct.signs c.tokens := by
  simpa [LinkedSelector.selector, LinkedSelector.components, LinkedSelector.tokens,
    Selector.toConstruct, Members.sequence] using
    (c.lead.spelled hblank c.last.first.location).append (c.last.spelled hblank)

/-- One more selector in front. -/
theorem selectorSigns_cons (s : Selector) {list : List Selector} (h : list ≠ []) :
    selectorSigns (s :: list) = s.toConstruct.signs ++ .mark ',' :: selectorSigns list := by
  cases list with
  | nil => exact absurd rfl h
  | cons s' list => rfl

include hblank in
/-- The tokens of the earlier selectors, before those of the rest of the list. -/
theorem Earlier.spelled (e : Earlier) {list : List Selector} (hlist : list ≠ [])
    {ts : List Token} (h : Spelled separates (selectorSigns list) ts) :
    Spelled separates (selectorSigns (e.latest.reverse ++ list)) (e.tokens ++ ts) := by
  induction e generalizing list ts with
  | start => exact h
  | comma before s gap t after ih =>
      have hrest := (s.1.spelled hblank).append ((gap.spelled hblank).append
        (.mark t ((after.spelled hblank).append h) rfl))
      rw [List.nil_append, List.nil_append, ← selectorSigns_cons s.1.selector hlist] at hrest
      simpa [Earlier.latest, Earlier.tokens] using ih (List.cons_ne_nil _ _) hrest

include hblank in
/-- **The tokens of a list of selectors spell its signs.** -/
theorem SelectorList.spelled (l : SelectorList) :
    Spelled separates (selectorSigns l.selectors) l.tokens := by
  have hlast : Spelled separates (selectorSigns [l.last.1.selector])
      (l.last.1.tokens ++ l.gap.1) := by
    simpa [selectorSigns] using (l.last.1.spelled hblank).append (l.gap.spelled hblank)
  simpa [SelectorList.selectors, SelectorList.tokens] using
    l.earlier.spelled hblank (List.cons_ne_nil _ _) hlast

end Trees

/-! ## Statements -/

theorem separator_of_isBlank {t : Token} (h : t.isBlank = true) :
    TokenClass.separator t = true := by
  simp [TokenClass.separator, h]

theorem separator_of_important {t : Token} (h : t.kind = .important) :
    TokenClass.separator t = true := by
  simp [TokenClass.separator, h]

theorem separator_of_semicolon (t : Mark ';') : TokenClass.separator t.1 = true := by
  simp [TokenClass.separator, t.2]

theorem separator_of_separates {top : Bool} {t : Token} (h : separates top t = true) :
    TokenClass.separator t = true := by
  cases top with
  | false => exact separator_of_isBlank h
  | true =>
      simp only [separates, TokenClass.topLevel, TokenClass.separator, if_true] at h ⊢
      cases hblank : t.isBlank <;> cases hopen : t.kind == .commentOpen <;>
        simp_all

theorem Declarations.spelled (d : Declarations) (blocks : List Bool) (es : List Event)
    {ts : List Token} (h : Spelled .separator (eventSigns blocks es) ts) :
    Spelled .separator (eventSigns blocks (d.events ++ es)) (d.tokens ++ ts) := by
  have hproperty (p : Property) :=
    p.spelled (fun _ => separator_of_isBlank) (fun _ => separator_of_important)
  induction d with
  | nil => exact h
  | blank t fits rest ih => exact .separator t (separator_of_isBlank fits) ih
  | last p => exact (hproperty p).append h
  | cons p semicolon rest ih =>
      simpa [Declarations.events, Declarations.declarations, Declarations.tokens] using
        (hproperty p).append (.separator semicolon.1 (separator_of_semicolon semicolon) ih)

/-- **The tokens of statements spell their signs**, before those of what follows. -/
theorem Statements.spelled {top : Bool} {leads : Option Bool} (s : Statements top leads)
    (blocks : List Bool) (es : List Event) {ts : List Token}
    (h : Spelled .separator (eventSigns blocks es) ts) :
    Spelled .separator (eventSigns blocks (s.events ++ es)) (s.tokens ++ ts) := by
  induction s generalizing blocks es ts with
  | nil => exact h
  | separator t fits rest ih => exact .separator t (separator_of_separates fits) (ih blocks es h)
  | rule list opener block closer rest ih =>
      have hblock := block.spelled blocks (.endSelectors list.selectors :: (rest.events ++ es))
        (.mark closer (ih blocks es h) rfl)
      simpa [Statements.events, Statements.tokens] using
        (list.spelled (fun _ => separator_of_isBlank)).append (.mark opener hblock rfl)
  | plain heading semicolon rest ih =>
      simpa [Statements.events, Statements.tokens, Heading.rule] using
        (heading.spelled (fun _ => separator_of_isBlank) false).append
          (.separator semicolon.1 (separator_of_semicolon semicolon) (ih blocks es h))
  | declared heading opener block closer rest ih =>
      have hblock := block.spelled (true :: blocks)
        (.endAtRule heading.lowerName :: (rest.events ++ es))
        (.mark closer (ih blocks es h) rfl)
      simpa [Statements.events, Statements.tokens, Heading.rule] using
        (heading.spelled (fun _ => separator_of_isBlank) true).append (.mark opener hblock rfl)
  | nested heading opener block closer rest ihb ih =>
      have hblock := ihb (true :: blocks)
        (.endAtRule heading.lowerName :: (rest.events ++ es))
        (.mark closer (ih blocks es h) rfl)
      simpa [Statements.events, Statements.tokens, Heading.rule] using
        (heading.spelled (fun _ => separator_of_isBlank) true).append (.mark opener hblock rfl)

/-- **The tokens of a style sheet spell the signs of its events.** -/
theorem StyleSheet.spelled (s : StyleSheet) :
    Spelled .separator (eventSigns [] s.events) s.tokens := by
  simpa [StyleSheet.events, StyleSheet.tokens] using
    s.statements.spelled [] [.finish] .nil

/-- **The tokens of a style attribute spell the signs of its events.** -/
theorem InlineStyle.spelled (s : InlineStyle) :
    Spelled .separator (eventSigns [] s.events) s.tokens := by
  have hdeclarations := s.declarations.spelled [] [.finish] .nil
  have hgap : Spelled .separator [] s.gap.1 := s.gap.spelled (fun _ => separator_of_isBlank)
  cases hsemicolon : s.semicolon with
  | none =>
      simpa [InlineStyle.events, InlineStyle.tokens, hsemicolon] using
        hgap.append hdeclarations
  | some t =>
      simpa [InlineStyle.events, InlineStyle.tokens, hsemicolon] using
        hgap.append (.separator t.1 (separator_of_semicolon t) hdeclarations)

end Concrete

end EpubStyle
