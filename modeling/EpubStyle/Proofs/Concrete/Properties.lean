import EpubStyle.Proofs.Concrete.Sheets

/-!
# Reading one declaration

`Reading.feed` gives the tokens behind the name of a declaration to its reader, blank or not. Behind
the colon the reader is that of a list of values together with the importance seen so far
(`Reading.ofReader`), so both directions come from there:

* `Property.feed_rest`: the tokens of a declaration are read as this declaration;
* `exists_property_of_feed`: tokens that are read as a declaration are the tokens of one.

Nothing depends on the token before, which only matters for problems.
-/

set_option autoImplicit false

namespace EpubStyle

open Concrete

/-- Semicolons and braces start no value. -/
theorem TokenClass.valueStart_of_semicolonOrCloseBrace (t : Token)
    (h : TokenClass.semicolonOrCloseBrace t = true) : t.valueStart = .nothing := by
  simp only [TokenClass.semicolonOrCloseBrace, Token.isOneOf, List.any_cons, List.any_nil,
    Bool.or_false, Bool.or_eq_true] at h
  rcases h with h | h <;> exact Token.valueStart_of_isChar h (by simp)

theorem TokenClass.valueStart_of_blankOrImportant (t : Token)
    (h : TokenClass.blankOrImportant t = true) : t.valueStart = .nothing := by
  simp only [TokenClass.blankOrImportant, Bool.or_eq_true, beq_iff_eq] at h
  rcases h with h | h
  · exact Token.valueStart_of_isBlank h
  · simp [Token.valueStart, h]

namespace Reading

/-- Give one token, behind the token `last`. -/
def advance (setting : Setting) (last : Token) (r : Reading) (t : Token) : ReadingStep :=
  if t.isBlank then .pending r else r.step setting last t

/-- Give tokens one after the other, none of which ends the declaration. -/
def feed (setting : Setting) (r : Reading) : List Token → Option Reading
  | [] => some r
  | t :: ts =>
      match r.advance setting t t with
      | .pending r => r.feed setting ts
      | .complete _ | .rejected _ _ => none

theorem feed_append (setting : Setting) (r : Reading) (ts us : List Token) :
    r.feed setting (ts ++ us) = (r.feed setting ts).bind (fun r' => r'.feed setting us) := by
  induction ts generalizing r with
  | nil => rfl
  | cons t ts ih =>
      simp only [List.cons_append, feed]
      cases r.advance setting t t with
      | pending r' => exact ih r'
      | complete d => rfl
      | rejected p depth => rfl

/-- The token before matters only where the declaration is rejected. -/
theorem step_last (setting : Setting) (r : Reading) (t last last' : Token) :
    r.step setting last t = r.step setting last' t ∨
      ∃ p p' depth, r.step setting last t = .rejected p depth ∧
        r.step setting last' t = .rejected p' depth := by
  cases r with
  | named name => exact .inl rfl
  | nested d n => exact .inl rfl
  | valued d =>
      simp only [Reading.step, stepValued]
      split
      · exact .inl rfl
      · split
        · split
          · exact .inr ⟨_, _, _, rfl, rfl⟩
          · exact .inl rfl
        · exact .inl rfl

theorem step_eq_pending {setting : Setting} {r r' : Reading} {t last : Token} (last' : Token)
    (h : r.step setting last t = .pending r') : r.step setting last' t = .pending r' := by
  rcases r.step_last setting t last last' with heq | ⟨p, p', depth, hp, -⟩
  · rw [← heq, h]
  · simp [h] at hp

theorem step_eq_complete {setting : Setting} {r : Reading} {d : Declaration} {t last : Token}
    (last' : Token) (h : r.step setting last t = .complete d) :
    r.step setting last' t = .complete d := by
  rcases r.step_last setting t last last' with heq | ⟨p, p', depth, hp, -⟩
  · rw [← heq, h]
  · simp [h] at hp

theorem step_eq_rejected {setting : Setting} {r : Reading} {p : Problem} {depth : Nat}
    {t last : Token} (last' : Token) (h : r.step setting last t = .rejected p depth) :
    ∃ p', r.step setting last' t = .rejected p' depth := by
  rcases r.step_last setting t last last' with heq | ⟨p₁, p', depth', hp, hp'⟩
  · exact ⟨p, by rw [← heq, h]⟩
  · rw [h] at hp
    cases hp
    exact ⟨p', hp'⟩

/-! ## Values behind the colon -/

/-- A reader of values as the reader of a declaration. -/
def ofReader (d : Draft) (r : Reader) : Reading :=
  match r.nesting with
  | none => .valued { d with value := r.values }
  | some n => .nested { d with value := r.values } n

/-- The draft after a token that is a value, part of one, or a separator. -/
def marked (d : Draft) (ts : List Token) (depth : Nat) : Draft :=
  { d with important := d.important || ts.any (fun t => t.kind == .important), depth := depth }

/-- The reader of a declaration goes on as the reader of its values does, and only where that
does. -/
structure Mirrors (d : Draft) (t : Token) (s : ReadingStep) (r : Option Reader) : Prop where
  pending : ∀ r', r = some r' → ∃ depth, s = .pending (ofReader (marked d [t] depth) r')
  reader : ∀ s', s = .pending s' → ∃ r' depth, r = some r' ∧ s' = ofReader (marked d [t] depth) r'

theorem Mirrors.of_eq {d : Draft} {t : Token} {s' : Reading} {r' : Reader} (depth : Nat)
    (h : s' = ofReader (marked d [t] depth) r') : Mirrors d t (.pending s') (some r') := by
  subst h
  constructor
  · intro r hr
    cases hr
    exact ⟨depth, rfl⟩
  · intro s hs
    cases hs
    exact ⟨r', depth, rfl, rfl⟩

theorem Mirrors.of_not_pending {d : Draft} {t : Token} {s : ReadingStep}
    (h : ∀ s', s ≠ .pending s') : Mirrors d t s none := by
  constructor
  · intro r' hr
    cases hr
  · intro s' hs
    exact absurd hs (h s')

/-- What a value makes of a token is the same for both readers. -/
theorem take_ofReader (d : Draft) (r : Reader) {t : Token} {b : Building}
    (hb : b ≠ .rejected → t.kind ≠ .important) :
    Mirrors d t (Reading.take { d with value := r.values } t b) (r.take b) := by
  cases b with
  | rejected =>
      apply Mirrors.of_not_pending
      intro s' h
      simp [Reading.take] at h
  | complete c =>
      have hkind : (t.kind == .important) = false := by simpa using hb (by simp)
      apply Mirrors.of_eq (nestingStep d.depth t)
      simp [ofReader, marked, Draft.push, Draft.count, hkind]
  | pending n =>
      have hkind : (t.kind == .important) = false := by simpa using hb (by simp)
      apply Mirrors.of_eq (nestingStep d.depth t)
      simp [ofReader, marked, Draft.count, hkind]

/-- No value starts with an `!important` or goes on with one. -/
theorem not_important_of_start {t : Token} (h : Nesting.start .propertyValue t ≠ .rejected) :
    t.kind ≠ .important := by
  intro hk
  simp [Nesting.start, Token.valueStart, hk] at h

theorem not_important_of_step {n : Nesting} {limit : TokenClass} {t : Token}
    (h : n.step .propertyValue limit t ≠ .rejected) : t.kind ≠ .important := by
  intro hk
  have hcloses : n.inner.closedBy t = false := by
    rw [Frame.closedBy_eq]
    exact Token.isChar_of_kind (by simp [hk]) _
  simp [Nesting.step, hcloses, Token.valueStart, hk] at h

/-- White space is passed over by both readers. -/
theorem advance_ofReader_blank (setting : Setting) (last : Token) (d : Draft) (r : Reader)
    {t : Token} (hblank : t.isBlank = true) :
    Mirrors d t ((ofReader d r).advance setting last t)
      (r.step TokenClass.blankOrImportant .propertyValue TokenClass.semicolonOrCloseBrace t) := by
  have hkind : (t.kind == .important) = false := by
    rcases Token.isBlank_iff.1 hblank with hk | hk <;> simp [hk]
  have hstep : r.step TokenClass.blankOrImportant .propertyValue
      TokenClass.semicolonOrCloseBrace t = some r := by
    obtain ⟨values, nesting⟩ := r
    cases nesting <;> simp [Reader.step, TokenClass.blankOrImportant, hblank]
  simp only [advance, hblank, if_true, hstep]
  apply Mirrors.of_eq d.depth
  simp [marked, hkind]

/-- Between two values an `!important` is noted, and is no value. -/
theorem step_ofReader_important (setting : Setting) (last : Token) (d : Draft)
    (values : List Construct) {t : Token} (himportant : t.kind = .important) :
    Mirrors d t ((ofReader d ⟨values, none⟩).step setting last t)
      (Reader.step TokenClass.blankOrImportant .propertyValue TokenClass.semicolonOrCloseBrace
        ⟨values, none⟩ t) := by
  have hchar : ∀ c, t.isChar c = false := Token.isChar_of_kind (by simp [himportant])
  have hreading : (ofReader d ⟨values, none⟩).step setting last t =
      .pending (.valued { d with value := values, important := true }) := by
    simp [ofReader, Reading.step, stepValued, Token.isOneOf, hchar, Setting.ends, himportant]
  have hreader : Reader.step TokenClass.blankOrImportant .propertyValue
      TokenClass.semicolonOrCloseBrace ⟨values, none⟩ t = some ⟨values, none⟩ := by
    simp [Reader.step, TokenClass.blankOrImportant, himportant]
  rw [hreading, hreader]
  apply Mirrors.of_eq d.depth
  simp [ofReader, marked, himportant]

/-- What ends a declaration starts no value. -/
theorem start_eq_rejected_of_ends {setting : Setting} {t : Token} (h : setting.ends t = true) :
    Nesting.start .propertyValue t = .rejected := by
  have hnothing : t.valueStart = .nothing := by
    simp only [Setting.ends, Bool.or_eq_true, Bool.and_eq_true] at h
    rcases h with hc | ⟨-, hc⟩ <;> exact Token.valueStart_of_isChar hc (by simp)
  simp [Nesting.start, hnothing]

/-- Between two values any other token must start the next one. -/
theorem step_ofReader_value (setting : Setting) (last : Token) (d : Draft)
    (values : List Construct) {t : Token} (hblank : t.isBlank = false)
    (himportant : t.kind ≠ .important) :
    Mirrors d t ((ofReader d ⟨values, none⟩).step setting last t)
      (Reader.step TokenClass.blankOrImportant .propertyValue TokenClass.semicolonOrCloseBrace
        ⟨values, none⟩ t) := by
  have hfiller : TokenClass.blankOrImportant t = false := by
    simp [TokenClass.blankOrImportant, hblank, himportant]
  have hkind : (t.kind == .important) = false := by simpa using himportant
  simp only [ofReader, Reading.step, stepValued, Reader.step, hfiller, Bool.false_eq_true,
    if_false, hkind]
  -- The reader of a declaration looks for its end first, which the reader of values rejects.
  split
  · next hc =>
      simp only [Bool.and_eq_true] at hc
      rw [show Nesting.start .propertyValue t = .rejected by
        simp [Nesting.start, TokenClass.valueStart_of_semicolonOrCloseBrace t hc.2]]
      apply Mirrors.of_not_pending
      intro s' hs
      cases hs
  · split
    · next hends =>
        rw [start_eq_rejected_of_ends hends]
        apply Mirrors.of_not_pending
        intro s' hs
        split at hs <;> cases hs
    · exact take_ofReader d ⟨values, none⟩ not_important_of_start

/-- One token behind the colon, in both readers. -/
theorem advance_ofReader (setting : Setting) (last : Token) (d : Draft) (r : Reader) (t : Token) :
    Mirrors d t ((ofReader d r).advance setting last t)
      (r.step TokenClass.blankOrImportant .propertyValue TokenClass.semicolonOrCloseBrace t) := by
  cases hblank : t.isBlank with
  | true => exact advance_ofReader_blank setting last d r hblank
  | false =>
      simp only [advance, hblank, Bool.false_eq_true, if_false]
      obtain ⟨values, nesting⟩ := r
      cases nesting with
      | some n =>
          simp only [ofReader, Reading.step, Reader.step, hblank, Bool.false_eq_true, if_false]
          exact take_ofReader d ⟨values, some n⟩ not_important_of_step
      | none =>
          by_cases himportant : t.kind = .important
          · exact step_ofReader_important setting last d values himportant
          · exact step_ofReader_value setting last d values hblank himportant

@[simp] theorem marked_nil (d : Draft) : marked d [] d.depth = d := by simp [marked]

theorem marked_marked (d : Draft) (ts us : List Token) (n depth : Nat) :
    marked (marked d ts n) us depth = marked d (ts ++ us) depth := by
  simp [marked, Bool.or_assoc]

/-- Values are read behind the colon as they are anywhere. -/
theorem feed_ofReader (setting : Setting) (d : Draft) {r r' : Reader} {ts : List Token}
    (h : r.feed TokenClass.blankOrImportant .propertyValue TokenClass.semicolonOrCloseBrace ts =
      some r') :
    ∃ depth, (ofReader d r).feed setting ts = some (ofReader (marked d ts depth) r') := by
  induction ts generalizing d r with
  | nil =>
      cases h
      exact ⟨d.depth, by simp [feed]⟩
  | cons t ts ih =>
      rw [Reader.feed_cons] at h
      obtain ⟨r₁, hstep, hrest⟩ := Option.bind_eq_some_iff.1 h
      obtain ⟨n, hadvance⟩ := (advance_ofReader setting t d r t).pending r₁ hstep
      obtain ⟨depth, hfeed⟩ := ih (marked d [t] n) hrest
      refine ⟨depth, ?_⟩
      simp only [feed, hadvance]
      rw [hfeed, marked_marked]
      rfl

/-- What is read behind the colon is read as values. -/
theorem exists_reader_of_feed (setting : Setting) (d : Draft) {r : Reader} {s : Reading}
    {ts : List Token} (h : (ofReader d r).feed setting ts = some s) :
    ∃ r' depth, r.feed TokenClass.blankOrImportant .propertyValue TokenClass.semicolonOrCloseBrace
      ts = some r' ∧ s = ofReader (marked d ts depth) r' := by
  induction ts generalizing d r with
  | nil =>
      cases h
      exact ⟨r, d.depth, rfl, by simp⟩
  | cons t ts ih =>
      simp only [feed] at h
      cases hadvance : (ofReader d r).advance setting t t with
      | pending s₁ =>
          rw [hadvance] at h
          obtain ⟨r₁, n, hstep, rfl⟩ := (advance_ofReader setting t d r t).reader s₁ hadvance
          obtain ⟨r', depth, hrest, heq⟩ := ih (marked d [t] n) h
          refine ⟨r', depth, ?_, by rw [heq, marked_marked]; rfl⟩
          rw [Reader.feed_cons, hstep, Option.bind_some, hrest]
      | complete e =>
          rw [hadvance] at h
          cases h
      | rejected p depth =>
          rw [hadvance] at h
          cases h

/-! ## The end of a declaration -/

/-- A declaration with a value is complete where the setting ends it. -/
theorem advance_of_ends {setting : Setting} {d : Draft} (hvalue : d.value ≠ []) {t : Token}
    (ht : setting.ends t = true) (last : Token) :
    (valued d).advance setting last t = .complete d.toDeclaration := by
  have hblank : t.isBlank = false := by
    simp only [Setting.ends, Bool.or_eq_true, Bool.and_eq_true] at ht
    rcases ht with h | ⟨-, h⟩ <;> exact Token.not_isBlank_of_isChar h
  have hempty : d.value.isEmpty = false := by simpa using hvalue
  simp [advance, hblank, Reading.step, stepValued, Draft.started, hempty, ht]

/-- Only behind a value a declaration is complete. -/
theorem of_step_eq_complete {setting : Setting} {r : Reading} {last t : Token}
    {e : Declaration} (h : r.step setting last t = .complete e) :
    setting.ends t = true ∧ ∃ d, r = .valued d ∧ d.value ≠ [] ∧ e = d.toDeclaration := by
  have htake : ∀ d b, Reading.take d t b ≠ .complete e := by
    intro d b
    cases b <;> simp [Reading.take]
  cases r with
  | named name =>
      simp only [Reading.step] at h
      split at h <;> cases h
  | nested d n => exact absurd h (htake _ _)
  | valued d =>
      simp only [Reading.step, stepValued] at h
      split at h
      · cases h
      · split at h
        · next hends =>
            split at h
            · cases h
            · next hvalue =>
                cases h
                exact ⟨hends, d, rfl, by simpa using hvalue, rfl⟩
        · split at h
          · cases h
          · exact absurd h (htake _ _)

theorem of_advance_eq_complete {setting : Setting} {r : Reading} {last t : Token}
    {e : Declaration} (h : r.advance setting last t = .complete e) :
    setting.ends t = true ∧ ∃ d, r = .valued d ∧ d.value ≠ [] ∧ e = d.toDeclaration := by
  simp only [advance] at h
  split at h
  · cases h
  · exact of_step_eq_complete h

/-! ## Whole declarations -/

/-- White space and comments before the colon. -/
theorem feed_gap (setting : Setting) (r : Reading) (g : Gap) : r.feed setting g.1 = some r := by
  rcases g with ⟨ts, hts⟩
  induction ts with
  | nil => rfl
  | cons t ts ih =>
      simp only [feed, advance, hts t (List.mem_cons_self ..), if_true]
      exact ih (fun u hu => hts u (List.mem_cons_of_mem _ hu))

theorem advance_colon (setting : Setting) (name last : Token) {t : Token}
    (h : t.isChar ':' = true) :
    (named name).advance setting last t = .pending (ofReader (.ofName name) ⟨[], none⟩) := by
  simp [advance, Token.not_isBlank_of_isChar h, Reading.step, h, ofReader, Draft.ofName]

end Reading

namespace Concrete

open Reading

/-- **The tokens of a declaration are read as this declaration.** -/
theorem Property.feed_rest (p : Property) (setting : Setting) :
    ∃ d : Draft, (Reading.named p.name.1).feed setting p.rest = some (.valued d) ∧
      d.value ≠ [] ∧ d.toDeclaration = p.declaration := by
  have hbody := Reader.feed_tokens .propertyValue TokenClass.semicolonOrCloseBrace
    (by simp [Context.Broad])
    TokenClass.valueStart_of_semicolonOrCloseBrace TokenClass.valueStart_of_blankOrImportant
    p.body []
  obtain ⟨depth, hfeed⟩ := feed_ofReader setting (.ofName p.name.1) hbody
  refine ⟨{ marked (.ofName p.name.1) p.body.tokens depth with value := p.body.latest },
    ?_, p.valued, ?_⟩
  · rw [Property.rest, Reading.feed_append, Reading.feed_gap, Option.bind_some]
    simp only [Reading.feed, advance_colon setting p.name.1 p.colon.1 p.colon.2, hfeed]
    simp [ofReader]
  · simp [Draft.toDeclaration, Property.declaration, marked, Draft.ofName]

/-- Behind its name a declaration is read only across a colon, with white space before it. -/
theorem exists_colon_of_feed {setting : Setting} {name : Token} {ts : List Token} {d : Draft}
    (h : (Reading.named name).feed setting ts = some (.valued d)) :
    ∃ (g : Gap) (colon : Mark ':') (us : List Token), ts = g.1 ++ colon.1 :: us ∧
      (ofReader (.ofName name) ⟨[], none⟩).feed setting us = some (.valued d) := by
  induction ts with
  | nil => simp [Reading.feed] at h
  | cons t ts ih =>
      by_cases hblank : t.isBlank = true
      · simp only [Reading.feed, advance, hblank, if_true] at h
        obtain ⟨g, colon, us, rfl, hus⟩ := ih h
        exact ⟨.cons t hblank g, colon, us, rfl, hus⟩
      · by_cases hcolon : t.isChar ':' = true
        · simp only [Reading.feed, advance_colon setting name t hcolon] at h
          exact ⟨.empty, ⟨t, hcolon⟩, ts, rfl, h⟩
        · simp [Reading.feed, advance, hblank, Reading.step, hcolon] at h

/-- **Tokens that are read as a declaration are the tokens of one.** -/
theorem exists_property_of_feed {setting : Setting} (name : Word .ident) {ts : List Token}
    {d : Draft} (h : (Reading.named name.1).feed setting ts = some (.valued d))
    (hvalue : d.value ≠ []) :
    ∃ p : Property, p.tokens = name.1 :: ts ∧ p.declaration = d.toDeclaration := by
  obtain ⟨g, colon, us, rfl, hus⟩ := exists_colon_of_feed h
  obtain ⟨r, depth, hfeed, heq⟩ := exists_reader_of_feed setting _ hus
  rcases r with ⟨values, nesting⟩
  cases nesting with
  | some n => simp [ofReader] at heq
  | none =>
      simp only [ofReader, Reading.valued.injEq] at heq
      subst heq
      obtain ⟨v, rfl, rfl⟩ := Reader.exists_values_of_feed hfeed
      refine ⟨⟨name, g, colon, v, hvalue⟩, rfl, ?_⟩
      simp [Draft.toDeclaration, Property.declaration, marked, Draft.ofName]

end Concrete

end EpubStyle
