import EpubStyle.Proofs.Calls.Declarations

/-!
# Where an important declaration says so

A declaration is documented as a name, a colon, values, and an optional `!important` behind them
(`Concrete.OrderlyProperty`). The reader notes an `!important` wherever a value may start, and goes
on: it may stand before or between the values, and more than once. So what is delivered is a
`Concrete.Property`, and it has the documented form exactly if nothing but white space and comments
stands behind each `!important` (`Concrete.Property.exists_orderly_iff`).

`Grammar.declares_iff` says of both grammars what a call for a declaration delivers, and when its
tokens have the documented form. `Grammar.not_forall_orderly` is a style sheet where they have not.
-/

set_option autoImplicit false

namespace EpubStyle

namespace Concrete

/-- A declaration with its `!important`, if it has one, behind its values. -/
structure OrderlyProperty where
  name : Word .ident
  gap : Gap
  colon : Mark ':'
  /-- The values, with white space and comments between them. -/
  values : Values Token.isBlank TokenClass.never
  valued : values.latest ≠ []
  /-- The `!important`, with the white space and comments behind it. -/
  importance : Option (Word .important × Gap)

namespace OrderlyProperty

/-- The tokens behind the values. -/
def importanceTokens : Option (Word .important × Gap) → List Token
  | none => []
  | some importance => importance.1.1 :: importance.2.1

@[simp] theorem importanceTokens_none : importanceTokens none = [] := rfl

@[simp] theorem importanceTokens_some (importance : Word .important × Gap) :
    importanceTokens (some importance) = importance.1.1 :: importance.2.1 := rfl

/-- All tokens. -/
def tokens (o : OrderlyProperty) : List Token :=
  o.name.1 :: (o.gap.1 ++ o.colon.1 :: (o.values.tokens ++ importanceTokens o.importance))

/-- The declaration. -/
def declaration (o : OrderlyProperty) : Declaration where
  name := Text.lowerCase o.name.1.text
  value := o.values.latest.reverse
  important := o.importance.isSome
  location := o.name.1.location

end OrderlyProperty

/-- Only white space and comments stand behind an `!important`. -/
def ImportanceLast (ts : List Token) : Prop :=
  ts.Pairwise (fun t u => t.kind = .important → u.isBlank = true)

/-- No token is an `!important`. -/
def Unimportant (ts : List Token) : Prop := ∀ t ∈ ts, t.kind ≠ .important

theorem Unimportant.append {ts us : List Token} (h : Unimportant ts) (h' : Unimportant us) :
    Unimportant (ts ++ us) :=
  fun t ht => (List.mem_append.1 ht).elim (h t) (h' t)

theorem Unimportant.any_eq_false {ts : List Token} (h : Unimportant ts) :
    ts.any (fun t => t.kind == .important) = false := by
  simpa [Unimportant] using h

/-- What stands in front of the first `!important` makes no difference. -/
theorem importanceLast_append_iff {ts us : List Token} (h : Unimportant ts) :
    ImportanceLast (ts ++ us) ↔ ImportanceLast us := by
  simp only [ImportanceLast, List.pairwise_append]
  constructor
  · exact fun h => h.2.1
  · intro hus
    refine ⟨List.Pairwise.imp_of_mem ?_ (List.pairwise_of_forall (R := fun _ _ => True) (by simp)),
      hus, fun t ht u _ himportant => absurd himportant (h t ht)⟩
    exact fun ht _ _ himportant => absurd himportant (h _ ht)

theorem Gap.unimportant (g : Gap) : Unimportant g.1 :=
  fun t ht => Token.not_important_of_isBlank (g.2 t ht)

theorem Mark.unimportant {c : Char} (m : Mark c) : Unimportant [m.1] := by
  intro t ht himportant
  obtain rfl := List.mem_singleton.1 ht
  have hmark := m.2
  rw [Token.isChar_of_kind (by simp [himportant])] at hmark
  cases hmark

theorem ImportanceLast.isBlank {ts rest : List Token} {importance : Word .important × Gap}
    {t : Token} (h : ImportanceLast
      ((ts ++ OrderlyProperty.importanceTokens (some importance)) ++ t :: rest)) :
    t.isBlank = true := by
  rw [ImportanceLast, List.pairwise_append] at h
  exact h.2.2 importance.1.1 (by simp) t (by simp) importance.1.2

/-- Values whose last `!important` nothing follows are values with one behind them or none. -/
theorem Values.exists_importance {filler stop : TokenClass} (v : Values filler stop)
    (hfiller : ∀ t, filler t = true → t.isBlank = true ∨ t.kind = .important)
    (hlast : ImportanceLast v.tokens) :
    ∃ (v' : Values Token.isBlank stop) (importance : Option (Word .important × Gap)),
      v'.tokens ++ OrderlyProperty.importanceTokens importance = v.tokens ∧
        v'.latest = v.latest := by
  induction v with
  | nil => exact ⟨.nil, none, rfl, rfl⟩
  | filler before t fits ih =>
      obtain ⟨v', importance, htokens, hlatest⟩ :=
        ih hfiller (List.Pairwise.sublist (List.sublist_append_left ..) hlast)
      simp only [Values.tokens, ← htokens] at hlast ⊢
      cases importance with
      | none =>
          rcases hfiller t fits with hspace | himportant
          · exact ⟨.filler v' t hspace, none, by simp [Values.tokens], hlatest⟩
          · exact ⟨v', some (⟨t, himportant⟩, .empty), by simp, hlatest⟩
      | some importance =>
          obtain ⟨mark, gap⟩ := importance
          exact ⟨v', some (mark, gap.snoc t hlast.isBlank), by simp [Gap.snoc], hlatest⟩
  | atom before t c fits goes ih =>
      obtain ⟨v', importance, htokens, hlatest⟩ :=
        ih hfiller (List.Pairwise.sublist (List.sublist_append_left ..) hlast)
      simp only [Values.tokens, ← htokens] at hlast ⊢
      cases importance with
      | none => exact ⟨.atom v' t c fits goes, none, by simp [Values.tokens],
          by simp [Values.latest, hlatest]⟩
      -- Only blanks stand behind an `!important`, and no value starts with one.
      | some importance =>
          rw [Token.valueStart_of_isBlank hlast.isBlank] at fits
          cases fits
  | nested before t o fits members closer ih =>
      obtain ⟨v', importance, htokens, hlatest⟩ :=
        ih hfiller (List.Pairwise.sublist (List.sublist_append_left ..) hlast)
      simp only [Values.tokens, ← htokens] at hlast ⊢
      cases importance with
      | none => exact ⟨.nested v' t o fits members closer, none, by simp [Values.tokens],
          by simp [Values.latest, hlatest]⟩
      | some importance =>
          rw [Token.valueStart_of_isBlank hlast.isBlank] at fits
          cases o <;> cases fits

namespace OrderlyProperty

/-- What stands in front of the `!important`. -/
theorem unimportant_front (o : OrderlyProperty) :
    Unimportant (o.name.1 :: (o.gap.1 ++ o.colon.1 :: o.values.tokens)) := by
  have hname : Unimportant [o.name.1] := by
    intro t ht
    simp [List.mem_singleton.1 ht, o.name.2]
  exact hname.append
    ((Gap.unimportant o.gap).append ((Mark.unimportant o.colon).append o.values.not_important))

theorem importanceLast (o : OrderlyProperty) : ImportanceLast o.tokens := by
  have htokens : o.tokens =
      (o.name.1 :: (o.gap.1 ++ o.colon.1 :: o.values.tokens)) ++ importanceTokens o.importance := by
    simp [tokens]
  rw [htokens, importanceLast_append_iff o.unimportant_front]
  cases o.importance with
  | none => exact List.Pairwise.nil
  | some importance =>
      obtain ⟨mark, gap⟩ := importance
      refine List.pairwise_cons.2 ⟨fun u hu _ => gap.2 u hu, ?_⟩
      exact List.Pairwise.imp_of_mem (fun _ hu _ _ => gap.2 _ hu)
        (List.pairwise_of_forall (R := fun _ _ => True) (by simp))

/-- What is documented is read. -/
theorem exists_property (o : OrderlyProperty) :
    ∃ p : Property, p.tokens = o.tokens ∧ p.declaration = o.declaration := by
  have hblank : ∀ t : Token, t.isBlank = true → TokenClass.blankOrImportant t = true :=
    fun t ht => by simp [TokenClass.blankOrImportant, ht]
  have hnone := Unimportant.any_eq_false o.values.not_important
  obtain ⟨values, hvalues, hlatest⟩ := o.values.exists_weakened hblank
  obtain ⟨body, hbody, hbodyLatest⟩ : ∃ body : Values TokenClass.blankOrImportant TokenClass.never,
      body.tokens = o.values.tokens ++ importanceTokens o.importance ∧
        body.latest = o.values.latest := by
    cases o.importance with
    | none => exact ⟨values, by simp [hvalues], hlatest⟩
    | some importance =>
        obtain ⟨body, htokens, hbody⟩ := (Values.filler values importance.1.1
          (by simp [TokenClass.blankOrImportant, importance.1.2])).exists_spaced hblank importance.2
        exact ⟨body, by simp [htokens, Values.tokens, hvalues], by rw [hbody]; exact hlatest⟩
  refine ⟨⟨o.name, o.gap, o.colon, body, by rw [hbodyLatest]; exact o.valued⟩, ?_, ?_⟩
  · simp [Property.tokens, Property.rest, tokens, hbody]
  · have himportant : body.tokens.any (fun t => t.kind == .important) = o.importance.isSome := by
      rw [hbody, List.any_append, hnone, Bool.false_or]
      cases o.importance with
      | none => rfl
      | some importance => simp [importance.1.2]
    simp only [Property.declaration, declaration, hbodyLatest, himportant]

end OrderlyProperty

namespace Property

/-- **A declaration has the documented form** exactly if only white space and comments stand behind
each `!important`, and then it says what it is documented to say. -/
theorem exists_orderly_iff (p : Property) :
    (∃ o : OrderlyProperty, o.tokens = p.tokens ∧ o.declaration = p.declaration) ↔
      ImportanceLast p.tokens := by
  constructor
  · rintro ⟨o, htokens, -⟩
    rw [← htokens]
    exact o.importanceLast
  · intro hlast
    -- The name and the colon stand before all of them, so the order is that of the values.
    have hbody : ImportanceLast p.body.tokens := by
      refine List.Pairwise.sublist ?_ hlast
      simp only [tokens, rest]
      exact ((List.sublist_cons_self ..).trans (List.sublist_append_right ..)).cons _
    have hfiller : ∀ t, TokenClass.blankOrImportant t = true →
        t.isBlank = true ∨ t.kind = .important := by
      intro t ht
      simpa [TokenClass.blankOrImportant] using ht
    obtain ⟨v, importance, htokens, hlatest⟩ := p.body.exists_importance hfiller hbody
    refine ⟨⟨p.name, p.gap, p.colon, v, by rw [hlatest]; exact p.valued, importance⟩, ?_, ?_⟩
    · simp [OrderlyProperty.tokens, tokens, rest, htokens]
    · have hnone := Unimportant.any_eq_false v.not_important
      have himportant : importance.isSome = p.body.tokens.any (fun t => t.kind == .important) := by
        rw [← htokens, List.any_append, hnone, Bool.false_or]
        cases importance with
        | none => rfl
        | some importance => simp [importance.1.2]
      simp only [OrderlyProperty.declaration, declaration, hlatest, himportant]

end Property

end Concrete

open Concrete

/-- A call delivers at most one declaration, and delivers it with the answer that it was built. -/
theorem Grammar.exists_declared_of_mem {g : Grammar} {ts : List Token} {d : Declaration}
    (h : .event (.declaration d) ∈ g.signals ts) :
    ∃ c ∈ g.calls .declaration ts, Signal.declared c.signals = [d] := by
  obtain ⟨part, -, hdelivers, c, hc, hmem⟩ := Grammar.exists_call_of_answers h trivial
  obtain rfl : part = .declaration := by
    rcases hdelivers with hdelivers | ⟨p, hp⟩
    · cases part <;> first | rfl | cases hdelivers
    · cases hp
  refine ⟨c, hc, ?_⟩
  have hd := Signal.mem_declared.2 hmem
  rw [Grammar.declared_of_mem_calls hc] at hd ⊢
  simpa using hd

/-- The tokens of a declaration with a value behind its `!important`, and the brace behind it. -/
def Grammar.crossedDeclaration : List Token :=
  [⟨.ident, "b", .start, []⟩, ⟨.char, ":", .start, []⟩, ⟨.ident, "c", .start, []⟩,
    ⟨.space, " ", .start, []⟩, ⟨.important, "!important", .start, []⟩, ⟨.space, " ", .start, []⟩,
    ⟨.ident, "d", .start, []⟩, ⟨.char, "\x7d", .start, []⟩]

/-- The call for this declaration in a style sheet. -/
theorem Grammar.exists_crossed_call :
    ∃ c ∈ Grammar.sheet.calls .declaration
        (⟨.ident, "a", .start, []⟩ :: ⟨.char, "\x7b", .start, []⟩ :: crossedDeclaration),
      c.tokens = crossedDeclaration ∧ Signal.declared c.signals =
        [⟨"b", [.atom .keyword "c" .start, .atom .keyword "d" .start], true, .start⟩] := by
  have hcalls : (Grammar.sheet.calls .declaration
      (⟨.ident, "a", .start, []⟩ :: ⟨.char, "\x7b", .start, []⟩ :: crossedDeclaration)).map
        (fun c => (c.tokens, Signal.declared c.signals)) =
      [(crossedDeclaration,
        [⟨"b", [.atom .keyword "c" .start, .atom .keyword "d" .start], true, .start⟩])] := by
    with_unfolding_all rfl
  have hmem := List.mem_singleton_self (crossedDeclaration,
    [(⟨"b", [.atom .keyword "c" .start, .atom .keyword "d" .start], true, .start⟩ : Declaration)])
  rw [← hcalls] at hmem
  obtain ⟨c, hc, heq⟩ := List.mem_map.1 hmem
  exact ⟨c, hc, congrArg Prod.fst heq, congrArg Prod.snd heq⟩

/-- **What is delivered as a declaration.** Every declaration that a grammar delivers is that of a
call. A call delivers a declaration exactly if its tokens are a name, a colon, and values with any
number of `!important` anywhere among them, with an end behind; otherwise it delivers none, and one
problem is reported unless the tokens run out. The tokens of the call have the documented form
exactly if in addition nothing but white space and comments stands behind each `!important`. -/
theorem Grammar.declares_iff (g : Grammar) (ts : List Token) :
    (∀ d, .event (.declaration d) ∈ g.signals ts →
      ∃ c ∈ g.calls .declaration ts, Signal.declared c.signals = [d]) ∧
    ∀ c ∈ g.calls .declaration ts,
      (∀ d, Signal.declared c.signals = [d] ↔
        ∃ (p : Property) (ending : List Token), c.tokens = p.tokens ++ ending ∧
          g.setting.Ending ending ∧ d = p.declaration) ∧
      (∀ d, (∃ (o : OrderlyProperty) (ending : List Token), c.tokens = o.tokens ++ ending ∧
          g.setting.Ending ending ∧ d = o.declaration) ↔
        ∃ (p : Property) (ending : List Token), c.tokens = p.tokens ++ ending ∧
          g.setting.Ending ending ∧ d = p.declaration ∧ ImportanceLast p.tokens) ∧
      (c.answer = .nothing → Signal.declared c.signals = [] ∧
        ∃ p, Signal.problems c.signals = [p] ∧ p.Grammatical) := by
  refine ⟨fun d hd => Grammar.exists_declared_of_mem hd, fun c hc => ⟨fun d => ?_, fun d => ?_, ?_⟩⟩
  · rw [Grammar.declared_of_mem_calls hc, ← declarationOf_eq_some_iff]
    cases declarationOf g.setting c.tokens <;> simp
  · constructor
    · rintro ⟨o, ending, htokens, hending, rfl⟩
      obtain ⟨p, hp, hdeclaration⟩ := o.exists_property
      exact ⟨p, ending, by rw [hp, htokens], hending, hdeclaration.symm,
        by rw [hp]; exact o.importanceLast⟩
    · rintro ⟨p, ending, htokens, hending, rfl, hlast⟩
      obtain ⟨o, ho, hdeclaration⟩ := p.exists_orderly_iff.2 hlast
      exact ⟨o, ending, by rw [ho, htokens], hending, hdeclaration.symm⟩
  -- A declaration that is delivered would be another answer.
  · intro hnothing
    have haccounted := Grammar.accounted_of_mem_calls hc
    obtain ⟨p, hp, hgrammatical, -⟩ := haccounted.nothing hnothing
    refine ⟨?_, p, hp, hgrammatical⟩
    rw [List.eq_nil_iff_forall_not_mem]
    intro d hd
    have hdelivers : c.signals.any StylePart.declaration.delivers = true :=
      List.any_eq_true.2 ⟨_, Signal.mem_declared.1 hd, rfl⟩
    rw [(haccounted.delivered (by decide)).2 hdelivers] at hnothing
    cases hnothing

/-- The declaration with a value behind its `!important`. -/
theorem Grammar.declares_iff_crossed :
    ∃ c ∈ Grammar.sheet.calls .declaration
        (⟨.ident, "a", .start, []⟩ :: ⟨.char, "\x7b", .start, []⟩ :: crossedDeclaration),
      ∃ (p : Property) (ending : List Token), c.tokens = p.tokens ++ ending ∧
        Grammar.sheet.setting.Ending ending ∧ p.declaration =
          ⟨"b", [.atom .keyword "c" .start, .atom .keyword "d" .start], true, .start⟩ := by
  obtain ⟨c, hc, -, hdeclared⟩ := exists_crossed_call
  have hdeclares := Grammar.declares_iff .sheet
    (⟨.ident, "a", .start, []⟩ :: ⟨.char, "\x7b", .start, []⟩ :: crossedDeclaration)
  obtain ⟨p, ending, htokens, hending, hp⟩ := ((hdeclares.2 c hc).1 _).1 hdeclared
  exact ⟨c, hc, p, ending, htokens, hending, hp.symm⟩

/-- A declaration may be delivered that goes on behind its `!important`. -/
theorem Grammar.not_forall_orderly :
    ¬ ∀ (g : Grammar) (ts : List Token), ∀ c ∈ g.calls .declaration ts, ∀ d,
      Signal.declared c.signals = [d] → ∃ (o : OrderlyProperty) (ending : List Token),
        c.tokens = o.tokens ++ ending ∧ g.setting.Ending ending ∧ d = o.declaration := by
  intro h
  obtain ⟨c, hc, htokens, hdeclared⟩ := exists_crossed_call
  obtain ⟨o, ending, heq, hending, -⟩ := h .sheet _ c hc _ hdeclared
  rw [htokens] at heq
  cases hending with
  | token t ends =>
      -- Without its end the declaration still has a value behind its `!important`.
      have hfront : o.tokens = crossedDeclaration.dropLast := by simp [heq]
      have hlast := o.importanceLast
      rw [hfront] at hlast
      exact absurd hlast (by unfold ImportanceLast; decide)

end EpubStyle
