import EpubStyle.Proofs.Concrete.SheetReading
import EpubStyle.Proofs.Sheet.Signals

/-!
# Style attributes

Every well-formed style attribute is read without a problem as what it says
(`InlineStyle.signals_tokens`), and tokens that are read without a problem are those of a
well-formed one (`exists_inlineStyle_of_flawless`).

Its declarations are those of a block, except that the end of the tokens stands for the closing
brace, so the reader of a declaration does the work here too (`Reading.feed`).
-/

set_option autoImplicit false

namespace EpubStyle

open Concrete

namespace StyleAttribute

section Steps

variable (last : Option Token)

theorem run_cons {m m' : StyleAttribute} {t : Token} {ts : List Token} {signals : List Signal}
    (h : m.step t = (m', signals)) : m.run (t :: ts) = signals ++ m'.run ts := by
  simp [run, h]

theorem step_blank (phase : AttributePhase) {t : Token} (h : t.isBlank = true) :
    step ⟨last, phase⟩ t = (⟨last, phase⟩, []) := by
  simp [step, h]

/-- The name of a declaration. -/
theorem step_name (phase : AttributePhase) (h : phase = .leading ∨ phase = .between)
    (name : Word .ident) :
    step ⟨last, phase⟩ name.1 = (⟨some name.1, .reading (.named name.1)⟩, []) := by
  have hblank : name.1.isBlank = false := by simp [Token.isBlank, name.2]
  have hchar : name.1.isChar ';' = false := Token.isChar_of_kind (by simp [name.2]) _
  rcases h with rfl | rfl <;> simp [step, hblank, take, startDeclaration, hchar, name.2]

/-- A token that a declaration takes. -/
theorem step_reading {r r' : Reading} {t : Token} (u : Token)
    (h : r.advance .attribute t t = .pending r') :
    ∃ u', step ⟨some u, .reading r⟩ t = (⟨some u', .reading r'⟩, []) := by
  simp only [Reading.advance] at h
  split at h
  · next hblank =>
      cases h
      exact ⟨u, step_blank _ _ hblank⟩
  · next hblank =>
      refine ⟨t, ?_⟩
      simp only [step, hblank, take, Reading.step_eq_pending ((some u).getD t) h, afterReading,
        Bool.false_eq_true, if_false]

/-- A token that completes a declaration. -/
theorem step_reading_complete {r : Reading} {d : Declaration} {t : Token} (u : Token)
    (h : r.advance .attribute t t = .complete d) :
    step ⟨some u, .reading r⟩ t = (⟨some t, .between⟩, [.event (.declaration d)]) := by
  simp only [Reading.advance] at h
  split at h
  · cases h
  · next hblank =>
      simp only [step, hblank, take, Reading.step_eq_complete ((some u).getD t) h, afterReading,
        Bool.false_eq_true, if_false]

/-- A token that a declaration refuses. -/
theorem problem_of_reading {r : Reading} {t : Token} {p : Problem} {depth : Nat} (u : Token)
    (h : r.advance .attribute t t = .rejected p depth) :
    ∃ q, Signal.problem q ∈ (step ⟨some u, .reading r⟩ t).2 := by
  simp only [Reading.advance] at h
  split at h
  · cases h
  · next hblank =>
      have hrejected : ∃ q n, r.step .attribute ((some u).getD t) t = .rejected q n := by
        rcases r.step_last .attribute t t ((some u).getD t) with heq | ⟨-, q, n, -, hq⟩
        · exact ⟨p, depth, by rw [← heq, h]⟩
        · exact ⟨q, n, hq⟩
      obtain ⟨q, n, hq⟩ := hrejected
      refine ⟨q, ?_⟩
      simp only [step, hblank, take, hq, afterReading, Bool.false_eq_true, if_false,
        List.mem_singleton]

theorem run_reading {r r' : Reading} {ts : List Token} (u : Token)
    (h : r.feed .attribute ts = some r') (us : List Token) :
    ∃ u', run ⟨some u, .reading r⟩ (ts ++ us) = run ⟨some u', .reading r'⟩ us := by
  induction ts generalizing r u with
  | nil =>
      cases h
      exact ⟨u, rfl⟩
  | cons t ts ih =>
      simp only [Reading.feed] at h
      cases hadvance : r.advance .attribute t t with
      | pending r₁ =>
          rw [hadvance] at h
          obtain ⟨u₁, hstep⟩ := step_reading u hadvance
          obtain ⟨u', hrun⟩ := ih u₁ h
          exact ⟨u', by rw [List.cons_append, run_cons hstep, List.nil_append, hrun]⟩
      | complete d => simp [hadvance] at h
      | rejected p depth => simp [hadvance] at h

/-- **The tokens of declarations are read as these declarations.** -/
theorem run_declarations (d : Declarations) (phase : AttributePhase)
    (h : phase = .leading ∨ phase = .between) :
    run ⟨last, phase⟩ d.tokens = d.events.map Signal.event := by
  induction d generalizing last phase with
  | nil => rcases h with rfl | rfl <;> rfl
  | blank t fits rest ih =>
      rw [Declarations.tokens, run_cons (step_blank last phase fits), List.nil_append,
        ih last phase h]
      rfl
  | last p =>
      obtain ⟨d, hfeed, hvalue, hd⟩ := p.feed_rest .attribute
      obtain ⟨u, hrest⟩ := run_reading p.name.1 hfeed []
      rw [List.append_nil] at hrest
      rw [Declarations.tokens, Property.tokens, run_cons (step_name last phase h p.name),
        List.nil_append, hrest]
      simp [run, finish, hvalue, Declarations.events, Declarations.declarations, hd]
  | cons p semicolon rest ih =>
      obtain ⟨d, hfeed, hvalue, hd⟩ := p.feed_rest .attribute
      obtain ⟨u, hrest⟩ := run_reading p.name.1 hfeed (semicolon.1 :: rest.tokens)
      have hends : Setting.ends .attribute semicolon.1 = true := by simp [Setting.ends, semicolon.2]
      have hsemicolon := step_reading_complete u
        (Reading.advance_of_ends hvalue hends semicolon.1)
      rw [Declarations.tokens, Property.tokens, List.cons_append,
        run_cons (step_name last phase h p.name), List.nil_append, hrest, run_cons hsemicolon,
        ih _ .between (.inr rfl), hd]
      rfl

/-! ## What is read is a tree -/

/-- A declaration is read up to its semicolon or the end of the tokens. -/
theorem exists_reading {r : Reading} {ts : List Token} (u : Token)
    (h : Signal.Flawless (run ⟨some u, .reading r⟩ ts)) :
    (∃ d : Draft, r.feed .attribute ts = some (.valued d) ∧ d.value ≠ []) ∨
      ∃ pre t rest r' d, ts = pre ++ t :: rest ∧ r.feed .attribute pre = some r' ∧
        r'.advance .attribute t t = .complete d := by
  induction ts generalizing u r with
  | nil =>
      cases r with
      | named name | nested d n => exact absurd (List.mem_singleton_self _) (h _)
      | valued d =>
          -- An empty value at the end of the tokens is a problem.
          refine .inl ⟨d, rfl, fun hvalue => ?_⟩
          cases himportant : d.important with
          | true => exact h (.unexpected u) (by simp [run, finish, hvalue, himportant])
          | false =>
              exact h (.premature u.location (Reading.valued d).expected)
                (by simp [run, finish, hvalue, himportant, lastLocation])
  | cons t ts ih =>
      cases hadvance : r.advance .attribute t t with
      | rejected p depth =>
          obtain ⟨q, hq⟩ := problem_of_reading u hadvance
          exact absurd (List.mem_append_left _ hq) (h q)
      | complete d => exact .inr ⟨[], t, ts, r, d, rfl, rfl, hadvance⟩
      | pending r₁ =>
          obtain ⟨u₁, hstep⟩ := step_reading u hadvance
          rw [run_cons hstep, List.nil_append] at h
          obtain ⟨d, hfeed, hvalue⟩ | ⟨pre, t', rest, r', d, rfl, hfeed, hend⟩ := ih u₁ h
          · exact .inl ⟨d, by simp [Reading.feed, hadvance, hfeed], hvalue⟩
          · refine .inr ⟨t :: pre, t', rest, r', d, rfl, ?_, hend⟩
            simp [Reading.feed, hadvance, hfeed]

/-- The tokens of declarations up to the end. -/
theorem exists_declarations (phase : AttributePhase) (hphase : phase = .leading ∨ phase = .between)
    {ts : List Token}
    (hts : phase = .leading → ∀ t ∈ ts.head?, t.isBlank = false ∧ t.isChar ';' = false)
    (h : Signal.Flawless (run ⟨last, phase⟩ ts)) :
    ∃ d : Declarations, ts = d.tokens := by
  -- By the number of tokens, since a declaration takes several of them at once.
  induction hn : ts.length using Nat.strongRecOn generalizing last phase ts with
  | ind n ih =>
      cases ts with
      | nil => exact ⟨.nil, rfl⟩
      | cons t ts =>
          by_cases hblank : t.isBlank = true
          · have hbetween : phase = .between := by
              rcases hphase with rfl | rfl
              · simp [(hts rfl t (by simp)).1] at hblank
              · rfl
            subst hbetween
            rw [run_cons (step_blank last _ hblank), List.nil_append] at h
            have hlt : ts.length < n := by simp [← hn]
            obtain ⟨d, rfl⟩ := ih ts.length hlt last .between (.inr rfl) (by simp) h rfl
            exact ⟨.blank t hblank d, rfl⟩
          · by_cases hname : t.kind = .ident
            · rw [run_cons (step_name last phase hphase ⟨t, hname⟩), List.nil_append] at h
              obtain ⟨d, hfeed, hvalue⟩ | ⟨pre, u, rest, r', d, rfl, hfeed, hcomplete⟩ :=
                exists_reading t h
              · obtain ⟨p, htokens, -⟩ := exists_property_of_feed ⟨t, hname⟩ hfeed hvalue
                exact ⟨.last p, htokens.symm⟩
              · obtain ⟨hends, draft, rfl, hvalue, rfl⟩ := Reading.of_advance_eq_complete hcomplete
                obtain ⟨p, htokens, -⟩ := exists_property_of_feed ⟨t, hname⟩ hfeed hvalue
                have hsemicolon : u.isChar ';' = true := by simpa [Setting.ends] using hends
                obtain ⟨v, hpre⟩ := run_reading t hfeed (u :: rest)
                rw [hpre, run_cons (step_reading_complete v hcomplete)] at h
                obtain ⟨ds, rfl⟩ := ih rest.length
                  (by simp only [← hn, List.length_cons, List.length_append]; omega) _ .between
                  (.inr rfl) (by simp) h.append_right rfl
                exact ⟨.cons p ⟨u, hsemicolon⟩ ds, by simp [Declarations.tokens, htokens]⟩
            · refine absurd ?_ (h (.expecting t (.phrase .propertyName)))
              rcases hphase with rfl | rfl
              · simp [run, step, hblank, take, (hts rfl t (by simp)).2, startDeclaration, hname]
              · simp [run, step, hblank, take, startDeclaration, hname]

/-- White space and comments at the start. -/
theorem run_gap (phase : AttributePhase) (g : Gap) (us : List Token) :
    run ⟨last, phase⟩ (g.1 ++ us) = run ⟨last, phase⟩ us := by
  rcases g with ⟨ts, hts⟩
  induction ts with
  | nil => rfl
  | cons t ts ih =>
      rw [List.cons_append, run_cons (step_blank last phase (hts t (List.mem_cons_self ..))),
        List.nil_append]
      exact ih (fun u hu => hts u (List.mem_cons_of_mem _ hu))

theorem step_semicolon (t : Mark ';') : step ⟨last, .leading⟩ t.1 = (⟨some t.1, .between⟩, []) := by
  simp [step, Token.not_isBlank_of_isChar t.2, take, t.2]

end Steps

end StyleAttribute

namespace Concrete

/-- **The signals of a well-formed style attribute are its events.** -/
theorem InlineStyle.signals_tokens (s : InlineStyle) :
    StyleAttribute.signals s.tokens = s.events.map Signal.event := by
  have hrun : StyleAttribute.initial.run s.tokens = s.declarations.events.map Signal.event := by
    simp only [StyleAttribute.initial, InlineStyle.tokens, StyleAttribute.run_gap]
    cases s.semicolon with
    | none => exact StyleAttribute.run_declarations none s.declarations .leading (.inl rfl)
    | some t =>
        simp only [Option.map_some, Option.getD_some, List.singleton_append]
        rw [StyleAttribute.run_cons (StyleAttribute.step_semicolon none t), List.nil_append]
        exact StyleAttribute.run_declarations _ s.declarations .between (.inr rfl)
  simp [StyleAttribute.signals, InlineStyle.events, hrun]

/-- **Tokens that are read as a style attribute without a problem are those of a well-formed
one.** -/
theorem exists_inlineStyle_of_flawless {ts : List Token}
    (h : Signal.Flawless (StyleAttribute.signals ts)) :
    ∃ s : InlineStyle, s.tokens = ts := by
  have hrun : Signal.Flawless (StyleAttribute.initial.run ts) :=
    fun p hp => h p (by simp [StyleAttribute.signals, hp])
  obtain ⟨g, us, rfl, hus⟩ := Gap.exists_append ts
  simp only [StyleAttribute.initial, StyleAttribute.run_gap] at hrun
  by_cases hsemicolon : ∃ (t : Mark ';') (vs : List Token), us = t.1 :: vs
  · obtain ⟨t, vs, rfl⟩ := hsemicolon
    rw [StyleAttribute.run_cons (StyleAttribute.step_semicolon none t), List.nil_append] at hrun
    obtain ⟨d, rfl⟩ := StyleAttribute.exists_declarations _ .between (.inr rfl) (by simp) hrun
    exact ⟨⟨g, some t, d⟩, rfl⟩
  · obtain ⟨d, rfl⟩ : ∃ d : Declarations, us = d.tokens :=
      StyleAttribute.exists_declarations none .leading (.inl rfl) (fun _ t ht => ⟨hus t ht, by
        rw [← Bool.not_eq_true]
        intro hc
        obtain ⟨vs, rfl⟩ : ∃ vs, us = t :: vs := by
          cases us with
          | nil => simp at ht
          | cons v vs =>
              simp only [List.head?_cons, Option.mem_def, Option.some.injEq] at ht
              exact ⟨vs, by rw [ht]⟩
        exact hsemicolon ⟨⟨t, hc⟩, vs, rfl⟩⟩) hrun
    exact ⟨⟨g, none, d⟩, rfl⟩

end Concrete

end EpubStyle
