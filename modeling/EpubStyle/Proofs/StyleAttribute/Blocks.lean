import EpubStyle.Proofs.Concrete.InlineStyles
import EpubStyle.Proofs.Concrete.SheetTrees

/-!
# Style attributes and blocks of declarations

A style attribute holds what may stand between the braces of a rule set, with one liberty: it may
start with a semicolon. On tokens without braces that do not use the liberty, both readers therefore
accept the same tokens, the tokens of `Concrete.Declarations`, and signal the same declarations
(`StyleAttribute.flawless_iff_ruleSet`).

Neither reader is compared with the other step by step. Each is compared with the trees:
`StyleAttribute.flawless_iff_declarations` and `Sheet.flawless_ruleSet_iff_declarations`.
-/

set_option autoImplicit false

namespace EpubStyle

open Concrete

namespace StyleAttribute

/-- Tokens that do not start with a semicolon are read as a style attribute without a problem if
and only if they are the tokens of declarations. -/
theorem flawless_iff_declarations {ts : List Token}
    (hfirst : ∀ t ∈ ts.find? TokenClass.significant, t.isChar ';' = false) :
    Signal.Flawless (signals ts) ↔ ∃ d : Declarations, ts = d.tokens := by
  constructor
  · intro h
    obtain ⟨⟨gap, semicolon, d⟩, rfl⟩ := exists_inlineStyle_of_flawless h
    cases semicolon with
    | none =>
        obtain ⟨d', htokens, -⟩ := d.exists_spaced gap
        exact ⟨d', by simp [InlineStyle.tokens, htokens]⟩
    | some t =>
        -- Only blank tokens stand before the leading semicolon, so it is the first significant one.
        have hgap : gap.1.find? TokenClass.significant = none := by
          rw [List.find?_eq_none]
          intro u hu
          simp [TokenClass.significant, gap.2 u hu]
        have hmark : TokenClass.significant t.1 = true := by
          simp [TokenClass.significant, Token.not_isBlank_of_isChar t.2]
        have hsemicolon : t.1.isChar ';' = false :=
          hfirst t.1 (by simp [InlineStyle.tokens, List.find?_append, hgap, hmark])
        rw [t.2] at hsemicolon
        cases hsemicolon
  · rintro ⟨d, rfl⟩ p hp
    have hsignals : signals d.tokens = _ := InlineStyle.signals_tokens ⟨.empty, none, d⟩
    rw [hsignals] at hp
    simp at hp

end StyleAttribute

namespace Sheet

variable (x : SelectorList) (opener : Mark '{') (closer : Mark '}')

/-- The signals of a rule set with the given declarations. -/
theorem signals_ruleSet (d : Declarations) :
    signals (x.tokens ++ opener.1 :: (d.tokens ++ [closer.1])) =
      .event .start :: .event (.selectors x.selectors) ::
        (d.events.map Signal.event ++ [.event (.endSelectors x.selectors), .event .finish]) := by
  have hsignals := StyleSheet.signals_tokens
    ⟨_, .rule x opener d closer (Statements.nil : Statements true none)⟩
  simpa [StyleSheet.tokens, StyleSheet.events, Statements.tokens, Statements.events] using hsignals

/-- Tokens without braces are read as the block of a rule set without a problem if and only if they
are the tokens of declarations. -/
theorem flawless_ruleSet_iff_declarations {ts : List Token} (hbraces : ∀ t ∈ ts, ¬ t.IsBrace) :
    Signal.Flawless (signals (x.tokens ++ opener.1 :: (ts ++ [closer.1]))) ↔
      ∃ d : Declarations, ts = d.tokens := by
  constructor
  · intro h
    obtain ⟨last, hselectors⟩ := run_selectors none [] x opener (ts ++ [closer.1])
    have hrun : initial.run (x.tokens ++ opener.1 :: (ts ++ [closer.1])) = _ := hselectors
    have hblock : Signal.Flawless
        (run ⟨last, [], .block (.selectors x.selectors) .opened⟩ (ts ++ [closer.1])) :=
      fun p hp => h p (by simp [signals, hrun, hp])
    obtain ⟨d, closer', rest, heq⟩ :=
      exists_declarations last [] (.selectors x.selectors) .opened (.inl rfl) hblock
    -- No brace stands among `ts`, so the one behind the declarations is the closer.
    refine ⟨d, ?_⟩
    rcases List.append_eq_append_iff.1 heq with ⟨used, hd, hcloser⟩ | ⟨used, hts, hcloser⟩
    · cases used with
      | nil => simpa using hd.symm
      | cons u us => simp at hcloser
    · cases used with
      | nil => simpa using hts
      | cons u us =>
          obtain ⟨rfl, -⟩ := List.cons.inj hcloser
          exact absurd (.inr closer'.2) (hbraces _ (by simp [hts]))
  · rintro ⟨d, rfl⟩ p hp
    rw [signals_ruleSet] at hp
    simp at hp

end Sheet

/-- A list of selectors that is the name of an element type. -/
def Concrete.SelectorList.ofName (name : Word .ident) : SelectorList where
  earlier := .start
  last := ⟨⟨.start, .one (.plain (.type (.plain ⟨name.1, .inl name.2⟩)))⟩, rfl⟩
  gap := .empty

namespace StyleAttribute

/-- **Style attributes and rule sets hold the same declarations.** Where no brace stands among the
tokens and no semicolon before the first declaration, the tokens are read as a style attribute
without a problem if and only if they are read so between the braces of a rule set, and then the
declarations of both are the same, with their names, values, importance and locations. -/
theorem flawless_iff_ruleSet {ts : List Token} (hbraces : ∀ t ∈ ts, ¬ t.IsBrace)
    (hfirst : ∀ t ∈ ts.find? TokenClass.significant, t.isChar ';' = false)
    (name : Word .ident) (opener : Mark '{') (closer : Mark '}') :
    (Signal.Flawless (signals ts) ↔
      Signal.Flawless (Sheet.signals (name.1 :: opener.1 :: (ts ++ [closer.1])))) ∧
    (Signal.Flawless (signals ts) → ∃ ds : List Declaration, ∃ list : List Selector,
      signals ts =
        .event .start :: (ds.map (fun d => .event (.declaration d)) ++ [.event .finish]) ∧
      Sheet.signals (name.1 :: opener.1 :: (ts ++ [closer.1])) =
        .event .start :: .event (.selectors list) ::
          (ds.map (fun d => .event (.declaration d)) ++
            [.event (.endSelectors list), .event .finish])) := by
  have hsheet := Sheet.flawless_ruleSet_iff_declarations (.ofName name) opener closer hbraces
  have hattribute := flawless_iff_declarations hfirst
  refine ⟨hattribute.trans hsheet.symm, fun h => ?_⟩
  obtain ⟨d, rfl⟩ := hattribute.1 h
  refine ⟨d.declarations, (SelectorList.ofName name).selectors, ?_, ?_⟩
  · have hsignals : signals d.tokens = _ := InlineStyle.signals_tokens ⟨.empty, none, d⟩
    simpa [InlineStyle.events, Declarations.events, Function.comp_def] using hsignals
  · have htokens : name.1 :: opener.1 :: (d.tokens ++ [closer.1]) =
        (SelectorList.ofName name).tokens ++ opener.1 :: (d.tokens ++ [closer.1]) := rfl
    rw [htokens, Sheet.signals_ruleSet]
    simp [Declarations.events, Function.comp_def]

/-- The declaration `b:c` in a style attribute and in a rule set. -/
theorem flawless_iff_ruleSet_declaration :
    ∃ ds : List Declaration, ∃ list : List Selector,
      signals [⟨.ident, "b", .start, []⟩, ⟨.char, ":", .start, []⟩, ⟨.ident, "c", .start, []⟩] =
        .event .start :: (ds.map (fun d => .event (.declaration d)) ++ [.event .finish]) ∧
      Sheet.signals [⟨.ident, "a", .start, []⟩, ⟨.char, "\x7b", .start, []⟩,
          ⟨.ident, "b", .start, []⟩, ⟨.char, ":", .start, []⟩, ⟨.ident, "c", .start, []⟩,
          ⟨.char, "\x7d", .start, []⟩] =
        .event .start :: .event (.selectors list) ::
          (ds.map (fun d => .event (.declaration d)) ++
            [.event (.endSelectors list), .event .finish]) := by
  have hread : signals
      [⟨.ident, "b", .start, []⟩, ⟨.char, ":", .start, []⟩, ⟨.ident, "c", .start, []⟩] =
      [.event .start, .event (.declaration
        ⟨"b", [.atom .keyword "c" .start], false, .start⟩), .event .finish] := by
    with_unfolding_all rfl
  refine (flawless_iff_ruleSet (by decide) (by decide) ⟨⟨.ident, "a", .start, []⟩, rfl⟩
    ⟨⟨.char, "\x7b", .start, []⟩, rfl⟩ ⟨⟨.char, "\x7d", .start, []⟩, rfl⟩).2 ?_
  intro p hp
  rw [hread] at hp
  simp at hp

end StyleAttribute

end EpubStyle
