import EpubStyle.Proofs.Concrete.SheetReading
import EpubStyle.Proofs.Sheet.Resynchronisation

/-!
# Style sheets that have been read

Tokens that are read as a style sheet without a problem are the tokens of a well-formed one
(`exists_styleSheet_of_flawless`). With the converse, `StyleSheet.signals_tokens`, this says exactly
which tokens are read without a problem, and as which events.

As long as nothing is reported, each reader takes its tokens up to the one that ends it
(`exists_selecting`, `exists_header`, `exists_reading`). What it has taken is a tree, and the run
goes on behind that, so the tokens of declarations (`exists_declarations`) and of statements
(`exists_statements`) are found by induction on the number of tokens that are left.
-/

set_option autoImplicit false

namespace EpubStyle

open Concrete

namespace Sheet

section Steps

variable (last : Option Token) (enclosing : List String)

/-! ## Tokens that are refused -/

theorem problem_of_selecting {s : Selecting} {t : Token} {p : Problem}
    (h : s.advance t = .rejected p) (ahead : List Token) :
    Signal.problem p ∈ (step ⟨last, enclosing, .selecting s⟩ t ahead).2 := by
  simp only [Selecting.advance] at h
  cases hsettle : s.settle (some t) with
  | complete list => simp [hsettle] at h
  | rejected q =>
      rw [hsettle] at h
      cases h
      simp only [step, settle, hsettle, enter]
      split <;> simp
  | pending s₁ =>
      rw [hsettle] at h
      simp only at h
      split at h
      · cases h
      · next hloose =>
          simp only [step, settle, hsettle, enter, ignores, hloose, if_false, take, h,
            afterSelecting, skipRule, Bool.false_eq_true]
          split <;> simp

theorem problem_of_header {name : String} {location : Location} {r : Reader} {t : Token}
    (h : r.step Token.isBlank .atRuleParameter TokenClass.semicolonOrOpenBrace t = none)
    (hgoes : r.nesting = none → t.isChar ';' = false ∧ t.isChar '{' = false) (ahead : List Token) :
    Signal.problem (.unexpected t) ∈
      (step ⟨last, enclosing, .header name location r.values r.nesting⟩ t ahead).2 := by
  rcases r with ⟨values, nesting⟩
  by_cases hblank : t.isBlank = true
  · cases nesting <;> simp [Reader.step, hblank] at h
  · have hafter : ∀ b nesting', Reader.take ⟨values, nesting⟩ b = none →
        Signal.problem (.unexpected t) ∈ (afterParameter ⟨last, enclosing,
          .header name location values nesting'⟩ name location values t b).2 := by
      intro b nesting' hb
      cases b with
      | complete c | pending n => cases hb
      | rejected => simp [afterParameter, enter]
    cases nesting with
    | some n =>
        simp only [Reader.step, hblank, Bool.false_eq_true, if_false] at h
        have hproblem := hafter _ (some n) h
        simp only [step, settle, ignores, hblank, take, stepHeader, Bool.false_eq_true, if_false]
        exact hproblem
    | none =>
        simp only [Reader.step, hblank, Bool.false_eq_true, if_false] at h
        have hproblem := hafter _ none h
        obtain ⟨hsemicolon, hopen⟩ := hgoes rfl
        simp only [step, settle, ignores, hblank, take, stepHeader, hsemicolon, hopen,
          Bool.false_eq_true, if_false]
        exact hproblem

theorem problem_of_skipDeclaration (m : Sheet) (owner : BlockOwner) (t : Token) (p : Problem)
    (depth : Nat) : Signal.problem p ∈ (m.skipDeclaration owner t p depth).2 := by
  simp only [skipDeclaration]
  repeat' split
  all_goals simp [closeBlock, enter]

theorem problem_of_reading (owner : BlockOwner) {r : Reading} {t : Token} {p : Problem}
    {depth : Nat} (h : r.advance .block t t = .rejected p depth) (ahead : List Token) :
    ∃ q, Signal.problem q ∈ (step ⟨last, enclosing, .block owner (.reading r)⟩ t ahead).2 := by
  simp only [Reading.advance] at h
  split at h
  · cases h
  · next hblank =>
      have hrejected : ∃ q n, r.step .block (last.getD t) t = .rejected q n := by
        rcases r.step_last .block t t (last.getD t) with heq | ⟨-, q, n, -, hq⟩
        · exact ⟨p, depth, by rw [← heq, h]⟩
        · exact ⟨q, n, hq⟩
      obtain ⟨q, n, hq⟩ := hrejected
      refine ⟨q, ?_⟩
      simp only [step, settle, ignores, hblank, take, stepBlock, hq, afterReading,
        Bool.false_eq_true, if_false, List.nil_append]
      exact problem_of_skipDeclaration _ _ _ _ _

theorem problem_of_between (owner : BlockOwner) (phase : BlockPhase)
    (h : phase = .opened ∨ phase = .between) {t : Token} (hblank : t.isBlank = false)
    (hclose : t.isChar '}' = false) (hname : t.kind ≠ .ident) (ahead : List Token) :
    ∃ q, Signal.problem q ∈ (step ⟨last, enclosing, .block owner phase⟩ t ahead).2 := by
  have hkind : (t.kind == .ident) = false := by simpa using hname
  refine ⟨.expecting t (.phrase .propertyName), ?_⟩
  rcases h with rfl | rfl <;>
    · simp only [step, settle, ignores, hblank, take, stepBlock, startDeclaration, hclose, hkind,
        Bool.false_eq_true, if_false, List.nil_append]
      exact problem_of_skipDeclaration _ _ _ _ _

/-! ## What the readers take -/

/-- A run without a problem does not end anywhere but between statements of the top level. -/
theorem not_flawless_nil {m : Sheet} (h : m.phase ≠ .statement) : ¬ Signal.Flawless (m.run []) :=
  fun hflawless => h (atTop_of_finish m hflawless.complete).phase

/-- Selectors are read up to their brace. -/
theorem exists_selecting {s : Selecting} {ts : List Token}
    (h : Signal.Flawless (run ⟨last, enclosing, .selecting s⟩ ts)) :
    ∃ pre t rest s' list, ts = pre ++ t :: rest ∧ s.feed pre = some s' ∧
      s'.advance t = .complete list := by
  induction ts generalizing last s with
  | nil => exact absurd h (not_flawless_nil (by simp))
  | cons t ts ih =>
      cases hadvance : s.advance t with
      | rejected p =>
          have hp := problem_of_selecting last enclosing hadvance ts
          exact absurd (List.mem_append_left _ hp) (h p)
      | complete list => exact ⟨[], t, ts, s, list, rfl, rfl, hadvance⟩
      | pending s₁ =>
          obtain ⟨last₁, hstep⟩ := step_selecting last enclosing hadvance ts
          rw [run_cons hstep, List.nil_append] at h
          obtain ⟨pre, u, rest, s', list, rfl, hfeed, hend⟩ := ih last₁ h
          exact ⟨t :: pre, u, rest, s', list, rfl, by simp [Selecting.feed, hadvance, hfeed], hend⟩

/-- The parameters of an at-rule are read up to its semicolon or brace. -/
theorem exists_header {name : String} {location : Location} {r : Reader} {ts : List Token}
    (h : Signal.Flawless (run ⟨last, enclosing, .header name location r.values r.nesting⟩ ts)) :
    ∃ pre t rest cs, ts = pre ++ t :: rest ∧
      r.feed Token.isBlank .atRuleParameter TokenClass.semicolonOrOpenBrace pre =
        some ⟨cs, none⟩ ∧ (t.isChar ';' = true ∨ t.isChar '{' = true) := by
  induction ts generalizing last r with
  | nil => exact absurd h (not_flawless_nil (by simp))
  | cons t ts ih =>
      by_cases hend : r.nesting = none ∧ (t.isChar ';' = true ∨ t.isChar '{' = true)
      · rcases r with ⟨values, nesting⟩
        obtain ⟨rfl, hend⟩ := hend
        exact ⟨[], t, ts, values, rfl, rfl, hend⟩
      · cases htake : r.step Token.isBlank .atRuleParameter TokenClass.semicolonOrOpenBrace t with
        | none =>
            refine absurd (List.mem_append_left _
              (problem_of_header last enclosing htake (fun hn => ?_) ts)) (h _)
            simpa [hn] using hend
        | some r₁ =>
            obtain ⟨last₁, hstep⟩ := step_header last enclosing name location htake ts
            rw [run_cons hstep, List.nil_append] at h
            obtain ⟨pre, u, rest, cs, rfl, hfeed, hu⟩ := ih last₁ h
            refine ⟨t :: pre, u, rest, cs, rfl, ?_, hu⟩
            rw [Reader.feed_cons, htake, Option.bind_some, hfeed]

/-- A declaration is read up to its semicolon or the brace that closes its block. -/
theorem exists_reading (owner : BlockOwner) {r : Reading} {ts : List Token}
    (h : Signal.Flawless (run ⟨last, enclosing, .block owner (.reading r)⟩ ts)) :
    ∃ pre t rest r' d, ts = pre ++ t :: rest ∧ r.feed .block pre = some r' ∧
      r'.advance .block t t = .complete d := by
  induction ts generalizing last r with
  | nil => exact absurd h (not_flawless_nil (by simp))
  | cons t ts ih =>
      cases hadvance : r.advance .block t t with
      | rejected p depth =>
          obtain ⟨q, hq⟩ := problem_of_reading last enclosing owner hadvance ts
          exact absurd (List.mem_append_left _ hq) (h q)
      | complete d => exact ⟨[], t, ts, r, d, rfl, rfl, hadvance⟩
      | pending r₁ =>
          obtain ⟨last₁, hstep⟩ := step_reading last enclosing owner hadvance ts
          rw [run_cons hstep, List.nil_append] at h
          obtain ⟨pre, u, rest, r', d, rfl, hfeed, hend⟩ := ih last₁ h
          exact ⟨t :: pre, u, rest, r', d, rfl, by simp [Reading.feed, hadvance, hfeed], hend⟩

/-! ## Trees -/

/-- The tokens of a block of declarations, up to the brace that closes it. -/
theorem exists_declarations (owner : BlockOwner) (phase : BlockPhase)
    (hphase : phase = .opened ∨ phase = .between) {ts : List Token}
    (h : Signal.Flawless (run ⟨last, enclosing, .block owner phase⟩ ts)) :
    ∃ (d : Declarations) (closer : Mark '}') (rest : List Token),
      ts = d.tokens ++ closer.1 :: rest := by
  -- By the number of tokens, since a declaration takes several of them at once.
  induction hn : ts.length using Nat.strongRecOn generalizing last phase ts with
  | ind n ih =>
      cases ts with
      | nil => exact absurd h (not_flawless_nil (by simp))
      | cons t ts =>
          by_cases hblank : t.isBlank = true
          · have hstep : step ⟨last, enclosing, .block owner phase⟩ t ts =
                (⟨last, enclosing, .block owner phase⟩, []) := by
              simp only [step, settle, ignores, hblank, if_true]
            rw [run_cons hstep, List.nil_append] at h
            obtain ⟨d, closer, rest, rfl⟩ := ih ts.length (by simp [← hn]) last phase hphase h rfl
            exact ⟨.blank t hblank d, closer, rest, rfl⟩
          · by_cases hclose : t.isChar '}' = true
            · exact ⟨.nil, ⟨t, hclose⟩, ts, rfl⟩
            · by_cases hname : t.kind = .ident
              · obtain ⟨last₁, hstep⟩ := step_name last enclosing owner phase hphase ⟨t, hname⟩ ts
                rw [run_cons hstep, List.nil_append] at h
                obtain ⟨pre, u, rest, r', d, rfl, hfeed, hcomplete⟩ :=
                  exists_reading last₁ enclosing owner h
                obtain ⟨hends, draft, rfl, hvalue, rfl⟩ := Reading.of_advance_eq_complete hcomplete
                obtain ⟨p, htokens, -⟩ := exists_property_of_feed ⟨t, hname⟩ hfeed hvalue
                by_cases hu : u.isChar '}' = true
                · exact ⟨.last p, ⟨u, hu⟩, rest, by
                    rw [Declarations.tokens, htokens, List.cons_append]⟩
                · have hsemicolon : u.isChar ';' = true := by simpa [Setting.ends, hu] using hends
                  obtain ⟨last₂, hpre⟩ := run_reading last₁ enclosing owner hfeed (u :: rest)
                  obtain ⟨last₃, hend⟩ := step_reading_complete last₂ enclosing owner hcomplete rest
                  simp only [hu, Bool.false_eq_true, if_false] at hend
                  rw [hpre, run_cons hend] at h
                  have hlt : rest.length < n := by
                    simp only [← hn, List.length_cons, List.length_append]
                    omega
                  obtain ⟨ds, closer, rest', rfl⟩ :=
                    ih rest.length hlt last₃ .between (.inr rfl) h.append_right rfl
                  refine ⟨.cons p ⟨u, hsemicolon⟩ ds, closer, rest', ?_⟩
                  simp [Declarations.tokens, htokens]
              · obtain ⟨q, hq⟩ := problem_of_between last enclosing owner phase hphase
                  (by simpa using hblank) (by simpa using hclose) hname ts
                exact absurd (List.mem_append_left _ hq) (h q)

/-- Where statements end: at the end of the tokens, or before the brace that closes the block around
them. -/
def EndsStatements (enclosing : List String) (rest : List Token) : Prop :=
  enclosing = [] ∧ rest = [] ∨
    enclosing ≠ [] ∧ ∃ (closer : Mark '}') (us : List Token), rest = closer.1 :: us

/-- The tokens of an at-rule up to its semicolon or brace. -/
theorem exists_heading {t : Token} (hat : t.kind = .atKeyword) {ts : List Token}
    (h : Signal.Flawless (run ⟨last, enclosing, .statement⟩ (t :: ts))) :
    ∃ (heading : Heading) (u : Token) (rest : List Token),
      t :: ts = heading.tokens ++ u :: rest ∧ (u.isChar ';' = true ∨ u.isChar '{' = true) := by
  obtain ⟨last₁, hstep⟩ := step_atKeyword last enclosing hat ts
  rw [run_cons hstep, List.nil_append] at h
  obtain ⟨pre, u, rest, cs, rfl, hfeed, hu⟩ := exists_header last₁ enclosing
    (r := ⟨[], none⟩) h
  obtain ⟨v, rfl, -⟩ := Reader.exists_values_of_feed hfeed
  exact ⟨⟨⟨t, hat⟩, v⟩, u, rest, rfl, hu⟩

/-- The tokens of the selectors of a rule set and the brace behind them. -/
theorem exists_selectors {t : Token} {ts : List Token}
    (hseparates : separates enclosing.isEmpty t = false) (hat : t.kind ≠ .atKeyword)
    (hclose : enclosing = [] ∨ t.isChar '}' = false)
    (hchar : ∀ u ∈ t :: ts, u.kind = .char → ∃ c, u.text.toList = [c])
    (h : Signal.Flawless (run ⟨last, enclosing, .statement⟩ (t :: ts))) :
    ∃ (list : SelectorList) (opener : Mark '{') (rest : List Token),
      t :: ts = list.tokens ++ opener.1 :: rest := by
  have hblank : t.isBlank = false := by
    simp only [separates] at hseparates
    split at hseparates
    · simp only [TokenClass.topLevel, Bool.not_eq_false', Bool.and_eq_true,
        Bool.not_eq_true'] at hseparates
      exact hseparates.1.1
    · exact hseparates
  have hselecting : Signal.Flawless
      (run ⟨last, enclosing, .selecting (.ofLocation t.location)⟩ (t :: ts)) := by
    simpa only [run, step_statement last enclosing hseparates hblank hat hclose] using h
  obtain ⟨pre, u, rest, s', list, heq, hfeed, hend⟩ := exists_selecting last enclosing hselecting
  have hpre : ∀ v ∈ pre.head?, v.isBlank = false := by
    intro v hv
    cases pre with
    | nil => simp at hv
    | cons w ws =>
        cases heq
        rw [List.head?_cons, Option.mem_def, Option.some.injEq] at hv
        rw [← hv]
        exact hblank
  have hpreChar : ∀ v ∈ pre, v.kind = .char → ∃ c, v.text.toList = [c] :=
    fun v hv => hchar v (heq ▸ List.mem_append_left _ hv)
  obtain ⟨hopen, x, hx, -⟩ := exists_selectorList_of_feed hpre hpreChar hfeed hend
  exact ⟨x, ⟨u, hopen⟩, rest, by rw [heq, hx]⟩

/-! ## The first statement -/

/-- The tokens start with a statement, or with a separator: what stands behind it is read without a
problem as well, and whatever statements that makes up, the first one can stand before them. -/
def StartsStatement (ts : List Token) : Prop :=
  ∃ (used us : List Token) (last : Option Token), ts = used ++ us ∧ used ≠ [] ∧
    Signal.Flawless (run ⟨last, enclosing, .statement⟩ us) ∧
    ∀ {leads : Option Bool} (s : Statements enclosing.isEmpty leads),
      ∃ (leads' : Option Bool) (s' : Statements enclosing.isEmpty leads'),
        s'.tokens = used ++ s.tokens

theorem startsStatement_separator {t : Token} {ts : List Token}
    (hseparates : separates enclosing.isEmpty t = true)
    (h : Signal.Flawless (run ⟨last, enclosing, .statement⟩ (t :: ts))) :
    StartsStatement enclosing (t :: ts) := by
  have hstep : step ⟨last, enclosing, .statement⟩ t ts = (⟨last, enclosing, .statement⟩, []) := by
    have hignores : ignores ⟨last, enclosing, .statement⟩ t = true := hseparates
    simp only [step, settle, hignores, if_true]
  rw [run_cons hstep, List.nil_append] at h
  exact ⟨[t], ts, last, rfl, by simp, h, fun s => ⟨_, .separator t hseparates s, rfl⟩⟩

/-- An at-rule with declarations in its block. -/
theorem startsStatement_declared (heading : Heading) (opener : Mark '{') {ts : List Token}
    (h : Signal.Flawless (run ⟨last, enclosing, .block (.atRule heading.lowerName) .opened⟩ ts)) :
    StartsStatement enclosing (heading.tokens ++ opener.1 :: ts) := by
  obtain ⟨d, closer, us, rfl⟩ := exists_declarations last enclosing _ .opened (.inl rfl) h
  obtain ⟨last', hblock⟩ := run_declarations last enclosing d (.atRule heading.lowerName) .opened
    (.inl rfl) closer us
  rw [hblock, List.append_cons] at h
  refine ⟨heading.tokens ++ opener.1 :: (d.tokens ++ [closer.1]), us, last', by simp, by simp,
    h.append_right, fun s => ⟨_, .declared heading opener d closer s, ?_⟩⟩
  simp [Statements.tokens]

/-- An at-rule with statements in its block, which are found to be statements up to its end. -/
theorem startsStatement_nested (heading : Heading) (opener : Mark '{') {ts : List Token}
    (hholds : holdsStatements ts = true)
    (h : Signal.Flawless (run ⟨last, heading.lowerName :: enclosing, .statement⟩ ts))
    (hblock : ∃ (leads : Option Bool) (s : Statements false leads) (rest : List Token),
      ts = s.tokens ++ rest ∧ EndsStatements (heading.lowerName :: enclosing) rest) :
    StartsStatement enclosing (heading.tokens ++ opener.1 :: ts) := by
  obtain ⟨leads, block, after, rfl, hends⟩ := hblock
  obtain ⟨hne, -⟩ | ⟨-, closer, us, rfl⟩ := hends
  · cases hne
  -- The lookahead has found a block, so the first statement inside has one.
  obtain rfl := (block.holdsStatements_iff closer us).1 hholds
  obtain ⟨last₁, hrun⟩ := run_statements last (heading.lowerName :: enclosing) block rfl
    (closer.1 :: us)
  obtain ⟨last₂, hclose⟩ := step_statement_closeBrace last₁ enclosing heading.lowerName closer us
  rw [hrun, run_cons hclose] at h
  refine ⟨heading.tokens ++ opener.1 :: (block.tokens ++ [closer.1]), us, last₂, by simp, by simp,
    h.append_right.append_right, fun s => ⟨_, .nested heading opener block closer s, ?_⟩⟩
  simp [Statements.tokens]

/-- An at-rule. If its block holds statements, those are found by `hblock`. -/
theorem startsStatement_atRule {t : Token} (hat : t.kind = .atKeyword) {ts : List Token}
    (h : Signal.Flawless (run ⟨last, enclosing, .statement⟩ (t :: ts)))
    (hblock : ∀ (used us : List Token) (name : String) (last' : Option Token),
      t :: ts = used ++ us → used ≠ [] →
      Signal.Flawless (run ⟨last', name :: enclosing, .statement⟩ us) →
      ∃ (leads : Option Bool) (s : Statements false leads) (rest : List Token),
        us = s.tokens ++ rest ∧ EndsStatements (name :: enclosing) rest) :
    StartsStatement enclosing (t :: ts) := by
  obtain ⟨heading, u, rest, heq, hu⟩ := exists_heading last enclosing hat h
  obtain ⟨last₁, hheading⟩ := run_heading last enclosing heading (u :: rest)
  rw [heq, hheading] at h
  rw [heq]
  rcases hu with hsemicolon | hopen
  · obtain ⟨last₂, hend⟩ := step_header_semicolon last₁ enclosing heading.lowerName
      heading.name.1.location heading.parameters.latest ⟨u, hsemicolon⟩ rest
    rw [run_cons hend] at h
    refine ⟨heading.tokens ++ [u], rest, last₂, by simp, by simp, h.append_right,
      fun s => ⟨_, .plain heading ⟨u, hsemicolon⟩ s, ?_⟩⟩
    simp [Statements.tokens]
  · obtain ⟨last₂, hstep⟩ := step_header_openBrace last₁ enclosing heading.lowerName
      heading.name.1.location heading.parameters.latest ⟨u, hopen⟩ rest
    rw [run_cons hstep] at h
    by_cases hholds : holdsStatements rest = true
    · simp only [hholds, if_true] at h
      exact startsStatement_nested last₂ enclosing heading ⟨u, hopen⟩ hholds h.append_right
        (hblock (heading.tokens ++ [u]) rest heading.lowerName last₂ (by simp [heq]) (by simp)
          h.append_right)
    · simp only [hholds, Bool.false_eq_true, if_false] at h
      exact startsStatement_declared last₂ enclosing heading ⟨u, hopen⟩ h.append_right

theorem startsStatement_ruleSet {t : Token} {ts : List Token}
    (hseparates : separates enclosing.isEmpty t = false) (hat : t.kind ≠ .atKeyword)
    (hclose : enclosing = [] ∨ t.isChar '}' = false)
    (hchar : ∀ u ∈ t :: ts, u.kind = .char → ∃ c, u.text.toList = [c])
    (h : Signal.Flawless (run ⟨last, enclosing, .statement⟩ (t :: ts))) :
    StartsStatement enclosing (t :: ts) := by
  obtain ⟨x, opener, rest, heq⟩ := exists_selectors last enclosing hseparates hat hclose hchar h
  obtain ⟨last₁, hselectors⟩ := run_selectors last enclosing x opener rest
  rw [heq, hselectors, ← List.singleton_append] at h
  obtain ⟨d, closer, us, rfl⟩ := exists_declarations last₁ enclosing (.selectors x.selectors)
    .opened (.inl rfl) h.append_right
  obtain ⟨last₂, hblock⟩ := run_declarations last₁ enclosing d (.selectors x.selectors) .opened
    (.inl rfl) closer us
  rw [hblock, List.append_cons] at h
  refine ⟨x.tokens ++ opener.1 :: (d.tokens ++ [closer.1]), us, last₂, by simp [heq], by simp,
    h.append_right.append_right, fun s => ⟨_, .rule x opener d closer s, ?_⟩⟩
  simp [Statements.tokens]

/-- **The tokens of statements**, up to the end or the brace that closes the block around them. -/
theorem exists_statements {ts : List Token}
    (hchar : ∀ u ∈ ts, u.kind = .char → ∃ c, u.text.toList = [c])
    (h : Signal.Flawless (run ⟨last, enclosing, .statement⟩ ts)) :
    ∃ (leads : Option Bool) (s : Statements enclosing.isEmpty leads) (rest : List Token),
      ts = s.tokens ++ rest ∧ EndsStatements enclosing rest := by
  induction hn : ts.length using Nat.strongRecOn generalizing last enclosing ts with
  | ind n ih =>
      -- Fewer tokens are left behind a statement, and in the block of an at-rule.
      have hfewer : ∀ (used us : List Token) (enclosing' : List String) (last' : Option Token),
          ts = used ++ us → used ≠ [] →
          Signal.Flawless (run ⟨last', enclosing', .statement⟩ us) →
          ∃ (leads : Option Bool) (s : Statements enclosing'.isEmpty leads) (rest : List Token),
            us = s.tokens ++ rest ∧ EndsStatements enclosing' rest := by
        intro used us enclosing' last' heq hused hflawless
        have hpos : 0 < used.length := List.length_pos_iff.2 hused
        have hlength : us.length < n := by
          rw [← hn, heq, List.length_append]
          omega
        exact ih us.length hlength last' enclosing'
          (fun u hu => hchar u (heq ▸ List.mem_append_right _ hu)) hflawless rfl
      cases ts with
      | nil =>
          have htop := (atTop_of_finish _ h.complete).enclosing
          exact ⟨none, .nil, [], rfl, .inl ⟨htop, rfl⟩⟩
      | cons t ts =>
          by_cases hclose : enclosing ≠ [] ∧ t.isChar '}' = true
          · exact ⟨none, .nil, t :: ts, rfl, .inr ⟨hclose.1, ⟨t, hclose.2⟩, ts, rfl⟩⟩
          have hclose' : enclosing = [] ∨ t.isChar '}' = false := by
            by_cases hne : enclosing = []
            · exact .inl hne
            · exact .inr (by simpa [hne] using hclose)
          have hstarts : StartsStatement enclosing (t :: ts) := by
            by_cases hseparates : separates enclosing.isEmpty t = true
            · exact startsStatement_separator last enclosing hseparates h
            by_cases hat : t.kind = .atKeyword
            · exact startsStatement_atRule last enclosing hat h
                (fun used us name last' => hfewer used us (name :: enclosing) last')
            · exact startsStatement_ruleSet last enclosing (by simpa using hseparates) hat hclose'
                hchar h
          obtain ⟨used, us, last', heq, hused, hflawless, hbefore⟩ := hstarts
          obtain ⟨leads, s, rest, rfl, hends⟩ := hfewer used us enclosing last' heq hused hflawless
          obtain ⟨leads', s', htokens⟩ := hbefore s
          exact ⟨leads', s', rest, by rw [heq, htokens, List.append_assoc], hends⟩

end Steps

end Sheet

namespace Concrete

/-- **Tokens that are read as a style sheet without a problem are those of a well-formed one.** -/
theorem exists_styleSheet_of_flawless {ts : List Token}
    (hchar : ∀ u ∈ ts, u.kind = .char → ∃ c, u.text.toList = [c])
    (h : Signal.Flawless (Sheet.signals ts)) :
    ∃ s : StyleSheet, s.tokens = ts := by
  have hrun : Signal.Flawless (Sheet.initial.run ts) :=
    fun p hp => h p (by simp [Sheet.signals, hp])
  obtain ⟨leads, s, rest, rfl, hends⟩ := Sheet.exists_statements none [] hchar hrun
  obtain ⟨-, rfl⟩ | ⟨hne, -⟩ := hends
  · exact ⟨⟨leads, s⟩, (List.append_nil _).symm⟩
  · exact absurd rfl hne

end Concrete

end EpubStyle
