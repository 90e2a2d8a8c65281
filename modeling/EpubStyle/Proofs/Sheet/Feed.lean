import EpubStyle.Grammar.Sheet

/-!
# Running over part of the tokens

`Sheet.run` takes all tokens that are left and finishes. `Sheet.feed` takes only some of them, with
the tokens `behind` after them in sight, and hands back the state that it reaches. A run over two
lists is a feed of the first and a run over the second (`run_append`), and a feed of two lists is
one feed after the other (`feed_append`).

The only lookahead of the machine is `holdsStatements`, so two lists ahead that agree on it give
the same step (`step_congr`).
-/

set_option autoImplicit false

namespace EpubStyle

namespace Sheet

/-- Take the given tokens, with the tokens `behind` after them, and do not finish. -/
def feed (behind : List Token) (m : Sheet) : List Token → SheetStep
  | [] => (m, [])
  | t :: ts =>
      let stepped := m.step t (ts ++ behind)
      let fed := feed behind stepped.1 ts
      (fed.1, stepped.2 ++ fed.2)

@[simp] theorem feed_nil (behind : List Token) (m : Sheet) : feed behind m [] = (m, []) := rfl

/-- A run over two lists feeds the first and goes on with the second. -/
theorem run_append (m : Sheet) (ts behind : List Token) :
    m.run (ts ++ behind) = (feed behind m ts).2 ++ (feed behind m ts).1.run behind := by
  induction ts generalizing m with
  | nil => rfl
  | cons t ts ih => simp [run, feed, ih]

/-- Feeding two lists is feeding one after the other. -/
theorem feed_append (behind : List Token) (m : Sheet) (ts us : List Token) :
    feed behind m (ts ++ us) =
      ((feed behind (feed (us ++ behind) m ts).1 us).1,
        (feed (us ++ behind) m ts).2 ++ (feed behind (feed (us ++ behind) m ts).1 us).2) := by
  induction ts generalizing m with
  | nil => rfl
  | cons t ts ih => simp [feed, ih]

/-! ## Lookahead -/

/-- A brace or semicolon settles the kind of a block, whatever follows it. -/
theorem holdsStatements_append {ts : List Token} (behind : List Token)
    (h : ∃ t ∈ ts, t.isOneOf ['{', ';', '}'] = true) :
    holdsStatements (ts ++ behind) = holdsStatements ts := by
  induction ts with
  | nil => simp at h
  | cons t ts ih =>
      by_cases hopen : t.isChar '{' = true
      · simp [holdsStatements, hopen]
      · by_cases hend : t.isOneOf [';', '}'] = true
        · simp [holdsStatements, hopen, hend]
        · have hrest : ∃ u ∈ ts, u.isOneOf ['{', ';', '}'] = true := by
            obtain ⟨u, hu, hc⟩ := h
            rcases List.mem_cons.1 hu with rfl | hu
            · simp_all [Token.isOneOf]
            · exact ⟨u, hu, hc⟩
          simp [holdsStatements, hopen, hend, ih hrest]

/-- Taking a token looks ahead only to tell what kind of block opens. -/
theorem take_congr (m : Sheet) (t : Token) {a b : List Token}
    (h : holdsStatements a = holdsStatements b) : m.take t a = m.take t b := by
  simp only [take, stepHeader, h]

/-- A step looks ahead only to tell what kind of block opens. -/
theorem step_congr (m : Sheet) (t : Token) {a b : List Token}
    (h : holdsStatements a = holdsStatements b) : m.step t a = m.step t b := by
  simp only [step, take_congr _ t h]

/-- A token that is no opening brace is taken without looking ahead. -/
theorem take_of_not_openBrace (m : Sheet) {t : Token} (a b : List Token)
    (h : t.isChar '{' = false) : m.take t a = m.take t b := by
  simp only [take, stepHeader, h, Bool.false_eq_true, if_false]

/-- Outside the parameters of an at-rule a token is taken without looking ahead. -/
theorem take_of_not_header (m : Sheet) (t : Token) (a b : List Token)
    (h : ∀ name location parameters nesting,
      m.phase ≠ .header name location parameters nesting) : m.take t a = m.take t b := by
  rcases m with ⟨last, enclosing, phase⟩
  cases phase with
  | header name location parameters nesting =>
      exact absurd rfl (h name location parameters nesting)
  | statement | selecting | skippingRule | skippingAtRule | block => rfl

end Sheet

end EpubStyle
