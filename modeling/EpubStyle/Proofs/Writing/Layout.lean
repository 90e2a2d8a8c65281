import EpubStyle.Proofs.Writing.Measures

/-!
# The tokens of legible strokes

Strokes that are legible are scanned as they were meant. `Laid` says which tokens stand for them: a
sign is tokens of its shape, and white space in a row is a single token. `laid_scan` is the result:
the text of legible strokes is scanned without a fault, and its tokens are laid out as the strokes.

The inversions `Laid.sign`, `Laid.mark`, `Laid.gap`, `Laid.space` and `Laid.semicolon` take the
tokens of the first stroke off.
-/

set_option autoImplicit false

namespace EpubStyle

open Concrete Text

/-! ## What separates signs is read as it is written -/

namespace Lexeme

/-- White space is read up to its end. -/
theorem read_blank {c : Char} (h : isBlank c = true) (cs : List Char) :
    read c cs = ⟨.space, [' '], 1 + (cs.takeWhile isBlank).length, []⟩ := by
  have hprobe : probe c cs = [] := by
    simp only [isBlank, isLineBreak, Bool.or_eq_true, beq_iff_eq] at h
    rcases h with (rfl | rfl) | (rfl | rfl) | rfl <;> rfl
  simp [read, readBody, h, hprobe, Piece.withText, Piece.silent]

theorem read_importance (cs : List Char) :
    read '!' (['i', 'm', 'p', 'o', 'r', 't', 'a', 'n', 't'] ++ cs) =
      ⟨.important, ['!', 'i', 'm', 'p', 'o', 'r', 't', 'a', 'n', 't'], 10, []⟩ := by
  have hahead : importantAhead (['i', 'm', 'p', 'o', 'r', 't', 'a', 'n', 't'] ++ cs) = some 9 := by
    have hblank : isBlank 'i' = false := by decide
    simp [importantAhead, hblank, startsWord, sameLetter]
  have hbody : readBody '!' (['i', 'm', 'p', 'o', 'r', 't', 'a', 'n', 't'] ++ cs) =
      readSymbol '!' (['i', 'm', 'p', 'o', 'r', 't', 'a', 'n', 't'] ++ cs) := rfl
  rw [read, hbody, readSymbol, hahead]
  rfl

end Lexeme

/-! ## Tokens laid out as strokes -/

/-- The tokens stand for the strokes. White space in a row is a single token. -/
inductive Laid : List Stroke → List Token → Prop
  | nil : Laid [] []
  | blank {c : Char} {fits : isBlank c = true} {ss : List Stroke} {t : Token} {ts : List Token}
      (ht : t.kind = .space) (rest : Laid ss ts) : Laid (.blank c fits :: ss) (t :: ts)
  | merged {c d : Char} {fits : isBlank c = true} {fits' : isBlank d = true} {ss : List Stroke}
      {ts : List Token} (rest : Laid (.blank d fits' :: ss) ts) :
      Laid (.blank c fits :: .blank d fits' :: ss) ts
  | sign {x : Sign} {ss : List Stroke} {us ts : List Token} (h : x.Shape us) (rest : Laid ss ts) :
      Laid (.sign x :: ss) (us ++ ts)
  | importance {ss : List Stroke} {t : Token} {ts : List Token} (ht : t.kind = .important)
      (rest : Laid ss ts) : Laid (.importance :: ss) (t :: ts)
  | semicolon {ss : List Stroke} {t : Token} {ts : List Token} (ht : t.isChar ';' = true)
      (rest : Laid ss ts) : Laid (.semicolon :: ss) (t :: ts)

namespace Laid

/-- The layout does not depend on where tokens are placed. -/
theorem of_map_unplaced {ss : List Stroke} {ts : List Token}
    (h : Laid ss (ts.map Token.unplaced)) : Laid ss ts := by
  generalize hts : ts.map Token.unplaced = us at h
  induction h generalizing ts with
  | nil =>
      rw [List.map_eq_nil_iff.1 hts]
      exact .nil
  | blank ht rest ih =>
      obtain ⟨u, us, rfl, rfl, hus⟩ := List.map_eq_cons_iff.1 hts
      exact .blank ht (ih hus)
  | merged rest ih => exact .merged (ih hts)
  | sign h rest ih =>
      obtain ⟨vs, us, rfl, rfl, hus⟩ := List.map_eq_append_iff.1 hts
      exact .sign (Sign.shape_unplaced_iff.1 h) (ih hus)
  | importance ht rest ih =>
      obtain ⟨u, us, rfl, rfl, hus⟩ := List.map_eq_cons_iff.1 hts
      exact .importance ht (ih hus)
  | semicolon ht rest ih =>
      obtain ⟨u, us, rfl, rfl, hus⟩ := List.map_eq_cons_iff.1 hts
      exact .semicolon ht (ih hus)

/-! ## Taking off the first stroke -/

variable {ss : List Stroke} {ts : List Token}

theorem of_sign {x : Sign} (h : Laid (.sign x :: ss) ts) :
    ∃ us vs, ts = us ++ vs ∧ x.Shape us ∧ Laid ss vs := by
  cases h with
  | sign hx rest => exact ⟨_, _, rfl, hx, rest⟩

/-- A structural character. -/
theorem of_mark {c : Char} (h : Laid (.sign (.mark c) :: ss) ts) :
    ∃ (t : Mark c) (vs : List Token), ts = t.1 :: vs ∧ Laid ss vs := by
  obtain ⟨us, vs, rfl, ⟨-, t, rfl⟩, hrest⟩ := h.of_sign
  exact ⟨t, vs, rfl, hrest⟩

/-- White space that may be one with more behind it. -/
theorem of_blank {c : Char} {fits : isBlank c = true} (h : Laid (.blank c fits :: ss) ts) :
    ∃ (g : Gap) (vs : List Token), ts = g.1 ++ vs ∧ Laid ss vs := by
  cases h with
  | @blank _ _ _ t _ ht rest =>
      exact ⟨⟨[t], by simp [Token.isBlank, ht]⟩, _, rfl, rest⟩
  | merged rest => exact ⟨.empty, _, rfl, rest⟩

/-- White space before a sign. -/
theorem of_space {c : Char} {fits : isBlank c = true} {x : Sign}
    (h : Laid (.blank c fits :: .sign x :: ss) ts) :
    ∃ (t : Word .space) (vs : List Token), ts = t.1 :: vs ∧ Laid (.sign x :: ss) vs := by
  cases h with
  | blank ht rest => exact ⟨⟨_, ht⟩, _, rfl, rest⟩

theorem of_gap {spaced : Bool} (h : Laid (Stroke.gap spaced ++ ss) ts) :
    ∃ (g : Gap) (vs : List Token), ts = g.1 ++ vs ∧ Laid ss vs := by
  cases spaced with
  | false => exact ⟨.empty, ts, rfl, h⟩
  | true => exact h.of_blank

/-- A structural character at the end of a line. -/
theorem of_line {c d : Char} {fits : isBlank d = true}
    (h : Laid (.sign (.mark c) :: .blank d fits :: ss) ts) :
    ∃ (t : Mark c) (after : Gap) (vs : List Token), ts = t.1 :: (after.1 ++ vs) ∧ Laid ss vs := by
  obtain ⟨t, _, rfl, hgap⟩ := h.of_mark
  obtain ⟨after, vs, rfl, hrest⟩ := hgap.of_blank
  exact ⟨t, after, vs, rfl, hrest⟩

theorem of_importance (h : Laid (.importance :: ss) ts) :
    ∃ (t : Word .important) (vs : List Token), ts = t.1 :: vs ∧ Laid ss vs := by
  cases h with
  | importance ht rest => exact ⟨⟨_, ht⟩, _, rfl, rest⟩

theorem of_semicolon (h : Laid (.semicolon :: ss) ts) :
    ∃ (t : Mark ';') (vs : List Token), ts = t.1 :: vs ∧ Laid ss vs := by
  cases h with
  | semicolon ht rest => exact ⟨⟨_, ht⟩, _, rfl, rest⟩

end Laid

/-! ## Legible strokes are laid out -/

/-- Strokes that do not start with white space have no blank at the front. -/
theorem takeWhile_texts {ss : List Stroke} (h : Legible ss)
    (hblank : ∀ c fits rest, ss ≠ .blank c fits :: rest) :
    (Stroke.texts ss).toList.takeWhile isBlank = [] := by
  cases ss with
  | nil => rfl
  | cons s ss =>
      cases s with
      | blank c fits => exact absurd rfl (hblank c fits ss)
      | sign x =>
          obtain ⟨ps, hcuts, -, hshape⟩ := h.1
          obtain ⟨c, cs, htext, hc⟩ := (Sign.fits hcuts hshape).solid
          have hnotBlank : isBlank c = false := isBlank_of_isWeightless hc
          simp [Stroke.texts, Stroke.text, htext, hnotBlank]
      | importance | semicolon =>
          rw [Stroke.texts, String.toList_append]
          rfl

/-- One more cutting in front. -/
theorem cuts_cons {c : Char} {cs : List Char} {l : Lexeme} {ps : List Cutting}
    (hread : Lexeme.read c (cs ++ raws ps) = l) (hlength : l.piece.length = cs.length + 1)
    (hnotes : l.piece.notes = []) (h : Cuts [] ps) : Cuts [] (⟨c :: cs, l⟩ :: ps) := by
  refine ⟨⟨c, cs, rfl, ?_, hlength⟩, fun n hn => ?_, h⟩
  · rw [List.append_nil, hread]
  · rw [hnotes] at hn
    cases hn

/-- White space in front of what is cut. -/
theorem exists_cuts_blank {c : Char} (fits : isBlank c = true) {ss : List Stroke} (h : Legible ss)
    {ps : List Cutting} (hps : Cuts [] ps) (hraws : raws ps = (Stroke.texts ss).toList)
    (hlaid : Laid ss (cutTokens ps)) :
    ∃ qs, Cuts [] qs ∧ raws qs = c :: raws ps ∧ Laid (.blank c fits :: ss) (cutTokens qs) := by
  -- White space in front of more white space becomes one token with it.
  by_cases hblank : ∃ d fits' rest, ss = .blank d fits' :: rest
  · obtain ⟨d, fits', rest, rfl⟩ := hblank
    cases ps with
    | nil => simp [Stroke.texts, Stroke.text] at hraws
    | cons p ps =>
        obtain ⟨⟨e, cs, hraw, hlexeme, hlength⟩, -, hrest⟩ := hps
        rw [List.append_nil] at hlexeme
        obtain rfl : e = d := by
          rw [raws_cons, hraw, Stroke.texts, String.toList_append, Stroke.text,
            String.toList_singleton] at hraws
          exact (List.cons.inj hraws).1
        rw [Lexeme.read_blank fits'] at hlexeme
        have hread := Lexeme.read_blank fits ((e :: cs) ++ raws ps)
        refine ⟨⟨c :: e :: cs, _⟩ :: ps, cuts_cons hread ?_ rfl hrest, by simp [hraw], ?_⟩
        · rw [hlexeme, hraw] at hlength
          simp only [List.cons_append, List.takeWhile_cons, fits', if_true, List.length_cons]
            at hlength ⊢
          omega
        · rw [cutTokens_cons, hlexeme] at hlaid
          exact .merged hlaid
  · have htake : (raws ps).takeWhile isBlank = [] := by
      rw [hraws]
      exact takeWhile_texts h (fun d fits' rest heq => hblank ⟨d, fits', rest, heq⟩)
    have hread := Lexeme.read_blank fits ([] ++ raws ps)
    refine ⟨⟨[c], _⟩ :: ps, cuts_cons hread ?_ rfl hps, rfl, .blank rfl hlaid⟩
    simp [htake]

/-- **Legible strokes are cut as they were meant.** -/
theorem exists_cuts_of_legible {ss : List Stroke} (h : Legible ss) :
    ∃ ps, Cuts [] ps ∧ raws ps = (Stroke.texts ss).toList ∧ Laid ss (cutTokens ps) := by
  induction ss with
  | nil => exact ⟨[], trivial, rfl, .nil⟩
  | cons s ss ih =>
      cases s with
      | blank c fits =>
          have hss : Legible ss := h
          obtain ⟨ps, hps, hraws, hlaid⟩ := ih hss
          obtain ⟨qs, hqs, hraws', hlaid'⟩ := exists_cuts_blank fits hss hps hraws hlaid
          exact ⟨qs, hqs, by simp [hraws', hraws, Stroke.texts, Stroke.text], hlaid'⟩
      | sign x =>
          obtain ⟨ps, hps, hraws, hlaid⟩ := ih h.2
          obtain ⟨qs, hqs, hwritten, hshape⟩ := h.1
          refine ⟨qs ++ ps, cuts_append.2 ⟨?_, hps⟩, ?_, ?_⟩
          · rwa [hraws, List.append_nil]
          · simp [hwritten, hraws, Stroke.texts, Stroke.text]
          · rw [cutTokens_append]
            exact .sign hshape hlaid
      | importance =>
          obtain ⟨ps, hps, hraws, hlaid⟩ := ih h
          exact ⟨_, cuts_cons (Lexeme.read_importance _) rfl rfl hps,
            by simp [hraws, Stroke.texts, Stroke.text], .importance rfl hlaid⟩
      | semicolon =>
          obtain ⟨ps, hps, hraws, hlaid⟩ := ih h
          have hread : Lexeme.read ';' ([] ++ raws ps) = _ := Lexeme.read_semicolon _
          exact ⟨_, cuts_cons hread rfl rfl hps, by simp [hraws, Stroke.texts, Stroke.text],
            .semicolon rfl hlaid⟩

/-- **The text of legible strokes is scanned without a fault, and its tokens are laid out as the
strokes.** -/
theorem laid_scan {ss : List Stroke} (h : Legible ss) (source : String) :
    Laid ss ((scan (Stroke.texts ss) source).map Scanned.token) ∧
      Signal.Flawless (scanSignals (scan (Stroke.texts ss) source)) := by
  obtain ⟨ps, hps, hraws, hlaid⟩ := exists_cuts_of_legible h
  obtain ⟨htokens, hflawless⟩ := scan_of_cuts source {} hps
  rw [scan, ← hraws]
  refine ⟨Laid.of_map_unplaced ?_, hflawless⟩
  rw [List.map_map]
  rw [← htokens] at hlaid
  exact hlaid

end EpubStyle
