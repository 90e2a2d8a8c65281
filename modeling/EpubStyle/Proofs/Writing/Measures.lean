import EpubStyle.Proofs.Concrete.SignTexts
import EpubStyle.Proofs.Writing.Legibility

/-!
# Signs are not written longer than they were read

Cuttings that have the shape of a sign were read from at least as many characters as are written for
the sign, and from characters of at least its weight. If the weights are the same then so are the
numbers, unless blanks around an address were dropped (`Sign.fits`).
-/

set_option autoImplicit false

namespace EpubStyle

open Concrete Text Lexeme

/-! ## The tokens of a sign -/

theorem Lexeme.separator_token_iff {l : Lexeme} :
    TokenClass.separator l.token = true ↔ l.Separates := by
  simp [TokenClass.separator, Lexeme.Separates, Token.isBlank, Token.isChar, token, or_assoc]

namespace Sign.Shape

/-- A sign has at least one token. -/
theorem ne_nil {x : Sign} (h : x.Shape []) : False := by
  cases x with
  | mark c => obtain ⟨-, t, h⟩ := h; cases h
  | value kind text | quantity text m | group d | matching o => obtain ⟨t, -, h⟩ := h; cases h
  | function name | property name | atKeyword name => obtain ⟨t, -, h⟩ := h; cases h
  | typeName text => obtain ⟨n, -, h⟩ := h; cases h
  | pseudo kind name | pseudoFunction kind name => obtain ⟨colons, t, -, -, h⟩ := h; cases h

/-- Only a sign that is a string has a string among its tokens. -/
theorem string_or {x : Sign} {ts : List Token} (h : x.Shape ts) :
    (∃ t : Token, ts = [t] ∧ t.kind = .string ∧ x = .value .string t.text) ∨
      (∀ t ∈ ts, t.kind ≠ .string) ∧ x.written = x.text := by
  have hnames (hts : ∀ t ∈ ts, t.kind ∈ [.ident, .function, .char]) (t : Token) (ht : t ∈ ts) :
      t.kind ≠ .string := by
    intro hk
    simpa [hk] using hts t ht
  cases x with
  | value kind text =>
      obtain ⟨t, hstart, rfl⟩ := h
      obtain ⟨rfl, hstring⟩ := Token.of_valueStart_atom hstart
      cases kind with
      | string => exact .inl ⟨t, rfl, hstring.2 rfl, rfl⟩
      | _ => exact .inr ⟨by simp [hstring], rfl⟩
  | quantity text m | group d =>
      obtain ⟨t, hstart, rfl⟩ := h
      refine .inr ⟨List.forall_mem_singleton.2 fun hk => ?_, rfl⟩
      simp [Token.valueStart, hk] at hstart
  | mark c =>
      obtain ⟨-, t, rfl⟩ := h
      exact .inr ⟨by simp [Token.kind_of_isChar t.2], rfl⟩
  | matching o =>
      obtain ⟨t, ho, rfl⟩ := h
      refine .inr ⟨List.forall_mem_singleton.2 fun hk => ?_, rfl⟩
      simp [MatchOperator.ofToken?, hk] at ho
  | function name | property name | atKeyword name =>
      obtain ⟨t, -, rfl⟩ := h
      exact .inr ⟨by simp [t.2], rfl⟩
  | typeName text =>
      obtain ⟨n, -, rfl⟩ := h
      exact .inr ⟨hnames (fun t ht => (n.tokens_mem t ht).1), rfl⟩
  | pseudo kind name | pseudoFunction kind name =>
      obtain ⟨colons, t, -, -, rfl⟩ := h
      refine .inr ⟨fun u hu => ?_, rfl⟩
      rw [← List.cons_append] at hu
      rcases List.mem_append.1 hu with hu | hu
      · simp [(colons.tokens_mem u hu).1]
      · simp [List.mem_singleton.1 hu, t.2]

end Sign.Shape

/-! ## What is written for cuttings -/

/-- Cuttings as they are written back. -/
def writtenBack (us : List Cutting) : List Char := us.flatMap (fun p => p.lexeme.written)

theorem writtenBack_cons (p : Cutting) (us : List Cutting) :
    writtenBack (p :: us) = p.lexeme.written ++ writtenBack us := rfl

/-- Cuttings that are no strings are written back as their texts. -/
theorem writtenBack_eq {us : List Cutting} (h : ∀ t ∈ cutTokens us, t.kind ≠ .string) :
    writtenBack us = (joinedText (cutTokens us)).toList := by
  induction us with
  | nil => rfl
  | cons p us ih =>
      have hp : p.lexeme.kind ≠ .string := h p.lexeme.token (List.mem_cons_self ..)
      rw [writtenBack_cons, ih (fun t ht => h t (List.mem_cons_of_mem _ ht))]
      simp [Lexeme.written, hp, joinedText, Lexeme.token]

/-- What is written for a sign is what its cuttings are written back as, up to case. -/
theorem Sign.Shape.map_toLower_written {x : Sign} {us : List Cutting}
    (h : x.Shape (cutTokens us)) (hshape : ∀ t ∈ cutTokens us, t.Shaped) :
    x.written.toList.map Char.toLower = (writtenBack us).map Char.toLower := by
  obtain ⟨t, htokens, hkind, rfl⟩ | ⟨hkinds, hwritten⟩ := h.string_or
  · obtain ⟨p, rfl, rfl⟩ := List.map_eq_singleton_iff.1 htokens
    have hkind' : p.lexeme.kind = .string := hkind
    simp [writtenBack, Lexeme.written, hkind', Sign.written, Lexeme.token]
  · rw [writtenBack_eq hkinds, hwritten]
    exact (h.folded_joinedText hshape).symm

/-- The first text is written for what is read from the second. -/
structure Fits (text raw : List Char) : Prop where
  solid : Solid text
  front : Solid raw
  weight_le : weight text ≤ weight raw
  length_le : text.length ≤ raw.length
  tight : weight text = weight raw → text.length = raw.length ∨ raw.getLast? = some ')'

theorem measured_of_cuts {behind : List Char} {us : List Cutting} (h : Cuts behind us)
    (hsep : ∀ t ∈ cutTokens us, TokenClass.separator t = false) :
    ∀ p ∈ us, p.lexeme.Measured p.raw := by
  intro p hp
  refine (readFrom_of_cuts h p hp).measured (fun hseparates => ?_)
  have htoken := hsep p.lexeme.token (List.mem_map.2 ⟨p, hp, rfl⟩)
  rw [Lexeme.separator_token_iff.2 hseparates] at htoken
  cases htoken

theorem sums_of_measured {us : List Cutting} (h : ∀ p ∈ us, p.lexeme.Measured p.raw) :
    weight (writtenBack us) ≤ weight (raws us) ∧ (writtenBack us).length ≤ (raws us).length := by
  induction us with
  | nil => exact ⟨Nat.le_refl _, Nat.le_refl _⟩
  | cons p us ih =>
      obtain ⟨hweight, hlength⟩ := ih (fun q hq => h q (List.mem_cons_of_mem _ hq))
      have hp := h p (List.mem_cons_self ..)
      rw [writtenBack_cons, raws_cons, weight_append, weight_append, List.length_append,
        List.length_append]
      exact ⟨Nat.add_le_add hp.weight_le hweight, Nat.add_le_add hp.length_le hlength⟩

/-- Cuttings that are no addresses shrink. -/
theorem shrinks_of_measured {us : List Cutting} (h : ∀ p ∈ us, p.lexeme.Measured p.raw)
    (hkind : ∀ p ∈ us, p.lexeme.kind ≠ .uri) : Shrinks (writtenBack us) (raws us) := by
  induction us with
  | nil => exact .refl _
  | cons p us ih =>
      have hp := h p (List.mem_cons_self ..)
      rw [writtenBack_cons, raws_cons]
      refine Shrinks.append ⟨hp.weight_le, hp.length_le, fun heq => ?_⟩
        (ih (fun q hq => h q (List.mem_cons_of_mem _ hq))
          (fun q hq => hkind q (List.mem_cons_of_mem _ hq)))
      rcases hp.tight heq with hlength | ⟨huri, -⟩
      · exact hlength
      · exact absurd huri (hkind p (List.mem_cons_self ..))

/-- Cuttings have the shape of their kind. -/
theorem shaped_of_cuts {behind : List Char} {us : List Cutting} (h : Cuts behind us) :
    ∀ t ∈ cutTokens us, t.Shaped := by
  induction us with
  | nil => simp
  | cons p us ih =>
      obtain ⟨⟨c, cs, -, hlexeme, -⟩, -, hrest⟩ := h
      intro t ht
      rcases List.mem_cons.1 ht with rfl | ht
      · show p.lexeme.token.Shaped
        rw [hlexeme]
        exact Lexeme.shaped_read c _
      · exact ih hrest t ht

/-- Cuttings that are no separators start with a character that weighs something. -/
theorem solid_of_stands {p : Cutting} {behind : List Char} (h : p.Stands behind)
    (hsep : TokenClass.separator p.lexeme.token = false) : Solid p.raw := by
  obtain ⟨c, cs, hraw, hlexeme, -⟩ := h
  refine ⟨c, cs, hraw, ?_⟩
  rw [← Bool.not_eq_true]
  intro hc
  rw [hlexeme, Lexeme.separator_token_iff.2 (separates_of_isWeightless hc _)] at hsep
  cases hsep

/-- **Signs are not written longer than they were read.** -/
theorem Sign.fits {x : Sign} {behind : List Char} {us : List Cutting} (hcuts : Cuts behind us)
    (h : x.Shape (cutTokens us)) : Fits x.written.toList (raws us) := by
  cases us with
  | nil => exact absurd h Sign.Shape.ne_nil
  | cons p us =>
      have hmeasured := measured_of_cuts hcuts h.not_separator
      obtain ⟨hweight, hlength⟩ := sums_of_measured hmeasured
      have hlower := h.map_toLower_written (shaped_of_cuts hcuts)
      have hsameWeight : weight x.written.toList = weight (writtenBack (p :: us)) := by
        rw [← weight_map_toLower, hlower, weight_map_toLower]
      have hsameLength : x.written.toList.length = (writtenBack (p :: us)).length := by
        rw [← List.length_map (f := Char.toLower), hlower, List.length_map]
      refine ⟨?_, ?_, hsameWeight ▸ hweight, hsameLength ▸ hlength, fun heq => ?_⟩
      · exact ((hmeasured p (List.mem_cons_self ..)).solid.append _).congr hlower
      · exact (solid_of_stands hcuts.1 (h.not_separator _ (List.mem_cons_self ..))).append _
      · rw [hsameWeight] at heq
        rw [hsameLength]
        -- Only an address may be as heavy and yet shorter, and it is a single token.
        obtain ⟨t, hsingle⟩ | hkinds := h.single_or
        · obtain ⟨q, hq, rfl⟩ := List.map_eq_singleton_iff.1 hsingle
          rw [hq] at heq hmeasured ⊢
          have hback : writtenBack [q] = q.lexeme.written := by simp [writtenBack]
          have hraw : raws [q] = q.raw := by simp
          rw [hback, hraw] at heq ⊢
          exact ((hmeasured q (List.mem_singleton_self q)).tight heq).imp id And.right
        · refine .inl ((shrinks_of_measured hmeasured (fun q hq huri => ?_)).length_eq heq)
          have hmem := hkinds q.lexeme.token (List.mem_map.2 ⟨q, hq, rfl⟩)
          have hkind : q.lexeme.token.kind = .uri := huri
          rw [hkind] at hmem
          simp at hmem

end EpubStyle
