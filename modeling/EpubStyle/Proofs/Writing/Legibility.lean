import EpubStyle.Parse
import EpubStyle.Proofs.Sheet.Signals
import EpubStyle.Proofs.Token.Lexemes
import EpubStyle.Proofs.Token.Shapes
import EpubStyle.Proofs.Writing.Strokes

/-!
# Legible writing

What is written for a style sheet need not be read as it was meant: a string that holds an
apostrophe ends there, and a name behind a plus sign may open a Unicode range. Strokes are
legible if every sign among them is read back as itself where it stands: the scanner cuts its text
into tokens of its shape, whatever follows (`Legible`).

A `Cutting` is a lexeme with the characters that it was read from, and `Cuts` says that a row of
them is how a text is cut. Scanning a text gives the tokens of its cuttings
(`scan_of_cuts`), up to where they are placed (`Token.unplaced`), and no shape depends on that
(`Sign.shape_unplaced_iff`).
-/

set_option autoImplicit false

namespace EpubStyle

open Concrete

/-! ## Tokens without their places -/

namespace Token

theorem valueStart_unplaced_atom {t : Token} {kind : AtomKind} {text : String} :
    t.unplaced.valueStart = .atom (.atom kind text t.unplaced.location) ↔
      t.valueStart = .atom (.atom kind text t.location) := by
  rcases t with ⟨tokenKind, tokenText, location, faults⟩
  cases tokenKind
  case char =>
    simp only [unplaced, valueStart]
    split <;> simp
  all_goals simp [unplaced, valueStart]

theorem valueStart_unplaced_quantity {t : Token} {text : String} {m : Measure} :
    t.unplaced.valueStart = .atom (.quantity text m t.unplaced.location) ↔
      t.valueStart = .atom (.quantity text m t.location) := by
  rcases t with ⟨tokenKind, tokenText, location, faults⟩
  cases tokenKind
  case char =>
    simp only [unplaced, valueStart]
    split <;> simp
  all_goals simp [unplaced, valueStart]

theorem valueStart_unplaced_group {t : Token} {d : Delimiter} :
    t.unplaced.valueStart = .group d ↔ t.valueStart = .group d := by
  rcases t with ⟨tokenKind, tokenText, location, faults⟩
  cases tokenKind
  case char =>
    simp only [unplaced, valueStart]
    split <;> simp
  all_goals simp [unplaced, valueStart]

/-- A single token of some sort is one wherever it is placed, if its sort does not say where. -/
theorem exists_singleton_unplaced {P Q : Token → Prop} (h : ∀ t, P t.unplaced ↔ Q t)
    {ts : List Token} :
    (∃ t, P t ∧ ts.map unplaced = [t]) ↔ ∃ t, Q t ∧ ts = [t] := by
  constructor
  · rintro ⟨t, ht, hts⟩
    obtain ⟨u, rfl, rfl⟩ := List.map_eq_singleton_iff.1 hts
    exact ⟨u, (h u).1 ht, rfl⟩
  · rintro ⟨t, ht, rfl⟩
    exact ⟨t.unplaced, (h t).2 ht, rfl⟩

end Token

namespace Concrete

/-- The tokens of a name are those of a name wherever they are placed. -/
theorem TypeName.exists_map_unplaced (n : TypeName) :
    ∃ n' : TypeName, n'.text = n.text ∧ n'.tokens = n.tokens.map Token.unplaced := by
  cases n with
  | plain t => exact ⟨.plain ⟨t.1.unplaced, t.2⟩, rfl, rfl⟩
  | bare bar t => exact ⟨.bare ⟨bar.1.unplaced, bar.2⟩ ⟨t.1.unplaced, t.2⟩, rfl, rfl⟩
  | qualified space bar t =>
      exact ⟨.qualified ⟨space.1.unplaced, space.2⟩ ⟨bar.1.unplaced, bar.2⟩ ⟨t.1.unplaced, t.2⟩,
        rfl, rfl⟩

theorem TypeName.exists_of_map_unplaced {n : TypeName} {ts : List Token}
    (h : ts.map Token.unplaced = n.tokens) :
    ∃ n' : TypeName, n'.text = n.text ∧ n'.tokens = ts := by
  cases n with
  | plain t =>
      rcases t with ⟨t, ht⟩
      obtain ⟨u, rfl, rfl⟩ := List.map_eq_singleton_iff.1 h
      exact ⟨.plain ⟨u, ht⟩, rfl, rfl⟩
  | bare bar t =>
      rcases bar with ⟨bar, hbar⟩
      rcases t with ⟨t, ht⟩
      obtain ⟨u, us, rfl, rfl, hus⟩ := List.map_eq_cons_iff.1 h
      obtain ⟨v, rfl, rfl⟩ := List.map_eq_singleton_iff.1 hus
      exact ⟨.bare ⟨u, hbar⟩ ⟨v, ht⟩, rfl, rfl⟩
  | qualified space bar t =>
      rcases space with ⟨space, hspace⟩
      rcases bar with ⟨bar, hbar⟩
      rcases t with ⟨t, ht⟩
      obtain ⟨u, us, rfl, rfl, hus⟩ := List.map_eq_cons_iff.1 h
      obtain ⟨v, vs, rfl, rfl, hvs⟩ := List.map_eq_cons_iff.1 hus
      obtain ⟨w, rfl, rfl⟩ := List.map_eq_singleton_iff.1 hvs
      exact ⟨.qualified ⟨u, hspace⟩ ⟨v, hbar⟩ ⟨w, ht⟩, rfl, rfl⟩

/-- Colons before one more token are colons wherever they are placed. -/
theorem Colons.exists_map_unplaced (c : Colons) :
    ∃ c' : Colons, c'.kind = c.kind ∧ c'.first = c.first.unplaced ∧
      c'.rest = c.rest.map Token.unplaced := by
  cases c with
  | one colon => exact ⟨.one ⟨colon.1.unplaced, colon.2⟩, rfl, rfl, rfl⟩
  | two colon second =>
      exact ⟨.two ⟨colon.1.unplaced, colon.2⟩ ⟨second.1.unplaced, second.2⟩, rfl, rfl, rfl⟩

theorem Colons.exists_of_map_unplaced {c : Colons} {t : Token} {ts : List Token}
    (h : ts.map Token.unplaced = c.first :: (c.rest ++ [t])) :
    ∃ (c' : Colons) (u : Token), c'.kind = c.kind ∧ u.unplaced = t ∧
      ts = c'.first :: (c'.rest ++ [u]) := by
  cases c with
  | one colon =>
      rcases colon with ⟨colon, hcolon⟩
      obtain ⟨u, us, rfl, rfl, hus⟩ := List.map_eq_cons_iff.1 h
      obtain ⟨v, rfl, rfl⟩ := List.map_eq_singleton_iff.1 hus
      exact ⟨.one ⟨u, hcolon⟩, v, rfl, rfl, rfl⟩
  | two colon second =>
      rcases colon with ⟨colon, hcolon⟩
      rcases second with ⟨second, hsecond⟩
      obtain ⟨u, us, rfl, rfl, hus⟩ := List.map_eq_cons_iff.1 h
      obtain ⟨v, vs, rfl, rfl, hvs⟩ := List.map_eq_cons_iff.1 hus
      obtain ⟨w, rfl, rfl⟩ := List.map_eq_singleton_iff.1 hvs
      exact ⟨.two ⟨u, hcolon⟩ ⟨v, hsecond⟩, w, rfl, rfl, rfl⟩

end Concrete

/-- **The shape of a sign does not depend on where its tokens are placed.** -/
theorem Sign.shape_unplaced_iff {x : Sign} {ts : List Token} :
    x.Shape (ts.map Token.unplaced) ↔ x.Shape ts := by
  cases x with
  | mark c =>
      simp only [Sign.Shape, Subtype.exists, exists_prop]
      exact and_congr_right fun _ => Token.exists_singleton_unplaced fun _ => Iff.rfl
  | value kind text => exact Token.exists_singleton_unplaced fun _ => Token.valueStart_unplaced_atom
  | quantity text m =>
      exact Token.exists_singleton_unplaced fun _ => Token.valueStart_unplaced_quantity
  | group d => exact Token.exists_singleton_unplaced fun _ => Token.valueStart_unplaced_group
  | matching o => exact Token.exists_singleton_unplaced fun _ => Iff.rfl
  | function name | property name | atKeyword name =>
      simp only [Sign.Shape, Subtype.exists, exists_prop, ← and_assoc]
      exact Token.exists_singleton_unplaced fun _ => Iff.rfl
  | typeName text =>
      constructor
      · rintro ⟨n, rfl, h⟩
        obtain ⟨n', hn, rfl⟩ := TypeName.exists_of_map_unplaced h
        exact ⟨n', hn, rfl⟩
      · rintro ⟨n, rfl, rfl⟩
        obtain ⟨n', hn, htokens⟩ := n.exists_map_unplaced
        exact ⟨n', hn, htokens.symm⟩
  | pseudo kind name | pseudoFunction kind name =>
      constructor
      · rintro ⟨colons, ⟨t, ht⟩, rfl, rfl, h⟩
        obtain ⟨colons', u, hkind, rfl, rfl⟩ := Colons.exists_of_map_unplaced h
        exact ⟨colons', ⟨u, ht⟩, hkind, rfl, rfl⟩
      · rintro ⟨colons, t, rfl, rfl, rfl⟩
        obtain ⟨colons', hkind, hfirst, hrest⟩ := colons.exists_map_unplaced
        exact ⟨colons', ⟨t.1.unplaced, t.2⟩, hkind, rfl, by simp [hfirst, hrest]⟩

/-! ## Cutting a text -/

/-- A lexeme with the characters that it was read from. -/
structure Cutting where
  raw : List Char
  lexeme : Lexeme

/-- The characters of cuttings in a row. -/
def raws (ps : List Cutting) : List Char := ps.flatMap Cutting.raw

/-- The tokens of cuttings. -/
def cutTokens (ps : List Cutting) : List Token := ps.map (fun p => p.lexeme.token)

section Lists

variable (p : Cutting) (ps qs : List Cutting)

@[simp] theorem raws_nil : raws [] = [] := rfl

@[simp] theorem raws_cons : raws (p :: ps) = p.raw ++ raws ps := by simp [raws]

@[simp] theorem raws_append : raws (ps ++ qs) = raws ps ++ raws qs := by simp [raws]

@[simp] theorem cutTokens_nil : cutTokens [] = [] := rfl

@[simp] theorem cutTokens_cons : cutTokens (p :: ps) = p.lexeme.token :: cutTokens ps := rfl

@[simp] theorem cutTokens_append : cutTokens (ps ++ qs) = cutTokens ps ++ cutTokens qs := by
  simp [cutTokens]

end Lists

theorem exists_of_cutTokens_cons {ps : List Cutting} {t : Token} {ts : List Token}
    (h : cutTokens ps = t :: ts) :
    ∃ p qs, ps = p :: qs ∧ p.lexeme.token = t ∧ cutTokens qs = ts :=
  List.map_eq_cons_iff.1 h

theorem exists_of_cutTokens_append {ps : List Cutting} {us ts : List Token}
    (h : cutTokens ps = us ++ ts) :
    ∃ qs rs, ps = qs ++ rs ∧ cutTokens qs = us ∧ cutTokens rs = ts :=
  List.map_eq_append_iff.1 h

/-- A cutting is what the scanner reads before the text `behind`. -/
def Cutting.Stands (p : Cutting) (behind : List Char) : Prop :=
  ∃ c cs, p.raw = c :: cs ∧ p.lexeme = Lexeme.read c (cs ++ behind) ∧
    p.lexeme.piece.length = p.raw.length

/-- The cuttings are how the scanner cuts their text before the text `behind`, and nothing is wrong
with them. -/
def Cuts (behind : List Char) : List Cutting → Prop
  | [] => True
  | p :: ps => p.Stands (raws ps ++ behind) ∧ p.lexeme.Faultless ∧ Cuts behind ps

theorem cuts_append {behind : List Char} {ps qs : List Cutting} :
    Cuts behind (ps ++ qs) ↔ Cuts (raws qs ++ behind) ps ∧ Cuts behind qs := by
  induction ps with
  | nil => simp [Cuts]
  | cons p ps ih => simp [Cuts, ih, and_assoc]

/-- What a scanner says about a lexeme is no problem if the lexeme is faultless. -/
theorem flawless_ofLexeme {source : String} {p : Text.Place} {cs : List Char} {l : Lexeme}
    (h : l.Faultless) :
    ∀ e ∈ (Scanned.ofLexeme source p cs l).events, ∀ q, e.toSignal ≠ .problem q := by
  intro e he q
  obtain ⟨n, hn, rfl⟩ := List.mem_map.1 he
  have hfault := h n hn
  cases n with
  | fault steps code arguments => cases hfault
  | stepBack distance => simp [ScanEvent.ofNote, ScanEvent.toSignal]

/-- **Scanning a text gives the tokens of its cuttings.** -/
theorem scan_of_cuts (source : String) (p : Text.Place) {ps : List Cutting} (h : Cuts [] ps) :
    (scanFrom source p (raws ps)).map (fun s => s.token.unplaced) = cutTokens ps ∧
      Signal.Flawless (scanSignals (scanFrom source p (raws ps))) := by
  induction ps generalizing p with
  | nil => simp [scanFrom, scanSignals, Signal.Flawless]
  | cons q ps ih =>
      obtain ⟨⟨c, cs, hraw, hlexeme, hlength⟩, hfaultless, hrest⟩ := h
      rw [List.append_nil] at hlexeme
      have hdrop : (cs ++ raws ps).drop (q.lexeme.piece.length - 1) = raws ps := by
        simp [hlength, hraw]
      simp only [raws_cons, hraw, List.cons_append, scanFrom, ← hlexeme, hdrop]
      obtain ⟨htokens, hflawless⟩ :=
        ih (p.advance q.lexeme.piece.length (c :: (cs ++ raws ps))) hrest
      refine ⟨?_, fun problem hproblem => ?_⟩
      · rw [List.map_cons, htokens]
        rfl
      · rw [scanSignals, List.flatMap_cons, List.mem_append] at hproblem
        rcases hproblem with hproblem | hproblem
        · obtain ⟨e, he, hsignal⟩ := List.mem_map.1 hproblem
          exact flawless_ofLexeme hfaultless e he problem hsignal
        · exact hflawless problem hproblem

/-- A scanner that says nothing against a lexeme finds no fault in it. -/
theorem faultless_of_flawless {source : String} {p : Text.Place} {cs : List Char} {l : Lexeme}
    (h : ∀ e ∈ (Scanned.ofLexeme source p cs l).events, ∀ q, e.toSignal ≠ .problem q) :
    l.Faultless := by
  intro n hn
  have hevent := h (ScanEvent.ofNote source p cs n) (List.mem_map.2 ⟨n, hn, rfl⟩)
  cases n with
  | fault steps code arguments => exact absurd rfl (hevent _)
  | stepBack distance => rfl

/-- **A text that is scanned without a fault has cuttings.** -/
theorem exists_cuts {source : String} {p : Text.Place} {cs : List Char}
    (h : Signal.Flawless (scanSignals (scanFrom source p cs))) :
    ∃ ps, raws ps = cs ∧ Cuts [] ps := by
  fun_induction scanFrom source p cs with
  | case1 => exact ⟨[], rfl, trivial⟩
  | case2 p c cs l ih =>
      have hfaultless : l.Faultless := by
        have hevents : ∀ e ∈ (Scanned.ofLexeme source p (c :: cs) l).events,
            ∀ q, e.toSignal ≠ .problem q := by
          intro e he q hq
          refine h q ?_
          rw [scanSignals, List.flatMap_cons, List.mem_append]
          exact .inl (List.mem_map.2 ⟨e, he, hq⟩)
        exact faultless_of_flawless hevents
      -- A faultless lexeme is as long as the characters that it is read from.
      obtain ⟨raw, rest, hcs, hread⟩ := Lexeme.read_readAhead hfaultless
      obtain ⟨tail, rfl⟩ : ∃ tail, raw = c :: tail := by
        cases raw with
        | nil => exact absurd rfl hread.nonempty
        | cons d tail => exact ⟨tail, by rw [(List.cons.inj hcs).1]⟩
      obtain rfl : cs = tail ++ rest := (List.cons.inj hcs).2
      have hdrop : (tail ++ rest).drop (l.piece.length - 1) = rest := by
        rw [hread.length]
        simp
      rw [hdrop] at ih
      obtain ⟨ps, rfl, hps⟩ := ih (fun q hq => h q (by
        rw [scanSignals, List.flatMap_cons, List.mem_append, hdrop]
        exact .inr hq))
      refine ⟨⟨c :: tail, l⟩ :: ps, by simp, ⟨c, tail, rfl, ?_, hread.length⟩, hfaultless, hps⟩
      rw [List.append_nil]

/-- What cuttings are read from. -/
theorem readFrom_of_cuts {behind : List Char} {ps : List Cutting} (h : Cuts behind ps) :
    ∀ p ∈ ps, p.lexeme.ReadFrom p.raw := by
  induction ps with
  | nil => simp
  | cons p ps ih =>
      obtain ⟨⟨c, cs, hraw, hlexeme, hlength⟩, hfaultless, hrest⟩ := h
      intro q hq
      rcases List.mem_cons.1 hq with rfl | hq
      · rw [hlexeme] at hfaultless hlength ⊢
        obtain ⟨raw, rest, hcs, hread⟩ := Lexeme.read_readAhead hfaultless
        have heq : raw ++ rest = q.raw ++ (raws ps ++ behind) := by rw [← hcs, hraw]; rfl
        rw [← (List.append_inj heq (hread.length.symm.trans hlength)).1]
        exact hread
      · exact ih hrest q hq

/-! ## Legible strokes -/

/-- The sign is read back as itself before the text `behind`. -/
def Sign.Legible (x : Sign) (behind : List Char) : Prop :=
  ∃ ps, Cuts behind ps ∧ raws ps = x.written.toList ∧ x.Shape (cutTokens ps)

/-- Every sign is read back as itself where it stands. -/
def Legible : List Stroke → Prop
  | [] => True
  | .sign x :: ss => x.Legible (Stroke.texts ss).toList ∧ Legible ss
  | .blank _ _ :: ss | .importance :: ss | .semicolon :: ss => Legible ss

end EpubStyle
