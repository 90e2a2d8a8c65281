import EpubStyle.Proofs.Text.Positions
import EpubStyle.Proofs.Token.Branches
import EpubStyle.Token.Scan

/-!
# The span of a token

A token keeps only its normalised text and the location of its first character. Its *span* is what
the source has from there up to the location of the next token, or to the end (`Token.span`), and
`Token.before` is all that stands in front of it. Both are read off the locations alone.

The locations are those of the lexemes: a token of a text was read right where its span begins, and
its span is as long as the lexeme says (`exists_lexeme_of_scan`). So nothing is left out between two
tokens and nothing is read twice, and what holds of a lexeme with the characters it takes holds of a
token with its span. The theorem also carries a fact from lexeme to lexeme, for what depends on the
characters in front.
-/

set_option autoImplicit false

namespace EpubStyle

open Text

namespace Token

/-- What stands before a token. -/
def before (text : String) (t : Token) : List Char := text.toList.take (t.location.offset - 1)

/-- What a text has from a token on. -/
def ahead (text : String) (t : Token) : List Char := text.toList.drop (t.location.offset - 1)

/-- What a text has from a token up to the first one of those behind it, or to the end. -/
def span (text : String) (t : Token) : List Scanned → List Char
  | next :: _ => (t.ahead text).take (next.token.location.offset - t.location.offset)
  | [] => t.ahead text

/-- What stands behind the span of a token. -/
def behind (text : String) (t : Token) (after : List Scanned) : List Char :=
  (t.ahead text).drop (t.span text after).length

end Token

namespace Lexeme

/-- What stands before the run of name characters of an identifier is not empty. -/
theorem length_identStart_pos (c : Char) (cs : List Char) : 0 < (identStart c cs).length := by
  unfold identStart Piece.escape?
  split
  · split <;> exact Nat.succ_pos _
  · split
    · exact Nat.add_pos_left Nat.one_pos _
    · exact Nat.one_pos

/-- **A lexeme takes at least one character**, whatever is wrong with it. -/
theorem length_read_pos (c : Char) (cs : List Char) : 0 < (read c cs).piece.length := by
  have hread : (read c cs).piece.length = (readBody c cs).piece.length := rfl
  rw [hread]
  generalize readBody c cs = l, branch_readBody c cs = h
  cases h with
  | space => exact Nat.add_pos_left Nat.one_pos _
  | ident =>
      have hname := Nat.add_pos_left (length_identStart_pos c cs)
        (Piece.run isNameChar ((c :: cs).drop (identStart c cs).length)).length
      unfold ident
      simp only
      split
      · exact Nat.add_pos_left hname _
      · exact hname
  | atKeyword =>
      unfold atKeyword
      split <;> exact Nat.add_pos_left (Nat.succ_pos _) _
  | number =>
      unfold number
      simp only
      split <;> exact Nat.add_pos_left (Nat.succ_pos _) _
  | comment | string | uri | range | hashName | className =>
      exact Nat.add_pos_left (Nat.succ_pos _) _
  | _ => exact Nat.succ_pos _

end Lexeme

/-- What happens with the tokens from one of them on: it is read where what was read before ends,
and the others are scanned from what it leaves. A fact about what is read and what is left is
carried along. -/
theorem exists_lexeme_of_scanFrom (I : List Char → List Char → Prop)
    (hstep : ∀ front c cs, I front (c :: cs) →
      I (front ++ (c :: cs).take (Lexeme.read c cs).piece.length)
        ((c :: cs).drop (Lexeme.read c cs).piece.length))
    {source : String} {before after : List Scanned} {s : Scanned} {p : Place} {front cs : List Char}
    (hoffset : p.offset = front.length) (hI : I front cs)
    (h : scanFrom source p cs = before ++ s :: after) :
    ∃ (q : Place) (more : List Char) (d : Char) (ds : List Char), front ++ cs = more ++ d :: ds ∧
      q.offset = more.length ∧ I more (d :: ds) ∧
      s = Scanned.ofLexeme source q (d :: ds) (Lexeme.read d ds) ∧
      after = scanFrom source (q.advance (Lexeme.read d ds).piece.length (d :: ds))
        ((d :: ds).drop (Lexeme.read d ds).piece.length) := by
  induction before generalizing p front cs with
  | nil =>
      cases cs with
      | nil => simp [scanFrom] at h
      | cons c cs =>
          rw [scanFrom] at h
          obtain ⟨rfl, rfl⟩ := List.cons.inj h
          refine ⟨p, front, c, cs, rfl, hoffset, hI, rfl, ?_⟩
          rw [List.drop_cons (Lexeme.length_read_pos c cs)]
  | cons t before ih =>
      cases cs with
      | nil => simp [scanFrom] at h
      | cons c cs =>
          rw [scanFrom, ← List.drop_cons (Lexeme.length_read_pos c cs)] at h
          obtain ⟨rfl, hrest⟩ := List.cons.inj h
          have hne : (c :: cs).drop (Lexeme.read c cs).piece.length ≠ [] := by
            intro hnil
            rw [hnil, scanFrom] at hrest
            simp at hrest
          -- A lexeme with another one behind it ends inside the text.
          have hle : (Lexeme.read c cs).piece.length ≤ (c :: cs).length :=
            Nat.le_of_not_ge (mt List.drop_eq_nil_of_le hne)
          have happend : front ++ c :: cs =
              front ++ (c :: cs).take (Lexeme.read c cs).piece.length ++
                (c :: cs).drop (Lexeme.read c cs).piece.length := by
            rw [List.append_assoc, List.take_append_drop]
          rw [happend]
          apply ih _ (hstep front c cs hI) hrest
          rw [Place.offset_advance, hoffset, List.length_append, List.length_take_of_le hle]

/-- **Where a token of a text was read**: where its span begins, and it takes its span. -/
theorem exists_lexeme_of_scan {text source : String} {before after : List Scanned} {s : Scanned}
    (h : scan text source = before ++ s :: after) (I : List Char → List Char → Prop)
    (hstart : I [] text.toList)
    (hstep : ∀ front c cs, I front (c :: cs) →
      I (front ++ (c :: cs).take (Lexeme.read c cs).piece.length)
        ((c :: cs).drop (Lexeme.read c cs).piece.length)) :
    ∃ p c cs, s = Scanned.ofLexeme source p (c :: cs) (Lexeme.read c cs) ∧
      s.token.ahead text = c :: cs ∧ I (s.token.before text) (c :: cs) ∧
      s.token.span text after =
        (c :: cs).take (Lexeme.read c cs).piece.length := by
  obtain ⟨p, front, c, cs, htext, hoffset, hI, rfl, hafter⟩ :=
    exists_lexeme_of_scanFrom I hstep rfl hstart h
  rw [List.nil_append] at htext
  have hlocation : (Scanned.ofLexeme source p (c :: cs) (Lexeme.read c cs)).token.location.offset =
      front.length + 1 := by
    rw [← hoffset]
    exact Place.offset_advance p 1 (c :: cs)
  have hbefore : (Scanned.ofLexeme source p (c :: cs) (Lexeme.read c cs)).token.before text =
      front := by
    rw [Token.before, hlocation, htext, Nat.add_sub_cancel, List.take_left]
  have hahead : (Scanned.ofLexeme source p (c :: cs) (Lexeme.read c cs)).token.ahead text =
      c :: cs := by
    rw [Token.ahead, hlocation, htext, Nat.add_sub_cancel, List.drop_left]
  refine ⟨p, c, cs, rfl, hahead, by rwa [hbefore], ?_⟩
  -- The next token begins where this one ends; without a next one nothing is left.
  cases hrest : (c :: cs).drop (Lexeme.read c cs).piece.length with
  | nil =>
      rw [hafter, hrest, scanFrom]
      rw [List.take_of_length_le (List.drop_eq_nil_iff.1 hrest)]
      exact hahead
  | cons d ds =>
      rw [hafter, hrest, scanFrom]
      have hnext : ∀ l, (Scanned.ofLexeme source
          (p.advance (Lexeme.read c cs).piece.length (c :: cs)) (d :: ds) l).token.location.offset =
            front.length + (Lexeme.read c cs).piece.length + 1 := by
        intro l
        rw [← hoffset, ← Place.offset_advance p _ (c :: cs)]
        exact Place.offset_advance _ 1 (d :: ds)
      rw [Token.span, hahead, hnext, hlocation]
      congr 1
      omega

end EpubStyle
