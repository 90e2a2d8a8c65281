import EpubStyle.Proofs.Token.Branches
import EpubStyle.Token.Scan

/-!
# The shape of tokens

The kind of a token determines what its text looks like: single characters are one, names of
functions end with their parenthesis, and operators have their spelling (`Token.Shaped`). Every
token that is scanned has the shape of its kind (`shaped_of_mem_scan`). The shape does not depend on
where a token is placed, so a lexeme has it already (`Lexeme.shaped_read`).
-/

set_option autoImplicit false

namespace EpubStyle

/-- The text of a token is what its kind makes of it: a single character, a name with its
parenthesis, or the spelling of an operator. -/
structure Token.Shaped (t : Token) : Prop where
  char : t.kind = .char → ∃ c, t.text.toList = [c]
  function : t.kind = .function → ∃ name : String, t.text = name ++ "("
  operator : ∀ o, MatchOperator.ofToken? t = some o → t.text = o.spelling

/-- A token with nothing but its kind and text. -/
def Token.unplaced (t : Token) : Token := ⟨t.kind, t.text, .start, []⟩

/-- The token of a lexeme, without its place. -/
def Lexeme.token (l : Lexeme) : Token := ⟨l.kind, String.ofList l.piece.text, .start, []⟩

namespace Token

theorem shaped_unplaced_iff {t : Token} : t.unplaced.Shaped ↔ t.Shaped :=
  ⟨fun h => ⟨h.char, h.function, h.operator⟩, fun h => ⟨h.char, h.function, h.operator⟩⟩

/-- The kinds that ask nothing of a text. -/
theorem shaped_of_kind {t : Token}
    (h : t.kind ∉ [.char, .function, .includes, .dashMatch, .frontMatch, .backMatch,
      .substringMatch]) : t.Shaped := by
  simp only [List.mem_cons, List.not_mem_nil, or_false, not_or] at h
  refine ⟨fun hk => absurd hk h.1, fun hk => absurd hk h.2.1, fun o ho => ?_⟩
  unfold MatchOperator.ofToken? at ho
  split at ho <;> simp_all

/-- A single character is an operator only if it is the equals sign. -/
theorem equals_of_char {t : Token} {o : MatchOperator} (h : MatchOperator.ofToken? t = some o)
    (hchar : t.kind = .char) : o = .equals ∧ t.isChar '=' = true := by
  simp only [MatchOperator.ofToken?, hchar] at h
  by_cases hequals : t.isChar '=' = true
  · exact ⟨by simpa [hequals] using h.symm, hequals⟩
  · simp [hequals] at h

end Token

namespace Lexeme

theorem shaped_char (c : Char) : (fixed .char [c]).token.Shaped := by
  refine ⟨fun _ => ⟨c, by simp [token, fixed, Piece.ofText]⟩, by simp [token, fixed],
    fun o ho => ?_⟩
  obtain ⟨rfl, hequals⟩ := Token.equals_of_char ho rfl
  rw [← String.toList_inj]
  exact (Bool.and_eq_true_iff.1 hequals).2 |> beq_iff_eq.1

theorem shaped_operator {c : Char} {cs : List Char} {kind : TokenKind}
    (h : operator c cs = some kind) : (fixed kind [c, '=']).token.Shaped := by
  unfold operator at h
  split at h
  · split at h <;> cases h <;>
      exact ⟨by simp [token, fixed], by simp [token, fixed], fun o ho => by
        obtain rfl := (Option.some.inj ho).symm
        rfl⟩
  · cases h

theorem shaped_ident (c : Char) (cs : List Char) : (ident c cs).token.Shaped := by
  unfold ident
  simp only
  split
  · refine ⟨by simp [token], fun _ => ⟨String.ofList (identStart c cs ++
      Piece.run Text.isNameChar ((c :: cs).drop (identStart c cs).length)).text, ?_⟩,
      by simp [MatchOperator.ofToken?, token]⟩
    rw [← String.toList_inj]
    simp only [token, String.toList_append, String.toList_ofList]
    rfl
  · exact Token.shaped_of_kind (by simp [token])

/-- **What is read has the shape of its kind.** -/
theorem shaped_read (c : Char) (cs : List Char) : (read c cs).token.Shaped := by
  have hread : (read c cs).token = (readBody c cs).token := rfl
  rw [hread]
  generalize readBody c cs = l, branch_readBody c cs = h
  cases h with
  | space | commentClose | only | not | and | commentOpen | comment | string | important =>
      exact Token.shaped_of_kind (by simp [token, fixed])
  | uri | range | hashName | className =>
      exact Token.shaped_of_kind (by simp [token, uri, range, hashName, className])
  | ident => exact shaped_ident c cs
  | atKeyword hc =>
      unfold atKeyword
      split <;> exact Token.shaped_of_kind (by simp [token])
  | number h =>
      unfold number
      simp only
      split <;> exact Token.shaped_of_kind (by simp [token])
  | operator kind h => exact shaped_operator h
  | char => exact shaped_char c

end Lexeme

/-- Every token of a text is a lexeme that was read somewhere in it. -/
theorem exists_lexeme_of_mem_scan {text source : String} {s : Scanned} (hs : s ∈ scan text source) :
    ∃ p c cs, s = Scanned.ofLexeme source p (c :: cs) (Lexeme.read c cs) := by
  have hall : ∀ (cs : List Char) (p : Text.Place), s ∈ scanFrom source p cs →
      ∃ p c cs, s = Scanned.ofLexeme source p (c :: cs) (Lexeme.read c cs) := by
    intro cs p hs
    fun_induction scanFrom source p cs with
    | case1 => cases hs
    | case2 p c cs l ih =>
        rcases List.mem_cons.1 hs with rfl | hs
        · exact ⟨p, c, cs, rfl⟩
        · exact ih hs
  exact hall text.toList {} hs

/-- What holds of every lexeme, wherever it is placed, holds of every token of a text. -/
theorem forall_mem_scan {P : Token → Prop} (hplace : ∀ t : Token, P t.unplaced ↔ P t)
    (hread : ∀ c cs, P (Lexeme.read c cs).token) {text source : String} :
    ∀ s ∈ scan text source, P s.token := by
  intro s hs
  obtain ⟨p, c, cs, rfl⟩ := exists_lexeme_of_mem_scan hs
  exact (hplace _).1 (hread c cs)

/-- **Every token of a text has the shape of its kind.** -/
theorem shaped_of_mem_scan {text source : String} :
    ∀ s ∈ scan text source, s.token.Shaped :=
  forall_mem_scan (fun _ => Token.shaped_unplaced_iff) Lexeme.shaped_read

end EpubStyle
