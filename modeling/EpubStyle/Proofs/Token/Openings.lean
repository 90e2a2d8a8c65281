import EpubStyle.Proofs.Token.Names
import EpubStyle.Proofs.Token.Shapes

/-!
# How tokens begin

The name of an at-rule begins with its at sign, and the name of a function never begins with a
colon: a character that is no part of a name stays behind its backslash. With the shape of its kind
this makes a token `Spelled`, and every token that is scanned is (`spelled_of_mem_scan`).
-/

set_option autoImplicit false

namespace EpubStyle

open Text

/-- The text of a token has the shape of its kind and begins as its kind does. -/
structure Token.Spelled (t : Token) : Prop extends t.Shaped where
  atSign : t.kind = .atKeyword → t.text.toList.head? = some '@'
  colon : t.kind = .function → t.text.toList.head? ≠ some ':'

theorem Token.spelled_unplaced_iff {t : Token} : t.unplaced.Spelled ↔ t.Spelled :=
  ⟨fun h => ⟨shaped_unplaced_iff.1 h.toShaped, h.atSign, h.colon⟩,
    fun h => ⟨shaped_unplaced_iff.2 h.toShaped, h.atSign, h.colon⟩⟩

namespace Lexeme

theorem head?_atKeyword (cs : List Char) : (atKeyword cs).piece.text.head? = some '@' := by
  unfold atKeyword
  split <;> rfl

/-- An escape is written with its backslash where its character may not stand by itself. -/
theorem head?_render_ne_colon (e : Escape) {literal : Char → Bool} (h : literal ':' = false) :
    (e.render literal).head? ≠ some ':' := by
  unfold Escape.render
  split
  · next hliteral =>
      intro hhead
      have hcolon : e.character = ':' := by simpa using hhead
      simp [hcolon, h] at hliteral
  · simp [Escape.sequence]

/-- No identifier begins with a colon. -/
theorem head?_identStart {c : Char} {cs : List Char} (h : identAhead c cs = true) :
    (identStart c cs).text.head? ≠ some ':' := by
  unfold identStart
  split
  · next hback =>
      obtain rfl := beq_iff_eq.1 hback
      cases hescape : Piece.escape? isNameStart cs with
      | none => simp [Piece.ofChar]
      | some p =>
          unfold Piece.escape? at hescape
          split at hescape
          · next e hread =>
              obtain rfl := (Option.some.inj hescape).symm
              exact head?_render_ne_colon e (by decide)
          all_goals cases hescape
  · split
    · next hhyphen =>
        obtain rfl := beq_iff_eq.1 hhyphen
        have htext : (Piece.ofChar '-' ++ Piece.first isNameStart cs).text =
            '-' :: (Piece.first isNameStart cs).text := rfl
        simp [htext]
    · intro hhead
      obtain rfl : c = ':' := by simpa [Piece.ofChar] using hhead
      simp [identAhead, isNameStart, escapeAhead] at h

theorem head?_ident {c : Char} {cs : List Char} (h : identAhead c cs = true) :
    (ident c cs).piece.text.head? ≠ some ':' := by
  obtain ⟨d, rest, hstart, -⟩ := (identStart_takes h).2
  have hd : some d ≠ some ':' := by simpa [hstart] using head?_identStart h
  unfold ident
  simp only
  split <;> simpa [Piece.text_append, hstart] using hd

/-! Each reader makes tokens of its own kinds. -/

theorem kind_ident (c : Char) (cs : List Char) :
    (ident c cs).kind = .ident ∨ (ident c cs).kind = .function := by
  unfold ident
  simp only
  split
  · exact .inr rfl
  · exact .inl rfl

theorem kind_atKeyword (cs : List Char) : (atKeyword cs).kind = .atKeyword := by
  unfold atKeyword
  split <;> rfl

theorem kind_number (c : Char) (cs : List Char) : ∃ m, (number c cs).kind = .quantity m := by
  unfold number
  simp only
  split <;> exact ⟨_, rfl⟩

theorem kind_operator {c : Char} {cs : List Char} {kind : TokenKind}
    (h : operator c cs = some kind) :
    kind ∈ [.includes, .dashMatch, .frontMatch, .backMatch, .substringMatch] := by
  unfold operator at h
  split at h
  · split at h <;> cases h <;> simp
  · cases h

/-- Only two readers make tokens whose beginning matters. -/
theorem spelled_of_kind {t : Token} (h : t.Shaped) (hat : t.kind ≠ .atKeyword)
    (hfunction : t.kind ≠ .function) : t.Spelled :=
  ⟨h, fun hk => absurd hk hat, fun hk => absurd hk hfunction⟩

/-- **What is read begins as its kind does.** -/
theorem spelled_read (c : Char) (cs : List Char) : (read c cs).token.Spelled := by
  have hshaped := shaped_read c cs
  have hread : (read c cs).token = (readBody c cs).token := rfl
  rw [hread] at hshaped ⊢
  generalize readBody c cs = l, branch_readBody c cs = h at hshaped
  cases h with
  | ident h =>
      refine ⟨hshaped, fun hk => ?_, fun _ => ?_⟩
      · have hkind := kind_ident c cs
        simp_all [token]
      · simpa [token] using head?_ident h
  | atKeyword hc =>
      refine ⟨hshaped, fun _ => ?_, fun hk => ?_⟩
      · simpa [token] using head?_atKeyword cs
      · exact absurd ((kind_atKeyword cs).symm.trans hk) (by simp)
  | number h =>
      obtain ⟨m, hm⟩ := kind_number c cs
      exact spelled_of_kind hshaped (by simp [token, hm]) (by simp [token, hm])
  | operator kind h =>
      have hkind := kind_operator h
      apply spelled_of_kind hshaped <;> rintro rfl <;> simp at hkind
  | _ =>
      apply spelled_of_kind hshaped <;> simp [token, fixed, uri, range, hashName, className]

end Lexeme

/-- **Every token of a text begins as its kind does.** -/
theorem spelled_of_mem_scan {text source : String} : ∀ s ∈ scan text source, s.token.Spelled :=
  forall_mem_scan (fun _ => Token.spelled_unplaced_iff) Lexeme.spelled_read

end EpubStyle
