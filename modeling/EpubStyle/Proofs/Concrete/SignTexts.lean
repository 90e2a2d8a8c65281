import EpubStyle.Proofs.Concrete.Signs
import EpubStyle.Proofs.Text.Case
import EpubStyle.Proofs.Token.Shapes

/-!
# The text of signs

The tokens of a sign are no separators (`Sign.Shape.not_separator`), and together they have its text
up to case (`Sign.Shape.folded_joinedText`), provided that each of them has the shape of its kind. A
sign is a single token or a few names and characters (`Sign.Shape.single_or`), and a string only if
its token is one (`Sign.Shape.string_or`).
-/

set_option autoImplicit false

namespace EpubStyle

open Concrete Text

/-- The texts of tokens in a row. -/
def joinedText : List Token → String
  | [] => ""
  | t :: ts => t.text ++ joinedText ts

@[simp] theorem joinedText_append (ts us : List Token) :
    joinedText (ts ++ us) = joinedText ts ++ joinedText us := by
  induction ts with
  | nil => simp [joinedText]
  | cons t ts ih => simp [joinedText, ih, String.append_assoc]

@[simp] theorem joinedText_singleton (t : Token) : joinedText [t] = t.text := by
  simp [joinedText]

/-! ## No sign is a separator -/

theorem separator_of_isChar {t : Token} {c : Char} (h : t.isChar c = true) (hc : c ≠ ';') :
    TokenClass.separator t = false := by
  simp [TokenClass.separator, Token.not_isBlank_of_isChar h, Token.kind_of_isChar h,
    Token.isChar_eq_false h hc]

theorem separator_of_kind {t : Token}
    (h : t.kind ∉ [.space, .comment, .commentOpen, .commentClose, .important, .char]) :
    TokenClass.separator t = false := by
  simp only [List.mem_cons, List.not_mem_nil, or_false, not_or] at h
  simp [TokenClass.separator, Token.isBlank, Token.isChar, h]

theorem separator_of_valueStart {t : Token} (h : t.valueStart ≠ .nothing) :
    TokenClass.separator t = false := by
  by_cases hchar : t.kind = .char
  · simp [TokenClass.separator, Token.isBlank, hchar,
      Token.not_isChar_of_valueStart h (c := ';') (by simp)]
  · refine separator_of_kind ?_
    simp only [List.mem_cons, List.not_mem_nil, or_false, not_or]
    refine ⟨?_, ?_, ?_, ?_, ?_, hchar⟩ <;> exact fun hk => h (by simp [Token.valueStart, hk])

theorem separator_of_matching {t : Token} {o : MatchOperator}
    (h : MatchOperator.ofToken? t = some o) : TokenClass.separator t = false := by
  by_cases hchar : t.kind = .char
  · exact separator_of_isChar (Token.equals_of_char h hchar).2 (by decide)
  · refine separator_of_kind ?_
    simp only [List.mem_cons, List.not_mem_nil, or_false, not_or]
    refine ⟨?_, ?_, ?_, ?_, ?_, hchar⟩ <;> exact fun hk => by simp [MatchOperator.ofToken?, hk] at h

namespace Concrete

theorem NameOrStar.kind_mem (t : NameOrStar) : t.1.kind ∈ [.ident, .function, .char] := by
  rcases t.2 with h | h
  · simp [h]
  · simp [Token.kind_of_isChar h]

theorem NameOrStar.not_separator (t : NameOrStar) : TokenClass.separator t.1 = false := by
  rcases t.2 with h | h
  · exact separator_of_kind (by simp [h])
  · exact separator_of_isChar h (by decide)

/-- A qualified name is made of names, stars and bars. -/
theorem TypeName.tokens_mem (n : TypeName) :
    ∀ t ∈ n.tokens, t.kind ∈ [.ident, .function, .char] ∧ TokenClass.separator t = false := by
  have hbar (t : Mark '|') :
      t.1.kind ∈ [.ident, .function, .char] ∧ TokenClass.separator t.1 = false :=
    ⟨by simp [Token.kind_of_isChar t.2], separator_of_isChar t.2 (by decide)⟩
  have hname (t : NameOrStar) :
      t.1.kind ∈ [.ident, .function, .char] ∧ TokenClass.separator t.1 = false :=
    ⟨t.kind_mem, t.not_separator⟩
  intro u hu
  cases n with
  | plain t =>
      simp only [TypeName.tokens, TypeName.first, TypeName.rest, List.mem_singleton] at hu
      exact hu ▸ hname t
  | bare bar t =>
      simp only [TypeName.tokens, TypeName.first, TypeName.rest, List.mem_cons, List.not_mem_nil,
        or_false] at hu
      rcases hu with rfl | rfl
      · exact hbar bar
      · exact hname ⟨t.1, .inl t.2⟩
  | qualified space bar t =>
      simp only [TypeName.tokens, TypeName.first, TypeName.rest, List.mem_cons, List.not_mem_nil,
        or_false] at hu
      rcases hu with rfl | rfl | rfl
      · exact hname space
      · exact hbar bar
      · exact hname t

/-- Colons are characters. -/
theorem Colons.tokens_mem (c : Colons) :
    ∀ t ∈ c.first :: c.rest, t.kind = .char ∧ TokenClass.separator t = false := by
  have hcolon (t : Mark ':') : t.1.kind = .char ∧ TokenClass.separator t.1 = false :=
    ⟨Token.kind_of_isChar t.2, separator_of_isChar t.2 (by decide)⟩
  cases c with
  | one colon => simpa [Colons.first, Colons.rest] using hcolon colon
  | two colon second =>
      simpa [Colons.first, Colons.rest] using ⟨hcolon colon, hcolon second⟩

end Concrete

namespace Sign.Shape

/-- A sign has no separators among its tokens. -/
theorem not_separator {x : Sign} {ts : List Token} (h : x.Shape ts) :
    ∀ t ∈ ts, TokenClass.separator t = false := by
  cases x with
  | mark c =>
      obtain ⟨hc, t, rfl⟩ := h
      simpa using separator_of_isChar t.2 hc
  | value kind text | quantity text m | group d =>
      obtain ⟨t, hstart, rfl⟩ := h
      simpa using separator_of_valueStart (by simp [hstart])
  | typeName text =>
      obtain ⟨n, rfl, rfl⟩ := h
      exact fun t ht => (n.tokens_mem t ht).2
  | matching o =>
      obtain ⟨t, ho, rfl⟩ := h
      simpa using separator_of_matching ho
  | function name | property name | atKeyword name =>
      obtain ⟨t, rfl, rfl⟩ := h
      simpa using separator_of_kind (by simp [t.2])
  | pseudo kind name | pseudoFunction kind name =>
      obtain ⟨colons, t, rfl, rfl, rfl⟩ := h
      intro u hu
      rw [← List.cons_append] at hu
      rcases List.mem_append.1 hu with hu | hu
      · exact (colons.tokens_mem u hu).2
      · rw [List.mem_singleton.1 hu]
        exact separator_of_kind (by simp [t.2])

/-- A sign is a single token, or a few names and characters. -/
theorem single_or {x : Sign} {ts : List Token} (h : x.Shape ts) :
    (∃ t, ts = [t]) ∨ ∀ t ∈ ts, t.kind ∈ [.ident, .function, .char] := by
  cases x with
  | mark c =>
      obtain ⟨-, t, rfl⟩ := h
      exact .inl ⟨_, rfl⟩
  | value kind text | quantity text m | group d | matching o =>
      obtain ⟨t, -, rfl⟩ := h
      exact .inl ⟨t, rfl⟩
  | function name | property name | atKeyword name =>
      obtain ⟨t, -, rfl⟩ := h
      exact .inl ⟨_, rfl⟩
  | typeName text =>
      obtain ⟨n, rfl, rfl⟩ := h
      exact .inr (fun t ht => (n.tokens_mem t ht).1)
  | pseudo kind name | pseudoFunction kind name =>
      obtain ⟨colons, t, rfl, rfl, rfl⟩ := h
      refine .inr (fun u hu => ?_)
      rw [← List.cons_append] at hu
      rcases List.mem_append.1 hu with hu | hu
      · simp [(colons.tokens_mem u hu).1]
      · rw [List.mem_singleton.1 hu]
        simp [t.2]

end Sign.Shape

/-! ## The text of a sign -/

theorem text_of_mark {c : Char} (t : Mark c) : t.1.text = String.singleton c := by
  rw [← String.toList_inj, Token.text_of_isChar t.2]
  simp

/-- A token that opens a group is its opening delimiter. -/
theorem text_of_group {t : Token} {d : Delimiter} (hshape : t.Shaped)
    (h : t.valueStart = .group d) : t.text = d.opening := by
  have hchar : t.kind = .char := Token.kind_of_valueStart_group h
  obtain ⟨c, hc⟩ := hshape.char hchar
  simp only [Token.valueStart, hchar, hc, List.head?_cons] at h
  rw [← String.toList_inj, hc]
  split at h <;> cases h <;> simp_all [Delimiter.opening]

/-- A token that is an atom has its text, and is a string if the atom is. -/
theorem Token.of_valueStart_atom {t : Token} {kind : AtomKind} {text : String} {l : Location}
    (h : t.valueStart = .atom (.atom kind text l)) :
    t.text = text ∧ (t.kind = .string ↔ kind = .string) := by
  obtain ⟨_, heq⟩ | ⟨_, heq⟩ := Token.eq_of_valueStart_atom h
  · injection heq with hkind htext
    refine ⟨htext.symm, ⟨fun hstring => ?_, ?_⟩⟩
    · rw [valueStart, hstring] at h
      injection h with h
      injection h with hkind
      exact hkind.symm
    · rintro rfl
      unfold valueStart at h
      cases hk : t.kind with
      | string => rfl
      | char =>
          simp only [hk] at h
          split at h <;> cases h
      | _ => simp [hk] at h
  · cases heq

namespace Concrete

/-- The colons of a pseudo selector are written as they are. -/
theorem Colons.joinedText (c : Colons) : joinedText (c.first :: c.rest) = c.kind.colons := by
  cases c with
  | one colon =>
      simp [Colons.first, Colons.rest, EpubStyle.joinedText, text_of_mark, Colons.kind,
        PseudoKind.colons]
  | two colon second =>
      simp [Colons.first, Colons.rest, EpubStyle.joinedText, text_of_mark, Colons.kind,
        PseudoKind.colons]

/-- A qualified name is written as its tokens are. -/
theorem TypeName.joinedText (n : TypeName) : joinedText n.tokens = n.text := by
  have hspelling : String.singleton '|' = "|" := rfl
  cases n with
  | plain t =>
      simp [TypeName.tokens, TypeName.first, TypeName.rest, TypeName.text]
  | bare bar t =>
      simp [TypeName.tokens, TypeName.first, TypeName.rest, TypeName.text, EpubStyle.joinedText,
        text_of_mark, hspelling]
  | qualified space bar t =>
      simp [TypeName.tokens, TypeName.first, TypeName.rest, TypeName.text, EpubStyle.joinedText,
        text_of_mark, hspelling, String.append_assoc]

end Concrete

namespace Sign.Shape

/-- **The tokens of a sign have its text**, up to case. -/
theorem folded_joinedText {x : Sign} {ts : List Token} (h : x.Shape ts)
    (hshape : ∀ t ∈ ts, t.Shaped) : folded (joinedText ts) = folded x.text := by
  cases x with
  | mark c =>
      obtain ⟨-, t, rfl⟩ := h
      simp [text_of_mark, Sign.text]
  | value kind text =>
      obtain ⟨t, hstart, rfl⟩ := h
      rw [joinedText_singleton, (Token.of_valueStart_atom hstart).1, Sign.text]
  | quantity text measure =>
      obtain ⟨t, hstart, rfl⟩ := h
      obtain ⟨_, heq⟩ | ⟨_, heq⟩ := Token.eq_of_valueStart_atom hstart
      · cases heq
      · injection heq with htext
        rw [joinedText_singleton, Sign.text, htext]
  | typeName text =>
      obtain ⟨n, rfl, rfl⟩ := h
      rw [n.joinedText, Sign.text]
  | matching operator =>
      obtain ⟨t, hoperator, rfl⟩ := h
      rw [joinedText_singleton, (hshape t (by simp)).operator operator hoperator, Sign.text]
  | function name =>
      obtain ⟨f, rfl, rfl⟩ := h
      obtain ⟨name, hname⟩ := (hshape f.1 (by simp)).function f.2
      simp [functionName_of_text hname, hname, Sign.text]
  | group delimiter =>
      obtain ⟨t, hstart, rfl⟩ := h
      rw [joinedText_singleton, text_of_group (hshape t (by simp)) hstart, Sign.text]
  | property name | atKeyword name =>
      obtain ⟨t, rfl, rfl⟩ := h
      simp [Sign.text]
  | pseudo kind name =>
      obtain ⟨colons, t, rfl, rfl, rfl⟩ := h
      rw [← List.cons_append, joinedText_append, colons.joinedText, joinedText_singleton, Sign.text]
  | pseudoFunction kind name =>
      obtain ⟨colons, f, rfl, rfl, rfl⟩ := h
      obtain ⟨name, hname⟩ := (hshape f.1 (by simp)).function f.2
      rw [← List.cons_append, joinedText_append, colons.joinedText, joinedText_singleton,
        functionName_of_text hname, hname]
      simp [Sign.text]

end Sign.Shape

end EpubStyle
