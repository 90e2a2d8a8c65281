import EpubStyle.Proofs.Rescan.Readers
import EpubStyle.Proofs.Spans.Basic
import EpubStyle.Proofs.Spans.NameParts
import EpubStyle.Proofs.Token.Openings

/-!
# Names and what they are read from

Five kinds of token are names: identifiers, functions, and the names behind a hash sign, a point and
an at sign. Their span is a sign, which may be missing, and the parts of a name
(`TokenKind.nameParts`, `nameParts_of_scan`).

Decoding the escapes in the text of a name should give what decoding the escapes in its span gives.
That is so exactly if no escape that stays in the text runs into a digit which was an escape itself
(`unescape_text_eq_iff_of_scan`). Nothing in the scanner prevents this: the identifier `\31\32`
means `12`, and its text `\312` means another character (`not_forall_unescape_text_eq`).
-/

set_option autoImplicit false

namespace EpubStyle

open Text

namespace TokenKind

/-- The number of characters before a name: hash signs, points and at signs, and a hyphen where
another character has to start the name. -/
def signLength : TokenKind → List Char → Nat
  | .hashName, _ | .className, _ => 1
  | .atKeyword, _ :: '-' :: _ => 2
  | .atKeyword, _ => 1
  | _, '-' :: _ => 1
  | _, _ => 0

/-- The class of the characters that may start a name behind its sign. -/
def startClass (kind : TokenKind) : Char → Bool :=
  if kind = .hashName then isNameChar else isNameStart

/-- The parts of a name, its sign included. -/
def nameParts (kind : TokenKind) (span : List Char) : List NamePart :=
  (span.take (kind.signLength span)).map .char ++
    NamePart.split kind.startClass (span.drop (kind.signLength span))

/-- The kinds of token that are names. -/
def names : List TokenKind := [.ident, .function, .hashName, .className, .atKeyword]

end TokenKind

namespace Lexeme

/-- The lexeme is read from a sign and the parts of a name. -/
structure Named (l : Lexeme) (sign : List Char) (parts : List NamePart) (raw rest : List Char) :
    Prop where
  length : l.piece.length = (sign ++ raw).length
  text : l.piece.text = sign ++ parts.flatMap NamePart.text
  signLength : l.kind.signLength (sign ++ raw) = sign.length
  plain : ∀ c ∈ sign, NamePart.Plain c
  along : NamePart.Along rest l.kind.startClass parts raw

/-- The lexeme is a name at the front of a text. -/
def NamedAhead (l : Lexeme) (cs : List Char) : Prop :=
  ∃ sign parts raw rest, cs = sign ++ raw ++ rest ∧ l.Named sign parts raw rest

/-- A name with a sign in front. -/
theorem NamedAhead.ofPiece {kind : TokenKind} {p q : Piece} (sign : List Char) {cs : List Char}
    (hq : q.SpellsAhead kind.startClass cs) (hlength : p.length = sign.length + q.length)
    (htext : p.text = sign ++ q.text) (hplain : ∀ c ∈ sign, NamePart.Plain c)
    (hsign : ∀ raw rest, cs = raw ++ rest → kind.signLength (sign ++ raw) = sign.length) :
    NamedAhead ⟨kind, p⟩ (sign ++ cs) := by
  obtain ⟨parts, raw, rest, rfl, hraw⟩ := hq
  refine ⟨sign, parts, raw, rest, by simp, ?_, ?_, hsign raw rest rfl, hplain, hraw.along⟩
  · rw [List.length_append, ← hraw.length]
    exact hlength
  · rw [← hraw.text]
    exact htext

/-- A hyphen is the sign of an identifier, and no other character is. -/
theorem signLength_ident {kind : TokenKind} (h : kind = .ident ∨ kind = .function)
    (cs : List Char) : kind.signLength cs = if cs.head? = some '-' then 1 else 0 := by
  cases cs with
  | nil => rcases h with rfl | rfl <;> rfl
  | cons c cs =>
      by_cases hc : c = '-'
      · rcases h with rfl | rfl <;> simp [TokenKind.signLength, hc]
      · rcases h with rfl | rfl <;> simp [TokenKind.signLength, hc]

theorem nameAhead_of_start {cs : List Char}
    (h : nameStartAhead cs = true ∨ escapeAhead cs = true) : nameAhead cs = true := by
  rw [nameAhead, Bool.or_eq_true]
  apply h.imp_left
  intro hstart
  cases cs with
  | nil => cases hstart
  | cons c cs => exact NameText.isNameChar_of_isNameStart hstart

/-- What stands before the parenthesis of a function, or the whole identifier. -/
theorem identName_named {kind : TokenKind} (hkind : kind = .ident ∨ kind = .function) {c : Char}
    {cs : List Char} (h : identAhead c cs = true) :
    NamedAhead ⟨kind, identName c cs⟩ (c :: cs) := by
  have hclass : kind.startClass = isNameStart := by rcases hkind with rfl | rfl <;> rfl
  by_cases hc : c = '-'
  · subst hc
    have hahead : nameStartAhead cs = true ∨ escapeAhead cs = true := by
      simpa [identAhead, isNameStart, escapeAhead] using h
    have hspells := Piece.name_spells (nameAhead_of_start hahead)
    rw [← hclass] at hspells
    rw [identName_hyphen]
    apply NamedAhead.ofPiece ['-'] hspells rfl rfl
      (List.forall_mem_singleton.2 (by decide))
    intro raw rest _
    exact signLength_ident hkind _
  -- Without a hyphen the sign is empty, and the first character starts the name.
  · have hahead : nameStartAhead (c :: cs) = true ∨ escapeAhead (c :: cs) = true := by
      simpa [identAhead, nameStartAhead, hc] using h
    have hspells := Piece.name_spells (nameAhead_of_start hahead)
    rw [← hclass] at hspells
    rw [identName_of_ne_hyphen h hc]
    apply NamedAhead.ofPiece [] hspells (Nat.zero_add _).symm rfl (by simp)
    intro raw rest hraw
    rw [List.nil_append, signLength_ident hkind, List.length_nil, if_neg]
    cases raw with
    | nil => simp
    | cons d raw =>
        obtain rfl := (List.cons.inj hraw).1
        simpa using hc

/-- **Identifiers and functions are names.** The parenthesis of a function is a part of its own. -/
theorem ident_named {c : Char} {cs : List Char} (h : identAhead c cs = true) :
    (ident c cs).NamedAhead (c :: cs) := by
  rw [ident_eq]
  split
  · next tail hdrop =>
      obtain ⟨sign, parts, raw, rest, hcs, hname⟩ := identName_named (.inr rfl) h
      rw [hcs, hname.length, List.drop_left] at hdrop
      subst hdrop
      refine ⟨sign, parts ++ [.char '('], raw ++ ['('], tail, by simp [hcs], ?_, ?_, ?_,
        hname.plain, hname.along.concat (by decide)⟩
      · rw [Piece.length_append, hname.length, ← List.append_assoc, List.length_append,
          Nat.add_assoc, List.length_append, List.length_append, Nat.add_assoc]
        rfl
      · rw [Piece.text_append, hname.text, List.flatMap_append, ← List.append_assoc]
        rfl
      · -- A parenthesis is not the hyphen that a name may have for its sign.
        have hsign := hname.signLength
        rw [signLength_ident (.inr rfl)] at hsign ⊢
        rw [← hsign, ← List.append_assoc]
        cases sign ++ raw <;> rfl
  · exact identName_named (.inl rfl) h

/-- **The names of at-rules are names.** -/
theorem atKeyword_named {cs : List Char} (h : atKeywordAhead cs = true) :
    (atKeyword cs).NamedAhead ('@' :: cs) := by
  unfold atKeyword
  split
  · next cs =>
      have hahead : nameStartAhead cs = true ∨ escapeAhead cs = true := by
        simpa [atKeywordAhead, nameStartAhead, escapeAhead, isNameStart] using h
      apply NamedAhead.ofPiece ['@', '-'] (Piece.name_spells (nameAhead_of_start hahead))
        rfl rfl (List.forall_mem_cons.2 ⟨by decide, List.forall_mem_singleton.2 (by decide)⟩)
      intro raw rest _
      rfl
  · next hhyphen =>
      have hhead : cs.head? ≠ some '-' := by
        intro hhead
        obtain ⟨tail, rfl⟩ := List.head?_eq_some_iff.1 hhead
        exact hhyphen tail rfl
      have hahead : nameStartAhead cs = true ∨ escapeAhead cs = true := by
        simpa [atKeywordAhead, hhead] using h
      apply NamedAhead.ofPiece ['@'] (Piece.name_spells (nameAhead_of_start hahead))
        rfl rfl (List.forall_mem_singleton.2 (by decide))
      intro raw rest hraw
      cases raw with
      | nil => rfl
      | cons d raw =>
          have hd : d ≠ '-' := by simpa [hraw] using hhead
          unfold TokenKind.signLength
          split <;> simp_all

theorem hashName_named (cs : List Char) : (hashName cs).NamedAhead ('#' :: cs) := by
  apply NamedAhead.ofPiece ['#'] (Piece.run_spells cs) rfl rfl
    (List.forall_mem_singleton.2 (by decide))
  intro raw rest _
  rfl

theorem className_named {cs : List Char} (h : nameAhead cs = true) :
    (className cs).NamedAhead ('.' :: cs) := by
  apply NamedAhead.ofPiece ['.'] (Piece.name_spells h) rfl rfl
    (List.forall_mem_singleton.2 (by decide))
  intro raw rest _
  rfl

/-- **A lexeme of one of the five kinds is read from a sign and the parts of a name.** -/
theorem named_of_branch {c : Char} {cs : List Char} {l : Lexeme} (h : Branch c cs l)
    (hkind : l.kind ∈ TokenKind.names) : l.NamedAhead (c :: cs) := by
  -- The other branches of the scanner give no kind of name.
  cases h with
  | ident h => exact ident_named h
  | atKeyword hc h => exact hc ▸ atKeyword_named h
  | hashName hc => exact hc ▸ hashName_named cs
  | className hc h => exact hc ▸ className_named h
  | number =>
      obtain ⟨m, hm⟩ := kind_number c cs
      simp [hm, TokenKind.names] at hkind
  | operator kind h =>
      have hmem := kind_operator h
      have hnames : kind ∈ TokenKind.names := hkind
      simp only [List.mem_cons, List.not_mem_nil, or_false] at hmem
      rcases hmem with rfl | rfl | rfl | rfl | rfl <;> simp [TokenKind.names] at hnames
  | _ => simp [TokenKind.names, fixed, uri, range] at hkind

/-- The parts are found in the characters that a name is read from. -/
theorem Named.nameParts_eq {l : Lexeme} {sign raw rest : List Char} {parts : List NamePart}
    (h : l.Named sign parts raw rest) :
    l.kind.nameParts (sign ++ raw) = sign.map .char ++ parts := by
  rw [TokenKind.nameParts, h.signLength, List.take_left, List.drop_left, h.along.split_eq]

end Lexeme

/-- The span, the text and the meaning of a name are those of its parts. -/
structure NamePart.Describe (parts : List NamePart) (text span : List Char) : Prop where
  sound : Sound parts
  source : parts.flatMap source = span
  text : parts.flatMap NamePart.text = text
  meaning : unescape span = parts.map character

/-- The characters of a sign are parts of their own. -/
theorem NamePart.flatMap_chars {α : Type} {f : NamePart → List α} {g : Char → α}
    (hf : ∀ c, f (.char c) = [g c]) (cs : List Char) : (cs.map .char).flatMap f = cs.map g := by
  induction cs with
  | nil => rfl
  | cons c cs ih => simp [hf, ih]

theorem Lexeme.Named.describe {l : Lexeme} {sign raw rest : List Char} {parts : List NamePart}
    (h : l.Named sign parts raw rest) :
    NamePart.Describe (l.kind.nameParts (sign ++ raw)) l.piece.text (sign ++ raw) := by
  rw [h.nameParts_eq]
  refine ⟨h.along.sound.append_chars h.plain, ?_, ?_, ?_⟩
  · rw [List.flatMap_append, NamePart.flatMap_chars (fun _ => rfl), h.along.flatMap_source,
      List.map_id']
  · rw [List.flatMap_append, NamePart.flatMap_chars (fun _ => rfl), h.text, List.map_id']
  · have hback : '\\' ∉ sign := fun hmem => (h.plain _ hmem).1 rfl
    rw [unescape_append hback, h.along.unescape_source, List.map_append, List.map_map]
    simp [Function.comp_def, NamePart.character]

/-- **The parts of a name** are found in its span alone. -/
theorem nameParts_of_scan {text source : String} {before after : List Scanned} {s : Scanned}
    (h : scan text source = before ++ s :: after) (hkind : s.token.kind ∈ TokenKind.names) :
    NamePart.Describe (s.token.kind.nameParts (s.token.span text after)) s.token.text.toList
      (s.token.span text after) := by
  obtain ⟨p, c, cs, rfl, -, -, hspan⟩ :=
    exists_lexeme_of_scan h (fun _ _ => True) trivial (fun _ _ _ _ => trivial)
  obtain ⟨sign, parts, raw, rest, hcs, hname⟩ :=
    Lexeme.named_of_branch (Lexeme.branch_readBody c cs) hkind
  have hread : (Lexeme.read c cs).piece.length = (Lexeme.readBody c cs).piece.length := rfl
  have hraw : (c :: cs).take (Lexeme.read c cs).piece.length = sign ++ raw := by
    rw [hread, hname.length, hcs, List.take_left]
  rw [hspan, hraw]
  have htext : (Scanned.ofLexeme source p (c :: cs) (Lexeme.read c cs)).token.text.toList =
      (Lexeme.readBody c cs).piece.text := String.toList_ofList
  rw [htext]
  exact hname.describe

/-- **Decoding the text of a name gives what decoding its span gives** exactly if no part of the
name is read into the one before it. -/
theorem unescape_text_eq_iff_of_scan {text source : String} {before after : List Scanned}
    {s : Scanned} (h : scan text source = before ++ s :: after)
    (hkind : s.token.kind ∈ TokenKind.names) :
    unescape s.token.text.toList = unescape (s.token.span text after) ↔
      (s.token.kind.nameParts (s.token.span text after)).IsChain
        (fun p q => p.merges q = false) := by
  have hparts := nameParts_of_scan h hkind
  rw [hparts.meaning, ← hparts.text]
  exact NamePart.unescape_text_iff hparts.sound

/-- The escape in `\31 \32` keeps its blank, so the digit behind it stays a character of its own. -/
theorem unescape_text_eq_of_scan_blank :
    ∃ s, scan "\\31 \\32" "" = [] ++ s :: [] ∧ s.token.kind ∈ TokenKind.names ∧
      s.token.text = "\\31 2" ∧
      unescape s.token.text.toList = unescape (s.token.span "\\31 \\32" []) := by
  have hscan : scan "\\31 \\32" "" =
      [] ++ ⟨⟨.ident, "\\31 2", ⟨1, 1, 1, ""⟩, []⟩, []⟩ :: [] := by
    decide +kernel
  refine ⟨_, hscan, by decide, rfl, (unescape_text_eq_iff_of_scan hscan (by decide)).2 ?_⟩
  have hparts : TokenKind.ident.nameParts "\\31 \\32".toList =
      [.kept ⟨['3', '1', ' '], '1', false⟩, .decoded ⟨['3', '2'], '2', false⟩] := by
    decide +kernel
  have hchain : (TokenKind.ident.nameParts "\\31 \\32".toList).IsChain
      (fun p q => p.merges q = false) := by
    rw [hparts]
    decide
  exact hchain

/-- **The text of a name may mean another name**: `\31\32` means `12`, and its text `\312` is a
single character. -/
theorem not_forall_unescape_text_eq :
    ¬ ∀ text source (before after : List Scanned) s, scan text source = before ++ s :: after →
      s.token.kind ∈ TokenKind.names → s.token.faults = [] →
      unescape s.token.text.toList = unescape (s.token.span text after) := by
  intro h
  have hscan : scan "\\31\\32" "" =
      [] ++ ⟨⟨.ident, "\\312", ⟨1, 1, 1, ""⟩, []⟩, []⟩ :: [] := by
    decide +kernel
  have htext : unescape "\\312".toList = ['\u0312'] := by decide +kernel
  have hspan : unescape "\\31\\32".toList = ['1', '2'] := by decide +kernel
  have hequal : unescape "\\312".toList = unescape "\\31\\32".toList :=
    h _ _ _ _ _ hscan (by decide) rfl
  rw [htext, hspan] at hequal
  cases hequal

end EpubStyle
