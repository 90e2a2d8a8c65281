import Mathlib.Data.List.Chain
import EpubStyle.Proofs.Spans.Unescape

/-!
# The parts of a name

A name consists of characters and escapes. The text of a token has an escape decoded where its
character may stand in the name by itself, and as it is written where it may not (`NamePart`). All
parts have a source, a text and a character that is meant, and `Piece.run` and `Piece.name` are read
part by part (`Piece.SpellsAhead`).

Decoding the source gives the characters that are meant (`NamePart.unescape_source`). Decoding the
text need not: an escape that stays in hexadecimal digits has a new neighbour if the escape behind
it is decoded, and a neighbour that is a digit is read with the digits before it
(`NamePart.merges`). This is the only way to lose a character, and it always loses one
(`NamePart.unescape_text_iff`).
-/

set_option autoImplicit false

namespace EpubStyle

open Text

/-- A part of a name. -/
inductive NamePart where
  /-- A character of the source. -/
  | char (c : Char)
  /-- An escape whose character takes its place. -/
  | decoded (e : Escape)
  /-- An escape that stays as it is written. -/
  | kept (e : Escape)
  deriving DecidableEq, Repr

namespace NamePart

/-- An escape of a name, decoded if `literal` allows its character to stand there. -/
def ofEscape (literal : Char → Bool) (e : Escape) : NamePart :=
  if !e.malformed && literal e.character then decoded e else kept e

/-- What a part is read from. -/
def source : NamePart → List Char
  | char c => [c]
  | decoded e | kept e => e.sequence

/-- What a part becomes in the text of a token. -/
def text : NamePart → List Char
  | char c => [c]
  | decoded e => [e.character]
  | kept e => e.sequence

/-- The character that a part means. -/
def character : NamePart → Char
  | char c => c
  | decoded e | kept e => e.character

/-- The first part stays in digits that are not ended, and the second one becomes a digit. -/
def merges : NamePart → NamePart → Bool
  | kept e, decoded d =>
      e.written.all isHexDigit && decide (e.length < 6) && isHexDigit d.character
  | _, _ => false

/-- The parts of a name. The first character may stand by itself if `literal` allows it, the others
if they are name characters. -/
def split (literal : Char → Bool) : List Char → List NamePart
  | [] => []
  | c :: cs =>
      if c == '\\' then
        match Escape.read cs with
        | .escape e => ofEscape literal e :: split isNameChar (cs.drop e.length)
        | .endOfInput | .lineBreak => char c :: split isNameChar cs
      else char c :: split isNameChar cs
  termination_by cs => cs.length
  decreasing_by
    · simp only [List.length_drop, List.length_cons]; omega
    all_goals simp

@[simp] theorem source_ofEscape (literal : Char → Bool) (e : Escape) :
    (ofEscape literal e).source = e.sequence := by
  unfold ofEscape
  split <;> rfl

@[simp] theorem text_ofEscape (literal : Char → Bool) (e : Escape) :
    (ofEscape literal e).text = e.render literal := by
  unfold ofEscape Escape.render
  split <;> rfl

@[simp] theorem character_ofEscape (literal : Char → Bool) (e : Escape) :
    (ofEscape literal e).character = e.character := by
  unfold ofEscape
  split <;> rfl

/-! ## Parts that are read along a text -/

/-- A character that neither starts an escape nor ends one. -/
def Plain (c : Char) : Prop := c ≠ '\\' ∧ isBlank c = false

instance (c : Char) : Decidable (Plain c) :=
  inferInstanceAs (Decidable (c ≠ '\\' ∧ isBlank c = false))

theorem plain_of_isNameChar {c : Char} (h : isNameChar c = true) : Plain c := by
  constructor
  · rintro rfl
    cases h
  · exact isBlank_of_isWeightless (nameClass_isNameChar c h).1

/-- The parts are read along the second list of characters, behind which the text `rest` stands. -/
inductive Along (rest : List Char) : (Char → Bool) → List NamePart → List Char → Prop
  | nil (literal : Char → Bool) : Along rest literal [] []
  | char (literal : Char → Bool) (c : Char) (parts : List NamePart) (raw : List Char)
      (hc : Plain c) (h : Along rest isNameChar parts raw) :
      Along rest literal (char c :: parts) (c :: raw)
  | escape (literal : Char → Bool) (hliteral : ∀ c, literal c = true → isNameChar c = true)
      (e : Escape) (parts : List NamePart) (raw : List Char)
      (he : Escape.read (e.written ++ (raw ++ rest)) = .escape e)
      (h : Along rest isNameChar parts raw) :
      Along rest literal (ofEscape literal e :: parts) (e.sequence ++ raw)

namespace Along

variable {rest raw : List Char} {literal : Char → Bool} {parts : List NamePart}

theorem flatMap_source (h : Along rest literal parts raw) : parts.flatMap source = raw := by
  induction h with
  | nil => rfl
  | char literal c parts raw hc h ih => exact congrArg (c :: ·) ih
  | escape literal hliteral e parts raw he h ih =>
      rw [List.flatMap_cons, source_ofEscape, ih]

/-- One more character in the text behind the parts. -/
theorem concat {c : Char} (h : Along (c :: rest) literal parts raw) (hc : Plain c) :
    Along rest literal (parts ++ [.char c]) (raw ++ [c]) := by
  induction h with
  | nil literal => exact .char literal c [] [] hc (.nil _)
  | char literal d parts raw hd h ih => exact .char literal d _ _ hd ih
  | escape literal hliteral e parts raw he h ih =>
      rw [List.append_assoc]
      exact .escape literal hliteral e _ _ (by simpa using he) ih

/-- An escape is read in its characters alone as it was read in the text. -/
theorem read_again {e : Escape} {raw : List Char}
    (he : Escape.read (e.written ++ (raw ++ rest)) = .escape e) :
    Escape.read (e.written ++ raw) = .escape e := by
  apply Escape.read_append_congr he
  cases raw <;> simp

/-- **The parts are found in what they are read from.** -/
theorem split_eq (h : Along rest literal parts raw) : split literal raw = parts := by
  induction h with
  | nil literal => rw [split]
  | char literal c parts raw hc h ih =>
      rw [split]
      simp [hc.1, ih]
  | escape literal hliteral e parts raw he h ih =>
      rw [Escape.sequence, List.cons_append, split]
      have hdrop : (e.written ++ raw).drop e.length = raw := List.drop_left
      simp [read_again he, hdrop, ih]

/-- **Decoding the source of a name** gives the characters that its parts mean. -/
theorem unescape_source (h : Along rest literal parts raw) :
    unescape raw = parts.map character := by
  induction h with
  | nil literal => rw [unescape, List.map_nil]
  | char literal c parts raw hc h ih =>
      rw [unescape_cons raw hc.1, ih]
      rfl
  | escape literal hliteral e parts raw he h ih =>
      have hdrop : (e.written ++ raw).drop e.length = raw := List.drop_left
      rw [Escape.sequence, List.cons_append, unescape_escape (read_again he), hdrop, ih,
        List.map_cons, character_ofEscape]

/-- A name without a backslash is its own text. -/
theorem flatMap_text (h : Along rest literal parts raw) (hback : '\\' ∉ raw) :
    parts.flatMap text = raw := by
  induction h with
  | nil => rfl
  | char literal c parts raw hc h ih =>
      exact congrArg (c :: ·) (ih (fun hmem => hback (List.mem_cons_of_mem c hmem)))
  | escape literal hliteral e parts raw he h ih => simp [Escape.sequence] at hback

/-- A blank at the end of a name belongs to an escape. -/
theorem escape_of_blank (h : Along rest literal parts raw) {b : Char}
    (hlast : raw.getLast? = some b) (hb : isBlank b = true) :
    ∃ front e, raw = front ++ e.sequence ∧ Escape.read (e.written ++ rest) = .escape e := by
  induction h with
  | nil => cases hlast
  | char literal c parts raw hc h ih =>
      cases raw with
      | nil =>
          obtain rfl : c = b := by simpa using hlast
          rw [hc.2] at hb
          cases hb
      | cons d raw =>
          rw [List.getLast?_cons_cons] at hlast
          obtain ⟨front, e, hraw, he⟩ := ih hlast
          exact ⟨c :: front, e, congrArg (c :: ·) hraw, he⟩
  | escape literal hliteral e parts raw he h ih =>
      cases raw with
      | nil => exact ⟨[], e, by simp, he⟩
      | cons d raw =>
          rw [List.getLast?_append, List.getLast?_cons] at hlast
          obtain ⟨front, e', hraw, he'⟩ := ih (by simpa [List.getLast?_cons] using hlast)
          exact ⟨e.sequence ++ front, e', by rw [hraw, List.append_assoc], he'⟩

end Along

/-! ## Decoding the text -/

/-- A part of some name. -/
def Valid : NamePart → Prop
  | char c => Plain c
  | decoded e => Plain e.character
  | kept e => ∃ cs, Escape.read cs = .escape e

/-- The second part may stand behind the first one: no character that an escape would go on with
stands behind it. -/
def Follows : NamePart → NamePart → Prop
  | kept e, char c => e.goesOn c = false
  | _, _ => True

/-- Parts as they stand in a name. -/
structure Sound (parts : List NamePart) : Prop where
  valid : ∀ p ∈ parts, p.Valid
  follows : parts.IsChain Follows

namespace Sound

variable {p : NamePart} {parts : List NamePart}

theorem tail (h : Sound (p :: parts)) : Sound parts where
  valid := (List.forall_mem_cons.1 h.valid).2
  follows := h.follows.tail

theorem drop (h : Sound parts) (n : Nat) : Sound (parts.drop n) where
  valid := fun p hp => h.valid p (List.mem_of_mem_drop hp)
  follows := h.follows.drop n

/-- A character may stand before any parts. -/
theorem cons_char {c : Char} (hc : Plain c) (h : Sound parts) : Sound (.char c :: parts) where
  valid := List.forall_mem_cons.2 ⟨hc, h.valid⟩
  follows := List.isChain_cons.2 ⟨fun _ _ => trivial, h.follows⟩

theorem append_chars {cs : List Char} (hcs : ∀ c ∈ cs, Plain c) (h : Sound parts) :
    Sound (cs.map char ++ parts) := by
  induction cs with
  | nil => exact h
  | cons c cs ih =>
      obtain ⟨hc, hcs⟩ := List.forall_mem_cons.1 hcs
      exact cons_char hc (ih hcs)

end Sound

/-- Parts that are read along a text stand as they do in a name. -/
theorem Along.sound {rest raw : List Char} {literal : Char → Bool} {parts : List NamePart}
    (h : Along rest literal parts raw) : Sound parts := by
  induction h with
  | nil => exact ⟨by simp, .nil⟩
  | char literal c parts raw hc h ih => exact ih.cons_char hc
  | escape literal hliteral e parts raw he h ih =>
      refine ⟨List.forall_mem_cons.2 ⟨?_, ih.valid⟩, List.isChain_cons.2 ⟨?_, ih.follows⟩⟩
      · unfold ofEscape
        split
        · next hdecoded =>
            rw [Bool.and_eq_true] at hdecoded
            exact plain_of_isNameChar (hliteral _ hdecoded.2)
        · exact ⟨_, he⟩
      · -- The escape was read before the first character of the next part.
        intro q hq
        cases h with
        | nil => cases hq
        | char _ c parts raw hc h =>
            obtain rfl := Option.some.inj hq
            have hstop := (Escape.read_append_iff he _).1 he c rfl
            unfold ofEscape
            split
            · trivial
            · exact hstop
        | escape _ hliteral' e' parts raw he' h =>
            obtain rfl := Option.some.inj hq
            unfold ofEscape
            split <;> split <;> trivial

/-- The text of a part begins with a character that ends an escape. -/
theorem head?_text {p : NamePart} (h : p.Valid) :
    ∃ c cs, p.text = c :: cs ∧ isBlank c = false := by
  cases p with
  | char c => exact ⟨c, [], rfl, h.2⟩
  | decoded e => exact ⟨e.character, [], rfl, h.2⟩
  | kept e => exact ⟨'\\', e.written, rfl, by decide⟩

/-- No blank begins the text of parts. -/
theorem isBlank_head?_flatMap {parts : List NamePart} (h : ∀ p ∈ parts, p.Valid) :
    ∀ c ∈ (parts.flatMap text).head?, isBlank c = false := by
  cases parts with
  | nil => simp
  | cons p parts =>
      obtain ⟨c, cs, htext, hc⟩ := head?_text (List.forall_mem_cons.1 h).1
      simpa [htext] using hc

/-- **Digits at the front of the text of parts** are the text of whole parts. -/
theorem drop_moreDigits {parts : List NamePart} (h : ∀ p ∈ parts, p.Valid) (n : Nat) :
    let k := (Escape.moreDigits n (parts.flatMap text)).length
    k ≤ parts.length ∧ (parts.flatMap text).drop k = (parts.drop k).flatMap text := by
  unfold Escape.moreDigits
  generalize 6 - n = m
  induction parts generalizing m with
  | nil => simp
  | cons p parts ih =>
      obtain ⟨c, cs, htext, hc⟩ := head?_text (List.forall_mem_cons.1 h).1
      cases m with
      | zero => simp
      | succ m =>
          by_cases hhex : isHexDigit c = true
          · -- An escape that stays begins with its backslash, so this part is one character.
            obtain rfl : cs = [] := by
              cases p with
              | char | decoded => exact (List.cons.inj htext).2.symm
              | kept e =>
                  rw [← (List.cons.inj htext).1] at hhex
                  cases hhex
            obtain ⟨hle, hdrop⟩ := ih (List.forall_mem_cons.1 h).2 m
            intro k
            have hcount : k ≤ (p :: parts).length := by simpa [k, htext, hhex] using hle
            have hrest :
                ((p :: parts).flatMap text).drop k = ((p :: parts).drop k).flatMap text := by
              simp [k, htext, hhex, hdrop]
            exact ⟨hcount, hrest⟩
          · simp [htext, hhex]

/-- An escape that stays merges with the part behind it if it goes on with the first character of
what follows. -/
theorem merges_iff {e : Escape} {parts : List NamePart} (h : Sound (kept e :: parts)) :
    (∀ q ∈ parts.head?, (kept e).merges q = false) ↔
      ∀ c ∈ (parts.flatMap text).head?, e.goesOn c = false := by
  cases parts with
  | nil => simp
  | cons q parts =>
      have hfollows := (List.isChain_cons.1 h.follows).1 q rfl
      have hvalid : q.Valid := h.tail.valid q (List.mem_cons_self ..)
      cases q with
      | char c =>
          have hgoes : e.goesOn c = false := hfollows
          simp [merges, text, hgoes]
      | decoded d =>
          simp [merges, text, Escape.goesOn_of_not_isBlank e hvalid.2]
      | kept d =>
          have hgoes : e.goesOn '\\' = false := by
            rw [Escape.goesOn_of_not_isBlank e (by decide), Bool.and_eq_false_iff]
            exact .inr (by decide)
          simp [merges, text, Escape.sequence, hgoes]

/-- **One part of a text, decoded.** What is read in its place takes the part, and with it all the
digits that follow an escape which it goes on with. -/
theorem unescape_text_cons {p : NamePart} {parts : List NamePart} (h : Sound (p :: parts)) :
    ∃ c k, unescape ((p :: parts).flatMap text) = c :: unescape ((parts.drop k).flatMap text) ∧
      k ≤ parts.length ∧ (k = 0 → c = p.character) ∧
      (k = 0 ↔ ∀ q ∈ parts.head?, p.merges q = false) := by
  cases p with
  | char c =>
      have hc : Plain c := h.valid _ (List.mem_cons_self ..)
      exact ⟨c, 0, unescape_cons _ hc.1, Nat.zero_le _, fun _ => rfl, by simp [merges]⟩
  | decoded e =>
      have hc : Plain e.character := h.valid _ (List.mem_cons_self ..)
      exact ⟨e.character, 0, unescape_cons _ hc.1, Nat.zero_le _, fun _ => rfl, by simp [merges]⟩
  | kept e =>
      obtain ⟨cs, hread⟩ : ∃ cs, Escape.read cs = .escape e := h.valid _ (List.mem_cons_self ..)
      have htext : (kept e :: parts).flatMap text = '\\' :: (e.written ++ parts.flatMap text) := rfl
      rw [htext, merges_iff h]
      by_cases hstop : ∀ c ∈ (parts.flatMap text).head?, e.goesOn c = false
      · have hdrop : (e.written ++ parts.flatMap text).drop e.length = parts.flatMap text :=
          List.drop_left
        refine ⟨e.character, 0, ?_, Nat.zero_le _, fun _ => rfl, iff_of_true rfl hstop⟩
        rw [unescape_escape ((Escape.read_append_iff hread _).2 hstop), hdrop, List.drop_zero]
      · -- The escape goes on with a digit, and so with all that follow.
        obtain ⟨hle, hdrop⟩ := drop_moreDigits h.tail.valid e.length
        have hends := isBlank_head?_flatMap (h.tail.drop
          (Escape.moreDigits e.length (parts.flatMap text)).length).valid
        rw [← hdrop] at hends
        obtain ⟨c, hc, hgoes⟩ : ∃ c ∈ (parts.flatMap text).head?, e.goesOn c = true := by
          simpa using hstop
        rw [Escape.goesOn_of_not_isBlank e (isBlank_head?_flatMap h.tail.valid c hc),
          Bool.and_eq_true, Bool.and_eq_true, decide_eq_true_eq] at hgoes
        obtain ⟨⟨hall, hlt⟩, hhex⟩ := hgoes
        obtain ⟨e', hread', hlength⟩ := Escape.read_open hread hall hends
        have hmore : (Escape.moreDigits e.length (parts.flatMap text)).length ≠ 0 := by
          intro hzero
          have hdigit := Escape.moreDigits_eq_nil_iff.1 (List.length_eq_zero_iff.1 hzero) c hc hlt
          rw [hhex] at hdigit
          cases hdigit
        refine ⟨e'.character, _, ?_, hle, fun hzero => absurd hzero hmore,
          iff_of_false hmore hstop⟩
        have hrest : (e.written ++ parts.flatMap text).drop e'.length =
            (parts.flatMap text).drop (Escape.moreDigits e.length (parts.flatMap text)).length := by
          rw [hlength]
          exact List.drop_length_add_append _
        rw [unescape_escape hread', hrest, hdrop]

/-- Decoding a text gives at most one character for each part. -/
theorem length_unescape_text_le {parts : List NamePart} (h : Sound parts) :
    (unescape (parts.flatMap text)).length ≤ parts.length := by
  -- An escape may take several parts, so the induction is on their number.
  induction hn : parts.length using Nat.strongRecOn generalizing parts with
  | ind n ih =>
  cases parts with
  | nil => simp [unescape]
  | cons p parts =>
      obtain ⟨c, k, hunescape, hle, -⟩ := unescape_text_cons h
      rw [List.length_cons] at hn
      have hrest := ih (parts.drop k).length (by rw [List.length_drop]; omega) (h.tail.drop k) rfl
      rw [List.length_drop] at hrest
      rw [hunescape, List.length_cons]
      omega

/-- **Decoding the text of a name gives the characters that its parts mean** exactly if no part is
read into the one before it. -/
theorem unescape_text_iff {parts : List NamePart} (h : Sound parts) :
    unescape (parts.flatMap text) = parts.map character ↔
      parts.IsChain (fun p q => p.merges q = false) := by
  induction parts with
  | nil => exact iff_of_true (by simp [unescape]) .nil
  | cons p parts ih =>
      obtain ⟨c, k, hunescape, hle, hcharacter, hk⟩ := unescape_text_cons h
      rw [hunescape, List.isChain_cons, ← hk, List.map_cons, List.cons.injEq]
      by_cases hzero : k = 0
      · subst hzero
        simp only [hcharacter rfl, List.drop_zero, true_and, ih h.tail]
      · -- A part that was taken is missing in the end.
        refine iff_of_false (fun heq => ?_) (fun hchain => hzero hchain.1)
        have hlength := congrArg List.length heq.2
        have hshort := length_unescape_text_le (h.tail.drop k)
        rw [List.length_drop] at hshort
        rw [List.length_map] at hlength
        omega

end NamePart

/-! ## How names are read -/

/-- The piece is read from the characters `raw` before the text `rest`, part by part. -/
structure Piece.Spells (p : Piece) (literal : Char → Bool) (parts : List NamePart)
    (raw rest : List Char) : Prop where
  length : p.length = raw.length
  text : p.text = parts.flatMap NamePart.text
  along : NamePart.Along rest literal parts raw

/-- The piece is read part by part from characters at the front of a text. -/
def Piece.SpellsAhead (p : Piece) (literal : Char → Bool) (cs : List Char) : Prop :=
  ∃ parts raw rest, cs = raw ++ rest ∧ p.Spells literal parts raw rest

namespace Piece

theorem spells_nil {p : Piece} (literal : Char → Bool) (cs : List Char) (hlength : p.length = 0)
    (htext : p.text = []) : p.SpellsAhead literal cs :=
  ⟨[], [], cs, rfl, hlength, htext, .nil literal⟩

theorem SpellsAhead.char {p : Piece} {cs : List Char} (h : p.SpellsAhead isNameChar cs)
    (literal : Char → Bool) {c : Char} (hc : NamePart.Plain c) :
    (ofChar c ++ p).SpellsAhead literal (c :: cs) := by
  obtain ⟨parts, raw, rest, rfl, hlength, htext, halong⟩ := h
  refine ⟨.char c :: parts, c :: raw, rest, rfl, ?_, ?_, .char literal c parts raw hc halong⟩
  · rw [length_append, hlength, List.length_cons, Nat.add_comm]
    rfl
  · rw [text_append, htext]
    rfl

theorem SpellsAhead.escape {p : Piece} {cs : List Char} {e : Escape}
    (hread : Escape.read cs = .escape e) (h : p.SpellsAhead isNameChar (cs.drop e.length))
    {literal : Char → Bool} (hliteral : ∀ c, literal c = true → isNameChar c = true) :
    (ofEscape literal e ++ p).SpellsAhead literal ('\\' :: cs) := by
  obtain ⟨parts, raw, rest, hdrop, hlength, htext, halong⟩ := h
  obtain ⟨⟨tail, rfl⟩, -⟩ := Escape.written_of_read hread
  obtain rfl : tail = raw ++ rest := by rwa [Escape.length, List.drop_left] at hdrop
  refine ⟨.ofEscape literal e :: parts, e.sequence ++ raw, rest, ?_, ?_, ?_,
    .escape literal hliteral e parts raw hread halong⟩
  · simp [Escape.sequence]
  · rw [length_append, hlength, List.length_append]
    rfl
  · rw [text_append, htext, List.flatMap_cons, NamePart.text_ofEscape]
    rfl

/-- **A run of name characters is read part by part.** -/
theorem run_spells (cs : List Char) : (run isNameChar cs).SpellsAhead isNameChar cs := by
  fun_induction run isNameChar cs with
  | case1 => exact spells_nil _ _ rfl rfl
  | case2 c cs hback e hread ih =>
      obtain rfl := beq_iff_eq.1 hback
      exact .escape hread ih (fun _ h => h)
  | case3 | case4 => exact spells_nil _ _ rfl rfl
  | case5 c cs hback hc ih => exact ih.char _ (NamePart.plain_of_isNameChar hc)
  | case6 => exact spells_nil _ _ rfl rfl

/-- **A name is read part by part**, and its first part differs only in what it decodes. -/
theorem name_spells {cs : List Char} (h : Lexeme.nameAhead cs = true) :
    (name cs).SpellsAhead isNameStart cs := by
  cases cs with
  | nil => simp [Lexeme.nameAhead, Lexeme.escapeAhead] at h
  | cons c cs =>
      by_cases hback : c = '\\'
      · subst hback
        cases hread : Escape.read cs with
        | escape e =>
            rw [name_escape hread]
            exact .escape hread (run_spells _) (fun _ => NameText.isNameChar_of_isNameStart)
        | endOfInput | lineBreak =>
            simp [Lexeme.nameAhead, Lexeme.escapeAhead, hread] at h
            cases h
      · have hc : isNameChar c = true := by
          simpa [Lexeme.nameAhead, Lexeme.escapeAhead_of_ne cs hback] using h
        rw [name_cons cs hback hc, run_cons cs hback hc]
        exact (run_spells cs).char _ (NamePart.plain_of_isNameChar hc)

end Piece

end EpubStyle
