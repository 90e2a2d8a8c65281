import EpubStyle.Proofs.Text.Weight
import EpubStyle.Token.Lexeme

/-!
# What names are read from

A piece of a token is read from characters at the front of the text. The pieces of names shrink to
their text, and no exclamation mark stands in them but behind a backslash (`Piece.Takes`). This
holds of runs of characters (`Piece.run_takes`), of names with their first character
(`Piece.name_takes`) and of the start of an identifier (`Lexeme.identStart_takes`).
-/

set_option autoImplicit false

namespace EpubStyle

open Text

/-- The piece is read from the given characters. -/
structure Piece.Takes (p : Piece) (raw : List Char) : Prop where
  length : p.length = raw.length
  shrinks : Shrinks p.text raw
  guarded : Guarded raw

/-- The piece is read from characters at the front of a text. -/
def Piece.TakesFrom (p : Piece) (cs : List Char) : Prop :=
  ∃ raw rest, cs = raw ++ rest ∧ p.Takes raw

/-- A class of characters that names are made of. -/
def NameClass (accept : Char → Bool) : Prop :=
  ∀ c, accept c = true → isWeightless c = false ∧ c ≠ '!'

theorem nameClass_isNameChar : NameClass isNameChar := by
  intro c h
  refine ⟨isWeightless_of_class rfl h, ?_⟩
  rintro rfl
  revert h
  decide

theorem nameClass_isNameStart : NameClass isNameStart :=
  fun c h => nameClass_isNameChar c (by simp [isNameChar, h])

namespace Piece

theorem length_append (p q : Piece) : (p ++ q).length = p.length + q.length := rfl

theorem text_append (p q : Piece) : (p ++ q).text = p.text ++ q.text := rfl

theorem notes_append (p q : Piece) :
    (p ++ q).notes = p.notes ++ q.notes.map (Note.shift p.length) := rfl

theorem Takes.append {p q : Piece} {raw raw' : List Char} (h : p.Takes raw) (h' : q.Takes raw') :
    (p ++ q).Takes (raw ++ raw') where
  length := by rw [List.length_append, ← h.length, ← h'.length, length_append]
  shrinks := h.shrinks.append h'.shrinks
  guarded := h.guarded.append h'.guarded

theorem takes_empty : ({} : Piece).Takes [] := ⟨rfl, .refl _, guarded_of_not_mem (by simp)⟩

theorem takes_stepBack (n : Nat) : (stepBack n).Takes [] :=
  ⟨rfl, .refl _, guarded_of_not_mem (by simp)⟩

theorem takes_ofText {cs : List Char} (h : '!' ∉ cs) : (ofText cs).Takes cs :=
  ⟨rfl, .refl _, guarded_of_not_mem h⟩

theorem takes_ofChar {c : Char} (h : c ≠ '!') : (ofChar c).Takes [c] :=
  ⟨rfl, .refl _, guarded_of_not_mem (by simpa using Ne.symm h)⟩

theorem takes_ofEscape {cs : List Char} {e : Escape} (h : Escape.read cs = .escape e)
    {literal : Char → Bool} (hliteral : NameClass literal) :
    (ofEscape literal e).Takes e.sequence :=
  ⟨rfl, Escape.shrinks_render h (fun c hc => (hliteral c hc).1), Escape.guarded_sequence h⟩

/-- What a run of characters is read from. -/
theorem run_takes {accept : Char → Bool} (haccept : NameClass accept) (cs : List Char) :
    (run accept cs).TakesFrom cs := by
  fun_induction run accept cs with
  | case1 => exact ⟨[], [], rfl, takes_empty⟩
  | case2 c cs hback e hread ih =>
      obtain ⟨⟨rest, hcs⟩, -⟩ := Escape.written_of_read hread
      obtain ⟨raw, rest', hdrop, hraw⟩ := ih
      have hdrop' : cs.drop e.length = rest := by
        rw [hcs, Escape.length, List.drop_left]
      refine ⟨e.sequence ++ raw, rest', ?_, (takes_ofEscape hread haccept).append hraw⟩
      rw [beq_iff_eq] at hback
      rw [hback, Escape.sequence, List.cons_append, List.cons_append, List.append_assoc, ← hdrop,
        hdrop', ← hcs]
  | case3 c cs hback hread | case4 c cs hback hread =>
      exact ⟨[], c :: cs, rfl, takes_stepBack 1⟩
  | case5 c cs hback hc ih =>
      obtain ⟨raw, rest, rfl, hraw⟩ := ih
      exact ⟨c :: raw, rest, rfl, (takes_ofChar (haccept c hc).2).append hraw⟩
  | case6 c cs hback hc => exact ⟨[], c :: cs, rfl, takes_empty⟩

theorem TakesFrom.append {p q : Piece} {cs : List Char} (h : p.TakesFrom cs)
    (h' : q.TakesFrom (cs.drop p.length)) : (p ++ q).TakesFrom cs := by
  obtain ⟨raw, rest, rfl, hraw⟩ := h
  obtain ⟨raw', rest', hrest, hraw'⟩ := h'
  rw [hraw.length, List.drop_left] at hrest
  exact ⟨raw ++ raw', rest', by rw [hrest, List.append_assoc], hraw.append hraw'⟩

/-- What the escape behind a backslash is read from. -/
theorem escape?_takes {literal : Char → Bool} (hliteral : NameClass literal) {cs : List Char}
    {p : Piece} (h : escape? literal cs = some p) : p.TakesFrom ('\\' :: cs) := by
  unfold escape? at h
  split at h
  · next e hread =>
      obtain rfl := (Option.some.inj h).symm
      obtain ⟨⟨rest, hcs⟩, -⟩ := Escape.written_of_read hread
      exact ⟨e.sequence, rest, by rw [Escape.sequence, List.cons_append, ← hcs],
        takes_ofEscape hread hliteral⟩
  all_goals cases h

theorem first_takes {literal : Char → Bool} (hliteral : NameClass literal) (cs : List Char) :
    (first literal cs).TakesFrom cs := by
  cases cs with
  | nil => exact ⟨[], [], rfl, takes_empty⟩
  | cons c cs =>
      simp only [first]
      split
      · next hback =>
          rw [beq_iff_eq] at hback
          subst hback
          cases hescape : escape? literal cs with
          | none => exact ⟨[], _, rfl, takes_stepBack 1⟩
          | some p => exact escape?_takes hliteral hescape
      · split
        · next hc => exact ⟨[c], cs, rfl, takes_ofChar (nameClass_isNameChar c hc).2⟩
        · exact ⟨[], c :: cs, rfl, takes_empty⟩

/-- What a name is read from. -/
theorem name_takes (cs : List Char) : (name cs).TakesFrom cs :=
  (first_takes nameClass_isNameStart cs).append (run_takes nameClass_isNameChar _)

end Piece

namespace Lexeme

/-- What an escape stands for starts with a character that weighs something. -/
theorem solid_render (e : Escape) {literal : Char → Bool} (hliteral : NameClass literal) :
    Solid (e.render literal) := by
  unfold Escape.render
  split
  · next h => exact ⟨_, [], rfl, (hliteral _ (by simp_all)).1⟩
  · exact ⟨'\\', e.written, rfl, by decide⟩

/-- What stands before the run of name characters of an identifier. -/
theorem identStart_takes {c : Char} {cs : List Char} (h : identAhead c cs = true) :
    (identStart c cs).TakesFrom (c :: cs) ∧ Solid (identStart c cs).text := by
  unfold identStart
  split
  · next hback =>
      rw [beq_iff_eq] at hback
      subst hback
      cases hescape : Piece.escape? isNameStart cs with
      | none =>
          refine absurd h ?_
          unfold Piece.escape? at hescape
          split at hescape
          · cases hescape
          all_goals next hread => simp [identAhead, isNameStart, escapeAhead, hread]
      | some p =>
          refine ⟨Piece.escape?_takes nameClass_isNameStart hescape, ?_⟩
          unfold Piece.escape? at hescape
          split at hescape
          · obtain rfl := (Option.some.inj hescape).symm
            exact solid_render _ nameClass_isNameStart
          all_goals cases hescape
  -- A hyphen is taken with what starts the name behind it; anything else starts the name itself.
  · split
    · next hhyphen =>
        rw [beq_iff_eq] at hhyphen
        subst hhyphen
        refine ⟨?_, '-', _, rfl, by decide⟩
        exact Piece.TakesFrom.append ⟨['-'], cs, rfl, Piece.takes_ofChar (by decide)⟩
          (Piece.first_takes nameClass_isNameStart cs)
    · next hback hhyphen =>
        have hstart : isNameStart c = true := by
          have hfalse : escapeAhead (c :: cs) = false := by
            unfold escapeAhead
            split
            · simp_all
            · rfl
          simpa [identAhead, hhyphen, hfalse] using h
        obtain ⟨hweight, hmark⟩ := nameClass_isNameStart c hstart
        exact ⟨⟨[c], cs, rfl, Piece.takes_ofChar hmark⟩, c, [], rfl, hweight⟩

/-- What an identifier or a function is read from. -/
theorem ident_takes {c : Char} {cs : List Char} (h : identAhead c cs = true) :
    (ident c cs).piece.TakesFrom (c :: cs) ∧ Solid (ident c cs).piece.text := by
  obtain ⟨hstart, hsolid⟩ := identStart_takes h
  have hname := hstart.append (Piece.run_takes nameClass_isNameChar _)
  unfold ident
  simp only
  split
  · next rest hrest =>
      refine ⟨hname.append ⟨['('], rest, hrest, Piece.takes_ofChar (by decide)⟩, ?_⟩
      exact (hsolid.append _).append _
  · exact ⟨hname, hsolid.append _⟩

/-- What a name behind an at sign is read from. -/
theorem atKeyword_takes (cs : List Char) :
    (atKeyword cs).piece.TakesFrom ('@' :: cs) ∧ Solid (atKeyword cs).piece.text := by
  unfold atKeyword
  split
  · next cs =>
      exact ⟨Piece.TakesFrom.append ⟨['@', '-'], cs, rfl, Piece.takes_ofText (by decide)⟩
        (Piece.name_takes cs), '@', _, rfl, by decide⟩
  · exact ⟨Piece.TakesFrom.append ⟨['@'], cs, rfl, Piece.takes_ofChar (by decide)⟩
      (Piece.name_takes cs), '@', _, rfl, by decide⟩

/-- What a name behind a hash sign is read from. -/
theorem hashName_takes (cs : List Char) : (hashName cs).piece.TakesFrom ('#' :: cs) :=
  Piece.TakesFrom.append ⟨['#'], cs, rfl, Piece.takes_ofChar (by decide)⟩
    (Piece.run_takes nameClass_isNameChar cs)

/-- What a name behind a point is read from. -/
theorem className_takes (cs : List Char) : (className cs).piece.TakesFrom ('.' :: cs) :=
  Piece.TakesFrom.append ⟨['.'], cs, rfl, Piece.takes_ofChar (by decide)⟩ (Piece.name_takes cs)

end Lexeme

end EpubStyle
