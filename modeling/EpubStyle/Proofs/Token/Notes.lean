import EpubStyle.Proofs.Sheet.Signals
import EpubStyle.Proofs.Token.Lexemes

/-!
# What scanning signals

A scanner finds lexical faults only, and never goes back by more than two characters
(`fromScanner_scan`). It delivers no events.
-/

set_option autoImplicit false

namespace EpubStyle

open Text

/-- A lexical fault, or a step back over at most two characters. -/
def Note.Lexical : Note → Prop
  | fault _ code _ => code.isLexical = true
  | stepBack distance => distance ≤ 2

/-- The notes on a piece are those of a scanner. -/
def Piece.Lexical (p : Piece) : Prop := ∀ n ∈ p.notes, n.Lexical

namespace Piece

theorem lexical_of_notes {p : Piece} (h : p.notes = []) : p.Lexical := by
  simp [Lexical, h]

@[simp] theorem lexical_empty : Lexical {} := lexical_of_notes rfl

@[simp] theorem lexical_ofChar (c : Char) : (ofChar c).Lexical := lexical_of_notes rfl

@[simp] theorem lexical_ofText (cs : List Char) : (ofText cs).Lexical := lexical_of_notes rfl

@[simp] theorem lexical_silent (n : Nat) : (silent n).Lexical := lexical_of_notes rfl

@[simp] theorem lexical_withText (p : Piece) (text : List Char) :
    (p.withText text).Lexical ↔ p.Lexical := Iff.rfl

@[simp] theorem lexical_note (text : List Char) (length : Nat) (n : Note) :
    Lexical ⟨text, length, [n]⟩ ↔ n.Lexical := by
  simp [Lexical]

@[simp] theorem lexical_fault (steps : Nat) (code : Code) (arguments : List Wording) :
    (fault steps code arguments).Lexical ↔ code.isLexical = true :=
  lexical_note _ _ _

@[simp] theorem lexical_stepBack (distance : Nat) : (stepBack distance).Lexical ↔ distance ≤ 2 :=
  lexical_note _ _ _

@[simp] theorem lexical_append (p q : Piece) : (p ++ q).Lexical ↔ p.Lexical ∧ q.Lexical := by
  -- Notes behind a piece are moved by its length, which changes where they point and nothing else.
  have hshift : ∀ n : Note, (n.shift p.length).Lexical ↔ n.Lexical := by
    intro n
    cases n <;> rfl
  simp only [Lexical, notes_append, List.mem_append, List.mem_map]
  constructor
  · intro h
    refine ⟨fun n hn => h n (.inl hn), fun n hn => ?_⟩
    exact (hshift n).1 (h _ (.inr ⟨n, hn, rfl⟩))
  · rintro ⟨hp, hq⟩ n (hn | ⟨n, hn, rfl⟩)
    · exact hp n hn
    · exact (hshift n).2 (hq n hn)

/-! ## Names -/

@[simp] theorem lexical_ofEscape (literal : Char → Bool) (e : Escape) :
    (ofEscape literal e).Lexical := by
  intro n hn
  simp only [ofEscape] at hn
  split at hn
  · rw [List.mem_singleton.1 hn]
    rfl
  · cases hn

theorem lexical_escape? {literal : Char → Bool} {cs : List Char} {p : Piece}
    (h : escape? literal cs = some p) : p.Lexical := by
  unfold escape? at h
  split at h <;> cases h
  exact lexical_ofEscape literal _

@[simp] theorem lexical_first (literal : Char → Bool) (cs : List Char) :
    (first literal cs).Lexical := by
  cases cs with
  | nil => exact lexical_empty
  | cons c cs =>
      simp only [first]
      split
      · cases hescape : escape? literal cs with
        | none => simp
        | some p => exact lexical_escape? hescape
      · split <;> simp

@[simp] theorem lexical_run (accept : Char → Bool) (cs : List Char) : (run accept cs).Lexical := by
  fun_induction run accept cs with
  | case1 => exact lexical_empty
  | case2 c cs hback e hread ih => simp [ih]
  | case3 => simp
  | case4 => simp
  | case5 c cs hback haccept ih => simp [ih]
  | case6 => exact lexical_empty

@[simp] theorem lexical_name (cs : List Char) : (name cs).Lexical := by
  simp [name]

end Piece

/-! ## Lexemes -/

namespace Lexeme

@[simp] theorem lexical_identStart (c : Char) (cs : List Char) : (identStart c cs).Lexical := by
  unfold identStart
  split
  · cases hescape : Piece.escape? isNameStart cs with
    | none => simp
    | some p => exact Piece.lexical_escape? hescape
  · split <;> simp

theorem lexical_unit {cs : List Char} {p : Piece} (h : unit cs = some p) : p.Lexical := by
  unfold unit at h
  split at h
  · cases h
  · repeat' split at h
    all_goals cases h
    all_goals simp

@[simp] theorem lexical_commentBody (cs : List Char) : (commentBody cs).Lexical := by
  fun_induction commentBody cs with
  | case1 => simp [Code.isLexical]
  | case2 => simp
  | case3 c cs hend ih => simp [ih]

@[simp] theorem lexical_stringBody (quote : Char) (cs : List Char) :
    (stringBody quote cs).Lexical := by
  fun_induction stringBody quote cs <;> simp_all [Note.Lexical, Code.isLexical]

@[simp] theorem lexical_bareAddress (cs : List Char) : (bareAddress cs).Lexical := by
  fun_induction bareAddress cs <;> simp_all [Code.isLexical]

@[simp] theorem lexical_addressClose (clean : Bool) (cs : List Char) :
    (addressClose clean cs).Lexical := by
  unfold addressClose
  repeat' split
  all_goals simp [Code.isLexical]

@[simp] theorem lexical_address (cs : List Char) : (address cs).Lexical := by
  simp only [address]
  split
  · simp [Code.isLexical]
  · split <;> simp [quotedAddress]

@[simp] theorem lexical_rangeBody (seen : List Char) (count : Nat) (cs : List Char) :
    (rangeBody seen count cs).Lexical := by
  induction cs generalizing seen count with
  | nil => exact Piece.lexical_empty
  | cons c cs ih =>
      simp only [rangeBody]
      split
      · rw [Piece.lexical_append]
        constructor
        · have hnotes : ∀ (b : Bool) (arguments : List Wording), Piece.Lexical
              ⟨[c], 1, if b then [.fault 1 .illegalUnicodeRange arguments] else []⟩ := by
            intro b arguments
            cases b with
            | false => exact Piece.lexical_of_notes rfl
            | true => exact (Piece.lexical_note _ _ _).2 rfl
          exact hnotes _ _
        · exact ih _ _
      · exact Piece.lexical_empty

theorem lexical_probe (c : Char) (cs : List Char) : ∀ n ∈ probe c cs, n.Lexical := by
  unfold probe
  repeat' split
  all_goals simp [Note.Lexical, Code.isLexical]

theorem lexical_ident (c : Char) (cs : List Char) : (ident c cs).piece.Lexical := by
  simp only [ident]
  split <;> simp

theorem lexical_atKeyword (cs : List Char) : (atKeyword cs).piece.Lexical := by
  unfold atKeyword
  split <;> simp

theorem lexical_number (c : Char) (cs : List Char) : (number c cs).piece.Lexical := by
  simp only [number]
  split
  · next suffix hunit => simp [lexical_unit hunit]
  · rw [Piece.lexical_append]
    constructor
    · exact Piece.lexical_ofText _
    · split <;> simp

/-- Whatever is read, its notes are those of a scanner. -/
theorem lexical_of_branch {c : Char} {cs : List Char} {l : Lexeme} (h : Branch c cs l) :
    l.piece.Lexical := by
  cases h with
  | ident => exact lexical_ident c cs
  | atKeyword => exact lexical_atKeyword cs
  | number => exact lexical_number c cs
  | _ => simp [fixed, uri, range, hashName, className]

theorem lexical_read (c : Char) (cs : List Char) : (read c cs).piece.Lexical := by
  intro n hn
  rcases List.mem_append.1 hn with hn | hn
  · exact lexical_probe c cs n hn
  · exact lexical_of_branch (branch_readBody c cs) n hn

end Lexeme

/-! ## Signals -/

/-- The signal is a lexical problem, or a step back over at most two characters. -/
def Signal.FromScanner : Signal → Prop
  | event _ => False
  | problem p => p.code.isLexical = true
  | stepBack distance => distance ≤ 2

/-- A scanner delivers no events. -/
theorem event?_scanSignals (tokens : List Scanned) :
    (scanSignals tokens).filterMap Signal.event? = [] := by
  rw [List.filterMap_eq_nil_iff]
  intro s hs
  obtain ⟨t, -, hs⟩ := List.mem_flatMap.1 hs
  obtain ⟨e, -, rfl⟩ := List.mem_map.1 hs
  cases e <;> rfl

theorem fromScanner_ofLexeme (source : String) (p : Place) (cs : List Char) {l : Lexeme}
    (h : l.piece.Lexical) :
    ∀ e ∈ (Scanned.ofLexeme source p cs l).events, e.toSignal.FromScanner := by
  intro e he
  obtain ⟨n, hn, rfl⟩ := List.mem_map.1 he
  have hlexical : n.Lexical := h n hn
  cases n <;> exact hlexical

theorem fromScanner_scanFrom (source : String) (p : Place) (cs : List Char) :
    ∀ s ∈ scanSignals (scanFrom source p cs), s.FromScanner := by
  fun_induction scanFrom source p cs with
  | case1 => simp [scanSignals]
  | case2 p c cs l ih =>
      intro s hs
      rw [scanSignals, List.flatMap_cons, List.mem_append] at hs
      rcases hs with hs | hs
      · obtain ⟨e, he, rfl⟩ := List.mem_map.1 hs
        exact fromScanner_ofLexeme source p (c :: cs) (Lexeme.lexical_read c cs) e he
      · exact ih s hs

/-- **Scanning signals lexical problems and short steps back.** -/
theorem fromScanner_scan (text source : String) :
    ∀ s ∈ scanSignals (scan text source), s.FromScanner :=
  fromScanner_scanFrom source {} text.toList

end EpubStyle
