import EpubStyle.Proofs.Rescan.Readers
import EpubStyle.Proofs.Spans.Basic
import EpubStyle.Proofs.Token.Openings

/-!
# Tokens scanned by themselves

The text of a token is normalised, and it is scanned again without what followed it. Still it is one
token, of the kind it was (`rescans_of_mem_scan`), but for a name: the words `only`, `not` and `and`
are identifiers only where something other than a blank follows them (`Token.kindAlone`).

Normalising does not always keep what the scanner told apart, and `Token.Stable` says where it does.
A backslash that is no escape, an opening `url(` behind an escape, an escape that is read with
digits that were escapes themselves, an apostrophe in an address that gets apostrophes for quotation
marks, and a blank behind a backslash at the end of an address are all lost in the text.
-/

set_option autoImplicit false

namespace EpubStyle

open Text

namespace Token

/-- The kind of the token that the text of a token makes by itself. -/
def kindAlone (t : Token) : TokenKind :=
  if t.kind = .ident then Lexeme.nameKind t.text.toList else t.kind

/-- The text of a token says what the scanner read. -/
@[mk_iff]
structure Stable (t : Token) : Prop where
  /-- The token is no single backslash, which is an error where the text ends. -/
  backslash : t.kind = .char → t.text.toList ≠ ['\\']
  /-- What is written as an escape denotes a character where it stands now. -/
  escapes : t.kind ∈ [.ident, .function, .atKeyword, .hashName, .className, .quantity .dimension] →
    EscapesMeant t.text.toList
  /-- No function reads as the opening of an address. -/
  function : t.kind = .function → sameWord ['u', 'r', 'l', '('] t.text.toList = false
  /-- No unknown unit reads as a known one. -/
  unit : t.kind = .quantity .dimension →
    (Lexeme.measure (Piece.name (unitText t.text.toList)).text).2 = .dimension
  /-- An address stands by itself between its parentheses. -/
  address : t.kind = .uri → AddressStands (t.text.toList.drop 4).dropLast

/-- Scanned by itself, the text of the token is one token of the kind, and no error is found. -/
def Rescans (t : Token) (kind : TokenKind) : Prop :=
  ∀ source, ∃ s, scan t.text source = [s] ∧ s.token.kind = kind ∧ ∀ e ∈ s.events, e.fault? = none

end Token

theorem scanFrom_eq_nil_iff {source : String} {p : Place} {cs : List Char} :
    scanFrom source p cs = [] ↔ cs = [] := by
  cases cs with
  | nil => simp [scanFrom]
  | cons c cs => simp [scanFrom]

/-- A text that is one lexeme is scanned as one token. -/
theorem scan_eq_singleton {c : Char} {cs : List Char}
    (h : (Lexeme.read c cs).piece.length = (c :: cs).length) {text : String}
    (htext : text.toList = c :: cs) (source : String) :
    scan text source = [Scanned.ofLexeme source {} (c :: cs) (Lexeme.read c cs)] := by
  have hrest : cs.drop ((Lexeme.read c cs).piece.length - 1) = [] := by simp [h]
  rw [scan, htext, scanFrom, hrest, scanFrom]

/-- The text is scanned as one token, and nothing is wrong with it. -/
def ScansAs (text : String) (kind : TokenKind) (spelled : String) : Prop :=
  ∀ source, ∃ t : Token, scan text source = [⟨t, []⟩] ∧ t.kind = kind ∧ t.text = spelled ∧
    t.faults = []

theorem scansAs_of_read {c : Char} {cs text : List Char} {kind : TokenKind}
    (hbody : Lexeme.readBody c cs = ⟨kind, ⟨text, (c :: cs).length, []⟩⟩)
    (hprobe : Lexeme.probe c cs = []) :
    ScansAs (String.ofList (c :: cs)) kind (String.ofList text) := by
  have hread : Lexeme.read c cs = ⟨kind, ⟨text, (c :: cs).length, []⟩⟩ := by
    rw [Lexeme.read, hbody, hprobe]
    rfl
  intro source
  have hscan := scan_eq_singleton (by rw [hread]) String.toList_ofList source
  rw [hread] at hscan
  exact ⟨_, hscan, rfl, rfl, rfl⟩

/-- A text is scanned as one token if it is read as one lexeme. -/
theorem Token.rescans_iff {t : Token} {kind : TokenKind} :
    t.Rescans kind ↔ Lexeme.ReadsAs kind t.text.toList := by
  have hscan : ∀ source c cs, t.text.toList = c :: cs → scan t.text source =
      Scanned.ofLexeme source {} (c :: cs) (Lexeme.read c cs) ::
        scanFrom source (({} : Place).advance (Lexeme.read c cs).piece.length (c :: cs))
          (cs.drop ((Lexeme.read c cs).piece.length - 1)) := by
    intro source c cs htext
    rw [scan, htext, scanFrom]
  constructor
  · intro hrescans
    obtain ⟨s, hs, hkind, hevents⟩ := hrescans ""
    obtain ⟨c, cs, htext⟩ : ∃ c cs, t.text.toList = c :: cs := by
      apply List.exists_cons_of_ne_nil
      intro hnil
      rw [scan, hnil, scanFrom] at hs
      cases hs
    rw [hscan "" c cs htext] at hs
    obtain ⟨rfl, hrest⟩ := List.cons.inj hs
    -- Nothing is left behind the lexeme, and it takes no more than there is.
    rw [scanFrom_eq_nil_iff, List.drop_eq_nil_iff] at hrest
    have hfaultless := Scanned.faultless_iff.1 hevents
    have hle := Lexeme.length_read_le hfaultless
    have hpositive := Lexeme.length_read_pos c cs
    refine ⟨c, cs, htext, hkind, ?_, hfaultless⟩
    rw [List.length_cons] at hle
    rw [htext, List.length_cons]
    omega
  · rintro ⟨c, cs, htext, hkind, hlength, hfaultless⟩ source
    rw [htext] at hlength
    exact ⟨_, scan_eq_singleton hlength htext source, hkind, Scanned.faultless_iff.2 hfaultless⟩

namespace Lexeme

theorem kind_token (l : Lexeme) : l.token.kind = l.kind := rfl

theorem toList_token (l : Lexeme) : l.token.text.toList = l.piece.text := String.toList_ofList

theorem kindAlone_token {l : Lexeme} (h : l.kind ≠ .ident) : l.token.kindAlone = l.kind :=
  if_neg h

/-- **A lexeme is read again from its text** exactly if the text says what was read. -/
theorem readsAs_readBody_iff {c : Char} {cs : List Char}
    (hkind : (readBody c cs).kind ∉ [.space, .comment, .string])
    (hfaultless : (readBody c cs).Faultless) :
    ReadsAs (readBody c cs).token.kindAlone (readBody c cs).token.text.toList ↔
      (readBody c cs).token.Stable := by
  rw [Token.stable_iff, kind_token, toList_token]
  generalize readBody c cs = l, branch_readBody c cs = hbranch at *
  -- Fixed texts, words and ranges are always read again; the others as their readers have it.
  cases hbranch with
  | space | comment | string => simp at hkind
  | commentClose | commentOpen | important =>
      exact iff_of_true (.of_fixed rfl (.inl (by decide))) (by simp [fixed])
  | only hword =>
      exact iff_of_true (readsAs_only (sameWord_of_wordAhead hword)) (by simp [fixed])
  | not hword =>
      exact iff_of_true (readsAs_not (sameWord_of_wordAhead hword)) (by simp [fixed])
  | and hword =>
      exact iff_of_true (readsAs_and (sameWord_of_wordAhead hword)) (by simp [fixed])
  | range hletter hahead =>
      exact iff_of_true (readsAs_range hahead hfaultless) (by simp [range])
  | operator kind hoperator =>
      have hmem := kind_operator hoperator
      have hne : kind ≠ .ident := by
        rintro rfl
        simp at hmem
      have halone : (fixed kind [c, '=']).token.kindAlone = kind := kindAlone_token hne
      rw [halone]
      refine iff_of_true (readsAs_operator hoperator) ?_
      simp only [List.mem_cons, List.not_mem_nil, or_false] at hmem
      rcases hmem with rfl | rfl | rfl | rfl | rfl <;> simp [fixed]
  | uri =>
      have hbetween : ((uri cs).piece.text.drop 4).dropLast = (address (cs.drop 3)).text :=
        List.dropLast_concat
      have hkind : (uri cs).kind = .uri := rfl
      rw [kindAlone_token (by simp [hkind]), hkind, hbetween]
      exact (readsAs_uri_iff hfaultless).trans (by simp)
  | ident hahead =>
      rcases ident_cases c cs with hident | hident
      · rw [hident]
        have htext : (identName c cs ++ Piece.ofChar '(').text = (identName c cs).text ++ ['('] :=
          rfl
        simp only [htext]
        exact (readsAs_function_iff hahead).trans (by simp [and_comm])
      · rw [hident]
        have halone : Token.kindAlone (Lexeme.token ⟨.ident, identName c cs⟩) =
            nameKind (identName c cs).text := by
          rw [Token.kindAlone, toList_token]
          rfl
        rw [halone]
        exact (readsAs_name_iff hahead).trans (by simp)
  | atKeyword hc hahead =>
      have hkind := kind_atKeyword cs
      rw [kindAlone_token (by simp [hkind]), hkind]
      exact (readsAs_atKeyword_iff hahead).trans (by simp)
  | number hahead =>
      obtain ⟨m, hm⟩ := kind_number c cs
      rw [kindAlone_token (by simp [hm])]
      refine (readsAs_number_iff hahead).trans ?_
      simp only [hm]
      cases m <;> simp
  | hashName hc hahead => exact (readsAs_hashName_iff hahead).trans (by simp [hashName])
  | className hc hahead hdigit =>
      exact (readsAs_className_iff hahead hdigit).trans (by simp [className])
  | char hblank hname hdigit hquote =>
      exact (readsAs_char_iff hblank hname hdigit hquote).trans (by simp [fixed, Piece.ofText])

end Lexeme

/-- A token is scanned again from its text exactly if the text says what was read. -/
theorem rescans_iff_stable {text source : String} {s : Scanned} (hs : s ∈ scan text source)
    (hkind : s.token.kind ∉ [.space, .comment, .string]) (hfaults : s.token.faults = []) :
    s.token.Rescans s.token.kindAlone ↔ s.token.Stable := by
  obtain ⟨p, c, cs, rfl⟩ := exists_lexeme_of_mem_scan hs
  have hfaultless : (Lexeme.read c cs).Faultless := Scanned.faults_eq_nil_iff.1 hfaults
  have hbody : (Lexeme.readBody c cs).Faultless :=
    fun n hn => hfaultless n (List.mem_append_right _ hn)
  have hreads := Lexeme.readsAs_readBody_iff hkind hbody
  rw [Token.stable_iff] at hreads
  rw [Token.stable_iff, Token.rescans_iff]
  exact hreads

/-- **The text of a token, scanned by itself, is one token of the same kind**, or a word of media
queries where an identifier reads as one. -/
theorem rescans_of_mem_scan {text source : String} {s : Scanned} (hs : s ∈ scan text source)
    (hkind : s.token.kind ∉ [.space, .comment, .string]) (hfaults : s.token.faults = [])
    (hstable : s.token.Stable) : s.token.Rescans s.token.kindAlone :=
  (rescans_iff_stable hs hkind hfaults).2 hstable

/-- A dimension with an escape is one by itself, and an identifier before a semicolon is the word
that it reads as. -/
theorem rescans_of_mem_scan_escaped :
    (∃ s ∈ scan "ONLY;1a\\:b" "", s.token.kind = .quantity .dimension ∧
      s.token.text = "1a\\:b" ∧ s.token.Rescans (.quantity .dimension)) ∧
    ∃ s ∈ scan "ONLY;1a\\:b" "", s.token.kind = .ident ∧ s.token.text = "ONLY" ∧
      s.token.Rescans .only := by
  have hscan : scan "ONLY;1a\\:b" "" =
      [⟨⟨.ident, "ONLY", ⟨1, 1, 1, ""⟩, []⟩, []⟩, ⟨⟨.char, ";", ⟨1, 5, 5, ""⟩, []⟩, []⟩,
        ⟨⟨.quantity .dimension, "1a\\:b", ⟨1, 6, 6, ""⟩, []⟩, []⟩] := by
    decide +kernel
  constructor
  · have hmem : ⟨⟨.quantity .dimension, "1a\\:b", ⟨1, 6, 6, ""⟩, []⟩, []⟩ ∈
        scan "ONLY;1a\\:b" "" := by simp [hscan]
    have hnotes : (Piece.run (fun _ => true) "1a\\:b".toList).notes = [] := by decide +kernel
    refine ⟨_, hmem, rfl, rfl, rescans_of_mem_scan hmem (by simp) rfl ⟨?_, ?_, ?_, ?_, ?_⟩⟩
    · exact fun h => by cases h
    · exact fun _ => Piece.faultless_of_notes hnotes
    · exact fun h => by cases h
    · exact fun _ => by decide +kernel
    · exact fun h => by cases h
  · have hmem : ⟨⟨.ident, "ONLY", ⟨1, 1, 1, ""⟩, []⟩, []⟩ ∈ scan "ONLY;1a\\:b" "" := by
      simp [hscan]
    refine ⟨_, hmem, rfl, rfl, rescans_of_mem_scan hmem (by simp) rfl ⟨?_, ?_, ?_, ?_, ?_⟩⟩
    · exact fun h => by cases h
    · exact fun _ => escapesMeant_of_not_mem (by decide)
    · exact fun h => by cases h
    · exact fun h => by cases h
    · exact fun h => by cases h

/-- **Not every token is of the same kind by itself**: the identifier of `only;` is the word
`only`. -/
theorem not_forall_rescans :
    ¬ ∀ text source, ∀ s ∈ scan text source, s.token.kind ∉ [.space, .comment, .string] →
      s.token.faults = [] → s.token.Rescans s.token.kind := by
  intro h
  have hscan : scan "only;" "" =
      [⟨⟨.ident, "only", ⟨1, 1, 1, ""⟩, []⟩, []⟩, ⟨⟨.char, ";", ⟨1, 5, 5, ""⟩, []⟩, []⟩] := by
    decide +kernel
  have hagain : scan "only" "" = [⟨⟨.only, "only", ⟨1, 1, 1, ""⟩, []⟩, []⟩] := by
    decide +kernel
  have hmem : ⟨⟨.ident, "only", ⟨1, 1, 1, ""⟩, []⟩, []⟩ ∈ scan "only;" "" := by simp [hscan]
  obtain ⟨s, hs, hkind, -⟩ := h "only;" "" _ hmem (by simp) rfl ""
  rw [hagain] at hs
  obtain rfl := List.head_eq_of_cons_eq hs
  cases hkind

end EpubStyle
