import EpubStyle.Proofs.Token.Semicolons

/-!
# Texts joined by a semicolon

A token that is complete does not go on with a semicolon, and a scanner that has read one knows
nothing of the text in front of it. A text without faults can therefore be put in front of any other
text with a semicolon between them, and each is scanned as by itself.

`stable_of_scanFrom` tells what the end of such a text is not, which is all that
`Lexeme.read_semicolon_append` asks of each of its tokens. The run follows along the recursion of
the scanner (`placeless_scanFrom_append`). Places are left out, for those of the second text move.

Words of media queries at the end are an exception: they are words in front of a blank or nothing.
-/

set_option autoImplicit false

namespace EpubStyle

open Text

/-! ## Tokens without places -/

/-- A fault without its place. -/
def Fault.placeless (f : Fault) : Fault := { f with location := .start }

/-- A token without its place and those of its faults. -/
def Token.placeless (t : Token) : Token :=
  ⟨t.kind, t.text, .start, t.faults.map Fault.placeless⟩

/-- A semicolon, without its place. -/
def Token.semicolon : Token := ⟨.char, ";", .start, []⟩

/-- What a scanned token says of a lexeme does not depend on where it is placed. -/
theorem placeless_ofLexeme (source source' : String) (p p' : Place) (cs cs' : List Char)
    (l : Lexeme) : (Scanned.ofLexeme source p cs l).token.placeless =
      (Scanned.ofLexeme source' p' cs' l).token.placeless := by
  have hfault : ∀ note, (ScanEvent.fault? (ScanEvent.ofNote source p cs note)).map Fault.placeless =
      (ScanEvent.fault? (ScanEvent.ofNote source' p' cs' note)).map Fault.placeless := by
    intro note
    cases note <;> rfl
  simp only [Scanned.ofLexeme, Token.placeless, List.filterMap_map, List.map_filterMap,
    Function.comp_def, hfault]

/-- **The tokens of a text do not depend on where it is placed.** -/
theorem placeless_scanFrom (source source' : String) (p p' : Place) (cs : List Char) :
    (scanFrom source p cs).map (fun s => s.token.placeless) =
      (scanFrom source' p' cs).map (fun s => s.token.placeless) := by
  fun_induction scanFrom source p cs generalizing p' with
  | case1 => simp [scanFrom]
  | case2 p c cs l ih =>
      rw [scanFrom, List.map_cons, List.map_cons,
        placeless_ofLexeme source source' p p' (c :: cs) (c :: cs) l]
      exact congrArg _ (ih _)

/-! ## The end of a text -/

/-- Nothing is wrong with the tokens. -/
def Unfaulted (tokens : List Scanned) : Prop := ∀ s ∈ tokens, s.token.faults = []

/-- A backslash at the end of a text is a fault. -/
theorem not_unfaulted_backslash (source : String) (p : Place) :
    ¬ Unfaulted (scanFrom source p ['\\']) := by
  intro h
  have hfaults := h (Scanned.ofLexeme source p ['\\'] (Lexeme.read '\\' [])) (by simp [scanFrom])
  cases hfaults

theorem not_unfaulted_hyphen (source : String) (p : Place) :
    ¬ Unfaulted (scanFrom source p ['-', '\\']) := by
  intro h
  rw [scanFrom] at h
  exact not_unfaulted_backslash source _ fun s hs => h s (List.mem_cons_of_mem _ hs)

/-- In a text without faults nothing is left behind a token that could go on with a semicolon. -/
theorem stable_of_scanFrom {source : String} {p : Place} {c : Char} {cs : List Char}
    (hclean : Unfaulted (scanFrom source p (c :: cs)))
    (hlast : ∀ s ∈ (scanFrom source p (c :: cs)).getLast?, s.token.kind ∉ [.only, .not, .and]) :
    Lexeme.Stable (c :: cs) (Lexeme.read c cs) := by
  rw [scanFrom, ← List.drop_cons (Lexeme.length_read_pos c cs)] at hclean hlast
  obtain ⟨hfirst, hrest⟩ := List.forall_mem_cons.1 hclean
  refine ⟨⟨Scanned.faults_eq_nil_iff.1 hfirst, fun hback => ?_⟩, fun hhyphen => ?_, fun hnil => ?_⟩
  · rw [hback] at hrest
    exact not_unfaulted_backslash _ _ hrest
  · rw [hhyphen] at hrest
    exact not_unfaulted_hyphen _ _ hrest
  · rw [hnil, scanFrom] at hlast
    exact hlast _ rfl

/-- What is behind a token stays what it is, with a semicolon and more at its end. -/
theorem drop_read_semicolon {c : Char} {cs : List Char} (more : List Char)
    (h : (Lexeme.read c cs).Faultless) :
    (cs ++ ';' :: more).drop ((Lexeme.read c cs).piece.length - 1) =
      cs.drop ((Lexeme.read c cs).piece.length - 1) ++ ';' :: more := by
  refine List.drop_append_of_le_length ?_
  rw [Nat.sub_le_iff_le_add]
  exact Lexeme.length_read_le h

/-- A semicolon is a token, and what stands behind it is scanned from there. -/
theorem placeless_scanFrom_semicolon (source source' : String) (p p' : Place) (more : List Char) :
    (scanFrom source p (';' :: more)).map (fun s => s.token.placeless) =
      .semicolon :: (scanFrom source' p' more).map (fun s => s.token.placeless) := by
  rw [scanFrom, Lexeme.read_semicolon, List.map_cons]
  exact congrArg _ (placeless_scanFrom source source' _ p' more)

/-- **A text without faults is scanned as before in front of a semicolon.** -/
theorem placeless_scanFrom_append (source source' : String) (p p' : Place)
    (cs more : List Char) (hclean : Unfaulted (scanFrom source p cs))
    (hlast : ∀ s ∈ (scanFrom source p cs).getLast?, s.token.kind ∉ [.only, .not, .and]) :
    (scanFrom source p (cs ++ ';' :: more)).map (fun s => s.token.placeless) =
      (scanFrom source p cs).map (fun s => s.token.placeless) ++
        .semicolon :: (scanFrom source' p' more).map (fun s => s.token.placeless) := by
  fun_induction scanFrom source p cs with
  | case1 p => exact placeless_scanFrom_semicolon source source' p p' more
  | case2 p c cs l ih =>
      have hstable : Lexeme.Stable (c :: cs) (Lexeme.read c cs) := by
        rw [← scanFrom] at hclean hlast
        exact stable_of_scanFrom hclean hlast
      obtain ⟨-, hrest⟩ := List.forall_mem_cons.1 hclean
      rw [List.cons_append, scanFrom, Lexeme.read_semicolon_append more hstable,
        drop_read_semicolon more hstable.faultless, List.map_cons, List.map_cons, List.cons_append,
        placeless_ofLexeme source source p p (c :: (cs ++ ';' :: more)) (c :: cs)]
      -- The place behind the token is computed from the longer text.
      refine congrArg _ (.trans ?_ (ih hrest fun s hs => hlast s (List.mem_getLast?_cons hs)))
      exact placeless_scanFrom source source _ _ _

/-! ## Two texts -/

/-- The kinds and texts of the tokens. -/
def spellings (tokens : List Scanned) : List (TokenKind × String) :=
  tokens.map fun s => (s.token.kind, s.token.text)

/-- The codes and arguments of the faults, in order. -/
def complaints (tokens : List Scanned) : List (Code × List Wording) :=
  (tokens.flatMap fun s => s.token.faults).map fun f => (f.code, f.arguments)

theorem spellings_eq (tokens : List Scanned) :
    spellings tokens = (tokens.map fun s => s.token.placeless).map fun t => (t.kind, t.text) := by
  rw [spellings, List.map_map]
  rfl

theorem complaints_eq (tokens : List Scanned) :
    complaints tokens = ((tokens.map fun s => s.token.placeless).flatMap Token.faults).map
      fun f => (f.code, f.arguments) := by
  simp only [complaints, List.map_flatMap, List.flatMap_map, Token.placeless, List.map_map,
    Function.comp_def, Fault.placeless]

theorem Unfaulted.complaints_eq_nil {tokens : List Scanned} (h : Unfaulted tokens) :
    complaints tokens = [] := by
  rw [complaints, List.flatMap_eq_nil_iff.2 h, List.map_nil]

/-- **A semicolon forgets the text in front of it.** A text without faults, whose last token is no
word of media queries, can be followed by a semicolon and any other text: each is scanned as by
itself, and what is wrong is what is wrong with the other text. -/
theorem scan_semicolon (a b source : String) (hclean : Unfaulted (scan a source))
    (hlast : ∀ s ∈ (scan a source).getLast?, s.token.kind ∉ [.only, .not, .and]) :
    spellings (scan (a ++ ";" ++ b) source) =
        spellings (scan a source) ++ (.char, ";") :: spellings (scan b source) ∧
      complaints (scan (a ++ ";" ++ b) source) = complaints (scan b source) := by
  have hscan := placeless_scanFrom_append source source {} {} a.toList b.toList hclean hlast
  have htext : a.toList ++ ';' :: b.toList = (a ++ ";" ++ b).toList := by simp
  rw [htext, ← scan, ← scan, ← scan] at hscan
  constructor
  · rw [spellings_eq, hscan, List.map_append, List.map_cons, ← spellings_eq, ← spellings_eq]
    rfl
  · have hnone := hclean.complaints_eq_nil
    rw [complaints_eq] at hnone
    rw [complaints_eq, hscan, List.flatMap_append, List.map_append, hnone, List.flatMap_cons,
      List.nil_append, complaints_eq]
    rfl

/-- Behind a color and a semicolon an address that is not closed is scanned as by itself. -/
theorem scan_semicolon_address :
    spellings (scan "#f0f;url(a" "") = [(.hashName, "#f0f"), (.char, ";"), (.uri, "url(a)")] ∧
      complaints (scan "#f0f;url(a" "") = [(.lexicalEnd, [])] := by
  have hscan : scan "#f0f" "" = [⟨⟨.hashName, "#f0f", ⟨1, 1, 1, ""⟩, []⟩, []⟩] := by decide +kernel
  have hrest : scan "url(a" "" = [⟨⟨.uri, "url(a)", ⟨1, 1, 1, ""⟩,
      [⟨.lexicalEnd, ⟨1, 6, 6, ""⟩, []⟩]⟩, [.fault ⟨.lexicalEnd, ⟨1, 6, 6, ""⟩, []⟩]⟩] := by
    decide +kernel
  have h := scan_semicolon "#f0f" "url(a" "" (by simp [hscan, Unfaulted]) (by simp [hscan])
  rw [hscan, hrest] at h
  exact h

-- A word of media queries at the end of a text is a name in front of a semicolon.
example : spellings (scan "only" "") = [(.only, "only")] ∧
    spellings (scan "only;" "") = [(.ident, "only"), (.char, ";")] := by
  constructor <;> decide +kernel

end EpubStyle
