import EpubStyle.Construct.Nesting

/-!
# Tokens that fit

The trees of the concrete syntax are built from tokens that fit where they stand: a single
character (`Mark`), a token of one kind (`Word`), white space and comments (`Gap`). What a token is
at the start of a value excludes what else it could be, which is said here once for the brackets of
functions and groups (`Token.closes_of_valueStart`) and for the characters that end a statement
(`Token.not_isChar_of_valueStart`). A brace (`Token.IsBrace`) is no part of any value.
-/

set_option autoImplicit false

namespace EpubStyle

namespace Concrete

/-! ## Tokens that fit -/

/-- A token that is the single character `c`. -/
abbrev Mark (c : Char) := { t : Token // t.isChar c = true }

/-- A token of the kind `k`. -/
abbrev Word (k : TokenKind) := { t : Token // t.kind = k }

/-- White space and comments. -/
abbrev Gap := { ts : List Token // ∀ t ∈ ts, t.isBlank = true }

/-- A gap with one more token before it. -/
def Gap.cons (t : Token) (h : t.isBlank = true) (g : Gap) : Gap :=
  ⟨t :: g.1, List.forall_mem_cons.2 ⟨h, g.2⟩⟩

@[simp] theorem Gap.cons_val (t : Token) (h : t.isBlank = true) (g : Gap) :
    (Gap.cons t h g).1 = t :: g.1 := rfl

/-- A gap with one more token behind it. -/
def Gap.snoc (g : Gap) (t : Token) (h : t.isBlank = true) : Gap :=
  ⟨g.1 ++ [t], by
    intro u hu
    rcases List.mem_append.1 hu with hu | hu
    · exact g.2 u hu
    · rwa [List.mem_singleton.1 hu]⟩

@[simp] theorem Gap.snoc_val (g : Gap) (t : Token) (h : t.isBlank = true) :
    (g.snoc t h).1 = g.1 ++ [t] := rfl

/-- No white space and no comments. -/
def Gap.empty : Gap := ⟨[], by simp⟩

@[simp] theorem Gap.empty_val : Gap.empty.1 = [] := rfl

/-- Tokens are a gap and what is no gap any more. -/
theorem Gap.exists_append (ts : List Token) :
    ∃ (g : Gap) (us : List Token), ts = g.1 ++ us ∧ ∀ t ∈ us.head?, t.isBlank = false := by
  induction ts with
  | nil => exact ⟨.empty, [], rfl, by simp⟩
  | cons t ts ih =>
      by_cases hblank : t.isBlank = true
      · obtain ⟨g, us, rfl, hus⟩ := ih
        exact ⟨.cons t hblank g, us, rfl, hus⟩
      · exact ⟨.empty, t :: ts, rfl, by simpa using hblank⟩

end Concrete

/-! ## Delimiters -/

namespace Opening

/-- What the first token of a function or group is at the start of a value. -/
def toStart : Opening → ValueStart
  | function name => .function name
  | group delimiter => .group delimiter

/-- The character that closes a function or group. -/
def closer : Opening → Char
  | function _ | group .parenthesis => ')'
  | group .bracket => ']'

/-- The token closes a function or group. -/
def closes (o : Opening) : TokenClass := fun t => t.isChar o.closer

end Opening

theorem Frame.closedBy_eq (f : Frame) (t : Token) : f.closedBy t = f.opening.closes t := by
  rcases f with ⟨opening, location, members⟩
  cases opening with
  | function name => rfl
  | group delimiter => cases delimiter <;> rfl

/-- No token is of this class. -/
def TokenClass.never : TokenClass := fun _ => false

/-! ## Starts of values -/

/-- The name of a function is what stands before its parenthesis, in lower case. -/
theorem functionName_of_text {t : Token} {name : String} (h : t.text = name ++ "(") :
    t.functionName = Text.lowerCase name := by
  have hparenthesis : "(".toList = ['('] := rfl
  simp [Token.functionName, h, hparenthesis]

namespace Token

theorem kind_of_isChar {t : Token} {c : Char} (h : t.isChar c = true) : t.kind = .char := by
  simp only [isChar, Bool.and_eq_true, beq_iff_eq] at h
  exact h.1

theorem text_of_isChar {t : Token} {c : Char} (h : t.isChar c = true) : t.text.toList = [c] := by
  simp only [isChar, Bool.and_eq_true, beq_iff_eq] at h
  exact h.2

/-- A token is at most one character. -/
theorem isChar_eq_false {t : Token} {c d : Char} (h : t.isChar c = true) (hcd : c ≠ d) :
    t.isChar d = false := by
  simp [isChar, text_of_isChar h, hcd]

theorem eq_of_isChar {t : Token} {c d : Char} (h : t.isChar c = true) (h' : t.isChar d = true) :
    c = d := by
  have htext : [c] = [d] := (text_of_isChar h).symm.trans (text_of_isChar h')
  exact (List.cons.inj htext).1

/-- A token of another kind is no single character. -/
theorem isChar_of_kind {t : Token} (h : t.kind ≠ .char) (c : Char) : t.isChar c = false := by
  simp [isChar, h]

/-- A single character is neither white space nor a comment. -/
theorem not_isBlank_of_isChar {t : Token} {c : Char} (h : t.isChar c = true) :
    t.isBlank = false := by
  simp [isBlank, kind_of_isChar h]

theorem isBlank_iff {t : Token} : t.isBlank = true ↔ t.kind = .space ∨ t.kind = .comment := by
  simp only [isBlank, Bool.or_eq_true, beq_iff_eq]

/-- White space and comments are no single characters. -/
theorem isChar_of_isBlank {t : Token} (h : t.isBlank = true) (c : Char) : t.isChar c = false := by
  rcases isBlank_iff.1 h with hkind | hkind
  · exact isChar_of_kind (by simp [hkind]) c
  · exact isChar_of_kind (by simp [hkind]) c

theorem not_important_of_isBlank {t : Token} (h : t.isBlank = true) : t.kind ≠ .important := by
  rcases isBlank_iff.1 h with hkind | hkind <;> simp [hkind]

/-- White space and comments start no value. -/
theorem valueStart_of_isBlank {t : Token} (h : t.isBlank = true) : t.valueStart = .nothing := by
  rcases isBlank_iff.1 h with hkind | hkind <;> simp [valueStart, hkind]

/-- Braces and semicolons start no value. -/
theorem valueStart_of_isChar {t : Token} {c : Char} (h : t.isChar c = true)
    (hc : c ∈ ['{', '}', ';']) : t.valueStart = .nothing := by
  simp only [List.mem_cons, List.not_mem_nil, or_false] at hc
  rcases hc with rfl | rfl | rfl <;> simp [valueStart, kind_of_isChar h, text_of_isChar h]

/-- A single token that is a value keeps its text and its location. -/
theorem eq_of_valueStart_atom {t : Token} {c : Construct} (h : t.valueStart = .atom c) :
    (∃ kind : AtomKind, c = .atom kind t.text t.location) ∨
      ∃ m : Measure, c = .quantity t.text m t.location := by
  unfold valueStart at h
  cases hk : t.kind with
  | quantity m => exact Or.inr ⟨m, by simpa [hk] using h.symm⟩
  | ident => exact Or.inl ⟨.keyword, by simpa [hk] using h.symm⟩
  | and => exact Or.inl ⟨.keyword, by simpa [hk] using h.symm⟩
  | not => exact Or.inl ⟨.keyword, by simpa [hk] using h.symm⟩
  | only => exact Or.inl ⟨.keyword, by simpa [hk] using h.symm⟩
  | uri => exact Or.inl ⟨.uri, by simpa [hk] using h.symm⟩
  | string => exact Or.inl ⟨.string, by simpa [hk] using h.symm⟩
  | unicodeRange => exact Or.inl ⟨.unicodeRange, by simpa [hk] using h.symm⟩
  | hashName => exact Or.inl ⟨.hashName, by simpa [hk] using h.symm⟩
  | className => exact Or.inl ⟨.className, by simpa [hk] using h.symm⟩
  | char =>
      simp only [hk] at h
      split at h
      all_goals first
        | exact Or.inl ⟨.symbol, (ValueStart.atom.inj h).symm⟩
        | exact absurd h (by simp)
  | space | comment | commentOpen | commentClose | function | atKeyword | includes | dashMatch
  | frontMatch | backMatch | substringMatch | important => simp [hk] at h

/-- A token that opens a function has its name. -/
theorem function_of_valueStart {t : Token} {name : String}
    (h : t.valueStart = .function name) : t.kind = .function ∧ t.functionName = name := by
  unfold valueStart at h
  cases hk : t.kind with
  | function => exact ⟨rfl, by simpa [hk] using h⟩
  | char =>
      simp only [hk] at h
      split at h <;> cases h
  | _ => simp [hk] at h

/-- A token that opens a group is a single character. -/
theorem kind_of_valueStart_group {t : Token} {d : Delimiter} (h : t.valueStart = .group d) :
    t.kind = .char := by
  unfold valueStart at h
  cases hk : t.kind with
  | char => rfl
  | _ => simp [hk] at h

/-- A token that starts a value is not blank. -/
theorem not_isBlank_of_valueStart {t : Token} (h : t.valueStart ≠ .nothing) :
    t.isBlank = false := by
  rw [← Bool.not_eq_true]
  exact fun hb => h (valueStart_of_isBlank hb)

/-- A token that starts a value is no brace and no semicolon. -/
theorem not_isChar_of_valueStart {t : Token} (h : t.valueStart ≠ .nothing) {c : Char}
    (hc : c ∈ ['{', '}', ';']) : t.isChar c = false := by
  rw [← Bool.not_eq_true]
  exact fun hb => h (valueStart_of_isChar hb hc)

/-- A token that opens a function or group closes none. -/
theorem closes_of_valueStart {t : Token} {o : Opening} (h : t.valueStart = o.toStart)
    (p : Opening) : p.closes t = false := by
  rw [← Bool.not_eq_true]
  intro hp
  have hatom : t.valueStart = .atom (.atom .symbol t.text t.location) := by
    have hkind := kind_of_isChar hp
    have htext := text_of_isChar hp
    cases p with
    | function name => simp [valueStart, hkind, htext, Opening.closer]
    | group delimiter => cases delimiter <;> simp [valueStart, hkind, htext, Opening.closer]
  rw [hatom] at h
  cases o <;> simp [Opening.toStart] at h

end Token

/-! ## Braces -/

/-- The token is an opening or a closing brace. -/
def Token.IsBrace (t : Token) : Prop := t.isChar '{' = true ∨ t.isChar '}' = true

instance : DecidablePred Token.IsBrace := fun t =>
  inferInstanceAs (Decidable (t.isChar '{' = true ∨ t.isChar '}' = true))

namespace Token.IsBrace

variable {t : Token}

theorem isChar_eq_false (h : t.IsBrace) {c : Char} (hopen : c ≠ '{') (hclose : c ≠ '}') :
    t.isChar c = false := by
  rcases h with h | h
  · exact Token.isChar_eq_false h hopen.symm
  · exact Token.isChar_eq_false h hclose.symm

theorem kind (h : t.IsBrace) : t.kind = .char := by
  rcases h with h | h <;> exact Token.kind_of_isChar h

theorem valueStart (h : t.IsBrace) : t.valueStart = .nothing := by
  rcases h with h | h <;> exact Token.valueStart_of_isChar h (by simp)

theorem not_isBlank (h : t.IsBrace) : t.isBlank = false := by
  rcases h with h | h <;> exact Token.not_isBlank_of_isChar h

theorem operator (h : t.IsBrace) : MatchOperator.ofToken? t = none := by
  have hequals : t.isChar '=' = false := h.isChar_eq_false (by decide) (by decide)
  simp [MatchOperator.ofToken?, h.kind, hequals]

/-- No brace closes a function or group. -/
theorem closes (h : t.IsBrace) (o : Opening) : o.closes t = false := by
  have hcloser : o.closer ≠ '{' ∧ o.closer ≠ '}' := by
    rcases o with name | ⟨⟨⟩⟩ <;> simp [Opening.closer]
  exact h.isChar_eq_false hcloser.1 hcloser.2

/-- No value starts with a brace. -/
theorem start (h : t.IsBrace) (context : Context) : Nesting.start context t = .rejected := by
  simp [Nesting.start, h.valueStart]

/-- No function and no group takes a brace. -/
theorem step (h : t.IsBrace) (context : Context) (limit : TokenClass) (n : Nesting) :
    n.step context limit t = .rejected := by
  have hclosed : n.inner.closedBy t = false := by
    rw [Frame.closedBy_eq]
    exact h.closes n.inner.opening
  simp [Nesting.step, hclosed, h.valueStart]

end Token.IsBrace

theorem Token.not_isBrace {t : Token} (hopen : ¬ t.isChar '{' = true)
    (hclose : ¬ t.isChar '}' = true) : ¬ t.IsBrace := by
  rintro (h | h)
  · exact hopen h
  · exact hclose h

theorem Token.not_isBrace_of_semicolon {t : Token} (h : t.isChar ';' = true) : ¬ t.IsBrace := by
  intro hbrace
  simp [hbrace.isChar_eq_false] at h

end EpubStyle
