import EpubStyle.Proofs.Concrete.Properties
import EpubStyle.Proofs.Concrete.SignTexts

/-!
# Entries of a block

An `Entry` is what stands between two semicolons of a block, whether it is a declaration or not:
tokens without braces, with their parentheses, brackets and functions properly nested, and with
semicolons only inside these. `nests` says so token by token.

The reader of a declaration keeps its own account of what is open: the functions and groups whose
members it reads, and their number. On the tokens of an entry both agree (`Reading.Tracks`,
`Reading.tracks_step`). A reader that starts inside something open sees only what it has opened
itself, so what is open is what the reader knows of and what is open around it.
-/

set_option autoImplicit false

namespace EpubStyle

namespace Concrete

/-! ## Nesting -/

/-- What is open behind a token: the characters that must close it, innermost first. A token may not
stand where it would close something else. Braces may not stand anywhere, and a semicolon only where
something is open. -/
def nest (closers : List Char) (t : Token) : Option (List Char) :=
  if t.kind == .function || t.isChar '(' then some (')' :: closers)
  else if t.isChar '[' then some (']' :: closers)
  else if t.isOneOf [')', ']'] then
    match closers with
    | c :: outer => if t.isChar c then some outer else none
    | [] => none
  else if t.isOneOf ['{', '}'] || (t.isChar ';' && closers.isEmpty) then none
  else some closers

/-- The tokens are properly nested and close what is open before them. -/
def nests : List Char → List Token → Bool
  | closers, [] => closers.isEmpty
  | closers, t :: ts =>
      match nest closers t with
      | some closers' => nests closers' ts
      | none => false

/-- What one token does to what is open, and to the number that readers of declarations count. -/
inductive NestStep (t : Token) (closers : List Char) : List Char → Prop
  | opens (o : Opening) (hstart : t.valueStart = o.toStart)
      (hdepth : ∀ depth, nestingStep depth t = depth + 1) :
      NestStep t closers (o.closer :: closers)
  | closes (o : Opening) (outer : List Char) (hclosers : closers = o.closer :: outer)
      (hclose : o.closes t = true) (hdepth : ∀ depth, nestingStep depth t = depth - 1) :
      NestStep t closers outer
  | inside (hstart : ∀ o : Opening, t.valueStart ≠ o.toStart)
      (hclose : ∀ o : Opening, o.closes t = false)
      (hbrace : ¬ t.IsBrace) (hsemicolon : t.isChar ';' = true → closers ≠ [])
      (hdepth : ∀ depth, nestingStep depth t = depth) :
      NestStep t closers closers

variable {t : Token} {closers closers' : List Char}

/-- A character that opens a function or group, or a function token. -/
theorem nestStep_opens (closers : List Char) (o : Opening) (hstart : t.valueStart = o.toStart)
    (hcounts : t.kind = .function ∨ t.isOneOf ['(', '['] = true) :
    NestStep t closers (o.closer :: closers) := by
  apply NestStep.opens o hstart
  intro depth
  rcases hcounts with h | h <;> simp [nestingStep, h]

/-- A character that closes what is open. -/
theorem nestStep_closes (o : Opening) (outer : List Char) (hclose : o.closes t = true) :
    NestStep t (o.closer :: outer) outer := by
  have hmark : ∀ c, c ≠ o.closer → t.isChar c = false :=
    fun c hc => Token.isChar_eq_false hclose hc.symm
  apply NestStep.closes o outer rfl hclose
  intro depth
  have hkind : t.kind = .char := Token.kind_of_isChar hclose
  have hcloser : t.isChar ')' = true ∨ t.isChar ']' = true := by
    rcases o with name | ⟨⟨⟩⟩
    · exact .inl hclose
    · exact .inl hclose
    · exact .inr hclose
  have hopen : t.isChar '(' = false ∧ t.isChar '[' = false := by
    rcases hcloser with h | h <;>
      exact ⟨Token.isChar_eq_false h (by decide), Token.isChar_eq_false h (by decide)⟩
  rcases hcloser with h | h <;> simp [nestingStep, hkind, Token.isOneOf, hopen, h]

/-- A token that opens a group is one of the opening delimiters. -/
theorem isOneOf_of_group (hshape : t.Shaped) {d : Delimiter} (h : t.valueStart = .group d) :
    t.isOneOf ['(', '['] = true := by
  have hkind : t.kind = .char := Token.kind_of_valueStart_group h
  have htext : t.text = d.opening := text_of_group hshape h
  cases d <;> simp [Token.isOneOf, Token.isChar, hkind, htext, Delimiter.opening]

/-- A token that opens nothing and closes nothing. -/
theorem nestStep_inside (hshape : t.Shaped)
    (hopen : ¬ (t.kind == .function || t.isChar '(') = true)
    (hbracket : ¬ t.isChar '[' = true) (hclose : ¬ t.isOneOf [')', ']'] = true)
    (hbrace : ¬ t.IsBrace) (hsemicolon : t.isChar ';' = true → closers ≠ []) :
    NestStep t closers closers := by
  simp only [Bool.or_eq_true, beq_iff_eq, not_or, Bool.not_eq_true] at hopen
  simp only [Token.isOneOf, List.any_cons, List.any_nil, Bool.or_false, Bool.or_eq_true, not_or,
    Bool.not_eq_true] at hclose
  apply NestStep.inside
  · intro o hstart
    cases o with
    | function name => exact hopen.1 (Token.function_of_valueStart hstart).1
    | group d =>
        have hone := isOneOf_of_group hshape hstart
        simp [Token.isOneOf, hopen, hbracket] at hone
  · rintro (name | ⟨⟨⟩⟩)
    · exact hclose.1
    · exact hclose.1
    · exact hclose.2
  · exact hbrace
  · exact hsemicolon
  · intro depth
    simp [nestingStep, Token.isOneOf, hopen, hbracket, hclose]

/-- **What may become of the nesting at a token** that may stand where it does. -/
theorem nestStep_of_nest (hshape : t.Shaped) (h : nest closers t = some closers') :
    NestStep t closers closers' := by
  unfold nest at h
  split at h
  · next hopen =>
      cases h
      simp only [Bool.or_eq_true, beq_iff_eq] at hopen
      rcases hopen with hfunction | hparenthesis
      · apply nestStep_opens closers (.function t.functionName) _ (.inl hfunction)
        simp [Token.valueStart, hfunction, Opening.toStart]
      · apply nestStep_opens closers (.group .parenthesis)
        · simp [Token.valueStart, Token.kind_of_isChar hparenthesis,
            Token.text_of_isChar hparenthesis, Opening.toStart]
        · exact .inr (by simp [Token.isOneOf, hparenthesis])
  next hopen =>
  split at h
  · next hbracket =>
      cases h
      apply nestStep_opens closers (.group .bracket)
      · simp [Token.valueStart, Token.kind_of_isChar hbracket, Token.text_of_isChar hbracket,
          Opening.toStart]
      · exact .inr (by simp [Token.isOneOf, hbracket])
  next hbracket =>
  split at h
  · next hclose =>
      -- A closing character may stand only where it closes what is open innermost.
      obtain ⟨c, outer, rfl, hc, rfl⟩ :
          ∃ c outer, closers = c :: outer ∧ t.isChar c = true ∧ outer = closers' := by
        split at h
        · split at h <;> cases h
          exact ⟨_, _, rfl, ‹_›, rfl⟩
        · cases h
      simp only [Token.isOneOf, List.any_cons, List.any_nil, Bool.or_false,
        Bool.or_eq_true] at hclose
      rcases hclose with hmark | hmark
      · obtain rfl := Token.eq_of_isChar hmark hc
        exact nestStep_closes (.group .parenthesis) _ hmark
      · obtain rfl := Token.eq_of_isChar hmark hc
        exact nestStep_closes (.group .bracket) _ hmark
  next hclose =>
  split at h
  · cases h
  · next hother =>
      cases h
      simp only [Token.isOneOf, List.any_cons, List.any_nil, Bool.or_false, Bool.or_eq_true,
        Bool.and_eq_true, List.isEmpty_iff, not_or, not_and, Bool.not_eq_true] at hother
      have hbrace : ¬ t.IsBrace := Token.not_isBrace (by simp [hother.1.1]) (by simp [hother.1.2])
      exact nestStep_inside hshape hopen hbracket hclose hbrace hother.2

namespace NestStep

/-- A token that starts a function or group opens it. -/
theorem of_opening (h : NestStep t closers closers') {o : Opening} (ho : t.valueStart = o.toStart) :
    closers' = o.closer :: closers ∧ ∀ depth, nestingStep depth t = depth + 1 := by
  cases h with
  | opens p hp hdepth =>
      have hsame : p = o := by
        rw [hp] at ho
        cases p <;> cases o <;> cases ho <;> rfl
      exact ⟨by rw [hsame], hdepth⟩
  | closes p outer hclosers hclose hdepth => simp [Token.closes_of_valueStart ho p] at hclose
  | inside hstart hclose hbrace hsemicolon hdepth => exact absurd ho (hstart o)

/-- A token that closes something closes what is open innermost. -/
theorem of_closes (h : NestStep t closers closers') {o : Opening} (ho : o.closes t = true) :
    closers = o.closer :: closers' ∧ ∀ depth, nestingStep depth t = depth - 1 := by
  cases h with
  | opens p hp hdepth => simp [Token.closes_of_valueStart hp o] at ho
  | closes p outer hclosers hclose hdepth =>
      have hsame : p.closer = o.closer := Token.eq_of_isChar hclose ho
      exact ⟨by rw [hclosers, hsame], hdepth⟩
  | inside hstart hclose hbrace hsemicolon hdepth => simp [hclose o] at ho

/-- A token that is a value closes what is open innermost, or leaves it open. -/
theorem of_atom (h : NestStep t closers closers') {c : Construct} (hc : t.valueStart = .atom c) :
    (∃ o : Opening, o.closes t = true) ∨
      (closers' = closers ∧ ∀ depth, nestingStep depth t = depth) := by
  cases h with
  | opens o ho hdepth =>
      rw [ho] at hc
      cases o <;> cases hc
  | closes o outer hclosers hclose hdepth => exact .inl ⟨o, hclose⟩
  | inside hstart hclose hbrace hsemicolon hdepth => exact .inr ⟨rfl, hdepth⟩

/-- Where nothing is open, only what opens something changes that. -/
theorem eq_nil (h : NestStep t [] closers') (hopen : ∀ o : Opening, t.valueStart ≠ o.toStart) :
    closers' = [] := by
  cases h with
  | opens o ho hdepth => exact absurd ho (hopen o)
  | closes o outer hclosers hclose hdepth => cases hclosers
  | inside hstart hclose hbrace hsemicolon hdepth => rfl

/-- The number counts what is open. -/
theorem nestingStep_length (h : NestStep t closers closers') :
    nestingStep closers.length t = closers'.length := by
  cases h with
  | opens o hstart hdepth => rw [hdepth, List.length_cons]
  | closes o outer hclosers hclose hdepth =>
      rw [hdepth, hclosers, List.length_cons, Nat.add_sub_cancel]
  | inside hstart hclose hbrace hsemicolon hdepth => exact hdepth _

/-- No brace may stand anywhere. -/
theorem not_isBrace (h : NestStep t closers closers') : ¬ t.IsBrace := by
  intro hbrace
  cases h with
  | opens o ho hdepth =>
      rw [hbrace.valueStart] at ho
      cases o <;> cases ho
  | closes o outer hclosers hclose hdepth =>
      rw [hbrace.closes o] at hclose
      cases hclose
  | inside hstart hclose hnot hsemicolon hdepth => exact hnot hbrace

/-- White space and comments leave open what is open. -/
theorem of_isBlank (h : NestStep t closers closers') (hblank : t.isBlank = true) :
    closers' = closers := by
  cases h with
  | opens o ho hdepth =>
      rw [Token.valueStart_of_isBlank hblank] at ho
      cases o <;> cases ho
  | closes o outer hclosers hclose hdepth =>
      rw [Token.not_isBlank_of_isChar hclose] at hblank
      cases hblank
  | inside hstart hclose hbrace hsemicolon hdepth => rfl

/-- A semicolon stands inside something and leaves it open. -/
theorem of_semicolon (h : NestStep t closers closers') (hmark : t.isChar ';' = true) :
    closers' = closers ∧ closers ≠ [] := by
  cases h with
  | opens o ho hdepth =>
      rw [Token.valueStart_of_isChar hmark (by simp)] at ho
      cases o <;> cases ho
  | closes o outer hclosers hclose hdepth =>
      have hcloser : o.closer ≠ ';' := o.closer_ne_semicolon
      exact absurd (Token.eq_of_isChar hclose hmark) hcloser
  | inside hstart hclose hbrace hsemicolon hdepth => exact ⟨rfl, hsemicolon hmark⟩

end NestStep

/-- Tokens that close what is open before them and nothing else, one step after the other. -/
inductive Nested : List Char → List Token → Prop
  | nil : Nested [] []
  | cons {t : Token} {ts : List Token} {closers closers' : List Char}
      (hstep : NestStep t closers closers') (hrest : Nested closers' ts) : Nested closers (t :: ts)

/-- What `nests` says of tokens with the shape of their kind. -/
theorem nested_of_nests {ts : List Token} (hshaped : ∀ t ∈ ts, t.Shaped)
    (h : nests closers ts = true) : Nested closers ts := by
  induction ts generalizing closers with
  | nil =>
      obtain rfl : closers = [] := by simpa [nests] using h
      exact .nil
  | cons t ts ih =>
      simp only [nests] at h
      cases hnest : nest closers t with
      | none => simp [hnest] at h
      | some closers₁ =>
          rw [hnest] at h
          have hstep := nestStep_of_nest (hshaped t (List.mem_cons_self ..)) hnest
          exact .cons hstep (ih (fun u hu => hshaped u (List.mem_cons_of_mem _ hu)) h)

end Concrete

/-! ## What readers know of -/

/-- The characters that close the open functions and groups, innermost first. -/
def Nesting.closers (n : Nesting) : List Char :=
  n.inner.opening.closer :: n.outer.map (fun f => f.opening.closer)

/-- What the reader of a declaration has opened and not closed, and its number. -/
def Reading.Tracks : Reading → List Char → Prop
  | named _, own => own = []
  | valued d, own => own = [] ∧ d.depth = 0
  | nested d n, own => own = n.closers ∧ d.depth = own.length

open Concrete

/-- What a token makes of a value, with what is open before it and behind it. The reader knows of
`own`, and `outer` is open around it. -/
structure Building.Agrees (b : Building) (t : Token) (own outer closers' : List Char) : Prop where
  complete : ∀ c, b = .complete c →
    nestingStep own.length t = 0 ∧ (outer = [] → closers' = [])
  pending : ∀ n, b = .pending n →
    closers' = n.closers ++ outer ∧ nestingStep own.length t = n.closers.length

namespace Building.Agrees

variable {t : Token} {own outer closers' : List Char}

theorem rejected : Agrees .rejected t own outer closers' := by
  constructor
  · intro c hc
    cases hc
  · intro n hn
    cases hn

theorem ofComplete (c : Construct) (hdepth : nestingStep own.length t = 0)
    (hclosers : outer = [] → closers' = []) : Agrees (.complete c) t own outer closers' := by
  constructor
  · intro _ _
    exact ⟨hdepth, hclosers⟩
  · intro n hn
    cases hn

theorem ofPending {n : Nesting} (hclosers : closers' = n.closers ++ outer)
    (hdepth : nestingStep own.length t = n.closers.length) :
    Agrees (.pending n) t own outer closers' := by
  constructor
  · intro c hc
    cases hc
  · rintro _ ⟨⟩
    exact ⟨hclosers, hdepth⟩

end Building.Agrees

namespace Nesting

variable {t : Token} {outer closers' : List Char}

/-- The first token of a value. -/
theorem agrees_start (context : Context) (h : NestStep t outer closers') :
    (start context t).Agrees t [] outer closers' := by
  have hopening : ∀ o : Opening, t.valueStart = o.toStart →
      Building.Agrees (.pending ⟨⟨o, t.location, []⟩, []⟩) t [] outer closers' := by
    intro o ho
    obtain ⟨hclosers, hdepth⟩ := h.of_opening ho
    exact .ofPending hclosers (hdepth 0)
  simp only [start]
  cases hstart : t.valueStart with
  | nothing => exact .rejected
  | function name => exact hopening (.function name) hstart
  | group delimiter => exact hopening (.group delimiter) hstart
  | atom c =>
      simp only
      split
      · rcases h.of_atom hstart with ⟨o, ho⟩ | ⟨hclosers, hdepth⟩
        · -- The reader has opened nothing, so the token closes something around it.
          obtain ⟨hclosers, hdepth⟩ := h.of_closes ho
          apply Building.Agrees.ofComplete c
          · exact hdepth 0
          · intro houter
            simp [houter] at hclosers
        · apply Building.Agrees.ofComplete c
          · exact hdepth 0
          · intro houter
            exact hclosers.trans houter
      · exact .rejected

/-- A member of the innermost function or group. -/
theorem agrees_place (context : Context) (n : Nesting) (c : Construct) {own : List Char}
    (hclosers : closers' = n.closers ++ outer)
    (hdepth : nestingStep own.length t = n.closers.length) :
    (n.place context c).Agrees t own outer closers' := by
  simp only [place]
  split
  · exact .ofPending hclosers hdepth
  · exact .rejected

/-- The end of the innermost function or group. -/
theorem agrees_close (context : Context) (n : Nesting)
    (hclosers : n.closers ++ outer = n.inner.opening.closer :: closers')
    (hdepth : ∀ depth, nestingStep depth t = depth - 1) :
    (n.close context).Agrees t n.closers outer closers' := by
  obtain ⟨inner, around⟩ := n
  obtain ⟨-, hrest⟩ := List.cons_eq_cons.1 hclosers
  cases around with
  | nil =>
      simp only [close]
      split
      · apply Building.Agrees.ofComplete
        · exact hdepth _
        · intro houter
          exact hrest.symm.trans houter
      · exact .rejected
  | cons f around => exact agrees_place context ⟨f, around⟩ _ hrest.symm (hdepth _)

/-- One more token inside a function or group. -/
theorem agrees_step (context : Context) (limit : TokenClass) (n : Nesting)
    (h : NestStep t (n.closers ++ outer) closers') :
    (n.step context limit t).Agrees t n.closers outer closers' := by
  have hopening : ∀ o : Opening, t.valueStart = o.toStart →
      Building.Agrees (.pending (n.nest o t.location)) t n.closers outer closers' := by
    intro o ho
    obtain ⟨hclosers, hdepth⟩ := h.of_opening ho
    exact .ofPending hclosers (hdepth _)
  simp only [step]
  split
  · next hclosed =>
      rw [Frame.closedBy_eq] at hclosed
      obtain ⟨hclosers, hdepth⟩ := h.of_closes hclosed
      exact agrees_close context n hclosers hdepth
  · next hclosed =>
      -- A token that may not stand here is rejected, whatever it would open or close.
      split
      · exact .rejected
      cases hstart : t.valueStart with
      | nothing => exact .rejected
      | function name => exact hopening (.function name) hstart
      | group delimiter => exact hopening (.group delimiter) hstart
      | atom c =>
          rcases h.of_atom hstart with ⟨o, ho⟩ | ⟨hclosers, hdepth⟩
          · -- What is open innermost is the function or group whose members are read.
            obtain ⟨hclosers, -⟩ := h.of_closes ho
            have hinner : n.inner.opening.closer = o.closer := (List.cons_eq_cons.1 hclosers).1
            rw [Frame.closedBy_eq, Opening.closes, hinner] at hclosed
            exact absurd ho hclosed
          · exact agrees_place context n c hclosers (hdepth _)

end Nesting

namespace Reading

/-- What a token makes of a declaration, with what is open behind it. A declaration that is given up
says what its reader has opened before the token. -/
structure Agrees (s : ReadingStep) (own outer closers' : List Char) : Prop where
  pending : ∀ r', s = .pending r' →
    ∃ own' outer', closers' = own' ++ outer' ∧ (outer = [] → outer' = []) ∧ r'.Tracks own'
  rejected : ∀ p depth, s = .rejected p depth → depth = own.length

variable {t : Token} {own outer closers' : List Char}

theorem agrees_rejected (p : Problem) {depth : Nat} (hdepth : depth = own.length) :
    Agrees (.rejected p depth) own outer closers' := by
  constructor
  · intro r' hr
    cases hr
  · rintro _ _ ⟨⟩
    exact hdepth

theorem agrees_complete (d : Declaration) : Agrees (.complete d) own outer closers' := by
  constructor
  · intro r' hr
    cases hr
  · intro p depth hp
    cases hp

theorem agrees_pending {r : Reading} (hr : r.Tracks []) (hclosers : outer = [] → closers' = []) :
    Agrees (.pending r) own outer closers' := by
  constructor
  · rintro _ ⟨⟩
    exact ⟨[], closers', rfl, hclosers, hr⟩
  · intro p depth hp
    cases hp

theorem agrees_take {d : Draft} {b : Building} (hdepth : d.depth = own.length)
    (hb : b.Agrees t own outer closers') : Agrees (take d t b) own outer closers' := by
  cases b with
  | rejected => exact agrees_rejected _ hdepth
  | complete c =>
      obtain ⟨hzero, hclosers⟩ := hb.complete c rfl
      exact agrees_pending ⟨rfl, by rw [← hdepth] at hzero; exact hzero⟩ hclosers
  | pending n =>
      obtain ⟨hclosers, hlength⟩ := hb.pending n rfl
      constructor
      · rintro _ ⟨⟩
        exact ⟨n.closers, outer, hclosers, id, rfl, by rw [← hdepth] at hlength; exact hlength⟩
      · intro p depth hp
        cases hp

/-- **The reader of a declaration keeps account of what is open.** -/
theorem agrees_step {setting : Setting} {r : Reading} (last : Token) (hr : r.Tracks own)
    (h : NestStep t (own ++ outer) closers') :
    Agrees (r.step setting last t) own outer closers' := by
  cases r with
  | named name =>
      obtain rfl := hr
      simp only [step]
      split
      · next hcolon =>
          have hatom : t.valueStart = .atom (.atom .symbol t.text t.location) := by
            simp [Token.valueStart, Token.kind_of_isChar hcolon, Token.text_of_isChar hcolon]
          refine agrees_pending (r := .valued _) ⟨rfl, rfl⟩ ?_
          -- A colon neither opens nor closes anything.
          rintro rfl
          apply h.eq_nil
          intro o ho
          rw [hatom] at ho
          cases o <;> cases ho
      · exact agrees_rejected _ rfl
  | valued d =>
      obtain ⟨rfl, hdepth⟩ := hr
      simp only [step, stepValued]
      split
      · exact agrees_rejected _ rfl
      split
      · split
        · exact agrees_rejected _ rfl
        · exact agrees_complete _
      split
      · next himportant =>
          -- Nor does an `!important`.
          have hnothing : t.valueStart = .nothing := by
            rw [beq_iff_eq] at himportant
            simp [Token.valueStart, himportant]
          refine agrees_pending (r := .valued _) ⟨rfl, hdepth⟩ ?_
          rintro rfl
          apply h.eq_nil
          intro o ho
          rw [hnothing] at ho
          cases o <;> cases ho
      · exact agrees_take hdepth (Nesting.agrees_start .propertyValue h)
  | nested d n =>
      obtain ⟨rfl, hdepth⟩ := hr
      exact agrees_take hdepth (n.agrees_step _ _ h)

/-- White space and comments change nothing that is open. -/
theorem agrees_advance {setting : Setting} {r : Reading} (last : Token) (hr : r.Tracks own)
    (h : NestStep t (own ++ outer) closers') :
    Agrees (r.advance setting last t) own outer closers' := by
  simp only [advance]
  split
  · next hblank =>
      obtain rfl := h.of_isBlank hblank
      constructor
      · rintro _ ⟨⟩
        exact ⟨own, outer, rfl, id, hr⟩
      · intro p depth hp
        cases hp
  · exact agrees_step last hr h

end Reading

namespace Concrete

/-! ## Entries -/

/-- What stands between two semicolons of a block: significant tokens, with white space and comments
anywhere among them. They have the shape that a scanner gives them. -/
structure Entry where
  gap : Gap
  first : Token
  rest : List Token
  significant : first.isBlank = false
  shaped : ∀ t ∈ first :: rest, t.Shaped
  nested : nests [] (first :: rest) = true

/-- All tokens. -/
def Entry.tokens (e : Entry) : List Token := e.gap.1 ++ e.first :: e.rest

/-- The first token of an entry, and the rest of it. -/
theorem Entry.exists_nested (e : Entry) :
    ∃ closers, NestStep e.first [] closers ∧ Nested closers e.rest := by
  cases nested_of_nests e.shaped e.nested with
  | cons hstep hrest => exact ⟨_, hstep, hrest⟩

/-- Entries with semicolons between them. -/
inductive Entries : Type
  | last (e : Entry)
  | cons (e : Entry) (semicolon : Mark ';') (rest : Entries)

namespace Entries

/-- All tokens. -/
def tokens : Entries → List Token
  | last e => e.tokens
  | cons e semicolon rest => e.tokens ++ semicolon.1 :: rest.tokens

/-- The entries in their order. -/
def toList : Entries → List Entry
  | last e => [e]
  | cons e _ rest => e :: rest.toList

end Entries

/-- A rule set whose block holds any entries. -/
structure EntryRule where
  selectors : SelectorList
  opener : Mark '{'
  entries : Entries
  closer : Mark '}'

/-- All tokens. -/
def EntryRule.tokens (r : EntryRule) : List Token :=
  r.selectors.tokens ++ r.opener.1 :: (r.entries.tokens ++ [r.closer.1])

end Concrete

end EpubStyle
