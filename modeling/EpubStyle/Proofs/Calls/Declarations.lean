import EpubStyle.Proofs.Calls.Reports
import EpubStyle.Proofs.Concrete.InlineStyles

/-!
# What a call for a declaration delivers

A call for a declaration is given tokens, and whether it delivers one depends on these tokens alone
(`declarationOf`): they must be those of a declaration as it is written, with its end behind them
(`declarationOf_eq_some_iff`).

The machines of both grammars keep a declaration under way in states of their own.
`Production.Reads` says of single steps that such a state goes on as the reader of one declaration
does, and `Production.Reads.declared` says it of whole calls.
-/

set_option autoImplicit false

namespace EpubStyle

open Concrete

/-! ## Tokens that are read as a declaration -/

/-- What ends a declaration: a token, or the end of the text of a style attribute. -/
inductive Setting.Ending : Setting → List Token → Prop
  | token {setting : Setting} (t : Token) (h : setting.ends t = true) : Ending setting [t]
  | text : Ending .attribute []

namespace Reading

/-- The declaration that is complete where the tokens end. -/
def last? (setting : Setting) : Reading → Option Declaration
  | valued d => if setting == .attribute && !d.value.isEmpty then some d.toDeclaration else none
  | named _ | nested .. => none

/-- The declaration that the tokens up to its end make of what has been read. -/
def deliver (setting : Setting) (r : Reading) : List Token → Option Declaration
  | [] => r.last? setting
  | t :: ts =>
      match r.advance setting t t with
      | .pending r => r.deliver setting ts
      | .complete d => if ts.isEmpty then some d else none
      | .rejected _ _ => none

theorem last?_eq_some_iff {setting : Setting} {r : Reading} {e : Declaration} :
    r.last? setting = some e ↔
      setting = .attribute ∧ ∃ d, r = .valued d ∧ d.value ≠ [] ∧ e = d.toDeclaration := by
  constructor
  · intro h
    cases r with
    | named name => cases h
    | nested d n => cases h
    | valued d =>
        simp only [last?] at h
        split at h
        · next hends =>
            simp only [Bool.and_eq_true, beq_iff_eq, Bool.not_eq_true', List.isEmpty_eq_false_iff]
              at hends
            exact ⟨hends.1, d, rfl, hends.2, (Option.some.inj h).symm⟩
        · cases h
  · rintro ⟨rfl, d, rfl, hvalue, rfl⟩
    have hempty : d.value.isEmpty = false := by simpa using hvalue
    simp [last?, hempty]

/-- **A declaration is delivered** for tokens that are read up to a value, with an end behind
them. -/
theorem deliver_eq_some_iff {setting : Setting} {r : Reading} {ts : List Token}
    {e : Declaration} :
    r.deliver setting ts = some e ↔
      ∃ us ending d, ts = us ++ ending ∧ setting.Ending ending ∧
        r.feed setting us = some (.valued d) ∧ d.value ≠ [] ∧ e = d.toDeclaration := by
  induction ts generalizing r with
  | nil =>
      simp only [deliver, last?_eq_some_iff]
      constructor
      · rintro ⟨rfl, d, rfl, hvalue, he⟩
        exact ⟨[], [], d, rfl, .text, rfl, hvalue, he⟩
      · rintro ⟨us, ending, d, hts, hending, hfeed, hvalue, he⟩
        obtain ⟨rfl, rfl⟩ := List.nil_eq_append_iff.1 hts
        cases hending
        exact ⟨rfl, d, Option.some.inj hfeed, hvalue, he⟩
  | cons t ts ih =>
      -- If nothing is read before the end, the first token is the end.
      have hfirst : ∀ {ending : List Token} {d : Draft}, t :: ts = ending →
          setting.Ending ending → r = .valued d → d.value ≠ [] →
          ts = [] ∧ r.advance setting t t = .complete d.toDeclaration := by
        rintro ending d rfl hending rfl hvalue
        cases hending with
        | token _ hends => exact ⟨rfl, advance_of_ends hvalue hends t⟩
      simp only [deliver]
      constructor
      · intro h
        cases hadvance : r.advance setting t t with
        | pending r' =>
            rw [hadvance] at h
            obtain ⟨us, ending, d, rfl, hending, hfeed, hvalue, he⟩ := ih.1 h
            exact ⟨t :: us, ending, d, rfl, hending, by simp [feed, hadvance, hfeed], hvalue, he⟩
        | complete d =>
            rw [hadvance] at h
            obtain ⟨hends, draft, rfl, hvalue, rfl⟩ := of_advance_eq_complete hadvance
            simp only at h
            split at h
            · next hempty =>
                obtain rfl := List.isEmpty_iff.1 hempty
                exact ⟨[], [t], draft, rfl, .token t hends, rfl, hvalue, (Option.some.inj h).symm⟩
            · cases h
        | rejected p depth =>
            rw [hadvance] at h
            cases h
      · rintro ⟨us, ending, d, hts, hending, hfeed, hvalue, rfl⟩
        cases us with
        | nil =>
            obtain ⟨rfl, hcomplete⟩ := hfirst hts hending (Option.some.inj hfeed) hvalue
            simp [hcomplete]
        | cons u us =>
            obtain ⟨rfl, rfl⟩ := List.cons.inj hts
            simp only [feed] at hfeed
            cases hadvance : r.advance setting t t with
            | pending r' =>
                rw [hadvance] at hfeed
                exact ih.2 ⟨us, ending, d, rfl, hending, hfeed, hvalue, rfl⟩
            | complete d' =>
                rw [hadvance] at hfeed
                cases hfeed
            | rejected p depth =>
                rw [hadvance] at hfeed
                cases hfeed

end Reading

/-- The declaration that tokens make, from its name up to its end. -/
def declarationOf (setting : Setting) : List Token → Option Declaration
  | [] => none
  | t :: ts => if t.kind == .ident then (Reading.named t).deliver setting ts else none

/-- **The tokens of a declaration** as it is written, and its end, make this declaration, and no
other tokens make one. -/
theorem declarationOf_eq_some_iff {setting : Setting} {ts : List Token} {d : Declaration} :
    declarationOf setting ts = some d ↔
      ∃ (p : Property) (ending : List Token), ts = p.tokens ++ ending ∧ setting.Ending ending ∧
        d = p.declaration := by
  constructor
  · intro h
    cases ts with
    | nil => cases h
    | cons t ts =>
        simp only [declarationOf] at h
        split at h
        · next hident =>
            obtain ⟨us, ending, draft, rfl, hending, hfeed, hvalue, rfl⟩ :=
              Reading.deliver_eq_some_iff.1 h
            obtain ⟨p, htokens, hp⟩ :=
              exists_property_of_feed ⟨t, by simpa using hident⟩ hfeed hvalue
            exact ⟨p, ending, by simp [htokens], hending, hp.symm⟩
        · cases h
  · rintro ⟨p, ending, rfl, hending, rfl⟩
    obtain ⟨draft, hfeed, hvalue, hp⟩ := p.feed_rest setting
    have hident : (p.name.1.kind == .ident) = true := by simp [p.name.2]
    simp only [Property.tokens, List.cons_append, declarationOf, hident, if_true]
    exact Reading.deliver_eq_some_iff.2 ⟨_, ending, draft, rfl, hending, hfeed, hvalue, hp.symm⟩

/-! ## Machines that read declarations -/

namespace Signal

/-- The declaration that a signal delivers. -/
def declaration? : Signal → Option Declaration
  | event (.declaration d) => some d
  | _ => none

/-- The declarations that signals deliver. -/
def declared (signals : List Signal) : List Declaration := signals.filterMap declaration?

@[simp] theorem declared_nil : declared [] = [] := rfl

@[simp] theorem declared_append (s s' : List Signal) :
    declared (s ++ s') = declared s ++ declared s' := List.filterMap_append

theorem mem_declared {signals : List Signal} {d : Declaration} :
    d ∈ declared signals ↔ event (.declaration d) ∈ signals := by
  simp only [declared, List.mem_filterMap]
  constructor
  · rintro ⟨s, hs, hd⟩
    unfold declaration? at hd
    split at hd
    · cases hd
      exact hs
    · cases hd
  · exact fun h => ⟨_, h, rfl⟩

end Signal

namespace Production

variable {σ : Type}

/-- A state that has gone on as the reader of a declaration did. -/
def Follows (P : Production σ) (reading? : σ → Option Reading) (passed : σ × List Signal) :
    ReadingStep → Prop
  | .pending r => Signal.declared passed.2 = [] ∧ reading? passed.1 = some r
  | .complete d => Signal.declared passed.2 = [d] ∧ P.inside passed.1 = false
  | .rejected _ _ => Signal.declared passed.2 = [] ∧ reading? passed.1 = none

/-- The constructs of a machine are declarations. While one is under way, `reading?` is what has
been read of it, and nothing if it has been rejected. -/
structure Reads (P : Production σ) (M : Machine σ) (setting : Setting)
    (reading? : σ → Option Reading) : Prop where
  ends : ∀ m t, P.endsBefore m t = false
  inside : ∀ m r, reading? m = some r → P.inside m = true
  settle : ∀ m next, P.inside m = true → M.settle m next = (m, [])
  start : ∀ m t ahead, P.starts m t = true →
    Signal.declared (M.pass m t ahead).2 = [] ∧
      if t.kind == .ident then reading? (M.pass m t ahead).1 = some (.named t)
      else P.inside (M.pass m t ahead).1 = false
  pass : ∀ m r, reading? m = some r → ∀ t ahead,
    P.Follows reading? (M.pass m t ahead) (r.advance setting t t)
  skip : ∀ m, P.inside m = true → reading? m = none → ∀ t ahead,
    Signal.declared (M.pass m t ahead).2 = [] ∧ reading? (M.pass m t ahead).1 = none
  finish : ∀ m, P.inside m = true →
    Signal.declared (Machine.untilEnd (M.finish m)) =
      ((reading? m).bind (Reading.last? setting)).toList

variable {P : Production σ} {M : Machine σ} {setting : Setting} {reading? : σ → Option Reading}

/-- What the rest of a call delivers is told by its tokens. -/
theorem Reads.declared_resume (h : P.Reads M setting reading?) {m : σ} (hm : P.inside m = true)
    (ts : List Token) :
    Signal.declared (M.resume P m ts).signals =
      ((reading? m).bind (fun r => r.deliver setting (M.resume P m ts).tokens)).toList := by
  induction ts generalizing m with
  | nil =>
      simp only [Machine.resume, h.settle m none hm, hm, if_true, List.nil_append]
      exact h.finish m hm
  | cons t ahead ih =>
      simp only [Machine.resume, h.settle m (some t) hm, hm, h.ends, Bool.not_true,
        Bool.false_eq_true, if_false, List.nil_append]
      -- While nothing is being read nothing is delivered; otherwise the reader decides.
      cases hreading : reading? m with
      | none =>
          obtain ⟨hdeclared, hnone⟩ := h.skip m hm hreading t ahead
          split
          · next hkept => simp [Call.after, hdeclared, ih hkept, hnone]
          · simp [hdeclared]
      | some r =>
          have hpass := h.pass m r hreading t ahead
          cases hadvance : r.advance setting t t with
          | pending r' =>
              rw [hadvance] at hpass
              have hkept := h.inside _ r' hpass.2
              simp [hkept, Call.after, hpass.1, ih hkept, hpass.2, Reading.deliver, hadvance]
          | complete d =>
              rw [hadvance] at hpass
              simp [hpass.1, hpass.2, Reading.deliver, hadvance]
          | rejected p depth =>
              rw [hadvance] at hpass
              split
              · next hkept =>
                  simp [Call.after, hpass.1, ih hkept, hpass.2, Reading.deliver, hadvance]
              · simp [hpass.1, Reading.deliver, hadvance]

/-- **What a call for a declaration delivers is told by its tokens.** -/
theorem Reads.declared (h : P.Reads M setting reading?) {m : σ} {ts : List Token} {c : Call}
    (hc : c ∈ M.calls P m ts) :
    Signal.declared c.signals = (declarationOf setting c.tokens).toList := by
  induction ts generalizing m with
  | nil => cases hc
  | cons t ahead ih =>
      rcases List.mem_append.1 hc with hc | hc
      · split at hc
        · next hstarts =>
            obtain rfl := List.mem_singleton.1 hc
            obtain ⟨hdeclared, hstart⟩ := h.start _ t ahead hstarts
            simp only [Machine.call]
            cases hident : t.kind == .ident with
            | true =>
                simp only [hident, if_true] at hstart
                have hkept := h.inside _ _ hstart
                simp [hkept, Call.after, hdeclared, h.declared_resume hkept, hstart, declarationOf,
                  hident]
            | false =>
                simp only [hident, Bool.false_eq_true, if_false] at hstart
                simp [hstart, hdeclared, declarationOf, hident]
        · cases hc
      · exact ih hc

end Production

/-! ## The two grammars -/

namespace Sheet

/-- What has been read of the declaration under way. -/
def reading? (m : Sheet) : Option Reading :=
  match m.phase with
  | .block _ (.reading r) => some r
  | _ => none

/-- In a block a machine passes a token as the grammar steps. -/
theorem pass_eq_step {m : Sheet} {owner : BlockOwner} {phase : BlockPhase}
    (h : m.phase = .block owner phase) (t : Token) (ahead : List Token) :
    machine.pass m t ahead = m.step t ahead := by
  have hsettle : m.settle (some t) = (m, []) :=
    settle_of_not_selecting m _ (fun s hs => by rw [h] at hs; cases hs)
  simp only [machine, step, hsettle, List.nil_append]

@[simp] theorem declaration?_closing (owner : BlockOwner) :
    (Signal.event owner.closing).declaration? = none := by
  cases owner <;> rfl

/-- A rejected declaration delivers nothing and is read no further. -/
theorem declared_skipDeclaration (m : Sheet) (owner : BlockOwner) (t : Token) (p : Problem)
    (depth : Nat) :
    Signal.declared (m.skipDeclaration owner t p depth).2 = [] ∧
      reading? (m.skipDeclaration owner t p depth).1 = none := by
  have hproblem : (Signal.problem p).declaration? = none := rfl
  unfold skipDeclaration
  repeat' split
  all_goals simp [closeBlock, enter, reading?, Signal.declared, hproblem]

/-- Only a semicolon inside parentheses keeps a rejected declaration under way. -/
theorem within_skipDeclaration (m : Sheet) (owner : BlockOwner) (t : Token) (p : Problem) :
    StylePart.declaration.within (m.skipDeclaration owner t p 0).1.phase = false := by
  unfold skipDeclaration
  repeat' split
  all_goals first | rfl | contradiction

theorem reading?_eq_some_iff {m : Sheet} {r : Reading} :
    m.reading? = some r ↔ ∃ owner, m.phase = .block owner (.reading r) := by
  unfold reading?
  split
  · next owner r' hphase => simp [hphase]
  · next hnone => exact iff_of_false (by simp) fun ⟨owner, hphase⟩ => hnone owner r hphase

/-- A declaration starts with a name, and with anything else it is rejected at once. -/
theorem reading?_of_starts {m : Sheet} {t : Token}
    (h : (production .declaration).starts m t = true) (ahead : List Token) :
    Signal.declared (machine.pass m t ahead).2 = [] ∧
      if t.kind == .ident then reading? (machine.pass m t ahead).1 = some (.named t)
      else (production .declaration).inside (machine.pass m t ahead).1 = false := by
  rcases m with ⟨last, enclosing, phase⟩
  simp only [production, Bool.and_eq_true, Bool.not_eq_true'] at h
  cases phase with
  | block owner phase =>
      cases phase with
      | opened | between =>
          have hclose : t.isChar '}' = false := by simpa [begins] using h.2
          simp only [machine, h.1, Bool.false_eq_true, if_false, take, stepBlock,
            startDeclaration, hclose, production]
          cases hident : t.kind == .ident with
          | true => exact ⟨rfl, rfl⟩
          | false => exact ⟨(declared_skipDeclaration ..).1, within_skipDeclaration ..⟩
      | reading r | skipping depth | skippingNested depth => cases h.2
  | _ => cases h.2

/-- The block goes on as the reader of the declaration does. -/
theorem follows_pass {m : Sheet} {r : Reading} (h : m.reading? = some r) (t : Token)
    (ahead : List Token) :
    (production .declaration).Follows reading? (machine.pass m t ahead)
      (r.advance .block t t) := by
  rcases m with ⟨last, enclosing, phase⟩
  obtain ⟨owner, rfl⟩ := reading?_eq_some_iff.1 h
  rw [pass_eq_step rfl]
  cases hadvance : r.advance .block t t with
  | pending r' =>
      obtain ⟨last', hstep⟩ := step_reading last enclosing owner hadvance ahead
      rw [hstep]
      exact ⟨rfl, rfl⟩
  | complete d =>
      obtain ⟨last', hstep⟩ := step_reading_complete last enclosing owner hadvance ahead
      rw [hstep]
      split
      · exact ⟨by cases owner <;> rfl, rfl⟩
      · exact ⟨rfl, rfl⟩
  | rejected p depth =>
      simp only [Reading.advance] at hadvance
      split at hadvance
      · cases hadvance
      · next hblank =>
          -- What was last makes another problem, but rejects the same tokens.
          obtain ⟨p', hp'⟩ := Reading.step_eq_rejected (last.getD t) hadvance
          simp only [step, settle, ignores, hblank, take, stepBlock, hp', afterReading,
            Bool.false_eq_true, if_false, List.nil_append]
          exact declared_skipDeclaration ..

/-- **Declarations in the blocks of a style sheet.** -/
theorem reads : (production .declaration).Reads machine .block reading? where
  ends m t := rfl
  inside m r h := by
    obtain ⟨owner, hphase⟩ := reading?_eq_some_iff.1 h
    simp [production, StylePart.within, hphase]
  settle m next h := by
    have hnone : ∀ s, m.phase ≠ .selecting s := fun s hs => by
      simp [production, StylePart.within, hs] at h
    simp only [machine, settle_of_not_selecting m next hnone]
  start m t ahead h := reading?_of_starts h ahead
  pass m r h t ahead := follows_pass h t ahead
  skip m h hnone t ahead := by
    rcases m with ⟨last, enclosing, phase⟩
    cases phase with
    | block owner phase =>
        cases phase with
        | skippingNested depth =>
            rw [pass_eq_step rfl]
            simp only [step, settle, ignores, take, stepBlock, closeBlock, enter]
            repeat' split
            all_goals simp [Signal.declared, reading?]
        | reading r => cases hnone
        | opened | between | skipping depth => cases h
    | _ => cases h
  finish m h := by
    have hlast := (finish_of_within h).2
    rcases m with ⟨last, enclosing, phase⟩
    cases phase with
    | block owner phase =>
        rw [hlast]
        cases phase with
        | reading r => cases r <;> rfl
        | opened | between | skipping depth | skippingNested depth => rfl
    | _ => cases h

end Sheet

namespace StyleAttribute

/-- What has been read of the declaration under way. -/
def Begun.reading? (m : Begun) : Option Reading :=
  match m.1.phase with
  | .reading r => some r
  | _ => none

theorem Begun.reading?_eq_some_iff {m : Begun} {r : Reading} :
    m.reading? = some r ↔ m.1.phase = .reading r := by
  unfold Begun.reading?
  split
  · next r' hphase => simp [hphase]
  · next hnone => exact iff_of_false (by simp) fun hphase => hnone r hphase

/-- A declaration starts with a name, and with anything else it is rejected at once. -/
theorem reading?_of_starts {m : Begun} {t : Token} (h : declarations.starts m t = true)
    (ahead : List Token) :
    Signal.declared (machine.pass m t ahead).2 = [] ∧
      if t.kind == .ident then (machine.pass m t ahead).1.reading? = some (.named t)
      else declarations.inside (machine.pass m t ahead).1 = false := by
  rcases m with ⟨⟨last, phase⟩, hlast⟩
  simp only [declarations, Bool.and_eq_true, Bool.not_eq_true'] at h
  have hstarts : take ⟨last, phase⟩ t = startDeclaration t := by
    cases phase with
    | leading =>
        have hsemicolon : t.isChar ';' = false := by simpa [begins] using h.2
        simp [take, hsemicolon]
    | between => rfl
    | reading r | skippingNested depth | stopped => cases h.2
  simp only [machine, step, h.1, Bool.false_eq_true, if_false, hstarts, startDeclaration,
    Begun.reading?, declarations]
  cases hident : t.kind == .ident with
  | true => exact ⟨rfl, rfl⟩
  | false => exact ⟨rfl, rfl⟩

/-- The style attribute goes on as the reader of the declaration does. -/
theorem follows_pass {m : Begun} {r : Reading} (h : m.reading? = some r) (t : Token)
    (ahead : List Token) :
    declarations.Follows Begun.reading? (machine.pass m t ahead) (r.advance .attribute t t) := by
  rcases m with ⟨⟨last, phase⟩, hlast⟩
  obtain rfl : phase = .reading r := Begun.reading?_eq_some_iff.1 h
  obtain ⟨u, rfl⟩ := Option.isSome_iff_exists.1 (hlast rfl)
  cases hadvance : r.advance .attribute t t with
  | pending r' =>
      obtain ⟨u', hstep⟩ := step_reading u hadvance
      simp only [machine, hstep]
      exact ⟨rfl, rfl⟩
  | complete d =>
      simp only [machine, step_reading_complete u hadvance]
      exact ⟨rfl, rfl⟩
  | rejected p depth =>
      simp only [Reading.advance] at hadvance
      split at hadvance
      · cases hadvance
      · next hblank =>
          obtain ⟨p', hp'⟩ := Reading.step_eq_rejected ((some u).getD t) hadvance
          simp only [machine, step, hblank, take, hp', afterReading, Bool.false_eq_true, if_false,
            Production.Follows, Begun.reading?]
          cases t.isChar ';' && depth != 0 <;> exact ⟨rfl, rfl⟩

/-- **Declarations in a style attribute.** -/
theorem reads : declarations.Reads machine .attribute Begun.reading? where
  ends m t := rfl
  inside m r h := by
    simp [declarations, AttributePhase.reads, Begun.reading?_eq_some_iff.1 h]
  settle m next h := rfl
  start m t ahead h := reading?_of_starts h ahead
  pass m r h t ahead := follows_pass h t ahead
  skip m h hnone t ahead := by
    rcases m with ⟨⟨last, phase⟩, hlast⟩
    cases phase with
    | skippingNested depth =>
        simp only [machine, step, take, Begun.reading?]
        repeat' split
        all_goals simp_all
    | reading r => cases hnone
    | leading | between | stopped => cases h
  finish m h := by
    rcases m with ⟨⟨last, phase⟩, hlast⟩
    cases phase with
    | leading | between | stopped => cases h
    | skippingNested depth => rfl
    | reading r =>
        cases r with
        | named name => rfl
        | nested d n => rfl
        | valued d =>
            simp only [machine, finish, Begun.reading?, Option.bind_some, Reading.last?]
            cases hempty : d.value.isEmpty with
            | false => rfl
            | true =>
                obtain ⟨u, rfl⟩ := Option.isSome_iff_exists.1 (hlast rfl)
                cases d.important <;> rfl

end StyleAttribute

/-- Where the declarations of a grammar stand. -/
def Grammar.setting : Grammar → Setting
  | sheet => .block
  | styleAttribute => .attribute

/-- **What a call for a declaration delivers**, in either grammar. -/
theorem Grammar.declared_of_mem_calls {g : Grammar} {ts : List Token} {c : Call}
    (hc : c ∈ g.calls .declaration ts) :
    Signal.declared c.signals = (declarationOf g.setting c.tokens).toList := by
  cases g with
  | sheet => exact Sheet.reads.declared hc
  | styleAttribute => exact StyleAttribute.reads.declared hc

end EpubStyle
