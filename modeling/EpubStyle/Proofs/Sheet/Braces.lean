import EpubStyle.Proofs.Parse.Handlers
import EpubStyle.Proofs.Sheet.Bracketing

/-!
# Braces and the blocks they open and close

In a list of tokens whose braces are balanced each opening brace has a closing one. `Framed` says
that the events keep to that: a closing brace closes exactly the block that its own opening brace
opened, and no block is closed anywhere else. Style sheets do not always keep to it, because there
are phases in which a brace is overlooked (`not_forall_framed`). Wherever no brace is overlooked
they do, whatever else is wrong (`Sheet.framed_of_attentive`).

The step lemma is `Sheet.turn_step`. The run keeps as its invariant that the blocks which the
machine has open are those of the braces, except that a brace may have been overlooked at the top
level, where it does no harm.
-/

set_option autoImplicit false

namespace EpubStyle

/-! ## Balanced braces -/

/-- The number of tokens that are the character `c`. -/
def Token.count (c : Char) (ts : List Token) : Nat := ts.countP (fun t => t.isChar c)

/-- The braces of a list of tokens are balanced where `depth` braces are open before it: nowhere are
there more closing braces than opening ones, and in the end there are as many. -/
structure Balanced (depth : Nat) (ts : List Token) : Prop where
  within : ∀ n, Token.count '}' (ts.take n) ≤ depth + Token.count '{' (ts.take n)
  total : Token.count '}' ts = depth + Token.count '{' ts

namespace Balanced

variable {depth : Nat} {t : Token} {ts : List Token}

theorem nil_iff : Balanced depth [] ↔ depth = 0 := by
  constructor
  · intro h
    simpa [Token.count] using h.total.symm
  · rintro rfl
    exact ⟨by simp [Token.count], rfl⟩

theorem count_cons (c : Char) (t : Token) (us : List Token) :
    Token.count c (t :: us) = Token.count c [t] + Token.count c us := by
  simp [Token.count, List.countP_cons, Nat.add_comm]

/-- One token changes the number of open braces. -/
theorem cons_iff {depth' : Nat}
    (h : depth' + Token.count '}' [t] = depth + Token.count '{' [t]) :
    Balanced depth (t :: ts) ↔ Balanced depth' ts := by
  constructor
  · rintro ⟨hwithin, htotal⟩
    constructor
    · intro n
      have hn := hwithin (n + 1)
      rw [List.take_succ_cons, count_cons, count_cons '{'] at hn
      omega
    · rw [count_cons, count_cons '{'] at htotal
      omega
  · rintro ⟨hwithin, htotal⟩
    constructor
    · intro n
      cases n with
      | zero => exact Nat.zero_le _
      | succ n =>
          have hn := hwithin n
          rw [List.take_succ_cons, count_cons, count_cons '{']
          omega
    · rw [count_cons, count_cons '{']
      omega

theorem opening_iff (h : t.isChar '{' = true) :
    Balanced depth (t :: ts) ↔ Balanced (depth + 1) ts := by
  have hclose : t.isChar '}' = false := Token.isChar_eq_false h (by decide)
  exact cons_iff (by simp [Token.count, h, hclose])

theorem closing_iff (h : t.isChar '}' = true) :
    Balanced depth (t :: ts) ↔ ∃ outer, depth = outer + 1 ∧ Balanced outer ts := by
  have hopen : t.isChar '{' = false := Token.isChar_eq_false h (by decide)
  cases depth with
  | zero =>
      constructor
      · intro hb
        have hfirst := hb.within 1
        simp [Token.count, h, hopen] at hfirst
      · rintro ⟨outer, houter, -⟩
        cases houter
  | succ depth =>
      have hcons : Balanced (depth + 1) (t :: ts) ↔ Balanced depth ts :=
        cons_iff (by simp [Token.count, h, hopen])
      simpa using hcons

theorem other_iff (h : ¬ t.IsBrace) : Balanced depth (t :: ts) ↔ Balanced depth ts := by
  have hopen : t.isChar '{' = false := by simpa using fun hc => h (.inl hc)
  have hclose : t.isChar '}' = false := by simpa using fun hc => h (.inr hc)
  exact cons_iff (by simp [Token.count, hopen, hclose])

/-- Balance is decided token by token. -/
def decidable (depth : Nat) : (ts : List Token) → Decidable (Balanced depth ts)
  | [] => decidable_of_iff (depth = 0) nil_iff.symm
  | t :: ts =>
      if hopen : t.isChar '{' = true then
        have := decidable (depth + 1) ts
        decidable_of_iff (Balanced (depth + 1) ts) (opening_iff hopen).symm
      else if hclose : t.isChar '}' = true then
        match depth with
        | 0 => .isFalse (fun h => by simpa using (closing_iff hclose).1 h)
        | depth + 1 =>
            have := decidable depth ts
            decidable_of_iff (Balanced depth ts) (by simp [closing_iff hclose])
      else
        have := decidable depth ts
        decidable_of_iff (Balanced depth ts) (other_iff (Token.not_isBrace hopen hclose)).symm

instance (depth : Nat) (ts : List Token) : Decidable (Balanced depth ts) := decidable depth ts

end Balanced

/-! ## Framed events -/

/-- The events open and close no block. -/
def Quiet (events : List Event) : Prop :=
  events = [] ∨ ∃ place, OpenBlock.Holds place events

/-- The events of a list of tokens keep to its braces: every closing brace closes what its own
opening brace opened, and nothing else opens or closes a block. The list `blocks` says what the
braces opened that are open before. -/
def Framed : List OpenBlock → List (Token × List Event) → Prop
  | blocks, [] => blocks = []
  | blocks, (t, events) :: rest =>
      (t.isChar '{' = true → ∃ b : OpenBlock, b.OpenedBy events ∧ Framed (b :: blocks) rest) ∧
      (t.isChar '}' = true →
        ∃ b outer, blocks = b :: outer ∧ b.ClosedBy events ∧ Framed outer rest) ∧
      (¬ t.IsBrace → Quiet events ∧ Framed blocks rest)

namespace Framed

variable {blocks : List OpenBlock} {t : Token} {events : List Event}
  {rest : List (Token × List Event)}

theorem opening (h : t.isChar '{' = true) {b : OpenBlock} (hb : b.OpenedBy events)
    (hrest : Framed (b :: blocks) rest) : Framed blocks ((t, events) :: rest) := by
  have hclose : t.isChar '}' = false := Token.isChar_eq_false h (by decide)
  refine ⟨fun _ => ⟨b, hb, hrest⟩, ?_, fun hother => absurd (.inl h) hother⟩
  simp [hclose]

theorem closing (h : t.isChar '}' = true) {b : OpenBlock} (hb : b.ClosedBy events)
    (hrest : Framed blocks rest) : Framed (b :: blocks) ((t, events) :: rest) := by
  have hopen : t.isChar '{' = false := Token.isChar_eq_false h (by decide)
  refine ⟨?_, fun _ => ⟨b, blocks, rfl, hb, hrest⟩, fun hother => absurd (.inr h) hother⟩
  simp [hopen]

theorem other (h : ¬ t.IsBrace) (hevents : Quiet events) (hrest : Framed blocks rest) :
    Framed blocks ((t, events) :: rest) :=
  ⟨fun hopen => absurd (.inl hopen) h, fun hclose => absurd (.inr hclose) h,
    fun _ => ⟨hevents, hrest⟩⟩

/-- What stands behind some tokens is framed, too. -/
theorem exists_drop {trace : List (Token × List Event)} (h : Framed blocks trace) (n : Nat) :
    ∃ blocks', Framed blocks' (trace.drop n) := by
  induction n generalizing blocks trace with
  | zero => exact ⟨blocks, h⟩
  | succ n ih =>
      match trace, h with
      | [], h => exact ⟨blocks, h⟩
      | (t, events) :: rest, ⟨hopening, hclosing, hother⟩ =>
          by_cases hopen : t.isChar '{' = true
          · obtain ⟨b, -, hrest⟩ := hopening hopen
            exact ih hrest
          by_cases hclose : t.isChar '}' = true
          · obtain ⟨b, outer, -, -, hrest⟩ := hclosing hclose
            exact ih hrest
          · exact ih (hother (Token.not_isBrace hopen hclose)).2

end Framed

/-- A brace that delivers nothing opens no block that counts. -/
theorem OpenBlock.OpenedBy.eq_skipped {b : OpenBlock} (h : b.OpenedBy []) : b = .skipped := by
  match b, h with
  | .skipped, _ => rfl
  | .declarations (.selectors list), h => cases h.2
  | .declarations (.atRule name), ⟨r, _, _, h⟩ => cases h
  | .statements name, ⟨r, _, _, h⟩ => cases h

namespace Sheet

/-! ## The events of every token -/

/-- The tokens with the events that each delivers. -/
def trace (m : Sheet) : List Token → List (Token × List Event)
  | [] => []
  | t :: ahead =>
      (t, (m.step t ahead).2.filterMap Signal.event?) :: (m.step t ahead).1.trace ahead

/-- The events that the end of the tokens delivers. -/
def leftover (m : Sheet) : List Token → List Event
  | [] => m.finish.filterMap Signal.event?
  | t :: ahead => (m.step t ahead).1.leftover ahead

/-- No brace is overlooked. -/
def attentive (m : Sheet) : List Token → Bool
  | [] => true
  | t :: ahead => !m.overlooks t && (m.step t ahead).1.attentive ahead

/-- Every event is delivered by a token or by the end of the tokens. -/
theorem events_run (ts : List Token) (m : Sheet) :
    (m.run ts).filterMap Signal.event? = (m.trace ts).flatMap Prod.snd ++ m.leftover ts := by
  induction ts generalizing m with
  | nil => rfl
  | cons t ts ih => simp [run, trace, leftover, ih]

/-! ## The end of the tokens -/

/-- Where no block is open, the end of the tokens closes none. -/
theorem quiet_finish {m : Sheet} (h : m.openBlocks = []) :
    Quiet (m.finish.filterMap Signal.event?) := by
  rw [← openBlocks_settle none] at h
  rw [events_finish]
  generalize (m.settle none).1 = m at h
  obtain ⟨last, enclosing, phase⟩ := m
  have hnone : ∀ names : List String, names.map OpenBlock.statements = [] → names = [] :=
    fun _ hnames => List.map_eq_nil_iff.1 hnames
  cases phase with
  | statement | selecting s =>
      obtain rfl := hnone enclosing h
      exact .inl rfl
  | skippingRule depth | skippingAtRule depth =>
      obtain rfl := hnone enclosing (List.append_eq_nil_iff.1 h).2
      exact .inl rfl
  | header name location parameters nesting =>
      obtain rfl := hnone enclosing h
      exact .inr ⟨none, trivial, ⟨name, parameters.reverse, false, location⟩, rfl, rfl⟩
  | block owner phase => cases phase <;> simp [openBlocks] at h

/-! ## Whole style sheets -/

/-- **A run keeps to the braces** if it overlooks none of them. The blocks that are open are those
of the braces, but for braces that were passed over at the top level. -/
theorem framed_run (ts : List Token) (m : Sheet) (passed : Nat)
    (hbalanced : Balanced (m.openBlocks.length + passed) ts) (hattentive : m.attentive ts = true) :
    Framed (m.openBlocks ++ List.replicate passed .skipped) (m.trace ts) ∧
      Quiet (m.leftover ts) := by
  induction ts generalizing m passed with
  | nil =>
      have hnone := Balanced.nil_iff.1 hbalanced
      have hblocks : m.openBlocks = [] := List.eq_nil_of_length_eq_zero (by omega)
      obtain rfl : passed = 0 := by omega
      exact ⟨by simp [Framed, trace, hblocks], quiet_finish hblocks⟩
  | cons t ts ih =>
      simp only [attentive, Bool.and_eq_true, Bool.not_eq_true'] at hattentive
      obtain ⟨hseen, hrest⟩ := hattentive
      have hturn := turn_step m t ts
      rw [Turns, hseen] at hturn
      -- The number of open blocks and of braces passed over is the depth of the braces throughout.
      cases hturn with
      | stays hblocks hevents hbrace =>
          by_cases ht : t.IsBrace
          · -- A brace that neither opens nor closes a block was passed over at the top level.
            obtain ⟨hquiet, hnone⟩ := hbrace ht
            have hnone : m.openBlocks = [] := hnone.resolve_right (by simp)
            rw [hnone] at hblocks hbalanced ⊢
            rw [List.length_nil, Nat.zero_add] at hbalanced
            rw [trace, leftover, hquiet]
            rcases ht with hopen | hclose
            · have hnext := ih (m.step t ts).1 (passed + 1)
                (by simpa [hblocks] using (Balanced.opening_iff hopen).1 hbalanced) hrest
              rw [hblocks] at hnext
              exact ⟨.opening hopen (b := .skipped) rfl hnext.1, hnext.2⟩
            · obtain ⟨outer, rfl, houter⟩ := (Balanced.closing_iff hclose).1 hbalanced
              have hnext := ih (m.step t ts).1 outer (by simpa [hblocks] using houter) hrest
              rw [hblocks] at hnext
              exact ⟨.closing hclose (b := .skipped) rfl hnext.1, hnext.2⟩
          · have hnext := ih (m.step t ts).1 passed
              (by rw [hblocks]; exact (Balanced.other_iff ht).1 hbalanced) hrest
            rw [hblocks] at hnext
            refine ⟨.other ht ?_ hnext.1, hnext.2⟩
            rcases hevents with hnone | hheld
            · exact .inl hnone
            · exact .inr ⟨_, hheld⟩
      | opens b hopen hblocks hplace hevents =>
          rw [Balanced.opening_iff hopen] at hbalanced
          have hnext := ih (m.step t ts).1 passed
            (by rw [hblocks, List.length_cons, Nat.add_right_comm]; exact hbalanced) hrest
          rw [hblocks, List.cons_append] at hnext
          exact ⟨.opening hopen hevents hnext.1, hnext.2⟩
      | closes b hclose hblocks hevents =>
          rw [Balanced.closing_iff hclose, hblocks] at hbalanced
          obtain ⟨outer, hlength, houter⟩ := hbalanced
          have hdepth : outer = (m.step t ts).1.openBlocks.length + passed := by
            rw [List.length_cons] at hlength
            omega
          have hnext := ih (m.step t ts).1 passed (hdepth ▸ houter) hrest
          rw [hblocks, List.cons_append]
          exact ⟨.closing hclose hevents hnext.1, hnext.2⟩

/-- **Recovery respects the blocks wherever no brace is overlooked.** With balanced braces every
block is closed by the closing brace that belongs to its own opening brace and by nothing else,
whatever is wrong in it. A handler that never gives up receives exactly these events. -/
theorem framed_of_attentive {ts : List Token} (hbalanced : Balanced 0 ts)
    (hattentive : initial.attentive ts = true) :
    Framed [] (initial.trace ts) ∧ Quiet (initial.leftover ts) ∧
      ∀ {σ : Type} (h : ErrorHandler σ), h.Patient → ∀ capacity state,
        (h.receive capacity state (signals ts)).events =
          .start :: ((initial.trace ts).flatMap Prod.snd ++ initial.leftover ts ++ [.finish]) := by
  obtain ⟨hframed, hquiet⟩ := framed_run ts initial 0 hbalanced hattentive
  refine ⟨hframed, hquiet, ?_⟩
  intro σ h hh capacity state
  rw [h.receive_of_patient hh capacity state (grammatical_signals ts)]
  simp [signals, Signal.event?, events_run]

/-- The tokens of an at-rule with the rule set `b { 1 {} }` in its block: a rejected declaration
with a block in it. -/
def rejectedWithBlock : List Token :=
  [⟨.atKeyword, "@media", .start, []⟩, ⟨.ident, "x", .start, []⟩, ⟨.char, "\x7b", .start, []⟩,
    ⟨.ident, "b", .start, []⟩, ⟨.char, "\x7b", .start, []⟩,
    ⟨.quantity .integer, "1", .start, []⟩, ⟨.char, "\x7b", .start, []⟩,
    ⟨.char, "\x7d", .start, []⟩, ⟨.char, "\x7d", .start, []⟩, ⟨.char, "\x7d", .start, []⟩]

theorem framed_rejectedWithBlock :
    Balanced 0 rejectedWithBlock ∧ initial.attentive rejectedWithBlock = true ∧
      Framed [] (initial.trace rejectedWithBlock) :=
  ⟨by decide, by decide, (framed_of_attentive (by decide) (by decide)).1⟩

/-! ## Braces that are overlooked -/

/-- The tokens of an at-rule with the statements `b {} @foo f( { c ; } d {}` in its block. The inner
at-rule is rejected at its brace. -/
def rejectedAtBrace : List Token :=
  [⟨.atKeyword, "@media", .start, []⟩, ⟨.ident, "x", .start, []⟩, ⟨.char, "\x7b", .start, []⟩,
    ⟨.ident, "b", .start, []⟩, ⟨.char, "\x7b", .start, []⟩, ⟨.char, "\x7d", .start, []⟩,
    ⟨.atKeyword, "@foo", .start, []⟩, ⟨.function, "f(", .start, []⟩, ⟨.char, "\x7b", .start, []⟩,
    ⟨.ident, "c", .start, []⟩, ⟨.char, ";", .start, []⟩, ⟨.char, "\x7d", .start, []⟩,
    ⟨.ident, "d", .start, []⟩, ⟨.char, "\x7b", .start, []⟩, ⟨.char, "\x7d", .start, []⟩,
    ⟨.char, "\x7d", .start, []⟩]

/-- The brace at which an at-rule is rejected is not counted. A semicolon behind it ends the
at-rule, and the closing brace of what was rejected closes the block around it. -/
theorem not_forall_framed : ¬ ∀ ts, Balanced 0 ts → Framed [] (initial.trace ts) := by
  intro h
  -- The first eight tokens are read as they should be. The ninth is the brace that is not counted.
  obtain ⟨blocks, hframed⟩ := (h rejectedAtBrace (by decide)).exists_drop 8
  have htrace : (initial.trace rejectedAtBrace).drop 8 =
      (⟨.char, "\x7b", .start, []⟩, []) :: (⟨.ident, "c", .start, []⟩, []) ::
        (⟨.char, ";", .start, []⟩, []) ::
          (⟨.char, "\x7d", .start, []⟩, [.endAtRule (Text.lowerCase "@media")]) ::
            (initial.trace rejectedAtBrace).drop 12 := by
    rfl
  rw [htrace] at hframed
  obtain ⟨b, hopened, hframed⟩ := hframed.1 (by decide)
  obtain rfl := hopened.eq_skipped
  obtain ⟨-, hframed⟩ := hframed.2.2 (by decide)
  obtain ⟨-, hframed⟩ := hframed.2.2 (by decide)
  -- Its closing brace should close what is skipped, but delivers the end of the outer at-rule.
  obtain ⟨b, outer, heq, hclosed, -⟩ := hframed.2.1 (by decide)
  obtain ⟨rfl, rfl⟩ := List.cons_eq_cons.1 heq
  cases hclosed

end Sheet

end EpubStyle
