import EpubStyle.Proofs.Sheet.Turns

/-!
# Events come in brackets

The events between the start and the end of a style sheet are those of its statements
(`Bracketed`): every at-rule and every list of selectors is followed by the contents of its block
and then by its own end. This holds of every list of tokens, whatever is wrong with it and wherever
it ends (`Sheet.bracketed_run`).

In the middle of a style sheet the blocks that are open say which ends must still come.
`OpenBlock.Completes` lists the events that make up the rest. One token turns the events that
complete the blocks behind it into events that complete the blocks before it
(`Turn.completes`), so the events of a run are found from its end backwards.
-/

set_option autoImplicit false

namespace EpubStyle

/-! ## The grammar of events -/

/-- The events of a list of statements. -/
inductive Bracketed : List Event → Prop
  | nil : Bracketed []
  /-- An at-rule without a block. -/
  | bare (r : AtRule) (hblock : r.hasBlock = false) {rest : List Event} (h : Bracketed rest) :
      Bracketed (.atRule r :: .endAtRule r.name :: rest)
  /-- An at-rule with a block of declarations. -/
  | declarations (r : AtRule) (hblock : r.hasBlock = true) (ds : List Declaration)
      {rest : List Event} (h : Bracketed rest) :
      Bracketed (.atRule r :: (ds.map Event.declaration ++ .endAtRule r.name :: rest))
  /-- An at-rule with a block of statements. -/
  | statements (r : AtRule) (hblock : r.hasBlock = true) {body rest : List Event}
      (hbody : Bracketed body) (h : Bracketed rest) :
      Bracketed (.atRule r :: (body ++ .endAtRule r.name :: rest))
  | ruleSet (list : List Selector) (hlist : list ≠ []) (ds : List Declaration)
      {rest : List Event} (h : Bracketed rest) :
      Bracketed (.selectors list :: (ds.map Event.declaration ++ .endSelectors list :: rest))

namespace Bracketed

/-- Statements go on with statements. -/
theorem append {events events' : List Event} (h : Bracketed events) (h' : Bracketed events') :
    Bracketed (events ++ events') := by
  induction h with
  | nil => exact h'
  | bare r hblock _ ih => exact .bare r hblock ih
  | declarations r hblock ds _ ih => simpa using Bracketed.declarations r hblock ds ih
  | statements r hblock hbody _ _ ih => simpa using Bracketed.statements r hblock hbody ih
  | ruleSet list hlist ds _ ih => simpa using Bracketed.ruleSet list hlist ds ih

/-- The document neither starts nor ends among its statements. -/
theorem not_mem_finish {events : List Event} (h : Bracketed events) : Event.finish ∉ events := by
  induction h with
  | nil => simp
  | bare r hblock _ ih => simpa using ih
  | declarations r hblock ds _ ih => simpa using ih
  | statements r hblock _ _ ihbody ih => simp [ihbody, ih]
  | ruleSet list hlist ds _ ih => simpa using ih

end Bracketed

/-! ## The rest of a style sheet -/

namespace OpenBlock

/-- The events close the open blocks, innermost first, and are bracketed otherwise. -/
def Completes : List OpenBlock → List Event → Prop
  | [], events => Bracketed events
  | skipped :: outer, events => Completes outer events
  | declarations owner :: outer, events =>
      ∃ (ds : List Declaration) (rest : List Event),
        events = ds.map Event.declaration ++ owner.closing :: rest ∧ Completes outer rest
  | statements name :: outer, events =>
      ∃ body rest : List Event,
        Bracketed body ∧ events = body ++ .endAtRule name :: rest ∧ Completes outer rest

/-- Where statements stand, more of them may come first. -/
theorem Completes.prepend {blocks : List OpenBlock} {body events : List Event}
    (hplace : OfStatements blocks.head?) (hbody : Bracketed body) (h : Completes blocks events) :
    Completes blocks (body ++ events) := by
  cases blocks with
  | nil => exact hbody.append h
  | cons b outer =>
      cases b with
      | skipped => exact hplace.elim
      | declarations owner => exact hplace.elim
      | statements name =>
          -- They join the statements that the block still has to deliver.
          obtain ⟨body', rest, hbody', rfl, hrest⟩ := h
          exact ⟨body ++ body', rest, hbody.append hbody', by simp, hrest⟩

/-- What the innermost block holds comes before what completes it. -/
theorem Completes.hold {blocks : List OpenBlock} {events rest : List Event}
    (hevents : Holds blocks.head? events) (h : Completes blocks rest) :
    Completes blocks (events ++ rest) := by
  have hbare : ∀ r : AtRule, r.hasBlock = false → Bracketed [.atRule r, .endAtRule r.name] := by
    intro r hblock
    exact .bare r hblock .nil
  cases blocks with
  | nil =>
      obtain ⟨-, r, hblock, rfl⟩ := hevents
      exact h.prepend trivial (hbare r hblock)
  | cons b outer =>
      cases b with
      | skipped => exact hevents.1.elim
      | declarations owner =>
          obtain ⟨d, rfl⟩ := hevents
          obtain ⟨ds, rest, rfl, hrest⟩ := h
          exact ⟨d :: ds, rest, rfl, hrest⟩
      | statements name =>
          obtain ⟨-, r, hblock, rfl⟩ := hevents
          exact h.prepend trivial (hbare r hblock)

/-- What opens a block and what completes it make up a statement. -/
theorem Completes.opened {b : OpenBlock} {outer : List OpenBlock} {events rest : List Event}
    (hplace : b = .skipped ∨ OfStatements outer.head?) (hevents : b.OpenedBy events)
    (h : Completes (b :: outer) rest) : Completes outer (events ++ rest) := by
  cases b with
  | skipped =>
      obtain rfl : events = [] := hevents
      exact h
  | declarations owner =>
      have hstatements : OfStatements outer.head? := hplace.resolve_left (by simp)
      obtain ⟨ds, rest, rfl, hrest⟩ := h
      cases owner with
      | selectors list =>
          obtain ⟨hlist, rfl⟩ := hevents
          simpa [BlockOwner.closing] using
            hrest.prepend hstatements (.ruleSet list hlist ds .nil)
      | atRule name =>
          obtain ⟨r, hblock, rfl, rfl⟩ := hevents
          simpa [BlockOwner.closing] using
            hrest.prepend hstatements (.declarations r hblock ds .nil)
  | statements name =>
      have hstatements : OfStatements outer.head? := hplace.resolve_left (by simp)
      obtain ⟨body, rest, hbody, rfl, hrest⟩ := h
      obtain ⟨r, hblock, rfl, rfl⟩ := hevents
      simpa using hrest.prepend hstatements (.statements r hblock hbody .nil)

/-- What closes a block comes before what completes the blocks around it. -/
theorem Completes.closed {b : OpenBlock} {outer : List OpenBlock} {events rest : List Event}
    (hevents : b.ClosedBy events) (h : Completes outer rest) :
    Completes (b :: outer) (events ++ rest) := by
  cases b with
  | skipped =>
      obtain rfl : events = [] := hevents
      exact h
  | declarations owner =>
      obtain ⟨ds, -, rfl⟩ := hevents
      exact ⟨ds, rest, by simp, h⟩
  | statements name =>
      obtain rfl : events = [.endAtRule name] := hevents
      exact ⟨[], rest, .nil, rfl, h⟩

end OpenBlock

namespace Sheet

open OpenBlock

/-! ## One token -/

/-- **A step keeps the brackets**: what completes the blocks behind it, with its events before
that, completes the blocks before it. -/
theorem Turn.completes {t : Token} {overlooked : Bool} {before after : List OpenBlock}
    {events rest : List Event} (h : Turn t overlooked before after events)
    (hrest : Completes after rest) : Completes before (events ++ rest) := by
  cases h with
  | stays hblocks hevents hbrace =>
      subst hblocks
      rcases hevents with rfl | hevents
      · exact hrest
      · exact hrest.hold hevents
  | opens b hopen hblocks hplace hevents =>
      subst hblocks
      exact hrest.opened hplace hevents
  | closes b hclose hblocks hevents =>
      subst hblocks
      exact hrest.closed hevents

/-! ## The end of the tokens -/

theorem filterMap_event (events : List Event) :
    (events.map Signal.event).filterMap Signal.event? = events :=
  List.filterMap_map.trans List.filterMap_some

/-- The ends of the at-rules whose blocks hold statements. -/
theorem completes_enclosing (names : List String) :
    Completes (names.map OpenBlock.statements) (names.map Event.endAtRule) := by
  induction names with
  | nil => exact .nil
  | cons name names ih => exact ⟨[], _, .nil, rfl, ih⟩

theorem completes_skipped (depth : Nat) {blocks : List OpenBlock} {events : List Event} :
    Completes (List.replicate depth .skipped ++ blocks) events ↔ Completes blocks events := by
  induction depth with
  | zero => exact Iff.rfl
  | succ depth ih => exact ih

/-- The events that the end of the tokens delivers. -/
theorem events_finish (m : Sheet) : m.finish.filterMap Signal.event? =
    ((m.settle none).1.unopened ++ (m.settle none).1.closings).filterMap Signal.event? := by
  simp only [finish, List.filterMap_append, events_settle]
  cases (m.settle none).1.expected? <;> simp [Signal.event?]

/-- The end of the tokens closes whatever is open. -/
theorem completes_finish (m : Sheet) :
    Completes m.openBlocks (m.finish.filterMap Signal.event?) := by
  rw [events_finish, ← openBlocks_settle none]
  obtain ⟨last, enclosing, phase⟩ := (m.settle none).1
  have houter : Completes (enclosing.map .statements)
      (((enclosing.map Event.endAtRule).map Signal.event).filterMap Signal.event?) := by
    rw [filterMap_event]
    exact completes_enclosing enclosing
  cases phase with
  | statement | selecting s => exact houter
  | skippingRule depth | skippingAtRule depth => exact (completes_skipped depth).2 houter
  | header name location parameters nesting =>
      -- A header that the tokens end in is delivered as an at-rule without a block.
      have hplace := ofStatements_of_map enclosing
      exact houter.prepend hplace (.bare ⟨name, parameters.reverse, false, location⟩ rfl .nil)
  | block owner phase =>
      have hblock : Completes (.declarations owner :: enclosing.map .statements)
          (owner.closing ::
            ((enclosing.map Event.endAtRule).map Signal.event).filterMap Signal.event?) :=
        ⟨[], _, rfl, houter⟩
      cases phase with
      | skipping depth => exact (completes_skipped depth).2 hblock
      | opened | between | reading r | skippingNested depth => exact hblock

/-! ## Whole style sheets -/

/-- **The events of a run complete the blocks that are open before it.** -/
theorem completes_run (ts : List Token) (m : Sheet) :
    Completes m.openBlocks ((m.run ts).filterMap Signal.event?) := by
  -- From the end of the tokens backwards: each step puts its events before those behind it.
  induction ts generalizing m with
  | nil => exact m.completes_finish
  | cons t ts ih =>
      rw [run, List.filterMap_append]
      exact (turn_step m t ts).completes (ih _)

/-- **Between start and end the events of a style sheet are bracketed**, whatever its tokens. -/
theorem bracketed_run (ts : List Token) : Bracketed ((initial.run ts).filterMap Signal.event?) :=
  completes_run ts initial

end Sheet

end EpubStyle
