import EpubStyle.Proofs.Concrete.SheetTrees
import EpubStyle.Proofs.Token.Notes
import EpubStyle.Proofs.Writing.Alignment
import EpubStyle.Proofs.Writing.SheetRereading

/-!
# Reading what is written

A text that is read without a fault delivers events, and these can be written (`written`). What is
written is read as the same events again, up to their locations, exactly if it is legible
(`roundTrips_iff_legible`): every name, string or other sign must be read back as itself where it
stands.

That it always is would be wrong (`not_forall_roundTrips`). Strings are written between apostrophes
as they are, so the string of `quotedSheet` ends too early.

* `roundTrips_of_legible`: the tokens of legible strokes are laid out as these (`laid_scan`), and a
  style sheet that is laid out is read as it was (`StyleSheet.reread`).
* `legible_of_roundTrips`: what is read carries the strokes that were written
  (`StyleSheet.carried`), and then each sign is read in place (`legible_of_carried`).
-/

set_option autoImplicit false

namespace EpubStyle

open Concrete

/-! ## Reading without a fault -/

/-- The text is read as a style sheet with the given events, and nothing is reported. -/
def ReadAs (source text : String) (events : List Event) : Prop :=
  Signal.Flawless (parseSignals .sheet text source) ∧
    (parseSignals .sheet text source).filterMap Signal.event? = events

/-- What is written for the events is read as the same events, up to their locations, and nothing
is reported. -/
def RoundTrips (source : String) (events : List Event) : Prop :=
  ∃ events', ReadAs source (written [] events) events' ∧
    events'.map Event.unlocated = events.map Event.unlocated

/-- **A text is read without a fault if it is scanned without one and its tokens are those of a
style sheet.** -/
theorem readAs_iff {source text : String} {events : List Event} :
    ReadAs source text events ↔
      Signal.Flawless (scanSignals (scan text source)) ∧
        ∃ s : StyleSheet, s.tokens = (scan text source).map Scanned.token ∧ s.events = events := by
  have hevents (s : StyleSheet) (htokens : s.tokens = (scan text source).map Scanned.token) :
      parseSignals .sheet text source =
        scanSignals (scan text source) ++ s.events.map Signal.event := by
    rw [← s.signals_tokens, htokens]
    rfl
  have hdelivered (s : StyleSheet)
      (htokens : s.tokens = (scan text source).map Scanned.token) :
      (parseSignals .sheet text source).filterMap Signal.event? = s.events := by
    rw [hevents s htokens, List.filterMap_append, event?_scanSignals, List.nil_append,
      List.filterMap_map]
    exact List.filterMap_some
  constructor
  · rintro ⟨hflawless, rfl⟩
    have hshape : ∀ t ∈ (scan text source).map Scanned.token, t.Shaped := by
      intro t ht
      obtain ⟨u, hu, rfl⟩ := List.mem_map.1 ht
      exact shaped_of_mem_scan u hu
    -- Tokens that are read without a problem are those of a tree, which tells their events.
    obtain ⟨s, htokens⟩ := exists_styleSheet_of_flawless (fun t ht => (hshape t ht).char)
      (Signal.Flawless.append_right hflawless)
    exact ⟨Signal.Flawless.append_left hflawless, s, htokens, (hdelivered s htokens).symm⟩
  · rintro ⟨hscan, s, htokens, rfl⟩
    refine ⟨fun p hp => ?_, hdelivered s htokens⟩
    rw [hevents s htokens, List.mem_append] at hp
    rcases hp with hp | hp
    · exact hscan p hp
    · obtain ⟨e, -, he⟩ := List.mem_map.1 hp
      cases he

/-- **Events that are legible are read back.** -/
theorem roundTrips_of_legible {source text : String} {events : List Event}
    (hread : ReadAs source text events) (h : Legible (eventStrokes [] events)) :
    RoundTrips source events := by
  obtain ⟨-, s, -, rfl⟩ := readAs_iff.1 hread
  obtain ⟨hlaid, hscan⟩ := laid_scan h source
  rw [Stroke.texts_eventStrokes] at hlaid hscan
  obtain ⟨s', htokens, hevents⟩ := s.reread hlaid
  exact ⟨s'.events, readAs_iff.2 ⟨hscan, s', htokens, rfl⟩, hevents⟩

/-- **Events that are read back are legible.** -/
theorem legible_of_roundTrips {source : String} {events : List Event}
    (h : RoundTrips source events) : Legible (eventStrokes [] events) := by
  obtain ⟨_, hread, hevents⟩ := h
  obtain ⟨hscan, s, htokens, rfl⟩ := readAs_iff.1 hread
  have hsame : eventStrokes [] s.events = eventStrokes [] events := by
    rw [← eventStrokes_unlocated, hevents, eventStrokes_unlocated]
  obtain ⟨ps, hraws, hcuts⟩ := exists_cuts hscan
  have hcarried := s.carried.map_unplaced
  have hscanned := (scan_of_cuts source {} hcuts).1
  rw [hraws] at hscanned
  rw [htokens, List.map_map, hsame] at hcarried
  refine legible_of_carried (hscanned ▸ hcarried) hcuts ?_
  rw [hraws, Stroke.texts_eventStrokes]

/-- **What is written for a style sheet is read back exactly if it is legible.** -/
theorem roundTrips_iff_legible {source text : String} {events : List Event}
    (hread : ReadAs source text events) :
    RoundTrips source events ↔ Legible (eventStrokes [] events) :=
  ⟨legible_of_roundTrips, roundTrips_of_legible hread⟩

/-- A style sheet with an apostrophe in a string. -/
def quotedSheet : String := "a\x7bb:\"it's\"\x7d"

/-- The events of `quotedSheet`. -/
def quotedEvents : List Event :=
  let list : List Selector := [⟨[.sequence [.atom .typeSelector "a" ⟨1, 1, 1, ""⟩] ⟨1, 1, 1, ""⟩],
    ⟨1, 1, 1, ""⟩⟩]
  [.start, .selectors list,
    .declaration ⟨"b", [.atom .string "it's" ⟨1, 5, 5, ""⟩], false, ⟨1, 3, 3, ""⟩⟩,
    .endSelectors list, .finish]

theorem readAs_quotedSheet : ReadAs "" quotedSheet quotedEvents := by
  have hscan : scan quotedSheet "" =
      [⟨⟨.ident, "a", ⟨1, 1, 1, ""⟩, []⟩, []⟩, ⟨⟨.char, "\x7b", ⟨1, 2, 2, ""⟩, []⟩, []⟩,
        ⟨⟨.ident, "b", ⟨1, 3, 3, ""⟩, []⟩, []⟩, ⟨⟨.char, ":", ⟨1, 4, 4, ""⟩, []⟩, []⟩,
        ⟨⟨.string, "it's", ⟨1, 5, 5, ""⟩, []⟩, []⟩,
        ⟨⟨.char, "\x7d", ⟨1, 11, 11, ""⟩, []⟩, []⟩] := by
    decide +kernel
  have hsignals : parseSignals .sheet quotedSheet "" = quotedEvents.map Signal.event := by
    rw [parseSignals, hscan]
    with_unfolding_all rfl
  rw [ReadAs, hsignals]
  refine ⟨fun p hp => ?_, rfl⟩
  obtain ⟨e, -, he⟩ := List.mem_map.1 hp
  cases he

/-- What is written for `quotedSheet` is read back exactly if it is legible. -/
theorem roundTrips_iff_legible_quotedSheet :
    ReadAs "" quotedSheet quotedEvents ∧
      (RoundTrips "" quotedEvents ↔ Legible (eventStrokes [] quotedEvents)) :=
  ⟨readAs_quotedSheet, roundTrips_iff_legible readAs_quotedSheet⟩

/-- **Not everything that is written is read back**: `quotedSheet` is read without a fault, but what
is written for it has a string that ends at the apostrophe inside. -/
theorem not_forall_roundTrips :
    ¬ ∀ (source text : String) (events : List Event),
      ReadAs source text events → RoundTrips source events := by
  intro h
  obtain ⟨_, ⟨hflawless, -⟩, -⟩ := h "" quotedSheet quotedEvents readAs_quotedSheet
  have hproblems :
      ((parseSignals .sheet (written [] quotedEvents) "").filterMap
        Signal.problem?).length = 1 := by
    decide +kernel
  have hnone :
      (parseSignals .sheet (written [] quotedEvents) "").filterMap Signal.problem? = [] := by
    rw [List.filterMap_eq_nil_iff]
    intro s hs
    cases s with
    | problem p => exact absurd hs (hflawless p)
    | event e | stepBack distance => rfl
  rw [hnone] at hproblems
  cases hproblems

end EpubStyle
