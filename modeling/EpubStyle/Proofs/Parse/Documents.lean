import EpubStyle.Proofs.Parse.Handlers
import EpubStyle.Proofs.Sheet.Bracketing
import EpubStyle.Proofs.StyleAttribute.Signals
import EpubStyle.Proofs.Token.Notes

/-!
# The documents that a parse delivers

The events of a text make up a document: a start, statements or declarations, and an end
(`Grammar.Document`). This holds of every text by either grammar, also where the text ends inside a
block. Where a handler gives up, the beginning of the document is received and its end never comes
(`ErrorHandler.parseText_delivers`).

What is received is cut off at a signal that is no event: at the problem at which a handler gives
up, or at a step back over the capacity (`ErrorHandler.received_receive`).
-/

set_option autoImplicit false

namespace EpubStyle

/-! ## Documents -/

/-- The events are those of a whole document. -/
def Grammar.Document : Grammar → List Event → Prop
  | sheet, events => ∃ body, Bracketed body ∧ events = .start :: (body ++ [.finish])
  | styleAttribute, events =>
      ∃ ds : List Declaration, events = .start :: (ds.map Event.declaration ++ [.finish])

/-- **Tokens are read as a document by either grammar**, whatever is wrong with them. -/
theorem Grammar.document_signals (g : Grammar) (ts : List Token) :
    g.Document ((g.signals ts).filterMap Signal.event?) := by
  cases g with
  | sheet =>
      refine ⟨_, Sheet.bracketed_run ts, ?_⟩
      simp [Grammar.signals, Sheet.signals, Signal.event?]
  | styleAttribute =>
      obtain ⟨ds, hds⟩ :=
        Signal.exists_declarations (StyleAttribute.ofDeclarations_run ts .initial)
      refine ⟨ds, ?_⟩
      simp [Grammar.signals, StyleAttribute.signals, hds, Signal.event?]

/-- The end of a document is its last event and no other one. -/
theorem Grammar.Document.exists_body {g : Grammar} {events : List Event} (h : g.Document events) :
    ∃ body, events = body ++ [.finish] ∧ Event.finish ∉ body := by
  cases g with
  | sheet =>
      obtain ⟨body, hbody, rfl⟩ := h
      exact ⟨.start :: body, rfl, by simpa using hbody.not_mem_finish⟩
  | styleAttribute =>
      obtain ⟨ds, rfl⟩ := h
      exact ⟨.start :: ds.map Event.declaration, rfl, by simp⟩

/-- Scanning delivers no events, so a text is read as a document. -/
theorem document_parseSignals (g : Grammar) (text source : String) :
    g.Document ((parseSignals g text source).filterMap Signal.event?) := by
  simp only [parseSignals, List.filterMap_append, event?_scanSignals, List.nil_append]
  exact g.document_signals _

/-- The last signal of a text is the end of its document. -/
theorem exists_parseSignals (g : Grammar) (text source : String) :
    ∃ signals, parseSignals g text source = signals ++ [.event .finish] := by
  simp only [parseSignals]
  generalize (scan text source).map Scanned.token = ts
  cases g with
  | sheet =>
      exact ⟨scanSignals (scan text source) ++ .event .start :: Sheet.initial.run ts, by
        simp [Grammar.signals, Sheet.signals]⟩
  | styleAttribute =>
      exact ⟨scanSignals (scan text source) ++ .event .start :: StyleAttribute.initial.run ts, by
        simp [Grammar.signals, StyleAttribute.signals]⟩

/-- Whatever stands before a signal that is no event delivers the beginning of the document. -/
theorem beginning_of_append {g : Grammar} {text source : String} {before after : List Signal}
    {s : Signal} (h : parseSignals g text source = before ++ s :: after) (hs : s.event? = none) :
    before.filterMap Signal.event? <+: (parseSignals g text source).filterMap Signal.event? ∧
      Event.finish ∉ before.filterMap Signal.event? := by
  have hevents : (parseSignals g text source).filterMap Signal.event? =
      before.filterMap Signal.event? ++ after.filterMap Signal.event? := by
    rw [h, List.filterMap_append, List.filterMap_cons_none hs]
  refine ⟨⟨_, hevents.symm⟩, ?_⟩
  intro hfinish
  obtain ⟨body, hbody, hnot⟩ := (document_parseSignals g text source).exists_body
  rw [hevents] at hbody
  -- The last signal of a text is the end of its document, so it stands behind the cut.
  obtain ⟨signals, hlast⟩ := exists_parseSignals g text source
  rw [hlast] at h
  rcases List.eq_nil_or_concat after with rfl | ⟨after, last, rfl⟩
  · obtain rfl : Signal.event .finish = s := (List.append_singleton_inj.1 h).2
    cases hs
  · have hend : signals ++ [.event .finish] = (before ++ s :: after) ++ [last] := by simpa using h
    obtain rfl : Signal.event .finish = last := (List.append_singleton_inj.1 hend).2
    have hsplit : (before.filterMap Signal.event? ++ after.filterMap Signal.event?) ++ [.finish] =
        body ++ [.finish] := by
      simpa [Signal.event?] using hbody
    apply hnot
    rw [← (List.append_singleton_inj.1 hsplit).1]
    exact List.mem_append_left _ hfinish

/-! ## Delivery -/

/-- The events of signals were received, or those before the signal at which the parse failed. -/
inductive Received (signals : List Signal) : List Event → Option Failure → Prop
  | all : Received signals (signals.filterMap Signal.event?) none
  | cut (before : List Signal) (s : Signal) (after : List Signal) (f : Failure)
      (hsignals : signals = before ++ s :: after) (hs : s.event? = none) :
      Received signals (before.filterMap Signal.event?) (some f)

namespace Received

variable {signals : List Signal} {events : List Event} {failure : Option Failure}

theorem event (h : Received signals events failure) (e : Event) :
    Received (.event e :: signals) (e :: events) failure := by
  cases h with
  | all => exact .all
  | cut before s after f hsignals hs =>
      exact .cut (.event e :: before) s after f (congrArg (List.cons _) hsignals) hs

/-- A signal that is no event may come first. -/
theorem other (h : Received signals events failure) {s : Signal} (hs : s.event? = none) :
    Received (s :: signals) events failure := by
  cases h with
  | all =>
      rw [← List.filterMap_cons_none hs]
      exact .all
  | cut before s' after f hsignals hs' =>
      rw [← List.filterMap_cons_none hs]
      exact .cut (s :: before) s' after f (congrArg (List.cons _) hsignals) hs'

theorem failed (f : Failure) {s : Signal} (hs : s.event? = none) :
    Received (s :: signals) [] (some f) :=
  .cut [] s signals f rfl hs

end Received

variable {σ : Type}

/-- **What is received with any handler.** -/
theorem ErrorHandler.received_receive (h : ErrorHandler σ) (capacity : Nat) (state : σ)
    (signals : List Signal) :
    Received signals (h.receive capacity state signals).events
      (h.receive capacity state signals).failure := by
  induction signals generalizing state with
  | nil => exact .all
  | cons s signals ih =>
      cases s with
      | event e => exact (ih state).event e
      | problem p =>
          rw [receive]
          rcases h.error state p with ⟨state', _ | q⟩
          · exact (ih state').other rfl
          · exact .failed _ rfl
      | stepBack distance =>
          rw [receive]
          split
          · exact (ih state).other rfl
          · exact .failed _ rfl

/-- With a handler that never gives up a parse goes on to its end if no step back is too long. -/
theorem ErrorHandler.failure_of_patient {h : ErrorHandler σ} (hh : h.Patient) {capacity : Nat}
    (state : σ) {signals : List Signal}
    (hback : ∀ distance, Signal.stepBack distance ∈ signals → distance ≤ capacity) :
    (h.receive capacity state signals).failure = none := by
  induction signals generalizing state with
  | nil => rfl
  | cons s signals ih =>
      have ih' : ∀ state, (h.receive capacity state signals).failure = none := by
        intro state
        apply ih state
        intro distance hdistance
        exact hback distance (List.mem_cons_of_mem _ hdistance)
      cases s with
      | event e => exact ih' state
      | problem p =>
          have hgoes : h.error state p = ((h.error state p).1, none) := by
            rw [← hh state p]
          rw [receive, hgoes]
          exact ih' _
      | stepBack distance =>
          rw [receive, if_pos (hback distance (List.mem_cons_self ..))]
          exact ih' state

/-- No text makes its reader go back by more than two characters. -/
theorem le_two_of_stepBack {g : Grammar} {text source : String} {distance : Nat}
    (h : Signal.stepBack distance ∈ parseSignals g text source) : distance ≤ 2 := by
  rcases List.mem_append.1 h with h | h
  · exact fromScanner_scan text source _ h
  · exact (g.fromGrammar_signals _ _ h).elim

/-! ## Whole parses -/

/-- What is received of a text is a document, or the beginning of one if the parse fails. -/
structure Grammar.Delivers (g : Grammar) (events : List Event) (failure : Option Failure) :
    Prop where
  document : failure = none → g.Document events
  beginning : failure ≠ none →
    (∃ whole, g.Document whole ∧ events <+: whole) ∧ Event.finish ∉ events

theorem Received.delivers {g : Grammar} {text source : String} {events : List Event}
    {failure : Option Failure} (h : Received (parseSignals g text source) events failure) :
    g.Delivers events failure := by
  have hwhole := document_parseSignals g text source
  cases h with
  | all =>
      constructor
      · intro _
        exact hwhole
      · intro hsome
        exact absurd rfl hsome
  | cut before s after f hsignals hs =>
      obtain ⟨hbeginning, hfinish⟩ := beginning_of_append hsignals hs
      constructor
      · intro hnone
        cases hnone
      · intro _
        exact ⟨⟨_, hwhole, hbeginning⟩, hfinish⟩

/-- Nothing is the beginning of every document. -/
theorem Grammar.delivers_nothing (g : Grammar) (f : Failure) : g.Delivers [] (some f) := by
  constructor
  · intro hnone
    cases hnone
  · intro _
    exact ⟨⟨_, g.document_signals [], List.nil_prefix⟩, List.not_mem_nil⟩

namespace ErrorHandler

/-- **The events of every text are bracketed**, by either grammar and with every handler. The parse
fails only if the handler gives up, the text is larger than allowed, or the reader may not even step
back over two characters. -/
theorem parseText_delivers (h : ErrorHandler σ) (state : σ) (o : ParseOptions) (g : Grammar)
    (text source : String) :
    g.Delivers (h.parseText state o g text source).events
        (h.parseText state o g text source).failure ∧
      (h.Patient → o.sizeFailure? text.utf8ByteSize = none → 2 ≤ o.capacity →
        (h.parseText state o g text source).failure = none) := by
  constructor
  · unfold parseText
    cases o.sizeFailure? text.utf8ByteSize with
    | some failure => exact g.delivers_nothing failure
    | none => exact (h.received_receive o.capacity state _).delivers
  · -- Of the three reasons to fail only the steps back depend on the text, and none is long.
    intro hh hsize hcapacity
    simp only [parseText, hsize]
    apply failure_of_patient hh
    intro distance hdistance
    exact Nat.le_trans (le_two_of_stepBack hdistance) hcapacity

/-- A text that ends in the middle of a declaration inside two blocks. -/
theorem parseText_delivers_unclosed :
    (Handler.collecting none).errorHandler.Patient ∧
      Grammar.sheet.Document
        ((Handler.collecting none).errorHandler.parseText [] .default .sheet
          "@media x\x7ba\x7bb:c" "").events := by
  have hcollecting : Handler.Patient (.collecting none) := by
    intro n
    simp [Handler.respond]
  have hpatient := hcollecting.errorHandler
  have hdelivers := (Handler.collecting none).errorHandler.parseText_delivers [] .default .sheet
    "@media x\x7ba\x7bb:c" ""
  exact ⟨hpatient, hdelivers.1.document (hdelivers.2 hpatient rfl (by decide))⟩

end ErrorHandler

end EpubStyle
