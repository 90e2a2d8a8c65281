import EpubStyle.Proofs.Parse.Documents
import EpubStyle.Proofs.Parse.Sources

/-!
# How far a reader steps back

A reader that has looked ahead gives the characters back, and it fails if they are more than its
capacity (`Transcript.Overrun`). No reader of a token looks further than behind the hyphen that may
follow an at sign, so that at most two characters are given back (`stepsWithin_scan`), and a grammar
gives back none. A capacity of two is therefore as good as any greater one
(`Listener.eq_of_two_le`): with every handler, scans have the same tokens, and scans and parses the
same events, the same problems and the same end, which is never a step back. A smaller capacity is
not enough (`Listener.two_le_capacity_iff`).
-/

set_option autoImplicit false

namespace EpubStyle

/-! ## Signals -/

/-- No step back among the signals is longer than the capacity. -/
def StepsWithin (capacity : Nat) (signals : List Signal) : Prop :=
  ∀ distance, Signal.stepBack distance ∈ signals → distance ≤ capacity

namespace StepsWithin

variable {capacity capacity' : Nat} {signals : List Signal}

theorem mono (h : StepsWithin capacity signals) (hle : capacity ≤ capacity') :
    StepsWithin capacity' signals :=
  fun distance hdistance => Nat.le_trans (h distance hdistance) hle

theorem head {distance : Nat} (h : StepsWithin capacity (.stepBack distance :: signals)) :
    distance ≤ capacity :=
  h distance (List.mem_cons_self ..)

theorem tail {s : Signal} (h : StepsWithin capacity (s :: signals)) :
    StepsWithin capacity signals :=
  fun distance hdistance => h distance (List.mem_cons_of_mem _ hdistance)

end StepsWithin

theorem stepsWithin_scan (text source : String) : StepsWithin 2 (scanSignals (scan text source)) :=
  fun _ hdistance => fromScanner_scan text source _ hdistance

theorem stepsWithin_parse (g : Grammar) (text source : String) :
    StepsWithin 2 (parseSignals g text source) :=
  fun _ hdistance => le_two_of_stepBack hdistance

/-! ## What a listener receives -/

/-- The run ended because the reader was to step back over its capacity. -/
def Transcript.Overrun {σ : Type} (r : Transcript σ) : Prop :=
  ∃ distance capacity, r.stop = some (.failed (.overrun distance capacity))

namespace Listener

variable {σ : Type} (h : Listener σ) (locale : Locale)

/-- **Capacities that are never exceeded make no difference.** -/
theorem attend_eq {capacity capacity' : Nat} (state : σ) {signals : List Signal}
    (hwithin : StepsWithin capacity signals) (hwithin' : StepsWithin capacity' signals) :
    h.attend locale capacity state signals = h.attend locale capacity' state signals := by
  induction signals generalizing state with
  | nil => rfl
  | cons s signals ih =>
      have hrest := fun state => ih state hwithin.tail hwithin'.tail
      cases s with
      | event e => simp only [attend, hrest]
      | problem p => simp only [attend, hrest]
      | stepBack distance =>
          rw [attend, attend, if_pos hwithin.head, if_pos hwithin'.head]
          exact hrest state

/-- A capacity that is never exceeded ends no run. -/
theorem not_overrun_attend {capacity : Nat} (state : σ) {signals : List Signal}
    (hwithin : StepsWithin capacity signals) :
    ¬ (h.attend locale capacity state signals).Overrun := by
  induction signals generalizing state with
  | nil =>
      rintro ⟨_, _, hstop⟩
      cases hstop
  | cons s signals ih =>
      have hrest := fun state => ih state hwithin.tail
      cases s with
      | event e => exact hrest state
      | problem p =>
          rw [attend]
          rcases h.hear state (p.render locale) with ⟨state', _ | q⟩
          · exact hrest state'
          · rintro ⟨_, _, hstop⟩
            cases hstop
      | stepBack distance =>
          rw [attend, if_pos hwithin.head]
          exact hrest state

end Listener

/-! ## Scans and parses -/

/-- A style that is too large is not read at all. -/
theorem ParseOptions.not_overrun_of_sizeFailure {σ : Type} {o : ParseOptions} {size : Nat}
    {failure : Failure} (h : o.sizeFailure? size = some failure) (state : σ) :
    ¬ Transcript.Overrun ⟨[], state, some (failure.render o.locale)⟩ := by
  rintro ⟨distance, capacity, hstop⟩
  unfold sizeFailure? at h
  split at h
  · split at h
    · obtain rfl := Option.some.inj h
      cases hstop
    · cases h
  · cases h

namespace Listener

variable {σ : Type} (h : Listener σ) (state : σ) (o : ParseOptions)

/-- Hand the signals of a style of `size` bytes to a listener. -/
def receive (size : Nat) (signals : List Signal) : Transcript σ :=
  match o.sizeFailure? size with
  | some failure => ⟨[], state, some (failure.render o.locale)⟩
  | none => h.attend o.locale o.capacity state signals

theorem parse_eq_receive (g : Grammar) (text source : String) :
    h.parse state o g text source =
      h.receive state o text.utf8ByteSize (parseSignals g text source) := rfl

theorem parseSource_eq_receive (s : Bytes.Source) :
    h.parseSource state o s = h.receive state o s.size (parseSignals .sheet s.text s.name) := rfl

/-- The tokens of a scan do not depend on the listener. -/
theorem scan_eq_receive (text source : String) :
    h.scan state o text source =
      (if o.sizeFailure? text.utf8ByteSize = none then
          (EpubStyle.scan text source).map (fun t => t.token.render o.locale) else [],
        h.receive state o text.utf8ByteSize (scanSignals (EpubStyle.scan text source))) := by
  unfold scan receive
  cases o.sizeFailure? text.utf8ByteSize <;> rfl

section

variable {c c' size : Nat} {signals : List Signal}

theorem receive_eq (hwithin : StepsWithin c signals) (hwithin' : StepsWithin c' signals) :
    h.receive state { o with capacity := c } size signals =
      h.receive state { o with capacity := c' } size signals := by
  have hsize : ∀ c, ParseOptions.sizeFailure? { o with capacity := c } size =
      o.sizeFailure? size := fun _ => rfl
  simp only [receive, hsize]
  cases o.sizeFailure? size with
  | some failure => rfl
  | none => exact h.attend_eq o.locale state hwithin hwithin'

theorem not_overrun_receive (hwithin : StepsWithin o.capacity signals) :
    ¬ (h.receive state o size signals).Overrun := by
  unfold receive
  cases hsize : o.sizeFailure? size with
  | some failure => exact ParseOptions.not_overrun_of_sizeFailure hsize state
  | none => exact h.not_overrun_attend o.locale state hwithin

end

/-- **Capacities of two and more are all the same**, for every text and every listener. No scan and
no parse steps back over them, by either grammar, of a text or of a source, and what is received is
the same: the tokens, the events, and the problems that led to the last state. -/
theorem eq_of_two_le {c c' : Nat} (hc : 2 ≤ c) (hc' : 2 ≤ c') :
    (∀ text source,
      h.scan state { o with capacity := c } text source =
          h.scan state { o with capacity := c' } text source ∧
        ¬ (h.scan state { o with capacity := c } text source).2.Overrun) ∧
    (∀ g text source,
      h.parse state { o with capacity := c } g text source =
          h.parse state { o with capacity := c' } g text source ∧
        ¬ (h.parse state { o with capacity := c } g text source).Overrun) ∧
    ∀ s,
      h.parseSource state { o with capacity := c } s =
          h.parseSource state { o with capacity := c' } s ∧
        ¬ (h.parseSource state { o with capacity := c } s).Overrun := by
  -- No signal steps back further than two, so either capacity is enough for all of them.
  refine ⟨fun text source => ?_, fun g text source => ?_, fun s => ?_⟩
  · have hwithin := stepsWithin_scan text source
    rw [scan_eq_receive, scan_eq_receive,
      h.receive_eq state o (hwithin.mono hc) (hwithin.mono hc')]
    exact ⟨rfl, h.not_overrun_receive state { o with capacity := c' } (hwithin.mono hc')⟩
  · have hwithin := stepsWithin_parse g text source
    rw [parse_eq_receive, parse_eq_receive,
      h.receive_eq state o (hwithin.mono hc) (hwithin.mono hc')]
    exact ⟨rfl, h.not_overrun_receive state { o with capacity := c' } (hwithin.mono hc')⟩
  · have hwithin := stepsWithin_parse .sheet s.text s.name
    rw [parseSource_eq_receive, parseSource_eq_receive,
      h.receive_eq state o (hwithin.mono hc) (hwithin.mono hc')]
    exact ⟨rfl, h.not_overrun_receive state { o with capacity := c' } (hwithin.mono hc')⟩

/-- With a capacity of two the lookahead behind an at sign is given back as with the default one. -/
theorem eq_of_two_le_atSign :
    (Handler.collecting none).listener.scan [] { ParseOptions.default with capacity := 2 }
          "@-\\a" "" =
        (Handler.collecting none).listener.scan []
          { ParseOptions.default with capacity := Text.Cursor.defaultCapacity } "@-\\a" "" ∧
      ¬ ((Handler.collecting none).listener.scan [] { ParseOptions.default with capacity := 2 }
        "@-\\a" "").2.Overrun :=
  ((Handler.collecting none).listener.eq_of_two_le [] .default (Nat.le_refl 2) (by decide)).1
    "@-\\a" ""

/-- **Two is the least capacity with which every text is scanned.** -/
theorem two_le_capacity_iff (hsize : o.maxBytes = none) :
    2 ≤ o.capacity ↔ ∀ text source, ¬ (h.scan state o text source).2.Overrun := by
  constructor
  · intro hcapacity text source
    rw [scan_eq_receive]
    exact h.not_overrun_receive state o ((stepsWithin_scan text source).mono hcapacity)
  · intro hnever
    by_contra hless
    -- The escape behind the hyphen makes the name of an at rule.
    have hsignals : scanSignals (EpubStyle.scan "@-\\a" "") = [.stepBack 2] := by
      with_unfolding_all rfl
    apply hnever "@-\\a" ""
    refine ⟨2, o.capacity, ?_⟩
    have hnone : o.sizeFailure? "@-\\a".utf8ByteSize = none := by
      simp only [ParseOptions.sizeFailure?, hsize]
    rw [scan_eq_receive, hsignals, receive, hnone]
    simp only [attend, if_neg hless]

end Listener

end EpubStyle
