import EpubStyle.Proofs.Parse.Documents

/-!
# Giving up at a problem

A handler may give up at the problem that comes when it has collected a number of problems. Next to
a handler that collects all of them it receives the same up to that problem and nothing afterwards
(`deliver_limit`, `parseText_limit`). Lexical problems come before every event, so a handler that
gives up at one receives no event.
-/

set_option autoImplicit false

namespace EpubStyle

/-- A run was given up at the problem `p` with the number `n`, counted from zero. It received what
the run `full`, which collects every problem, had received of the same signals before this problem.
-/
structure Delivery.AbortedAt (n : Nat) (p : Problem) (full cut : Delivery) (capacity : Nat)
    (signals : List Signal) : Prop where
  problem : full.problems[n]? = some p
  failure : cut.failure = some (.aborted p)
  problems : cut.problems = full.problems.take n
  events : cut.events <+: full.events
  /-- The signals before the problem are those that were received. -/
  before : ∃ before after, signals = before ++ .problem p :: after ∧
    ∀ collected,
      deliver (.collecting none) capacity collected before = ⟨cut.events, cut.problems, none⟩

/-- What a handler of the parser receives. -/
theorem received_deliver (h : Handler) (capacity : Nat) (signals : List Signal) :
    Received signals (deliver h capacity 0 signals).events
      (deliver h capacity 0 signals).failure := by
  have hreceived := h.errorHandler.received_receive capacity [] signals
  rwa [h.receive_errorHandler] at hreceived

namespace Delivery.AbortedAt

variable {n : Nat} {p : Problem} {full cut : Delivery} {capacity : Nat} {signals : List Signal}

/-- An event before the cut is received by both. -/
theorem event (h : AbortedAt n p full cut capacity signals) (e : Event) :
    AbortedAt n p { full with events := e :: full.events } { cut with events := e :: cut.events }
      capacity (.event e :: signals) := by
  obtain ⟨before, after, rfl, hbefore⟩ := h.before
  refine ⟨h.problem, h.failure, h.problems, List.cons_prefix_cons.2 ⟨rfl, h.events⟩,
    .event e :: before, after, rfl, ?_⟩
  intro collected
  simp [deliver, hbefore]

/-- A problem before the cut is collected by both. -/
theorem collect (h : AbortedAt n p full cut capacity signals) (q : Problem) :
    AbortedAt (n + 1) p { full with problems := q :: full.problems }
      { cut with problems := q :: cut.problems } capacity (.problem q :: signals) := by
  obtain ⟨before, after, rfl, hbefore⟩ := h.before
  refine ⟨h.problem, h.failure, congrArg (List.cons q) h.problems, h.events,
    .problem q :: before, after, rfl, ?_⟩
  intro collected
  simp [deliver, Handler.respond, hbefore]

theorem stepBack (h : AbortedAt n p full cut capacity signals) {distance : Nat}
    (hdistance : distance ≤ capacity) :
    AbortedAt n p full cut capacity (.stepBack distance :: signals) := by
  obtain ⟨before, after, rfl, hbefore⟩ := h.before
  refine ⟨h.problem, h.failure, h.problems, h.events, .stepBack distance :: before, after, rfl, ?_⟩
  intro collected
  simp [deliver, hdistance, hbefore]

/-- The run received the events before the problem. -/
theorem exists_before (h : AbortedAt n p full cut capacity signals) :
    ∃ before after, signals = before ++ .problem p :: after ∧
      cut.events = before.filterMap Signal.event? := by
  obtain ⟨before, after, hsignals, hbefore⟩ := h.before
  refine ⟨before, after, hsignals, ?_⟩
  have hreceived := received_deliver (.collecting none) capacity before
  rw [hbefore 0] at hreceived
  generalize hcut : cut.events = events at hreceived
  cases hreceived with
  | all => rfl

end Delivery.AbortedAt

/-- The problem at which a run is given up. -/
theorem Delivery.AbortedAt.giveUp (q : Problem) (full : Delivery) (capacity : Nat)
    (signals : List Signal) :
    AbortedAt 0 q { full with problems := q :: full.problems } (.failed (.aborted q)) capacity
      (.problem q :: signals) :=
  ⟨rfl, rfl, rfl, List.nil_prefix, [], signals, rfl, fun _ => rfl⟩

theorem deliver_of_collect {h : Handler} {n : Nat} (hrespond : h.respond n = .collect)
    (capacity : Nat) (q : Problem) (signals : List Signal) :
    deliver h capacity n (.problem q :: signals) =
      { deliver h capacity (n + 1) signals with
        problems := q :: (deliver h capacity (n + 1) signals).problems } := by
  simp only [deliver, hrespond]

theorem deliver_of_giveUp {h : Handler} {n : Nat} (hrespond : h.respond n = .giveUp)
    (capacity : Nat) (q : Problem) (signals : List Signal) :
    deliver h capacity n (.problem q :: signals) = .failed (.aborted q) := by
  simp only [deliver, hrespond]

/-- **A run with a limit**: with `n` problems collected and `k` more allowed, a run receives
everything, or it is given up at the problem with the number `k`. -/
theorem deliver_limit (capacity n k : Nat) (signals : List Signal) :
    let full := deliver (.collecting none) capacity n signals
    let cut := deliver (.collecting (some (n + k))) capacity n signals
    full.problems.length ≤ k ∧ cut = full ∨
      k < full.problems.length ∧ ∃ p, Delivery.AbortedAt k p full cut capacity signals := by
  dsimp only
  -- The limit `n + k` stays the same along the signals: each problem moves one from `k` to `n`.
  induction signals generalizing n k with
  | nil => exact .inl ⟨Nat.zero_le k, rfl⟩
  | cons s signals ih =>
      cases s with
      | event e =>
          rcases ih n k with ⟨hlength, heq⟩ | ⟨hlength, p, h⟩
          · exact .inl ⟨hlength, by simp [deliver, heq]⟩
          · exact .inr ⟨hlength, p, h.event e⟩
      | problem q =>
          have hfull : (Handler.collecting none).respond n = .collect := rfl
          cases k with
          | zero =>
              have hcut : (Handler.collecting (some (n + 0))).respond n = .giveUp := by
                simp [Handler.respond]
              rw [deliver_of_collect hfull, deliver_of_giveUp hcut]
              exact .inr ⟨Nat.succ_pos _, q, .giveUp q _ capacity signals⟩
          | succ k =>
              have hcut : (Handler.collecting (some (n + (k + 1)))).respond n = .collect := by
                simp [Handler.respond]
              rw [deliver_of_collect hfull, deliver_of_collect hcut,
                show n + (k + 1) = n + 1 + k by omega]
              rcases ih (n + 1) k with ⟨hlength, heq⟩ | ⟨hlength, p, h⟩
              · exact .inl ⟨Nat.succ_le_succ hlength, by rw [heq]⟩
              · exact .inr ⟨Nat.succ_lt_succ hlength, p, h.collect q⟩
      | stepBack distance =>
          simp only [deliver]
          split
          · next hdistance =>
              rcases ih n k with ⟨hlength, heq⟩ | ⟨hlength, p, h⟩
              · exact .inl ⟨hlength, heq⟩
              · exact .inr ⟨hlength, p, h.stepBack hdistance⟩
          · exact .inl ⟨Nat.zero_le k, rfl⟩

/-- Lexical problems come before every event. -/
theorem events_of_lexical {g : Grammar} {text source : String} {before after : List Signal}
    {p : Problem} (h : parseSignals g text source = before ++ .problem p :: after)
    (hp : p.code.isLexical = true) : before.filterMap Signal.event? = [] := by
  -- The problem is signalled by the grammar, whose problems are not lexical, or by the scanner.
  rcases List.append_eq_append_iff.1 h with ⟨c, rfl, hgrammar⟩ | ⟨c, hscan, hrest⟩
  · have hmem : Signal.problem p ∈ g.signals ((scan text source).map Scanned.token) := by
      simp [hgrammar]
    have hgrammatical : p.code.isLexical = false := g.fromGrammar_signals _ _ hmem
    simp [hp] at hgrammatical
  · have hevents := event?_scanSignals (scan text source)
    rw [hscan, List.filterMap_append, List.append_eq_nil_iff] at hevents
    exact hevents.1

/-- Giving up at the first problem is giving up when none has been collected. -/
theorem deliver_strict (capacity : Nat) (signals : List Signal) :
    deliver .strict capacity 0 signals = deliver (.collecting (some 0)) capacity 0 signals := by
  induction signals with
  | nil => rfl
  | cons s signals ih =>
      cases s with
      | event e => simp only [deliver, ih]
      | problem p => rfl
      | stepBack distance => simp only [deliver, ih]

/-- **A parse that is given up received the beginning of the parse that is not.** With at most `n`
problems there is no difference. With more, the parse fails with the first problem over the limit,
and both have received the same before it. Before a lexical problem there is no event, and the end
of the document never comes. The strict handler allows no problem. -/
theorem parseText_limit (o : ParseOptions) (g : Grammar) (text source : String) (n : Nat) :
    let full := parseText o (.collecting none) g text source
    let cut := parseText o (.collecting (some n)) g text source
    (full.problems.length ≤ n ∧ cut = full ∨
      n < full.problems.length ∧ ∃ p,
        Delivery.AbortedAt n p full cut o.capacity (parseSignals g text source) ∧
          (p.code.isLexical = true → cut.events = []) ∧ Event.finish ∉ cut.events) ∧
      parseText o .strict g text source = parseText o (.collecting (some 0)) g text source := by
  dsimp only
  unfold parseText
  cases o.sizeFailure? text.utf8ByteSize with
  | some failure => exact ⟨.inl ⟨Nat.zero_le n, rfl⟩, rfl⟩
  | none =>
      refine ⟨?_, deliver_strict _ _⟩
      have hlimit := deliver_limit o.capacity 0 n (parseSignals g text source)
      rw [Nat.zero_add] at hlimit
      rcases hlimit with hall | ⟨hlength, p, h⟩
      · exact .inl hall
      · obtain ⟨before, after, hsignals, hevents⟩ := h.exists_before
        refine .inr ⟨hlength, p, h, ?_, ?_⟩
        · intro hp
          exact hevents.trans (events_of_lexical hsignals hp)
        · have hfinish := (beginning_of_append hsignals rfl).2
          rwa [← hevents] at hfinish

end EpubStyle
