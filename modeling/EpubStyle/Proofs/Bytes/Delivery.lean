import EpubStyle.Bytes.Feed

/-!
# What a feed delivers

A feed delivers bytes in pieces of any sizes, with any interruptions between them, and then comes to
its end or fails. `Feed.Delivers` says this of a state without saying where the pieces are cut: the
bytes are the same however many are asked for at a time. It is the greatest predicate that every
read carries on, so it is shown with any predicate that is carried on (`Feed.Delivers.read` takes it
apart again).

Reading byte by byte and reading everything both depend on nothing but the bytes and the ending
(`Feed.Delivers.readByte_took`, `Feed.Delivers.readAll_eq`). A supply delivers its bytes whatever
its bursts and interruptions are (`Supply.delivers`).
-/

set_option autoImplicit false

namespace EpubStyle.Bytes

/-- How a feed comes to an end. -/
inductive Ending where
  /-- Behind the last byte there are no more. -/
  | complete
  /-- A read fails before that. -/
  | failure (message : String)
  deriving DecidableEq, Repr

/-- What comes of something that takes all bytes of a feed. -/
def Ending.outcome {α : Type} : Ending → α → Except String α
  | complete, value => .ok value
  | failure message, _ => .error message

namespace Feed

variable {σ : Type}

/-- The answer to a read where `bytes` are still to be delivered. The state behind it must satisfy
`later`, with what is left by then. -/
inductive Answers (later : List UInt8 → σ → Prop) (ending : Ending) (bytes : List UInt8) :
    Reply × σ → Prop
  | piece (b : UInt8) (piece rest : List UInt8) (s : σ) (hbytes : bytes = b :: piece ++ rest)
      (h : later rest s) : Answers later ending bytes (.bytes (b :: piece), s)
  | interrupted (s : σ) (h : later bytes s) : Answers later ending bytes (.interrupted, s)
  | finished (s : σ) (hbytes : bytes = []) (hending : ending = .complete) (h : later [] s) :
      Answers later ending bytes (.bytes [], s)
  | failed (message : String) (s : σ) (hending : ending = .failure message) :
      Answers later ending bytes (.failed message, s)

theorem Answers.mono {later later' : List UInt8 → σ → Prop} {ending : Ending}
    {bytes : List UInt8} {r : Reply × σ} (h : Answers later ending bytes r)
    (hlater : ∀ bytes s, later bytes s → later' bytes s) : Answers later' ending bytes r := by
  cases h with
  | piece b piece rest s hbytes h => exact .piece b piece rest s hbytes (hlater _ _ h)
  | interrupted s h => exact .interrupted s (hlater _ _ h)
  | finished s hbytes hending h => exact .finished s hbytes hending (hlater _ _ h)
  | failed message s hending => exact .failed message s hending

/-- The feed delivers these bytes from the state `s` on and then ends, or it fails before their end.
No read says otherwise, whatever number of bytes it asks for. -/
def Delivers (f : Feed σ) (ending : Ending) (bytes : List UInt8) (s : σ) : Prop :=
  ∃ later : List UInt8 → σ → Prop, later bytes s ∧
    ∀ bytes s, later bytes s → ∀ n, 0 < n → Answers later ending bytes (f.read n s)

variable {f : Feed σ} {ending : Ending} {bytes : List UInt8} {s : σ}

/-- What a read brings, and what is delivered after it. -/
theorem Delivers.read (h : f.Delivers ending bytes s) {n : Nat} (hn : 0 < n) :
    Answers (f.Delivers ending) ending bytes (f.read n s) := by
  obtain ⟨later, hs, hlater⟩ := h
  apply (hlater bytes s hs n hn).mono
  intro bytes s hs
  exact ⟨later, hs, hlater⟩

/-! ## Taking something from a feed -/

/-- Something was taken and `rest` is still to be delivered, or the feed has failed. -/
inductive Took (f : Feed σ) (ending : Ending) (rest : List UInt8) {α : Type} (value : α) :
    Except String α × σ → Prop
  | ok (s : σ) (h : f.Delivers ending rest s) : Took f ending rest value (.ok value, s)
  | failed (message : String) (s : σ) (hending : ending = .failure message) :
      Took f ending rest value (.error message, s)

/-- **Reading one byte** takes the next one, whatever interrupts it. -/
theorem Delivers.readByte_took (h : f.Delivers ending bytes s) :
    f.Took ending bytes.tail bytes.head? (f.readByte s) := by
  fun_induction readByte f s with
  | case1 s s' hread =>
      have hanswer := h.read Nat.one_pos
      rw [hread] at hanswer
      cases hanswer with
      | finished s hbytes hending hrest =>
          subst hbytes
          exact .ok _ hrest
  | case2 s b piece s' hread =>
      have hanswer := h.read Nat.one_pos
      have hlength := f.length_le 1 s _ _ hread
      rw [hread] at hanswer
      cases hanswer with
      | piece b piece rest s hbytes hrest =>
          obtain rfl : piece = [] := List.eq_nil_of_length_eq_zero (by simpa using hlength)
          subst hbytes
          exact .ok _ hrest
  | case3 s s' hread hlt ih =>
      have hanswer := h.read Nat.one_pos
      rw [hread] at hanswer
      cases hanswer with
      | interrupted s h => exact ih h
  | case4 s message s' hread =>
      have hanswer := h.read Nat.one_pos
      rw [hread] at hanswer
      cases hanswer with
      | failed message s hending => exact .failed message _ hending

/-- **Reading everything** gives all bytes, however many are asked for at a time. -/
theorem Delivers.readAll_eq {chunk : Nat} (hchunk : 0 < chunk) (h : f.Delivers ending bytes s) :
    (f.readAll chunk s).1 = ending.outcome bytes := by
  fun_induction readAll f chunk s generalizing bytes with
  | case1 s s' hread =>
      have hanswer := h.read hchunk
      rw [hread] at hanswer
      cases hanswer with
      | finished s hbytes hending h => rw [hbytes, hending]; rfl
  | case2 s b piece s' hread hlt rest s'' hrest ih
  | case3 s b piece s' hread hlt rest s'' hrest ih =>
      have hanswer := h.read hchunk
      rw [hread] at hanswer
      cases hanswer with
      | piece b piece left s hbytes h =>
          have hleft := ih h
          rw [hrest] at hleft
          -- What comes behind the piece decides whether all is read or the feed fails.
          cases ending <;> cases hleft
          · rw [hbytes]; rfl
  | case4 s s' hread hlt ih =>
      have hanswer := h.read hchunk
      rw [hread] at hanswer
      cases hanswer with
      | interrupted s h => exact ih h
  | case5 s message s' hread =>
      have hanswer := h.read hchunk
      rw [hread] at hanswer
      cases hanswer with
      | failed message s hending => rw [hending]; rfl

end Feed

/-! ## Feeds in memory -/

namespace Supply

/-- How a supply comes to its end: it fails unless its bytes run out before the offset where it is
to fail. -/
def ending (s : Supply) : Ending :=
  match s.failure with
  | some (offset, message) =>
      if offset ≤ s.delivered + s.bytes.length then .failure message else .complete
  | none => .complete

/-- The least of positive numbers is positive. -/
theorem foldl_min_pos {bounds : List Nat} {n : Nat} (hn : 0 < n) (hbounds : ∀ b ∈ bounds, 0 < b) :
    0 < bounds.foldl min n := by
  induction bounds generalizing n with
  | nil => exact hn
  | cons b bounds ih =>
      rw [List.forall_mem_cons] at hbounds
      exact ih (Nat.lt_min.2 ⟨hn, hbounds.1⟩) hbounds.2

/-- A read may deliver something unless bursts are empty. -/
theorem allowance_pos {s : Supply} (hburst : s.burst ≠ some 0) {n : Nat} (hn : 0 < n) :
    0 < s.allowance n := by
  apply foldl_min_pos hn
  intro b hb
  rcases List.mem_append.1 hb with hb | hb
  · rw [Option.mem_toList] at hb
    exact Nat.pos_of_ne_zero (fun hzero => hburst (hzero ▸ hb))
  · obtain ⟨offset, hoffset, rfl⟩ := List.mem_map.1 hb
    have hlater := (List.mem_filter.1 hoffset).2
    exact Nat.sub_pos_of_lt (by simpa using hlater)

/-- **A supply delivers its bytes**, with whatever bursts and interruptions, unless its bursts are
empty. -/
theorem delivers (s : Supply) (hburst : s.burst ≠ some 0) :
    feed.Delivers s.ending s.bytes s := by
  refine ⟨fun bytes s' => s'.bytes = bytes ∧ s'.burst ≠ some 0 ∧ s'.ending = s.ending,
    ⟨rfl, hburst, rfl⟩, ?_⟩
  rintro _ s' ⟨rfl, hburst', hending⟩ n hn
  rw [← hending]
  change Feed.Answers _ _ _ (s'.read n)
  unfold read
  split
  · exact .interrupted _ ⟨rfl, hburst', rfl⟩
  · split
    · next offset message hdue =>
        obtain ⟨hfailure, hoffset⟩ := Option.filter_eq_some_iff.1 hdue
        refine .failed message s' ?_
        have hreached : offset ≤ s'.delivered + s'.bytes.length :=
          Nat.le_add_right_of_le (by simpa using hoffset)
        simp [ending, hfailure, hreached]
    · next hnone =>
        have hpos := allowance_pos hburst' hn
        cases hbytes : s'.bytes with
        | nil =>
            have hcomplete : s'.ending = .complete := by
              cases hfailure : s'.failure with
              | none => simp [ending, hfailure]
              | some failure =>
                  have hlater : ¬ failure.1 ≤ s'.delivered := by
                    simpa [hfailure, Option.filter] using hnone
                  simp [ending, hfailure, hbytes, hlater]
            rw [List.take_nil]
            refine .finished _ rfl hcomplete ⟨?_, hburst', ?_⟩
            · simp
            · simp [ending, hbytes]
        | cons b bytes =>
            obtain ⟨k, hk⟩ := Nat.exists_eq_add_of_lt hpos
            rw [Nat.zero_add] at hk
            -- What is delivered moves from one side of the sum to the other.
            have hsum : s'.delivered + ((b :: bytes).take (s'.allowance n)).length +
                ((b :: bytes).drop (s'.allowance n)).length =
                  s'.delivered + (b :: bytes).length := by
              rw [Nat.add_assoc, ← List.length_append, List.take_append_drop]
            rw [hk] at hsum ⊢
            refine .piece b (bytes.take k) (bytes.drop k) _ ?_ ⟨?_, hburst', ?_⟩
            · simp
            · simp
            · simp only [ending, hbytes]
              rw [hsum]

end Supply

end EpubStyle.Bytes
