/-!
# Feeds

A `Feed` is anything bytes can be read from. A read asks for some number of bytes and gets at most
that many, none at the end, or it is interrupted, or it fails. Each read that delivers bytes or is
interrupted brings the feed nearer to its end, which `remaining` measures, so reading on after
interruptions comes to an end.

A `Supply` is a feed in memory. It can be made to deliver in small bursts, to be interrupted at
given offsets and to fail at one.
-/

namespace EpubStyle.Bytes

/-- The answer to a read. -/
inductive Reply where
  /-- Bytes that were read; none at the end. -/
  | bytes (list : List UInt8)
  /-- The read was interrupted and may be repeated. -/
  | interrupted
  | failed (message : String)
  deriving DecidableEq, Repr, Inhabited

/-- A source of bytes with states of type `σ`. -/
structure Feed (σ : Type) where
  /-- Read at most a number of bytes. -/
  read : Nat → σ → Reply × σ
  /-- A bound on the reads that deliver bytes or are interrupted. -/
  remaining : σ → Nat
  /-- No more bytes are delivered than were asked for. -/
  length_le : ∀ n s bytes s', read n s = (.bytes bytes, s') → bytes.length ≤ n
  /-- A read that delivers bytes lowers the bound. -/
  remaining_lt_of_bytes : ∀ n s b bytes s', read n s = (.bytes (b :: bytes), s') →
    remaining s' < remaining s
  /-- A read that is interrupted lowers the bound. -/
  remaining_lt_of_interrupted : ∀ n s s', read n s = (.interrupted, s') →
    remaining s' < remaining s

namespace Feed

variable {σ : Type}

/-- Read one byte, repeating interrupted reads. The byte is absent at the end. -/
def readByte (f : Feed σ) (s : σ) : Except String (Option UInt8) × σ :=
  match h : f.read 1 s with
  | (.bytes [], s') => (.ok none, s')
  | (.bytes (b :: _), s') => (.ok (some b), s')
  | (.interrupted, s') =>
      have := f.remaining_lt_of_interrupted 1 s s' h
      f.readByte s'
  | (.failed message, s') => (.error message, s')
  termination_by f.remaining s

/-- Read everything up to the end, repeating interrupted reads. -/
def readAll (f : Feed σ) (chunk : Nat) (s : σ) : Except String (List UInt8) × σ :=
  match h : f.read chunk s with
  | (.bytes [], s') => (.ok [], s')
  | (.bytes (b :: bytes), s') =>
      have := f.remaining_lt_of_bytes chunk s b bytes s' h
      match f.readAll chunk s' with
      | (.ok rest, s'') => (.ok (b :: bytes ++ rest), s'')
      | (.error message, s'') => (.error message, s'')
  | (.interrupted, s') =>
      have := f.remaining_lt_of_interrupted chunk s s' h
      f.readAll chunk s'
  | (.failed message, s') => (.error message, s')
  termination_by f.remaining s

end Feed

/-! ## Feeds in memory -/

/-- Bytes in memory with the way they are delivered. -/
structure Supply where
  /-- The bytes that are left. -/
  bytes : List UInt8
  /-- The most bytes that a read delivers. -/
  burst : Option Nat := none
  /-- The offsets before which a read is interrupted once. -/
  interruptions : List Nat := []
  /-- The offset at which reads fail, with the message. -/
  failure : Option (Nat × String) := none
  /-- Number of bytes delivered. -/
  delivered : Nat := 0
  deriving DecidableEq, Repr, Inhabited

namespace Supply

/-- The most bytes that a read for `n` bytes may deliver: no more than a burst, and none beyond an
offset where something else is due. -/
def allowance (s : Supply) (n : Nat) : Nat :=
  let bounds := s.burst.toList ++
    ((s.interruptions ++ (s.failure.map Prod.fst).toList).filter (s.delivered < ·)).map
      (· - s.delivered)
  bounds.foldl min n

/-- A read for `n` bytes. -/
def read (n : Nat) (s : Supply) : Reply × Supply :=
  if s.interruptions.contains s.delivered then
    (.interrupted, { s with interruptions := s.interruptions.erase s.delivered })
  else
    match s.failure.filter (fun f => f.1 ≤ s.delivered) with
    | some (_, message) => (.failed message, s)
    | none =>
        let taken := s.bytes.take (s.allowance n)
        (.bytes taken,
          { s with bytes := s.bytes.drop (s.allowance n), delivered := s.delivered + taken.length })

/-- The bytes and interruptions that are left. -/
def remaining (s : Supply) : Nat := s.bytes.length + s.interruptions.length

/-- The least of some numbers and `n` is at most `n`. -/
theorem foldl_min_le (bounds : List Nat) (n : Nat) : bounds.foldl min n ≤ n := by
  induction bounds generalizing n with
  | nil => exact Nat.le_refl n
  | cons b bounds ih => exact Nat.le_trans (ih (min n b)) (Nat.min_le_left n b)

/-- A read may not deliver more than it was asked for. -/
theorem allowance_le (s : Supply) (n : Nat) : s.allowance n ≤ n := foldl_min_le _ n

/-- A read delivers no more bytes than it was asked for. -/
theorem read_length_le (n : Nat) (s : Supply) (bytes : List UInt8) (s' : Supply)
    (h : s.read n = (.bytes bytes, s')) : bytes.length ≤ n := by
  unfold read at h
  split at h
  · cases h
  · split at h
    · cases h
    · cases h
      exact Nat.le_trans (List.length_take_le _ _) (s.allowance_le n)

/-- A read that delivers bytes lowers the bound. -/
theorem remaining_lt_of_bytes (n : Nat) (s : Supply) (b : UInt8) (bytes : List UInt8) (s' : Supply)
    (h : s.read n = (.bytes (b :: bytes), s')) : s'.remaining < s.remaining := by
  unfold read at h
  split at h
  · cases h
  · split at h
    · cases h
    · injection h with h₁ h₂
      injection h₁ with h₁
      subst h₂
      have hlen : (s.bytes.take (s.allowance n)).length = bytes.length + 1 := by rw [h₁]; rfl
      simp only [remaining, List.length_drop]
      rw [List.length_take] at hlen
      omega

/-- A read that is interrupted lowers the bound. -/
theorem remaining_lt_of_interrupted (n : Nat) (s s' : Supply)
    (h : s.read n = (.interrupted, s')) : s'.remaining < s.remaining := by
  unfold read at h
  split at h
  · next hc =>
    cases h
    have hmem : s.delivered ∈ s.interruptions := by simpa using hc
    have hpos : 0 < s.interruptions.length := List.length_pos_of_mem hmem
    simp only [remaining, List.length_erase_of_mem hmem]
    omega
  · split at h <;> cases h

/-- The feed that delivers a supply. -/
def feed : Feed Supply where
  read := read
  remaining := remaining
  length_le := read_length_le
  remaining_lt_of_bytes := remaining_lt_of_bytes
  remaining_lt_of_interrupted := remaining_lt_of_interrupted

end Supply

end EpubStyle.Bytes
