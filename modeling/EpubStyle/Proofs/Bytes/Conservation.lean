import Mathlib.Control.Monad.Basic
import EpubStyle.Proofs.Bytes.Charsets

/-!
# No byte is lost in a stream

A stream keeps what it read while it was opened and hands it out again. Whatever the feed behind it
does, in what pieces it delivers, when it is interrupted and when a read fails, the bytes of the
feed come out of the stream in order, each once, and only those of the mark are missing
(`DetectingStream.openFeed_conserves`). A read that fails takes nothing with it. The reads are
finitely many, so it does not matter here that a feed comes to an end.

`Feed.readEach` makes reads of given sizes and goes on whatever they bring; `Feed.Holds` says that
the bytes of a feed are what such reads deliver. Opening a feed reads one byte at a time
(`Feed.Draws`). A sniffer decides at the limit at the latest, which is a whole number of units
(`Sniffer.Aligned`), so with a mark in front no more bytes are taken than a stream has room for, and
the only failures are those of the feed.
-/

set_option autoImplicit false

namespace EpubStyle.Bytes

/-! ## Reads one after the other -/

/-- The bytes that a read brings. A read that is interrupted or fails brings none. -/
def Reply.delivered : Reply → List UInt8
  | bytes list => list
  | interrupted | failed _ => []

namespace Feed

variable {σ : Type} {f : Feed σ}

/-- Reads of the given sizes, one after the other, whatever comes of them: the bytes that they bring
in all, and the state behind them. -/
def readEach (f : Feed σ) : List Nat → σ → List UInt8 × σ
  | [], s => ([], s)
  | n :: sizes, s =>
      let r := f.read n s
      let rest := f.readEach sizes r.2
      (r.1.delivered ++ rest.1, rest.2)

theorem readEach_append (f : Feed σ) (first second : List Nat) (s : σ) :
    f.readEach (first ++ second) s =
      ((f.readEach first s).1 ++ (f.readEach second (f.readEach first s).2).1,
        (f.readEach second (f.readEach first s).2).2) := by
  induction first generalizing s with
  | nil => rfl
  | cons n first ih => rw [List.cons_append, readEach, ih, readEach, List.append_assoc]

/-- The feed holds these bytes: whatever reads are made, they bring the first of them. -/
def Holds (f : Feed σ) (bytes : List UInt8) (s : σ) : Prop :=
  ∀ sizes, (f.readEach sizes s).1 <+: bytes

/-- Behind reads, the feed holds what they have left. -/
theorem Holds.behind {bytes : List UInt8} {s : σ} (h : f.Holds bytes s) (sizes : List Nat) :
    ∃ rest, bytes = (f.readEach sizes s).1 ++ rest ∧ f.Holds rest (f.readEach sizes s).2 := by
  obtain ⟨rest, rfl⟩ := h sizes
  refine ⟨rest, rfl, fun more => ?_⟩
  have hmore := h (sizes ++ more)
  rw [readEach_append] at hmore
  exact (List.prefix_append_right_inj _).1 hmore

/-- Reads of one byte each lead from one state to another and bring these bytes. -/
def Draws (f : Feed σ) (s : σ) (bytes : List UInt8) (s' : σ) : Prop :=
  ∃ reads, f.readEach (List.replicate reads 1) s = (bytes, s')

theorem Draws.none (s : σ) : f.Draws s [] s := ⟨0, rfl⟩

theorem Draws.trans {s s' s'' : σ} {first second : List UInt8} (h : f.Draws s first s')
    (h' : f.Draws s' second s'') : f.Draws s (first ++ second) s'' := by
  obtain ⟨reads, hreads⟩ := h
  obtain ⟨reads', hreads'⟩ := h'
  refine ⟨reads + reads', ?_⟩
  rw [← List.replicate_append_replicate, readEach_append, hreads, hreads']

/-- A read of one byte. -/
theorem Draws.read {s s' : σ} {r : Reply} (h : f.read 1 s = (r, s')) :
    f.Draws s r.delivered s' := by
  refine ⟨1, ?_⟩
  rw [List.replicate_one, readEach, h, readEach, List.append_nil]

/-- The feed fails with the message behind the bytes. -/
def FailsBehind (f : Feed σ) (s : σ) (bytes : List UInt8) (message : String) (s' : σ) : Prop :=
  ∃ t, f.Draws s bytes t ∧ f.read 1 t = (.failed message, s')

/-- The feed says behind the bytes that there are no more. -/
def EndsBehind (f : Feed σ) (s : σ) (bytes : List UInt8) (s' : σ) : Prop :=
  ∃ t, f.Draws s bytes t ∧ f.read 1 t = (.bytes [], s')

theorem FailsBehind.draws {s s' : σ} {bytes : List UInt8} {message : String}
    (h : f.FailsBehind s bytes message s') : f.Draws s bytes s' := by
  obtain ⟨t, hdraws, hread⟩ := h
  have hall := hdraws.trans (.read hread)
  rwa [Reply.delivered, List.append_nil] at hall

theorem EndsBehind.draws {s s' : σ} {bytes : List UInt8} (h : f.EndsBehind s bytes s') :
    f.Draws s bytes s' := by
  obtain ⟨t, hdraws, hread⟩ := h
  have hall := hdraws.trans (.read hread)
  rwa [Reply.delivered, List.append_nil] at hall

theorem Draws.failsBehind {s s' s'' : σ} {first second : List UInt8} {message : String}
    (h : f.Draws s first s') (h' : f.FailsBehind s' second message s'') :
    f.FailsBehind s (first ++ second) message s'' := by
  obtain ⟨t, hdraws, hread⟩ := h'
  exact ⟨t, h.trans hdraws, hread⟩

/-- What comes of reading a byte. -/
inductive Drew (f : Feed σ) (s : σ) : Except String (Option UInt8) × σ → Prop
  | byte (b : UInt8) (s' : σ) (h : f.Draws s [b] s') : Drew f s (.ok (some b), s')
  | ended (s' : σ) (h : f.EndsBehind s [] s') : Drew f s (.ok none, s')
  | failed (message : String) (s' : σ) (h : f.FailsBehind s [] message s') :
      Drew f s (.error message, s')

/-- **Reading a byte** makes reads of one byte until one is not interrupted. -/
theorem drew_readByte (f : Feed σ) (s : σ) : f.Drew s (f.readByte s) := by
  fun_induction readByte f s with
  | case1 s s' hread => exact .ended s' ⟨s, .none s, hread⟩
  | case2 s b piece s' hread =>
      have hlength := f.length_le 1 s _ _ hread
      obtain rfl : piece = [] := List.eq_nil_of_length_eq_zero (by simpa using hlength)
      exact .byte b s' (.read hread)
  | case3 s s' hread hlt ih =>
      -- The interruption brings nothing.
      have hfirst : f.Draws s [] s' := .read hread
      generalize f.readByte s' = r at ih ⊢
      cases ih with
      | byte b s'' h => exact .byte b s'' (hfirst.trans h)
      | ended s'' h =>
          obtain ⟨t, hdraws, hended⟩ := h
          exact .ended s'' ⟨t, hfirst.trans hdraws, hended⟩
      | failed message s'' h => exact .failed message s'' (hfirst.failsBehind h)
  | case4 s message s' hread => exact .failed message s' ⟨s, .none s, hread⟩

end Feed

/-! ## Sniffers and the limit -/

namespace Sniffer

/-- The sniffer has read whole units below the limit, and the bytes of the one that it has begun. -/
structure Aligned (s : Sniffer) : Prop where
  unit : s.consumed % s.width = s.unit.length
  consumed : s.consumed < maxCharsetSniff

theorem width_cases (s : Sniffer) : s.width = 1 ∨ s.width = 2 ∨ s.width = 4 := by
  unfold width
  cases s.mark with
  | none => exact .inl rfl
  | some m => cases m <;> decide

theorem aligned_start (mark : Option ByteOrderMark) : Aligned { mark := mark } where
  unit := Nat.zero_mod _
  consumed := (by decide : 0 < maxCharsetSniff)

/-- **A sniffer that has not decided is below the limit.** The limit is a whole number of units, so
a byte that reaches it completes one and is the last that is looked at. -/
theorem Aligned.take {s s' : Sniffer} (h : s.Aligned) {b : UInt8} (hb : s.take b = .pending s') :
    s'.Aligned ∧ s'.consumed = s.consumed + 1 := by
  have hunit := h.unit
  have hconsumed := h.consumed
  have hlimit : maxCharsetSniff = 256 := rfl
  rcases Nat.lt_or_ge (s.unit.length + 1) s.width with hbegun | hge
  · -- Within a unit the limit is not tested, but it is a whole number of units, so not reached.
    rw [take_begun hbegun] at hb
    obtain rfl := Sniffing.pending.inj hb
    refine ⟨⟨?_, ?_⟩, rfl⟩
    · change (s.consumed + 1) % s.width = s.unit.length + 1
      rw [Nat.add_mod, hunit, Nat.mod_eq_of_lt (Nat.lt_of_le_of_lt (Nat.le_add_left 1 _) hbegun),
        Nat.mod_eq_of_lt hbegun]
    · change s.consumed + 1 < maxCharsetSniff
      rcases s.width_cases with hwidth | hwidth | hwidth <;> rw [hwidth] at hunit hbegun <;> omega
  · have hcomplete : s.unit.length + 1 = s.width := by
      have hlt := Nat.mod_lt s.consumed s.width_pos
      omega
    rw [take_complete hcomplete] at hb
    split at hb
    · cases hb
    · next hbelow =>
        obtain ⟨hmark, hempty, hcount⟩ := takeChar_pending hb
        have hwidth : s'.width = s.width := by rw [width, hmark, width]
        refine ⟨⟨?_, by rw [hcount]; exact Nat.lt_of_not_le hbelow⟩, hcount⟩
        rw [hcount, hwidth, hempty]
        change (s.consumed + 1) % s.width = 0
        rw [Nat.add_mod, hunit]
        rcases s.width_cases with hwidth | hwidth | hwidth <;> rw [hwidth] at hcomplete ⊢ <;> omega

/-- Sniffing over bytes that are kept counts each of them. -/
theorem Aligned.sniffKept {s s' : Sniffer} (h : s.Aligned) {kept : List UInt8}
    (hkept : DetectingStream.sniffKept s kept = .pending s') :
    s'.Aligned ∧ s'.consumed = s.consumed + kept.length := by
  induction kept generalizing s with
  | nil =>
      obtain rfl := Sniffing.pending.inj hkept
      exact ⟨h, rfl⟩
  | cons b kept ih =>
      rw [DetectingStream.sniffKept] at hkept
      cases htake : s.take b with
      | pending t =>
          obtain ⟨ht, hcount⟩ := h.take htake
          rw [htake] at hkept
          obtain ⟨hs', hcount'⟩ := ih ht hkept
          refine ⟨hs', ?_⟩
          rw [hcount', hcount, List.length_cons]
          omega
      | found charset => simp [htake] at hkept
      | failed => simp [htake] at hkept

end Sniffer

/-! ## Opening a feed -/

namespace DetectingStream

variable {σ : Type}

/-- What comes of reading the head: at most `n` bytes, fewer at the end or where the feed fails. -/
inductive HeadRead (f : Feed σ) (n : Nat) (s : σ) : Except String (List UInt8) × σ → Prop
  | ok (head : List UInt8) (s' : σ) (hlength : head.length ≤ n) (h : f.Draws s head s')
      (hshort : head.length < n → f.EndsBehind s head s') : HeadRead f n s (.ok head, s')
  | failed (head : List UInt8) (message : String) (s' : σ) (hlength : head.length ≤ n)
      (h : f.FailsBehind s head message s') : HeadRead f n s (.error message, s')

theorem headRead_readHead (f : Feed σ) (n : Nat) (s : σ) : HeadRead f n s (readHead f n s) := by
  induction n generalizing s with
  | zero => exact .ok [] s (Nat.le_refl 0) (.none s) (fun h => absurd h (Nat.lt_irrefl 0))
  | succ n ih =>
      have hdrew := f.drew_readByte s
      rw [readHead]
      generalize f.readByte s = r at hdrew ⊢
      cases hdrew with
      | failed message s' h => exact .failed [] message s' (Nat.zero_le _) h
      | ended s' h => exact .ok [] s' (Nat.zero_le _) h.draws (fun _ => h)
      | byte b s' h =>
          have hmore := ih s'
          simp only
          generalize readHead f n s' = r at hmore ⊢
          cases hmore with
          | failed head message s'' hlength hfails =>
              exact .failed (b :: head) message s'' (Nat.succ_le_succ hlength)
                (h.failsBehind hfails)
          | ok head s'' hlength hdraws hshort =>
              refine .ok (b :: head) s'' (Nat.succ_le_succ hlength) (h.trans hdraws) ?_
              intro hlt
              obtain ⟨t, hfirst, hended⟩ := hshort (Nat.lt_of_succ_lt_succ hlt)
              exact ⟨t, h.trans hfirst, hended⟩

/-- What comes of sniffing on: the bytes that are taken are kept, and with those counted before they
do not exceed the limit. -/
inductive SniffedOn (f : Feed σ) (sniffer : Sniffer) (kept : List UInt8) (s : σ) :
    Except String (Option String × List UInt8) × σ → Prop
  | ok (charset : Option String) (more : List UInt8) (s' : σ) (h : f.Draws s more s')
      (hlimit : sniffer.consumed + more.length ≤ maxCharsetSniff) :
      SniffedOn f sniffer kept s (.ok (charset, kept ++ more), s')
  | failed (more : List UInt8) (message : String) (s' : σ) (h : f.FailsBehind s more message s')
      (hlimit : sniffer.consumed + more.length ≤ maxCharsetSniff) :
      SniffedOn f sniffer kept s (.error message, s')

/-- **Sniffing on never fills a stream**: it fails only if the feed does. -/
theorem sniffedOn_sniffOn (f : Feed σ) {sniffer : Sniffer} (hsniffer : sniffer.Aligned)
    (kept : List UInt8) (budget : Nat) (hbudget : sniffer.consumed + budget = streamCapacity)
    (s : σ) : SniffedOn f sniffer kept s (sniffOn f sniffer kept budget s) := by
  have hbelow := hsniffer.consumed
  -- The budget is what is left of the capacity, so a sniffer below the limit cannot use it up.
  induction budget generalizing sniffer kept s with
  | zero =>
      have hcapacity : streamCapacity = maxCharsetSniff + 4 := rfl
      omega
  | succ budget ih =>
      have hdrew := f.drew_readByte s
      rw [sniffOn]
      generalize f.readByte s = r at hdrew ⊢
      cases hdrew with
      | failed message s' h => exact .failed [] message s' h (Nat.le_of_lt hbelow)
      | ended s' h =>
          have hnone : SniffedOn f sniffer kept s (.ok (none, kept ++ []), s') :=
            .ok none [] s' h.draws (Nat.le_of_lt hbelow)
          rwa [List.append_nil] at hnone
      | byte b s' h =>
          simp only
          cases htake : sniffer.take b with
          | found charset => exact .ok (some charset) [b] s' h hbelow
          | failed => exact .ok none [b] s' h hbelow
          | pending sniffer' =>
              obtain ⟨haligned, hcount⟩ := hsniffer.take htake
              have hmore := ih haligned (kept ++ [b]) (by omega) s' haligned.consumed
              simp only
              generalize sniffOn f sniffer' (kept ++ [b]) budget s' = r at hmore ⊢
              cases hmore with
              | failed more message s'' hfails hlimit =>
                  apply SniffedOn.failed (b :: more) message s'' (h.failsBehind hfails)
                  rw [List.length_cons]
                  omega
              | ok charset more s'' hdraws hlimit =>
                  rw [List.append_assoc]
                  apply SniffedOn.ok charset (b :: more) s'' (h.trans hdraws)
                  rw [List.length_cons]
                  omega

/-- The bytes of the mark that was found. -/
def markBytes (d : DetectingStream σ) : List UInt8 := (d.mark.map ByteOrderMark.bytes).getD []

/-- A stream that was opened over the head of a feed. The bytes taken from the feed are those of the
mark and those that are kept. -/
structure OpenedOver (f : Feed σ) (s : σ) (head : List UInt8) (d : DetectingStream σ) : Prop where
  mark : d.mark = ByteOrderMark.detect head
  /-- The head has four bytes unless the feed ends before. -/
  short : head.length < 4 → ∃ s', f.EndsBehind s head s'
  front : head <+: d.markBytes ++ d.pending
  draws : f.Draws s (d.markBytes ++ d.pending) d.inner
  room : (d.markBytes ++ d.pending).length ≤ streamCapacity

/-- A head is its mark and what is kept of it. -/
theorem mark_append_kept (head : List UInt8) :
    ((ByteOrderMark.detect head).map ByteOrderMark.bytes).getD [] ++
        head.drop (((ByteOrderMark.detect head).map (fun m => m.bytes.length)).getD 0) =
      head := by
  cases hmark : ByteOrderMark.detect head with
  | none => rfl
  | some m =>
      obtain ⟨kept, hkept⟩ := ByteOrderMark.bytes_prefix_of_detect hmark
      show m.bytes ++ head.drop m.bytes.length = head
      rw [← hkept, List.drop_left]

/-- A stream that keeps what is left of the head and what was read behind it. -/
theorem openedOver_of_head {f : Feed σ} {s s' s'' : σ} {head kept more : List UInt8}
    (hlength : head.length ≤ 4) (hdraws : f.Draws s head s')
    (hshort : head.length < 4 → f.EndsBehind s head s')
    (hkept : ((ByteOrderMark.detect head).map ByteOrderMark.bytes).getD [] ++ kept = head)
    (hmore : f.Draws s' more s'') (hlimit : kept.length + more.length ≤ maxCharsetSniff)
    (charset : Option String) :
    OpenedOver f s head ⟨s'', kept ++ more, ByteOrderMark.detect head, charset⟩ := by
  have hall : markBytes (⟨s'', kept ++ more, ByteOrderMark.detect head, charset⟩ :
      DetectingStream σ) ++ (kept ++ more) = head ++ more := by
    rw [← List.append_assoc, markBytes, hkept]
  refine ⟨rfl, fun hlt => ⟨s', hshort hlt⟩, ?_, ?_, ?_⟩
  · rw [hall]
    exact List.prefix_append head more
  · rw [hall]
    exact hdraws.trans hmore
  · have hcapacity : streamCapacity = maxCharsetSniff + 4 := rfl
    have hwhole := congrArg List.length hkept
    rw [hall, List.length_append, hcapacity]
    rw [List.length_append] at hwhole
    omega

/-- What comes of opening a feed. -/
inductive Outcome (f : Feed σ) (s : σ) : Except String (DetectingStream σ) × σ → Prop
  | opened (head : List UInt8) (d : DetectingStream σ) (h : OpenedOver f s head d) :
      Outcome f s (.ok d, d.inner)
  | failed (taken : List UInt8) (message : String) (s' : σ)
      (h : f.FailsBehind s taken message s') (room : taken.length ≤ streamCapacity) :
      Outcome f s (.error message, s')

/-- **Opening a feed takes no more bytes than a stream has room for**, and fails only if the feed
does. -/
theorem outcome_openFeed (f : Feed σ) (s : σ) : Outcome f s (openFeed f s) := by
  have hhead := headRead_readHead f 4 s
  have hcapacity : streamCapacity = maxCharsetSniff + 4 := rfl
  rw [openFeed]
  generalize readHead f 4 s = r at hhead ⊢
  cases hhead with
  | failed head message s' hlength hfails => exact .failed head message s' hfails (by omega)
  | ok head s' hlength hdraws hshort =>
      simp only
      have hkept := mark_append_kept head
      generalize head.drop _ = kept at hkept ⊢
      have hbound : kept.length ≤ 4 := by
        have hwhole := congrArg List.length hkept
        rw [List.length_append] at hwhole
        omega
      have hfour : kept.length + ([] : List UInt8).length ≤ maxCharsetSniff :=
        Nat.le_trans hbound (by decide)
      cases hsniff : sniffKept { mark := ByteOrderMark.detect head } kept with
      | found charset =>
          have h :=
            openedOver_of_head hlength hdraws hshort hkept (.none s') hfour (some charset)
          rw [List.append_nil] at h
          exact .opened head _ h
      | failed =>
          have h := openedOver_of_head hlength hdraws hshort hkept (.none s') hfour none
          rw [List.append_nil] at h
          exact .opened head _ h
      | pending sniffer =>
          obtain ⟨haligned, hcount⟩ :=
            (Sniffer.aligned_start (ByteOrderMark.detect head)).sniffKept hsniff
          have hconsumed : sniffer.consumed = kept.length := by
            rw [hcount]
            exact Nat.zero_add _
          have hbelow := haligned.consumed
          have hsniffed := sniffedOn_sniffOn f haligned kept (streamCapacity - kept.length)
            (by omega) s'
          simp only
          generalize sniffOn f sniffer kept (streamCapacity - kept.length) s' = r at hsniffed ⊢
          cases hsniffed with
          | ok charset more s'' hmore hlimit =>
              rw [hconsumed] at hlimit
              exact .opened head _
                (openedOver_of_head hlength hdraws hshort hkept hmore hlimit charset)
          | failed more message s'' hfails hlimit =>
              apply Outcome.failed (head ++ more) message s'' (hdraws.failsBehind hfails)
              rw [List.length_append]
              omega

/-! ## Reading a stream -/

/-- Without kept bytes a stream reads as its feed. -/
theorem readEach_of_pending_nil (f : Feed σ) (sizes : List Nat) {d : DetectingStream σ}
    (h : d.pending = []) :
    (feed f).readEach sizes d =
      ((f.readEach sizes d.inner).1, { d with inner := (f.readEach sizes d.inner).2 }) := by
  induction sizes generalizing d with
  | nil => rfl
  | cons n sizes ih =>
      rcases d with ⟨inner, pending, mark, charset⟩
      obtain rfl : pending = [] := h
      rw [Feed.readEach]
      have hread : (feed f).read n ⟨inner, [], mark, charset⟩ =
          ((f.read n inner).1, ⟨(f.read n inner).2, [], mark, charset⟩) := rfl
      rw [hread]
      simp only
      rw [ih rfl]
      rfl

/-- **Reads of a stream bring what was kept and then what the feed brings**, and what is still kept
stands in between. -/
theorem readEach_feed (f : Feed σ) (sizes : List Nat) (d : DetectingStream σ) :
    ∃ later, later <:+ sizes ∧
      d.pending ++ (f.readEach later d.inner).1 =
        ((feed f).readEach sizes d).1 ++ ((feed f).readEach sizes d).2.pending ∧
      ((feed f).readEach sizes d).2.inner = (f.readEach later d.inner).2 := by
  -- As long as something is kept the feed is left alone; from then on the reads are its own.
  induction sizes generalizing d with
  | nil => exact ⟨[], List.suffix_rfl, List.append_nil _, rfl⟩
  | cons n sizes ih =>
      rcases read_eq_or f n d with ⟨hpending, -⟩ | ⟨-, hread⟩
      · refine ⟨n :: sizes, List.suffix_rfl, ?_, ?_⟩
        · rw [readEach_of_pending_nil f _ hpending, hpending]
          simp
        · rw [readEach_of_pending_nil f _ hpending]
      · -- The read takes from what is kept and leaves the feed alone.
        obtain ⟨later, hsuffix, hbytes, hinner⟩ := ih { d with pending := d.pending.drop n }
        have hfirst : (feed f).readEach (n :: sizes) d =
            (d.pending.take n ++
              ((feed f).readEach sizes { d with pending := d.pending.drop n }).1,
              ((feed f).readEach sizes { d with pending := d.pending.drop n }).2) := by
          have hfeed : (feed f).read n d = read f n d := rfl
          rw [Feed.readEach, hfeed, hread]
          rfl
        refine ⟨later, hsuffix.trans (List.suffix_cons n sizes), ?_, ?_⟩
        · rw [hfirst]
          simp only
          rw [List.append_assoc, ← hbytes, ← List.append_assoc, List.take_append_drop]
        · rw [hfirst]
          exact hinner

/-- **A stream conserves the bytes of its feed**, whatever interrupts it and wherever it fails.

Opening takes at most as many bytes as a stream has room for, one at a time. It fails only with a
failure of the feed, so it never fails for want of room.

From an opened stream, reads of any sizes bring the bytes of the feed behind the mark, in order and
each once, also across reads that fail: what they have brought, what is still kept and what the feed
still holds make up all of them. The mark that is missing is that of the first four bytes, or fewer
where the feed ends. -/
theorem openFeed_conserves (f : Feed σ) (s : σ) :
    (∃ taken, f.Draws s taken (openFeed f s).2 ∧ taken.length ≤ streamCapacity ∧
      ∀ message, (openFeed f s).1 = .error message →
        f.FailsBehind s taken message (openFeed f s).2) ∧
    ((∀ n t, (f.read n t).1 ≠ .failed streamFull) → (openFeed f s).1 ≠ .error streamFull) ∧
    ∀ d bytes, (openFeed f s).1 = .ok d → f.Holds bytes s →
      (∃ head, head <+: bytes ∧ d.mark = ByteOrderMark.detect head ∧
        (head.length < 4 → ∃ s', f.EndsBehind s head s')) ∧
      ∀ sizes, ∃ rest,
        bytes = d.markBytes ++ (((feed f).readEach sizes d).1 ++
          (((feed f).readEach sizes d).2.pending ++ rest)) ∧
        f.Holds rest ((feed f).readEach sizes d).2.inner := by
  have houtcome := outcome_openFeed f s
  generalize openFeed f s = r at houtcome ⊢
  cases houtcome with
  | failed taken message s' hfails hroom =>
      refine ⟨⟨taken, hfails.draws, hroom, ?_⟩, ?_, ?_⟩
      · intro message' hmessage
        obtain rfl := Except.error.inj hmessage
        exact hfails
      · intro hnever hfull
        obtain rfl := Except.error.inj hfull
        obtain ⟨t, -, hread⟩ := hfails
        exact hnever 1 t (congrArg Prod.fst hread)
      · intro d bytes hopen
        cases hopen
  | opened head d h =>
      refine ⟨⟨_, h.draws, h.room, fun _ hmessage => nomatch hmessage⟩,
        fun _ hfull => (nomatch hfull), ?_⟩
      intro d' bytes hopen hholds
      obtain rfl := Except.ok.inj hopen
      -- What the feed held is the mark, what is kept, and what the feed holds now.
      obtain ⟨reads, hdraws⟩ := h.draws
      obtain ⟨rest, hbytes, hrest⟩ := hholds.behind (List.replicate reads 1)
      rw [hdraws] at hbytes hrest
      refine ⟨⟨head, ?_, h.mark, h.short⟩, fun sizes => ?_⟩
      · rw [hbytes]
        exact h.front.trans (List.prefix_append _ _)
      · obtain ⟨later, -, hlater, hinner⟩ := readEach_feed f sizes d
        obtain ⟨rest', hrest', hholds'⟩ := hrest.behind later
        refine ⟨rest', ?_, by rw [hinner]; exact hholds'⟩
        calc bytes = d.markBytes ++ d.pending ++ rest := hbytes
          _ = d.markBytes ++ (d.pending ++ (f.readEach later d.inner).1 ++ rest') := by
              simp only [hrest', List.append_assoc]
          _ = _ := by rw [hlater, List.append_assoc]

end DetectingStream

/-! ## Feeds in memory -/

/-- **A supply holds its bytes**, however it is made to deliver them. -/
theorem Supply.holds (s : Supply) : feed.Holds s.bytes s := by
  intro sizes
  induction sizes generalizing s with
  | nil => exact List.nil_prefix
  | cons n sizes ih =>
      obtain ⟨taken, hreply, hbytes⟩ : ∃ taken, (s.read n).1.delivered = taken ∧
          s.bytes = taken ++ (s.read n).2.bytes := by
        refine ⟨_, rfl, ?_⟩
        unfold read
        split
        · rfl
        · split
          · rfl
          · exact (List.take_append_drop _ _).symm
      have hread : feed.read n s = s.read n := rfl
      rw [Feed.readEach, hread, hreply, hbytes]
      exact (List.prefix_append_right_inj taken).2 (ih _)

namespace DetectingStream

/-- A mark and the beginning of a rule `@charset` in bursts of three bytes. The first interruption
falls into opening, the second and the failure at the end into later reads. -/
theorem openFeed_conserves_failing :
    let bytes : List UInt8 := [0xEF, 0xBB, 0xBF, 0x40, 0x63, 0x3B, 0x61, 0x62, 0x63, 0x64]
    let supply : Supply :=
      { bytes := bytes, burst := some 3, interruptions := [4, 7], failure := some (9, "reset") }
    ∃ d, (openFeed Supply.feed supply).1 = .ok d ∧ Supply.feed.Holds bytes supply ∧
      d.pending = [0x40, 0x63, 0x3B] ∧
      ((feed Supply.feed).readEach [2, 0, 5, 4, 1, 4, 4, 4] d).1 =
        [0x40, 0x63, 0x3B, 0x61, 0x62, 0x63] ∧
      ∃ rest, bytes = d.markBytes ++
        (((feed Supply.feed).readEach [2, 0, 5, 4, 1, 4, 4, 4] d).1 ++
          (((feed Supply.feed).readEach [2, 0, 5, 4, 1, 4, 4, 4] d).2.pending ++ rest)) := by
  intro bytes supply
  have hopen : (openFeed Supply.feed supply).1 = .ok
      { inner :=
          { supply with
            bytes := [0x61, 0x62, 0x63, 0x64], interruptions := [7], delivered := 6 }
        pending := [0x40, 0x63, 0x3B], mark := some .utf8, charset := none } := by
    decide +kernel
  have hholds : Supply.feed.Holds bytes supply := supply.holds
  obtain ⟨rest, hrest, -⟩ := ((openFeed_conserves Supply.feed supply).2.2 _ bytes hopen hholds).2
    [2, 0, 5, 4, 1, 4, 4, 4]
  exact ⟨_, hopen, hholds, rfl, by decide, rest, hrest⟩

end DetectingStream

end EpubStyle.Bytes
