import EpubStyle.Bytes.Source
import EpubStyle.Proofs.Bytes.Delivery

/-!
# Sources from feeds

A source made from a feed is the source of the bytes that the feed delivers, and if the feed fails
before their end then so does the source (`Source.ofFeed_eq`). It does not matter in what pieces the
bytes come, how often reads are interrupted, or how short the bytes are.

Detection on a feed reads at most four bytes for a mark and sniffs on from there byte by byte. Two
facts make this the same as detection on the whole: no mark is longer than four bytes
(`ByteOrderMark.detect_take`), and a sniffer that goes on after some bytes decides what one decides
that is given all of them (`Sniffer.run_append`). A sniffer decides before the bytes to be read
again fill the stream (`Sniffer.Early`), so opening a feed never fails for want of room.

A stream that has been opened is a feed itself (`DetectingStream.feed`): it delivers the bytes that
were examined and then those of the feed behind it.
-/

set_option autoImplicit false

namespace EpubStyle.Bytes

/-! ## Marks -/

namespace ByteOrderMark

/-- Four bytes are enough to find a mark. -/
theorem detect_take (bytes : List UInt8) : detect (bytes.take 4) = detect bytes := by
  unfold detect
  congr 1
  funext m
  have hlength : m.bytes.length ≤ 4 := by
    cases m <;> decide
  rw [Bool.eq_iff_iff, List.isPrefixOf_iff_prefix, List.isPrefixOf_iff_prefix,
    List.prefix_take_iff]
  exact and_iff_left hlength

/-- The mark that is found stands at the front. -/
theorem bytes_prefix_of_detect {bytes : List UInt8} {m : ByteOrderMark}
    (h : detect bytes = some m) : m.bytes <+: bytes := by
  unfold detect at h
  have hprefix := List.find?_some h
  rwa [List.isPrefixOf_iff_prefix] at hprefix

end ByteOrderMark

/-! ## Sniffing -/

namespace Sniffer

/-- The sniffer has completed no unit that ends at the limit or behind it, and none that it has not
looked at. -/
structure Early (s : Sniffer) : Prop where
  unit : s.unit.length < s.width
  consumed : s.consumed < maxCharsetSniff + s.unit.length

theorem width_pos (s : Sniffer) : 0 < s.width := by
  unfold width
  cases s.mark with
  | none => decide
  | some m => cases m <;> decide

theorem width_le (s : Sniffer) : s.width ≤ 4 := by
  unfold width
  cases s.mark with
  | none => decide
  | some m => cases m <;> decide

/-- A sniffer that has read nothing is early. -/
theorem early_start (mark : Option ByteOrderMark) : Early { mark := mark } where
  unit := width_pos _
  consumed := Nat.zero_lt_of_lt (Nat.lt_add_left 0 (by decide : 0 < maxCharsetSniff))

/-- An early sniffer has room for its bytes in a stream, and for one more. -/
theorem Early.consumed_lt {s : Sniffer} (h : s.Early) : s.consumed < streamCapacity := by
  have hunit := h.unit
  have hconsumed := h.consumed
  have hwidth := s.width_le
  have hcapacity : streamCapacity = maxCharsetSniff + 4 := rfl
  omega

/-- Looking at a character counts no bytes and starts a new unit. -/
theorem takeChar_pending {s s' : Sniffer} {c : Char} (h : s.takeChar c = .pending s') :
    s'.mark = s.mark ∧ s'.unit = [] ∧ s'.consumed = s.consumed := by
  simp only [takeChar] at h
  repeat' split at h
  all_goals first
    | (obtain rfl := Sniffing.pending.inj h; exact ⟨rfl, rfl, rfl⟩)
    | cases h

/-- A sniffer that has not decided has counted the byte and is early if it was so before. -/
theorem take_pending {s s' : Sniffer} {b : UInt8} (hs : s.Early) (h : s.take b = .pending s') :
    s'.Early ∧ s'.consumed = s.consumed + 1 := by
  have hwidth : ∀ t : Sniffer, t.mark = s.mark → t.width = s.width := by
    intro t ht
    simp only [width, ht]
  have hunit := hs.unit
  have hconsumed := hs.consumed
  simp only [take] at h
  split at h
  · next hshort =>
      obtain rfl := Sniffing.pending.inj h
      refine ⟨⟨hshort, ?_⟩, rfl⟩
      simp only [List.length_cons]
      omega
  · split at h
    · cases h
    · next hlimit =>
        obtain ⟨hmark, hempty, hcount⟩ := takeChar_pending h
        refine ⟨⟨?_, ?_⟩, hcount⟩
        · rw [hempty]
          exact s'.width_pos
        · rw [hempty, hcount]
          simpa using hlimit

/-- **A sniffer may be given its bytes in two parts.** -/
theorem run_append (s : Sniffer) (kept bytes : List UInt8) :
    s.run (kept ++ bytes) =
      match DetectingStream.sniffKept s kept with
      | .pending s' => s'.run bytes
      | .found charset => some charset
      | .failed => none := by
  induction kept generalizing s with
  | nil => rfl
  | cons b kept ih =>
      rw [List.cons_append, run, DetectingStream.sniffKept]
      cases s.take b with
      | pending s' => exact ih s'
      | found charset => rfl
      | failed => rfl

/-- Sniffing over bytes that are kept counts each of them. -/
theorem sniffKept_pending {s s' : Sniffer} {kept : List UInt8} (hs : s.Early)
    (h : DetectingStream.sniffKept s kept = .pending s') :
    s'.Early ∧ s'.consumed = s.consumed + kept.length := by
  induction kept generalizing s with
  | nil =>
      obtain rfl := Sniffing.pending.inj h
      exact ⟨hs, rfl⟩
  | cons b kept ih =>
      rw [DetectingStream.sniffKept] at h
      cases htake : s.take b with
      | pending t =>
          obtain ⟨ht, hcount⟩ := take_pending hs htake
          rw [htake] at h
          obtain ⟨hs', hcount'⟩ := ih ht h
          refine ⟨hs', ?_⟩
          rw [hcount', hcount, List.length_cons]
          omega
      | found charset => simp [htake] at h
      | failed => simp [htake] at h

end Sniffer

/-! ## Opening a feed -/

namespace DetectingStream

variable {σ : Type} {f : Feed σ} {ending : Ending} {bytes : List UInt8} {s : σ}

/-- Reading the head takes the first bytes, fewer if there are fewer. -/
theorem readHead_took (n : Nat) (h : f.Delivers ending bytes s) :
    f.Took ending (bytes.drop n) (bytes.take n) (readHead f n s) := by
  induction n generalizing bytes s with
  | zero => exact .ok s h
  | succ n ih =>
      have htook := h.readByte_took
      rw [readHead]
      generalize f.readByte s = taken at htook ⊢
      cases htook with
      | failed message s' hending => exact .failed message s' hending
      | ok s' hrest =>
          cases bytes with
          | nil => exact .ok s' hrest
          | cons b bytes =>
              have hmore := ih hrest
              simp only [List.head?_cons, List.tail_cons] at hmore ⊢
              generalize readHead f n s' = taken at hmore ⊢
              cases hmore with
              | failed message s'' hending => exact .failed message s'' hending
              | ok s'' hleft => exact .ok s'' hleft

/-- **Sniffing on over a feed** decides what the sniffer decides on all bytes that are left, and
keeps those that it has looked at. -/
theorem sniffOn_took {sniffer : Sniffer} (hsniffer : sniffer.Early) (kept : List UInt8)
    (budget : Nat) (hbudget : sniffer.consumed + budget = streamCapacity)
    (h : f.Delivers ending bytes s) :
    ∃ head rest, bytes = head ++ rest ∧
      f.Took ending rest (sniffer.run bytes, kept ++ head) (sniffOn f sniffer kept budget s) := by
  induction budget generalizing sniffer kept bytes s with
  -- A sniffer that is undecided has room left.
  | zero =>
      have hroom := hsniffer.consumed_lt
      omega
  | succ budget ih =>
      have htook := h.readByte_took
      rw [sniffOn]
      generalize f.readByte s = taken at htook ⊢
      cases htook with
      | failed message s' hending => exact ⟨[], bytes, rfl, .failed message s' hending⟩
      | ok s' hrest =>
          cases bytes with
          | nil =>
              refine ⟨[], [], rfl, ?_⟩
              rw [List.append_nil]
              exact .ok s' hrest
          | cons b bytes =>
              simp only [List.head?_cons, List.tail_cons, Sniffer.run] at hrest ⊢
              cases htake : sniffer.take b with
              | pending sniffer' =>
                  obtain ⟨hearly, hcount⟩ := Sniffer.take_pending hsniffer htake
                  obtain ⟨head, rest, rfl, hmore⟩ :=
                    ih hearly (kept ++ [b]) (by omega) hrest
                  refine ⟨b :: head, rest, rfl, ?_⟩
                  rw [List.append_assoc] at hmore
                  exact hmore
              | found charset => exact ⟨[b], bytes, rfl, .ok s' hrest⟩
              | failed => exact ⟨[b], bytes, rfl, .ok s' hrest⟩

/-- The stream shows what detection on all bytes shows, and delivers those behind the mark. -/
structure Opened (f : Feed σ) (ending : Ending) (bytes : List UInt8) (d : DetectingStream σ) :
    Prop where
  mark : d.mark = ByteOrderMark.detect bytes
  charset : d.charset =
    sniffCharset (bytes.drop ((d.mark.map (fun m => m.bytes.length)).getD 0)) d.mark
  body : ∃ rest, bytes.drop ((d.mark.map (fun m => m.bytes.length)).getD 0) = d.pending ++ rest ∧
    f.Delivers ending rest d.inner

/-- **Opening a feed** shows what detection on all its bytes shows, unless the feed fails. -/
theorem openFeed_eq (h : f.Delivers ending bytes s) :
    (∃ d, (openFeed f s).1 = .ok d ∧ Opened f ending bytes d) ∨
      ∃ message, (openFeed f s).1 = .error message ∧ ending = .failure message := by
  have hhead := readHead_took 4 h
  rw [openFeed]
  generalize readHead f 4 s = taken at hhead ⊢
  cases hhead with
  | failed message s' hending => exact .inr ⟨message, rfl, hending⟩
  | ok s' hrest =>
      simp only [ByteOrderMark.detect_take]
      have hsize : ((ByteOrderMark.detect bytes).map (fun m => m.bytes.length)).getD 0 ≤
          (bytes.take 4).length := by
        cases hmark : ByteOrderMark.detect bytes with
        | none => exact Nat.zero_le _
        | some m =>
            rw [← ByteOrderMark.detect_take] at hmark
            exact (ByteOrderMark.bytes_prefix_of_detect hmark).length_le
      generalize hskip :
        ((ByteOrderMark.detect bytes).map (fun m => m.bytes.length)).getD 0 = skip at hsize ⊢
      -- The bytes behind the mark are the rest of the head and what the feed still delivers.
      have hbody : bytes.drop skip = (bytes.take 4).drop skip ++ bytes.drop 4 := by
        rw [← List.drop_append_of_le_length hsize, List.take_append_drop]
      generalize (bytes.take 4).drop skip = kept at hbody ⊢
      have hrun := Sniffer.run_append { mark := ByteOrderMark.detect bytes } kept (bytes.drop 4)
      rw [← hbody] at hrun
      have hstart := Sniffer.early_start (ByteOrderMark.detect bytes)
      cases hkept : sniffKept { mark := ByteOrderMark.detect bytes } kept with
      | found charset =>
          rw [hkept] at hrun
          refine .inl ⟨_, rfl, rfl, ?_, bytes.drop 4, ?_, hrest⟩
          · simp only [hskip, sniffCharset, hrun]
          · simp only [hskip, hbody]
      | failed =>
          rw [hkept] at hrun
          refine .inl ⟨_, rfl, rfl, ?_, bytes.drop 4, ?_, hrest⟩
          · simp only [hskip, sniffCharset, hrun]
          · simp only [hskip, hbody]
      | pending sniffer =>
          rw [hkept] at hrun
          obtain ⟨hearly, hcount⟩ := Sniffer.sniffKept_pending hstart hkept
          have hroom := hearly.consumed_lt
          have hbudget : sniffer.consumed + (streamCapacity - kept.length) = streamCapacity := by
            rw [hcount] at hroom ⊢
            change 0 + kept.length < streamCapacity at hroom
            change 0 + kept.length + (streamCapacity - kept.length) = streamCapacity
            omega
          obtain ⟨head, rest, hsplit, htook⟩ := sniffOn_took hearly kept _ hbudget hrest
          simp only
          generalize sniffOn f sniffer kept (streamCapacity - kept.length) s' = taken at htook ⊢
          cases htook with
          | failed message s'' hending => exact .inr ⟨message, rfl, hending⟩
          | ok s'' hleft =>
              refine .inl ⟨_, rfl, rfl, ?_, rest, ?_, hleft⟩
              · simp only [hskip, sniffCharset, hrun]
              · simp only [hskip, hbody, hsplit, List.append_assoc]

/-! ## Reading a stream -/

/-- A read delivers bytes that were examined, if there are any, or reads the feed. -/
theorem read_eq_or (f : Feed σ) (n : Nat) (d : DetectingStream σ) :
    (d.pending = [] ∧
        read f n d = ((f.read n d.inner).1, { d with inner := (f.read n d.inner).2 })) ∨
      d.pending ≠ [] ∧
        read f n d = (.bytes (d.pending.take n), { d with pending := d.pending.drop n }) := by
  rcases d with ⟨inner, pending, mark, charset⟩
  cases pending with
  | nil => exact .inl ⟨rfl, rfl⟩
  | cons b pending => exact .inr ⟨by simp, rfl⟩

/-- A stream is a feed. -/
def feed (f : Feed σ) : Feed (DetectingStream σ) where
  read := read f
  remaining d := d.pending.length + f.remaining d.inner
  length_le n d bytes d' h := by
    rcases read_eq_or f n d with ⟨-, hread⟩ | ⟨-, hread⟩
    · rw [hread] at h
      obtain ⟨hreply, rfl⟩ := Prod.mk.inj h
      exact f.length_le n d.inner bytes (f.read n d.inner).2 (Prod.ext hreply rfl)
    · rw [hread] at h
      cases h
      exact List.length_take_le n d.pending
  remaining_lt_of_bytes n d b bytes d' h := by
    rcases read_eq_or f n d with ⟨-, hread⟩ | ⟨-, hread⟩
    · rw [hread] at h
      obtain ⟨hreply, rfl⟩ := Prod.mk.inj h
      apply Nat.add_lt_add_left
      exact f.remaining_lt_of_bytes n d.inner b bytes _ (Prod.ext hreply rfl)
    · rw [hread] at h
      injection h with hreply hd
      injection hreply with htake
      subst hd
      have hlength : (d.pending.take n).length = bytes.length + 1 := by rw [htake]; rfl
      simp only [List.length_drop]
      rw [List.length_take] at hlength
      omega
  remaining_lt_of_interrupted n d d' h := by
    rcases read_eq_or f n d with ⟨-, hread⟩ | ⟨-, hread⟩
    · rw [hread] at h
      obtain ⟨hreply, rfl⟩ := Prod.mk.inj h
      apply Nat.add_lt_add_left
      exact f.remaining_lt_of_interrupted n d.inner _ (Prod.ext hreply rfl)
    · rw [hread] at h
      cases h

end DetectingStream

/-! ## Sources -/

namespace Source

variable {σ : Type} {f : Feed σ} {ending : Ending} {bytes : List UInt8} {s : σ}

/-- **A source from a feed** is the source of the bytes that the feed delivers. If the feed fails
before their end, the failure is what comes of the source. -/
theorem ofFeed_eq (name : String) (h : f.Delivers ending bytes s) :
    ofFeed name f s = ending.outcome (ofBytes name bytes) := by
  rw [ofFeed]
  rcases DetectingStream.openFeed_eq h with ⟨d, hopen, hd⟩ | ⟨message, hopen, rfl⟩
  · obtain ⟨rest, hbody, hrest⟩ := hd.body
    have hchunk : 0 < chunkSize := by decide
    have hall := hrest.readAll_eq hchunk
    have hofBytes : ofBytes name bytes =
        ofParts name d.mark d.charset (d.pending ++ rest) := by
      rw [ofBytes, ← hbody, hd.charset, hd.mark]
    rw [hofBytes]
    generalize DetectingStream.openFeed f s = opened at hopen ⊢
    rcases opened with ⟨result, s'⟩
    obtain rfl : result = .ok d := hopen
    simp only
    generalize f.readAll chunkSize d.inner = taken at hall ⊢
    rcases taken with ⟨result, s''⟩
    cases ending <;> cases hall <;> rfl
  · generalize DetectingStream.openFeed f s = opened at hopen ⊢
    rcases opened with ⟨result, s'⟩
    obtain rfl : result = .error message := hopen
    rfl

/-- A mark and a rule `@charset` that come in bursts of five bytes and with interruptions, two of
them at the end. If the feed fails inside the name of the charset there is no source. -/
theorem ofFeed_eq_interrupted :
    let bytes : List UInt8 :=
      [0xEF, 0xBB, 0xBF, 0x40, 0x63, 0x68, 0x61, 0x72, 0x73, 0x65, 0x74, 0x20, 0x22, 0x61, 0x22]
    let supply : Supply := { bytes := bytes, burst := some 5, interruptions := [0, 3, 3, 15, 15] }
    let failing : Supply := { supply with failure := some (13, "reset") }
    Supply.feed.Delivers .complete bytes supply ∧
      Supply.feed.Delivers (.failure "reset") bytes failing ∧
      ofFeed "a.css" Supply.feed supply = .ok (ofBytes "a.css" bytes) ∧
      (ofBytes "a.css" bytes).charset = some "a" ∧
      ofFeed "a.css" Supply.feed failing = .error "reset" := by
  intro bytes supply failing
  have hsupply : Supply.feed.Delivers .complete bytes supply := supply.delivers (by decide)
  have hfailing : Supply.feed.Delivers (.failure "reset") bytes failing :=
    failing.delivers (by decide)
  exact ⟨hsupply, hfailing, ofFeed_eq "a.css" hsupply, by decide, ofFeed_eq "a.css" hfailing⟩

end Source

end EpubStyle.Bytes
