import EpubStyle.Bytes.Source
import EpubStyle.Proofs.Bytes.Encoders

/-!
# Sources with a byte order mark

A text that is encoded behind a byte order mark comes back from the source of these bytes: the mark
is found, its encoding is taken whatever rule `@charset` the text starts with, and the text is
decoded as it was (`Source.ofBytes_encode_iff`).

Marks overlap. The mark of UTF-16 with the least significant byte first starts that of UTF-32, and
the text behind it may complete the longer one: with two zero bytes, which are the character U+0000
(`encode16_startsZero_iff`). Only such a text is lost.
-/

set_option autoImplicit false

namespace EpubStyle.Bytes

/-- Two zero bytes at the start of UTF-16 are the character U+0000. -/
theorem encode16_startsZero_iff (cs : List Char) :
    [0, 0].isPrefixOf (encode16 .littleEndian cs) = true ↔ cs.head? = some (Char.ofNat 0) := by
  cases cs with
  | nil => simp [encode16]
  | cons c cs =>
      have hchar : c = Char.ofNat 0 ↔ c.toNat = 0 := by
        constructor
        · rintro rfl
          rfl
        · intro h
          rw [← Char.ofNat_toNat c, h]
      -- The first unit is zero only if the code is, since no surrogate is zero.
      have hunits : ∃ u us, unitsOfChar c = u :: us ∧ u < 0x10000 ∧ (u = 0 ↔ c.toNat = 0) := by
        have hbounds := toNat_bounds c
        unfold unitsOfChar
        split
        · exact ⟨_, _, rfl, by omega, Iff.rfl⟩
        · exact ⟨_, _, rfl, by omega, by omega⟩
      obtain ⟨u, us, hu, hsmall, hzero⟩ := hunits
      have hbytes : encode16 .littleEndian (c :: cs) =
          UInt8.ofNat u :: UInt8.ofNat (u / 256) ::
            (us ++ cs.flatMap unitsOfChar).flatMap (ByteOrder.littleEndian.bytes 2) := by
        simp [encode16, hu, ByteOrder.bytes, littleBytes]
      have hpair : 0 = UInt8.ofNat u ∧ 0 = UInt8.ofNat (u / 256) ↔ u = 0 := by
        simp only [← UInt8.toNat_inj, UInt8.toNat_ofNat', UInt8.toNat_zero]
        omega
      rw [hbytes, List.head?_cons, Option.some_inj, hchar, ← hzero, ← hpair]
      simp only [List.isPrefixOf, Bool.and_true, Bool.and_eq_true, beq_iff_eq]

namespace ByteOrderMark

/-- The mark of UTF-16 with the least significant byte first is found unless zeros follow. -/
theorem detect_utf16le (bytes : List UInt8) :
    detect (utf16le.bytes ++ bytes) =
      if [0, 0].isPrefixOf bytes then some utf32le else some utf16le := by
  simp only [detect, order, ByteOrderMark.bytes, List.find?_cons, List.cons_append,
    List.nil_append, List.isPrefixOf, BEq.rfl, Bool.true_and]
  cases [0, 0].isPrefixOf bytes <;> rfl

/-- Every other mark is found whatever follows. -/
theorem detect_of_ne_utf16le {m : ByteOrderMark} (h : m ≠ utf16le) (bytes : List UInt8) :
    detect (m.bytes ++ bytes) = some m := by
  cases m with
  | utf16le => exact absurd rfl h
  | utf8 | utf16be | utf32be | utf32le =>
      simp [detect, order, ByteOrderMark.bytes, List.isPrefixOf]

/-- **The mark before a text is found**, unless the text completes a longer one. -/
theorem detect_encode_iff (m : ByteOrderMark) (text : String) :
    detect (m.bytes ++ m.encode text) = some m ↔
      ¬ (m = utf16le ∧ text.toList.head? = some (Char.ofNat 0)) := by
  by_cases hm : m = utf16le
  · subst hm
    rw [detect_utf16le, ← encode16_startsZero_iff, encode]
    cases [0, 0].isPrefixOf (encode16 .littleEndian text.toList) <;> simp
  · simp [detect_of_ne_utf16le hm, hm]

end ByteOrderMark

/-- **A text behind a byte order mark comes back as it was.** The mark is found, the encoding is
that of the mark, whatever charset the text declares, and the text is decoded without loss. The only
exception is a text in UTF-16 with the least significant byte first that starts with U+0000. -/
theorem Source.ofBytes_encode_iff (name : String) (m : ByteOrderMark) (text : String) :
    let source := ofBytes name (m.bytes ++ m.encode text)
    (source.mark = some m ∧ source.encoding = m.encoding ∧ source.text = text) ↔
      ¬ (m = .utf16le ∧ text.toList.head? = some (Char.ofNat 0)) := by
  rw [← m.detect_encode_iff text]
  refine ⟨fun h => h.1, fun hmark => ?_⟩
  have hbody : (m.bytes ++ m.encode text).drop m.bytes.length = m.encode text :=
    List.drop_left
  -- With a mark the charset plays no part in the choice of the encoding.
  have hsource : ofBytes name (m.bytes ++ m.encode text) =
      ⟨name, some m, sniffCharset (m.encode text) (some m), m.encoding, m.encode text⟩ := by
    simp [ofBytes, ofParts, hmark, hbody, resolveEncoding]
  rw [hsource]
  exact ⟨rfl, rfl, m.decode_encode text⟩

/-- A style sheet that declares another charset than that of its mark. -/
example : (Source.ofBytes "a.css" (ByteOrderMark.bytes .utf16be ++
    ByteOrderMark.encode .utf16be "@charset \"l1\";é")).charset = some "l1" := by
  decide +kernel

end EpubStyle.Bytes
