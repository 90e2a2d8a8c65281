import Mathlib.Algebra.Group.Nat.Defs
import EpubStyle.Bytes.Encoding

/-!
# Encoding a text

Each of the five Unicode encodings writes a text character by character: as one to four bytes
(`Utf8.encode`), as one or two units of two bytes (`encode16`), as one unit of four bytes
(`encode32`). Decoding is a left inverse of each (`ByteOrderMark.decode_encode`), so nothing that is
written becomes U+FFFD.

UTF-8 is decoded by a machine that reads one byte at a time. Its state behind the first byte of a
character restricts the second one, and these restrictions hold of what is written
(`Utf8.first_lead_three`, `Utf8.first_lead_four`). Every later byte adds six bits to the character
(`Utf8.next_continuation`). A byte of ASCII among the bytes of a text is a character of it, so that
a text is cut where its bytes are (`Utf8.exists_of_encode`).
-/

set_option autoImplicit false

namespace EpubStyle.Bytes

/-- An element of two lists stands in the second or in the first. -/
theorem split_append {α : Type} {xs ys x y : List α} {b : α} (h : xs ++ ys = x ++ b :: y) :
    (∃ c, x = xs ++ c ∧ ys = c ++ b :: y) ∨ ∃ c, xs = x ++ b :: c := by
  rcases List.append_eq_append_iff.1 h with ⟨c, hx, hys⟩ | ⟨c, hxs, hy⟩
  · exact .inl ⟨c, hx, hys⟩
  · cases c with
    | nil => exact .inl ⟨[], by simpa using hxs.symm, by simpa using hy.symm⟩
    | cons d c =>
        obtain rfl : b = d := (List.cons.inj hy).1
        exact .inr ⟨c, hxs⟩

/-! ## Units -/

/-- The bytes of a unit, the least significant one first. -/
def littleBytes : Nat → Nat → List UInt8
  | 0, _ => []
  | width + 1, n => UInt8.ofNat n :: littleBytes width (n / 256)

/-- The bytes of a unit with `width` bytes. -/
def ByteOrder.bytes (order : ByteOrder) (width n : Nat) : List UInt8 :=
  match order with
  | bigEndian => (littleBytes width n).reverse
  | littleEndian => littleBytes width n

/-- **A unit is read as it was written**, if it fits into its bytes. -/
theorem ByteOrder.value_bytes (order : ByteOrder) {width n : Nat} (h : n < 256 ^ width) :
    order.value (order.bytes width n) = n := by
  have hsum : ∀ width n, n < 256 ^ width →
      (littleBytes width n).reverse.foldl (fun n b => 256 * n + b.toNat) 0 = n := by
    intro width
    induction width with
    | zero =>
        intro n hn
        simp only [Nat.pow_zero, Nat.lt_one_iff] at hn
        simp [littleBytes, hn]
    | succ width ih =>
        intro n hn
        have hrest : n / 256 < 256 ^ width := by
          rw [Nat.pow_succ] at hn
          exact Nat.div_lt_of_lt_mul (by rwa [Nat.mul_comm] at hn)
        simp only [littleBytes, List.reverse_cons, List.foldl_append, ih _ hrest, List.foldl_cons,
          List.foldl_nil, UInt8.toNat_ofNat']
        omega
  cases order with
  | bigEndian => exact hsum width n h
  | littleEndian => exact hsum width n h

/-- The code of a character is below U+110000 and not that of a surrogate. -/
theorem toNat_bounds (c : Char) :
    c.toNat < 0xD800 ∨ 0xDFFF < c.toNat ∧ c.toNat < 0x110000 := c.valid

theorem charOfUnit_toNat (c : Char) : charOfUnit c.toNat = some c := by
  have hvalid : c.toNat.isValidChar := toNat_bounds c
  simp [charOfUnit, hvalid, Char.ofNat_toNat]

/-! ## UTF-32 -/

/-- The bytes of characters in UTF-32. -/
def encode32 (order : ByteOrder) (cs : List Char) : List UInt8 :=
  cs.flatMap (fun c => order.bytes 4 c.toNat)

theorem exists_bytes_four (order : ByteOrder) (n : Nat) :
    ∃ a b c d, order.bytes 4 n = [a, b, c, d] := by
  cases order <;> exact ⟨_, _, _, _, rfl⟩

theorem units32_encode32 (order : ByteOrder) (cs : List Char) :
    units32 order (encode32 order cs) = cs.map (fun c => some c.toNat) := by
  induction cs with
  | nil => rfl
  | cons c cs ih =>
      have hvalue : order.value (order.bytes 4 c.toNat) = c.toNat :=
        order.value_bytes (by rcases toNat_bounds c with h | h <;> omega)
      obtain ⟨w, x, y, z, hbytes⟩ := exists_bytes_four order c.toNat
      rw [hbytes] at hvalue
      rw [encode32, List.flatMap_cons, hbytes]
      simp only [List.cons_append, List.nil_append, units32, hvalue, List.map_cons]
      exact congrArg _ ih

/-! ## UTF-16 -/

/-- The units of a character in UTF-16: its code, or a pair of surrogates. -/
def unitsOfChar (c : Char) : List Nat :=
  if c.toNat < 0x10000 then [c.toNat]
  else [0xD800 + (c.toNat - 0x10000) / 0x400, 0xDC00 + (c.toNat - 0x10000) % 0x400]

/-- The bytes of characters in UTF-16. -/
def encode16 (order : ByteOrder) (cs : List Char) : List UInt8 :=
  (cs.flatMap unitsOfChar).flatMap (order.bytes 2)

theorem exists_bytes_two (order : ByteOrder) (n : Nat) : ∃ a b, order.bytes 2 n = [a, b] := by
  cases order <;> exact ⟨_, _, rfl⟩

theorem unitsOfChar_lt {c : Char} {u : Nat} (h : u ∈ unitsOfChar c) : u < 0x10000 := by
  have hbounds := toNat_bounds c
  unfold unitsOfChar at h
  split at h <;> simp only [List.mem_cons, List.not_mem_nil, or_false] at h <;> omega

theorem units16_flatMap (order : ByteOrder) {us : List Nat} (h : ∀ u ∈ us, u < 0x10000) :
    units16 order (us.flatMap (order.bytes 2)) = us.map some := by
  induction us with
  | nil => rfl
  | cons u us ih =>
      have hvalue : order.value (order.bytes 2 u) = u :=
        order.value_bytes (h u (List.mem_cons_self ..))
      obtain ⟨a, b, hbytes⟩ := exists_bytes_two order u
      rw [hbytes] at hvalue
      rw [List.flatMap_cons, hbytes]
      simp only [List.cons_append, List.nil_append, units16, hvalue, List.map_cons]
      exact congrArg _ (ih (fun v hv => h v (List.mem_cons_of_mem _ hv)))

/-- **The units of a character are read as this character**, whatever stands behind them. -/
theorem decodeUnits16_unitsOfChar (c : Char) (units : List (Option Nat)) :
    decodeUnits16 ((unitsOfChar c).map some ++ units) = some c :: decodeUnits16 units := by
  have hbounds := toNat_bounds c
  unfold unitsOfChar
  split
  · next hplane =>
      have hsingle : isHighSurrogate c.toNat = false := by
        simp only [isHighSurrogate, Bool.and_eq_false_iff, decide_eq_false_iff_not]
        omega
      -- Two units are looked at together, so what stands behind the first one is split as well.
      rcases units with - | ⟨- | v, units⟩ <;>
        simp [decodeUnits16, hsingle, charOfUnit_toNat]
  · next hplane =>
      generalize hv : c.toNat - 0x10000 = v
      have hhigh : isHighSurrogate (0xD800 + v / 0x400) = true := by
        simp only [isHighSurrogate, Bool.and_eq_true, decide_eq_true_eq]
        omega
      have hlow : isLowSurrogate (0xDC00 + v % 0x400) = true := by
        simp only [isLowSurrogate, Bool.and_eq_true, decide_eq_true_eq]
        omega
      have hcode : 0x10000 + 0x400 * (0xD800 + v / 0x400 - 0xD800) +
          (0xDC00 + v % 0x400 - 0xDC00) = c.toNat := by omega
      simp only [List.map_cons, List.map_nil, List.cons_append, List.nil_append, decodeUnits16,
        hhigh, hlow, Bool.and_self, if_true, hcode, Char.ofNat_toNat]

theorem decodeUnits16_units16_encode16 (order : ByteOrder) (cs : List Char) :
    decodeUnits16 (units16 order (encode16 order cs)) = cs.map some := by
  have hsmall : ∀ u ∈ cs.flatMap unitsOfChar, u < 0x10000 := by
    intro u hu
    obtain ⟨c, -, hc⟩ := List.mem_flatMap.1 hu
    exact unitsOfChar_lt hc
  rw [encode16, units16_flatMap order hsmall]
  clear hsmall
  induction cs with
  | nil => simp [decodeUnits16]
  | cons c cs ih =>
      rw [List.flatMap_cons, List.map_append, decodeUnits16_unitsOfChar, ih, List.map_cons]

/-! ## UTF-8 -/

namespace Utf8

/-- A byte with the top bits `10` adds six bits to the value of a tail. -/
theorem next_continuation {t : Tail} {n : Nat} (hvalue : t.value = n / 64)
    (hlow : t.low ≤ 0x80 + n % 64) (hhigh : 0x80 + n % 64 ≤ t.high) :
    t.next (UInt8.ofNat (n % 64 + 0x80)) =
      if t.owed ≤ 1 then .char (Char.ofNat n) else .tail ⟨n, t.owed - 1, 0x80, 0xBF⟩ := by
  have hbyte : (UInt8.ofNat (n % 64 + 0x80)).toNat = n % 64 + 0x80 := by
    rw [UInt8.toNat_ofNat']
    omega
  have hrange : (decide (t.low ≤ n % 64 + 0x80) && decide (n % 64 + 0x80 ≤ t.high)) = true := by
    simp only [Bool.and_eq_true, decide_eq_true_eq]
    omega
  have hsum : 64 * t.value + (n % 64 + 0x80 - 0x80) = n := by
    rw [hvalue]
    omega
  simp only [Tail.next, hbyte, hrange, hsum, if_true]

/-- The first of two bytes. -/
theorem first_lead_two {n : Nat} (hlow : 0x80 ≤ n) (hhigh : n < 0x800) :
    first (UInt8.ofNat (n / 64 % 0x20 + 0xC0)) = .tail ⟨n / 64, 1, 0x80, 0xBF⟩ := by
  have hbyte : (UInt8.ofNat (n / 64 % 0x20 + 0xC0)).toNat = n / 64 + 0xC0 := by
    rw [UInt8.toNat_ofNat']
    omega
  have hlead : ¬ n / 64 + 0xC0 < 0xC2 := by omega
  have hrange : n / 64 + 0xC0 < 0xE0 := by omega
  simp only [first, hbyte, show ¬ n / 64 + 0xC0 < 0x80 by omega, hlead, hrange, if_false, if_true,
    Nat.add_sub_cancel]

/-- The first of three bytes restricts the second one to those that come behind it. -/
theorem first_lead_three {n : Nat} (hlow : 0x800 ≤ n) (hhigh : n < 0x10000)
    (hscalar : n < 0xD800 ∨ 0xDFFF < n) :
    ∃ low high, first (UInt8.ofNat (n / 4096 % 0x10 + 0xE0)) = .tail ⟨n / 4096, 2, low, high⟩ ∧
      low ≤ 0x80 + n / 64 % 64 ∧ 0x80 + n / 64 % 64 ≤ high := by
  have hbyte : (UInt8.ofNat (n / 4096 % 0x10 + 0xE0)).toNat = n / 4096 + 0xE0 := by
    rw [UInt8.toNat_ofNat']
    omega
  simp only [first, hbyte, show ¬ n / 4096 + 0xE0 < 0x80 by omega,
    show ¬ n / 4096 + 0xE0 < 0xC2 by omega, show ¬ n / 4096 + 0xE0 < 0xE0 by omega, if_false,
    beq_iff_eq]
  -- Overlong forms start with 0 and surrogates with 13; these restrict the second byte.
  by_cases hleast : n / 4096 = 0
  · exact ⟨0xA0, 0xBF, by simp [hleast], by omega, by omega⟩
  · by_cases hsurrogate : n / 4096 = 13
    · exact ⟨0x80, 0x9F, by simp [hsurrogate], by omega, by omega⟩
    · refine ⟨0x80, 0xBF, ?_, by omega, by omega⟩
      rw [if_neg (by omega), if_neg (by omega), if_pos (by omega), Nat.add_sub_cancel]

/-- So does the first of four bytes. -/
theorem first_lead_four {n : Nat} (hlow : 0x10000 ≤ n) (hhigh : n < 0x110000) :
    ∃ low high, first (UInt8.ofNat (n / 262144 % 0x08 + 0xF0)) =
        .tail ⟨n / 262144, 3, low, high⟩ ∧
      low ≤ 0x80 + n / 4096 % 64 ∧ 0x80 + n / 4096 % 64 ≤ high := by
  have hbyte : (UInt8.ofNat (n / 262144 % 0x08 + 0xF0)).toNat = n / 262144 + 0xF0 := by
    rw [UInt8.toNat_ofNat']
    omega
  simp only [first, hbyte, show ¬ n / 262144 + 0xF0 < 0x80 by omega,
    show ¬ n / 262144 + 0xF0 < 0xC2 by omega, show ¬ n / 262144 + 0xF0 < 0xE0 by omega,
    show ¬ n / 262144 + 0xF0 = 0xE0 by omega, show ¬ n / 262144 + 0xF0 = 0xED by omega,
    show ¬ n / 262144 + 0xF0 < 0xF0 by omega, if_false, beq_iff_eq]
  -- Overlong forms start with 0, and behind 4 come characters beyond the last one.
  by_cases hleast : n / 262144 = 0
  · exact ⟨0x90, 0xBF, by simp [hleast], by omega, by omega⟩
  · by_cases hgreatest : n / 262144 = 4
    · exact ⟨0x80, 0x8F, by simp [hgreatest], by omega, by omega⟩
    · refine ⟨0x80, 0xBF, ?_, by omega, by omega⟩
      rw [if_neg (by omega), if_pos (by omega), Nat.add_sub_cancel]

/-- A byte that is a whole character. -/
theorem first_single {n : Nat} (h : n < 0x80) : first (UInt8.ofNat n) = .char (Char.ofNat n) := by
  have hbyte : (UInt8.ofNat n).toNat = n := by
    rw [UInt8.toNat_ofNat']
    omega
  simp only [first, hbyte, h, if_true]

/-- **The bytes of a character are read as this character**, whatever stands behind them. -/
theorem decodeFrom_utf8EncodeChar (c : Char) (bytes : List UInt8) :
    decodeFrom none (String.utf8EncodeChar c ++ bytes) = some c :: decodeFrom none bytes := by
  have hbounds := toNat_bounds c
  have hchar := Char.ofNat_toNat c
  simp only [String.utf8EncodeChar, show c.val.toNat = c.toNat from rfl]
  generalize c.toNat = n at hbounds hchar ⊢
  by_cases hone : n ≤ 0x7F
  · rw [if_pos hone, List.cons_append, List.nil_append, decodeFrom, first_single (by omega), hchar]
  rw [if_neg hone]
  -- The last byte completes the character; each byte before it leaves the tail of the next.
  have hlast : ∀ value low high, value = n / 64 → low ≤ 0x80 + n % 64 → 0x80 + n % 64 ≤ high →
      decodeFrom (some ⟨value, 1, low, high⟩) (UInt8.ofNat (n % 64 + 0x80) :: bytes) =
        some c :: decodeFrom none bytes := by
    intro value low high hvalue hlow hhigh
    rw [decodeFrom, next_continuation hvalue hlow hhigh, if_pos (Nat.le_refl 1), hchar]
  by_cases htwo : n ≤ 0x7FF
  · rw [if_pos htwo]
    simp only [List.cons_append, List.nil_append]
    rw [decodeFrom, first_lead_two (by omega) (by omega)]
    exact hlast _ _ _ rfl (by omega) (by omega)
  rw [if_neg htwo]
  have hlastTwo : ∀ value low high, value = n / 4096 → low ≤ 0x80 + n / 64 % 64 →
      0x80 + n / 64 % 64 ≤ high →
      decodeFrom (some ⟨value, 2, low, high⟩)
          (UInt8.ofNat (n / 64 % 64 + 0x80) :: UInt8.ofNat (n % 64 + 0x80) :: bytes) =
        some c :: decodeFrom none bytes := by
    intro value low high hvalue hlow hhigh
    have hquotient : value = n / 64 / 64 := by omega
    rw [decodeFrom, next_continuation hquotient hlow hhigh, if_neg (by simp)]
    exact hlast _ _ _ rfl (by omega) (by omega)
  by_cases hthree : n ≤ 0xFFFF
  · rw [if_pos hthree]
    simp only [List.cons_append, List.nil_append]
    obtain ⟨low, high, hfirst, hlow, hhigh⟩ :=
      first_lead_three (n := n) (by omega) (by omega) (by omega)
    rw [decodeFrom, hfirst]
    exact hlastTwo _ _ _ rfl hlow hhigh
  · rw [if_neg hthree]
    simp only [List.cons_append, List.nil_append]
    obtain ⟨low, high, hfirst, hlow, hhigh⟩ := first_lead_four (n := n) (by omega) (by omega)
    have hquotient : n / 262144 = n / 4096 / 64 := by omega
    rw [decodeFrom, hfirst]
    simp only
    rw [decodeFrom, next_continuation hquotient hlow hhigh, if_neg (by simp)]
    exact hlastTwo _ _ _ rfl (by omega) (by omega)

theorem toList_loop (bs : ByteArray) (i : Nat) (r : List UInt8) :
    ByteArray.toList.loop bs i r = r.reverse ++ bs.data.toList.drop i := by
  fun_induction ByteArray.toList.loop bs i r with
  | case1 i r hlt ih =>
      have hlength : i < bs.data.toList.length := by simpa using hlt
      have hsize : i < bs.data.size := hlt
      have hget : bs.get! i = bs.data[i] := by
        rcases bs with ⟨data⟩
        exact getElem!_pos data i hsize
      rw [ih, List.drop_eq_getElem_cons hlength, hget]
      simp
  | case2 i r hge =>
      rw [List.drop_eq_nil_of_le (by simpa using Nat.le_of_not_lt hge)]
      simp

theorem toList_eq (bs : ByteArray) : bs.toList = bs.data.toList := by
  rw [ByteArray.toList, toList_loop]
  simp

/-- The bytes of a text are those of its characters. -/
theorem encode_eq (text : String) : encode text = text.toList.flatMap String.utf8EncodeChar := by
  rw [encode, toList_eq]
  conv => lhs; rw [← String.ofList_toList (s := text)]
  exact List.toList_data_toByteArray

/-- A text has as many bytes as its size says. -/
theorem length_encode (text : String) : (encode text).length = text.utf8ByteSize := by
  rw [encode, toList_eq]
  rfl

theorem encode_append (a b : String) : encode (a ++ b) = encode a ++ encode b := by
  simp only [encode_eq, String.toList_append, List.flatMap_append]

/-- A character of ASCII is a byte of its own. The bytes of any other one have the top bit, and
leave out the greatest ones. -/
theorem encodeChar_cases (c : Char) :
    (c.toNat < 0x80 ∧ String.utf8EncodeChar c = [UInt8.ofNat c.toNat]) ∨
      ∀ b ∈ String.utf8EncodeChar c, 0x80 ≤ b.toNat ∧ b.toNat < 0xF8 := by
  have hbounds := toNat_bounds c
  have hbyte : ∀ n, 0x80 ≤ n → n < 0xF8 →
      0x80 ≤ (UInt8.ofNat n).toNat ∧ (UInt8.ofNat n).toNat < 0xF8 := by
    intro n hlow hhigh
    rw [UInt8.toNat_ofNat']
    omega
  simp only [String.utf8EncodeChar, show c.val.toNat = c.toNat from rfl]
  by_cases hone : c.toNat ≤ 0x7F
  · exact .inl ⟨by omega, if_pos hone⟩
  right
  intro b hb
  rw [if_neg hone] at hb
  -- One case for each number of bytes, and in it one for each byte.
  by_cases htwo : c.toNat ≤ 0x7FF
  · rw [if_pos htwo] at hb
    simp only [List.mem_cons, List.not_mem_nil, or_false] at hb
    rcases hb with rfl | rfl <;> exact hbyte _ (by omega) (by omega)
  rw [if_neg htwo] at hb
  by_cases hthree : c.toNat ≤ 0xFFFF
  · rw [if_pos hthree] at hb
    simp only [List.mem_cons, List.not_mem_nil, or_false] at hb
    rcases hb with rfl | rfl | rfl <;> exact hbyte _ (by omega) (by omega)
  · rw [if_neg hthree] at hb
    simp only [List.mem_cons, List.not_mem_nil, or_false] at hb
    rcases hb with rfl | rfl | rfl | rfl <;> exact hbyte _ (by omega) (by omega)

theorem decode_encode (text : String) : decode (encode text) = text.toList.map some := by
  rw [encode_eq, decode]
  induction text.toList with
  | nil => rfl
  | cons c cs ih => rw [List.flatMap_cons, decodeFrom_utf8EncodeChar, ih, List.map_cons]

theorem exists_char_of_flatMap {cs : List Char} {x y : List UInt8} {b : UInt8}
    (hb : b.toNat < 0x80) (h : cs.flatMap String.utf8EncodeChar = x ++ b :: y) :
    ∃ ds c es, cs = ds ++ c :: es ∧ ds.flatMap String.utf8EncodeChar = x ∧
      String.utf8EncodeChar c = [b] ∧ es.flatMap String.utf8EncodeChar = y := by
  induction cs generalizing x with
  | nil => simp at h
  | cons c cs ih =>
      rw [List.flatMap_cons] at h
      rcases split_append h with ⟨x, rfl, hx⟩ | ⟨more, hc⟩
      · obtain ⟨ds, d, es, rfl, rfl, hd, rfl⟩ := ih hx
        exact ⟨c :: ds, d, es, rfl, rfl, hd, rfl⟩
      · rcases encodeChar_cases c with ⟨-, hbyte⟩ | hbytes
        · rw [hbyte] at hc
          cases x with
          | nil =>
              obtain ⟨rfl, rfl⟩ := List.cons.inj hc
              rw [hbyte] at h
              exact ⟨[], c, cs, rfl, rfl, hbyte, (List.cons.inj h).2⟩
          | cons d x => simp at hc
        · have hhigh := (hbytes b (by simp [hc])).1
          omega

/-- **A byte of ASCII in the bytes of a text is a character of it.** -/
theorem exists_of_encode {text : String} {x y : List UInt8} {b : UInt8} (hb : b.toNat < 0x80)
    (h : encode text = x ++ b :: y) :
    ∃ before c after : String, text = before ++ c ++ after ∧
      encode before = x ∧ encode c = [b] ∧ encode after = y := by
  rw [encode_eq] at h
  obtain ⟨ds, c, es, hcs, hds, hc, hes⟩ := exists_char_of_flatMap hb h
  refine ⟨String.ofList ds, String.ofList [c], String.ofList es, ?_, ?_, ?_, ?_⟩
  · rw [← String.toList_inj, hcs]
    simp
  · rw [encode_eq, String.toList_ofList, hds]
  · rw [encode_eq, String.toList_ofList, List.flatMap_singleton, hc]
  · rw [encode_eq, String.toList_ofList, hes]

theorem encode_injective {a b : String} (h : encode a = encode b) : a = b := by
  have hdecoded := congrArg decode h
  rw [decode_encode, decode_encode] at hdecoded
  exact String.toList_inj.1 ((List.map_inj_right fun _ _ => Option.some.inj).1 hdecoded)

end Utf8

/-! ## The encoding that a mark names -/

/-- The bytes of a text in the encoding that a mark names. -/
def ByteOrderMark.encode (m : ByteOrderMark) (text : String) : List UInt8 :=
  match m with
  | utf8 => Utf8.encode text
  | utf16be => encode16 .bigEndian text.toList
  | utf16le => encode16 .littleEndian text.toList
  | utf32be => encode32 .bigEndian text.toList
  | utf32le => encode32 .littleEndian text.toList

/-- Every character that was written is read, and nothing else. -/
theorem ByteOrderMark.characters_encode (m : ByteOrderMark) (text : String) :
    m.encoding.characters (m.encode text) = text.toList.map some := by
  cases m with
  | utf8 => exact Utf8.decode_encode text
  | utf16be | utf16le => exact decodeUnits16_units16_encode16 _ text.toList
  | utf32be | utf32le =>
      have hunits : ∀ c : Char, (some c.toNat).bind charOfUnit = some c := charOfUnit_toNat
      simp only [ByteOrderMark.encoding, Encoding.characters, encode, units32_encode32,
        List.map_map]
      exact List.map_congr_left (fun c _ => hunits c)

/-- **Decoding gives the text that was encoded**, in each of the five Unicode encodings. -/
theorem ByteOrderMark.decode_encode (m : ByteOrderMark) (text : String) :
    m.encoding.decode (m.encode text) = text := by
  rw [Encoding.decode, m.characters_encode, List.map_map]
  exact (congrArg String.ofList (List.map_id text.toList)).trans String.ofList_toList

/-- A character outside the first plane is a pair of surrogates. -/
example : encode16 .bigEndian ['a', '😀'] = [0x00, 0x61, 0xD8, 0x3D, 0xDE, 0x00] := by decide

end EpubStyle.Bytes
