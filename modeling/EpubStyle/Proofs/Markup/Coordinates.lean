import Mathlib.Data.List.Induction
import EpubStyle.Markup.EmbeddedStyle
import EpubStyle.Profile.Check
import EpubStyle.Proofs.Bytes.Encoders
import EpubStyle.Proofs.Text.Positions

/-!
# Coordinates of embedded styles

A character of a style in a document has coordinates in both. Those in the document are counted on
its bytes, backwards from the character to the line feed before it (`Markup.lineColumn`). Those in
the style come from a reader, which goes forwards over characters and counts line breaks of three
kinds (`Text.Place.step`). Moving the latter to the origin of the style gives the former
(`Origin.place_advance`), wherever the style stands and whatever its lines are made of.

The condition is that the style has the line breaks of markup: no form feed, and no carriage return
without a line feed behind it (`Text.LineFed`). `Place.Behind` says what a reader knows behind a
text of this kind, in terms of its line feeds and of its last line; it follows from what a reader
counts in any text (`Place.Counts.behind`).
-/

set_option autoImplicit false

namespace EpubStyle

namespace Text

/-! ## Lines -/

/-- The characters behind the last line feed. -/
def lastLine (cs : List Char) : List Char := (cs.reverse.takeWhile (· != '\n')).reverse

/-- One more character ends the last line or belongs to it. -/
theorem lastLine_concat (cs : List Char) (c : Char) :
    lastLine (cs ++ [c]) = if c = '\n' then [] else lastLine cs ++ [c] := by
  by_cases hc : c = '\n' <;> simp [lastLine, hc]

/-- The last line of two texts is that of the second, or goes back into the first. -/
theorem lastLine_append (cs ds : List Char) :
    lastLine (cs ++ ds) = if '\n' ∈ ds then lastLine ds else lastLine cs ++ ds := by
  induction ds using List.reverseRecOn with
  | nil => simp
  | append_singleton ds d ih =>
      rw [← List.append_assoc, lastLine_concat, lastLine_concat, ih]
      by_cases hd : d = '\n' <;> by_cases hds : '\n' ∈ ds <;> simp [hd, hds, eq_comm]

/-- Lines end as in markup: every carriage return has a line feed behind it, and there is no form
feed. -/
structure LineFed (cs : List Char) : Prop where
  noFormFeed : '\x0c' ∉ cs
  paired : ∀ i, cs[i]? = some '\r' → cs[i + 1]? = some '\n'

/-! ## Readers -/

/-- What a reader knows behind the text `cs`. Behind a carriage return it has counted the line break
whose line feed is still to come. -/
structure Place.Behind (p : Place) (cs : List Char) : Prop where
  current : p.current = cs.getLast?
  offset : p.offset = cs.length
  line : p.line = cs.count '\n' + (if cs.getLast? = some '\r' then 2 else 1)
  /-- The column is to be set back at the next character. -/
  broken : cs.getLast? = some '\n' ∨ cs.getLast? = some '\r' → p.brokenLine < p.line
  /-- The column is that of the last character, or of the first one if there is none yet. -/
  unbroken : cs.getLast? ≠ some '\n' → cs.getLast? ≠ some '\r' →
    p.brokenLine = p.line ∧ p.column = max 1 (lastLine cs).length

namespace LineFed

variable {cs ds : List Char} {c : Char}

/-- Behind a carriage return stands a line feed. -/
theorem pair (h : LineFed (cs ++ c :: ds)) (hlast : cs.getLast? = some '\r') : c = '\n' := by
  obtain ⟨before, rfl⟩ := List.getLast?_eq_some_iff.1 hlast
  simpa using h.paired before.length (by simp)

theorem ne_formFeed (h : LineFed (cs ++ c :: ds)) : c ≠ '\x0c' := by
  rintro rfl
  exact h.noFormFeed (by simp)

/-- The line breaks of such a text are its line feeds, and a carriage return at the end of what has
been read of it. -/
theorem lineBreaks_eq (h : LineFed (cs ++ ds)) :
    lineBreaks cs = cs.count '\n' + if cs.getLast? = some '\r' then 1 else 0 := by
  induction cs using List.reverseRecOn generalizing ds with
  | nil => rfl
  | append_singleton cs c ih =>
      rw [List.append_assoc] at h
      rw [lineBreaks_concat, ih h]
      by_cases hlast : cs.getLast? = some '\r'
      · simp [h.pair hlast, hlast, completesBreak]
      · by_cases hfeed : c = '\n'
        · simp [hfeed, hlast, completesBreak, isLineBreak]
        · by_cases hreturn : c = '\r'
          · simp [hreturn, hlast, completesBreak, isLineBreak]
          · simp [hfeed, hreturn, hlast, isLineBreak, h.ne_formFeed]

/-- The characters behind the last line break are those behind the last line feed. -/
theorem currentLine_eq (h : LineFed (cs ++ ds)) (hlast : cs.getLast? ≠ some '\r') :
    currentLine cs = lastLine cs := by
  induction cs using List.reverseRecOn generalizing ds with
  | nil => rfl
  | append_singleton cs c ih =>
      rw [List.append_assoc] at h
      rw [currentLine_concat, lastLine_concat]
      by_cases hfeed : c = '\n'
      · simp [hfeed, isLineBreak]
      · have hreturn : c ≠ '\r' := by simpa using hlast
        have hbefore : cs.getLast? ≠ some '\r' := fun hbefore => hfeed (h.pair hbefore)
        rw [ih h hbefore]
        simp [hfeed, hreturn, h.ne_formFeed, isLineBreak]

end LineFed

/-- **What has been read of a text with such lines is counted.** -/
theorem Place.Counts.behind {p : Place} {cs ds : List Char} (h : p.Counts cs)
    (hlines : LineFed (cs ++ ds)) : p.Behind cs where
  current := h.current
  offset := h.offset
  line := by
    rw [h.line, hlines.lineBreaks_eq]
    split <;> rfl
  broken := by
    rintro (hlast | hlast)
    · exact h.broken '\n' hlast rfl
    · exact h.broken '\r' hlast rfl
  unbroken := by
    intro hfeed hreturn
    rw [← hlines.currentLine_eq hreturn]
    apply h.unbroken
    rintro c hc
    have hform : c ≠ '\x0c' := by
      rintro rfl
      exact hlines.noFormFeed (List.mem_append_left _ (List.mem_of_getLast? hc))
    have hother : c ≠ '\n' ∧ c ≠ '\r' :=
      ⟨fun heq => hfeed (heq ▸ hc), fun heq => hreturn (heq ▸ hc)⟩
    simp [isLineBreak, hform, hother]

end Text

/-! ## Documents -/

namespace Bytes.Utf8

open Markup

/-- The byte of a line feed is in the bytes of no other character. -/
theorem newline_mem_encodeChar_iff (c : Char) :
    byte '\n' ∈ String.utf8EncodeChar c ↔ c = '\n' := by
  constructor
  · intro hmem
    rcases encodeChar_cases c with ⟨hsmall, hbyte⟩ | hbytes
    · rw [hbyte] at hmem
      have hequal := congrArg UInt8.toNat (List.mem_singleton.1 hmem)
      rw [UInt8.toNat_ofNat'] at hequal
      have hcode : c.toNat = '\n'.toNat := by
        have hnewline : (byte '\n').toNat = '\n'.toNat := rfl
        omega
      rw [← Char.ofNat_toNat c, hcode]
      rfl
    · exact absurd (hbytes _ hmem).1 (by decide)
  · rintro rfl
    decide

/-- There are as many line feeds in the bytes of a text as in its characters. -/
theorem count_newline_flatMap (cs : List Char) :
    (cs.flatMap String.utf8EncodeChar).count (byte '\n') = cs.count '\n' := by
  induction cs with
  | nil => rfl
  | cons c cs ih =>
      rw [List.flatMap_cons, List.count_append, ih, List.count_cons]
      by_cases hc : c = '\n'
      · subst hc
        have hone : (String.utf8EncodeChar '\n').count (byte '\n') = 1 := by decide
        rw [hone]
        simp [Nat.add_comm]
      · have hnone := List.count_eq_zero.2 (mt (newline_mem_encodeChar_iff c).1 hc)
        simp [hnone, hc]

/-- The bytes behind the last line feed are those of the last line. -/
theorem takeWhile_reverse_flatMap (cs : List Char) :
    ((cs.flatMap String.utf8EncodeChar).reverse.takeWhile (· != byte '\n')).reverse =
      (Text.lastLine cs).flatMap String.utf8EncodeChar := by
  induction cs using List.reverseRecOn with
  | nil => rfl
  | append_singleton cs c ih =>
      rw [Text.lastLine_concat, List.flatMap_append, List.flatMap_singleton, List.reverse_append]
      by_cases hc : c = '\n'
      · subst hc
        rfl
      · have hother : ∀ b ∈ (String.utf8EncodeChar c).reverse, (b != byte '\n') = true := by
          intro b hb
          rw [bne_iff_ne]
          rintro rfl
          exact hc ((newline_mem_encodeChar_iff c).1 (List.mem_reverse.1 hb))
        rw [List.takeWhile_append_of_pos hother, List.reverse_append, List.reverse_reverse, ih,
          if_neg hc, List.flatMap_append, List.flatMap_singleton]

end Bytes.Utf8

namespace Markup

open Bytes

/-- **Where a text ends in a document**: behind all its line feeds and the characters of its last
line. -/
theorem lineColumn_encode (text : String) (rest : List UInt8) :
    lineColumn (Utf8.encode text ++ rest) (Utf8.encode text).length =
      (text.toList.count '\n' + 1, (Text.lastLine text.toList).length + 1) := by
  have hdecoded := Utf8.decode_encode (String.ofList (Text.lastLine text.toList))
  rw [Utf8.encode_eq, String.toList_ofList] at hdecoded
  simp only [lineColumn, List.take_left]
  rw [Utf8.encode_eq, Utf8.count_newline_flatMap, Utf8.takeWhile_reverse_flatMap, hdecoded,
    List.length_map]

end Markup

/-! ## Styles in documents -/

/-- A reader stands on a character that is no line break. -/
theorem Text.Place.Behind.location {p : Place} {cs : List Char} {c : Char}
    (h : p.Behind (cs ++ [c])) (hc : isLineBreak c = false) (source : String) :
    p.location source =
      ⟨cs.count '\n' + 1, (lastLine cs).length + 1, cs.length + 1, source⟩ := by
  have hfeed : c ≠ '\n' := by rintro rfl; cases hc
  have hreturn : c ≠ '\r' := by rintro rfl; cases hc
  have hline := h.line
  have hoffset := h.offset
  obtain ⟨-, hcolumn⟩ := h.unbroken (by simpa using hfeed) (by simpa using hreturn)
  rw [lastLine_concat, if_neg hfeed] at hcolumn
  simp [hfeed, hreturn] at hline hoffset hcolumn
  simp [Place.location, hline, hoffset, hcolumn]

namespace Origin

open Bytes

/-- The place of what stands behind `cs` in a style is that behind `cs` in the document. -/
theorem place_lastLine (before : String) (cs : List Char) (offset : Nat) (source : String) :
    (Origin.mk (before.toList.count '\n' + 1) ((Text.lastLine before.toList).length + 1)).place
        ⟨cs.count '\n' + 1, (Text.lastLine cs).length + 1, offset, source⟩ =
      ((before.toList ++ cs).count '\n' + 1,
        (Text.lastLine (before.toList ++ cs)).length + 1) := by
  rw [Text.lastLine_append, List.count_append]
  by_cases hfeed : '\n' ∈ cs
  · -- A later line of the style starts at the start of a line of the document.
    have hpositive : 0 < cs.count '\n' := List.count_pos_iff.2 hfeed
    rw [place, if_neg (by simp only; omega), if_pos hfeed]
    simp only [Prod.mk.injEq, and_true]
    omega
  · have hall : Text.lastLine cs = cs := by
      simpa [hfeed, Text.lastLine] using Text.lastLine_append [] cs
    rw [place, if_pos (by simp [List.count_eq_zero.2 hfeed]), if_neg hfeed, hall]
    simp only [List.count_eq_zero.2 hfeed, List.length_append]
    exact Prod.ext rfl (by simp only; omega)

/-- **Coordinates in a style agree with those in its document.** A reader of the style gives the
location of a character; from the origin of the style it leads to the place of this character in the
bytes of the document, whatever stands before and behind the style. -/
theorem place_advance (before style : String) (after : List UInt8) (source : String)
    (capacity : Nat) (hstyle : Text.LineFed style.toList) {k : Nat} {c : Char}
    (hc : style.toList[k]? = some c) (hbreak : Text.isLineBreak c = false) :
    let document := Utf8.encode before ++ Utf8.encode style ++ after
    let start := (Utf8.encode before).length
    let origin := Markup.lineColumn document start
    let reader := (Text.Cursor.ofString style source capacity).advance (k + 1)
    (Origin.mk origin.1 origin.2).place reader.location =
      Markup.lineColumn document
        (start + (Utf8.encode (String.ofList (style.toList.take k))).length) := by
  intro document start origin reader
  obtain ⟨hk, -⟩ := List.getElem?_eq_some_iff.1 hc
  have htake : style.toList.take (k + 1) = style.toList.take k ++ [c] := by
    rw [List.take_add_one, hc, Option.toList_some]
  -- What the reader has counted.
  have hreader : reader.place.Behind (style.toList.take k ++ [c]) := by
    have hcounts := Text.Place.counts_nil.advance (Nat.succ_le_of_lt hk)
    rw [List.nil_append] at hcounts
    rw [← List.take_append_drop (k + 1) style.toList] at hstyle
    have hplace := hcounts.behind hstyle
    rw [htake] at hplace
    rw [Text.Cursor.place_advanced]
    exact hplace
  -- The document up to the style, and up to the character.
  have horigin : origin =
      (before.toList.count '\n' + 1, (Text.lastLine before.toList).length + 1) := by
    have hdocument : document = Utf8.encode before ++ (Utf8.encode style ++ after) :=
      List.append_assoc ..
    rw [show origin = Markup.lineColumn document start from rfl, hdocument]
    exact Markup.lineColumn_encode before _
  have hplace : Markup.lineColumn document
      (start + (Utf8.encode (String.ofList (style.toList.take k))).length) =
      ((before.toList ++ style.toList.take k).count '\n' + 1,
        (Text.lastLine (before.toList ++ style.toList.take k)).length + 1) := by
    have hhalves : Utf8.encode style = Utf8.encode (String.ofList (style.toList.take k)) ++
        Utf8.encode (String.ofList (style.toList.drop k)) := by
      rw [← Utf8.encode_append, ← String.ofList_append, List.take_append_drop,
        String.ofList_toList]
    have hdocument : document = Utf8.encode (before ++ String.ofList (style.toList.take k)) ++
        (Utf8.encode (String.ofList (style.toList.drop k)) ++ after) := by
      rw [show document = Utf8.encode before ++ Utf8.encode style ++ after from rfl, hhalves,
        Utf8.encode_append]
      simp only [List.append_assoc]
    have hlength : start + (Utf8.encode (String.ofList (style.toList.take k))).length =
        (Utf8.encode (before ++ String.ofList (style.toList.take k))).length := by
      rw [Utf8.encode_append, List.length_append]
    rw [hdocument, hlength, Markup.lineColumn_encode, String.toList_append, String.toList_ofList]
  rw [hplace, horigin, Text.Cursor.location, hreader.location hbreak]
  exact place_lastLine before _ _ _

/-- A character behind a line break of two characters and an empty line. -/
theorem place_advance_pairedBreak :
    let style := "a\r\n\né\x7b"
    let document := Utf8.encode "<b>\né>" ++ Utf8.encode style ++ Utf8.encode "\x7d"
    Text.LineFed style.toList ∧ style.toList[5]? = some '\x7b' ∧
      Text.isLineBreak '\x7b' = false ∧
      (Origin.mk 2 3).place ((Text.Cursor.ofString style "" 0).advance 6).location =
        Markup.lineColumn document 13 := by
  intro style document
  have hpaired : ∀ i < style.toList.length,
      style.toList[i]? = some '\r' → style.toList[i + 1]? = some '\n' := by
    decide
  have hstyle : Text.LineFed style.toList := by
    refine ⟨by decide, ?_⟩
    intro i hi
    exact hpaired i (List.getElem?_eq_some_iff.1 hi).1 hi
  have hchar : style.toList[5]? = some '\x7b' := by decide
  have hbreak : Text.isLineBreak '\x7b' = false := rfl
  have hplace := place_advance "<b>\né>" style (Utf8.encode "\x7d") "" 0 hstyle hchar hbreak
  have hstart : (Utf8.encode "<b>\né>").length = 7 := by decide +kernel
  have hoffset : (Utf8.encode (String.ofList (style.toList.take 5))).length = 6 := by
    decide +kernel
  have horigin : Markup.lineColumn document 7 = (2, 3) := by
    decide +kernel
  simp only [hstart, hoffset] at hplace
  rw [horigin] at hplace
  exact ⟨hstyle, hchar, hbreak, hplace⟩

end Origin

end EpubStyle
