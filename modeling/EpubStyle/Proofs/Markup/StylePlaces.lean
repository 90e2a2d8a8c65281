import Mathlib.Control.Monad.Basic
import EpubStyle.Proofs.Markup.Coordinates
import EpubStyle.Proofs.Markup.PlainXml
import EpubStyle.Proofs.Markup.Readings
import EpubStyle.Proofs.Markup.ValuePlaces
import EpubStyle.Proofs.Parse.Sources

/-!
# Places of style attributes

The style of an attribute is reported with the line and the column of the first character of its
value, if no value in its tag holds a bracket and the attribute is the first `style` with white
space before it (`stylePlace_eq_iff`). Otherwise it is reported elsewhere, but for one chance: a
value that begins with the last bracket of its tag, behind which nothing looks like a `style`
attribute, is where the search gives up (`WrittenTag.GivesUpAt`).

This holds whatever library reads the document, if it yields the tag where it ends and the attribute
as it is written. The plain library does (`plainXml_yields`).

A place in a document is the end of the characters before it, and no two such places have the same
line and column (`Text.placeBehind_injective`).
-/

set_option autoImplicit false

namespace EpubStyle

/-! ## Places behind characters -/

namespace Text

/-- The line and the column of a character behind the text `cs`, both from one. -/
def placeBehind (cs : List Char) : Nat × Nat := (cs.count '\n' + 1, (lastLine cs).length + 1)

theorem placeBehind_append_ne {cs ds : List Char} (hds : ds ≠ []) :
    placeBehind (cs ++ ds) ≠ placeBehind cs := by
  intro heq
  simp only [placeBehind, Prod.mk.injEq, List.count_append, lastLine_append] at heq
  obtain ⟨hline, hcolumn⟩ := heq
  have hfeed : '\n' ∉ ds := List.count_eq_zero.1 (by omega)
  rw [if_neg hfeed, List.length_append] at hcolumn
  have hpos := List.length_pos_iff.2 hds
  omega

/-- **No two places of a text have the same line and column.** -/
theorem placeBehind_injective {cs cs' ds ds' : List Char} (htext : cs ++ ds = cs' ++ ds')
    (h : placeBehind cs = placeBehind cs') : cs = cs' := by
  rcases List.append_eq_append_iff.1 htext with ⟨more, rfl, -⟩ | ⟨more, rfl, -⟩
  · cases more with
    | nil => simp
    | cons c more => exact absurd h.symm (placeBehind_append_ne (by simp))
  · cases more with
    | nil => simp
    | cons c more => exact absurd h (placeBehind_append_ne (by simp))

end Text

namespace Markup

open Bytes

/-! ## Where a style is reported -/

/-- What stands behind the last place of a byte. -/
theorem reverse_takeWhile_bne {lead y : List UInt8} {b : UInt8} (hlast : b ∉ y) :
    ((lead ++ b :: y).reverse.takeWhile (· != b)).reverse = y := by
  have hplain : ∀ c ∈ y.reverse, (c != b) = true := by
    intro c hc
    rw [bne_iff_ne]
    rintro rfl
    exact hlast (List.mem_reverse.1 hc)
  rw [List.reverse_append, List.reverse_cons, List.append_assoc,
    List.takeWhile_append_of_pos hplain]
  simp

/-- The place of a style is counted from the last bracket before the end of its tag. -/
theorem stylePlace_eq {document lead y : List UInt8} {stop : Nat}
    (h : document.take stop = lead ++ byte '<' :: y) (hlast : byte '<' ∉ y) :
    stylePlace document stop = lineColumn document
      (lead.length + (valueOffset (word "style") none none 0 (byte '<' :: y)).getD 0) := by
  have hmem : (lead ++ byte '<' :: y).contains (byte '<') = true := by simp
  have hstart : (lead ++ byte '<' :: y).length - y.length - 1 = lead.length := by
    simp only [List.length_append, List.length_cons]
    omega
  simp only [stylePlace, h, reverse_takeWhile_bne hlast, hmem, if_true, hstart, List.drop_left]

theorem isQuote_toNat_lt {q : UInt8} (h : isQuote q = true) : q.toNat < 0x80 := by
  simp only [isQuote, Bool.or_eq_true, beq_iff_eq] at h
  rcases h with rfl | rfl <;> decide

/-- The places that a search may yield are places of characters. -/
theorem exists_place {text : String} {lead y more : List UInt8}
    (h : Utf8.encode text = lead ++ (byte '<' :: y ++ more)) :
    ∃ before after : String, text = before ++ after ∧ (Utf8.encode before).length =
      lead.length + (valueOffset (word "style") none none 0 (byte '<' :: y)).getD 0 := by
  cases hfound : valueOffset (word "style") none none 0 (byte '<' :: y) with
  | none =>
      obtain ⟨before, c, after, htext, hbefore, -, -⟩ :=
        Utf8.exists_of_encode (show (byte '<').toNat < 0x80 by decide) h
      refine ⟨before, c ++ after, by rw [htext, String.append_assoc], ?_⟩
      rw [hbefore]
      rfl
  | some n =>
      obtain ⟨front, q, rest, hy, -, hq, rfl⟩ := valueOffset_eq_some isQuote_of_mem_style hfound
      rw [hy] at h
      have hsplit : Utf8.encode text = (lead ++ front) ++ q :: (rest ++ more) := by
        rw [h]
        simp
      obtain ⟨before, c, after, htext, hbefore, hc, -⟩ :=
        Utf8.exists_of_encode (isQuote_toNat_lt hq) hsplit
      refine ⟨before ++ c, after, htext, ?_⟩
      rw [Utf8.encode_append, hbefore, hc]
      simp only [List.length_append, List.length_cons, List.length_nil, Option.getD_some]
      omega

/-- The line and the column of a place in a document. -/
theorem lineColumn_placeBehind (before after : String) :
    lineColumn (Utf8.encode (before ++ after)) (Utf8.encode before).length =
      Text.placeBehind before.toList := by
  rw [Utf8.encode_append]
  exact lineColumn_encode before _

/-- Two places of a text are the same if as many bytes stand before them. -/
theorem placeBehind_eq_iff {before after before' after' : String}
    (h : before ++ after = before' ++ after') :
    Text.placeBehind before.toList = Text.placeBehind before'.toList ↔
      (Utf8.encode before).length = (Utf8.encode before').length := by
  constructor
  · intro hplace
    have htext : before.toList ++ after.toList = before'.toList ++ after'.toList := by
      rw [← String.toList_append, h, String.toList_append]
    rw [String.toList_inj.1 (Text.placeBehind_injective htext hplace)]
  · intro hlength
    have hbytes : Utf8.encode before ++ Utf8.encode after =
        Utf8.encode before' ++ Utf8.encode after' := by
      rw [← Utf8.encode_append, h, Utf8.encode_append]
    rw [Utf8.encode_injective (List.append_inj hbytes hlength).1]

/-- The value of an attribute in a tag of a text is a text of its own. -/
theorem exists_value {text : String} {lead more : List UInt8} {t : WrittenTag}
    (h : Utf8.encode text = lead ++ (t.bytes ++ more)) {front behind : List WrittenAttribute}
    {a : WrittenAttribute} (hattributes : t.attributes = front ++ a :: behind) :
    ∃ prior value rest : String, text = prior ++ value ++ rest ∧
      Utf8.encode prior = lead ++ t.upTo front a ∧ Utf8.encode value = a.value := by
  obtain ⟨outer, houter, -⟩ := t.exists_upTo front a
  have hquote := isQuote_toNat_lt a.isQuote_quote
  have hopen : Utf8.encode text = (lead ++ outer) ++ a.quote :: (a.value ++ a.quote ::
      (behind.flatMap WrittenAttribute.bytes ++ (t.trailing ++ t.close) ++ more)) := by
    rw [h, WrittenTag.bytes_eq hattributes, houter]
    simp
  obtain ⟨before, mark, after, htext, hbefore, hmark, hafter⟩ :=
    Utf8.exists_of_encode hquote hopen
  obtain ⟨value, mark', rest, rfl, hvalue, -, -⟩ := Utf8.exists_of_encode hquote hafter
  refine ⟨before ++ mark, value, mark' ++ rest, ?_, ?_, hvalue⟩
  · rw [htext]
    simp only [String.append_assoc]
  · rw [Utf8.encode_append, hbefore, hmark, houter, List.append_assoc]

/-- A byte of a list has a last place in it. -/
theorem exists_last {xs : List UInt8} {b : UInt8} (h : b ∈ xs) :
    ∃ x y, xs = x ++ b :: y ∧ b ∉ y := by
  obtain ⟨y, x, hxs, hy⟩ := List.eq_append_cons_of_mem (List.mem_reverse.2 h)
  refine ⟨x.reverse, y.reverse, ?_, fun hmem => hy (List.mem_reverse.1 hmem)⟩
  rw [← List.reverse_reverse xs, hxs]
  simp

/-- There is only one last place. -/
theorem last_eq {x y x' y' : List UInt8} {b : UInt8} (h : x ++ b :: y = x' ++ b :: y')
    (hy : b ∉ y) (hy' : b ∉ y') : x = x' ∧ y = y' := by
  rcases Bytes.split_append h with ⟨c, rfl, hc⟩ | ⟨c, rfl⟩
  · cases c with
    | nil => exact ⟨by simp, (List.cons.inj hc).2⟩
    | cons d c => exact absurd (by simp [(List.cons.inj hc).2]) hy
  · rw [List.append_assoc] at h
    have htail := List.append_cancel_left h
    exact absurd (by simp [← (List.cons.inj htail).2]) hy'

/-- Nothing is found behind the last bracket of a tag, and the value begins with that bracket. -/
def WrittenTag.GivesUpAt (t : WrittenTag) (front : List WrittenAttribute) (a : WrittenAttribute) :
    Prop :=
  ∃ y, t.bytes = t.upTo front a ++ byte '<' :: y ∧ byte '<' ∉ y ∧
    valueOffset (word "style") none none 0 (byte '<' :: y) = none

/-- **A style attribute is reported at the first character of its value** exactly if no value in its
tag holds a bracket and it is the first `style` with white space before it, or if the search for the
value gives up there by chance.

Of the library it is assumed that it yields the tag with the offset right behind it (`hposition`),
and the attribute in its order among the others with its raw value (`hyields`). -/
theorem stylePlace_eq_iff (xml : XmlLibrary) {text : String} {styles : List EmbeddedStyle}
    (hstyles : xml.extractStyles (Utf8.encode text) = .ok styles)
    {lead more : List UInt8} {t : WrittenTag}
    (hdocument : Utf8.encode text = lead ++ (t.bytes ++ more))
    {before after : List Event} {e : Event}
    (hevents : (xml.read (Utf8.encode text)).1 = before ++ e :: after)
    {tag : Tag} (hposition : e.tag? = some (tag, (lead ++ t.bytes).length))
    {front behind : List WrittenAttribute} {a : WrittenAttribute}
    (hattributes : t.attributes = front ++ a :: behind) (hkey : a.key = word "style")
    (hyields : tag.attributes[front.length]? = some (some a.raw)) :
    ∃ (s : EmbeddedStyle) (prior value rest : String),
      (attributeStylesOf styles)[(before.map Event.styleCount).sum +
        (tag.attributes.take front.length).countP isStyle]? = some s ∧
      (xml.decode a.value).bind xml.unescape = some s.css ∧
      text = prior ++ value ++ rest ∧
      Utf8.encode prior = lead ++ t.upTo front a ∧
      Utf8.encode value = a.value ∧
      ((s.line, s.column) = Text.placeBehind prior.toList ↔
        (∀ b ∈ t.attributes, byte '<' ∉ b.value) ∧ a.IsFirstSpaced front ∨
          t.GivesUpAt front a) := by
  -- The style, and the tag in the document.
  have hall : xml.stylesFrom (Utf8.encode text) (xml.read (Utf8.encode text)).2 none
      (before ++ e :: after) = .ok styles := by
    rw [← hevents]
    exact hstyles
  obtain ⟨hlt, hget⟩ := List.getElem?_eq_some_iff.1 hyields
  have hsplits : tag.attributes = tag.attributes.take front.length ++
      some a.raw :: tag.attributes.drop (front.length + 1) := by
    rw [← hget, List.getElem_cons_drop, List.take_append_drop]
  obtain ⟨s, hs, hreports⟩ := XmlLibrary.exists_reports hall hposition hsplits hkey
  have htake : (Utf8.encode text).take (lead ++ t.bytes).length = lead ++ t.bytes := by
    rw [hdocument, ← List.append_assoc, List.take_left]
  -- The value is a text of its own.
  obtain ⟨prior, value, rest, htext, hprior, hvalue⟩ := exists_value hdocument hattributes
  refine ⟨s, prior, value, rest, hs, hreports.css, htext, hprior, hvalue, ?_⟩
  -- The last bracket of the tag, and the place that is found from there.
  obtain ⟨x, y, hsplit, hlast⟩ := exists_last (show byte '<' ∈ t.bytes from List.mem_cons_self ..)
  have htag : (lead ++ t.bytes) = (lead ++ x) ++ byte '<' :: y := by
    rw [hsplit, List.append_assoc]
  obtain ⟨shown, unshown, hshown, hlength⟩ := exists_place
    (show Utf8.encode text = (lead ++ x) ++ (byte '<' :: y ++ more) by
      rw [hdocument, ← List.append_assoc, htag, List.append_assoc])
  have hplace : (s.line, s.column) = Text.placeBehind shown.toList := by
    rw [hreports.place, stylePlace_eq (htake.trans htag) hlast, ← hlength, hshown,
      lineColumn_placeBehind]
  have hgivesUp : t.GivesUpAt front a ↔ x = t.upTo front a ∧
      valueOffset (word "style") none none 0 (byte '<' :: y) = none := by
    constructor
    · rintro ⟨y', hsplit', hlast', hnothing⟩
      obtain ⟨rfl, rfl⟩ := last_eq (hsplit.symm.trans hsplit') hlast hlast'
      exact ⟨rfl, hnothing⟩
    · rintro ⟨rfl, hnothing⟩
      exact ⟨y, hsplit, hlast, hnothing⟩
  rw [hgivesUp, ← WrittenTag.found_eq_iff hattributes hsplit hlast, hplace,
    placeBehind_eq_iff (hshown.symm.trans (htext.trans (String.append_assoc ..))), hlength, hprior,
    List.length_append, List.length_append]
  omega

/-! ## Brackets in other values -/

/-- An attribute behind one space, between double quotation marks. -/
def WrittenAttribute.spaced (key value : List UInt8) (hne : key ≠ [])
    (hname : ∀ b ∈ key, isNameByte b = true) (hvalue : byte '\x22' ∉ value) : WrittenAttribute where
  gap := word " "
  key := key
  before := []
  behind := []
  quote := byte '\x22'
  value := value
  gap_space := by decide +kernel
  key_ne_nil := hne
  key_name := hname
  before_space := by simp
  behind_space := by simp
  isQuote_quote := by decide
  quote_not_mem := hvalue

/-- The attribute `title`. -/
def title (value : List UInt8) (h : byte '\x22' ∉ value) : WrittenAttribute :=
  .spaced (word "title") value (by decide +kernel) (by decide +kernel) h

/-- The attribute `style` with the value `x`. -/
def styleX : WrittenAttribute :=
  .spaced (word "style") (word "x") (by decide +kernel) (by decide +kernel) (by decide +kernel)

/-- The tag of an empty element `p` with a title and a style. -/
def titled (value : List UInt8) (h : byte '\x22' ∉ value) : WrittenTag where
  name := word "p"
  attributes := [title value h, styleX]
  trailing := []
  isEmpty := true
  name_name := by decide +kernel
  trailing_space := by simp

/-- The plain library yields such a tag as it is written. -/
theorem titled_yields {value : List UInt8} {h : byte '\x22' ∉ value} {text : String} {stop : Nat}
    (hmark : text.toList.head? ≠ some '\uFEFF')
    (hparts : (readParts (Utf8.encode text)).1 = [(titled value h).part stop])
    (hlength : (Utf8.encode text).length = (titled value h).bytes.length) :
    ∃ tag, Utf8.encode text = [] ++ ((titled value h).bytes ++ []) ∧
      (plainXml.read (Utf8.encode text)).1 = [] ++ ((titled value h).part stop).event :: [] ∧
      ((titled value h).part stop).event.tag? =
        some (tag, ([] ++ (titled value h).bytes).length) ∧
      tag.attributes = (titled value h).attributes.map (fun b => some b.raw) := by
  have hnodup : ((titled value h).attributes.map WrittenAttribute.key).Nodup := by
    change [word "title", word "style"].Nodup
    decide +kernel
  have hmark' : ¬ [0xEF, 0xBB, 0xBF] <+: Utf8.encode text := fun hstarts =>
    hmark ((ByteOrderMark.prefix_encode_iff text).1 hstarts)
  have hmem : (titled value h).part stop ∈ (readParts (Utf8.encode text)).1 := by
    rw [hparts]
    exact List.mem_singleton_self _
  obtain ⟨lead, more, tag, hdocument, htag, hattributes⟩ := plainXml_yields hmark' hnodup hmem
  -- The tag is as long as the document, so it is all of it.
  obtain ⟨rfl, rfl⟩ : lead = [] ∧ more = [] := by
    rw [hdocument, List.length_append, List.length_append] at hlength
    exact ⟨List.length_eq_zero_iff.1 (by omega), List.length_eq_zero_iff.1 (by omega)⟩
  exact ⟨tag, hdocument, congrArg (List.map Part.event) hparts, htag, hattributes⟩

/-- A closing bracket in another value does no harm. -/
theorem stylePlace_eq_iff_titled :
    ∃ (s : EmbeddedStyle) (prior : String),
      plainXml.extractStyles (Utf8.encode "<p title=\"a>b\" style=\"x\"/>") = .ok [s] ∧
        Utf8.encode prior = (titled (word "a>b") (by decide +kernel)).upTo
          [title (word "a>b") (by decide +kernel)] styleX ∧
        (s.line, s.column) = Text.placeBehind prior.toList := by
  have hstyles : plainXml.extractStyles (Utf8.encode "<p title=\"a>b\" style=\"x\"/>") =
      .ok [⟨.attribute, "p", "x", 1, 23⟩] := by
    decide +kernel
  have hparts : (readParts (Utf8.encode "<p title=\"a>b\" style=\"x\"/>")).1 =
      [(titled (word "a>b") (by decide +kernel)).part 26] := by
    decide +kernel
  obtain ⟨tag, hdocument, hevents, hposition, hattributes⟩ :=
    titled_yields (by decide) hparts (by decide +kernel)
  obtain ⟨s, prior, value, rest, hs, -, -, hprior, -, hiff⟩ :=
    stylePlace_eq_iff plainXml hstyles hdocument hevents hposition
      (show _ = [title (word "a>b") (by decide +kernel)] ++ styleX :: [] from rfl) rfl
      (by rw [hattributes]; rfl)
  rw [hattributes] at hs
  obtain rfl : (⟨.attribute, "p", "x", 1, 23⟩ : EmbeddedStyle) = s := Option.some.inj hs
  exact ⟨_, prior, hstyles, hprior, hiff.2 (.inl
    ⟨by decide +kernel, by decide +kernel, by decide +kernel, by decide +kernel⟩)⟩

/-- **A bracket in another value misplaces a style**: the search begins inside that value, finds
nothing, and the bracket is reported, also where a library yields every attribute of the tag as it
is written. -/
theorem not_forall_stylePlace :
    ¬ ∀ (xml : XmlLibrary) (text : String) (styles : List EmbeddedStyle) (lead more : List UInt8)
        (t : WrittenTag) (before after : List Event) (e : Event) (tag : Tag)
        (front behind : List WrittenAttribute) (a : WrittenAttribute),
      text.toList.head? ≠ some '\uFEFF' → xml.extractStyles (Utf8.encode text) = .ok styles →
      Utf8.encode text = lead ++ (t.bytes ++ more) →
      (xml.read (Utf8.encode text)).1 = before ++ e :: after →
      e.tag? = some (tag, (lead ++ t.bytes).length) →
      tag.attributes = t.attributes.map (fun b => some b.raw) →
      t.attributes = front ++ a :: behind → a.key = word "style" →
      ∃ (s : EmbeddedStyle) (prior : String),
        (attributeStylesOf styles)[(before.map Event.styleCount).sum +
          (tag.attributes.take front.length).countP isStyle]? = some s ∧
        Utf8.encode prior = lead ++ t.upTo front a ∧
        (s.line, s.column) = Text.placeBehind prior.toList := by
  intro h
  have hstyles : plainXml.extractStyles (Utf8.encode "<p title=\"a<b\" style=\"x\"/>") =
      .ok [⟨.attribute, "p", "x", 1, 12⟩] := by
    decide +kernel
  have hparts : (readParts (Utf8.encode "<p title=\"a<b\" style=\"x\"/>")).1 =
      [(titled (word "a<b") (by decide +kernel)).part 26] := by
    decide +kernel
  obtain ⟨tag, hdocument, hevents, hposition, hattributes⟩ :=
    titled_yields (by decide) hparts (by decide +kernel)
  obtain ⟨s, prior, hs, hprior, hplace⟩ :=
    h _ _ _ _ _ _ _ _ _ _ [title (word "a<b") (by decide +kernel)] [] styleX (by decide) hstyles
      hdocument hevents hposition hattributes rfl rfl
  rw [hattributes] at hs
  obtain rfl : (⟨.attribute, "p", "x", 1, 12⟩ : EmbeddedStyle) = s := Option.some.inj hs
  have hshown : prior = "<p title=\"a<b\" style=\"" := by
    refine Utf8.encode_injective (hprior.trans ?_)
    decide +kernel
  rw [hshown] at hplace
  revert hplace
  decide +kernel

end Markup

end EpubStyle
