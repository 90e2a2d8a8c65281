import EpubStyle.Proofs.Bytes.Encoders
import EpubStyle.Proofs.Parse.Locales

/-!
# Style sheets as text and as bytes

A style sheet is handed to the parser as text, as a source made from text, or as a source made from
bytes. The last one looks for a byte order mark and a charset before it decodes. In the bytes of a
text in UTF-8 it finds no mark unless the text starts with U+FEFF
(`ByteOrderMark.detect_encode_eq_none_iff`), since no such byte starts the mark of another encoding.
If no other charset is declared either, the source carries the text as it was, and the size that is
compared with the limit is that of the text (`Source.carries_ofBytes`).

Then all three ways lead to the same parse with every listener and all options
(`Listener.parseSource_encode`).
-/

set_option autoImplicit false

namespace EpubStyle

namespace Bytes

/-! ## Marks in the bytes of a text -/

/-- The bytes of UTF-8 leave out the greatest ones. -/
theorem Utf8.toNat_lt_of_mem_encode {text : String} {b : UInt8} (h : b ∈ encode text) :
    b.toNat < 0xF8 := by
  rw [encode_eq] at h
  obtain ⟨c, -, hb⟩ := List.mem_flatMap.1 h
  rcases encodeChar_cases c with ⟨hsmall, hbyte⟩ | hbytes
  · rw [hbyte] at hb
    rw [List.mem_singleton.1 hb, UInt8.toNat_ofNat']
    omega
  · exact (hbytes b hb).2

namespace ByteOrderMark

/-- A mark that is not of UTF-8 does not start the bytes of a text. -/
theorem not_prefix_encode {m : ByteOrderMark} (hm : m ≠ utf8) (text : String) :
    ¬ m.bytes <+: Utf8.encode text := by
  intro hstarts
  have hgreat : (0xFE : UInt8) ∈ m.bytes := by
    cases m with
    | utf8 => exact absurd rfl hm
    | utf16be | utf16le | utf32be | utf32le => decide
  have hlt := Utf8.toNat_lt_of_mem_encode (hstarts.subset hgreat)
  exact absurd hlt (by decide)

/-- The mark of UTF-8 is the character U+FEFF. -/
theorem prefix_encode_iff (text : String) :
    utf8.bytes <+: Utf8.encode text ↔ text.toList.head? = some '\uFEFF' := by
  constructor
  · rintro ⟨rest, hrest⟩
    have hfirst : Utf8.decode (utf8.bytes ++ rest) = some '\uFEFF' :: Utf8.decode rest := rfl
    rw [hrest, Utf8.decode_encode] at hfirst
    obtain ⟨c, cs, hchars, hc, -⟩ := List.map_eq_cons_iff.1 hfirst
    rw [hchars, List.head?_cons, hc]
  · intro hhead
    obtain ⟨cs, hcs⟩ := List.head?_eq_some_iff.1 hhead
    rw [Utf8.encode_eq, hcs]
    exact ⟨_, rfl⟩

/-- **A text in UTF-8 is taken to have a mark only if it starts with the character of one.** -/
theorem detect_encode_eq_none_iff (text : String) :
    detect (Utf8.encode text) = none ↔ text.toList.head? ≠ some '\uFEFF' := by
  rw [detect, List.find?_eq_none, ne_eq, ← prefix_encode_iff text]
  simp only [List.isPrefixOf_iff_prefix]
  constructor
  · intro hnone
    exact hnone utf8 (by decide)
  · intro hutf8 m _
    by_cases hm : m = utf8
    · rw [hm]
      exact hutf8
    · exact not_prefix_encode hm text

end ByteOrderMark

/-! ## Sources that carry a text -/

namespace Source

/-- The source is read as this text under this name, and is as large as it. -/
structure Carries (s : Source) (name text : String) : Prop where
  name : s.name = name
  size : s.size = text.utf8ByteSize
  text : s.text = text

theorem carries_utf8 (name : String) (mark : Option ByteOrderMark) (charset : Option String)
    (text : String) : Carries ⟨name, mark, charset, .utf8, Utf8.encode text⟩ name text where
  name := rfl
  size := Utf8.length_encode text
  text := ByteOrderMark.utf8.decode_encode text

theorem carries_ofText (name text : String) : (ofText name text).Carries name text :=
  carries_utf8 name none none text

/-- **The bytes of a text carry this text**, if neither a mark nor a charset says otherwise. -/
theorem carries_ofBytes (name : String) {text : String}
    (hmark : text.toList.head? ≠ some '\uFEFF')
    (hcharset : ∀ label, sniffCharset (Utf8.encode text) none = some label →
      Encoding.ofLabel? label = none ∨ Encoding.ofLabel? label = some .utf8) :
    (ofBytes name (Utf8.encode text)).Carries name text := by
  have hnone := (ByteOrderMark.detect_encode_eq_none_iff text).2 hmark
  have hencoding : resolveEncoding none (sniffCharset (Utf8.encode text) none) = .utf8 := by
    cases hsniffed : sniffCharset (Utf8.encode text) none with
    | none => rfl
    | some label =>
        -- An encoding that is not known is read as UTF-8, too.
        rcases hcharset label hsniffed with hlabel | hlabel <;> simp [resolveEncoding, hlabel]
  have hsource : ofBytes name (Utf8.encode text) =
      ⟨name, none, sniffCharset (Utf8.encode text) none, .utf8, Utf8.encode text⟩ := by
    simp [ofBytes, ofParts, hnone, hencoding]
  rw [hsource]
  exact carries_utf8 name _ _ text

end Source

end Bytes

/-! ## Parses of sources -/

/-- Parse the style sheet in a source, with a listener. -/
def Listener.parseSource {σ : Type} (h : Listener σ) (state : σ) (o : ParseOptions)
    (s : Bytes.Source) : Transcript σ :=
  match o.sizeFailure? s.size with
  | some failure => ⟨[], state, some (failure.render o.locale)⟩
  | none => h.attend o.locale o.capacity state (parseSignals .sheet s.text s.name)

/-- **A parse of a source renders what it has collected as it was reported.** -/
theorem Handler.parseSource_listener (h : Handler) (o : ParseOptions) (s : Bytes.Source) :
    h.listener.parseSource [] o s =
      { events := (EpubStyle.parseSource o h s).events
        state := (EpubStyle.parseSource o h s).problems.map (Problem.render o.locale)
        stop := (EpubStyle.parseSource o h s).failure.map (Failure.render o.locale) } := by
  simp only [Listener.parseSource, EpubStyle.parseSource, parseAny]
  cases o.sizeFailure? s.size with
  | some failure => rfl
  | none => exact h.attend_listener o.locale o.capacity [] _

namespace Listener

variable {σ : Type} (h : Listener σ) (state : σ) (o : ParseOptions)

/-- A source that carries a text is parsed as this text. -/
theorem parseSource_of_carries {s : Bytes.Source} {name text : String} (hs : s.Carries name text) :
    h.parseSource state o s = h.parse state o .sheet text name := by
  cases hfailure : o.sizeFailure? text.utf8ByteSize with
  | some failure => simp only [parseSource, parse, hs.size, hfailure]
  | none => simp only [parseSource, parse, hs.size, hs.text, hs.name, hfailure]

/-- A text that is larger than allowed is rejected before anything is received. -/
theorem parse_of_size {g : Grammar} {text name : String} {limit : Nat}
    (hlimit : o.maxBytes = some limit) (hsize : limit < text.utf8ByteSize) :
    h.parse state o g text name =
      ⟨[], state, some (.failed (.tooLarge text.utf8ByteSize limit))⟩ := by
  have hfailure : o.sizeFailure? text.utf8ByteSize = some (.tooLarge text.utf8ByteSize limit) := by
    simp [ParseOptions.sizeFailure?, hlimit, hsize]
  simp only [parse, hfailure, Failure.render]

/-- **The entry points agree.** A text without the character of a byte order mark at its start,
whose bytes declare no charset, that of UTF-8 or an unknown one, is parsed with the same outcome as
text, as a source made from text, and as a source made from its bytes, with every listener and all
options. If it is larger than allowed, each of them says so with the size of the text, and nothing
is received. -/
theorem parseSource_encode (text name : String) (hmark : text.toList.head? ≠ some '\uFEFF')
    (hcharset : ∀ label, Bytes.sniffCharset (Bytes.Utf8.encode text) none = some label →
      Bytes.Encoding.ofLabel? label = none ∨ Bytes.Encoding.ofLabel? label = some .utf8) :
    h.parseSource state o (.ofText name text) = h.parse state o .sheet text name ∧
      h.parseSource state o (.ofBytes name (Bytes.Utf8.encode text)) =
        h.parse state o .sheet text name ∧
      ∀ limit, o.maxBytes = some limit → limit < text.utf8ByteSize →
        h.parse state o .sheet text name =
          ⟨[], state, some (.failed (.tooLarge text.utf8ByteSize limit))⟩ := by
  have htext := Bytes.Source.carries_ofText name text
  have hbytes := Bytes.Source.carries_ofBytes name hmark hcharset
  refine ⟨h.parseSource_of_carries state o htext, h.parseSource_of_carries state o hbytes, ?_⟩
  intro limit hlimit hsize
  exact h.parse_of_size state o hlimit hsize

/-- A text that declares an encoding which is not known, and is one byte too large. -/
theorem parseSource_encode_unknownCharset :
    let text := "@charset \"utf-7\";é\x7b"
    let o := { ParseOptions.default with maxBytes := some 19 }
    text.toList.head? ≠ some '\uFEFF' ∧
      (∀ label, Bytes.sniffCharset (Bytes.Utf8.encode text) none = some label →
        Bytes.Encoding.ofLabel? label = none ∨ Bytes.Encoding.ofLabel? label = some .utf8) ∧
      Handler.strict.listener.parseSource [] o (.ofBytes "a.css" (Bytes.Utf8.encode text)) =
        Handler.strict.listener.parse [] o .sheet text "a.css" ∧
      Handler.strict.listener.parse [] o .sheet text "a.css" =
        ⟨[], [], some (.failed (.tooLarge 20 19))⟩ := by
  intro text o
  have hsniffed : Bytes.sniffCharset (Bytes.Utf8.encode text) none = some "utf-7" := by
    decide +kernel
  have hunknown : Bytes.Encoding.ofLabel? "utf-7" = none := by decide +kernel
  have hmark : text.toList.head? ≠ some '\uFEFF' := by decide
  have hcharset : ∀ label, Bytes.sniffCharset (Bytes.Utf8.encode text) none = some label →
      Bytes.Encoding.ofLabel? label = none ∨ Bytes.Encoding.ofLabel? label = some .utf8 := by
    intro label hlabel
    obtain rfl : "utf-7" = label := Option.some.inj (hsniffed.symm.trans hlabel)
    exact .inl hunknown
  have hagree := Handler.strict.listener.parseSource_encode [] o text "a.css" hmark hcharset
  exact ⟨hmark, hcharset, hagree.2.1, hagree.2.2 19 rfl (by decide)⟩

end Listener

end EpubStyle
