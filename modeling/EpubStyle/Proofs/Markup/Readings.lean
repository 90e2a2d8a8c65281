import Mathlib.Algebra.Ring.Nat
import Mathlib.Data.List.Forall2
import EpubStyle.Proofs.Markup.Tags

/-!
# Styles of tags

The styles of a document are those of its events, one after the other, whatever library yields the
events. An event has one style of kind `attribute` for each `style` attribute that is yielded with
it (`length_styleStep`), so the style of an attribute is found among them by counting the attributes
before it (`exists_reports`).
-/

set_option autoImplicit false

namespace EpubStyle.Markup

/-- The tag of an element and the offset behind it. -/
def Event.tag? : Event → Option (Tag × Nat)
  | startTag tag stop | emptyTag tag stop => some (tag, stop)
  | _ => none

/-- The number of `style` attributes that are yielded with an event. -/
def Event.styleCount : Event → Nat
  | startTag tag _ | emptyTag tag _ => tag.attributes.countP isStyle
  | _ => 0

/-- The style is that of an attribute. -/
def EmbeddedStyle.isAttribute (s : EmbeddedStyle) : Bool := s.kind == .attribute

/-- The styles among others that are those of attributes. -/
def attributeStylesOf (styles : List EmbeddedStyle) : List EmbeddedStyle :=
  styles.filter EmbeddedStyle.isAttribute

/-- The style of an attribute in a tag that ends before the offset `stop`. -/
structure EmbeddedStyle.Reports (s : EmbeddedStyle) (xml : XmlLibrary) (document : List UInt8)
    (stop : Nat) (value : List UInt8) : Prop where
  kind : s.kind = .attribute
  place : (s.line, s.column) = stylePlace document stop
  css : (xml.decode value).bind xml.unescape = some s.css

/-- What a computation of two steps yields is yielded by the second. -/
theorem bind_eq_ok {α β : Type} {x : Except MarkupFault α} {f : α → Except MarkupFault β} {b : β}
    (h : x >>= f = .ok b) : ∃ a, x = .ok a ∧ f a = .ok b := by
  cases x with
  | error fault => cases h
  | ok a => exact ⟨a, rfl, h⟩

/-! ## Libraries -/

namespace XmlLibrary

variable {xml : XmlLibrary} {document : List UInt8} {stop : Nat} {yielded : List (Option Attribute)}
  {styles : List EmbeddedStyle}

theorem text?_eq_ok {bytes : List UInt8} {s : String} (h : xml.text? bytes = .ok s) :
    xml.decode bytes = some s := by
  unfold text? at h
  split at h
  · next hdecode => rw [hdecode, Except.ok.inj h]
  · cases h

theorem unescaped?_eq_ok {raw s : String} (h : xml.unescaped? raw = .ok s) :
    xml.unescape raw = some s := by
  unfold unescaped? at h
  split at h
  · next hunescape => rw [hunescape, Except.ok.inj h]
  · cases h

/-- **The styles of a tag** are those of the `style` attributes that are yielded, one by one. -/
theorem reports_attributeStyles {element : String}
    (h : xml.attributeStyles document element stop yielded = .ok styles) :
    List.Forall₂ (fun x s => ∃ a, x = some a ∧ EmbeddedStyle.Reports s xml document stop a.value)
      (yielded.filter isStyle) styles := by
  induction yielded generalizing styles with
  | nil =>
      cases h
      exact .nil
  | cons x yielded ih =>
      cases x with
      | none => exact ih h
      | some a =>
          rw [attributeStyles] at h
          split at h
          · next hkey =>
              have hstyle : isStyle (some a) = true := hkey
              obtain ⟨raw, hraw, h⟩ := bind_eq_ok h
              obtain ⟨css, hcss, h⟩ := bind_eq_ok h
              obtain ⟨others, hothers, h⟩ := bind_eq_ok h
              cases h
              have hvalue : (xml.decode a.value).bind xml.unescape = some css := by
                rw [text?_eq_ok hraw, Option.bind_some, unescaped?_eq_ok hcss]
              rw [List.filter_cons_of_pos hstyle]
              exact .cons ⟨a, rfl, rfl, rfl, hvalue⟩ (ih hothers)
          · next hkey =>
              have hstyle : ¬ isStyle (some a) = true := hkey
              rw [List.filter_cons_of_neg hstyle]
              exact ih h

/-- The styles of a tag are those of attributes. -/
theorem attributeStylesOf_attributeStyles {element : String}
    (h : xml.attributeStyles document element stop yielded = .ok styles) :
    attributeStylesOf styles = styles := by
  have hreports := reports_attributeStyles h
  refine List.filter_eq_self.2 ?_
  clear h
  generalize yielded.filter isStyle = these at hreports
  induction hreports with
  | nil => simp
  | cons hs _ ih =>
      obtain ⟨a, -, hs⟩ := hs
      exact List.forall_mem_cons.2 ⟨beq_iff_eq.2 hs.kind, ih⟩

/-- A tag has as many styles as `style` attributes. -/
theorem length_attributeStyles {element : String}
    (h : xml.attributeStyles document element stop yielded = .ok styles) :
    (attributeStylesOf styles).length = yielded.countP isStyle := by
  rw [attributeStylesOf_attributeStyles h, List.countP_eq_length_filter,
    (reports_attributeStyles h).length_eq]

/-- An event has a style of an attribute for each of its `style` attributes. -/
theorem length_styleStep {current current' : Option OpenStyle} {e : Event}
    (h : xml.styleStep document current e = .ok (current', styles)) :
    (attributeStylesOf styles).length = e.styleCount := by
  cases e with
  | startTag tag stop | emptyTag tag stop =>
      obtain ⟨element, -, h⟩ := bind_eq_ok h
      obtain ⟨these, hthese, h⟩ := bind_eq_ok h
      cases h
      exact length_attributeStyles hthese
  | endTag name =>
      obtain ⟨element, -, h⟩ := bind_eq_ok h
      split at h <;> cases h <;> rfl
  | text bytes | characterData bytes | reference name =>
      obtain ⟨next, -, h⟩ := bind_eq_ok h
      cases h
      rfl
  | other =>
      cases h
      rfl

/-- **The styles of an event** stand behind as many styles of attributes as there are attributes
yielded with the events before it. -/
theorem exists_styleStep {fault : Option Nat} {before after : List Event} {e : Event}
    {current : Option OpenStyle}
    (h : xml.stylesFrom document fault current (before ++ e :: after) = .ok styles) :
    ∃ open₁ open₂ earlier these later, styles = earlier ++ (these ++ later) ∧
      xml.styleStep document open₁ e = .ok (open₂, these) ∧
      (attributeStylesOf earlier).length = (before.map Event.styleCount).sum := by
  induction before generalizing current styles with
  | nil =>
      obtain ⟨⟨next, these⟩, hstep, h⟩ := bind_eq_ok h
      obtain ⟨later, -, h⟩ := bind_eq_ok h
      cases h
      exact ⟨current, next, [], these, later, rfl, hstep, rfl⟩
  | cons d before ih =>
      obtain ⟨⟨next, first⟩, hfirst, h⟩ := bind_eq_ok h
      obtain ⟨others, hothers, h⟩ := bind_eq_ok h
      cases h
      obtain ⟨open₁, open₂, earlier, these, later, rfl, hstep, hcount⟩ := ih hothers
      refine ⟨open₁, open₂, first ++ earlier, these, later, by rw [List.append_assoc], hstep, ?_⟩
      rw [attributeStylesOf, List.filter_append, List.length_append, List.map_cons, List.sum_cons]
      exact congrArg₂ (· + ·) (length_styleStep hfirst) hcount

/-- Start tags and those of empty elements have their styles alike. -/
theorem exists_attributeStyles {current current' : Option OpenStyle} {e : Event} {tag : Tag}
    (htag : e.tag? = some (tag, stop))
    (h : xml.styleStep document current e = .ok (current', styles)) :
    ∃ element, xml.attributeStyles document element stop tag.attributes = .ok styles := by
  cases e with
  | startTag tag stop | emptyTag tag stop =>
      cases htag
      obtain ⟨element, -, h⟩ := bind_eq_ok h
      obtain ⟨these, hthese, h⟩ := bind_eq_ok h
      cases h
      exact ⟨element, hthese⟩
  | _ => cases htag

/-- **The style that is reported for an attribute** of a tag: among the styles of attributes it
stands behind those of the events before the tag and of the attributes yielded before it. -/
theorem exists_reports {fault : Option Nat} {before after : List Event} {e : Event} {tag : Tag}
    {current : Option OpenStyle} {earlier later : List (Option Attribute)} {a : Attribute}
    (h : xml.stylesFrom document fault current (before ++ e :: after) = .ok styles)
    (htag : e.tag? = some (tag, stop)) (hyields : tag.attributes = earlier ++ some a :: later)
    (hkey : a.key = word "style") :
    ∃ s, (attributeStylesOf styles)[(before.map Event.styleCount).sum + earlier.countP isStyle]? =
      some s ∧ s.Reports xml document stop a.value := by
  obtain ⟨open₁, open₂, front, these, behind, rfl, hstep, hcount⟩ := exists_styleStep h
  obtain ⟨element, hthese⟩ := exists_attributeStyles htag hstep
  have hstyle : isStyle (some a) = true := beq_iff_eq.2 hkey
  have hreports := reports_attributeStyles hthese
  rw [hyields, List.filter_append, List.filter_cons_of_pos hstyle] at hreports
  -- The styles of the attributes before it come first.
  obtain ⟨s, others, ⟨b, hb, hs⟩, -, hdrop⟩ :=
    List.forall₂_cons_left_iff.1 (List.forall₂_drop_append _ _ _ hreports.flip).flip
  cases hb
  refine ⟨s, ?_, hs⟩
  have hget : these[(earlier.filter isStyle).length]? = some s := by
    rw [← List.head?_drop, hdrop, List.head?_cons]
  rw [← hcount, List.countP_eq_length_filter, attributeStylesOf, List.filter_append,
    List.filter_append]
  change (attributeStylesOf front ++ (attributeStylesOf these ++ attributeStylesOf behind))[_]? = _
  rw [attributeStylesOf_attributeStyles hthese, List.getElem?_append_right (Nat.le_add_right _ _),
    Nat.add_sub_cancel_left, List.getElem?_append_left (List.getElem?_eq_some_iff.1 hget).1, hget]

end XmlLibrary

end EpubStyle.Markup
