import EpubStyle.Proofs.Text.Case
import EpubStyle.Text.Escape

/-!
# The weight of a text

Blanks and semicolons weigh nothing, every other character weighs one. What a scanner makes of a
text is never heavier than the text itself and never longer, and if it is as heavy it is as long:
this is `Shrinks`, which is kept when texts are joined (`Shrinks.append`). A text is `Guarded` if
every exclamation mark in it stands right behind a backslash, as it does in names.

An escape is decoded to a single character or kept as it is written (`Escape.shrinks_render`).
-/

set_option autoImplicit false

namespace EpubStyle.Text

/-- The character weighs nothing. -/
def isWeightless (c : Char) : Bool := isBlank c || c == ';'

/-- The number of characters that weigh something. -/
def weight (cs : List Char) : Nat := cs.countP (fun c => !isWeightless c)

@[simp] theorem weight_nil : weight [] = 0 := rfl

@[simp] theorem weight_append (cs ds : List Char) : weight (cs ++ ds) = weight cs + weight ds :=
  List.countP_append

theorem weight_cons (c : Char) (cs : List Char) :
    weight (c :: cs) = (if isWeightless c then 0 else 1) + weight cs := by
  cases h : isWeightless c <;> simp [weight, h, Nat.add_comm]

theorem weight_le_length (cs : List Char) : weight cs ≤ cs.length := List.countP_le_length

theorem weight_eq_zero_iff {cs : List Char} :
    weight cs = 0 ↔ ∀ c ∈ cs, isWeightless c = true := by
  simp [weight, List.countP_eq_zero]

/-- Blanks weigh nothing. -/
theorem weight_of_isBlank {cs : List Char} (h : ∀ c ∈ cs, isBlank c = true) : weight cs = 0 :=
  weight_eq_zero_iff.2 (fun c hc => by simp [isWeightless, h c hc])

theorem isBlank_of_isWeightless {c : Char} (h : isWeightless c = false) : isBlank c = false := by
  rw [isWeightless, Bool.or_eq_false_iff] at h
  exact h.1

/-! ## Case does not matter -/

/-- The characters that weigh nothing. -/
theorem mem_of_isWeightless {c : Char} (h : isWeightless c = true) :
    c ∈ [' ', '\t', '\r', '\n', '\x0c', ';'] := by
  simp only [isWeightless, isBlank, isLineBreak, Bool.or_eq_true, beq_iff_eq] at h
  rcases h with ((rfl | rfl) | (rfl | rfl) | rfl) | rfl <;> simp

/-- A character of a class that leaves them out. -/
theorem isWeightless_of_class {p : Char → Bool}
    (hp : [' ', '\t', '\r', '\n', '\x0c', ';'].any p = false) {c : Char} (h : p c = true) :
    isWeightless c = false := by
  rw [← Bool.not_eq_true]
  intro hc
  exact List.any_eq_false.1 hp c (mem_of_isWeightless hc) h

/-- They come before the letters. -/
theorem toNat_lt_of_isWeightless {c : Char} (h : isWeightless c = true) : c.toNat < 65 := by
  have hmem := mem_of_isWeightless h
  simp only [List.mem_cons, List.not_mem_nil, or_false] at hmem
  rcases hmem with rfl | rfl | rfl | rfl | rfl | rfl <;> decide

theorem isWeightless_toLower (c : Char) : isWeightless c.toLower = isWeightless c := by
  unfold Char.toLower
  split
  · next h =>
      have hlow : 65 ≤ c.toNat := h.1
      have hshift : (32 : UInt32).toNat = 32 := rfl
      have hsum : (c.val + 32).toNat = (c.val.toNat + 32) % 2 ^ 32 := by
        rw [UInt32.toNat_add, hshift]
      have hhigh : c.val.toNat ≤ 90 := h.2
      have hraised : 65 ≤ (c.val + 32).toNat := by
        have hval : c.toNat = c.val.toNat := rfl
        omega
      rw [Bool.eq_iff_iff]
      constructor
      · intro hc
        exact absurd (toNat_lt_of_isWeightless hc) (Nat.not_lt.2 hraised)
      · intro hc
        exact absurd (toNat_lt_of_isWeightless hc) (Nat.not_lt.2 hlow)
  · rfl

theorem weight_map_toLower (cs : List Char) : weight (cs.map Char.toLower) = weight cs := by
  simp [weight, List.countP_map, Function.comp_def, isWeightless_toLower]

/-! ## Where weight starts -/

/-- The text starts with a character that weighs something. -/
def Solid (text : List Char) : Prop := ∃ c cs, text = c :: cs ∧ isWeightless c = false

theorem Solid.append {text : List Char} (h : Solid text) (more : List Char) :
    Solid (text ++ more) := by
  obtain ⟨c, cs, rfl, hc⟩ := h
  exact ⟨c, cs ++ more, rfl, hc⟩

/-- Texts that agree up to case start with characters of the same weight. -/
theorem Solid.congr {text text' : List Char} (h : Solid text)
    (heq : text'.map Char.toLower = text.map Char.toLower) : Solid text' := by
  obtain ⟨c, cs, rfl, hc⟩ := h
  cases text' with
  | nil => cases heq
  | cons d ds =>
      refine ⟨d, ds, rfl, ?_⟩
      rw [← isWeightless_toLower, (List.cons.inj heq).1, isWeightless_toLower, hc]

/-- A text from its first character that weighs something. -/
def core (cs : List Char) : List Char := cs.dropWhile isWeightless

theorem exists_append_core (cs : List Char) :
    ∃ front, cs = front ++ core cs ∧ weight front = 0 :=
  ⟨cs.takeWhile isWeightless, List.takeWhile_append_dropWhile.symm,
    weight_eq_zero_iff.2 (fun _ hc => List.all_eq_true.1 List.all_takeWhile _ hc)⟩

theorem weight_core (cs : List Char) : weight (core cs) = weight cs := by
  obtain ⟨front, hcs, hfront⟩ := exists_append_core cs
  have hsum := congrArg weight hcs
  rw [weight_append, hfront, Nat.zero_add] at hsum
  exact hsum.symm

/-- What weighs nothing may be dropped from the front. -/
theorem core_append_of_weight {cs : List Char} (h : weight cs = 0) (ds : List Char) :
    core (cs ++ ds) = core ds := by
  induction cs with
  | nil => rfl
  | cons c cs ih =>
      have hall := weight_eq_zero_iff.1 h
      have hc := hall c (List.mem_cons_self ..)
      have hcs := weight_eq_zero_iff.2 (fun d hd => hall d (List.mem_cons_of_mem _ hd))
      rw [← ih hcs]
      simp [core, hc]

theorem core_of_solid {cs : List Char} (h : Solid cs) : core cs = cs := by
  obtain ⟨c, ds, rfl, hc⟩ := h
  simp [core, hc]

/-- What stands behind a character that weighs something stays. -/
theorem core_append {cs : List Char} (h : weight cs ≠ 0) (ds : List Char) :
    core (cs ++ ds) = core cs ++ ds := by
  induction cs with
  | nil => exact absurd rfl h
  | cons c cs ih =>
      cases hc : isWeightless c with
      | false => simp [core, hc]
      | true =>
          have hcs : weight cs ≠ 0 := by
            rw [weight_cons, hc] at h
            simpa using h
          simpa [core, hc] using ih hcs

/-- If two texts start with parts of the same weight and the second part is nothing but characters
that weigh something, the first part has more only of what weighs nothing. -/
theorem exists_extra {as bs cs ds : List Char} (heq : as ++ bs = cs ++ ds)
    (hweight : weight as = weight cs) (hsolid : weight cs = cs.length) :
    ∃ extra, as = cs ++ extra ∧ ds = extra ++ bs ∧ weight extra = 0 := by
  obtain ⟨more, rfl, rfl⟩ | ⟨extra, rfl, rfl⟩ := List.append_eq_append_iff.1 heq
  · have hle := weight_le_length as
    rw [List.length_append] at hsolid
    obtain rfl := List.eq_nil_of_length_eq_zero (l := more) (by omega)
    exact ⟨[], by simp, rfl, rfl⟩
  · rw [weight_append] at hweight
    exact ⟨extra, rfl, rfl, by omega⟩

/-! ## Texts that shrink -/

/-- The first text is neither heavier nor longer than the second, and shorter only if it is
lighter. -/
structure Shrinks (text raw : List Char) : Prop where
  weight_le : weight text ≤ weight raw
  length_le : text.length ≤ raw.length
  length_eq : weight text = weight raw → text.length = raw.length

namespace Shrinks

@[simp] theorem refl (cs : List Char) : Shrinks cs cs :=
  ⟨Nat.le_refl _, Nat.le_refl _, fun _ => rfl⟩

theorem append {text raw text' raw' : List Char} (h : Shrinks text raw)
    (h' : Shrinks text' raw') : Shrinks (text ++ text') (raw ++ raw') := by
  refine ⟨?_, ?_, fun heq => ?_⟩
  · simpa using Nat.add_le_add h.weight_le h'.weight_le
  · simpa using Nat.add_le_add h.length_le h'.length_le
  · simp only [weight_append] at heq
    have hle := h.weight_le
    have hle' := h'.weight_le
    simp [h.length_eq (by omega), h'.length_eq (by omega)]

/-- What is lighter need only not be longer. -/
theorem ofLighter {text raw : List Char} (hweight : weight text < weight raw)
    (hlength : text.length ≤ raw.length) : Shrinks text raw :=
  ⟨Nat.le_of_lt hweight, hlength, fun heq => absurd heq (Nat.ne_of_lt hweight)⟩

/-- Texts that agree up to case shrink to the same. -/
theorem congr {text text' raw : List Char} (h : Shrinks text raw)
    (heq : text'.map Char.toLower = text.map Char.toLower) : Shrinks text' raw := by
  have hweight : weight text' = weight text := by
    rw [← weight_map_toLower text', heq, weight_map_toLower]
  have hlength : text'.length = text.length := by
    rw [← List.length_map (f := Char.toLower), heq, List.length_map]
  exact ⟨hweight ▸ h.weight_le, hlength ▸ h.length_le,
    fun h' => hlength ▸ h.length_eq (hweight ▸ h')⟩

end Shrinks

/-! ## Guarded texts -/

/-- Every exclamation mark stands right behind a backslash. -/
def Guarded (cs : List Char) : Prop :=
  ∀ before after, cs = before ++ '!' :: after → before.getLast? = some '\\'

theorem guarded_of_not_mem {cs : List Char} (h : '!' ∉ cs) : Guarded cs := by
  rintro before after rfl
  simp at h

theorem Guarded.append {cs ds : List Char} (h : Guarded cs) (h' : Guarded ds) :
    Guarded (cs ++ ds) := by
  intro before after heq
  obtain ⟨rest, rfl, hrest⟩ | ⟨rest, rfl, hrest⟩ := List.append_eq_append_iff.1 heq
  · have hbefore := h' rest after hrest
    rw [List.getLast?_append, hbefore]
    rfl
  · cases rest with
    | nil =>
        have hnil := h' [] after hrest.symm
        simp at hnil
    | cons c rest =>
        obtain ⟨rfl, -⟩ := List.cons.inj hrest
        exact h before rest rfl

/-! ## Escapes -/

namespace Escape

/-- The blank that ends the digits of an escape stands at the front of the text. -/
theorem closingBlank_prefix (cs : List Char) :
    (∃ rest, cs = closingBlank cs ++ rest) ∧ ∀ c ∈ closingBlank cs, isBlank c = true := by
  unfold closingBlank
  split
  · exact ⟨⟨_, rfl⟩, by simp [isBlank, isLineBreak]⟩
  · next c cs hne =>
      split
      · next h => exact ⟨⟨cs, rfl⟩, by simpa using h⟩
      · exact ⟨⟨c :: cs, rfl⟩, by simp⟩
  · exact ⟨⟨[], rfl⟩, by simp⟩

/-- What is written behind a backslash: the character itself, or digits and blanks. -/
inductive Writing (e : Escape) : Prop
  | character (hwritten : e.written = [e.character])
  | digits (digits blank : List Char) (hwritten : e.written = digits ++ blank)
      (hdigits : digits ≠ []) (hhex : ∀ c ∈ digits, isHexDigit c = true)
      (hblank : ∀ c ∈ blank, isBlank c = true)

theorem written_of_decode {cs : List Char} {e : Escape} (h : decode cs = .escape e) :
    (∃ rest, cs = e.written ++ rest) ∧ e.Writing := by
  cases cs with
  | nil => simp [decode] at h
  | cons c cs =>
      simp only [decode] at h
      split at h
      · cases h
      · split at h
        · next hhex =>
            let digits := ((c :: cs).take 6).takeWhile isHexDigit
            have hwritten (ds blank : List Char) : (ofDigits ds blank).written = ds ++ blank := by
              unfold ofDigits
              split <;> rfl
            have hdigits : digits <+: c :: cs :=
              (List.takeWhile_prefix _).trans (List.take_prefix _ _)
            obtain ⟨⟨rest, hrest⟩, hblank⟩ :=
              closingBlank_prefix ((c :: cs).drop digits.length)
            obtain rfl := (Reading.escape.inj h).symm
            refine ⟨⟨rest, ?_⟩, .digits digits _ (hwritten _ _) ?_ ?_ hblank⟩
            · rw [hwritten, List.append_assoc, ← hrest]
              exact (List.prefix_iff_eq_append.1 hdigits).symm
            · simp [digits, hhex]
            · intro d hd
              exact List.all_eq_true.1 List.all_takeWhile d hd
        · obtain rfl := (Reading.escape.inj h).symm
          exact ⟨⟨cs, rfl⟩, .character rfl⟩

/-- What is written behind a backslash stands at the front of the text. -/
theorem written_of_read {cs : List Char} {e : Escape} (h : Escape.read cs = .escape e) :
    (∃ rest, cs = e.written ++ rest) ∧ e.Writing := by
  obtain ⟨⟨rest, hrest⟩, hwritten⟩ := written_of_decode h
  refine ⟨⟨rest ++ cs.drop window, ?_⟩, hwritten⟩
  rw [← List.append_assoc, ← hrest, List.take_append_drop]

/-- Hexadecimal digits weigh something. -/
theorem weightless_of_isHexDigit {c : Char} (h : isHexDigit c = true) : isWeightless c = false :=
  isWeightless_of_class rfl h

/-- An escape is lighter once it is decoded, and otherwise stays as it is written. -/
theorem shrinks_render {cs : List Char} {e : Escape} (h : Escape.read cs = .escape e)
    {literal : Char → Bool} (hliteral : ∀ c, literal c = true → isWeightless c = false) :
    Shrinks (e.render literal) e.sequence := by
  unfold render
  split
  · next hdecoded =>
      have hcharacter := hliteral e.character (by simp_all)
      have hback : isWeightless '\\' = false := by decide
      cases (written_of_read h).2 with
      | character hwritten =>
          apply Shrinks.ofLighter <;> simp [sequence, hwritten, weight_cons, hcharacter, hback]
      | digits digits blank hwritten hdigits hhex _ =>
          -- The backslash and the first digit outweigh the character.
          obtain ⟨d, digits, rfl⟩ := List.exists_cons_of_ne_nil hdigits
          have hd := weightless_of_isHexDigit (hhex d (List.mem_cons_self ..))
          apply Shrinks.ofLighter
          · simp only [sequence, hwritten, List.cons_append, weight_cons, hcharacter, hback, hd,
              weight_nil, Bool.false_eq_true, if_false]
            omega
          · simp [sequence]
  · exact .refl _

theorem guarded_sequence {cs : List Char} {e : Escape} (h : Escape.read cs = .escape e) :
    Guarded e.sequence := by
  cases (written_of_read h).2 with
  | character hwritten =>
      intro before after heq
      rw [sequence, hwritten] at heq
      cases before with
      | nil => simp at heq
      | cons b before =>
          obtain ⟨rfl, htail⟩ := List.cons.inj heq
          cases before with
          | nil => rfl
          | cons b' before => simp at htail
  | digits digits blank hwritten _ hhex hblank =>
      apply guarded_of_not_mem
      intro hmem
      simp only [sequence, hwritten, List.mem_cons, List.mem_append] at hmem
      rcases hmem with hmem | hmem | hmem
      · cases hmem
      · exact absurd (hhex _ hmem) (by decide)
      · exact absurd (hblank _ hmem) (by decide)

end Escape

end EpubStyle.Text
