import Mathlib.Data.List.TakeWhile
import EpubStyle.Proofs.Bytes.Encoders
import EpubStyle.Proofs.Markup.Tags

/-!
# Where the value of an attribute is found

The place of the value of a `style` attribute is found by going through the bytes of the tag once
more. Quoted text is passed over, and the key must stand behind white space. In a written tag this
finds the value of the first `style` attribute with white space before it, and nothing if there is
none (`WrittenTag.found_eq_iff_isFirstSpaced`).

The tag is taken to begin at the last bracket before its end. If a value holds a bracket that is
inside the tag, and the search sees as quoted what is not and the other way round: a byte acts on
whether a place is quoted as a permutation (`quotes_injective`), so two searches that differ at one
place differ at every later one. What is found then is never the value
(`WrittenTag.found_eq_iff`).
-/

set_option autoImplicit false

namespace EpubStyle.Markup

/-! ## Quoted places -/

/-- The quotation mark that is open behind a byte. -/
def quoteStep (quote : Option UInt8) (b : UInt8) : Option UInt8 :=
  match quote with
  | some q => if b == q then none else some q
  | none => if isQuote b then some b else none

/-- The quotation mark that is open behind bytes. -/
def quotes (quote : Option UInt8) (bytes : List UInt8) : Option UInt8 := bytes.foldl quoteStep quote

theorem quotes_append (quote : Option UInt8) (xs ys : List UInt8) :
    quotes quote (xs ++ ys) = quotes (quotes quote xs) ys :=
  List.foldl_append

/-- What is open is a quotation mark. -/
def IsMark (quote : Option UInt8) : Prop := ∀ q ∈ quote, isQuote q = true

theorem isMark_none : IsMark none := by simp [IsMark]

theorem IsMark.step {quote : Option UInt8} (h : IsMark quote) (b : UInt8) :
    IsMark (quoteStep quote b) := by
  cases quote with
  | none =>
      simp only [quoteStep]
      split
      · next hb => simpa [IsMark] using hb
      · exact isMark_none
  | some q =>
      simp only [quoteStep]
      split
      · exact isMark_none
      · exact h

/-- One byte takes different marks to different ones. -/
theorem IsMark.step_injective {s t : Option UInt8} (hs : IsMark s) (ht : IsMark t) {b : UInt8}
    (h : quoteStep s b = quoteStep t b) : s = t := by
  cases s with
  | none =>
      cases t with
      | none => rfl
      | some q =>
          have hq := ht q rfl
          simp only [quoteStep] at h
          split at h <;> split at h <;> simp_all
  | some p =>
      have hp := hs p rfl
      cases t with
      | none =>
          simp only [quoteStep] at h
          split at h <;> split at h <;> simp_all
      | some q =>
          simp only [quoteStep] at h
          split at h <;> split at h <;> simp_all

theorem IsMark.quotes {quote : Option UInt8} (h : IsMark quote) (bytes : List UInt8) :
    IsMark (quotes quote bytes) := by
  induction bytes generalizing quote with
  | nil => exact h
  | cons b bytes ih => exact ih (h.step b)

/-- **Places that are quoted differently remain so.** -/
theorem quotes_injective {s t : Option UInt8} (hs : IsMark s) (ht : IsMark t) {bytes : List UInt8}
    (h : quotes s bytes = quotes t bytes) : s = t := by
  induction bytes generalizing s t with
  | nil => exact h
  | cons b bytes ih => exact hs.step_injective ht (ih (hs.step b) (ht.step b) h)

/-- Nothing is opened where there are no quotation marks. -/
theorem quotes_none {bytes : List UInt8} (h : ∀ b ∈ bytes, isQuote b = false) :
    quotes none bytes = none := by
  induction bytes with
  | nil => rfl
  | cons b bytes ih =>
      obtain ⟨hb, hbytes⟩ := List.forall_mem_cons.1 h
      rw [quotes, List.foldl_cons, quoteStep, hb]
      exact ih hbytes

/-- What is open remains so up to the next mark of its kind. -/
theorem quotes_some {q : UInt8} {bytes : List UInt8} (h : q ∉ bytes) :
    quotes (some q) bytes = some q := by
  induction bytes with
  | nil => rfl
  | cons b bytes ih =>
      simp only [List.mem_cons, not_or] at h
      rw [quotes, List.foldl_cons, quoteStep, if_neg (by simpa using Ne.symm h.1)]
      exact ih h.2

/-! ## What is found -/

theorem isQuote_of_mem_style : ∀ b ∈ word "style", isQuote b = false := by decide +kernel

theorem isQuote_eq_false_of_isTagSpace {b : UInt8} (h : isTagSpace b = true) :
    isQuote b = false := by
  rw [← Bool.not_eq_true]
  intro hquote
  simp only [isQuote, Bool.or_eq_true, beq_iff_eq] at hquote
  rcases hquote with rfl | rfl <;> revert h <;> decide

/-- White space at the front of bytes, and what stands behind it. -/
theorem takeWhile_append_drop {bytes more : List UInt8} {b : UInt8}
    (h : bytes.drop (bytes.takeWhile isTagSpace).length = b :: more) :
    bytes = bytes.takeWhile isTagSpace ++ b :: more := by
  rw [← h]
  exact (List.prefix_iff_eq_append.1 (List.takeWhile_prefix _)).symm

theorem isQuote_takeWhile (bytes : List UInt8) :
    ∀ b ∈ bytes.takeWhile isTagSpace, isQuote b = false :=
  fun _ hb => isQuote_eq_false_of_isTagSpace (List.mem_takeWhile_imp hb)

/-- A quoted value stands behind a mark, and no mark stands between it and the key. -/
theorem quotedValueOffset_eq_some {bytes : List UInt8} {n : Nat}
    (h : quotedValueOffset bytes = some n) :
    ∃ plain q more, bytes = plain ++ q :: more ∧ (∀ b ∈ plain, isQuote b = false) ∧
      isQuote q = true ∧ n = plain.length + 1 := by
  unfold quotedValueOffset at h
  simp only at h
  split at h
  · cases h
  next x rest hrest =>
  split at h
  case isFalse => cases h
  case isTrue hsign =>
  split at h
  case isFalse => cases h
  case isTrue hquote =>
  obtain ⟨q, more, hmore, hq⟩ : ∃ q more,
      rest.drop (rest.takeWhile isTagSpace).length = q :: more ∧ isQuote q = true := by
    cases hdrop : rest.drop (rest.takeWhile isTagSpace).length with
    | nil => simp [hdrop] at hquote
    | cons q more => exact ⟨q, more, rfl, by simpa [hdrop] using hquote⟩
  rw [beq_iff_eq] at hsign
  refine ⟨bytes.takeWhile isTagSpace ++ x :: rest.takeWhile isTagSpace, q, more, ?_, ?_, hq, ?_⟩
  · rw [List.append_assoc, List.cons_append, ← takeWhile_append_drop hmore]
    exact takeWhile_append_drop hrest
  · intro b hb
    rcases List.mem_append.1 hb with hb | hb
    · exact isQuote_takeWhile _ b hb
    · rcases List.mem_cons.1 hb with rfl | hb
      · rw [hsign]
        decide
      · exact isQuote_takeWhile _ b hb
  · rw [← Option.some.inj h, List.length_append, List.length_cons]
    omega

theorem quotedValueOffset_written {before behind more : List UInt8} {quote : UInt8}
    (hbefore : ∀ b ∈ before, isTagSpace b = true) (hbehind : ∀ b ∈ behind, isTagSpace b = true)
    (hquote : isQuote quote = true) :
    quotedValueOffset (before ++ byte '=' :: (behind ++ quote :: more)) =
      some (before.length + behind.length + 2) := by
  have hsign : ¬ isTagSpace (byte '=') = true := by decide
  have hspace : ¬ isTagSpace quote = true := by
    intro hspace
    rw [isQuote_eq_false_of_isTagSpace hspace] at hquote
    cases hquote
  simp only [quotedValueOffset, List.takeWhile_append_of_pos hbefore,
    List.takeWhile_cons_of_neg hsign, List.append_nil, List.drop_left,
    List.takeWhile_append_of_pos hbehind, List.takeWhile_cons_of_neg hspace, List.head?_cons,
    Option.any_some, hquote, beq_self_eq_true, if_true, Option.some.injEq]
  omega

/-- **What is found stands behind a mark that opens a value**, if marks are counted from where the
search began. -/
theorem valueOffset_eq_some {name : List UInt8} (hname : ∀ b ∈ name, isQuote b = false)
    {previous quote : Option UInt8} {offset n : Nat} {bytes : List UInt8}
    (h : valueOffset name previous quote offset bytes = some n) :
    ∃ front q more, bytes = front ++ q :: more ∧ quotes quote front = none ∧ isQuote q = true ∧
      n = offset + front.length + 1 := by
  -- What is found from the next byte on is found from here.
  have hcons : ∀ {quote : Option UInt8} {offset : Nat} {b : UInt8} {bs : List UInt8},
      (∃ front q more, bs = front ++ q :: more ∧ quotes (quoteStep quote b) front = none ∧
        isQuote q = true ∧ n = offset + 1 + front.length + 1) →
      ∃ front q more, b :: bs = front ++ q :: more ∧ quotes quote front = none ∧
        isQuote q = true ∧ n = offset + front.length + 1 := by
    rintro quote offset b bs ⟨front, q, more, rfl, hfront, hq, hn⟩
    refine ⟨b :: front, q, more, rfl, hfront, hq, ?_⟩
    rw [hn, List.length_cons]
    omega
  fun_induction valueOffset name previous quote offset bytes with
  | case1 => cases h
  | case2 previous offset b bs q ih => exact hcons (ih h)
  | case3 previous offset b bs hb ih => exact hcons (by simpa [quoteStep, hb] using ih h)
  | case4 previous offset b bs hb hsight m hm =>
      rw [Bool.and_eq_true, List.isPrefixOf_iff_prefix] at hsight
      obtain ⟨rest, hrest⟩ := hsight.2
      rw [← hrest, List.drop_left] at hm
      obtain ⟨plain, q, more, rfl, hplain, hq, rfl⟩ := quotedValueOffset_eq_some hm
      refine ⟨name ++ plain, q, more, by rw [← hrest, List.append_assoc], quotes_none ?_, hq, ?_⟩
      · exact List.forall_mem_append.2 ⟨hname, hplain⟩
      · rw [← Option.some.inj h, List.length_append]
        omega
  | case5 previous offset b bs hb hsight hm ih => exact hcons (by simpa [quoteStep, hb] using ih h)
  | case6 previous offset b bs hb hsight ih => exact hcons (by simpa [quoteStep, hb] using ih h)

/-! ## What is passed over -/

section

variable {previous : Option UInt8} {offset : Nat} {front more : List UInt8}

/-- The byte before a place behind bytes. -/
def lastByte (previous : Option UInt8) (bytes : List UInt8) : Option UInt8 :=
  bytes.getLast?.or previous

/-- A byte that begins no key is passed over. -/
theorem valueOffset_cons {b : UInt8} (hquote : isQuote b = false)
    (hb : b ≠ byte 's' ∨ previous.any isTagSpace = false) :
    valueOffset (word "style") previous none offset (b :: more) =
      valueOffset (word "style") (some b) none (offset + 1) more := by
  have hsight : (previous.any isTagSpace && (word "style").isPrefixOf (b :: more)) = false := by
    rcases hb with hb | hb
    · have hword : (word "style").isPrefixOf (b :: more) =
          (byte 's' == b && (word "tyle").isPrefixOf more) := rfl
      rw [hword, beq_eq_false_iff_ne.2 (Ne.symm hb), Bool.false_and, Bool.and_false]
    · rw [hb, Bool.false_and]
  rw [valueOffset]
  simp [hquote, hsight]

theorem lastByte_cons (previous : Option UInt8) (b : UInt8) (bytes : List UInt8) :
    lastByte previous (b :: bytes) = lastByte (some b) bytes := by
  rw [lastByte, lastByte, List.getLast?_cons]
  cases bytes.getLast? <;> rfl

/-- Where no key begins, everything up to a quotation mark is passed over. -/
theorem valueOffset_plain (h : ∀ b ∈ front, isQuote b = false ∧ b ≠ byte 's') :
    valueOffset (word "style") previous none offset (front ++ more) =
      valueOffset (word "style") (lastByte previous front) none (offset + front.length) more := by
  induction front generalizing previous offset with
  | nil => rfl
  | cons b front ih =>
      obtain ⟨⟨hquote, hb⟩, hfront⟩ := List.forall_mem_cons.1 h
      rw [List.cons_append, valueOffset_cons hquote (.inl hb), ih hfront, lastByte_cons,
        List.length_cons, Nat.add_right_comm, Nat.add_assoc]

/-- No white space is in a name. -/
theorem lastByte_name (h : ∀ b ∈ front, isNameByte b = true)
    (hprevious : previous.any isTagSpace = false) :
    (lastByte previous front).any isTagSpace = false := by
  cases hlast : front.getLast? with
  | none => simpa [lastByte, hlast] using hprevious
  | some b =>
      have hb := h b (List.mem_of_getLast? hlast)
      simp only [isNameByte, Bool.and_eq_true, Bool.not_eq_true'] at hb
      simpa [lastByte, hlast] using hb.1.1.1

/-- A name is passed over that does not stand behind white space. -/
theorem valueOffset_name (h : ∀ b ∈ front, isNameByte b = true)
    (hprevious : previous.any isTagSpace = false) :
    valueOffset (word "style") previous none offset (front ++ more) =
      valueOffset (word "style") (lastByte previous front) none (offset + front.length) more := by
  induction front generalizing previous offset with
  | nil => rfl
  | cons b front ih =>
      obtain ⟨hb, hfront⟩ := List.forall_mem_cons.1 h
      simp only [isNameByte, Bool.and_eq_true, Bool.not_eq_true'] at hb
      have hspace : (some b).any isTagSpace = false := hb.1.1.1
      rw [List.cons_append, valueOffset_cons hb.1.1.2 (.inr hprevious), ih hfront hspace,
        lastByte_cons, List.length_cons, Nat.add_right_comm, Nat.add_assoc]

/-- Quoted text is passed over. -/
theorem valueOffset_quoted {q : UInt8} (h : q ∉ front) :
    valueOffset (word "style") previous (some q) offset (front ++ q :: more) =
      valueOffset (word "style") (some q) none (offset + front.length + 1) more := by
  induction front generalizing previous offset with
  | nil => simp [valueOffset]
  | cons b front ih =>
      simp only [List.mem_cons, not_or] at h
      have hb : (b == q) = false := beq_eq_false_iff_ne.2 (Ne.symm h.1)
      rw [List.cons_append, valueOffset, hb]
      simp only [Bool.false_eq_true, if_false]
      rw [ih h.2, List.length_cons, Nat.add_right_comm offset 1, Nat.add_assoc offset]

end

/-! ## Attributes that are passed over -/

namespace WrittenAttribute

variable (a : WrittenAttribute) {previous : Option UInt8} {offset : Nat} {more : List UInt8}

theorem isTagSpace_of_isSpace {b : UInt8} (h : isSpace b = true) : isTagSpace b = true := by
  simp [isTagSpace, h]

/-- White space is plain, and so is an equals sign. -/
theorem plain_of_isSpace {b : UInt8} (h : isSpace b = true) : isQuote b = false ∧ b ≠ byte 's' := by
  refine ⟨isQuote_eq_false_of_isTagSpace (isTagSpace_of_isSpace h), ?_⟩
  rintro rfl
  revert h
  decide

/-- Behind its key an attribute is passed over. -/
theorem valueOffset_behind_key :
    valueOffset (word "style") previous none offset
        (a.before ++ byte '=' :: (a.behind ++ a.quote :: (a.value ++ a.quote :: more))) =
      valueOffset (word "style") (some a.quote) none
        (offset + (a.before.length + a.behind.length + a.value.length + 3)) more := by
  have hplain : ∀ b ∈ a.before ++ byte '=' :: a.behind, isQuote b = false ∧ b ≠ byte 's' := by
    intro b hb
    rcases List.mem_append.1 hb with hb | hb
    · exact plain_of_isSpace (a.before_space b hb)
    · rcases List.mem_cons.1 hb with rfl | hb
      · exact ⟨by decide, by decide⟩
      · exact plain_of_isSpace (a.behind_space b hb)
  have hsplit : a.before ++ byte '=' :: (a.behind ++ a.quote :: (a.value ++ a.quote :: more)) =
      (a.before ++ byte '=' :: a.behind) ++ a.quote :: (a.value ++ a.quote :: more) := by simp
  rw [hsplit, valueOffset_plain hplain, valueOffset, if_pos a.isQuote_quote,
    valueOffset_quoted a.quote_not_mem, List.length_append, List.length_cons]
  congr 1
  omega

/-- What stands behind a key is no byte of a name. -/
theorem exists_behind_key (tail : List UInt8) :
    ∃ b rest, a.before ++ byte '=' :: tail = b :: rest ∧ isNameByte b = false := by
  cases hbefore : a.before with
  | nil => exact ⟨_, _, rfl, by decide⟩
  | cons b before =>
      have hb := isTagSpace_of_isSpace (a.before_space b (by simp [hbefore]))
      exact ⟨b, _, rfl, by simp [isNameByte, hb]⟩

/-- No key but `style` itself is taken for it, whatever it begins with. -/
theorem quotedValueOffset_longer {tail : List UInt8} (hkey : a.key ≠ word "style")
    (h : word "style" <+: a.key ++ (a.before ++ byte '=' :: tail)) :
    quotedValueOffset ((a.key ++ (a.before ++ byte '=' :: tail)).drop (word "style").length) =
      none := by
  obtain ⟨b, rest, hbehind, hb⟩ := a.exists_behind_key tail
  rw [hbehind] at h ⊢
  obtain ⟨after, hafter⟩ := h
  rcases List.append_eq_append_iff.1 hafter with ⟨more, hmore, -⟩ | ⟨more, hmore, hrest⟩
  · -- The key goes on behind the word, so neither white space nor an equals sign follows it.
    obtain ⟨c, more, rfl⟩ : ∃ c rest, more = c :: rest := by
      cases more with
      | nil => exact absurd (by simpa using hmore) hkey
      | cons c rest => exact ⟨c, rest, rfl⟩
    have hc := a.key_name c (by simp [hmore])
    simp only [isNameByte, Bool.and_eq_true, Bool.not_eq_true', bne_iff_ne] at hc
    rw [hmore, List.append_assoc, List.drop_left, List.cons_append, quotedValueOffset]
    simp [hc.1.1.1, hc.1.2]
  · cases more with
    | nil => exact absurd (by simpa using hmore.symm) hkey
    | cons c more =>
        obtain rfl : b = c := (List.cons.inj hrest).1
        have hname : ∀ d ∈ word "style", isNameByte d = true := by decide +kernel
        rw [hname b (by simp [hmore])] at hb
        cases hb

/-- A key is passed over if it is not `style` or does not stand behind white space. -/
theorem valueOffset_key {tail : List UInt8}
    (h : a.key ≠ word "style" ∨ previous.any isTagSpace = false) :
    ∃ last, valueOffset (word "style") previous none offset
        (a.key ++ (a.before ++ byte '=' :: tail)) =
      valueOffset (word "style") last none (offset + a.key.length)
        (a.before ++ byte '=' :: tail) := by
  have hstarts := @quotedValueOffset_longer a tail
  obtain ⟨k, key, hk⟩ := List.exists_cons_of_ne_nil a.key_ne_nil
  have hname := a.key_name
  rw [hk] at h hstarts hname ⊢
  rw [List.cons_append] at hstarts ⊢
  obtain ⟨hb, hkey⟩ := List.forall_mem_cons.1 hname
  simp only [isNameByte, Bool.and_eq_true, Bool.not_eq_true'] at hb
  -- Only the first character may be where `style` begins: no other has white space before it.
  have hfirst : valueOffset (word "style") previous none offset
      (k :: (key ++ (a.before ++ byte '=' :: tail))) =
        valueOffset (word "style") (some k) none (offset + 1)
          (key ++ (a.before ++ byte '=' :: tail)) := by
    rw [valueOffset]
    simp only [hb.1.1.2, Bool.false_eq_true, if_false]
    split
    · next hsight =>
        rw [Bool.and_eq_true, List.isPrefixOf_iff_prefix] at hsight
        have hne := h.resolve_right (by simp [hsight.1])
        rw [hstarts hne hsight.2]
    · rfl
  have hspace : (some k).any isTagSpace = false := hb.1.1.1
  refine ⟨lastByte (some k) key, ?_⟩
  rw [hfirst, valueOffset_name hkey hspace, List.length_cons, Nat.add_right_comm, Nat.add_assoc]

/-- **An attribute is passed over** if it is no `style` or does not stand behind white space. -/
theorem valueOffset_passed
    (h : a.key ≠ word "style" ∨ a.gap = [] ∧ previous.any isTagSpace = false) :
    valueOffset (word "style") previous none offset (a.bytes ++ more) =
      valueOffset (word "style") (some a.quote) none (offset + a.bytes.length) more := by
  have hsplit : a.bytes ++ more = a.gap ++ (a.key ++ (a.before ++ byte '=' ::
      (a.behind ++ a.quote :: (a.value ++ a.quote :: more)))) := by
    simp [bytes, opening, introduction]
  have hkey : a.key ≠ word "style" ∨ (lastByte previous a.gap).any isTagSpace = false := by
    rcases h with hkey | ⟨hgap, hprevious⟩
    · exact .inl hkey
    · refine .inr ?_
      rw [hgap]
      exact hprevious
  obtain ⟨last, hlast⟩ := @valueOffset_key a _ (offset + a.gap.length)
    (a.behind ++ a.quote :: (a.value ++ a.quote :: more)) hkey
  rw [hsplit, valueOffset_plain fun b hb => plain_of_isSpace (a.gap_space b hb), hlast,
    valueOffset_behind_key]
  congr 1
  simp only [bytes, opening, introduction, List.length_append, List.length_cons, List.length_nil]
  omega

/-- **The value is found** behind the opening of a `style` attribute with white space before it. -/
theorem valueOffset_opening (hkey : a.key = word "style") (hgap : a.gap ≠ []) :
    valueOffset (word "style") previous none offset (a.opening ++ more) =
      some (offset + a.opening.length) := by
  have hsplit : a.opening ++ more = a.gap ++ (word "style" ++ (a.before ++ byte '=' ::
      (a.behind ++ a.quote :: more))) := by
    simp [opening, introduction, hkey]
  have hlast : (lastByte previous a.gap).any isTagSpace = true := by
    obtain ⟨b, hb⟩ := Option.isSome_iff_exists.1 (List.getLast?_isSome.2 hgap)
    have hspace := a.gap_space b (List.mem_of_getLast? hb)
    simp [lastByte, hb, isTagSpace_of_isSpace hspace]
  have hvalue : quotedValueOffset (a.before ++ byte '=' :: (a.behind ++ a.quote :: more)) =
      some (a.before.length + a.behind.length + 2) :=
    quotedValueOffset_written (fun b hb => isTagSpace_of_isSpace (a.before_space b hb))
      (fun b hb => isTagSpace_of_isSpace (a.behind_space b hb)) a.isQuote_quote
  have hfirst : word "style" = byte 's' :: word "tyle" := rfl
  have hmark : isQuote (byte 's') = false := by decide
  have hsight : ∀ tail, (word "style").isPrefixOf (word "style" ++ tail) = true := by simp
  rw [hsplit, valueOffset_plain fun b hb => plain_of_isSpace (a.gap_space b hb)]
  generalize a.before ++ byte '=' :: (a.behind ++ a.quote :: more) = tail at hvalue
  have hfound : valueOffset (word "style") (lastByte previous a.gap) none (offset + a.gap.length)
      (word "style" ++ tail) = some (offset + a.gap.length + (word "style").length +
        (a.before.length + a.behind.length + 2)) := by
    rw [hfirst, List.cons_append, valueOffset, ← List.cons_append, ← hfirst, hlast, hsight,
      List.drop_left, hvalue]
    simp [hmark]
  rw [hfound]
  simp only [opening, introduction, hkey, List.length_append, List.length_cons, List.length_nil]
  congr 1
  omega

/-- Among the attributes of a tag, of which `front` stand before it, it is the first `style`
attribute with white space before it. -/
structure IsFirstSpaced (a : WrittenAttribute) (front : List WrittenAttribute) : Prop where
  key : a.key = word "style"
  gap_ne_nil : a.gap ≠ []
  front_gap : ∀ b ∈ front, b.key = word "style" → b.gap = []

/-- There is a first such attribute, or there is none. -/
theorem exists_isFirstSpaced (as : List WrittenAttribute) :
    (∀ b ∈ as, b.key = word "style" → b.gap = []) ∨
      ∃ front a behind, as = front ++ a :: behind ∧ IsFirstSpaced a front := by
  cases hfind : as.find? (fun b => b.key == word "style" && !b.gap.isEmpty) with
  | none =>
      refine .inl fun b hb hkey => ?_
      simpa [hkey] using List.find?_eq_none.1 hfind b hb
  | some a =>
      obtain ⟨ha, front, behind, heq, hfront⟩ := List.find?_eq_some_iff_append.1 hfind
      simp only [Bool.and_eq_true, beq_iff_eq, Bool.not_eq_true', List.isEmpty_eq_false_iff] at ha
      refine .inr ⟨front, a, behind, heq, ha.1, ha.2, fun b hb hkey => ?_⟩
      simpa [hkey] using hfront b hb

end WrittenAttribute

/-! ## Whole tags -/

namespace WrittenTag

variable {t : WrittenTag} {front behind : List WrittenAttribute} {a : WrittenAttribute}

/-- Attributes in a row are passed over. -/
theorem valueOffset_passed {as : List WrittenAttribute}
    (h : ∀ a ∈ as, a.key = word "style" → a.gap = []) {previous : Option UInt8}
    (hprevious : previous.any isTagSpace = false) (offset : Nat) (more : List UInt8) :
    ∃ last, valueOffset (word "style") previous none offset
        (as.flatMap WrittenAttribute.bytes ++ more) =
        valueOffset (word "style") last none
          (offset + (as.flatMap WrittenAttribute.bytes).length) more ∧
      last.any isTagSpace = false := by
  induction as generalizing previous offset with
  | nil => exact ⟨previous, rfl, hprevious⟩
  | cons a as ih =>
      obtain ⟨ha, has⟩ := List.forall_mem_cons.1 h
      have hmark : (some a.quote).any isTagSpace = false := by
        rw [← Bool.not_eq_true]
        intro hspace
        have hquote := a.isQuote_quote
        rw [isQuote_eq_false_of_isTagSpace hspace] at hquote
        cases hquote
      obtain ⟨last, hlast, hspace⟩ := ih has hmark (offset + a.bytes.length)
      refine ⟨last, ?_, hspace⟩
      have hpassed : a.key ≠ word "style" ∨ a.gap = [] ∧ previous.any isTagSpace = false :=
        Decidable.or_iff_not_imp_left.2 fun hkey => ⟨ha (Decidable.not_not.1 hkey), hprevious⟩
      rw [List.flatMap_cons, List.append_assoc, a.valueOffset_passed hpassed, hlast,
        List.length_append, Nat.add_assoc]

/-- The search comes behind attributes of which no `style` stands behind white space. -/
theorem valueOffset_front (hfront : ∀ b ∈ front, b.key = word "style" → b.gap = [])
    (more : List UInt8) :
    ∃ last, valueOffset (word "style") none none 0
        (byte '<' :: (t.name ++ (front.flatMap WrittenAttribute.bytes ++ more))) =
        valueOffset (word "style") last none
          (1 + t.name.length + (front.flatMap WrittenAttribute.bytes).length) more := by
  have hopen : (some (byte '<')).any isTagSpace = false := by decide
  obtain ⟨last, hlast, -⟩ := valueOffset_passed hfront (lastByte_name t.name_name hopen)
    (1 + t.name.length) more
  refine ⟨last, ?_⟩
  rw [valueOffset_cons (by decide) (.inr rfl), valueOffset_name t.name_name hopen, Nat.zero_add,
    hlast]

/-- **The value is found** of the first `style` attribute with white space before it. -/
theorem valueOffset_of_isFirstSpaced (h : t.attributes = front ++ a :: behind)
    (hfirst : a.IsFirstSpaced front) :
    valueOffset (word "style") none none 0 t.bytes = some (t.upTo front a).length := by
  obtain ⟨last, hlast⟩ := valueOffset_front (t := t) hfirst.front_gap
    (a.opening ++ (a.value ++ a.quote ::
      (behind.flatMap WrittenAttribute.bytes ++ (t.trailing ++ t.close))))
  have hsplit : t.bytes = byte '<' :: (t.name ++ (front.flatMap WrittenAttribute.bytes ++
      (a.opening ++ (a.value ++ a.quote ::
        (behind.flatMap WrittenAttribute.bytes ++ (t.trailing ++ t.close)))))) := by
    rw [bytes_eq h, upTo]
    simp only [List.cons_append, List.append_assoc]
  rw [hsplit, hlast, a.valueOffset_opening hfirst.key hfirst.gap_ne_nil, upTo]
  simp only [List.length_cons, List.length_append, Option.some.injEq]
  omega

/-- **Nothing is found** if there is white space before none of them. -/
theorem valueOffset_of_no_gap (h : ∀ b ∈ t.attributes, b.key = word "style" → b.gap = []) :
    valueOffset (word "style") none none 0 t.bytes = none := by
  obtain ⟨last, hlast⟩ := valueOffset_front (t := t) h (t.trailing ++ t.close ++ [])
  have hsplit : t.bytes = byte '<' :: (t.name ++ (t.attributes.flatMap WrittenAttribute.bytes ++
      (t.trailing ++ t.close ++ []))) := by
    simp [bytes, rest]
  have hplain : ∀ b ∈ t.trailing ++ t.close, isQuote b = false ∧ b ≠ byte 's' := by
    refine List.forall_mem_append.2 ⟨fun b hb => ?_, ?_⟩
    · exact WrittenAttribute.plain_of_isSpace (t.trailing_space b hb)
    · rcases t.close_cases with hclose | hclose <;> rw [hclose] <;> decide +kernel
  rw [hsplit, hlast, valueOffset_plain hplain, valueOffset]

/-- The value of an attribute begins before those of the attributes behind it. -/
theorem length_upTo_lt {front' : List WrittenAttribute} {b : WrittenAttribute}
    (h : front' = front ++ a :: behind) : (t.upTo front a).length < (t.upTo front' b).length := by
  rw [h, upTo, upTo]
  simp only [List.flatMap_append, List.flatMap_cons, WrittenAttribute.bytes, List.length_cons,
    List.length_append]
  omega

/-- **The value that is found** is that of the first `style` attribute with white space before it,
and no other. -/
theorem found_eq_iff_isFirstSpaced (h : t.attributes = front ++ a :: behind) :
    (valueOffset (word "style") none none 0 t.bytes).getD 0 = (t.upTo front a).length ↔
      a.IsFirstSpaced front := by
  rcases WrittenAttribute.exists_isFirstSpaced t.attributes with
    hnone | ⟨front', b, behind', h', hfirst⟩
  · rw [valueOffset_of_no_gap hnone]
    have ha : a ∈ t.attributes := by simp [h]
    exact iff_of_false (Nat.ne_of_lt (Nat.succ_pos _))
      fun hsought => hsought.gap_ne_nil (hnone a ha hsought.key)
  rw [valueOffset_of_isFirstSpaced h' hfirst, Option.getD_some]
  -- The attribute that is found stands in front of the other, or is the same, or stands behind it.
  rcases Bytes.split_append (h'.symm.trans h) with ⟨c, rfl, hc⟩ | ⟨c, rfl⟩
  · cases c with
    | nil =>
        obtain ⟨rfl, -⟩ := List.cons.inj hc
        rw [List.append_nil]
        exact iff_of_true rfl hfirst
    | cons d c =>
        obtain ⟨rfl, -⟩ := List.cons.inj hc
        exact iff_of_false (Nat.ne_of_lt (length_upTo_lt rfl))
          fun hsought => hfirst.gap_ne_nil (hsought.front_gap b (by simp) hfirst.key)
  · exact iff_of_false (Nat.ne_of_gt (length_upTo_lt rfl))
      fun hsought => hsought.gap_ne_nil (hfirst.front_gap a (by simp) hsought.key)

end WrittenTag

/-! ## Brackets in values -/

/-- A byte that opens neither a quotation nor a tag. -/
def IsBare (b : UInt8) : Prop := isQuote b = false ∧ b ≠ byte '<'

theorem isBare_of_isSpace {b : UInt8} (h : isSpace b = true) : IsBare b := by
  refine ⟨(WrittenAttribute.plain_of_isSpace h).1, ?_⟩
  rintro rfl
  revert h
  decide

theorem isBare_of_isNameByte {b : UInt8} (h : isNameByte b = true) : IsBare b := by
  simp only [isNameByte, Bool.and_eq_true, Bool.not_eq_true', bne_iff_ne] at h
  exact ⟨h.1.1.2, h.2⟩

theorem quotes_bare {bytes more : List UInt8} (h : ∀ b ∈ bytes, IsBare b) :
    quotes none (bytes ++ more) = quotes none more := by
  rw [quotes_append, quotes_none fun b hb => (h b hb).1]

namespace WrittenAttribute

/-- An attribute up to its value without the mark that opens it. -/
theorem exists_opening (a : WrittenAttribute) :
    ∃ outer, a.opening = outer ++ [a.quote] ∧ ∀ b ∈ outer, IsBare b := by
  refine ⟨a.gap ++ (a.key ++ (a.before ++ byte '=' :: a.behind)),
    by simp [opening, introduction], ?_⟩
  refine List.forall_mem_append.2 ⟨fun b hb => isBare_of_isSpace (a.gap_space b hb), ?_⟩
  refine List.forall_mem_append.2 ⟨fun b hb => isBare_of_isNameByte (a.key_name b hb), ?_⟩
  refine List.forall_mem_append.2 ⟨fun b hb => isBare_of_isSpace (a.before_space b hb), ?_⟩
  exact List.forall_mem_cons.2
    ⟨⟨by decide, by decide⟩, fun b hb => isBare_of_isSpace (a.behind_space b hb)⟩

theorem quotes_opening (a : WrittenAttribute) : quotes none a.opening = some a.quote := by
  obtain ⟨outer, houter, hbare⟩ := a.exists_opening
  rw [houter, quotes_bare hbare]
  simp [quotes, quoteStep, a.isQuote_quote]

theorem quotes_bytes (a : WrittenAttribute) : quotes none a.bytes = none := by
  rw [bytes, quotes_append, quotes_append, quotes_opening, quotes_some a.quote_not_mem]
  simp [quotes, quoteStep]

theorem ne_quote (a : WrittenAttribute) : byte '<' ≠ a.quote := by
  intro heq
  have hquote := a.isQuote_quote
  rw [← heq] at hquote
  revert hquote
  decide

/-- A bracket of an attribute is in its value. -/
theorem quotes_split (a : WrittenAttribute) {x y : List UInt8} (h : a.bytes = x ++ byte '<' :: y) :
    byte '<' ∈ a.value ∧ quotes none x = some a.quote := by
  obtain ⟨outer, houter, hbare⟩ := a.exists_opening
  rw [bytes, List.append_assoc] at h
  rcases Bytes.split_append h with ⟨c, rfl, hvalue⟩ | ⟨c, hc⟩
  · rcases Bytes.split_append hvalue with ⟨d, -, hd⟩ | ⟨d, hd⟩
    · -- Behind the value there is only the mark.
      obtain rfl : d = [] := by
        cases d with
        | nil => rfl
        | cons e d => simp at hd
      exact absurd (List.cons.inj hd).1.symm a.ne_quote
    · have hmark : a.quote ∉ c := fun hmem => a.quote_not_mem (by simp [hd, hmem])
      rw [quotes_append, quotes_opening, quotes_some hmark]
      exact ⟨by simp [hd], rfl⟩
  · exfalso
    have hmem : byte '<' ∈ outer ++ [a.quote] := by simp [← houter, hc]
    rcases List.mem_append.1 hmem with hmem | hmem
    · exact (hbare _ hmem).2 rfl
    · exact a.ne_quote (List.mem_singleton.1 hmem)

end WrittenAttribute

namespace WrittenTag

variable {t : WrittenTag} {front behind : List WrittenAttribute} {a : WrittenAttribute}

theorem quotes_flatMap (as : List WrittenAttribute) (more : List UInt8) :
    quotes none (as.flatMap WrittenAttribute.bytes ++ more) = quotes none more := by
  induction as with
  | nil => rfl
  | cons a as ih => rw [List.flatMap_cons, List.append_assoc, quotes_append, a.quotes_bytes, ih]

/-- A bracket in attributes is in a value, and quoted. -/
theorem quotes_flatMap_split {as : List WrittenAttribute} {tail x y : List UInt8}
    (htail : byte '<' ∉ tail)
    (h : as.flatMap WrittenAttribute.bytes ++ tail = x ++ byte '<' :: y) :
    (∃ b ∈ as, byte '<' ∈ b.value) ∧ quotes none x ≠ none := by
  induction as generalizing x with
  | nil =>
      rw [List.flatMap_nil, List.nil_append] at h
      simp [h] at htail
  | cons a as ih =>
      rw [List.flatMap_cons, List.append_assoc] at h
      rcases Bytes.split_append h with ⟨c, rfl, hc⟩ | ⟨c, hc⟩
      · obtain ⟨⟨b, hb, hvalue⟩, hne⟩ := ih hc
        rw [quotes_append, a.quotes_bytes]
        exact ⟨⟨b, List.mem_cons_of_mem a hb, hvalue⟩, hne⟩
      · obtain ⟨hvalue, hquote⟩ := a.quotes_split hc
        rw [hquote]
        exact ⟨⟨a, List.mem_cons_self .., hvalue⟩, by simp⟩

/-- **A bracket behind the first one is in a value**, and quoted. -/
theorem quotes_ne_none {x y : List UInt8} (h : t.bytes = x ++ byte '<' :: y) (hx : x ≠ []) :
    (∃ b ∈ t.attributes, byte '<' ∈ b.value) ∧ quotes none x ≠ none := by
  obtain ⟨d, x, rfl⟩ := List.exists_cons_of_ne_nil hx
  obtain ⟨rfl, hsplit⟩ : byte '<' = d ∧ t.name ++ (t.rest ++ t.close) = x ++ byte '<' :: y :=
    List.cons.inj h
  have htail : byte '<' ∉ t.trailing ++ t.close := by
    intro hmem
    rcases List.mem_append.1 hmem with hmem | hmem
    · exact (isBare_of_isSpace (t.trailing_space _ hmem)).2 rfl
    · rcases t.close_cases with hclose | hclose <;> rw [hclose] at hmem <;> revert hmem <;> decide
  have hname : ∀ b ∈ t.name, IsBare b := fun b hb => isBare_of_isNameByte (t.name_name b hb)
  rcases Bytes.split_append hsplit with ⟨c, rfl, hc⟩ | ⟨c, hc⟩
  · rw [rest, List.append_assoc] at hc
    have hopen : quotes none (byte '<' :: (t.name ++ c)) = quotes none c := quotes_bare hname
    rw [hopen]
    exact quotes_flatMap_split htail hc
  · exact absurd rfl (hname (byte '<') (by simp [hc])).2

/-- The place before a value is not quoted. -/
theorem exists_upTo (t : WrittenTag) (front : List WrittenAttribute) (a : WrittenAttribute) :
    ∃ outer, t.upTo front a = outer ++ [a.quote] ∧ quotes none outer = none := by
  obtain ⟨outer, houter, hbare⟩ := a.exists_opening
  refine ⟨byte '<' :: (t.name ++ (front.flatMap WrittenAttribute.bytes ++ outer)), ?_, ?_⟩
  · simp [upTo, houter]
  · have hname : ∀ b ∈ t.name, IsBare b := fun b hb => isBare_of_isNameByte (t.name_name b hb)
    have hopen : ∀ more, quotes none (byte '<' :: (t.name ++ more)) = quotes none more :=
      fun more => quotes_bare hname
    rw [hopen, quotes_flatMap, quotes_none fun b hb => (hbare b hb).1]

/-- **From a bracket in a value the place is never found**: what is quoted for the search is not
quoted in the tag, and the other way round. -/
theorem length_add_ne {x y : List UInt8} {n : Nat} (h : t.attributes = front ++ a :: behind)
    (hsplit : t.bytes = x ++ byte '<' :: y) (hx : x ≠ [])
    (hfound : valueOffset (word "style") none none 0 (byte '<' :: y) = some n) :
    x.length + n ≠ (t.upTo front a).length := by
  intro heq
  obtain ⟨outer, houter, hplain⟩ := t.exists_upTo front a
  obtain ⟨u, q, more, hu, hquote, -, rfl⟩ := valueOffset_eq_some isQuote_of_mem_style hfound
  -- The place that is found is that of the value, so the same bytes stand before it.
  have hbytes : x ++ u ++ q :: more = outer ++ a.quote :: (a.value ++ a.quote ::
      (behind.flatMap WrittenAttribute.bytes ++ (t.trailing ++ t.close))) := by
    rw [List.append_assoc, ← hu, ← hsplit, bytes_eq h, houter]
    simp
  have hlength : (x ++ u).length = outer.length := by
    rw [houter] at heq
    simp only [List.length_append, List.length_cons, List.length_nil] at heq ⊢
    omega
  obtain ⟨rfl, -⟩ := List.append_inj hbytes hlength
  rw [quotes_append] at hplain
  have hmark := isMark_none.quotes x
  exact (quotes_ne_none hsplit hx).2 (quotes_injective hmark isMark_none (hplain.trans hquote.symm))

/-- **Where the value is found**, from the last bracket of a tag on, and at that bracket if nothing
is found behind it. -/
theorem found_eq_iff {x y : List UInt8} (h : t.attributes = front ++ a :: behind)
    (hsplit : t.bytes = x ++ byte '<' :: y) (hlast : byte '<' ∉ y) :
    x.length + (valueOffset (word "style") none none 0 (byte '<' :: y)).getD 0 =
        (t.upTo front a).length ↔
      (∀ b ∈ t.attributes, byte '<' ∉ b.value) ∧ a.IsFirstSpaced front ∨
        x = t.upTo front a ∧ valueOffset (word "style") none none 0 (byte '<' :: y) = none := by
  -- The last bracket is the one that opens the tag, or it stands in a value.
  by_cases hx : x = []
  · subst hx
    rw [List.nil_append] at hsplit
    have hvalues : ∀ b ∈ t.attributes, byte '<' ∉ b.value := by
      intro b hb hmem
      apply hlast
      have hy : y = t.name ++ (t.rest ++ t.close) := (List.cons.inj hsplit).2.symm
      rw [hy, rest]
      have hbytes : byte '<' ∈ t.attributes.flatMap WrittenAttribute.bytes :=
        List.mem_flatMap.2 ⟨b, hb, by simp [WrittenAttribute.bytes, hmem]⟩
      simp [hbytes]
    have hnil : ¬ ([] = t.upTo front a ∧
        valueOffset (word "style") none none 0 (byte '<' :: y) = none) :=
      fun hnothing => List.cons_ne_nil _ _ hnothing.1.symm
    rw [or_iff_left hnil, and_iff_right hvalues, ← found_eq_iff_isFirstSpaced h, hsplit,
      List.length_nil, Nat.zero_add]
  · obtain ⟨⟨b, hb, hvalue⟩, -⟩ := quotes_ne_none hsplit hx
    have hnot : ¬ ((∀ b ∈ t.attributes, byte '<' ∉ b.value) ∧ a.IsFirstSpaced front) :=
      fun hplain => hplain.1 b hb hvalue
    rw [or_iff_right hnot]
    cases hfound : valueOffset (word "style") none none 0 (byte '<' :: y) with
    | some n => exact iff_of_false (length_add_ne h hsplit hx hfound) (by simp)
    | none =>
        rw [Option.getD_none, Nat.add_zero, and_iff_left rfl]
        refine ⟨fun hlength => ?_, congrArg List.length⟩
        rw [bytes_eq h] at hsplit
        exact (List.append_inj hsplit hlength.symm).1.symm

end WrittenTag

end EpubStyle.Markup
