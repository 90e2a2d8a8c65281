import Mathlib.Data.List.TakeWhile
import EpubStyle.Markup.PlainXml
import EpubStyle.Proofs.Markup.Readings

/-!
# What the plain library yields

The plain library does at a written tag what is assumed of a library there: it yields the tag with
the offset right behind it, and with the attributes in their order and their raw values
(`plainXml_yields`), if no key stands twice. A key that has occurred is refused.

## What this module delivers

- `WrittenAttribute.readAttribute_bytes`: an attribute is read as it is written, whatever stands
  behind it.
- `WrittenTag.attributes_rest`: the attributes of a tag are those that are written, in their order.
- `exists_of_mem_readFrom`: the offset behind a tag is the place behind its bytes.
-/

set_option autoImplicit false

namespace EpubStyle.Markup

/-! ## Attributes -/

theorem isSpace_eq_false_of_isNameByte {b : UInt8} (h : isNameByte b = true) :
    isSpace b = false := by
  rw [← Bool.not_eq_true]
  intro hspace
  simp [isNameByte, isTagSpace, hspace] at h

theorem isKeyByte_of_isNameByte {b : UInt8} (h : isNameByte b = true) : isKeyByte b = true := by
  have hspace := isSpace_eq_false_of_isNameByte h
  simp only [isNameByte, Bool.and_eq_true] at h
  simp [isKeyByte, hspace, h.1.2]

namespace WrittenAttribute

theorem dropWhile_isSpace {space more : List UInt8} {b : UInt8}
    (h : ∀ b ∈ space, isSpace b = true) (hb : isSpace b = false) :
    (space ++ b :: more).dropWhile isSpace = b :: more := by
  rw [List.dropWhile_append_of_pos h, List.dropWhile_cons_of_neg (by simp [hb])]

/-- The key ends before the white space and the equals sign behind it. -/
theorem takeWhile_key {key space more : List UInt8} (hkey : ∀ b ∈ key, isNameByte b = true)
    (hspace : ∀ b ∈ space, isSpace b = true) :
    (key ++ (space ++ byte '=' :: more)).takeWhile isKeyByte = key ∧
      (key ++ (space ++ byte '=' :: more)).dropWhile isKeyByte = space ++ byte '=' :: more := by
  have hall : ∀ b ∈ key, isKeyByte b = true := fun b hb => isKeyByte_of_isNameByte (hkey b hb)
  have hstop : ∃ b rest, space ++ byte '=' :: more = b :: rest ∧ ¬ isKeyByte b = true := by
    cases space with
    | nil => exact ⟨_, _, rfl, by decide⟩
    | cons b space => exact ⟨b, _, rfl, by simp [isKeyByte, hspace b (by simp)]⟩
  obtain ⟨b, rest, heq, hb⟩ := hstop
  rw [heq, List.takeWhile_append_of_pos hall, List.dropWhile_append_of_pos hall,
    List.takeWhile_cons_of_neg hb, List.dropWhile_cons_of_neg hb, List.append_nil]
  exact ⟨rfl, rfl⟩

/-- **An attribute with a quoted value is read as it is written.** -/
theorem readAttribute_bytes (a : WrittenAttribute) {seen : List (List UInt8)} (hseen : a.key ∉ seen)
    (rest : List UInt8) : readAttribute seen (a.bytes ++ rest) = .found a.key a.value rest := by
  obtain ⟨k, key, hk⟩ := List.exists_cons_of_ne_nil a.key_ne_nil
  have hname := a.key_name
  rw [hk] at hname
  obtain ⟨hkname, hkey⟩ := List.forall_mem_cons.1 hname
  have hbytes : a.bytes ++ rest = a.gap ++ k :: (key ++ (a.before ++ byte '=' ::
      (a.behind ++ a.quote :: (a.value ++ a.quote :: rest)))) := by
    simp [bytes, opening, introduction, hk]
  obtain ⟨htake, hdrop⟩ := @takeWhile_key key a.before
    (a.behind ++ a.quote :: (a.value ++ a.quote :: rest)) hkey a.before_space
  have hquote : isSpace a.quote = false := by
    rw [← Bool.not_eq_true]
    intro hspace
    have hq := a.isQuote_quote
    simp only [isQuote, Bool.or_eq_true, beq_iff_eq] at hq
    rcases hq with hq | hq <;> rw [hq] at hspace <;> revert hspace <;> decide
  have hvalue : ∀ b ∈ a.value, (b != a.quote) = true := by
    intro b hb
    rw [bne_iff_ne]
    rintro rfl
    exact a.quote_not_mem hb
  have hcontains : seen.contains (k :: key) = false := by
    simpa [hk] using hseen
  have hsign : (byte '=' != byte '=') = false := by decide
  have hequals : isSpace (byte '=') = false := by decide
  -- Each scan stops where the next part begins, by what the parts are made of.
  rw [hbytes, readAttribute,
    dropWhile_isSpace a.gap_space (isSpace_eq_false_of_isNameByte hkname)]
  simp only [htake, hdrop, dropWhile_isSpace a.before_space hequals,
    dropWhile_isSpace a.behind_space hquote, hcontains, a.isQuote_quote, hsign, if_true, if_false,
    Bool.false_eq_true, List.dropWhile_append_of_pos hvalue, List.takeWhile_append_of_pos hvalue]
  simp [hk]

end WrittenAttribute

namespace WrittenTag

theorem attributes_flatMap {as : List WrittenAttribute} {space : List UInt8}
    (hspace : ∀ b ∈ space, isSpace b = true) (hnodup : (as.map WrittenAttribute.key).Nodup)
    {seen : List (List UInt8)} (hseen : ∀ a ∈ as, a.key ∉ seen) :
    Markup.attributes seen (as.flatMap WrittenAttribute.bytes ++ space) =
      as.map (fun a => some a.raw) := by
  induction as generalizing seen with
  | nil =>
      have hnothing : readAttribute seen space = .nothing := by
        rw [readAttribute, List.dropWhile_eq_nil_iff.2 hspace]
      rw [List.flatMap_nil, List.nil_append, Markup.attributes]
      split <;> simp_all
  | cons a as ih =>
      obtain ⟨ha, has⟩ := List.forall_mem_cons.1 hseen
      rw [List.map_cons, List.nodup_cons] at hnodup
      have hread := a.readAttribute_bytes ha (as.flatMap WrittenAttribute.bytes ++ space)
      -- The key has occurred from here on, and no other attribute has it.
      have hothers : ∀ b ∈ as, b.key ∉ a.key :: seen := by
        intro b hb hmem
        rcases List.mem_cons.1 hmem with heq | hmem
        · exact hnodup.1 (heq ▸ List.mem_map_of_mem hb)
        · exact has b hb hmem
      rw [List.flatMap_cons, List.append_assoc, Markup.attributes]
      split
      · next h => rw [hread] at h; cases h
      · next h => rw [hread] at h; cases h
      · next key value rest h =>
          rw [hread] at h
          cases h
          rw [ih hnodup.2 hothers]
          rfl

/-- **The attributes of a tag are those that are written.** -/
theorem attributes_rest {t : WrittenTag} (hnodup : (t.attributes.map WrittenAttribute.key).Nodup) :
    Markup.attributes [] t.rest = t.attributes.map (fun a => some a.raw) :=
  attributes_flatMap t.trailing_space hnodup (by simp)

end WrittenTag

/-! ## Tags -/

/-- The bytes of a tag, from bracket to bracket, and the offset behind it. -/
def Part.tag? : Part → Option (List UInt8 × Nat)
  | startTag name rest stop => some (byte '<' :: (name ++ (rest ++ word ">")), stop)
  | emptyTag name rest stop => some (byte '<' :: (name ++ (rest ++ word "/>")), stop)
  | _ => none

/-- A tag, as it is written, before the offset `stop`. -/
def WrittenTag.part (t : WrittenTag) (stop : Nat) : Part :=
  if t.isEmpty then .emptyTag t.name t.rest stop else .startTag t.name t.rest stop

theorem WrittenTag.tag?_part (t : WrittenTag) (stop : Nat) :
    (t.part stop).tag? = some (t.bytes, stop) := by
  unfold part bytes close
  split <;> rfl

theorem Part.length_pos_of_tag? {p : Part} {tag : List UInt8} {stop : Nat}
    (h : p.tag? = some (tag, stop)) : 0 < tag.length := by
  cases p <;> cases h <;> exact Nat.succ_pos _

/-- A tag ends with a bracket. -/
theorem tagEnd_eq_some {quote : Option UInt8} {bytes : List UInt8} {n : Nat}
    (h : tagEnd quote bytes = some n) :
    ∃ content more, bytes = content ++ byte '>' :: more ∧ content.length = n := by
  induction bytes generalizing quote n with
  | nil => cases h
  | cons b bs ih =>
      -- What ends behind the next byte ends behind this one.
      have hcons : ∀ {quote : Option UInt8}, (tagEnd quote bs).map (· + 1) = some n →
          ∃ content more, b :: bs = content ++ byte '>' :: more ∧ content.length = n := by
        intro quote hmap
        obtain ⟨m, hm, rfl⟩ := Option.map_eq_some_iff.1 hmap
        obtain ⟨content, more, rfl, rfl⟩ := ih hm
        exact ⟨b :: content, more, rfl, rfl⟩
      cases quote with
      | some q => exact hcons h
      | none =>
          rw [tagEnd] at h
          split at h
          · next hb =>
              rw [beq_iff_eq] at hb
              subst hb
              exact ⟨[], bs, rfl, Option.some.inj h⟩
          · exact hcons h

/-- The name of a tag and what follows it are its content. -/
theorem tagName_append (content : List UInt8) :
    tagName content ++ content.drop (tagName content).length = content :=
  List.prefix_iff_eq_append.1 (List.takeWhile_prefix _)

/-- What is read at the front of `bytes`, at an offset, takes at least one byte, and a tag stands
there. -/
structure Part.StandsAt (p : Part) (length offset : Nat) (bytes : List UInt8) : Prop where
  length_pos : 0 < length
  tag : ∀ tag stop, p.tag? = some (tag, stop) →
    ∃ more, bytes = tag ++ more ∧ stop = offset + tag.length

theorem Part.StandsAt.of_none {p : Part} {length offset : Nat} {bytes : List UInt8}
    (hlength : 0 < length) (hp : p.tag? = none) : p.StandsAt length offset bytes :=
  ⟨hlength, fun tag stop htag => by rw [hp] at htag; cases htag⟩

theorem readDeclaration_standsAt {bytes : List UInt8} {p : Part} {length : Nat}
    (h : readDeclaration bytes = .ok (p, length)) (offset : Nat) :
    p.StandsAt length offset (byte '<' :: bytes) := by
  unfold readDeclaration at h
  dsimp only at h
  repeat' split at h
  all_goals cases h
  all_goals exact .of_none (Nat.succ_pos _) rfl

/-- A tag is made of its content and what closes it. -/
theorem Part.StandsAt.of_content {p : Part} {content close : List UInt8}
    {offset length stop : Nat} (hlength : 0 < length)
    (hstop : stop = offset + content.length + close.length + 1)
    (hp : p.tag? = some (byte '<' :: (tagName content ++
      (content.drop (tagName content).length ++ close)), stop)) (more : List UInt8) :
    p.StandsAt length offset (byte '<' :: (content ++ (close ++ more))) := by
  refine ⟨hlength, fun tag stop' htag => ?_⟩
  rw [hp, ← List.append_assoc, tagName_append] at htag
  cases htag
  refine ⟨more, by simp, ?_⟩
  rw [hstop, List.length_cons, List.length_append]
  omega

theorem readBracket_standsAt {opened : List (List UInt8)} {offset length : Nat}
    {bytes : List UInt8} {p : Part} (h : readBracket opened offset bytes = .ok (p, length)) :
    p.StandsAt length offset (byte '<' :: bytes) := by
  unfold readBracket at h
  split at h
  · cases h
  split at h
  · exact readDeclaration_standsAt h offset
  split at h
  · split at h
    · split at h <;> cases h
      exact .of_none (Nat.succ_pos _) rfl
    · cases h
  split at h
  · cases h
  next n hn =>
  -- From here on it is a tag, and its content stands between the brackets.
  obtain ⟨content, more, rfl, rfl⟩ := tagEnd_eq_some hn
  simp only [List.take_left] at h
  split at h
  · split at h <;> cases h
    exact .of_none (Nat.succ_pos _) rfl
  split at h
  · next hslash =>
      obtain ⟨front, rfl⟩ := List.getLast?_eq_some_iff.1 (beq_iff_eq.1 hslash)
      rw [List.dropLast_concat] at h
      cases h
      have hsplit : front ++ [byte '/'] ++ byte '>' :: more = front ++ (word "/>" ++ more) := by
        simp [word]
      rw [hsplit]
      refine .of_content (Nat.succ_pos _) ?_ rfl more
      rw [List.length_append]
      rfl
  · cases h
    have hsplit : content ++ byte '>' :: more = content ++ (word ">" ++ more) := rfl
    rw [hsplit]
    exact .of_content (Nat.succ_pos _) rfl rfl more

theorem readPart_standsAt {opened : List (List UInt8)} {offset length : Nat} {b : UInt8}
    {bs : List UInt8} {p : Part} (h : readPart opened offset b bs = .ok (p, length)) :
    p.StandsAt length offset (b :: bs) := by
  unfold readPart at h
  split at h
  · next hb =>
      rw [beq_iff_eq] at hb
      subst hb
      exact readBracket_standsAt h
  split at h
  · simp only at h
    repeat' split at h
    all_goals cases h
    exact .of_none (Nat.succ_pos _) rfl
  · cases h
    exact .of_none (Nat.succ_pos _) rfl

/-- **A tag stands before the offset that is read with it.** -/
theorem exists_of_mem_readFrom {opened : List (List UInt8)} {offset stop : Nat}
    {bytes tag : List UInt8} {p : Part} (hp : p ∈ (readFrom opened offset bytes).1)
    (htag : p.tag? = some (tag, stop)) :
    ∃ lead more, bytes = lead ++ (tag ++ more) ∧ stop = offset + (lead.length + tag.length) := by
  fun_induction readFrom opened offset bytes with
  | case1 => cases hp
  | case2 opened offset b bs distance hread => cases hp
  | case3 opened offset b bs part length hread parts fault hrest ih =>
      have hstands := readPart_standsAt hread
      rw [hrest] at ih
      rcases List.mem_cons.1 hp with rfl | hp
      · obtain ⟨more, hmore, hstop⟩ := hstands.tag _ _ htag
        exact ⟨[], more, hmore, by simpa using hstop⟩
      · obtain ⟨lead, more, hsplit, hstop⟩ := ih hp
        have hpos := hstands.length_pos
        have hdrop : (b :: bs).drop length = bs.drop (length - 1) := by
          obtain ⟨n, rfl⟩ := Nat.exists_eq_add_of_lt hpos
          simp
        -- The tag begins behind the part, so the part is no longer than what is left.
        have hlength : ((b :: bs).take length).length = length := by
          have htaken := congrArg List.length hsplit
          have htagpos := Part.length_pos_of_tag? htag
          simp only [List.length_drop, List.length_append] at htaken
          rw [List.length_take, List.length_cons]
          omega
        refine ⟨(b :: bs).take length ++ lead, more, ?_, ?_⟩
        · rw [List.append_assoc, ← hsplit, ← hdrop, List.take_append_drop]
        · rw [List.length_append, hlength]
          omega

/-- **A tag stands in its document** before the offset that is read with it. -/
theorem exists_of_mem_readParts {document tag : List UInt8} {stop : Nat} {p : Part}
    (hmark : ¬ [0xEF, 0xBB, 0xBF] <+: document) (hp : p ∈ (readParts document).1)
    (htag : p.tag? = some (tag, stop)) :
    ∃ lead more, document = lead ++ (tag ++ more) ∧ stop = (lead ++ tag).length := by
  have hmark' : List.isPrefixOf [0xEF, 0xBB, 0xBF] document = false := by
    rw [← Bool.not_eq_true, List.isPrefixOf_iff_prefix]
    exact hmark
  simp only [readParts, hmark', Bool.false_eq_true, if_false] at hp
  obtain ⟨lead, more, hsplit, hstop⟩ := exists_of_mem_readFrom hp htag
  exact ⟨lead, more, hsplit, by rw [hstop, List.length_append, Nat.zero_add]⟩

/-- **A tag is yielded as it is written**: with the offset right behind it, and with its attributes
in their order and their raw values. -/
theorem plainXml_yields {document : List UInt8} (hmark : ¬ [0xEF, 0xBB, 0xBF] <+: document)
    {t : WrittenTag} (hnodup : (t.attributes.map WrittenAttribute.key).Nodup) {stop : Nat}
    (hpart : t.part stop ∈ (readParts document).1) :
    ∃ lead more tag, document = lead ++ (t.bytes ++ more) ∧
      (t.part stop).event.tag? = some (tag, (lead ++ t.bytes).length) ∧
      tag.attributes = t.attributes.map (fun a => some a.raw) := by
  obtain ⟨lead, more, hsplit, hstop⟩ := exists_of_mem_readParts hmark hpart (t.tag?_part stop)
  refine ⟨lead, more, .ofParts t.name t.rest, hsplit, ?_, WrittenTag.attributes_rest hnodup⟩
  rw [← hstop]
  unfold WrittenTag.part
  split <;> rfl

end EpubStyle.Markup
