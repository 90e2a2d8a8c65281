import EpubStyle.Json
import EpubStyle.Proofs.Json.Reader

/-!
# Written values are read back

Both layouts of a value are JSON, and a reader that knows nothing of how they are written gets this
value from them (`JsonValue.read_render`). The argument goes along the writers. What `escapeChar`
makes of a character is one part of a string; the digits of a count are one number, as long as
nothing follows that would go on with it; the line breaks of the pretty layout are blanks. From this
follows that the text of a value is scanned as its tokens (`JsonValue.scan_write`), for the layouts
and all depths at once.
-/

set_option autoImplicit false

namespace EpubStyle

namespace JsonValue

mutual

/-- The value as JSON has it, where a count is a number like any other. -/
def datum : JsonValue → JsonDatum
  | null => .null
  | bool b => .bool b
  | num n => .num n
  | str s => .str s
  | arr items => .arr (itemData items)
  | obj members => .obj (memberData members)

def itemData : List JsonValue → List JsonDatum
  | [] => []
  | item :: items => datum item :: itemData items

def memberData : List (String × JsonValue) → List (String × JsonDatum)
  | [] => []
  | (key, value) :: members => (key, datum value) :: memberData members

end

mutual

/-- Different values are different in JSON. -/
theorem datum_inj {j k : JsonValue} (h : j.datum = k.datum) : j = k := by
  match j, k with
  | null, null => rfl
  | bool _, bool _ => rw [JsonDatum.bool.inj h]
  | num _, num _ => rw [Nat.cast_injective (JsonDatum.num.inj h)]
  | str _, str _ => rw [JsonDatum.str.inj h]
  | arr _, arr _ => rw [itemData_inj (JsonDatum.arr.inj h)]
  | obj _, obj _ => rw [memberData_inj (JsonDatum.obj.inj h)]

theorem itemData_inj {items others : List JsonValue} (h : itemData items = itemData others) :
    items = others := by
  match items, others with
  | [], [] => rfl
  | item :: items, other :: others =>
      obtain ⟨hitem, hitems⟩ := List.cons.inj h
      rw [datum_inj hitem, itemData_inj hitems]

theorem memberData_inj {members others : List (String × JsonValue)}
    (h : memberData members = memberData others) : members = others := by
  match members, others with
  | [], [] => rfl
  | (key, value) :: members, (name, other) :: others =>
      obtain ⟨hmember, hmembers⟩ := List.cons.inj h
      obtain ⟨rfl, hvalue⟩ := Prod.mk.inj hmember
      rw [datum_inj hvalue, memberData_inj hmembers]

end

end JsonValue

namespace JsonToken

open JsonValue (escapeChar hexDigit quoted Layout)

/-! ## Blanks -/

theorem scan_blanks {blanks : List Char} (h : ∀ c ∈ blanks, isBlank c = true) (cs : List Char) :
    scan (blanks ++ cs) = scan cs := by
  induction blanks with
  | nil => rfl
  | cons c blanks ih =>
      rw [List.cons_append, scan, if_pos (h c (List.mem_cons_self ..)),
        ih fun d hd => h d (List.mem_cons_of_mem c hd)]

theorem scan_lineBreak (l : Layout) (depth : Nat) (cs : List Char) :
    scan (l.lineBreak depth ++ cs) = scan cs := by
  apply scan_blanks
  intro c hc
  cases l with
  | compact => cases hc
  | pretty =>
      obtain rfl | hspace := List.mem_cons.1 hc
      · rfl
      · rw [List.eq_of_mem_replicate hspace]
        rfl

/-- The token at the front of a text is scanned first. -/
theorem scan_of_next? {c : Char} {cs rest : List Char} {t : JsonToken} (hc : isBlank c = false)
    (h : next? (c :: cs) = some (t, rest)) : scan (c :: cs) = (scan rest).map (t :: ·) := by
  rw [scan, hc, if_neg Bool.false_ne_true]
  split
  · next hnone => cases hnone.symm.trans h
  · next hsome =>
      obtain ⟨rfl, rfl⟩ := Prod.mk.inj (Option.some.inj (hsome.symm.trans h))
      rfl

theorem scan_openBracket (cs : List Char) : scan ('[' :: cs) = (scan cs).map (openBracket :: ·) :=
  scan_of_next? rfl rfl

theorem scan_closeBracket (cs : List Char) :
    scan (']' :: cs) = (scan cs).map (closeBracket :: ·) :=
  scan_of_next? rfl rfl

theorem scan_openBrace (cs : List Char) : scan ('\x7b' :: cs) = (scan cs).map (openBrace :: ·) :=
  scan_of_next? rfl rfl

theorem scan_closeBrace (cs : List Char) :
    scan ('\x7d' :: cs) = (scan cs).map (closeBrace :: ·) :=
  scan_of_next? rfl rfl

theorem scan_comma (cs : List Char) : scan (',' :: cs) = (scan cs).map (comma :: ·) :=
  scan_of_next? rfl rfl

theorem scan_colon (l : Layout) (cs : List Char) :
    scan (l.colon ++ cs) = (scan cs).map (colon :: ·) := by
  cases l with
  | compact => exact scan_of_next? rfl rfl
  | pretty =>
      have hspace : scan (' ' :: cs) = scan cs := scan_blanks (List.forall_mem_singleton.2 rfl) cs
      rw [← hspace]
      exact scan_of_next? rfl rfl

/-! ## Strings -/

/-- The part of a string that a character is written as: some control characters are given by their
code. -/
def writtenPart (c : Char) : StringPart :=
  if c.toNat < 0x20 && c != '\n' && c != '\r' && c != '\t' then .unit c.toNat else .char c

/-- The digits of the code of a control character. -/
theorem hexDigits_control : ∀ n < 0x20,
    ['0', '0', hexDigit (n / 16), hexDigit (n % 16)].all Text.isHexDigit = true ∧
      Text.hexValue ['0', '0', hexDigit (n / 16), hexDigit (n % 16)] = n := by
  decide +kernel

/-- **A written character is one part.** -/
theorem stringParts_escapeChar (c : Char) (cs : List Char) :
    stringParts (escapeChar c ++ cs) =
      (stringParts cs).map fun r => (writtenPart c :: r.1, r.2) := by
  unfold escapeChar
  split_ifs with hquote hback hfeed hreturn htab hcontrol
  · obtain rfl := eq_of_beq hquote
    rfl
  · obtain rfl := eq_of_beq hback
    rfl
  · obtain rfl := eq_of_beq hfeed
    rfl
  · obtain rfl := eq_of_beq hreturn
    rfl
  · obtain rfl := eq_of_beq htab
    rfl
  · obtain ⟨hdigits, hvalue⟩ := hexDigits_control c.toNat hcontrol
    have hpart : writtenPart c = .unit c.toNat := by
      simp_all [writtenPart]
    rw [List.cons_append, List.cons_append, List.cons_append, List.cons_append, List.cons_append,
      List.cons_append, List.nil_append, stringParts, if_pos hdigits, hvalue, hpart]
  -- Any other character stands for itself: it neither closes the string nor starts an escape.
  · have hpart : writtenPart c = .char c := by
      simp_all [writtenPart]
    rw [List.singleton_append, stringParts, if_neg hcontrol, hpart]
    · simpa using hquote
    · intro a b d e rest hu
      exact absurd (beq_of_eq hu) hback
    · simpa using hback

theorem stringParts_escaped (cs rest : List Char) :
    stringParts (cs.flatMap escapeChar ++ '\x22' :: rest) = some (cs.map writtenPart, rest) := by
  induction cs with
  | nil => rfl
  | cons c cs ih =>
      rw [List.flatMap_cons, List.append_assoc, stringParts_escapeChar, ih]
      rfl

theorem characters_unit {n : Nat} (h : n < 0xD800) (parts : List StringPart) :
    characters (.unit n :: parts) = (characters parts).map (Char.ofNat n :: ·) := by
  conv_lhs => unfold characters
  rw [if_neg (by omega), if_neg (by omega)]

theorem characters_writtenPart (cs : List Char) : characters (cs.map writtenPart) = some cs := by
  induction cs with
  | nil => rfl
  | cons c cs ih =>
      rw [List.map_cons, writtenPart]
      split
      · next hcontrol =>
          have hlt : c.toNat < 0x20 := by
            simp only [Bool.and_eq_true, decide_eq_true_eq] at hcontrol
            exact hcontrol.1.1.1
          rw [characters_unit (by omega), ih, Char.ofNat_toNat]
          rfl
      · rw [characters, ih]
        rfl

/-- **A written text is one string.** -/
theorem scan_quoted (s : String) (cs : List Char) :
    scan (quoted s ++ cs) = (scan cs).map (str s :: ·) := by
  have hnext : next? ('\x22' :: (s.toList.flatMap escapeChar ++ '\x22' :: cs)) =
      some (str s, cs) := by
    change string _ = _
    rw [string, stringParts_escaped, Option.bind_some, characters_writtenPart, Option.map_some,
      String.ofList_toList]
  have hquoted : quoted s ++ cs = '\x22' :: (s.toList.flatMap escapeChar ++ '\x22' :: cs) := by
    rw [quoted, List.cons_append, List.cons_append, List.append_assoc, List.singleton_append]
  rw [hquoted]
  exact scan_of_next? rfl hnext

/-! ## Numbers -/

/-- A number at the front of a text goes on with this character. -/
def isNumberChar (c : Char) : Bool := c.isDigit || c == '.' || c == 'e' || c == 'E'

/-- A number in front of this text ends there. -/
def EndsNumber (cs : List Char) : Prop := ∀ c ∈ cs.head?, isNumberChar c = false

theorem EndsNumber.cons {c : Char} (h : isNumberChar c = false) (cs : List Char) :
    EndsNumber (c :: cs) := by
  intro d hd
  obtain rfl := Option.some.inj hd
  exact h

theorem EndsNumber.lineBreak {cs : List Char} (h : EndsNumber cs) (l : Layout) (depth : Nat) :
    EndsNumber (l.lineBreak depth ++ cs) := by
  cases l with
  | compact => exact h
  | pretty => exact .cons (by decide) _

theorem EndsNumber.fraction_eq {cs : List Char} (h : EndsNumber cs) : fraction cs = ([], cs) := by
  unfold fraction
  split
  · next rest => exact absurd (h '.' rfl) (by decide)
  · rfl

theorem EndsNumber.exponent_eq {cs : List Char} (h : EndsNumber cs) : exponent cs = (0, cs) := by
  cases cs with
  | nil => rfl
  | cons c rest =>
      have hc := h c rfl
      simp only [isNumberChar, Bool.or_eq_false_iff] at hc
      rw [exponent, hc.1.2, hc.2, Bool.false_or, Bool.false_and, if_neg Bool.false_ne_true]

/-- The digits of a count do not start with zero, except for zero. -/
theorem head?_toDigits_ne_zero {n : Nat} (h : 0 < n) : (Nat.toDigits 10 n).head? ≠ some '0' := by
  induction n using Nat.strongRecOn with
  | ind n ih =>
      by_cases hlt : n < 10
      · rw [Nat.toDigits_of_lt_base hlt]
        have hdigit : n.digitChar ≠ '0' := by
          rw [Ne, Nat.digitChar_eq_zero]
          omega
        simpa using hdigit
      · rw [Nat.toDigits_of_base_le (by decide) (by omega), List.head?_append]
        intro hhead
        obtain hfirst | ⟨hnone, -⟩ := Option.or_eq_some_iff.1 hhead
        · exact ih (n / 10) (by omega) (by omega) hfirst
        · exact Nat.toDigits_ne_nil (List.head?_eq_none_iff.1 hnone)

/-- The digits of a count are all that is read of an integer. -/
theorem integer_toDigits (n : Nat) {rest : List Char} (h : EndsNumber rest) :
    integer (Nat.toDigits 10 n ++ rest) = some (Nat.toDigits 10 n, rest) := by
  obtain rfl | hpos := Nat.eq_zero_or_pos n
  · rfl
  obtain ⟨c, cs, hdigits⟩ := List.exists_cons_of_ne_nil (Nat.toDigits_ne_nil (n := n) (b := 10))
  have hdigit : ∀ d ∈ c :: cs, d.isDigit = true := by
    intro d hd
    rw [← hdigits] at hd
    exact Nat.isDigit_of_mem_toDigits (by decide) (by decide) hd
  have hzero : (c == '0') = false := by
    apply beq_false_of_ne
    rintro rfl
    exact head?_toDigits_ne_zero hpos (by rw [hdigits]; rfl)
  -- The digits of the count are taken, and none of the text behind it.
  have hcs : ∀ d ∈ cs, d.isDigit = true := fun d hd => hdigit d (List.mem_cons_of_mem c hd)
  have hrest : rest.takeWhile Char.isDigit = [] ∧ rest.dropWhile Char.isDigit = rest := by
    cases rest with
    | nil => exact ⟨rfl, rfl⟩
    | cons d rest =>
        have hd := h d rfl
        simp only [isNumberChar, Bool.or_eq_false_iff] at hd
        have hnot : ¬ d.isDigit = true := by simp [hd.1.1.1]
        exact ⟨List.takeWhile_cons_of_neg hnot, List.dropWhile_cons_of_neg hnot⟩
  rw [hdigits, List.cons_append, integer, hzero, if_neg Bool.false_ne_true,
    if_pos (hdigit c (List.mem_cons_self ..)), List.takeWhile_append_of_pos hcs,
    List.dropWhile_append_of_pos hcs, hrest.1, hrest.2, List.append_nil]

theorem magnitude_toDigits (n : Nat) {rest : List Char} (h : EndsNumber rest) :
    magnitude (Nat.toDigits 10 n ++ rest) = some ((n : ℚ), rest) := by
  have hvalue : Nat.ofDigitChars 10 (Nat.toDigits 10 n) 0 = n :=
    Nat.ofDigitChars_toDigits (by decide) (by decide)
  simp [magnitude, integer_toDigits n h, h.fraction_eq, h.exponent_eq, hvalue]

/-- A text that starts with a digit starts with a number. -/
theorem next?_of_isDigit {c : Char} (h : c.isDigit = true) (cs : List Char) :
    next? (c :: cs) = (magnitude (c :: cs)).map fun r => (num r.1, r.2) := by
  have hne : ∀ d : Char, d.isDigit = false → c ≠ d := by
    rintro d hd rfl
    exact Bool.false_ne_true (hd.symm.trans h)
  have hnumber : number (c :: cs) = (magnitude (c :: cs)).map fun r => (num r.1, r.2) := by
    rw [number]
    intro rest heq
    exact hne '-' (by decide) (List.cons.inj heq).1
  rw [← hnumber]
  unfold next?
  split
  case h_11 => rfl
  all_goals
    next heq =>
      obtain ⟨rfl, -⟩ := List.cons.inj heq
      exact absurd h (by decide)

/-- **A written count is one number**, where nothing follows that goes on with it. -/
theorem scan_count (n : Nat) {cs : List Char} (h : EndsNumber cs) :
    scan ((toString n).toList ++ cs) = (scan cs).map (num n :: ·) := by
  have hdigits : (toString n).toList = Nat.toDigits 10 n := Nat.toList_repr
  obtain ⟨c, more, hc⟩ := List.exists_cons_of_ne_nil (Nat.toDigits_ne_nil (n := n) (b := 10))
  have hdigit : c.isDigit = true :=
    Nat.isDigit_of_mem_toDigits (b := 10) (n := n) (by decide) (by decide) (by simp [hc])
  have hblank : isBlank c = false := by
    simp only [isBlank, Bool.or_eq_false_iff, beq_eq_false_iff_ne]
    refine ⟨⟨⟨?_, ?_⟩, ?_⟩, ?_⟩ <;> rintro rfl <;> exact absurd hdigit (by decide)
  have hmagnitude := magnitude_toDigits n h
  rw [hc, List.cons_append] at hmagnitude
  rw [hdigits, hc, List.cons_append]
  apply scan_of_next? hblank
  rw [next?_of_isDigit hdigit, hmagnitude]
  rfl

end JsonToken

/-! ## Values -/

namespace JsonDatum

theorem itemTokens_cons (d : JsonDatum) (items : List JsonDatum) :
    itemTokens (d :: items) = d.tokens ++ items.flatMap fun d => .comma :: d.tokens := by
  induction items generalizing d with
  | nil => simp [itemTokens]
  | cons item items ih =>
      rw [itemTokens, ih, List.flatMap_cons, List.cons_append]
      exact List.cons_ne_nil item items

theorem memberTokens_cons (key : String) (d : JsonDatum) (members : List (String × JsonDatum)) :
    memberTokens ((key, d) :: members) =
      .str key :: .colon :: d.tokens ++
        members.flatMap fun m => .comma :: .str m.1 :: .colon :: m.2.tokens := by
  induction members generalizing key d with
  | nil => simp [memberTokens]
  | cons member members ih =>
      rw [memberTokens, ih, List.flatMap_cons, List.cons_append]
      · rfl
      · exact List.cons_ne_nil member members

end JsonDatum

namespace JsonValue

open JsonToken

theorem endsNumber_writeItems (l : Layout) (depth : Nat) (items : List JsonValue) {cs : List Char}
    (h : EndsNumber cs) : EndsNumber (writeItems l depth items ++ cs) := by
  cases items with
  | nil => exact h
  | cons item items => exact .cons (by decide) _

theorem endsNumber_writeMembers (l : Layout) (depth : Nat) (members : List (String × JsonValue))
    {cs : List Char} (h : EndsNumber cs) : EndsNumber (writeMembers l depth members ++ cs) := by
  cases members with
  | nil => exact h
  | cons member members => exact .cons (by decide) _

mutual

/-- **The text of a value is scanned as the tokens of this value.** -/
theorem scan_write (l : Layout) (depth : Nat) (j : JsonValue) {cs : List Char}
    (h : EndsNumber cs) :
    scan (j.write l depth ++ cs) = (scan cs).map (j.datum.tokens ++ ·) := by
  match j with
  | null | bool true | bool false => exact scan_of_next? rfl rfl
  | num n => exact scan_count n h
  | str s => exact scan_quoted s cs
  | arr [] =>
      rw [write, List.cons_append, List.singleton_append, scan_openBracket, scan_closeBracket,
        Option.map_map]
      rfl
  | arr (item :: items) =>
      -- An item is followed by a comma, a line break or the bracket: no number in it goes on there.
      have hend : EndsNumber (l.lineBreak depth ++ ']' :: cs) :=
        EndsNumber.lineBreak (.cons (by decide) cs) l depth
      simp only [write, List.cons_append, List.append_assoc, List.nil_append, scan_openBracket,
        scan_lineBreak, scan_write l (depth + 1) item (endsNumber_writeItems _ _ items hend),
        scan_writeItems l (depth + 1) items hend, scan_closeBracket, Option.map_map]
      congr 1
      funext ts
      simp [datum, itemData, JsonDatum.tokens, JsonDatum.itemTokens_cons]
  | obj [] =>
      rw [write, List.cons_append, List.singleton_append, scan_openBrace, scan_closeBrace,
        Option.map_map]
      rfl
  | obj ((key, value) :: members) =>
      have hend : EndsNumber (l.lineBreak depth ++ '\x7d' :: cs) :=
        EndsNumber.lineBreak (.cons (by decide) cs) l depth
      simp only [write, List.cons_append, List.append_assoc, List.nil_append, scan_openBrace,
        scan_lineBreak, scan_quoted, scan_colon,
        scan_write l (depth + 1) value (endsNumber_writeMembers _ _ members hend),
        scan_writeMembers l (depth + 1) members hend, scan_closeBrace, Option.map_map]
      congr 1
      funext ts
      simp [datum, memberData, JsonDatum.tokens, JsonDatum.memberTokens_cons]

theorem scan_writeItems (l : Layout) (depth : Nat) (items : List JsonValue) {cs : List Char}
    (h : EndsNumber cs) :
    scan (writeItems l depth items ++ cs) =
      (scan cs).map ((itemData items).flatMap (fun d => .comma :: d.tokens) ++ ·) := by
  match items with
  | [] => exact (congrFun Option.map_id (scan cs)).symm
  | item :: items =>
      simp only [writeItems, List.cons_append, List.append_assoc, scan_comma, scan_lineBreak,
        scan_write l depth item (endsNumber_writeItems _ _ items h),
        scan_writeItems l depth items h, Option.map_map]
      congr 1
      funext ts
      simp [itemData]

theorem scan_writeMembers (l : Layout) (depth : Nat) (members : List (String × JsonValue))
    {cs : List Char} (h : EndsNumber cs) :
    scan (writeMembers l depth members ++ cs) =
      (scan cs).map ((memberData members).flatMap
        (fun m => .comma :: .str m.1 :: .colon :: m.2.tokens) ++ ·) := by
  match members with
  | [] => exact (congrFun Option.map_id (scan cs)).symm
  | (key, value) :: members =>
      simp only [writeMembers, List.cons_append, List.append_assoc, scan_comma, scan_lineBreak,
        scan_quoted, scan_colon, scan_write l depth value (endsNumber_writeMembers _ _ members h),
        scan_writeMembers l depth members h, Option.map_map]
      congr 1
      funext ts
      simp [memberData]

end

/-- **Written values are read back.** Each layout of a value is read as this value, all of it, and
no two values have texts that are read as the same. -/
theorem read_render (j : JsonValue) :
    (∀ l, JsonDatum.read (j.render l) = some j.datum) ∧
      ∀ k l l', JsonDatum.read (j.render l) = JsonDatum.read (k.render l') ↔ j = k := by
  have hread : ∀ (j : JsonValue) (l : Layout), JsonDatum.read (j.render l) = some j.datum := by
    intro j l
    have hends : EndsNumber [] := by rintro c ⟨⟩
    have hscan := scan_write l 0 j hends
    rw [List.append_nil, scan, Option.map_some, List.append_nil] at hscan
    rw [JsonDatum.read, render, String.toList_ofList, hscan]
    exact JsonDatum.ofTokens?_eq_some_iff.2 rfl
  refine ⟨hread j, fun k l l' => ?_⟩
  rw [hread, hread]
  constructor
  · intro h
    exact datum_inj (Option.some.inj h)
  · rintro rfl
    rfl

end JsonValue

end EpubStyle
