import Mathlib.Data.List.TakeWhile
import EpubStyle.Construct.Nesting
import EpubStyle.Proofs.Rescan.Tokens

/-!
# The spellings of an address

An address may be written with quotation marks of either kind or without any, with blanks around it,
and behind `url` in any case. The scanner brings these spellings together in part: blanks around the
address are dropped, quotation marks become apostrophes but stay, and the parenthesis is put back.
`Construct.address` does the rest, on bytes and from both ends of the text.

## What this module delivers

- `Lexeme.address_plain`: an address without quotation marks is read up to the parenthesis, and the
  blanks on either side are not part of it.
- `Construct.address_uriText`: from the text of the token, with quotation marks or without,
  `Construct.address` gets back what stands between them.
- `Construct.build_uri`: the construct built from an address token has the text of the token.
- `scan_spelling`: each spelling of an address that needs no quotation marks is one token, and the
  construct built from it refers to that address.
-/

set_option autoImplicit false

namespace EpubStyle

open Text

/-- An address that means the same with quotation marks and without: no character in it ends a
string or an address, and no blank stands at either end. -/
structure PlainAddress (u : List Char) : Prop where
  plain : ∀ c ∈ u, isQuote c = false ∧ c ≠ '\\' ∧ c ≠ ')' ∧ isLineBreak c = false
  front : ∀ c ∈ u.head?, isBlank c = false
  back : ∀ c ∈ u.getLast?, isBlank c = false

/-- What may stand on both sides of an address: nothing, or a quotation mark. -/
def addressMarks : List (List Char) := [[], ['\x27'], ['\x22']]

/-- A spelling of the address `u`: with `word` for `url`, between `marks`, and with the blanks `v`
and `w` around it. -/
def addressSpelling (word marks v u w : List Char) : String :=
  String.ofList (word ++ '(' :: (v ++ (marks ++ u ++ marks) ++ (w ++ [')'])))

/-! ## Trimming -/

/-- What stands between characters of a class is what trimming leaves, if the class has neither end
of it. -/
theorem Text.trimBy_append {α : Type} {p : α → Bool} {v u w : List α} (hv : ∀ a ∈ v, p a = true)
    (hfront : ∀ a ∈ u.head?, p a = false) (hback : ∀ a ∈ u.getLast?, p a = false)
    (hw : ∀ a ∈ w, p a = true) : trimBy p (v ++ u ++ w) = u := by
  have hw' : ∀ a ∈ w.reverse, p a = true := fun a ha => hw a (List.mem_reverse.1 ha)
  cases u with
  | nil =>
      have hall : ∀ a ∈ v ++ w, p a = true := fun a ha => (List.mem_append.1 ha).elim (hv a) (hw a)
      rw [trimBy, List.append_nil, List.dropWhile_eq_nil_iff.2 hall]
      rfl
  | cons a u =>
      have hstart : (a :: u ++ w).dropWhile p = a :: u ++ w :=
        List.dropWhile_cons_of_neg (by simp [hfront a rfl])
      have hend : (a :: u).reverse.dropWhile p = (a :: u).reverse := by
        cases hcons : (a :: u).reverse with
        | nil => rfl
        | cons b rest =>
            have hb : p b = false := by
              apply hback b
              rw [List.getLast?_eq_head?_reverse, hcons]
              rfl
            exact List.dropWhile_cons_of_neg (by simp [hb])
      rw [trimBy, List.append_assoc, List.dropWhile_append_of_pos hv, hstart, List.reverse_append,
        List.dropWhile_append_of_pos hw', hend, List.reverse_reverse]

namespace Lexeme

/-! ## Scanning -/

/-- **An address without quotation marks**, with blanks around it. -/
theorem address_plain {v u w : List Char} (hu : PlainAddress u) (hv : ∀ c ∈ v, isBlank c = true)
    (hw : ∀ c ∈ w, isBlank c = true) :
    address (v ++ u ++ (w ++ [')'])) = ⟨u, (v ++ u ++ (w ++ [')'])).length, []⟩ := by
  -- Blanks behind an empty address are skipped together with those before it.
  obtain ⟨front, cs, hfront, hsplit, hbegin, htrim, hcs⟩ : ∃ front cs,
      (∀ c ∈ front, isBlank c = true) ∧ v ++ u ++ (w ++ [')']) = front ++ (cs ++ [')']) ∧
        BeginsBare cs ∧ trimmed cs = u ∧ ∀ c ∈ cs, c ≠ '\\' ∧ c ≠ ')' := by
    have hspace : ∀ c ∈ w, c ≠ '\\' ∧ c ≠ ')' := by
      intro c hc
      constructor
      all_goals
        rintro rfl
        cases hw _ hc
    cases u with
    | nil =>
        refine ⟨v ++ w, [], ?_, by simp, by simp [BeginsBare], rfl, by simp⟩
        exact fun c hc => (List.mem_append.1 hc).elim (hv c) (hw c)
    | cons d u =>
        refine ⟨v, d :: u ++ w, hv, by simp, ?_, ?_, ?_⟩
        · rintro c hc
          obtain rfl := Option.some.inj hc
          exact ⟨hu.front d rfl, (hu.plain d (List.mem_cons_self ..)).1⟩
        · -- No blank stands in front, so the blanks at the end are all that trimming can take.
          have hkept : trimBy isBlank ([] ++ d :: u ++ w) = d :: u :=
            trimBy_append (by simp) hu.front hu.back hw
          have hstart : (d :: u ++ w).dropWhile isBlank = d :: u ++ w :=
            List.dropWhile_cons_of_neg (by simp [hu.front d rfl])
          rwa [trimBy, List.nil_append, hstart] at hkept
        · intro c hc
          rcases List.mem_append.1 hc with hc | hc
          · exact ⟨(hu.plain c hc).2.1, (hu.plain c hc).2.2.1⟩
          · exact hspace c hc
  have hback : '\\' ∉ cs := fun hmem => (hcs _ hmem).1 rfl
  have hclose : ')' ∉ cs := fun hmem => (hcs _ hmem).2 rfl
  have hexposed := exposed_of_not_mem hback
  rw [← hexposed] at hback hclose
  rw [hsplit, address_eq_spaced hfront hbegin, bareAddress_again hback hclose [], htrim]
  refine congrArg (fun n => (⟨u, n, []⟩ : Piece)) ?_
  simp [Piece.silent, Piece.withText]

end Lexeme

namespace Construct

/-! ## Constructs -/

/-- The text of an address token leads back to what stands between its marks. -/
theorem address_uriText {u marks : List Char} (hu : PlainAddress u)
    (hmarks : ∀ c ∈ marks, isQuote c = true) :
    address (String.ofList ('u' :: 'r' :: 'l' :: '(' :: (marks ++ u ++ marks ++ [')']))) =
      String.ofList u := by
  have hsizes : 'u'.utf8Size = 1 ∧ 'r'.utf8Size = 1 ∧ 'l'.utf8Size = 1 ∧ '('.utf8Size = 1 ∧
      ')'.utf8Size = 1 := by decide
  have hopening : ∀ cs, dropBytes 4 ('u' :: 'r' :: 'l' :: '(' :: cs) = some cs := by
    intro cs
    simp [dropBytes, hsizes]
  have hedge : ∀ c, isBlank c = false → c ∈ u → (isQuote c || isBlank c) = false :=
    fun c hc hmem => by simp [hc, (hu.plain c hmem).1]
  have hmarks' : ∀ c ∈ marks, (isQuote c || isBlank c) = true := fun c hc => by simp [hmarks c hc]
  have htrim := trimBy_append hmarks'
    (fun c hc => hedge c (hu.front c hc) (List.mem_of_mem_head? hc))
    (fun c hc => hedge c (hu.back c hc) (List.mem_of_mem_getLast? hc)) hmarks'
  simp only [address, String.toList_ofList, hopening, List.getLast?_concat, List.dropLast_concat,
    Option.any_some, hsizes, htrim, beq_self_eq_true, if_true]

/-- What is built from an address token, where an address may stand. -/
theorem build_uri {t : Token} (h : t.kind = .uri) (context : Context) (limit : TokenClass)
    (walk : Walk) :
    build context limit t walk =
      (some (if context.permits (.atom .uri t.text t.location) then
        some (.atom .uri t.text t.location) else none), walk) := by
  have hstart : t.valueStart = .atom (.atom .uri t.text t.location) := by
    simp [Token.valueStart, h]
  simp only [build, Nesting.start, hstart]
  cases context.permits (.atom .uri t.text t.location) <;> rfl

end Construct

/-! ## Spellings -/

/-- What an address token is read from, for an address that is read without faults. -/
theorem scansAs_uri {word : List Char} (hword : sameWord ['u', 'r', 'l'] word = true)
    {cs text : List Char} (h : Lexeme.address cs = ⟨text, cs.length, []⟩) :
    ScansAs (String.ofList (word ++ '(' :: cs)) .uri
      (String.ofList ('u' :: 'r' :: 'l' :: '(' :: (text ++ [')']))) := by
  obtain ⟨a, b, c, rfl⟩ := List.length_eq_three.1 (length_of_sameWord hword)
  simp only [sameWord, Bool.and_eq_true, and_true] at hword
  have hstarts : startsWord ['u', 'r', 'l', '('] (a :: b :: c :: '(' :: cs) = true := by
    simp only [startsWord, Bool.and_eq_true, and_true]
    exact ⟨hword.1, hword.2.1, hword.2.2, by decide⟩
  have huri : Lexeme.uri (b :: c :: '(' :: cs) =
      ⟨.uri, ⟨'u' :: 'r' :: 'l' :: '(' :: (text ++ [')']), 4 + cs.length, []⟩⟩ := by
    simp only [Lexeme.uri, List.drop_succ_cons, List.drop_zero, h]
    rfl
  have hlength : 4 + cs.length = (a :: b :: c :: '(' :: cs).length := by
    simp only [List.length_cons]
    omega
  rw [hlength] at huri
  refine scansAs_of_read ((Lexeme.readBody_url hstarts).trans huri) (Lexeme.probe_eq_nil ?_ ?_ ?_)
  · rintro rfl
    exact absurd hword.1 (by decide)
  · rintro rfl
    exact absurd hword.1 (by decide)
  · intro heq
    obtain rfl := Option.some.inj heq
    exact absurd hword.2.1 (by decide)

/-- **All spellings of an address refer to it.** Between quotation marks of either kind or without
them, and with blanks around it, an address is one token without faults, and the construct built
from the token gives it back. -/
theorem scan_spelling {word u v w : List Char} (hword : sameWord ['u', 'r', 'l'] word = true)
    (hu : PlainAddress u) (hv : ∀ c ∈ v, isBlank c = true) (hw : ∀ c ∈ w, isBlank c = true) :
    ∀ marks ∈ addressMarks, ∀ source, ∃ t : Token,
      scan (addressSpelling word marks v u w) source = [⟨t, []⟩] ∧ t.kind = .uri ∧
        t.faults = [] ∧ Construct.address t.text = String.ofList u ∧
        ∀ context limit walk, Construct.build context limit t walk =
          (some (if context.permits (.atom .uri t.text t.location) then
            some (.atom .uri t.text t.location) else none), walk) := by
  intro marks hmarks source
  -- The text of the token has the address between apostrophes or nothing.
  obtain ⟨kept, hkept, hscans⟩ : ∃ kept : List Char, (∀ c ∈ kept, isQuote c = true) ∧
      ScansAs (addressSpelling word marks v u w) .uri
        (String.ofList ('u' :: 'r' :: 'l' :: '(' :: (kept ++ u ++ kept ++ [')']))) := by
    have hquoted : ∀ quote, isQuote quote = true → ScansAs (addressSpelling word [quote] v u w) .uri
        (String.ofList ('u' :: 'r' :: 'l' :: '(' :: (['\x27'] ++ u ++ ['\x27'] ++ [')']))) := by
      intro quote hquote
      have hback : '\\' ∉ u := fun hmem => (hu.plain _ hmem).2.1 rfl
      have hfree : quote ∉ u := fun hmem => by simp [(hu.plain _ hmem).1] at hquote
      have hexposed := exposed_of_not_mem hback
      rw [← hexposed] at hback hfree
      have haddress := Lexeme.address_quoted hquote hv hback hfree
        (fun c hc => (hu.plain c hc).2.2.2) hw
      have htext : v ++ ([quote] ++ u ++ [quote]) ++ (w ++ [')']) =
          v ++ quote :: (u ++ quote :: (w ++ [')'])) := by simp
      rw [addressSpelling, htext]
      exact scansAs_uri hword haddress
    simp only [addressMarks, List.mem_cons, List.not_mem_nil, or_false] at hmarks
    rcases hmarks with rfl | rfl | rfl
    · refine ⟨[], by simp, ?_⟩
      rw [addressSpelling, List.nil_append, List.append_nil]
      exact scansAs_uri hword (Lexeme.address_plain hu hv hw)
    · exact ⟨['\x27'], by simp [isQuote], hquoted '\x27' rfl⟩
    · exact ⟨['\x27'], by simp [isQuote], hquoted '\x22' rfl⟩
  obtain ⟨t, hscan, hkind, htext, hfaults⟩ := hscans source
  refine ⟨t, hscan, hkind, hfaults, ?_, fun context limit walk => Construct.build_uri hkind ..⟩
  rw [htext]
  exact Construct.address_uriText hu hkept

/-- An address with a blank in it, between quotation marks with blanks around them, and behind `url`
in mixed case. -/
theorem scan_spelling_blank : ∃ t : Token, scan "Url( \"a b\"\n)" "" = [⟨t, []⟩] ∧
    Construct.address t.text = "a b" ∧
      Construct.build .propertyValue (fun _ => false) t (.ofList []) =
        (some (some (.atom .uri t.text t.location)), .ofList []) := by
  have hu : PlainAddress ['a', ' ', 'b'] :=
    ⟨by simp [isQuote, isLineBreak], by simp [isBlank, isLineBreak], by simp [isBlank, isLineBreak]⟩
  have hword : sameWord ['u', 'r', 'l'] ['U', 'r', 'l'] = true := by decide
  have hspace : ∀ c ∈ [' '], isBlank c = true := by simp [isBlank]
  have hbreak : ∀ c ∈ ['\n'], isBlank c = true := by simp [isBlank, isLineBreak]
  obtain ⟨t, hscan, -, -, haddress, hbuild⟩ :=
    scan_spelling hword hu hspace hbreak ['\x22'] (by simp [addressMarks]) ""
  exact ⟨t, hscan, haddress, hbuild .propertyValue (fun _ => false) (.ofList [])⟩

end EpubStyle
