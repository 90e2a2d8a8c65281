import Mathlib.Data.List.Induction
import EpubStyle.Proofs.Profile.SyntaxErrors
import EpubStyle.Proofs.Spans.Basic

/-!
# The order of tokens

Diagnostics are arranged by line and column. The tokens of a text stand in this order too, with one
exception: a reader that is at a line break has the line that the break starts, but still the column
of the line that it ends. So white space that begins with a line break may come to stand behind the
tokens of the next line (`Token.Outruns`), as in `ab`, line break, `cd`, where it is at line 2,
column 2, and `cd` at line 2, column 1 (`not_forall_pairwise_precedes`).

A character that is no line break stands before every later character of its text
(`Place.Counts.precedes`). This follows from what a reader counts, wherever tokens begin. Tokens
begin at later and later characters (`pairwise_offset_scanFrom`), and one that begins with a line
break is white space (`exists_counts_of_scan`).
-/

set_option autoImplicit false

namespace EpubStyle

/-- One location is on an earlier line than another, or before it on the same line. -/
def Location.Precedes (a b : Location) : Prop :=
  a.line < b.line ∨ a.line = b.line ∧ a.column < b.column

instance (a b : Location) : Decidable (a.Precedes b) := inferInstanceAs (Decidable (_ ∨ _))

/-! ## Lines -/

namespace Text

/-- A text has no line break if none of its characters is one. -/
theorem lineBreaks_eq_zero_iff (cs : List Char) :
    lineBreaks cs = 0 ↔ ∀ c ∈ cs, isLineBreak c = false := by
  fun_induction lineBreaks cs with
  | case1 => simp
  | case2 cs ih => simp [isLineBreak]
  | case3 c cs hpair ih =>
      rw [Nat.add_eq_zero_iff, ih, List.forall_mem_cons, and_comm]
      cases isLineBreak c <;> simp

/-- More text has no fewer line breaks. -/
theorem lineBreaks_le_append (cs ds : List Char) : lineBreaks cs ≤ lineBreaks (cs ++ ds) := by
  induction ds using List.reverseRecOn with
  | nil => exact Nat.le_of_eq (congrArg lineBreaks (List.append_nil cs).symm)
  | append_singleton ds d ih =>
      rw [← List.append_assoc, lineBreaks_concat]
      exact Nat.le_add_right_of_le ih

/-- The line breaks on the two sides of another character belong to no pair. -/
theorem lineBreaks_append_cons (cs ds : List Char) {c : Char} (hc : isLineBreak c = false) :
    lineBreaks (cs ++ c :: ds) = lineBreaks cs + lineBreaks ds := by
  induction ds using List.reverseRecOn with
  | nil =>
      rw [lineBreaks_concat, hc]
      rfl
  | append_singleton ds d ih =>
      have hlast : completesBreak (cs ++ c :: ds) d = completesBreak ds d := by
        apply completesBreak_congr
        cases ds with
        | nil =>
            have hreturn : c ≠ '\r' := by
              rintro rfl
              cases hc
            simp [hreturn]
        | cons e ds => rw [List.getLast?_append_cons, List.getLast?_cons_cons]
      rw [← List.cons_append, ← List.append_assoc, lineBreaks_concat, ih, lineBreaks_concat, hlast,
        Nat.add_assoc]

/-- Characters that are no line breaks belong to the current line. -/
theorem currentLine_append (cs : List Char) {ds : List Char} (h : ∀ d ∈ ds, isLineBreak d = false) :
    currentLine (cs ++ ds) = currentLine cs ++ ds := by
  have hall : ∀ d ∈ ds.reverse, (!isLineBreak d) = true := by
    intro d hd
    rw [h d (List.mem_reverse.1 hd), Bool.not_false]
  rw [currentLine, List.reverse_append, List.takeWhile_append_of_pos hall, List.reverse_append,
    List.reverse_reverse, currentLine]

/-- **A character that is no line break stands before every later one**, also before those that are
line breaks. -/
theorem Place.Counts.precedes {p q : Place} {cs ds : List Char} {c d : Char}
    (hp : p.Counts (cs ++ [c])) (hq : q.Counts (cs ++ c :: ds ++ [d])) (hc : isLineBreak c = false)
    (source : String) : (p.location source).Precedes (q.location source) := by
  rw [hp.location hc]
  have hline : (q.location source).line = lineBreaks cs + lineBreaks (ds ++ [d]) + 1 := by
    rw [← lineBreaks_append_cons cs _ hc, ← List.cons_append, ← List.append_assoc]
    exact hq.line
  rcases Nat.eq_zero_or_pos (lineBreaks (ds ++ [d])) with hnone | hsome
  · -- Both are on one line, which goes on from the first one to the second.
    have hall := (lineBreaks_eq_zero_iff _).1 hnone
    have hds : ∀ e ∈ c :: ds, isLineBreak e = false := by
      intro e he
      rcases List.mem_cons.1 he with rfl | he
      · exact hc
      · exact hall e (List.mem_append_left _ he)
    refine .inr ⟨by rw [hline, hnone], ?_⟩
    rw [hq.location (hall d (by simp)), currentLine_append cs hds, List.length_append,
      List.length_cons]
    show (currentLine cs).length + 1 < (currentLine cs).length + (ds.length + 1) + 1
    omega
  · refine .inl ?_
    rw [hline]
    show lineBreaks cs + 1 < lineBreaks cs + lineBreaks (ds ++ [d]) + 1
    omega

end Text

open Text

/-! ## Tokens -/

/-- A token is located at its first character, and it is white space if this is a blank. -/
theorem exists_place_of_scanFrom {source : String} {p : Place} {cs : List Char} {s : Scanned}
    (hs : s ∈ scanFrom source p cs) :
    ∃ n c, cs[n]? = some c ∧ s.token.location = (p.advance (n + 1) cs).location source ∧
      (isBlank c = true → s.token.kind = .space) := by
  fun_induction scanFrom source p cs with
  | case1 => cases hs
  | case2 p c cs l ih =>
      rcases List.mem_cons.1 hs with rfl | hs
      · refine ⟨0, c, rfl, rfl, ?_⟩
        intro hblank
        simp [Scanned.ofLexeme, l, Lexeme.read, Lexeme.readBody, hblank]
      · obtain ⟨n, d, hd, hlocation, hkind⟩ := ih hs
        rw [← List.drop_cons (Lexeme.length_read_pos c cs)] at hd hlocation
        rw [List.getElem?_drop] at hd
        rw [← Place.advance_add] at hlocation
        exact ⟨_, d, hd, hlocation, hkind⟩

/-- **Each token begins behind the one before it.** -/
theorem pairwise_offset_scanFrom (source : String) (p : Place) (cs : List Char) :
    (scanFrom source p cs).Pairwise
      (fun s t => s.token.location.offset < t.token.location.offset) := by
  fun_induction scanFrom source p cs with
  | case1 => exact .nil
  | case2 p c cs l ih =>
      refine List.pairwise_cons.2 ⟨?_, ih⟩
      intro t ht
      obtain ⟨n, d, -, hlocation, -⟩ := exists_place_of_scanFrom ht
      have hpos : 0 < l.piece.length := Lexeme.length_read_pos c cs
      have hfirst : (Scanned.ofLexeme source p (c :: cs) l).token.location.offset = p.offset + 1 :=
        Place.offset_advance p 1 _
      have hlater : t.token.location.offset = p.offset + l.piece.length + (n + 1) := by
        rw [hlocation, Place.location, Place.offset_advance, Place.offset_advance]
      omega

/-- A token of a text is located where a reader is that has read its first character. -/
theorem exists_counts_of_scan {text source : String} {s : Scanned} (hs : s ∈ scan text source) :
    ∃ front c rest p, text.toList = front ++ c :: rest ∧ Place.Counts p (front ++ [c]) ∧
      s.token.location = p.location source ∧ (isLineBreak c = true → s.token.kind = .space) := by
  obtain ⟨n, c, hc, hlocation, hkind⟩ := exists_place_of_scanFrom hs
  obtain ⟨hlt, rfl⟩ := List.getElem?_eq_some_iff.1 hc
  have hcounts := Place.counts_nil.advance (Nat.succ_le_of_lt hlt)
  rw [List.nil_append, List.take_succ_eq_append_getElem hlt] at hcounts
  refine ⟨_, _, text.toList.drop (n + 1), _, ?_, hcounts, hlocation, ?_⟩
  · rw [← List.drop_eq_getElem_cons hlt, List.take_append_drop]
  · intro hbreak
    apply hkind
    rw [isBlank, hbreak, Bool.or_true]

/-- Two tokens are located where a reader is that has read one more character at the first one, and
then goes on to the second. -/
theorem exists_counts_of_offset_lt {text source : String} {s t : Scanned}
    (hs : s ∈ scan text source) (ht : t ∈ scan text source)
    (hlt : s.token.location.offset < t.token.location.offset) :
    ∃ front c ds d p q, Place.Counts p (front ++ [c]) ∧ Place.Counts q (front ++ c :: ds ++ [d]) ∧
      s.token.location = p.location source ∧ t.token.location = q.location source ∧
      (s.token.ahead text).head? = some c ∧ (isLineBreak c = true → s.token.kind = .space) := by
  obtain ⟨front, c, rest, p, htext, hp, hsLocation, hkind⟩ := exists_counts_of_scan hs
  obtain ⟨front', d, rest', q, htext', hq, htLocation, -⟩ := exists_counts_of_scan ht
  have hsOffset : s.token.location.offset = front.length + 1 := by
    rw [hsLocation, Place.location, hp.offset, List.length_append, List.length_singleton]
  have htOffset : t.token.location.offset = front'.length + 1 := by
    rw [htLocation, Place.location, hq.offset, List.length_append, List.length_singleton]
  have hle : (front ++ [c]).length ≤ front'.length := by
    rw [List.length_append, List.length_singleton]
    omega
  -- Both texts that have been read are parts of the whole one.
  have hprefix : front ++ [c] <+: text.toList := ⟨rest, by rw [htext, ← List.append_cons]⟩
  have hprefix' : front' <+: text.toList := ⟨d :: rest', htext'.symm⟩
  obtain ⟨ds, rfl⟩ := List.prefix_of_prefix_length_le hprefix hprefix' hle
  rw [← List.append_cons] at hq
  refine ⟨front, c, ds, d, p, q, hp, hq, hsLocation, htLocation, ?_, hkind⟩
  rw [Token.ahead, hsOffset, htext, Nat.add_sub_cancel, List.drop_left, List.head?_cons]

/-- White space that begins with a line break has the line of a token behind it, and no smaller
column: the column is one of the line before. -/
structure Token.Outruns (text : String) (s t : Token) : Prop where
  kind : s.kind = .space
  lineBreak : ∃ c ∈ (s.ahead text).head?, isLineBreak c = true
  line : t.location.line = s.location.line
  column : t.location.column ≤ s.location.column

/-- **A token stands before a later one unless it outruns it.** -/
theorem precedes_iff_of_scan {text source : String} {s t : Scanned} (hs : s ∈ scan text source)
    (ht : t ∈ scan text source) (hlt : s.token.location.offset < t.token.location.offset) :
    s.token.location.Precedes t.token.location ↔ ¬ s.token.Outruns text t.token := by
  obtain ⟨front, c, ds, d, p, q, hp, hq, hsLocation, htLocation, hhead, hkind⟩ :=
    exists_counts_of_offset_lt hs ht hlt
  cases hc : isLineBreak c with
  | false =>
      have hprecedes := hp.precedes hq hc source
      rw [← hsLocation, ← htLocation] at hprecedes
      refine iff_of_true hprecedes ?_
      rintro ⟨-, ⟨e, he, hbreak⟩, -, -⟩
      rw [hhead] at he
      obtain rfl := Option.some.inj he
      rw [hc] at hbreak
      cases hbreak
  | true =>
      -- The line of the second token is no earlier one, so it is the column that decides.
      have hle : s.token.location.line ≤ t.token.location.line := by
        have hbreaks := lineBreaks_le_append (front ++ [c]) (ds ++ [d])
        rw [← List.append_assoc, ← List.append_cons] at hbreaks
        rw [hsLocation, htLocation, Place.location, Place.location, hp.line, hq.line]
        exact Nat.succ_le_succ hbreaks
      constructor
      · rintro hprecedes ⟨-, -, hline, hcolumn⟩
        rcases hprecedes with hline' | ⟨-, hcolumn'⟩ <;> omega
      · intro hnot
        rcases Nat.lt_or_eq_of_le hle with hline | hline
        · exact .inl hline
        · refine .inr ⟨hline, Nat.lt_of_not_le ?_⟩
          intro hcolumn
          exact hnot ⟨hkind hc, ⟨c, hhead, hc⟩, hline.symm, hcolumn⟩

/-- **Where source order is the order of positions.**

Of two tokens the first one has the smaller position, by line and column, unless it is white space
that begins with a line break and outruns the other. So where diagnostics are arranged by position,
two of them stand the other way round than the tokens they are at only if the earlier token outruns
the later one; and if it does, they stand in source order only if both have one position. -/
theorem pairwise_precedes_iff (text source : String) :
    (scan text source).Pairwise (fun s t =>
      s.token.location.Precedes t.token.location ↔ ¬ s.token.Outruns text t.token) ∧
    ∀ r : Report, r.ordered.diagnostics.Pairwise (fun a b =>
      ∀ s ∈ scan text source, ∀ t ∈ scan text source,
        a.isAt s.token.location.line s.token.location.column →
        b.isAt t.token.location.line t.token.location.column →
          (t.token.location.offset < s.token.location.offset → t.token.Outruns text s.token) ∧
          (s.token.location.offset < t.token.location.offset → s.token.Outruns text t.token →
            s.token.location.column = t.token.location.column)) := by
  constructor
  · refine List.Pairwise.imp_of_mem ?_ (pairwise_offset_scanFrom source {} text.toList)
    intro s t hs ht hlt
    exact precedes_iff_of_scan hs ht hlt
  · intro r
    apply (Report.pairwise_ordered r).imp
    intro a b hordered s hs t ht ha hb
    simp only [Diagnostic.isAt, Bool.and_eq_true, beq_iff_eq] at ha hb
    rw [ha.1, ha.2, hb.1, hb.2] at hordered
    constructor
    · intro hlt
      -- Otherwise the earlier token has the smaller position, against the order of the diagnostics.
      by_contra hnot
      rcases (precedes_iff_of_scan ht hs hlt).2 hnot with hline | ⟨hline, hcolumn⟩ <;> omega
    · rintro - ⟨-, -, hline, hcolumn⟩
      omega

/-- A diagnostic at a line feed and one at the word behind it change places in a report. -/
theorem pairwise_precedes_iff_lineFeed :
    ∃ s ∈ scan "ab\ncd" "", ∃ t ∈ scan "ab\ncd" "", ∃ a b : Diagnostic,
      s.token.location.offset < t.token.location.offset ∧
      a.isAt s.token.location.line s.token.location.column ∧
      b.isAt t.token.location.line t.token.location.column ∧
      (Report.ofDiagnostics [a, b]).ordered.diagnostics = [b, a] ∧
      s.token.Outruns "ab\ncd" t.token := by
  let s : Scanned := ⟨⟨.space, " ", ⟨2, 2, 3, ""⟩, []⟩, []⟩
  let t : Scanned := ⟨⟨.ident, "cd", ⟨2, 1, 4, ""⟩, []⟩, []⟩
  let a : Diagnostic := ⟨default, "", 2, 2⟩
  let b : Diagnostic := ⟨default, "", 2, 1⟩
  have hscan : scan "ab\ncd" "" = [⟨⟨.ident, "ab", ⟨1, 1, 1, ""⟩, []⟩, []⟩, s, t] := by
    decide +kernel
  have hs : s ∈ scan "ab\ncd" "" := by simp [hscan]
  have ht : t ∈ scan "ab\ncd" "" := by simp [hscan]
  have hordered : (Report.ofDiagnostics [a, b]).ordered.diagnostics = [b, a] := by
    simp [Report.ordered, Report.ofDiagnostics, List.mergeSort, Diagnostic.notAfter, a, b]
  have hpairwise := (pairwise_precedes_iff "ab\ncd" "").2 (Report.ofDiagnostics [a, b])
  rw [hordered] at hpairwise
  have houtruns := (List.pairwise_pair.1 hpairwise t ht s hs rfl rfl).1 (by decide)
  exact ⟨s, hs, t, ht, a, b, by decide, rfl, rfl, hordered, houtruns⟩

/-- White space with a line break is behind the token of the next line. -/
theorem not_forall_pairwise_precedes :
    ¬ ∀ text source, (scan text source).Pairwise
      (fun s t => s.token.location.Precedes t.token.location) := by
  intro hall
  have hscan : (scan "ab\ncd" "").map (·.token.location) =
      [⟨1, 1, 1, ""⟩, ⟨2, 2, 3, ""⟩, ⟨2, 1, 4, ""⟩] := by
    decide +kernel
  have hpairwise := List.pairwise_map.2 (hall "ab\ncd" "")
  rw [hscan] at hpairwise
  revert hpairwise
  decide

end EpubStyle
