import EpubStyle.Proofs.Writing.Carrying
import EpubStyle.Proofs.Writing.Layout

/-!
# Reading in place

Where a text is cut into tokens that carry its own strokes, every sign among the strokes is read
from just the characters that are written for it (`legible_of_carried`).

The reason is weight. No sign is written with more weight than it is read from (`Sign.fits`) and no
`!important` is read from less than its own, so the tokens weigh at least as much as the strokes
(`Carried.weight_le`). Both are the same text, so all of this is an equality, and what separates the
signs weighs nothing. Going through the text from the front, the tokens and the strokes are then at
the same character whenever a sign starts (`legible_of_spelled`). Only an `!important` may be among
the values of a declaration rather than behind them; but what is written behind them cannot be read
as anything else (`exists_importance`).
-/

set_option autoImplicit false

namespace EpubStyle

open Concrete Text Stroke

/-! ## The weight of strokes -/

/-- The weight of what is written for signs. -/
def writtenWeight : List Sign → Nat
  | [] => 0
  | x :: xs => weight x.written.toList + writtenWeight xs

theorem weight_texts {vs : List Stroke} (hquiet : importance ∉ vs) :
    weight (texts vs).toList = writtenWeight (signs vs) := by
  induction vs with
  | nil => rfl
  | cons s vs ih =>
      have hvs := ih (fun hmem => hquiet (List.mem_cons_of_mem _ hmem))
      cases s with
      | blank c fits =>
          have hc : isWeightless c = true := by simp [isWeightless, fits]
          simp [texts, text, weight_cons, hc, hvs]
      | sign x => simp [texts, text, writtenWeight, hvs]
      | importance => exact absurd (List.mem_cons_self ..) hquiet
      | semicolon =>
          have hc : isWeightless ';' = true := by decide
          simp [texts, text, weight_cons, hc, hvs]

/-- Cuttings that spell signs are no lighter than what is written for these, and every `!important`
among them adds its own weight. -/
theorem Spelled.weight_le {xs : List Sign} {ps : List Cutting} {behind : List Char}
    (h : Spelled .separator xs (cutTokens ps)) (hcuts : Cuts behind ps) :
    writtenWeight xs + 10 * (cutTokens ps).countP (fun t => t.kind == .important) ≤
      weight (raws ps) := by
  generalize hts : cutTokens ps = ts at h
  induction h generalizing ps with
  | nil =>
      obtain rfl := List.map_eq_nil_iff.1 hts
      simp [writtenWeight]
  | separator t ht rest ih =>
      obtain ⟨p, ps, rfl, rfl, rfl⟩ := exists_of_cutTokens_cons hts
      have hrest := ih hcuts.2.2 rfl
      have hp := readFrom_of_cuts hcuts p (List.mem_cons_self ..)
      rw [raws_cons, weight_append, List.countP_cons]
      split
      · next himportant =>
          have hten := hp.important (eq_of_beq himportant)
          omega
      · omega
  | @sign x xs us ts hx rest ih =>
      obtain ⟨qs, ps, rfl, rfl, rfl⟩ := exists_of_cutTokens_append hts
      obtain ⟨hqs, hps⟩ := cuts_append.1 hcuts
      have hrest := ih hps rfl
      have hfits := (Sign.fits hqs hx).weight_le
      -- Each `!important` is a separator, so none is counted among the tokens of a sign.
      have hnone : (cutTokens qs).countP (fun t => t.kind == .important) = 0 := by
        rw [List.countP_eq_zero]
        intro t ht himportant
        have hseparator := hx.not_separator t ht
        simp [TokenClass.separator, eq_of_beq himportant] at hseparator
      rw [raws_append, weight_append, List.countP_append, hnone, writtenWeight]
      omega

/-- Signs that are spelled weigh something. -/
theorem Spelled.length_le {xs : List Sign} {ps : List Cutting} {behind : List Char}
    (h : Spelled .separator xs (cutTokens ps)) (hcuts : Cuts behind ps) :
    xs.length ≤ writtenWeight xs := by
  generalize hts : cutTokens ps = ts at h
  induction h generalizing ps with
  | nil => exact Nat.zero_le _
  | separator t ht rest ih =>
      obtain ⟨p, ps, rfl, rfl, rfl⟩ := exists_of_cutTokens_cons hts
      exact ih hcuts.2.2 rfl
  | sign hx rest ih =>
      obtain ⟨qs, ps, rfl, rfl, rfl⟩ := exists_of_cutTokens_append hts
      obtain ⟨hqs, hps⟩ := cuts_append.1 hcuts
      have hrest := ih hps rfl
      obtain ⟨c, cs, htext, hc⟩ := (Sign.fits hqs hx).solid
      rw [writtenWeight, htext, weight_cons, hc, List.length_cons]
      simp only [Bool.false_eq_true, if_false]
      omega

/-- **Tokens that carry strokes are no lighter than these.** -/
theorem Carried.weight_le {ss : List Stroke} {ps : List Cutting}
    (h : Carried ss (cutTokens ps)) (hcuts : Cuts [] ps) :
    weight (texts ss).toList ≤ weight (raws ps) := by
  generalize hts : cutTokens ps = ts at h
  induction h generalizing ps with
  | nil =>
      obtain rfl := List.map_eq_nil_iff.1 hts
      exact Nat.zero_le _
  | quiet vs us hquiet hspelled rest ih =>
      obtain ⟨qs, ps, rfl, rfl, rfl⟩ := exists_of_cutTokens_append hts
      obtain ⟨hqs, hps⟩ := cuts_append.1 hcuts
      have hrest := ih hps rfl
      have hle := hspelled.weight_le hqs
      rw [texts_append, String.toList_append, weight_append, weight_texts hquiet, raws_append,
        weight_append]
      omega
  | important hquiet hvalued hspelled hmark rest ih =>
      obtain ⟨qs, ps, rfl, rfl, rfl⟩ := exists_of_cutTokens_append hts
      obtain ⟨hqs, hps⟩ := cuts_append.1 hcuts
      have hrest := ih hps rfl
      have hle := hspelled.weight_le hqs
      have hcount : 0 < (cutTokens qs).countP (fun t => t.kind == .important) := by
        obtain ⟨t, ht, hkind⟩ := hmark
        exact List.countP_pos_iff.2 ⟨t, ht, by simp [hkind]⟩
      -- What is written for an `!important` weighs ten, and one was read for it.
      have hspace : weight (space.text ++ importance.text).toList = 10 := by decide
      rw [String.toList_append, weight_append] at hspace
      simp only [texts_append, texts, String.toList_append, weight_append, weight_texts hquiet,
        raws_append]
      omega

/-! ## Signs in place -/

/-- A text that is as heavy as what it is written for, at the same place, is just that. -/
theorem Fits.eq_of_append {text raw more rest : List Char} (h : Fits text raw)
    (hweight : weight text = weight raw) (heq : raw ++ rest = text ++ more) : raw = text := by
  rcases h.tight hweight with hlength | hlast
  · exact (List.append_inj heq hlength.symm).1
  · obtain ⟨extra, hraw⟩ : ∃ extra, raw = text ++ extra := by
      obtain ⟨extra, htext, -⟩ | ⟨extra, hraw, -⟩ := List.append_eq_append_iff.1 heq
      · have hle := h.length_le
        rw [htext, List.length_append] at hle
        obtain rfl := List.eq_nil_of_length_eq_zero (l := extra) (by omega)
        exact ⟨[], by rw [htext, List.append_nil, List.append_nil]⟩
      · exact ⟨extra, hraw⟩
    rcases List.eq_nil_or_concat extra with rfl | ⟨extra, c, rfl⟩
    · rw [hraw, List.append_nil]
    · rw [List.concat_eq_append] at hraw
      rw [hraw, ← List.append_assoc, List.getLast?_concat] at hlast
      obtain rfl := Option.some.inj hlast
      have hparenthesis : weight [')'] = 1 := by decide
      rw [hraw, weight_append, weight_append, hparenthesis] at hweight
      omega

/-- Strokes without signs are legible. -/
theorem legible_append_of_signs {vs : List Stroke} (h : signs vs = []) {tail : List Stroke}
    (htail : Legible tail) : Legible (vs ++ tail) := by
  induction vs with
  | nil => exact htail
  | cons s vs ih =>
      cases s with
      | sign x => cases h
      | blank c fits => exact ih h
      | importance => exact ih h
      | semicolon => exact ih h

/-- **Signs are read in place.** Cuttings that spell the signs of strokes, at the same place in a
text and with the same weight, read each sign where it is written. -/
theorem legible_of_spelled {vs : List Stroke} (tail : List Stroke) {ps : List Cutting}
    {behind : List Char} (hquiet : importance ∉ vs)
    (h : Spelled .separator (signs vs) (cutTokens ps))
    (hcuts : Cuts behind ps) (hweight : weight (raws ps) = writtenWeight (signs vs))
    (hcore : core (raws ps ++ behind) = core (texts (vs ++ tail)).toList) :
    core behind = core (texts tail).toList ∧ (Legible tail → Legible (vs ++ tail)) := by
  generalize hxs : signs vs = xs at h hweight
  generalize hts : cutTokens ps = ts at h
  induction h generalizing vs ps with
  | nil =>
      obtain rfl := List.map_eq_nil_iff.1 hts
      have hvs : weight (texts vs).toList = 0 := by
        rw [weight_texts hquiet, hxs]
        rfl
      rw [texts_append, String.toList_append, core_append_of_weight hvs] at hcore
      exact ⟨hcore, legible_append_of_signs hxs⟩
  | separator t ht rest ih =>
      obtain ⟨p, ps, rfl, rfl, rfl⟩ := exists_of_cutTokens_cons hts
      have hle := rest.weight_le hcuts.2.2
      rw [raws_cons, weight_append] at hweight
      have hp : weight p.raw = 0 := by omega
      rw [raws_cons, List.append_assoc, core_append_of_weight hp] at hcore
      exact ih hquiet hcuts.2.2 hcore hxs (by omega) rfl
  | @sign x xs us ts hx rest ih =>
      obtain ⟨qs, ps, rfl, rfl, rfl⟩ := exists_of_cutTokens_append hts
      obtain ⟨hqs, hps⟩ := cuts_append.1 hcuts
      obtain ⟨before, s, vs, rfl, hbefore, hs, hsigns⟩ := List.filterMap_eq_cons_iff.1 hxs
      obtain rfl : s = .sign x := by
        cases s with
        | sign y => exact congrArg Stroke.sign (Option.some.inj hs)
        | blank c fits | importance | semicolon => cases hs
      have hnone : signs before = [] := List.filterMap_eq_nil_iff.2 hbefore
      have hquietBefore : importance ∉ before := fun hmem => hquiet (List.mem_append_left _ hmem)
      have hquietRest : importance ∉ vs := fun hmem =>
        hquiet (List.mem_append_right _ (List.mem_cons_of_mem _ hmem))
      have hfits := Sign.fits hqs hx
      have hle := rest.weight_le hps
      have hfitsWeight := hfits.weight_le
      rw [raws_append, weight_append, writtenWeight] at hweight
      have hlight : weight (texts before).toList = 0 := by
        rw [weight_texts hquietBefore, hnone]
        rfl
      -- Nothing with a weight is written before the sign, so it stands where the cuttings begin.
      have hplace : raws qs ++ (raws ps ++ behind) =
          x.written.toList ++ (texts (vs ++ tail)).toList := by
        rw [List.append_assoc, texts_append, String.toList_append, core_append_of_weight hlight,
          List.cons_append, texts, String.toList_append, raws_append, List.append_assoc,
          core_of_solid (hfits.front.append _)] at hcore
        exact hcore.trans (core_of_solid (hfits.solid.append _))
      -- What is read for a sign is no lighter than the sign, and here it cannot be heavier.
      have hraw := hfits.eq_of_append (by omega) hplace
      have hrest : raws ps ++ behind = (texts (vs ++ tail)).toList := by
        rw [hraw] at hplace
        exact List.append_cancel_left hplace
      obtain ⟨htail, hlegible⟩ := ih hquietRest hps (congrArg core hrest) hsigns (by omega) rfl
      refine ⟨htail, fun h => ?_⟩
      rw [List.append_assoc, List.cons_append]
      refine legible_append_of_signs hnone ⟨⟨qs, ?_, hraw, hx⟩, hlegible h⟩
      rwa [← hrest]

/-! ## Where an `!important` is read -/

/-- The cutting that a character of a text belongs to. -/
theorem exists_cutting_of_mem {qs : List Cutting} {before after : List Char} {c : Char}
    (h : raws qs = before ++ c :: after) :
    ∃ pre q post b d, qs = pre ++ q :: post ∧ q.raw = b ++ c :: d ∧
      before = raws pre ++ b ∧ after = d ++ raws post := by
  induction qs generalizing before with
  | nil => simp at h
  | cons q qs ih =>
      rw [raws_cons] at h
      obtain ⟨more, rfl, hqs⟩ | ⟨more, hraw, hafter⟩ := List.append_eq_append_iff.1 h
      · obtain ⟨pre, p, post, b, d, rfl, hp, rfl, rfl⟩ := ih hqs
        exact ⟨q :: pre, p, post, b, d, rfl, hp, by simp, rfl⟩
      · cases more with
        | nil =>
            have hqs : raws qs = [] ++ c :: after := hafter.symm
            obtain ⟨pre, p, post, b, d, rfl, hp, hnil, rfl⟩ := ih hqs
            refine ⟨q :: pre, p, post, b, d, rfl, hp, ?_, rfl⟩
            rw [raws_cons, List.append_assoc, ← hnil, hraw, List.append_nil, List.append_nil]
        | cons c' d =>
            obtain ⟨rfl, rfl⟩ := List.cons.inj hafter
            exact ⟨[], q, qs, before, d, rfl, hraw, rfl, rfl⟩

/-- What is read from the blank before an `!important` on does not end with it. -/
theorem not_straddles {q : Cutting} (hread : q.lexeme.ReadFrom q.raw) {b d rest extra : List Char}
    (hd : d ++ rest = ['i', 'm', 'p', 'o', 'r', 't', 'a', 'n', 't'] ++ extra)
    (hextra : weight extra = 0) : q.raw ≠ b ++ ' ' :: '!' :: d := by
  intro hraw
  obtain ⟨c, hc, hlast⟩ := hread.closed b d hraw
  have hmem : c ∈ '!' :: (['i', 'm', 'p', 'o', 'r', 't', 'a', 'n', 't'] ++ extra) := by
    have hend : c ∈ '!' :: d := by
      rw [hraw, List.getLast?_append, List.getLast?_cons_cons] at hlast
      refine List.mem_of_getLast? ?_
      simpa using hlast
    rw [← hd]
    rcases List.mem_cons.1 hend with rfl | hend
    · exact List.mem_cons_self ..
    · exact List.mem_cons_of_mem _ (List.mem_append_left _ hend)
  have hsolid : isWeightless c = false := by
    simp only [List.mem_cons, List.not_mem_nil, or_false] at hc
    rcases hc with rfl | rfl | rfl | rfl <;> decide
  rw [← List.cons_append, List.mem_append] at hmem
  rcases hmem with hmem | hmem
  · simp only [List.mem_cons, List.not_mem_nil, or_false] at hc hmem
    rcases hc with rfl | rfl | rfl | rfl <;> simp at hmem
  · rw [weight_eq_zero_iff.1 hextra c hmem] at hsolid
    cases hsolid

/-- An `!important` that is written behind signs is behind the same weight of what is read. -/
theorem exists_before_importance {vs ss : List Stroke} {raw behind : List Char}
    (hquiet : importance ∉ vs) (hvalued : writtenWeight (signs vs) ≠ 0)
    (hweight : weight raw = writtenWeight (signs vs) + 10)
    (hcore : core (raw ++ behind) = core (texts (vs ++ space :: importance :: ss)).toList) :
    ∃ before mark, raw = before ++ ' ' :: '!' :: mark ∧ weight before = writtenWeight (signs vs) ∧
      mark ++ behind =
        ['i', 'm', 'p', 'o', 'r', 't', 'a', 'n', 't'] ++ (texts ss).toList ∧ weight mark = 9 := by
  have hwritten := weight_texts hquiet
  have htexts : (texts (vs ++ space :: importance :: ss)).toList = (texts vs).toList ++
      ' ' :: '!' :: (['i', 'm', 'p', 'o', 'r', 't', 'a', 'n', 't'] ++ (texts ss).toList) := by
    simp [texts, text]
  obtain ⟨front, hfront, hlight⟩ := exists_append_core (raw ++ behind)
  rw [hcore, htexts, core_append (by rwa [hwritten]), ← List.append_assoc] at hfront
  have hbefore : weight (front ++ core (texts vs).toList) = writtenWeight (signs vs) := by
    rw [weight_append, hlight, weight_core, hwritten, Nat.zero_add]
  have hmark : weight [' ', '!'] = 1 := by decide
  have hshape : ∀ cs : List Char, (front ++ core (texts vs).toList) ++ ' ' :: '!' :: cs =
      (front ++ core (texts vs).toList ++ [' ', '!']) ++ cs := by simp
  rw [hshape] at hfront
  -- What was read is too heavy to end before the exclamation mark.
  obtain ⟨more, hmore, -⟩ | ⟨mark, hraw, hrest⟩ := List.append_eq_append_iff.1 hfront
  · have hsum := congrArg weight hmore
    simp only [weight_append, hmark] at hsum hbefore
    omega
  · refine ⟨_, mark, by rw [hraw, ← hshape], hbefore, hrest.symm, ?_⟩
    rw [hraw, weight_append, weight_append, hmark, hbefore] at hweight
    omega

/-- **An `!important` is read where it is written**, and nothing but white space is read between it
and the end of its declaration. -/
theorem exists_importance {vs ss : List Stroke} {qs : List Cutting} {behind : List Char}
    (hquiet : importance ∉ vs) (hvalued : writtenWeight (signs vs) ≠ 0) (hcuts : Cuts behind qs)
    (hweight : weight (raws qs) = writtenWeight (signs vs) + 10)
    (hcore : core (raws qs ++ behind) = core (texts (vs ++ space :: importance :: ss)).toList) :
    ∃ pre q post, qs = pre ++ q :: post ∧ q.lexeme.kind = .important ∧
      weight (raws pre) = writtenWeight (signs vs) ∧ weight (raws post) = 0 ∧
        raws post ++ behind = (texts ss).toList := by
  obtain ⟨before, mark, hraws, hbefore, hrest, hmark⟩ :=
    exists_before_importance hquiet hvalued hweight hcore
  obtain ⟨extra, hextra, -, hlight⟩ := exists_extra hrest (by rw [hmark]; decide) (by decide)
  have hsplit : raws qs = (before ++ [' ']) ++ '!' :: mark := by simpa using hraws
  obtain ⟨pre, q, post, b, d, rfl, hq, hpre, hd⟩ := exists_cutting_of_mem hsplit
  have hread := readFrom_of_cuts hcuts q (by simp)
  -- No token straddles the blank before the exclamation mark, so one begins with the mark.
  obtain rfl : b = [] := by
    rcases List.eq_nil_or_concat b with rfl | ⟨b, c, rfl⟩
    · rfl
    · rw [List.concat_eq_append, ← List.append_assoc] at hpre
      obtain ⟨-, hc⟩ := List.append_inj' hpre rfl
      obtain rfl := (List.cons.inj hc).1
      rw [List.concat_eq_append, List.append_assoc] at hq
      exact absurd hq (not_straddles hread (hd ▸ hextra) hlight)
  obtain ⟨⟨c, cs, hraw, hlexeme, hlength⟩, -, -⟩ := (cuts_append.1 hcuts).2
  obtain ⟨rfl, rfl⟩ : c = '!' ∧ cs = d := List.cons.inj (hraw.symm.trans hq)
  have hahead : cs ++ (raws post ++ behind) =
      ['i', 'm', 'p', 'o', 'r', 't', 'a', 'n', 't'] ++ (texts ss).toList := by
    rw [← hrest, hd, List.append_assoc]
  rw [hahead, Lexeme.read_importance] at hlexeme
  have hnine : cs.length = 9 := by
    rw [hlexeme, hraw, List.length_cons] at hlength
    simp only at hlength
    omega
  obtain ⟨rfl, hpost⟩ := List.append_inj hahead hnine
  refine ⟨pre, q, post, rfl, by rw [hlexeme], ?_, ?_, hpost⟩
  · have hblank : weight [' '] = 0 := by decide
    have hsum := congrArg weight hpre
    simp only [weight_append, hblank, weight_nil] at hsum
    omega
  · have hword : weight ['i', 'm', 'p', 'o', 'r', 't', 'a', 'n', 't'] = 9 := by decide
    rw [hd, weight_append, hword] at hmark
    omega

/-- Tokens around a separator spell signs on either side of it. -/
theorem Spelled.exists_append {xs : List Sign} {ts us : List Token} {t : Token}
    (h : Spelled .separator xs (ts ++ t :: us)) (ht : TokenClass.separator t = true) :
    ∃ ys zs, xs = ys ++ zs ∧ Spelled .separator ys ts ∧ Spelled .separator zs us := by
  generalize hall : ts ++ t :: us = all at h
  induction h generalizing ts with
  | nil => simp at hall
  | separator u hu rest ih =>
      cases ts with
      | nil =>
          obtain ⟨rfl, rfl⟩ := List.cons.inj hall
          exact ⟨[], _, rfl, .nil, rest⟩
      | cons v ts =>
          obtain ⟨rfl, rfl⟩ := List.cons.inj hall
          obtain ⟨ys, zs, rfl, hys, hzs⟩ := ih rfl
          exact ⟨ys, zs, rfl, .separator v hu hys, hzs⟩
  | @sign x xs vs rest hx hrest ih =>
      obtain ⟨more, rfl, hmore⟩ | ⟨more, rfl, hmore⟩ := List.append_eq_append_iff.1 hall
      · cases more with
        | nil =>
            have hnil : [] ++ t :: us = rest := hmore
            obtain ⟨ys, zs, rfl, hys, hzs⟩ := ih hnil
            exact ⟨x :: ys, zs, rfl, by simpa using Spelled.sign hx hys, hzs⟩
        -- The separator would be a token of the sign.
        | cons u more =>
            obtain ⟨rfl, -⟩ := List.cons.inj hmore
            have hnot := hx.not_separator t (by simp)
            rw [ht] at hnot
            cases hnot
      · obtain ⟨ys, zs, rfl, hys, hzs⟩ := ih hmore.symm
        exact ⟨x :: ys, zs, rfl, .sign hx hys, hzs⟩

/-! ## Legibility of what is read -/

/-- **What carries the strokes of its own text is legible.** -/
theorem legible_of_carried {ss : List Stroke} {ps : List Cutting}
    (h : Carried ss (cutTokens ps)) (hcuts : Cuts [] ps)
    (hcore : core (raws ps) = core (texts ss).toList) : Legible ss := by
  generalize hts : cutTokens ps = ts at h
  induction h generalizing ps with
  | nil => trivial
  | @quiet vs us ss ts hquiet hspelled rest ih =>
      obtain ⟨qs, ps, rfl, rfl, rfl⟩ := exists_of_cutTokens_append hts
      obtain ⟨hqs, hps⟩ := cuts_append.1 hcuts
      rw [List.append_nil] at hqs
      have hrest := rest.weight_le hps
      have hle := hspelled.weight_le hqs
      have hsum := congrArg weight hcore
      simp only [weight_core, raws_append, weight_append, texts_append, String.toList_append,
        weight_texts hquiet] at hsum
      rw [raws_append] at hcore
      obtain ⟨htail, hlegible⟩ := legible_of_spelled ss hquiet hspelled hqs (by omega) hcore
      exact hlegible (ih hps htail rfl)
  | @important vs ss us ts hquiet hvalued hspelled hmark rest ih =>
      obtain ⟨qs, ps, rfl, rfl, rfl⟩ := exists_of_cutTokens_append hts
      obtain ⟨hqs, hps⟩ := cuts_append.1 hcuts
      rw [List.append_nil] at hqs
      have hrest := rest.weight_le hps
      have hle := hspelled.weight_le hqs
      have hcount : 0 < (cutTokens qs).countP (fun t => t.kind == .important) := by
        obtain ⟨t, ht, hkind⟩ := hmark
        exact List.countP_pos_iff.2 ⟨t, ht, by simp [hkind]⟩
      have hsum := congrArg weight hcore
      simp only [weight_core, raws_append, weight_append, texts_append, texts,
        String.toList_append, weight_texts hquiet] at hsum
      have hspace : weight (space.text ++ importance.text).toList = 10 := by decide
      rw [String.toList_append, weight_append] at hspace
      -- A declaration has a value, so something with a weight is written before its `!important`.
      have hsolid : writtenWeight (signs vs) ≠ 0 := by
        have hlength := List.length_pos_iff.2 hvalued
        have hsigns := hspelled.length_le hqs
        omega
      rw [raws_append] at hcore
      obtain ⟨pre, q, post, rfl, hkind, hpre, hpost, hss⟩ :=
        exists_importance hquiet hsolid hqs (by omega) hcore
      obtain ⟨hcutsPre, -, -, hcutsPost⟩ := cuts_append.1 hqs
      rw [cutTokens_append, cutTokens_cons] at hspelled
      obtain ⟨ys, zs, hsigns, hys, hzs⟩ := hspelled.exists_append (separator_of_important hkind)
      -- Nothing with a weight is read behind the `!important`, so all signs are spelled before it.
      obtain rfl : zs = [] := by
        have hnone := hzs.weight_le hcutsPost
        have hlength := hzs.length_le hcutsPost
        exact List.eq_nil_of_length_eq_zero (by omega)
      rw [List.append_nil] at hsigns
      obtain ⟨-, hlegible⟩ := legible_of_spelled (space :: importance :: ss) hquiet
        (hsigns ▸ hys) hcutsPre hpre (by simpa using hcore)
      refine hlegible (ih hps ?_ rfl)
      rw [← hss, core_append_of_weight hpost]

end EpubStyle
