import EpubStyle.Text.Chars

/-!
# Texts up to case

Two texts agree up to ASCII case if they are the same when folded. Folding is idempotent, so a text
that was put in lower case folds to what it was before (`folded_lowerCase`).
-/

set_option autoImplicit false

namespace EpubStyle.Text

/-- The lower case of a capital letter stands 32 places behind it. -/
theorem val_toLower_of_isUpper {c : Char} (h : c.isUpper = true) : c.toLower.val = c.val + 32 :=
  congrArg Char.val (dif_pos (of_decide_eq_true h))

/-- Every other character is its own lower case. -/
theorem toLower_of_isUpper_eq_false {c : Char} (h : c.isUpper = false) : c.toLower = c :=
  dif_neg (of_decide_eq_false h)

/-- Nothing in lower case is a capital letter. -/
theorem isUpper_toLower (c : Char) : c.toLower.isUpper = false := by
  cases hupper : c.isUpper with
  | false => rw [toLower_of_isUpper_eq_false hupper, hupper]
  | true =>
      have hval := val_toLower_of_isUpper hupper
      have hrange : 'A'.val ≤ c.val ∧ c.val ≤ 'Z'.val := of_decide_eq_true hupper
      refine decide_eq_false fun hcapital => ?_
      rw [hval] at hcapital
      grind [UInt32.le_iff_toNat_le, UInt32.toNat_add]

/-- The lower case of a capital letter is a small letter. -/
theorem isLower_toLower {c : Char} (h : c.isUpper = true) : c.toLower.isLower = true := by
  have hval := val_toLower_of_isUpper h
  have hrange : 'A'.val ≤ c.val ∧ c.val ≤ 'Z'.val := of_decide_eq_true h
  have hsmall : 'a'.val ≤ c.toLower.val ∧ c.toLower.val ≤ 'z'.val := by
    rw [hval]
    grind [UInt32.le_iff_toNat_le, UInt32.toNat_add]
  exact (Bool.and_eq_true ..).mpr ⟨decide_eq_true hsmall.1, decide_eq_true hsmall.2⟩

/-- Only capital letters have another character as their lower case, and that is a small letter. -/
theorem eq_of_toLower {c d : Char} (h : c.toLower = d) (hd : d.isLower = false) : c = d := by
  cases hupper : c.isUpper with
  | false => rw [← h, toLower_of_isUpper_eq_false hupper]
  | true =>
      have hlower := isLower_toLower hupper
      rw [h, hd] at hlower
      cases hlower

/-- The characters of a text in lower case. -/
def folded (s : String) : List Char := s.toList.map Char.toLower

@[simp] theorem folded_empty : folded "" = [] := rfl

@[simp] theorem folded_append (a b : String) : folded (a ++ b) = folded a ++ folded b := by
  simp [folded]

/-- **Lower case is the same text up to case.** -/
@[simp] theorem folded_lowerCase (s : String) : folded (lowerCase s) = folded s := by
  simp only [folded, lowerCase, String.toList_map, List.map_map]
  exact List.map_congr_left fun c _ => toLower_of_isUpper_eq_false (isUpper_toLower c)

end EpubStyle.Text
