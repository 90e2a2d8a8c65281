import Mathlib.Data.List.Forall2
import EpubStyle.Proofs.Concrete.Signs
import EpubStyle.Proofs.Token.Shapes

/-!
# Building a value up to its limit

A value is built from a token and those ahead, and whatever comes of it, no token behind the first
one of the limit is taken (`Construct.stopsAt_build`). A value that is built is made of exactly the
tokens that were taken, sign by sign, brackets included, and none of them is of the limit. If no
value can be built, at most the last token taken is of the limit. If the tokens run out, none ahead
is of the limit. The context, which says what is permitted where, may be any test.

The invariant is that the signs of the open functions and groups are the significant tokens taken so
far (`Nesting.signs`). A token adds its own sign to them, whether it is a member by itself, opens a
function or group or closes one (`Nesting.follows_step`), and no token of the limit closes anything,
so one that is met before the end rejects the value (`Nesting.step_of_limit`).
-/

set_option autoImplicit false

namespace EpubStyle

/-! ## Signs of single tokens -/

/-- The text of a token, where the name of a function is in lower case. -/
def Token.keptText (t : Token) : String :=
  if t.kind = .function then Text.lowerCase t.text else t.text

/-- The sign is this one token. If the token has the shape of its kind, as those of a text have,
then it also has the text of the sign, up to the case of the name of a function. -/
structure Sign.IsToken (x : Sign) (t : Token) : Prop where
  shape : x.Shape [t]
  text : t.Shaped → x.text = t.keptText

namespace Token

theorem keptText_of_kind {t : Token} (h : t.kind ≠ .function) : t.keptText = t.text :=
  if_neg h

/-- A token that is a value by itself is its only sign. -/
theorem exists_sign_of_atom {t : Token} {c : Construct} (h : t.valueStart = .atom c) :
    ∃ x, c.signs = [x] ∧ x.IsToken t := by
  have hkind : t.kind ≠ .function := by
    intro hfunction
    simp [valueStart, hfunction] at h
  have htext := keptText_of_kind hkind
  obtain ⟨kind, rfl⟩ | ⟨m, rfl⟩ := eq_of_valueStart_atom h
  · cases kind with
    | typeSelector => exact absurd h (valueStart_ne_typeSelector t _ _)
    | _ => exact ⟨_, rfl, ⟨t, h, rfl⟩, fun _ => htext.symm⟩
  · exact ⟨_, rfl, ⟨t, h, rfl⟩, fun _ => htext.symm⟩

/-- A single character that opens a group is the delimiter. -/
theorem text_of_valueStart_group {t : Token} (ht : t.Shaped) {d : Delimiter}
    (h : t.valueStart = .group d) : t.text = d.opening := by
  have hkind := kind_of_valueStart_group h
  obtain ⟨c, hc⟩ := ht.char hkind
  rw [← String.toList_inj, hc]
  simp only [valueStart, hkind, hc, List.head?_cons] at h
  split at h <;> cases h <;> simp_all [Delimiter.opening]

/-- A token that opens a function or group is the sign of that. -/
theorem isToken_of_opening {t : Token} {o : Opening} (h : t.valueStart = o.toStart) :
    o.sign.IsToken t := by
  refine ⟨Concrete.shape_of_opening h, fun ht => ?_⟩
  cases o with
  | function name =>
      obtain ⟨hkind, rfl⟩ := function_of_valueStart h
      obtain ⟨name, hname⟩ := ht.function hkind
      rw [keptText, if_pos hkind, Opening.sign, Sign.text, functionName_of_text hname, hname,
        ← String.toList_inj]
      simp [Text.lowerCase]
  | group delimiter =>
      rw [keptText_of_kind (by simp [kind_of_valueStart_group h]), text_of_valueStart_group ht h]
      rfl

/-- A token that closes a function or group is the mark that does. -/
theorem isToken_of_closes {t : Token} {o : Opening} (h : o.closes t = true) :
    (Sign.mark o.closer).IsToken t where
  shape := ⟨o.closer_ne_semicolon, ⟨t, h⟩, rfl⟩
  text _ := by
    rw [keptText_of_kind (by simp [kind_of_isChar h]), ← String.toList_inj, text_of_isChar h]
    simp [Sign.text]

end Token

/-! ## The invariant -/

/-- The signs of an open function or group so far. -/
def Frame.signs (f : Frame) : List Sign :=
  f.opening.sign :: Construct.signsEach f.members.reverse

/-- The signs of a value with open functions and groups so far. -/
def Nesting.signs (n : Nesting) : List Sign :=
  n.outer.reverse.flatMap Frame.signs ++ n.inner.signs

/-- The value or what there is of it has these signs. -/
def Building.HasSigns (xs : List Sign) : Building → Prop
  | complete c => c.signs = xs
  | pending n => n.signs = xs
  | rejected => True

/-- Where a value is not rejected its signs are one more than before, and that is the token. -/
def Building.Follows (xs : List Sign) (t : Token) (b : Building) : Prop :=
  b ≠ .rejected → ∃ x : Sign, x.IsToken t ∧ b.HasSigns (xs ++ [x])

theorem Frame.signs_push (f : Frame) (c : Construct) : (f.push c).signs = f.signs ++ c.signs := by
  simp [signs, push, Construct.signsEach]

namespace Nesting

theorem signs_push (n : Nesting) (c : Construct) :
    Nesting.signs { n with inner := n.inner.push c } = n.signs ++ c.signs := by
  rw [signs, Frame.signs_push, ← List.append_assoc]
  rfl

theorem signs_nest (n : Nesting) (o : Opening) (l : Location) :
    (n.nest o l).signs = n.signs ++ [o.sign] := by
  simp [signs, nest, Frame.signs, Construct.signsEach]

/-- A member adds its signs. -/
theorem hasSigns_place (context : Context) (n : Nesting) (c : Construct) :
    (n.place context c).HasSigns (n.signs ++ c.signs) := by
  unfold place
  split
  · exact n.signs_push c
  · trivial

/-- The closing character is the last sign of what it closes. -/
theorem hasSigns_close (context : Context) (n : Nesting) :
    (n.close context).HasSigns (n.signs ++ [.mark n.inner.opening.closer]) := by
  have hinner : n.inner.close.signs = n.inner.signs ++ [.mark n.inner.opening.closer] :=
    Frame.signs_close _ _ _
  unfold close
  split
  · next houter =>
      have hsigns : n.signs = n.inner.signs := by simp [signs, houter]
      split
      · rw [hsigns]
        exact hinner
      · trivial
  · next f outer houter =>
      have hsigns : n.signs = Nesting.signs ⟨f, outer⟩ ++ n.inner.signs := by
        simp [signs, houter]
      rw [hsigns, List.append_assoc, ← hinner]
      exact hasSigns_place context ⟨f, outer⟩ _

/-- The first token of a value is its first sign. -/
theorem follows_start (context : Context) (t : Token) : (start context t).Follows [] t := by
  intro hne
  have hopening (o : Opening) : Nesting.signs ⟨⟨o, t.location, []⟩, []⟩ = [o.sign] := by
    simp [signs, Frame.signs, Construct.signsEach]
  unfold start at hne ⊢
  cases hstart : t.valueStart with
  | atom c =>
      obtain ⟨x, hsigns, hx⟩ := Token.exists_sign_of_atom hstart
      simp only
      split
      · exact ⟨x, hx, hsigns⟩
      · exact ⟨x, hx, trivial⟩
  | function name => exact ⟨_, Token.isToken_of_opening (o := .function name) hstart, hopening _⟩
  | group delimiter =>
      exact ⟨_, Token.isToken_of_opening (o := .group delimiter) hstart, hopening _⟩
  | nothing => simp [hstart] at hne

/-- **A token adds its own sign to a value.** -/
theorem follows_step (context : Context) (limit : TokenClass) (n : Nesting) (t : Token) :
    (n.step context limit t).Follows n.signs t := by
  intro hne
  unfold step at hne ⊢
  split
  · next hcloses =>
      rw [Frame.closedBy_eq] at hcloses
      exact ⟨_, Token.isToken_of_closes hcloses, n.hasSigns_close context⟩
  · split
    · simp_all
    · cases hstart : t.valueStart with
      | atom c =>
          obtain ⟨x, hsigns, hx⟩ := Token.exists_sign_of_atom hstart
          exact ⟨x, hx, hsigns ▸ n.hasSigns_place context c⟩
      | function name =>
          exact ⟨_, Token.isToken_of_opening (o := .function name) hstart, n.signs_nest _ _⟩
      | group delimiter =>
          exact ⟨_, Token.isToken_of_opening (o := .group delimiter) hstart, n.signs_nest _ _⟩
      | nothing => simp_all

end Nesting

/-! ## The limit -/

/-- A token of the class ends what surrounds a value: it is not skipped, and it closes no function
or group. -/
structure TokenClass.Bounds (limit : TokenClass) : Prop where
  significant : ∀ t, limit t = true → t.isBlank = false
  notCloser : ∀ (o : Opening) (t : Token), limit t = true → o.closes t = false

/-- The limits of values in declarations, at-rules and selectors. -/
theorem TokenClass.bounds_of_mem {limit : TokenClass}
    (h : limit ∈ [semicolonOrCloseBrace, semicolonOrOpenBrace, openBrace]) : limit.Bounds := by
  have hchar : ∀ t, limit t = true → ∃ c ∈ [';', '{', '}'], t.isChar c = true := by
    simp only [List.mem_cons, List.not_mem_nil, or_false] at h
    intro t ht
    rcases h with rfl | rfl | rfl
    · obtain ⟨c, hmem, hc⟩ := List.any_eq_true.1 ht
      exact ⟨c, (by decide : [';', '}'] ⊆ [';', '{', '}']) hmem, hc⟩
    · obtain ⟨c, hmem, hc⟩ := List.any_eq_true.1 ht
      exact ⟨c, (by decide : [';', '{'] ⊆ [';', '{', '}']) hmem, hc⟩
    · exact ⟨'{', by simp, ht⟩
  constructor
  · intro t ht
    obtain ⟨c, -, hc⟩ := hchar t ht
    exact Token.not_isBlank_of_isChar hc
  · intro o t ht
    obtain ⟨c, hmem, hc⟩ := hchar t ht
    refine Token.isChar_eq_false hc ?_
    rintro rfl
    cases o with
    | function name => simp [Opening.closer] at hmem
    | group delimiter => cases delimiter <;> simp [Opening.closer] at hmem

namespace Nesting

/-- **A token of the limit rejects a value.** -/
theorem step_of_limit {limit : TokenClass} (hlimit : limit.Bounds) (context : Context) (n : Nesting)
    {t : Token} (h : limit t = true) : n.step context limit t = .rejected := by
  rw [step, Frame.closedBy_eq, hlimit.notCloser _ t h]
  simp [h]

end Nesting

/-- **What an answer says of the tokens ahead in a walk**, where the significant tokens taken before
are `front`.
- A value is made of exactly the significant tokens taken, and none taken since is of the limit.
- Where there is no value, nothing behind a token of the limit is taken.
- Where there is no answer, no token ahead is of the limit. -/
def Construct.StopsAt (limit : TokenClass) (front : List Token) (w : Walk) :
    Option (Option Construct) × Walk → Prop
  | (some (some c), w') => ∃ taken, w.ahead = taken ++ w'.ahead ∧
      w'.passed = taken.reverse ++ w.passed ∧
      List.Forall₂ Sign.IsToken c.signs (front ++ taken.filter TokenClass.significant) ∧
      ∀ t ∈ taken, limit t = false
  | (some none, w') => ∃ taken, w.ahead = taken ++ w'.ahead ∧
      w'.passed = taken.reverse ++ w.passed ∧ ∀ t ∈ taken.dropLast, limit t = false
  | (none, _) => ∀ t ∈ w.ahead, limit t = false

namespace Construct.StopsAt

variable {limit : TokenClass} {front passed ahead : List Token} {t : Token}
  {answer : Option (Option Construct) × Walk}

/-- One more token is taken before. -/
theorem cons (ht : limit t = false)
    (h : StopsAt limit (front ++ [t].filter TokenClass.significant) ⟨t :: passed, ahead⟩ answer) :
    StopsAt limit front ⟨passed, t :: ahead⟩ answer := by
  match answer with
  | (some (some c), w') =>
      obtain ⟨taken, rfl, hpassed, hsigns, hlimit⟩ := h
      refine ⟨t :: taken, rfl, by simpa using hpassed, ?_, List.forall_mem_cons.2 ⟨ht, hlimit⟩⟩
      rwa [List.append_assoc, ← List.filter_append, List.singleton_append] at hsigns
  | (some none, w') =>
      obtain ⟨taken, rfl, hpassed, hlimit⟩ := h
      refine ⟨t :: taken, rfl, by simpa using hpassed, ?_⟩
      intro u hu
      cases taken with
      | nil => cases hu
      | cons v taken =>
          rcases List.mem_cons.1 hu with rfl | hu
          · exact ht
          · exact hlimit u hu
  | (none, _) => exact List.forall_mem_cons.2 ⟨ht, h⟩

end Construct.StopsAt

section Runs

variable {limit : TokenClass} (hlimit : limit.Bounds) (context : Context)

include hlimit in
/-- A value with open functions and groups stops at the limit. -/
theorem Nesting.stopsAt_run {n : Nesting} {front : List Token}
    (hn : List.Forall₂ Sign.IsToken n.signs front) (here : Walk) (passed ahead : List Token) :
    Construct.StopsAt limit front ⟨passed, ahead⟩ (n.run context limit here passed ahead) := by
  induction ahead generalizing n front here passed with
  | nil => exact fun t ht => absurd ht List.not_mem_nil
  | cons t ahead ih =>
      rw [run]
      split
      · next hblank =>
          -- A token that matches the limit is rejected, so whatever goes on does not match it.
          have hfree : limit t = false := by
            rw [← Bool.not_eq_true]
            intro hmatches
            simp [hlimit.significant t hmatches] at hblank
          refine .cons hfree ?_
          simpa [TokenClass.significant, hblank] using ih hn here (t :: passed)
      · next hblank =>
          have hsignificant : [t].filter TokenClass.significant = [t] := by
            simp [TokenClass.significant, hblank]
          have hfollows := Nesting.follows_step context limit n t
          have hfree : n.step context limit t ≠ .rejected → limit t = false := by
            intro hne
            rw [← Bool.not_eq_true]
            exact fun hmatches => hne (n.step_of_limit hlimit context hmatches)
          cases hstep : n.step context limit t with
          | complete c =>
              rw [hstep] at hfollows hfree
              obtain ⟨x, hx, hsigns⟩ := hfollows (by simp)
              refine ⟨[t], rfl, rfl, ?_, by simpa using hfree (by simp)⟩
              rw [hsignificant, hsigns]
              exact List.rel_append hn (.cons hx .nil)
          | rejected => exact ⟨[t], rfl, rfl, by simp⟩
          | pending n' =>
              rw [hstep] at hfollows hfree
              obtain ⟨x, hx, hsigns⟩ := hfollows (by simp)
              refine .cons (hfree (by simp)) ?_
              rw [hsignificant]
              refine ih ?_ ⟨t :: passed, ahead⟩ (t :: passed)
              rw [hsigns]
              exact List.rel_append hn (.cons hx .nil)

end Runs

/-- **A value is built up to the limit and no further**, for every context, whatever its test, every
first token and every walk. -/
theorem Construct.stopsAt_build {limit : TokenClass}
    (hlimit : limit ∈ [.semicolonOrCloseBrace, .semicolonOrOpenBrace, .openBrace])
    (context : Context) (start : Token) (w : Walk) :
    StopsAt limit [start] w (build context limit start w) := by
  have hfollows := Nesting.follows_start context start
  unfold build
  cases hstep : Nesting.start context start with
  | complete c =>
      rw [hstep] at hfollows
      obtain ⟨x, hx, hsigns⟩ := hfollows (by simp)
      refine ⟨[], rfl, rfl, ?_, by simp⟩
      rw [hsigns]
      exact .cons hx .nil
  | rejected => exact ⟨[], rfl, rfl, by simp⟩
  | pending n =>
      rw [hstep] at hfollows
      obtain ⟨x, hx, hsigns⟩ := hfollows (by simp)
      refine Nesting.stopsAt_run (TokenClass.bounds_of_mem hlimit) context ?_ w w.passed w.ahead
      rw [hsigns]
      exact .cons hx .nil

/-- With a context that permits everything, a function and a group in it take their tokens and leave
the semicolon. -/
theorem Construct.stopsAt_build_function : ∃ (start : Token) (ahead : List Token) (c : Construct)
    (w' : Walk), start.Shaped ∧ (∀ t ∈ ahead, t.Shaped) ∧
      build ⟨fun _ => true⟩ .semicolonOrCloseBrace start ⟨[], ahead⟩ = (some (some c), w') ∧
      c.signs.map Sign.text = ["f(", "[", "x", "]", ")"] ∧ w'.ahead.map Token.text = [";"] ∧
      StopsAt .semicolonOrCloseBrace [start] ⟨[], ahead⟩ (some (some c), w') := by
  have hscan : (scan "F([x ]);" "").map Scanned.token = ⟨.function, "F(", ⟨1, 1, 1, ""⟩, []⟩ ::
      [⟨.char, "[", ⟨1, 3, 3, ""⟩, []⟩, ⟨.ident, "x", ⟨1, 4, 4, ""⟩, []⟩,
        ⟨.space, " ", ⟨1, 5, 5, ""⟩, []⟩, ⟨.char, "]", ⟨1, 6, 6, ""⟩, []⟩,
        ⟨.char, ")", ⟨1, 7, 7, ""⟩, []⟩, ⟨.char, ";", ⟨1, 8, 8, ""⟩, []⟩] := by
    decide +kernel
  have hshaped : ∀ t ∈ (scan "F([x ]);" "").map Scanned.token, t.Shaped :=
    List.forall_mem_map.2 shaped_of_mem_scan
  rw [hscan] at hshaped
  obtain ⟨hstart, hahead⟩ := List.forall_mem_cons.1 hshaped
  exact ⟨_, _, _, _, hstart, hahead, rfl, by decide +kernel, by decide +kernel,
    stopsAt_build (by simp) ⟨fun _ => true⟩ _ _⟩

end EpubStyle
