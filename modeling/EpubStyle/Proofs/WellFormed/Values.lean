import EpubStyle.Construct.Nesting
import EpubStyle.Proofs.Text.Case
import EpubStyle.Proofs.Token.Shapes

/-!
# Well-formed values

A value is an atom, a quantity, or a function or group of values (`Construct.IsValue`). Whatever a
`Nesting` builds is one, and the place that it is built for permits it (`Nesting.Sound.step`): the
functions and groups that are open hold values only, and a token that closes the outermost of them
is asked for what the place permits.

Nothing is assumed of the tokens but their shape, which makes a symbol a single character.
-/

set_option autoImplicit false

namespace EpubStyle

/-! ## Names -/

namespace Text

/-- A text without capital letters of ASCII. -/
def Uncapitalized (s : String) : Prop := ∀ c ∈ s.toList, c.isUpper = false

/-- **Names in lower case have no capital letters.** -/
theorem uncapitalized_lowerCase (s : String) : Uncapitalized (lowerCase s) := by
  intro c hc
  simp only [lowerCase, String.toList_map, List.mem_map] at hc
  obtain ⟨d, -, rfl⟩ := hc
  exact isUpper_toLower d

theorem Uncapitalized.append {a b : String} (ha : Uncapitalized a) (hb : Uncapitalized b) :
    Uncapitalized (a ++ b) := by
  intro c hc
  rcases List.mem_append.1 (String.toList_append ▸ hc) with hc | hc
  · exact ha c hc
  · exact hb c hc

end Text

open Text

/-! ## Values -/

/-- What values of properties, parameters of at-rules and arguments of functions are made of. -/
inductive Construct.IsValue : Construct → Prop
  | atom (kind : AtomKind) (value : String) (l : Location)
      (hkind : kind ∈ [.string, .keyword, .hashName, .className, .unicodeRange, .uri]) :
      IsValue (.atom kind value l)
  | symbol (c : Char) (l : Location) (hc : c ∉ ['{', '}', ';', '(', '[']) :
      IsValue (.atom .symbol (String.singleton c) l)
  | quantity (value : String) (measure : Measure) (l : Location) :
      IsValue (.quantity value measure l)
  | function (name : String) (arguments : List Construct) (l : Location)
      (hname : Uncapitalized name) (harguments : ∀ c ∈ arguments, c.IsValue) :
      IsValue (.function name arguments l)
  | group (delimiter : Delimiter) (members : List Construct) (l : Location)
      (hmembers : ∀ c ∈ members, c.IsValue) : IsValue (.group delimiter members l)

/-! ## Single tokens -/

/-- An atom is a value, and the name of a function has no capital letters. -/
def ValueStart.Sound : ValueStart → Prop
  | atom c => c.IsValue
  | function name => Uncapitalized name
  | group _ | nothing => True

/-- What a token is at the start of a value. -/
theorem Token.sound_valueStart {t : Token} (ht : t.Shaped) : t.valueStart.Sound := by
  unfold valueStart
  cases hkind : t.kind with
  | char =>
      -- A single character is a symbol unless it has a structural meaning.
      obtain ⟨c, hc⟩ := ht.char hkind
      have htext : t.text = String.singleton c := by simp [← String.toList_inj, hc]
      simp only [hc, List.head?_cons]
      split
      case h_7 d hclose hopen hsemicolon hparenthesis hbracket hd =>
        obtain rfl := Option.some.inj hd
        rw [htext]
        exact .symbol c t.location (by simp_all)
      all_goals trivial
  | function => exact uncapitalized_lowerCase _
  | quantity m => exact .quantity t.text m t.location
  | ident | and | not | only | uri | string | unicodeRange | hashName | className =>
      exact .atom _ t.text t.location (by simp)
  | _ => trivial

/-! ## Open functions and groups -/

/-- An open function or group holds values, and its name has no capital letters. -/
structure Frame.Sound (f : Frame) : Prop where
  name : ∀ name, f.opening = .function name → Uncapitalized name
  members : ∀ c ∈ f.members, c.IsValue

/-- All open functions and groups hold values. -/
structure Nesting.Sound (n : Nesting) : Prop where
  inner : n.inner.Sound
  outer : ∀ f ∈ n.outer, f.Sound

/-- What is built is a value that the context permits. -/
def Building.Sound (context : Context) : Building → Prop
  | complete c => c.IsValue ∧ context.permits c = true
  | pending n => n.Sound
  | rejected => True

namespace Frame.Sound

variable {f : Frame}

theorem push (h : f.Sound) {c : Construct} (hc : c.IsValue) : (f.push c).Sound where
  name := h.name
  members := by
    intro d hd
    rcases List.mem_cons.1 hd with rfl | hd
    · exact hc
    · exact h.members d hd

theorem close (h : f.Sound) : f.close.IsValue := by
  have hmembers : ∀ c ∈ f.members.reverse, c.IsValue :=
    fun c hc => h.members c (List.mem_reverse.1 hc)
  unfold Frame.close
  split
  · next name hname => exact .function name _ _ (h.name name hname) hmembers
  · exact .group _ _ _ hmembers

theorem ofFunction {name : String} (h : Uncapitalized name) (l : Location) :
    (⟨.function name, l, []⟩ : Frame).Sound where
  name := by
    rintro _ ⟨⟩
    exact h
  members := by simp

theorem ofGroup (delimiter : Delimiter) (l : Location) :
    (⟨.group delimiter, l, []⟩ : Frame).Sound where
  name := by simp
  members := by simp

end Frame.Sound

namespace Nesting

variable {context : Context} {n : Nesting} {t : Token}

theorem sound_start (ht : t.Shaped) : (start context t).Sound context := by
  have hstart := t.sound_valueStart ht
  unfold start
  split
  · next c hc =>
      rw [hc] at hstart
      split
      · next hpermits => exact ⟨hstart, hpermits⟩
      · trivial
  · next name hname =>
      rw [hname] at hstart
      exact ⟨.ofFunction hstart t.location, by simp⟩
  · exact ⟨.ofGroup _ t.location, by simp⟩
  · trivial

theorem Sound.place (h : n.Sound) {c : Construct} (hc : c.IsValue) :
    (n.place context c).Sound context := by
  unfold Nesting.place
  split
  · exact ⟨h.inner.push hc, h.outer⟩
  · trivial

theorem Sound.nest (h : n.Sound) {opening : Opening} {l : Location}
    (hopening : (⟨opening, l, []⟩ : Frame).Sound) : (n.nest opening l).Sound where
  inner := hopening
  outer := by
    intro f hf
    rcases List.mem_cons.1 hf with rfl | hf
    · exact h.inner
    · exact h.outer f hf

theorem Sound.close (h : n.Sound) : (n.close context).Sound context := by
  unfold Nesting.close
  split
  · split
    · next hpermits => exact ⟨h.inner.close, hpermits⟩
    · trivial
  · next f outer houter =>
      have hrest : ∀ g ∈ f :: outer, g.Sound := houter ▸ h.outer
      have hn : (⟨f, outer⟩ : Nesting).Sound :=
        ⟨hrest f (List.mem_cons_self ..), fun g hg => hrest g (List.mem_cons_of_mem _ hg)⟩
      exact hn.place h.inner.close

/-- **What is built from one more token is well-formed.** -/
theorem Sound.step (h : n.Sound) (limit : TokenClass) (ht : t.Shaped) :
    (n.step context limit t).Sound context := by
  have hstart := t.sound_valueStart ht
  unfold Nesting.step
  split
  · exact h.close
  split
  · trivial
  split
  · next c hc => exact h.place (by rwa [hc] at hstart)
  · next name hname => exact h.nest (.ofFunction (by rwa [hname] at hstart) t.location)
  · exact h.nest (.ofGroup _ t.location)
  · trivial

end Nesting

end EpubStyle
