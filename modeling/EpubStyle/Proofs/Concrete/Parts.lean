import EpubStyle.Proofs.Concrete.Punctuation
import EpubStyle.Proofs.Concrete.Signs

/-!
# The parts of a style

The tokens of a style can be cut into parts, one for each event and each separator. The parts of a
tree have its tokens and its events in order (`allTokens_parts`, `allEvents_parts`), and each of
them is accounted for (`Part.Accounted`): the part of a declaration holds everything from its name
to its end, and the declaration is important if an `!important` stands there.
-/

set_option autoImplicit false

namespace EpubStyle

open Concrete

/-- Tokens that belong together, with the event that stands for them. -/
structure Part where
  /-- Absent for separators. -/
  event : Option Event
  tokens : List Token

namespace Part

/-- The tokens are those of the declaration: its name, what stands between, and the semicolon that
ends it. Without a semicolon it ends at the brace that `following` starts with, or where the tokens
end. -/
def Declares (d : Declaration) (ts following : List Token) : Prop :=
  ∃ (name : Token) (between ending : List Token), ts = name :: (between ++ ending) ∧
    name.kind = .ident ∧ d.name = Text.lowerCase name.text ∧ d.location = name.location ∧
    (∀ t ∈ between, t.isOneOf [';', '}'] = false) ∧
    ((∃ t : Mark ';', ending = [t.1]) ∨
      ending = [] ∧ ∀ t ∈ following.head?, t.isChar '}' = true) ∧
    d.important = between.any (fun t => t.kind == .important)

/-- The tokens of a part are accounted for, where `following` come behind it: without an event all
of them are separators, and those of a declaration are what it says. -/
def Accounted (following : List Token) (p : Part) : Prop :=
  match p.event with
  | none => ∀ t ∈ p.tokens, TokenClass.separator t = true
  | some (.declaration d) => Declares d p.tokens following
  | some _ => True

/-- The tokens of parts. -/
def allTokens (parts : List Part) : List Token := parts.flatMap Part.tokens

/-- The events of parts. -/
def allEvents (parts : List Part) : List Event := parts.filterMap Part.event

/-- Every part is accounted for, where `following` come behind all of them. -/
def AllAccounted (following : List Token) : List Part → Prop
  | [] => True
  | p :: parts => p.Accounted (allTokens parts ++ following) ∧ AllAccounted following parts

/-- The tokens `ts` are cut into parts that give the events `es`, each of them accounted for. -/
structure Cut (ts : List Token) (es : List Event) (parts : List Part) : Prop where
  tokens : allTokens parts = ts
  events : allEvents parts = es
  accounted : AllAccounted [] parts

section Lists

variable (p : Part) (ps qs : List Part)

@[simp] theorem allTokens_nil : allTokens [] = [] := rfl

@[simp] theorem allTokens_cons : allTokens (p :: ps) = p.tokens ++ allTokens ps := by
  simp [allTokens]

@[simp] theorem allTokens_append : allTokens (ps ++ qs) = allTokens ps ++ allTokens qs := by
  simp [allTokens]

@[simp] theorem allEvents_append : allEvents (ps ++ qs) = allEvents ps ++ allEvents qs := by
  simp [allEvents]

theorem allAccounted_append (following : List Token) :
    AllAccounted following (ps ++ qs) ↔
      AllAccounted (allTokens qs ++ following) ps ∧ AllAccounted following qs := by
  induction ps with
  | nil => simp [AllAccounted]
  | cons p ps ih => simp [AllAccounted, ih, and_assoc]

end Lists

end Part

open EpubStyle.Part

namespace Concrete

/-! ## Declarations -/

/-- The tokens of a declaration, with or without its semicolon, are what it says. -/
theorem Property.declares (p : Property) {ending following : List Token}
    (h : (∃ t : Mark ';', ending = [t.1]) ∨
      ending = [] ∧ ∀ t ∈ following.head?, t.isChar '}' = true) :
    Declares p.declaration (p.tokens ++ ending) following := by
  refine ⟨p.name.1, p.rest, ending, rfl, p.name.2, rfl, rfl, ?_, h, ?_⟩
  · intro t ht
    have hinner := p.unpunctuated t (List.mem_cons_of_mem _ ht)
    simp only [Token.Inner, Token.isOneOf, List.any_cons, List.any_nil,
      Bool.or_eq_false_iff] at hinner
    simp [Token.isOneOf, hinner]
  · have hgap : p.gap.1.any (fun t => t.kind == .important) = false := by
      rw [List.any_eq_false]
      intro t ht himportant
      have hblank := p.gap.2 t ht
      simp only [beq_iff_eq] at himportant
      simp [Token.isBlank, himportant] at hblank
    simp [Property.declaration, Property.rest, hgap, Token.kind_of_isChar p.colon.2]

namespace Declarations

/-- The parts of declarations. -/
def parts : Declarations → List Part
  | nil => []
  | blank t _ rest => ⟨none, [t]⟩ :: rest.parts
  | last p => [⟨some (.declaration p.declaration), p.tokens⟩]
  | cons p semicolon rest =>
      ⟨some (.declaration p.declaration), p.tokens ++ [semicolon.1]⟩ :: rest.parts

theorem allTokens_parts (d : Declarations) : allTokens d.parts = d.tokens := by
  induction d with
  | nil => rfl
  | blank t fits rest ih => simp [parts, tokens, ih]
  | last p => simp [parts, tokens]
  | cons p semicolon rest ih => simp [parts, tokens, ih]

theorem allEvents_parts (d : Declarations) : allEvents d.parts = d.events := by
  induction d with
  | nil => rfl
  | blank t fits rest ih => exact ih
  | last p => rfl
  | cons p semicolon rest ih => simpa [parts, events, declarations, allEvents] using ih

theorem allAccounted_parts (d : Declarations) {following : List Token}
    (h : ∀ t ∈ following.head?, t.isChar '}' = true) : AllAccounted following d.parts := by
  induction d with
  | nil => trivial
  | blank t fits rest ih =>
      refine ⟨fun u hu => ?_, ih⟩
      rw [List.mem_singleton.1 hu]
      exact separator_of_isBlank fits
  | last p =>
      have hp : Part.Declares p.declaration (p.tokens ++ []) following :=
        p.declares (.inr ⟨rfl, h⟩)
      rw [List.append_nil] at hp
      exact ⟨hp, trivial⟩
  | cons p semicolon rest ih => exact ⟨p.declares (.inl ⟨semicolon, rfl⟩), ih⟩

end Declarations

/-! ## Statements -/

namespace Statements

/-- The parts of statements. The braces of a block go with the events that they start and end. -/
def parts {top : Bool} {leads : Option Bool} : Statements top leads → List Part
  | nil => []
  | separator t _ rest => ⟨none, [t]⟩ :: rest.parts
  | rule list opener block closer rest =>
      ⟨some (.selectors list.selectors), list.tokens ++ [opener.1]⟩ ::
        (block.parts ++ ⟨some (.endSelectors list.selectors), [closer.1]⟩ :: rest.parts)
  | plain heading semicolon rest =>
      ⟨some (.atRule (heading.rule false)), heading.tokens⟩ ::
        ⟨some (.endAtRule heading.lowerName), [semicolon.1]⟩ :: rest.parts
  | declared heading opener block closer rest =>
      ⟨some (.atRule (heading.rule true)), heading.tokens ++ [opener.1]⟩ ::
        (block.parts ++ ⟨some (.endAtRule heading.lowerName), [closer.1]⟩ :: rest.parts)
  | nested heading opener block closer rest =>
      ⟨some (.atRule (heading.rule true)), heading.tokens ++ [opener.1]⟩ ::
        (block.parts ++ ⟨some (.endAtRule heading.lowerName), [closer.1]⟩ :: rest.parts)

theorem allTokens_parts {top : Bool} {leads : Option Bool} (s : Statements top leads) :
    allTokens s.parts = s.tokens := by
  induction s with
  | nil => rfl
  | separator t fits rest ih => simp [parts, tokens, ih]
  | rule list opener block closer rest ih => simp [parts, tokens, block.allTokens_parts, ih]
  | plain heading semicolon rest ih => simp [parts, tokens, ih]
  | declared heading opener block closer rest ih =>
      simp [parts, tokens, block.allTokens_parts, ih]
  | nested heading opener block closer rest ihb ih => simp [parts, tokens, ihb, ih]

theorem allEvents_parts {top : Bool} {leads : Option Bool} (s : Statements top leads) :
    allEvents s.parts = s.events := by
  induction s with
  | nil => rfl
  | separator t fits rest ih => exact ih
  | rule list opener block closer rest ih =>
      simpa [parts, events, allEvents, ← block.allEvents_parts] using ih
  | plain heading semicolon rest ih => simpa [parts, events, allEvents] using ih
  | declared heading opener block closer rest ih =>
      simpa [parts, events, allEvents, ← block.allEvents_parts] using ih
  | nested heading opener block closer rest ihb ih =>
      simpa [parts, events, allEvents, ← ihb] using ih

theorem allAccounted_parts {top : Bool} {leads : Option Bool} (s : Statements top leads)
    (following : List Token) : AllAccounted following s.parts := by
  induction s generalizing following with
  | nil => trivial
  | separator t fits rest ih =>
      refine ⟨fun u hu => ?_, ih following⟩
      rw [List.mem_singleton.1 hu]
      exact separator_of_separates fits
  | rule list opener block closer rest ih | declared heading opener block closer rest ih =>
      refine ⟨trivial, (allAccounted_append _ _ _).2 ⟨?_, trivial, ih following⟩⟩
      exact block.allAccounted_parts (by simp [closer.2])
  | plain heading semicolon rest ih => exact ⟨trivial, trivial, ih following⟩
  | nested heading opener block closer rest ihb ih =>
      exact ⟨trivial, (allAccounted_append _ _ _).2 ⟨ihb _, trivial, ih following⟩⟩

end Statements

/-! ## Whole styles -/

/-- A style sheet can be cut. -/
theorem StyleSheet.exists_cut (s : StyleSheet) : ∃ parts, Cut s.tokens s.events parts := by
  refine ⟨⟨some .start, []⟩ :: (s.statements.parts ++ [⟨some .finish, []⟩]), ⟨?_, ?_, ?_⟩⟩
  · simp [StyleSheet.tokens, s.statements.allTokens_parts]
  · simp [StyleSheet.events, allEvents, ← s.statements.allEvents_parts]
  · exact ⟨trivial, (allAccounted_append _ _ _).2
      ⟨s.statements.allAccounted_parts _, trivial, trivial⟩⟩

/-- A style attribute can be cut. -/
theorem InlineStyle.exists_cut (s : InlineStyle) : ∃ parts, Cut s.tokens s.events parts := by
  let leading : List Part :=
    [⟨none, s.gap.1⟩, ⟨none, (s.semicolon.map (fun t => [t.1])).getD []⟩]
  have hleading (following : List Token) : AllAccounted following leading := by
    refine ⟨fun t ht => separator_of_isBlank (s.gap.2 t ht), fun t ht => ?_, trivial⟩
    cases hsemicolon : s.semicolon with
    | none => simp [hsemicolon] at ht
    | some u =>
        simp only [hsemicolon, Option.map_some, Option.getD_some, List.mem_singleton] at ht
        rw [ht]
        exact separator_of_semicolon u
  refine ⟨⟨some .start, []⟩ :: (leading ++ (s.declarations.parts ++ [⟨some .finish, []⟩])),
    ⟨?_, ?_, ?_⟩⟩
  · simp [leading, InlineStyle.tokens, s.declarations.allTokens_parts]
  · simp [leading, InlineStyle.events, allEvents, ← s.declarations.allEvents_parts]
  · exact ⟨trivial, (allAccounted_append _ _ _).2 ⟨hleading _, (allAccounted_append _ _ _).2
      ⟨s.declarations.allAccounted_parts (by simp), trivial, trivial⟩⟩⟩

end Concrete

end EpubStyle
