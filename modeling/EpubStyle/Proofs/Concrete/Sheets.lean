import EpubStyle.Grammar.Sheet
import EpubStyle.Grammar.StyleAttribute
import EpubStyle.Proofs.Concrete.Selectors
import EpubStyle.Proofs.Concrete.Values

/-!
# Style sheets as they are written

Trees that hold the tokens of a style sheet or a style attribute in order: declarations
(`Property`, `Declarations`), at-rules up to their block or end (`Heading`), statements
(`Statements`), and the two kinds of style (`StyleSheet`, `InlineStyle`). Each tree has its tokens
and the events that stand for it.

A block of an at-rule holds declarations or statements. It can only hold statements if the first of
them has a block, so statements carry as an index whether their first one does.
-/

set_option autoImplicit false

namespace EpubStyle

/-- What may stand between the values of a declaration. -/
def TokenClass.blankOrImportant : TokenClass := fun t => t.isBlank || t.kind == .important

namespace Concrete

/-! ## Declarations -/

/-- A declaration with everything between its name and its end. -/
structure Property where
  name : Word .ident
  gap : Gap
  colon : Mark ':'
  /-- The values, with white space, comments and `!important` between them. -/
  body : Values TokenClass.blankOrImportant TokenClass.never
  valued : body.latest ≠ []

namespace Property

/-- The tokens behind the name. -/
def rest (p : Property) : List Token := p.gap.1 ++ p.colon.1 :: p.body.tokens

/-- All tokens. -/
def tokens (p : Property) : List Token := p.name.1 :: p.rest

/-- The declaration. It is important if an `!important` stands anywhere among its values. -/
def declaration (p : Property) : Declaration where
  name := Text.lowerCase p.name.1.text
  value := p.body.latest.reverse
  important := p.body.tokens.any (fun t => t.kind == .important)
  location := p.name.1.location

end Property

/-- Declarations with semicolons between them; the last needs none. -/
inductive Declarations : Type
  | nil
  | blank (t : Token) (fits : t.isBlank = true) (rest : Declarations)
  | last (p : Property)
  | cons (p : Property) (semicolon : Mark ';') (rest : Declarations)

namespace Declarations

/-- All tokens. -/
def tokens : Declarations → List Token
  | nil => []
  | blank t _ rest => t :: rest.tokens
  | last p => p.tokens
  | cons p semicolon rest => p.tokens ++ semicolon.1 :: rest.tokens

/-- The declarations. -/
def declarations : Declarations → List Declaration
  | nil => []
  | blank _ _ rest => rest.declarations
  | last p => [p.declaration]
  | cons p _ rest => p.declaration :: rest.declarations

/-- The events of the declarations. -/
def events (d : Declarations) : List Event := d.declarations.map Event.declaration

/-- White space before declarations. -/
theorem exists_spaced (g : Gap) (d : Declarations) :
    ∃ d' : Declarations, d'.tokens = g.1 ++ d.tokens ∧ d'.events = d.events := by
  obtain ⟨ts, hblank⟩ := g
  induction ts with
  | nil => exact ⟨d, rfl, rfl⟩
  | cons t ts ih =>
      obtain ⟨d', htokens, hevents⟩ := ih (fun u hu => hblank u (List.mem_cons_of_mem _ hu))
      exact ⟨.blank t (hblank t (List.mem_cons_self ..)) d', by simp [Declarations.tokens, htokens],
        hevents⟩

end Declarations

/-! ## Statements -/

/-- An at-rule up to its block or its end. -/
structure Heading where
  name : Word .atKeyword
  parameters : Values Token.isBlank TokenClass.never

namespace Heading

/-- All tokens. -/
def tokens (h : Heading) : List Token := h.name.1 :: h.parameters.tokens

/-- The name in lower case. -/
def lowerName (h : Heading) : String := Text.lowerCase h.name.1.text

/-- The at-rule. -/
def rule (h : Heading) (hasBlock : Bool) : AtRule :=
  ⟨h.lowerName, h.parameters.latest.reverse, hasBlock, h.name.1.location⟩

end Heading

/-- What may stand between statements: at the top level also the delimiters of comments. -/
def separates (top : Bool) : TokenClass :=
  fun t => if top then !TokenClass.topLevel t else t.isBlank

/-- Statements, at the top level or in the block of an at-rule. The second index says whether the
first of them has a block, where there is one. -/
inductive Statements : Bool → Option Bool → Type
  | nil {top : Bool} : Statements top none
  | separator {top : Bool} {leads : Option Bool} (t : Token) (fits : separates top t = true)
      (rest : Statements top leads) : Statements top leads
  | rule {top : Bool} {leads : Option Bool} (list : SelectorList) (opener : Mark '{')
      (block : Declarations) (closer : Mark '}') (rest : Statements top leads) :
      Statements top (some true)
  /-- An at-rule without a block. -/
  | plain {top : Bool} {leads : Option Bool} (heading : Heading) (semicolon : Mark ';')
      (rest : Statements top leads) : Statements top (some false)
  /-- An at-rule with declarations in its block. -/
  | declared {top : Bool} {leads : Option Bool} (heading : Heading) (opener : Mark '{')
      (block : Declarations) (closer : Mark '}') (rest : Statements top leads) :
      Statements top (some true)
  /-- An at-rule with statements in its block. -/
  | nested {top : Bool} {leads : Option Bool} (heading : Heading) (opener : Mark '{')
      (block : Statements false (some true)) (closer : Mark '}') (rest : Statements top leads) :
      Statements top (some true)

namespace Statements

/-- All tokens. -/
def tokens {top : Bool} {leads : Option Bool} : Statements top leads → List Token
  | nil => []
  | separator t _ rest => t :: rest.tokens
  | rule list opener block closer rest =>
      list.tokens ++ opener.1 :: (block.tokens ++ closer.1 :: rest.tokens)
  | plain heading semicolon rest => heading.tokens ++ semicolon.1 :: rest.tokens
  | declared heading opener block closer rest =>
      heading.tokens ++ opener.1 :: (block.tokens ++ closer.1 :: rest.tokens)
  | nested heading opener block closer rest =>
      heading.tokens ++ opener.1 :: (block.tokens ++ closer.1 :: rest.tokens)

/-- The events of the statements. -/
def events {top : Bool} {leads : Option Bool} : Statements top leads → List Event
  | nil => []
  | separator _ _ rest => rest.events
  | rule list _ block _ rest =>
      .selectors list.selectors :: (block.events ++ .endSelectors list.selectors :: rest.events)
  | plain heading _ rest =>
      .atRule (heading.rule false) :: .endAtRule heading.lowerName :: rest.events
  | declared heading _ block _ rest =>
      .atRule (heading.rule true) :: (block.events ++ .endAtRule heading.lowerName :: rest.events)
  | nested heading _ block _ rest =>
      .atRule (heading.rule true) :: (block.events ++ .endAtRule heading.lowerName :: rest.events)

end Statements

/-! ## Whole styles -/

/-- A style sheet. -/
structure StyleSheet where
  leads : Option Bool
  statements : Statements true leads

namespace StyleSheet

/-- All tokens. -/
def tokens (s : StyleSheet) : List Token := s.statements.tokens

/-- The events of a style sheet. -/
def events (s : StyleSheet) : List Event := .start :: (s.statements.events ++ [.finish])

end StyleSheet

/-- A style attribute. One semicolon may stand before its declarations. -/
structure InlineStyle where
  gap : Gap
  semicolon : Option (Mark ';')
  declarations : Declarations

namespace InlineStyle

/-- All tokens. -/
def tokens (s : InlineStyle) : List Token :=
  s.gap.1 ++ ((s.semicolon.map (fun t => [t.1])).getD [] ++ s.declarations.tokens)

/-- The events of a style attribute. -/
def events (s : InlineStyle) : List Event := .start :: (s.declarations.events ++ [.finish])

end InlineStyle

end Concrete

end EpubStyle
