import EpubStyle.Construct.Printer
import EpubStyle.Proofs.Concrete.Signs

/-!
# Writing events

`written` writes the events of a style sheet as text, each construct as `Construct.toCss` has it:
an at-rule goes up to its brace or semicolon, the selectors of a rule set stand in one line with
commas between them, and every declaration has a line.

What is written is a row of strokes: signs, white space between them, and what only separates
(`Stroke`). `eventStrokes` are the strokes of events and have their text
(`Stroke.texts_eventStrokes`).
-/

set_option autoImplicit false

namespace EpubStyle

/-! ## The text of events -/

/-- The texts of selectors in one line. -/
def writtenSelectors : List Selector → String
  | [] => ""
  | [s] => s.toCss
  | s :: rest => s.toCss ++ ", " ++ writtenSelectors rest

/-- Events as text. Each at-rule that is open says in `blocks`, innermost first, whether it has a
block that must be closed. -/
def written (blocks : List Bool) : List Event → String
  | [] => ""
  | .start :: es | .finish :: es => written blocks es
  | .selectors list :: es => writtenSelectors list ++ " \x7b\n" ++ written blocks es
  | .endSelectors _ :: es => "\x7d\n" ++ written blocks es
  | .declaration d :: es => "  " ++ d.toCss ++ "\n" ++ written blocks es
  | .atRule r :: es =>
      r.toCss ++ (if r.hasBlock then " \x7b\n" else ";\n") ++ written (r.hasBlock :: blocks) es
  | .endAtRule _ :: es =>
      (if blocks.headD false then "\x7d\n" else "") ++ written blocks.tail es

/-! ## Strokes -/

namespace Sign

/-- A sign as it is written. Strings get single quotation marks. -/
def written : Sign → String
  | value .string text => "'" ++ text ++ "'"
  | x => x.text

end Sign

/-- What is written at a time. -/
inductive Stroke where
  /-- A character of white space. -/
  | blank (c : Char) (fits : Text.isBlank c = true)
  | sign (x : Sign)
  | importance
  | semicolon
  deriving DecidableEq, Repr

namespace Stroke

/-- The text of a stroke. -/
def text : Stroke → String
  | blank c _ => String.singleton c
  | sign x => x.written
  | importance => "!important"
  | semicolon => ";"

/-- The texts of strokes in a row. -/
def texts : List Stroke → String
  | [] => ""
  | x :: xs => x.text ++ texts xs

@[simp] theorem texts_append (xs ys : List Stroke) : texts (xs ++ ys) = texts xs ++ texts ys := by
  induction xs with
  | nil => simp [texts]
  | cons x xs ih => simp [texts, ih, String.append_assoc]

/-- A space. -/
abbrev space : Stroke := blank ' ' rfl

/-- The end of a line. -/
abbrev lineBreak : Stroke := blank '\n' rfl

/-- A space between the members of a list, if they are `spaced`. -/
def gap (spaced : Bool) : List Stroke := if spaced then [space] else []

end Stroke

open Stroke

/-- The stroke of a combinator: white space for a descendant. -/
def Combinator.strokes : Combinator → List Stroke
  | descendant => [space]
  | child => [sign (.mark '>')]
  | adjacent => [sign (.mark '+')]
  | general => [sign (.mark '~')]

namespace Construct

mutual

/-- The strokes of a construct. -/
def strokes : Construct → List Stroke
  | atom .typeSelector value _ => [sign (.typeName value)]
  | atom kind value _ => [sign (.value kind value)]
  | quantity value measure _ => [sign (.quantity value measure)]
  | combinator kind _ => kind.strokes
  | matching operator _ => [sign (.matching operator)]
  | atRule name parameters _ _ => sign (.atKeyword name) :: strokesEach true parameters
  | declaration name value important _ =>
      [sign (.property name), space, sign (.mark ':'), space] ++ strokesJoined true value ++
        (if important then [space, importance] else []) ++ [space, semicolon]
  | selector components _ | sequence components _ => strokesJoined false components
  | attributeSelector components _ =>
      sign (.mark '[') :: (strokesJoined false components ++ [sign (.mark ']')])
  | group delimiter components _ =>
      sign (.group delimiter) ::
        (strokesJoined true components ++ [sign (.mark delimiter.closer)])
  | pseudo kind name _ => [sign (.pseudo kind name)]
  | function name arguments _ =>
      sign (.function name) :: (strokesJoined true arguments ++ [sign (.mark ')')])
  | pseudoFunction kind name arguments _ =>
      sign (.pseudoFunction kind name) :: (strokesJoined false arguments ++ [sign (.mark ')')])

/-- The strokes of constructs, with white space before each if they are `spaced`. -/
def strokesEach (spaced : Bool) : List Construct → List Stroke
  | [] => []
  | c :: cs => gap spaced ++ strokes c ++ strokesEach spaced cs

/-- The strokes of constructs, with white space between them if they are `spaced`. -/
def strokesJoined (spaced : Bool) : List Construct → List Stroke
  | [] => []
  | c :: cs => strokes c ++ strokesEach spaced cs

end

end Construct

/-- The strokes of selectors in one line. -/
def selectorStrokes : List Selector → List Stroke
  | [] => []
  | [s] => s.toConstruct.strokes
  | s :: rest => s.toConstruct.strokes ++ sign (.mark ',') :: space :: selectorStrokes rest

/-- The strokes that open a block. -/
def openingStrokes : List Stroke := [space, sign (.mark '{'), lineBreak]

/-- The strokes that close a block. -/
def closingStrokes : List Stroke := [sign (.mark '}'), lineBreak]

/-- The strokes that end an at-rule without a block. -/
def endingStrokes : List Stroke := [semicolon, lineBreak]

/-- The strokes of events. -/
def eventStrokes (blocks : List Bool) : List Event → List Stroke
  | [] => []
  | .start :: es | .finish :: es => eventStrokes blocks es
  | .selectors list :: es => selectorStrokes list ++ openingStrokes ++ eventStrokes blocks es
  | .endSelectors _ :: es => closingStrokes ++ eventStrokes blocks es
  | .declaration d :: es =>
      space :: space :: d.toConstruct.strokes ++ lineBreak :: eventStrokes blocks es
  | .atRule r :: es =>
      r.toConstruct.strokes ++ (if r.hasBlock then openingStrokes else endingStrokes) ++
        eventStrokes (r.hasBlock :: blocks) es
  | .endAtRule _ :: es =>
      (if blocks.headD false then closingStrokes else []) ++ eventStrokes blocks.tail es

/-! ## Strokes have the text that is written -/

namespace Stroke

mutual

theorem texts_strokes (c : Construct) : texts c.strokes = c.toCss := by
  cases c with
  | atom kind value l =>
      cases kind <;> simp [Construct.strokes, Construct.toCss, texts, text, Sign.written, Sign.text]
  | quantity value measure l =>
      simp [Construct.strokes, Construct.toCss, texts, text, Sign.written, Sign.text]
  | combinator kind l =>
      cases kind <;> rfl
  | matching operator l =>
      simp [Construct.strokes, Construct.toCss, texts, text, Sign.written, Sign.text]
  | atRule name parameters hasBlock l =>
      simp [Construct.strokes, Construct.toCss, texts, text, Sign.written, Sign.text,
        texts_strokesEach true parameters]
  | declaration name value important l =>
      -- The colon and its blanks are strokes of their own, and one text for `toCss`.
      have hcolon (s : String) : " " ++ (":" ++ (" " ++ s)) = " : " ++ s := by
        simp only [← String.append_assoc]
        rfl
      cases important <;>
        simp [Construct.strokes, Construct.toCss, texts, text, Sign.written, Sign.text,
          texts_strokesJoined true value, String.append_assoc, hcolon]
  | selector components l | sequence components l =>
      simpa [Construct.strokes, Construct.toCss] using texts_strokesJoined false components
  | group delimiter components l =>
      cases delimiter <;>
        simp [Construct.strokes, Construct.toCss, texts, text, Sign.written, Sign.text,
          texts_strokesJoined, Delimiter.closer, Delimiter.closing, String.append_assoc]
  | attributeSelector components l | function name components l
  | pseudoFunction kind name components l =>
      simp [Construct.strokes, Construct.toCss, texts, text, Sign.written, Sign.text,
        texts_strokesJoined, String.append_assoc]
  | pseudo kind name l =>
      simp [Construct.strokes, Construct.toCss, texts, text, Sign.written, Sign.text]

theorem texts_strokesEach (spaced : Bool) (cs : List Construct) :
    texts (Construct.strokesEach spaced cs) =
      Construct.toCssEach (if spaced then " " else "") cs := by
  cases cs with
  | nil => rfl
  | cons c cs =>
      cases spaced <;>
        simp [Construct.strokesEach, Construct.toCssEach, gap, texts, text, texts_strokes c,
          texts_strokesEach _ cs, String.append_assoc]

theorem texts_strokesJoined (spaced : Bool) (cs : List Construct) :
    texts (Construct.strokesJoined spaced cs) =
      Construct.toCssJoined (if spaced then " " else "") cs := by
  cases cs with
  | nil => rfl
  | cons c cs =>
      simp [Construct.strokesJoined, Construct.toCssJoined, texts_strokes c, texts_strokesEach]

end

theorem texts_selectorStrokes (list : List Selector) :
    texts (selectorStrokes list) = writtenSelectors list := by
  induction list with
  | nil => rfl
  | cons s rest ih =>
      cases rest with
      | nil => exact texts_strokes s.toConstruct
      | cons s' rest =>
          have hcomma (s : String) : "," ++ (" " ++ s) = ", " ++ s := by
            simp only [← String.append_assoc]
            rfl
          rw [selectorStrokes, texts_append, texts_strokes]
          · simp [texts, text, Sign.written, Sign.text, ih, writtenSelectors, Selector.toCss,
              String.append_assoc, hcomma]
          · simp

theorem texts_openingStrokes : texts openingStrokes = " \x7b\n" := by decide

theorem texts_endingStrokes : texts endingStrokes = ";\n" := by decide

theorem texts_closingStrokes : texts closingStrokes = "\x7d\n" := by decide

/-- **The strokes of events have the text that is written for them.** -/
theorem texts_eventStrokes (es : List Event) (blocks : List Bool) :
    texts (eventStrokes blocks es) = EpubStyle.written blocks es := by
  induction es generalizing blocks with
  | nil => rfl
  | cons e es ih =>
      cases e with
      | start | finish => exact ih blocks
      | selectors list =>
          simp [eventStrokes, EpubStyle.written, texts_selectorStrokes, texts_openingStrokes, ih,
            String.append_assoc]
      | endSelectors list => simp [eventStrokes, EpubStyle.written, texts_closingStrokes, ih]
      | declaration d =>
          have hindent (s : String) : " " ++ (" " ++ s) = "  " ++ s := by
            rw [← String.append_assoc]
            rfl
          simp [eventStrokes, EpubStyle.written, texts, text, texts_strokes, Declaration.toCss, ih,
            String.append_assoc, hindent]
      | atRule r =>
          cases hblock : r.hasBlock <;>
            simp [eventStrokes, EpubStyle.written, texts_strokes, texts_openingStrokes,
              texts_endingStrokes, AtRule.toCss, hblock, ih, String.append_assoc]
      | endAtRule name =>
          cases hblock : blocks.head?.getD false <;>
            simp [eventStrokes, EpubStyle.written, texts_closingStrokes, hblock, ih]

end Stroke

end EpubStyle
