import EpubStyle.Construct.Basic

/-!
# Writing constructs

`Construct.toCss` writes a construct back as style sheet text. The parts of a selector are written
without anything between them, all other lists with one space. Strings get single quotation marks.
-/

namespace EpubStyle

namespace Construct

mutual

/-- A construct as style sheet text. -/
def toCss : Construct → String
  | atom .string value _ => "'" ++ value ++ "'"
  | atom _ value _ => value
  | combinator kind _ => kind.spelling
  | matching operator _ => operator.spelling
  | quantity value _ _ => value
  | atRule name parameters _ _ => name ++ toCssEach " " parameters
  | function name arguments _ => name ++ "(" ++ toCssJoined " " arguments ++ ")"
  | declaration name value important _ =>
      name ++ " : " ++ toCssJoined " " value ++ (if important then " !important" else "") ++ " ;"
  | selector components _ => toCssJoined "" components
  | sequence components _ => toCssJoined "" components
  | attributeSelector components _ => "[" ++ toCssJoined "" components ++ "]"
  | group delimiter components _ =>
      delimiter.opening ++ toCssJoined " " components ++ delimiter.closing
  | pseudo _ name _ => name
  | pseudoFunction _ name arguments _ => name ++ "(" ++ toCssJoined "" arguments ++ ")"

/-- The constructs with `separator` before each. -/
def toCssEach (separator : String) : List Construct → String
  | [] => ""
  | c :: cs => separator ++ toCss c ++ toCssEach separator cs

/-- The constructs with `separator` between them. -/
def toCssJoined (separator : String) : List Construct → String
  | [] => ""
  | c :: cs => toCss c ++ toCssEach separator cs

end

end Construct

/-- A selector as style sheet text. -/
def Selector.toCss (s : Selector) : String := s.toConstruct.toCss

/-- A declaration as style sheet text. -/
def Declaration.toCss (d : Declaration) : String := d.toConstruct.toCss

/-- An at-rule up to its block as style sheet text. -/
def AtRule.toCss (r : AtRule) : String := r.toConstruct.toCss

end EpubStyle
