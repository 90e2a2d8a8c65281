import EpubStyle.Problem.Wording

/-!
# Kinds of error

Every lexical or grammatical error has a `Code`. It carries a stable key, and for each locale a
message template: a list of fixed texts and argument positions. `Code.message` fills the arguments
in; an argument that is not supplied is empty.
-/

namespace EpubStyle

/-- The kinds of error that reading a style sheet can find. -/
inductive Code where
  /-- A token cannot be completed with the characters found. -/
  | illegalSyntax
  /-- A character is not allowed inside a token. -/
  | illegalChar
  /-- A character is not allowed at the start of a token. -/
  | illegalFirstChar
  /-- An escape denotes no character. -/
  | malformedEscape
  /-- A Unicode range has more than six digits. -/
  | illegalUnicodeRange
  /-- The text ends inside a token. -/
  | lexicalEnd
  /-- The text ends inside a statement. -/
  | grammaticalEnd
  /-- A token is not allowed where it stands. -/
  | unexpectedToken
  /-- A particular token is required and another was found. -/
  | expectingToken
  /-- A selector is built from proper parts in an improper way. -/
  | invalidSelector
  deriving DecidableEq, Repr, Inhabited

namespace Code

/-- All kinds of error. -/
def all : List Code :=
  [illegalSyntax, illegalChar, illegalFirstChar, malformedEscape, illegalUnicodeRange, lexicalEnd,
    grammaticalEnd, unexpectedToken, expectingToken, invalidSelector]

/-- The stable key of a kind of error. -/
def key : Code → String
  | illegalSyntax => "css.scanner.token.syntax"
  | illegalChar => "css.scanner.token.char"
  | illegalFirstChar => "css.scanner.token.firstchar"
  | malformedEscape => "css.scanner.escape.malformed"
  | illegalUnicodeRange => "css.scanner.token.urange"
  | lexicalEnd => "css.scanner.prematureEOF"
  | grammaticalEnd => "css.grammar.prematureEOF"
  | unexpectedToken => "css.grammar.unexpectedToken"
  | expectingToken => "css.grammar.expectingToken"
  | invalidSelector => "css.grammar.invalidSelector"

/-- The kind of error with the given key. -/
def ofKey? (key : String) : Option Code :=
  all.find? (fun c => c.key == key)

/-- The error concerns a single token's characters. -/
def isLexical : Code → Bool
  | illegalSyntax | illegalChar | illegalFirstChar | malformedEscape | illegalUnicodeRange
  | lexicalEnd => true
  | grammaticalEnd | unexpectedToken | expectingToken | invalidSelector => false

end Code

/-- A piece of a message template. -/
inductive TemplatePart where
  | text (s : String)
  /-- The place of the argument with this number, counted from zero. -/
  | argument (n : Nat)
  deriving DecidableEq, Repr, Inhabited

namespace TemplatePart

/-- The text that a piece contributes. -/
def fill (arguments : List String) : TemplatePart → String
  | text s => s
  | argument n => (arguments[n]?).getD ""

end TemplatePart

namespace Code

open TemplatePart in
/-- The English template. -/
def english : Code → List TemplatePart
  | illegalSyntax => [text "Illegal token syntax near '", argument 0, text "'"]
  | illegalChar => [text "Illegal character (", argument 0, text ") in ", argument 1]
  | illegalFirstChar => [text "Illegal first character (", argument 0, text ") in ", argument 1]
  | malformedEscape => [text "Malformed escape sequence '", argument 0, text "'"]
  | illegalUnicodeRange => [text "Unicode range '", argument 0, text "' has too many digits"]
  | lexicalEnd => [text "Premature end of file"]
  | grammaticalEnd => [text "Premature end of file, expecting ", argument 0]
  | unexpectedToken => [text "Unexpected token '", argument 0, text "'"]
  | expectingToken =>
      [text "Found '", argument 0, text "' where ", argument 1, text " was expected"]
  | invalidSelector => [text "Invalid selector '", argument 0, text "': ", argument 1]

open TemplatePart in
/-- The French template. -/
def french : Code → List TemplatePart
  | illegalSyntax => [text "Syntaxe de jeton illégale près de '", argument 0, text "'"]
  | illegalChar => [text "Caractère illégal (", argument 0, text ") dans ", argument 1]
  | illegalFirstChar => [text "Premier caractère illégal (", argument 0, text ") dans ", argument 1]
  | malformedEscape => [text "Séquence d'échappement '", argument 0, text "' malformée"]
  | illegalUnicodeRange =>
      [text "La plage unicode '", argument 0, text "' contient trop de chiffres"]
  | lexicalEnd => [text "Fin de fichier prématurée"]
  | grammaticalEnd => [text "Fin de fichier prématurée, attendu : ", argument 0]
  | unexpectedToken => [text "Jeton '", argument 0, text "' inattendu"]
  | expectingToken => [text "'", argument 0, text "' trouvé, attendu : ", argument 1]
  | invalidSelector => [text "Sélecteur '", argument 0, text "' invalide : ", argument 1]

/-- The template in the language of a locale. -/
def template (c : Code) : Locale → List TemplatePart
  | .english => c.english
  | .french => c.french

/-- The message with its arguments filled in. -/
def message (c : Code) (locale : Locale) (arguments : List String) : String :=
  String.join ((c.template locale).map (TemplatePart.fill arguments))

end Code

end EpubStyle
