import EpubStyle.Text.Chars

/-!
# The wording of messages

Messages are written in English or French. A message argument is kept as a `Wording`: text taken
from the style sheet, a fixed phrase, or two alternatives. It becomes text only when a locale is
given, so the analysis itself knows no language.
-/

namespace EpubStyle

/-- A language for messages. -/
inductive Locale where
  | english
  | french
  deriving DecidableEq, Repr, Inhabited

namespace Locale

/-- The locale for a language tag such as `fr-CA`: French for the primary subtag `fr` in any case,
English for every other. -/
def ofTag (tag : String) : Locale :=
  let primary := tag.toList.takeWhile (fun c => c != '-' && c != '_')
  if Text.sameWord primary ['f', 'r'] then french else english

/-- The name of the language. -/
def name : Locale → String
  | english => "English"
  | french => "French"

end Locale

/-- The fixed phrases that messages use as arguments. -/
inductive Phrase where
  | propertyName
  | propertyValue
  | typeOrUniversalSelector
  | stringOrIdentifier
  | attributeValueMatcher
  | newline
  | stringToken
  | multiplePseudoElements
  | misplacedPseudoElement
  deriving DecidableEq, Repr, Inhabited

namespace Phrase

/-- A phrase in English. -/
def english : Phrase → String
  | propertyName => "a property name"
  | propertyValue => "a property value"
  | typeOrUniversalSelector => "a type or universal selector"
  | stringOrIdentifier => "a string or identifier"
  | attributeValueMatcher => "an attribute value matcher"
  | newline => "a newline"
  | stringToken => "a string"
  | multiplePseudoElements => "more than one pseudo-element"
  | misplacedPseudoElement => "a pseudo-element before the last sequence"

/-- A phrase in French. -/
def french : Phrase → String
  | propertyName => "un nom de propriété"
  | propertyValue => "une valeur de propriété"
  | typeOrUniversalSelector => "un sélecteur de type ou universel"
  | stringOrIdentifier => "une chaîne ou un identifiant"
  | attributeValueMatcher => "un opérateur de comparaison d'attribut"
  | newline => "un saut de ligne"
  | stringToken => "une chaîne"
  | multiplePseudoElements => "plusieurs pseudo-éléments"
  | misplacedPseudoElement => "un pseudo-élément avant la dernière séquence"

/-- A phrase in the language of a locale. -/
def text (p : Phrase) : Locale → String
  | .english => p.english
  | .french => p.french

end Phrase

/-- Two alternatives joined by the word for "or". -/
def eitherText (locale : Locale) (a b : String) : String :=
  match locale with
  | .english => a ++ " or " ++ b
  | .french => a ++ " ou " ++ b

/-- An argument of a message. -/
inductive Wording where
  /-- Text that is the same in every language. -/
  | verbatim (text : String)
  | phrase (p : Phrase)
  /-- Either of two texts that are the same in every language. -/
  | either (a b : String)
  deriving DecidableEq, Repr, Inhabited

/-- An argument in the language of a locale. -/
def Wording.text (locale : Locale) : Wording → String
  | verbatim s => s
  | phrase p => p.text locale
  | either a b => eitherText locale a b

end EpubStyle
