import EpubStyle.Text.Chars

/-!
# References to resources

A style sheet names resources relative to its own path. `Href.resolve` gives the path of a resource
inside the publication: the directory of the style sheet and the reference are joined, segments `.`
are dropped, and a segment `..` cancels the one before it. References with a scheme and two slashes,
absolute paths and `data:` addresses are kept as they are.
-/

namespace EpubStyle.Href

/-- The segments between slashes. -/
def segments : List Char → List (List Char)
  | [] => [[]]
  | c :: cs =>
      if c == '/' then [] :: segments cs
      else
        match segments cs with
        | [] => [[c]]
        | first :: rest => (c :: first) :: rest

/-- Segments written with slashes between them. -/
def join : List (List Char) → List Char
  | [] => []
  | [segment] => segment
  | segment :: rest => segment ++ '/' :: join rest

/-- The segment that stays in place. -/
def here : List Char := ['.']

/-- The segment that leaves a directory. -/
def parent : List Char := ['.', '.']

/-- Walk along segments. The segments `passed` so far are given latest first. -/
def walk (passed : List (List Char)) : List (List Char) → List (List Char)
  | [] => passed.reverse
  | segment :: rest =>
      if segment == here then walk passed rest
      else if segment == parent && passed.head?.any (· != parent) then walk passed.tail rest
      else walk (segment :: passed) rest

/-- The text before the last slash, if there is a slash. -/
def directory? (path : List Char) : Option (List Char) :=
  match path.reverse.dropWhile (· != '/') with
  | [] => none
  | _ :: before => some before.reverse

/-- The text `word` occurs in a text. -/
def contains (word : List Char) : List Char → Bool
  | [] => word.isEmpty
  | c :: cs => word.isPrefixOf (c :: cs) || contains word cs

/-- The reference does not depend on the path of the style sheet. -/
def isAbsolute (href : List Char) : Bool :=
  contains "://".toList href || "/".toList.isPrefixOf href || "data:".toList.isPrefixOf href

/-- A reference behind the directory of a path. -/
def behind (base href : List Char) : List Char :=
  match directory? base with
  | some directory => directory ++ '/' :: href
  | none => href

/-- The resource that a reference in the style sheet at the path `base` means. -/
def resolve (base href : String) : String :=
  if isAbsolute href.toList then href
  else String.ofList (join (walk [] (segments (behind base.toList href.toList))))

/-- The resource lies outside the publication. -/
def isRemote (href : String) : Bool :=
  Text.startsWord "http://".toList href.toList || Text.startsWord "https://".toList href.toList

/-- The text behind the last dot of a path, in lower case. A query and a fragment do not belong to
the path. -/
def extension? (href : String) : Option String :=
  let path := href.toList.takeWhile (fun c => c != '?' && c != '#')
  if path.contains '.' then
    some (Text.lowerCase (String.ofList (path.reverse.takeWhile (· != '.')).reverse))
  else none

end EpubStyle.Href
