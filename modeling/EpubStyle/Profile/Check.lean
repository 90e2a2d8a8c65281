import EpubStyle.Grammar.Event
import EpubStyle.Parse
import EpubStyle.Profile.MediaType
import EpubStyle.Profile.Report

/-!
# The rules of the profile

`Subject.review` reads the events of one style in order and reports on each: the resources that it
refers to, the descriptors of its font faces, and what the profile has an opinion on. The only thing
carried from event to event is the font face that is open. The syntax errors of the style come last.

A style may be part of a larger document. Its `Origin` is the place of its first character there,
and every place in the report is a place in the document.
-/

namespace EpubStyle

/-! ## Subjects -/

/-- The versions of EPUB. -/
inductive EpubVersion where
  | epub2
  | epub3
  deriving DecidableEq, Repr, Inhabited

/-- The options of a check. -/
structure CheckOptions where
  version : EpubVersion
  /-- The declared media types of resources. -/
  mediaTypes : List (String × String)
  parse : ParseOptions
  deriving DecidableEq, Repr

/-- EPUB 3 without declared media types. -/
def CheckOptions.default : CheckOptions := ⟨.epub3, [], .default⟩

/-- The place of the first character of a style in its document. -/
structure Origin where
  line : Nat
  column : Nat
  deriving DecidableEq, Repr, Inhabited

namespace Origin

/-- The origin of a style that is a document of its own. -/
def start : Origin := ⟨1, 1⟩

/-- The line and the column in the document of a location in the style. Only the first line of a
style starts within a line of the document. -/
def place (o : Origin) (l : Location) : Nat × Nat :=
  if l.line ≤ 1 then (o.line, o.column + (l.column - 1)) else (o.line + l.line - 1, l.column)

/-- A location in the style as a location in the document. -/
def relocate (o : Origin) (l : Location) : Location :=
  let place := o.place l
  l.relocate place.1 place.2

end Origin

/-- A style to check: the path of the document, its place there, and the options. -/
structure Subject where
  path : String
  origin : Origin
  options : CheckOptions
  deriving DecidableEq, Repr

/-! ## Addresses -/

namespace Construct

mutual

/-- The addresses that a construct refers to, with their locations. They stand alone or among the
members of functions and groups. -/
def addresses : Construct → List (String × Location)
  | atom .uri value l => [(address value, l)]
  | function _ arguments _ => addressesOf arguments
  | group _ components _ => addressesOf components
  | _ => []

/-- The addresses that constructs refer to. -/
def addressesOf : List Construct → List (String × Location)
  | [] => []
  | c :: cs => addresses c ++ addressesOf cs

end

/-- The text of a construct in a descriptor: strings lose their quotation marks. -/
def plainText : Construct → String
  | atom .string value _ => value
  | c => c.toCss

/-- A value without quotation marks. There is a space between its parts, but none before a comma. -/
def plainValue (value : List Construct) : String :=
  value.foldl
    (fun text c => (if text.isEmpty || c.isSymbol ',' then text else text ++ " ") ++ c.plainText) ""

end Construct

namespace Subject

/-! ## References -/

/-- A finding at a location in the style. -/
def diagnose (s : Subject) (finding : Finding) (l : Location) : Diagnostic :=
  let place := s.origin.place l
  ⟨finding, s.path, place.1, place.2⟩

/-- The report of one finding. -/
def report (s : Subject) (finding : Finding) (l : Location) : Report :=
  .ofDiagnostics [s.diagnose finding l]

/-- The resource that an address means. -/
def resolve (s : Subject) (href : String) : String := Href.resolve s.path href

/-- The report of an address: a reference, or a finding if it is empty. -/
def referTo (s : Subject) (kind : ReferenceKind) (address : String × Location) : Report :=
  if address.1.isEmpty then s.report .emptyReference address.2
  else .ofReferences [⟨address.1, s.resolve address.1, s.origin.relocate address.2, kind⟩]

/-- The report of every address in a list of constructs. -/
def referToAll (s : Subject) (kind : ReferenceKind) (cs : List Construct) : Report :=
  .join ((Construct.addressesOf cs).map (s.referTo kind))

/-- The resources that a list of constructs refers to. -/
def resources (s : Subject) (cs : List Construct) : List String :=
  ((Construct.addressesOf cs).filter (fun address => !address.1.isEmpty)).map
    (fun address => s.resolve address.1)

/-! ## Fonts -/

/-- A font face that is open. -/
structure OpenFontFace where
  face : FontFace
  /-- Number of declarations in it. -/
  declarations : Nat
  deriving DecidableEq, Repr, Inhabited

/-- The font face of an at-rule at a location. -/
def OpenFontFace.start (l : Location) : OpenFontFace := ⟨⟨none, none, none, [], l⟩, 0⟩

/-- The media type of a resource, declared or guessed. -/
def mediaType? (s : Subject) (resource : String) : Option String :=
  (s.options.mediaTypes.lookup resource).or (MediaType.guess? resource)

/-- The finding about a resource that is used as a font. -/
def fontFinding? (s : Subject) (resource : String) : Option Finding :=
  if Href.isRemote resource then none
  else
    match s.mediaType? resource with
    | none => none
    | some mediaType =>
        if MediaType.isFont mediaType then none else some (.fontType resource mediaType)

/-- A font face with one more descriptor. -/
def describe (s : Subject) (face : FontFace) (d : Declaration) : FontFace :=
  if d.name == "font-family" then { face with family := some (Construct.plainValue d.value) }
  else if d.name == "font-style" then { face with style := some (Construct.plainValue d.value) }
  else if d.name == "font-weight" then { face with weight := some (Construct.plainValue d.value) }
  else if d.name == "src" then { face with sources := face.sources ++ s.resources d.value }
  else face

/-- The report of the addresses in a descriptor. -/
def descriptorReport (s : Subject) (d : Declaration) : Report :=
  if d.name == "src" then
    s.referToAll .font d.value ++
      .ofDiagnostics (((s.resources d.value).filterMap s.fontFinding?).map
        (fun finding => s.diagnose finding d.location))
  else s.referToAll .url d.value

/-- The report of a font face that ends. -/
def fontFaceReport (s : Subject) (font : OpenFontFace) : Report :=
  (if font.declarations == 0 then s.report .emptyFontFace font.face.location else .empty) ++
    .ofFontFaces [{ font.face with location := s.origin.relocate font.face.location }]

/-! ## Declarations and at-rules -/

/-- What is found about a declaration, wherever it stands. -/
def declarationFindings (s : Subject) (d : Declaration) : List Finding :=
  (if d.name == "direction" || d.name == "unicode-bidi" then [.directionProperty d.name]
    else if d.name == "position" && s.options.version == .epub3 &&
        d.value.any (fun c => c.isKeyword "fixed") then [.fixedPosition]
    else []) ++
    (if d.important then [.important d.name] else [])

/-- The resource that an at-rule imports, if its first parameter is an address or a string. -/
def importTarget? (r : AtRule) : Option String :=
  match r.parameters with
  | .atom .uri value _ :: _ => some (Construct.address value)
  | .atom .string value _ :: _ => some value
  | _ => none

/-- The report of an at-rule that starts, other than that of a font face. -/
def atRuleReport (s : Subject) (r : AtRule) : Report :=
  if r.name == "@import" then
    match importTarget? r with
    | some href => s.referTo .imported (href, r.location)
    | none => .empty
  else if r.name == "@media" then
    s.report .mediaRule r.location ++ s.referToAll .url r.parameters
  else s.referToAll .url r.parameters

/-- The font face that is open behind an event, and the report of the event. -/
def step (s : Subject) (open? : Option OpenFontFace) : Event → Option OpenFontFace × Report
  | .atRule r =>
      if r.name == "@font-face" then (some (.start r.location), .empty)
      else (open?, s.atRuleReport r)
  | .endAtRule name =>
      if name == "@font-face" then
        match open? with
        | some font => (none, s.fontFaceReport font)
        | none => (none, .empty)
      else (open?, .empty)
  | .declaration d =>
      let rules := Report.ofDiagnostics
        ((s.declarationFindings d).map (fun finding => s.diagnose finding d.location))
      match open? with
      | some font =>
          (some ⟨s.describe font.face d, font.declarations + 1⟩, s.descriptorReport d ++ rules)
      | none => (none, s.referToAll .url d.value ++ rules)
  | .start | .finish | .selectors _ | .endSelectors _ => (open?, .empty)

/-- The report of events, where a font face may be open. -/
def reviewFrom (s : Subject) (open? : Option OpenFontFace) : List Event → Report
  | [] => .empty
  | e :: events =>
      let (open?, report) := s.step open? e
      report ++ s.reviewFrom open? events

/-- The report of syntax errors. -/
def syntaxErrors (s : Subject) (problems : List Problem) : Report :=
  .ofDiagnostics (problems.map (fun p => s.diagnose (.syntaxError p) p.location))

/-- The report of a style with these events and syntax errors. -/
def review (s : Subject) (events : List Event) (problems : List Problem) : Report :=
  s.reviewFrom none events ++ s.syntaxErrors problems

end Subject

end EpubStyle
