import EpubStyle.Bytes.Files
import EpubStyle.Markup.PlainXml
import EpubStyle.Profile.Check

/-!
# Checking style sheets and documents

A style sheet is checked as bytes, so that its encoding is looked at as well; a style attribute as
text at a place in a document; and a document by all the styles in it. What keeps a style from being
parsed keeps it from being checked. Reports are ordered by place.
-/

namespace EpubStyle

namespace Subject

/-- The report of a text read by a grammar. -/
def checkText (s : Subject) (g : Grammar) (text : String) : Except Failure Report :=
  let d := parseText s.options.parse (.collecting none) g text s.path
  match d.failure with
  | some failure => .error failure
  | none => .ok (s.review d.events d.problems)

/-- The label names an encoding that the profile allows. -/
def allowsCharset (label : String) : Bool :=
  let name := Text.lowerCase (Text.trimSpace label)
  name == "utf-8" || "utf-16".toList.isPrefixOf name.toList

/-- What is found about the encoding of a source. -/
def encodingFindings (source : Bytes.Source) : List Finding :=
  ((source.charset.filter (fun label => !allowsCharset label)).map Finding.foreignCharset).toList ++
    ((source.mark.filter (fun m => m == .utf32be || m == .utf32le)).map Finding.foreignMark).toList

/-- The report of the encoding of a source. -/
def encodingReport (s : Subject) (source : Bytes.Source) : Report :=
  .ofDiagnostics ((encodingFindings source).map (fun finding => ⟨finding, s.path, 1, 1⟩))

end Subject

/-- Check the bytes of a style sheet at a path. -/
def checkSheet (o : CheckOptions) (path : String) (bytes : List UInt8) : Except Failure Report :=
  let s : Subject := ⟨path, .start, o⟩
  let source := Bytes.Source.ofBytes path bytes
  let d := parseSource o.parse (.collecting none) source
  match d.failure with
  | some failure => .error failure
  | none => .ok (s.encodingReport source ++ s.review d.events d.problems).ordered

/-- Check the text of a style attribute at a place in the document at a path. -/
def checkAttribute (o : CheckOptions) (path : String) (origin : Origin) (text : String) :
    Except Failure Report :=
  (Subject.checkText ⟨path, origin, o⟩ .styleAttribute text).map Report.ordered

/-- The grammar of a style in a document. -/
def Markup.StyleKind.grammar : Markup.StyleKind → Grammar
  | .element => .sheet
  | .attribute => .styleAttribute

/-- Check a style in the document at a path. -/
def checkEmbedded (o : CheckOptions) (path : String) (style : Markup.EmbeddedStyle) :
    Except Failure Report :=
  Subject.checkText ⟨path, ⟨style.line, style.column⟩, o⟩ style.kind.grammar style.css

/-- Check all styles in the bytes of the document at a path. -/
def checkDocument (o : CheckOptions) (path : String) (document : List UInt8) :
    Except Failure Report := do
  let styles ← (Markup.extractStyles document).mapError Failure.markup
  let reports ← styles.mapM (checkEmbedded o path)
  return (Report.join reports).ordered

/-- Check the style sheet in a file. -/
def checkFile (o : CheckOptions) (read : Bytes.FileReader) (path : String) :
    Except Failure Report :=
  match read path with
  | .ok bytes => checkSheet o path bytes
  | .error message => .error (.io message)

end EpubStyle
