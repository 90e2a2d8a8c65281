import EpubStyle.Construct.Printer
import EpubStyle.Grammar.Event
import EpubStyle.Json
import EpubStyle.Profile.Report

/-!
# Results as JSON

Tokens, problems, events and reports as the command line shows them.
-/

namespace EpubStyle

/-- Constructs as a list of style sheet texts. -/
def Construct.listJson (cs : List Construct) : JsonValue := .arr (cs.map (fun c => .str c.toCss))

/-- Selectors as a list of style sheet texts. -/
def Selector.listJson (selectors : List Selector) : JsonValue :=
  .arr (selectors.map (fun s => .str s.toCss))

/-- A token with the number of its faults. -/
def Token.json (t : Token) : JsonValue :=
  .obj [("type", .str t.kind.name), ("text", .str t.text), ("line", .num t.location.line),
    ("column", .num t.location.column), ("errors", .num t.faults.length)]

/-- A problem with its place. -/
def Problem.json (locale : Locale) (p : Problem) : JsonValue :=
  .obj [("code", .str p.code.key), ("message", .str (p.message locale)),
    ("line", .num p.location.line), ("column", .num p.location.column)]

/-- An event with its name first. -/
def Event.json : Event → JsonValue
  | .start => .obj [("event", .str "start_document")]
  | .finish => .obj [("event", .str "end_document")]
  | .atRule r =>
      .obj [("event", .str "start_at_rule"), ("name", .str r.name),
        ("params", Construct.listJson r.parameters), ("block", .bool r.hasBlock),
        ("line", .num r.location.line)]
  | .endAtRule name => .obj [("event", .str "end_at_rule"), ("name", .str name)]
  | .selectors list => .obj [("event", .str "selectors"), ("selectors", Selector.listJson list)]
  | .endSelectors list =>
      .obj [("event", .str "end_selectors"), ("selectors", Selector.listJson list)]
  | .declaration d =>
      .obj [("event", .str "declaration"), ("name", .str d.name),
        ("value", .str (Construct.toCssJoined " " d.value)), ("important", .bool d.important),
        ("line", .num d.location.line)]

/-- A diagnostic with its place and advice. -/
def Diagnostic.json (locale : Locale) (d : Diagnostic) : JsonValue :=
  .obj [("code", .str d.finding.code), ("severity", .str d.finding.severity.name),
    ("message", .str (d.finding.message locale)), ("path", .str d.path), ("line", .num d.line),
    ("column", .num d.column), ("spec_ref", .ofString? d.finding.specification?),
    ("hint", .ofString? d.finding.hint?)]

/-- A reference with its line. -/
def Reference.json (r : Reference) : JsonValue :=
  .obj [("href", .str r.href), ("resolved", .str r.resolved), ("kind", .str r.kind.name),
    ("line", .num r.location.line)]

/-- A font face with its line. -/
def FontFace.json (f : FontFace) : JsonValue :=
  .obj [("family", .ofString? f.family), ("style", .ofString? f.style),
    ("weight", .ofString? f.weight), ("src", .arr (f.sources.map JsonValue.str)),
    ("line", .num f.location.line)]

/-- The report of a file with its counts. -/
def Report.json (locale : Locale) (path : String) (r : Report) : JsonValue :=
  .obj [("file", .str path), ("valid", .bool r.isValid), ("error_count", .num (r.count .error)),
    ("warning_count", .num (r.count .warning)), ("info_count", .num (r.count .info)),
    ("diagnostics", .arr (r.diagnostics.map (Diagnostic.json locale))),
    ("references", .arr (r.references.map Reference.json)),
    ("font_faces", .arr (r.fontFaces.map FontFace.json))]

end EpubStyle
