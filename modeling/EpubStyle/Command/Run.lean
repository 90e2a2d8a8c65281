import EpubStyle.Command.Arguments
import EpubStyle.Command.Output
import EpubStyle.Profile.Validate

/-!
# Running commands

`Invocation.run` gives what a command prints and, if it does not succeed, its complaint. Files are
read by the reader that it is given, so that the result is a function of the arguments and of the
files. A check of a document or a style sheet prints its report even if it complains.
-/

namespace EpubStyle

/-- What comes of a command. -/
structure Outcome where
  /-- The text on the standard output. -/
  output : String
  /-- Why the command did not succeed. -/
  complaint : Option String
  deriving DecidableEq, Repr, Inhabited

namespace Outcome

/-- Nothing is printed. -/
def refused (complaint : String) : Outcome := ⟨"", some complaint⟩

/-- One value is printed on a line, or on several if it is laid out pretty. -/
def shown (i : Invocation) (j : JsonValue) (complaint : Option String) : Outcome :=
  ⟨j.render (if i.pretty then .pretty else .compact) ++ "\n", complaint⟩

end Outcome

namespace Invocation

/-- The usage text. -/
def helpText : String :=
  String.intercalate "\n"
    ["mu-epub-css - scan, parse and check EPUB style sheets",
      "",
      "USAGE:",
      "  mu-epub-css [--pretty] [--locale <tag>] <command> [args...]",
      "",
      "COMMANDS:",
      "  tokens <css_path>",
      "  parse <css_path>",
      "  check <css_or_xhtml_path> [--strict] [--epub2]",
      "",
      "NOTES:",
      "  - Output is JSON.",
      "  - `check` reads embedded <style> elements and style attributes when the",
      "    path ends in .xhtml, .html or .htm.",
      "  - The exit code is non-zero when `check` finds errors (or warnings with",
      "    --strict).",
      ""]

/-- The options of a parse. -/
def parseOptions (i : Invocation) : ParseOptions := { ParseOptions.default with locale := i.locale }

/-- The path is that of a document with embedded styles. -/
def isDocument (path : String) : Bool :=
  let name := (Text.lowerCase path).toList
  ".xhtml".toList.isSuffixOf name || ".html".toList.isSuffixOf name || ".htm".toList.isSuffixOf name

/-- The complaint about a file that cannot be read. -/
def unreadable (path message : String) : String := path ++ ": " ++ message

/-- The style sheet in a file. -/
def readSource (read : Bytes.FileReader) (path : String) : Except String Bytes.Source :=
  match read path with
  | .error message => .error (unreadable path message)
  | .ok bytes =>
      (Bytes.Source.ofFeed path Bytes.Supply.feed { bytes := bytes }).mapError (unreadable path)

/-- List the tokens of a source. -/
def runTokens (i : Invocation) (source : Bytes.Source) : Outcome :=
  let (tokens, d) := scanText i.parseOptions (.collecting none) source.text source.name
  match d.failure with
  | some failure => .refused (failure.message i.locale)
  | none =>
      .shown i (.obj [("css", .str source.name), ("tokens", .arr (tokens.map Token.json)),
        ("errors", .arr (d.problems.map (Problem.json i.locale)))]) none

/-- List the events of a source. -/
def runParse (i : Invocation) (source : Bytes.Source) : Outcome :=
  let d := parseSource i.parseOptions (.collecting none) source
  match d.failure with
  | some failure => .refused (failure.message i.locale)
  | none =>
      .shown i (.obj [("css", .str source.name), ("encoding", .str source.encoding.name),
        ("events", .arr (d.events.map Event.json)),
        ("errors", .arr (d.problems.map (Problem.json i.locale)))]) none

/-- The complaint about a report. A strict check complains about warnings as well. -/
def verdict (strict : Bool) (r : Report) : Option String :=
  if strict then
    if 0 < r.count .error || 0 < r.count .warning then some "validation failed (strict mode)"
    else none
  else if 0 < r.count .error then some "validation failed"
  else none

/-- Check the bytes of the file at a path. -/
def runCheck (i : Invocation) (path : String) (strict : Bool) (version : EpubVersion)
    (bytes : List UInt8) : Outcome :=
  let o : CheckOptions := ⟨version, [], i.parseOptions⟩
  match if isDocument path then checkDocument o path bytes else checkSheet o path bytes with
  | .error failure => .refused (failure.message i.locale)
  | .ok report => .shown i (report.json i.locale path) (verdict strict report)

/-- What comes of a command. -/
def run (i : Invocation) (read : Bytes.FileReader) : Outcome :=
  match i.command with
  | .help => ⟨helpText ++ "\n", none⟩
  | .tokens path =>
      match readSource read path with
      | .ok source => i.runTokens source
      | .error complaint => .refused complaint
  | .parse path =>
      match readSource read path with
      | .ok source => i.runParse source
      | .error complaint => .refused complaint
  | .check path strict version =>
      match read path with
      | .ok bytes => i.runCheck path strict version bytes
      | .error message => .refused (unreadable path message)

end Invocation

/-- What comes of a command line. -/
def runCommandLine (read : Bytes.FileReader) (args : List String) : Outcome :=
  match Invocation.ofArguments args with
  | .ok i => i.run read
  | .error e => .refused e.message

/-- What is written to the standard error for a complaint, without the line feed. -/
def complaintLine (complaint : String) : String := "error: " ++ complaint

end EpubStyle
