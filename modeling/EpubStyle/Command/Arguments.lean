import EpubStyle.Profile.Check

/-!
# Arguments

`Invocation.ofArguments` reads the arguments of a command line. Each flag counts once, wherever it
stands; a second one of the same name is an ordinary argument. Arguments behind the path are
ignored.
-/

namespace EpubStyle

/-- What the command line is asked to do. -/
inductive Command where
  | help
  /-- List the tokens of a style sheet. -/
  | tokens (path : String)
  /-- List the events of a style sheet. -/
  | parse (path : String)
  /-- Check a style sheet or a document. -/
  | check (path : String) (strict : Bool) (version : EpubVersion)
  deriving DecidableEq, Repr, Inhabited

/-- The file that a command reads. -/
def Command.path? : Command → Option String
  | help => none
  | tokens path | parse path | check path _ _ => some path

/-- A command and how its result is shown. -/
structure Invocation where
  command : Command
  locale : Locale
  pretty : Bool
  deriving DecidableEq, Repr, Inhabited

/-- What is wrong with arguments. -/
inductive UsageError where
  /-- A flag that needs a value stands last. -/
  | missingValue (flag : String)
  /-- A command needs an argument of this description. -/
  | missingPath (command description : String)
  | unknownCommand (name : String)
  deriving DecidableEq, Repr, Inhabited

/-- The wording of a usage error. -/
def UsageError.message : UsageError → String
  | missingValue flag => flag ++ " requires a value"
  | missingPath command description => command ++ " requires " ++ description
  | unknownCommand name =>
      "unknown command '" ++ name ++ "'; run `mu-epub-css --help` for usage"

namespace Invocation

/-- Arguments without the first `flag` and the value behind it, and that value. -/
def takeValue (flag : String) : List String → Except UsageError (Option String × List String)
  | [] => .ok (none, [])
  | a :: args =>
      if a == flag then
        match args with
        | [] => .error (.missingValue flag)
        | value :: rest => .ok (some value, rest)
      else (takeValue flag args).map (fun (value, rest) => (value, a :: rest))

/-- The first argument, which is the path that a command needs. -/
def pathOf (command description : String) (args : List String) : Except UsageError String :=
  match args with
  | [] => .error (.missingPath command description)
  | path :: _ => .ok path

/-- The command with the given name and arguments. -/
def commandOf (name : String) (args : List String) : Except UsageError Command :=
  if name == "tokens" then (pathOf name "<css_path>" args).map .tokens
  else if name == "parse" then (pathOf name "<css_path>" args).map .parse
  else if name == "check" then
    let strict := args.contains "--strict"
    let args := args.erase "--strict"
    let version : EpubVersion := if args.contains "--epub2" then .epub2 else .epub3
    (pathOf name "<css_or_xhtml_path>" (args.erase "--epub2")).map (.check · strict version)
  else .error (.unknownCommand name)

/-- The command that arguments without general flags ask for. -/
def commandOfArguments : List String → Except UsageError Command
  | [] => .ok .help
  | name :: args =>
      if name == "--help" || name == "-h" then .ok .help else commandOf name args

/-- What the arguments of a command line ask for. -/
def ofArguments (args : List String) : Except UsageError Invocation := do
  let (tag, rest) ← takeValue "--locale" (args.erase "--pretty")
  let command ← commandOfArguments rest
  return ⟨command, (tag.map Locale.ofTag).getD .english, args.contains "--pretty"⟩

end Invocation

end EpubStyle
