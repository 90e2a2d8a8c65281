import EpubStyle.Command.Run

/-!
# The command line

Reads the file that the arguments name, runs the command on it, and prints what comes of it. The
exit code is one if there is a complaint.
-/

open EpubStyle

/-- The message for a file that could not be read. -/
def readFailure : IO.Error → String
  | .noFileOrDirectory .. => Bytes.missingFile
  | e => toString e

/-- Read a file, or give the message that it could not be read. -/
def readBytes (path : String) : IO (Except String (List UInt8)) := do
  try
    return .ok (← IO.FS.readBinFile path).toList
  catch e =>
    return .error (readFailure e)

/-- Print what comes of a command. -/
def printOutcome (outcome : Outcome) : IO UInt32 := do
  IO.print outcome.output
  match outcome.complaint with
  | none => return 0
  | some complaint =>
      IO.eprintln (complaintLine complaint)
      return 1

def main (args : List String) : IO UInt32 := do
  match (Invocation.ofArguments args).toOption.bind (fun i => i.command.path?) with
  | none => printOutcome (runCommandLine (fun _ => .error Bytes.missingFile) args)
  | some path =>
      let content ← readBytes path
      printOutcome (runCommandLine (fun _ => content) args)
