import Citemark.Program

/-!
# Entry point

Reads the files that an invocation names, makes its plan, and carries the plan out.
-/

namespace Citemark.Main

/-- The failure that a system error means. -/
def fileError : IO.Error → FileError
  | .noFileOrDirectory .. => .noSuchFile
  | e => .other e.toString.toList

/-- Reads a file that holds text. -/
def readText (path : Text) : IO (Except FileError Text) := do
  try
    match Text.ofUtf8? (← IO.FS.readBinFile (String.ofList path)) with
    | some text => return .ok text
    | none => return .error .notUtf8
  catch e => return .error (fileError e)

/-- Writes the file of a plan, if it writes one. -/
def write (plan : Plan) : IO (Except FileError Unit) := do
  match plan.action with
  | .ok (.write path text _) =>
    try
      IO.FS.writeBinFile (String.ofList path) text.utf8
      return .ok ()
    catch e => return .error (fileError e)
  | _ => return .ok ()

/-- Prints how a run ends, and gives its exit code. -/
def finish (e : Program.Exit) : IO UInt32 := do
  (← IO.getStderr).putStr (String.ofList e.stderr)
  (← IO.getStdout).putStr (String.ofList e.stdout)
  return e.code.toUInt32

/-- Runs a command. -/
def invoke (i : Invocation) : IO UInt32 := do
  let files ← i.sources.mapM fun path => do return (path, ← readText path)
  let plan := i.plan .standard fun path => (files.lookup path).getD (.error .noSuchFile)
  finish (Program.exit i.quiet (plan.outcome (← write plan)))

end Citemark.Main

def main (words : List String) : IO UInt32 := do
  match Citemark.Invocation.ofWords (words.map String.toList) with
  | .error reason => Citemark.Main.finish (Citemark.Program.stop reason)
  | .ok invocation => Citemark.Main.invoke invocation
