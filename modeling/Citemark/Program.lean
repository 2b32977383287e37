import Citemark.CommandLine

/-!
# The program

A run takes the words of its command line and ends with an exit code and what it printed. The
result goes to the standard output, the log and the report of a failure to the standard error.

Main definition:
* `Program.run`: a whole run in a file system.
-/

namespace Citemark.Program

/-- How a run ends. -/
structure Exit where
  code : Nat
  stdout : Text := []
  stderr : Text := []
deriving DecidableEq, Repr

/-- The text of the version option. -/
def version : Text := programName ++ " 0.1.0\n".toList

/-- How the program is used. -/
def usage : Text := "Render markdown templates with placeholders and numbered citations

Usage: docgen [-q] render [INPUT] [-o FILE] [-c FILE] [-M TOKEN=VALUE]... [--strict]
       docgen [-q] citations [INPUT] [-c FILE] [--json]
".toList

/-- The report of a failure: what was attempted, and the cause if there is one. -/
def report (failure : Failure) : Text :=
  match failure.chain with
  | [] => []
  | first :: causes =>
    "Error: ".toList ++ first ++ ['\n'] ++
      causes.flatMap fun cause => "\nCaused by:\n    ".toList ++ cause ++ ['\n']

/-- The end of a run with an outcome. -/
def exit (quiet : Bool) (o : Outcome) : Exit where
  code := if o.failure.isSome then 1 else 0
  stdout := o.stdout
  stderr := (o.log.filter fun e => !quiet || e.level ≠ .info).flatMap LogEntry.line ++
    o.failure.elim [] report

/-- The end of a run whose command line asks for no command. -/
def stop : Stop → Exit
  | .help => { code := 0, stdout := usage }
  | .version => { code := 0, stdout := version }
  | .misuse => { code := 2, stderr := usage }

/-- A run in a file system. -/
def run (words : List Text) (fs : FileSystem) : FileSystem × Exit :=
  match Invocation.ofWords words with
  | .error reason => (fs, stop reason)
  | .ok invocation =>
    let (fs, outcome) := (invocation.plan .standard fs.readText).run fs
    (fs, exit invocation.quiet outcome)

end Citemark.Program
