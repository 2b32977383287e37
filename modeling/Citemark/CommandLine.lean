import Citemark.Command

/-!
# The command line

The words of a command line name a command and set its options. An option with a value takes it
from the rest of its word or from the next word. Behind `--` every word is an argument. Words are
read from left to right, and the first one that is wrong, or that asks for help or the version,
ends the reading.

Main definition:
* `Invocation.ofWords`: what a command line asks for.
-/

namespace Citemark

/-- What a run is asked to do. -/
inductive Command where
  | render (args : RenderArgs)
  | citations (args : CitationsArgs)
deriving DecidableEq, Repr

/-- A command, and whether to leave what is only informative out of the log. -/
structure Invocation where
  quiet : Bool
  command : Command
deriving DecidableEq, Repr

/-- Why the reading of a command line ends without an invocation. -/
inductive Stop where
  | help
  | version
  | misuse
deriving DecidableEq, Repr

namespace CommandLine

/-! ## Options -/

/-- Options without a value. -/
inductive Flag where
  | quiet
  | strict
  | json
  | help
  | version
deriving DecidableEq, Repr

/-- Options with a value. -/
inductive Setting where
  | output
  | config
  | placeholder
deriving DecidableEq, Repr

/-- The options of a part of the command line, by letter and by word. -/
structure Options where
  flags : List (Option Char × Text × Flag)
  settings : List (Char × Text × Setting) := []

/-- The options that every part has. -/
def commonFlags : List (Option Char × Text × Flag) :=
  [(some 'q', "quiet".toList, .quiet), (some 'h', "help".toList, .help)]

/-- The options in front of the command. -/
def frontOptions : Options where
  flags := commonFlags ++ [(some 'V', "version".toList, .version)]

/-- The options of the command that renders. -/
def renderOptions : Options where
  flags := commonFlags ++ [(none, "strict".toList, .strict)]
  settings := [('o', "output".toList, .output), ('c', "config".toList, .config),
    ('M', "placeholder".toList, .placeholder)]

/-- The options of the command that lists. -/
def citationsOptions : Options where
  flags := commonFlags ++ [(none, "json".toList, .json)]
  settings := [('c', "config".toList, .config)]

namespace Options

def flagOfLetter? (o : Options) (c : Char) : Option Flag :=
  (o.flags.find? (·.1 = some c)).map (·.2.2)

def flagOfWord? (o : Options) (word : Text) : Option Flag :=
  (o.flags.find? (·.2.1 = word)).map (·.2.2)

def settingOfLetter? (o : Options) (c : Char) : Option Setting :=
  (o.settings.find? (·.1 = c)).map (·.2.2)

def settingOfWord? (o : Options) (word : Text) : Option Setting :=
  (o.settings.find? (·.2.1 = word)).map (·.2.2)

end Options

/-! ## Values -/

/-- What the words so far have set. -/
structure Values where
  quiet : Bool := false
  strict : Bool := false
  json : Bool := false
  input : Option Text := none
  output : Option Text := none
  config : Option Text := none
  placeholders : List (Text × Text) := []

namespace Values

/-- Sets a flag, which may come once. -/
def raise (v : Values) : Flag → Except Stop Values
  | .quiet => if v.quiet then throw .misuse else return { v with quiet := true }
  | .strict => if v.strict then throw .misuse else return { v with strict := true }
  | .json => if v.json then throw .misuse else return { v with json := true }
  | .help => throw .help
  | .version => throw .version

/-- A path, which may come once and may not be empty. -/
def path (before : Option Text) (value : Text) : Except Stop (Option Text) :=
  if before.isSome || value.isEmpty then throw .misuse else return some value

/-- Sets the value of an option. Only placeholders may come more than once. -/
def assign (v : Values) (value : Text) : Setting → Except Stop Values
  | .output => do return { v with output := ← path v.output value }
  | .config => do return { v with config := ← path v.config value }
  | .placeholder =>
    match Settings.parsePlaceholder value with
    | .ok pair => return { v with placeholders := v.placeholders ++ [pair] }
    | .error _ => throw .misuse

/-- Takes a word that belongs to no option as the argument. -/
def take (v : Values) (word : Text) : Except Stop Values := do
  return { v with input := ← path v.input word }

end Values

/-! ## Words -/

/-- Reads the letters of a word behind its dash. An option that still wants its value is given
    back. -/
def readLetters (o : Options) (v : Values) : Text → Except Stop (Values × Option Setting)
  | [] => return (v, none)
  | c :: rest =>
    match o.flagOfLetter? c, o.settingOfLetter? c with
    | some flag, _ => do readLetters o (← v.raise flag) rest
    | none, none => throw .misuse
    | none, some setting =>
      match rest with
      | [] => return (v, some setting)
      | '=' :: value => do return (← v.assign value setting, none)
      | value => do return (← v.assign value setting, none)

/-- Reads a long option behind its dashes. -/
def readLong (o : Options) (v : Values) (word : Text) :
    Except Stop (Values × Option Setting) :=
  let name := word.takeWhile (· ≠ '=')
  let value := (word.dropWhile (· ≠ '=')).tail?
  match o.flagOfWord? name, o.settingOfWord? name, value with
  | some flag, _, none => do return (← v.raise flag, none)
  | none, some setting, none => return (v, some setting)
  | none, some setting, some value => do return (← v.assign value setting, none)
  | _, _, _ => throw .misuse

/-- Reads one word as options, if it starts like them. -/
def readOptions? (o : Options) (v : Values) : Text →
    Option (Except Stop (Values × Option Setting))
  | '-' :: '-' :: word => some (readLong o v word)
  | '-' :: c :: letters => some (readLetters o v (c :: letters))
  | _ => none

/-- Reads the words behind a command. `pending` is an option that wants its value. -/
def readWords (o : Options) (v : Values) (pending : Option Setting) :
    List Text → Except Stop Values
  | [] => if pending.isSome then throw .misuse else return v
  | word :: words =>
    if word = ['-', '-'] then
      if pending.isSome then throw .misuse else words.foldlM Values.take v
    else
      match readOptions? o v word, pending with
      | some _, some _ => throw .misuse
      | some read, none => do
        let (v, pending) ← read
        readWords o v pending words
      | none, some setting => do readWords o (← v.assign word setting) none words
      | none, none => do readWords o (← v.take word) none words

/-- The names that help may be asked for. -/
def topics : List Text := ["render".toList, "citations".toList, "help".toList]

/-- Reads the words behind `help`: at most one topic. -/
def readTopic : List Text → Stop
  | [] => .help
  | [topic] => if topics.contains topic then .help else .misuse
  | _ => .misuse

end CommandLine

namespace Invocation

open CommandLine

/-- The invocation of the command that renders. -/
def ofRender (v : Values) : Invocation where
  quiet := v.quiet
  command := .render
    { input := v.input, output := v.output, config := v.config, placeholders := v.placeholders,
      strict := v.strict }

/-- The invocation of the command that lists. -/
def ofCitations (v : Values) : Invocation where
  quiet := v.quiet
  command := .citations { input := v.input, config := v.config, json := v.json }

/-- Reads a command line from its front, where `v` holds what has been set so far. -/
def ofFront (v : Values) : List Text → Except Stop Invocation
  | [] => throw .misuse
  | word :: words =>
    if word = "render".toList then do
      let i := ofRender (← readWords renderOptions {} none words)
      return { i with quiet := i.quiet || v.quiet }
    else if word = "citations".toList then do
      let i := ofCitations (← readWords citationsOptions {} none words)
      return { i with quiet := i.quiet || v.quiet }
    else if word = "help".toList then throw (readTopic words)
    else if word = ['-', '-'] then throw .misuse
    else
      match readOptions? frontOptions v word with
      | some read => do
        let (v, _) ← read
        ofFront v words
      | none => throw .misuse

/-- What a command line asks for. -/
def ofWords (words : List Text) : Except Stop Invocation := ofFront {} words

/-- The plan of an invocation. -/
def plan (i : Invocation) (compiler : PatternCompiler) (read : ReadText) : Plan :=
  match i.command with
  | .render args => args.plan compiler read
  | .citations args => args.plan compiler read

/-- The files that a plan is made from, in the order in which they are read. -/
def sources (i : Invocation) : List Text :=
  match i.command with
  | .render args => args.config.toList ++ args.input.toList
  | .citations args => args.config.toList ++ args.input.toList

end Invocation
end Citemark
