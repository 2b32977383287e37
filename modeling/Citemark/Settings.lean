import Citemark.Placeholder

/-!
# Settings

Settings come in layers: what is built in, a file of the user, and the command line. A later layer
wins for the output path and for each placeholder token; strict mode stays on once a layer turns it
on.

Results:
* `merge_default`: a layer that sets nothing changes nothing.
-/

namespace Citemark

/-- Settings for a run. -/
structure Settings where
  /-- Where to write; `-` is the standard output. -/
  output : Option Text := none
  /-- Whether citation warnings are errors. -/
  strict : Bool := false
  placeholders : PlaceholderMap := .empty
deriving DecidableEq

namespace Settings

/-- Where to write when no layer says it. -/
def defaultOutput : Text := "README.md".toList

/-- The settings that nothing has to set. -/
def builtIn : Settings where
  output := some "README.md".toList
  placeholders := .ofList [("[[VIDEOS]]".toList, "https://cselab.github.io/aphros/videos".toList)]

/-- Where the settings say to write. -/
def outputPath (s : Settings) : Text := s.output.getD defaultOutput

/-- Puts the layer `later` on top. -/
def merge (s later : Settings) : Settings where
  output := later.output.or s.output
  strict := s.strict || later.strict
  placeholders := s.placeholders.extend later.placeholders.entries

/-- Puts placeholders on top. -/
def withPlaceholders (s : Settings) (pairs : List (Text × Text)) : Settings :=
  { s with placeholders := s.placeholders.extend pairs }

theorem merge_default (s : Settings) : s.merge {} = s := by
  simp [merge, PlaceholderMap.extend, PlaceholderMap.empty]

/-- Reads a placeholder argument, `TOKEN=VALUE`. The first `=` ends the token. -/
def parsePlaceholder (arg : Text) : Except Text (Text × Text) :=
  let token := arg.takeWhile (· ≠ '=')
  match arg.dropWhile (· ≠ '=') with
  | '=' :: value =>
    if token.isEmpty then throw (refusal arg) else return (token, value)
  | _ => throw (refusal arg)
where
  /-- What is said about an argument of another form. -/
  refusal (arg : Text) : Text := "expected TOKEN=VALUE, got '".toList ++ arg ++ "'".toList

end Settings
end Citemark
