import Citemark.FileSystem
import Citemark.Settings
import Citemark.Template.BuiltIn

/-!
# Templates

A template is a text with the name that its diagnostics are reported under: the name of its file,
or the name of the program for the built-in one. The name is also what the placeholder `[[GEN]]`
stands for, unless the settings give it another value.

Main definition:
* `Template.placeholders`: what is substituted in a template.
-/

namespace Citemark

/-- The name of the program. -/
def programName : Text := "docgen".toList

/-- A template and its name. -/
structure Template where
  text : Text
  name : Text

namespace Template

/-- The template that is used when none is named. -/
def builtIn : Template := ⟨builtInText, programName⟩

/-- The template of a file. -/
def ofFile (path text : Text) : Template := ⟨text, (Path.fileName? path).getD path⟩

/-- The token that stands for what generated the output. -/
def generatorToken : Text := "[[GEN]]".toList

/-- The placeholders of a template under some settings. -/
def placeholders (t : Template) (settings : Settings) : PlaceholderMap :=
  (PlaceholderMap.empty.insert generatorToken t.name).extend settings.placeholders.entries

end Template
end Citemark
