import Citemark.Settings
import Citemark.Yaml.Node

/-!
# Reading settings

Settings are written as a YAML mapping with the fields `output`, `strict` and `placeholders`, all
optional, each at most once, and no others. A text field takes the text of any scalar. Only the
plain words for true and false are truth values. A source without content sets nothing.

Main definition:
* `Settings.ofYaml?`: the settings of a source, if it is well formed.
-/

namespace Citemark.Yaml.Document

/-! ## Typed views of nodes -/

/-- The text of a scalar, whatever its style and tag. -/
def text? (d : Document) (n : Node) : Option Text := do
  match ← d.follow? n with
  | .scalar s => return s.value
  | _ => none

/-- Words for the absence of a value. -/
def nullWords : List Text := ["null".toList, "Null".toList, "NULL".toList, "~".toList]

def nullTag : Text := "tag:yaml.org,2002:null".toList

def boolTag : Text := "tag:yaml.org,2002:bool".toList

/-- The text of a scalar, or that it is absent: plain and empty, or a word for that. A tag other
    than that of null makes a text of any word, and the tag of null wants one of the words. -/
def optionalText? (d : Document) (n : Node) : Option (Option Text) := do
  match ← d.follow? n with
  | .scalar s =>
    if s.style ≠ .plain then return some s.value
    else if s.tag = some nullTag then
      if s.value ∈ nullWords then return none else none
    else if s.tag.isSome then return some s.value
    else if s.value.isEmpty || s.value ∈ nullWords then return none
    else return some s.value
  | _ => none

/-- A truth value: a plain word, or a literal block with the tag of truth values. -/
def bool? (d : Document) (n : Node) : Option Bool := do
  match ← d.follow? n with
  | .scalar s =>
    if s.style = .plain || (s.style = .literal && s.tag = some boolTag) then
      if s.value ∈ ["true".toList, "True".toList, "TRUE".toList] then some true
      else if s.value ∈ ["false".toList, "False".toList, "FALSE".toList] then some false
      else none
    else none
  | _ => none

/-- The entries of a mapping. An empty plain scalar is the mapping without entries. -/
def entries? (d : Document) (n : Node) : Option (List (Node × Node)) := do
  match ← d.follow? n with
  | .mapping entries => return entries
  | .scalar s => if s.style = .plain && s.value.isEmpty then return [] else none
  | _ => none

/-- A mapping from texts to texts. -/
def texts? (d : Document) (n : Node) : Option (List (Text × Text)) := do
  (← d.entries? n).mapM fun (key, value) => do return (← d.text? key, ← d.text? value)

end Citemark.Yaml.Document

namespace Citemark.Settings

/-- The fields of a settings file. -/
inductive Field where
  | output
  | strict
  | placeholders
deriving DecidableEq, Repr

/-- The field of a name. -/
def Field.ofName? (name : Text) : Option Field :=
  if name = "output".toList then some .output
  else if name = "strict".toList then some .strict
  else if name = "placeholders".toList then some .placeholders
  else none

/-- Sets one field to what a node holds. -/
def set? (s : Settings) (d : Yaml.Document) (n : Yaml.Node) : Field → Option Settings
  | .output => do return { s with output := ← d.optionalText? n }
  | .strict => do return { s with strict := ← d.bool? n }
  | .placeholders => do return { s with placeholders := .ofList (← d.texts? n) }

/-- Sets the fields of a mapping in order; none may come twice. -/
def setAll? (d : Yaml.Document) (s : Settings) (seen : List Field) :
    List (Yaml.Node × Yaml.Node) → Option Settings
  | [] => some s
  | (key, value) :: entries => do
    let field ← Field.ofName? (← d.text? key)
    if field ∈ seen then none
    else setAll? d (← s.set? d value field) (field :: seen) entries

/-- The settings of a document. -/
def ofDocument? (d : Yaml.Document) : Option Settings := do
  setAll? d {} [] (← d.entries? d.root)

/-- The settings of a YAML source. There may be at most one document. -/
def ofYaml? (source : Text) : Option Settings := do
  if source.all Yaml.isWhiteSpace then return {}
  match ← Yaml.documents? source with
  | [] => return {}
  | [d] => ofDocument? d
  | _ => none

end Citemark.Settings
