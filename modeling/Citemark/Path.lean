import Citemark.Text

/-!
# Paths

A path is a text whose parts stand between slashes. Empty parts do not count, and a single dot
counts only as the first part.

Main definition:
* `isStandardOutput`: whether a path means the standard output.
-/

namespace Citemark.Path

/-- The texts between slashes, empty ones left out. -/
def segments (path : Text) : List Text := (path.splitOn '/').filter (!·.isEmpty)

def isAbsolute (path : Text) : Bool := path.head? = some '/'

/-- The parts of a path: its segments without dots, except for a dot that the path starts with. -/
def parts (path : Text) : List Text :=
  match segments path with
  | [] => []
  | first :: more =>
    let more := more.filter (· ≠ ['.'])
    if isAbsolute path && first = ['.'] then more else first :: more

/-- The last part, if it is a name. -/
def fileName? (path : Text) : Option Text := do
  let last ← (parts path).getLast?
  if last = ['.'] || last = ['.', '.'] then none else some last

/-- Whether a path is that of the standard output. -/
def isStandardOutput (path : Text) : Bool := !isAbsolute path && parts path = [['-']]

end Citemark.Path
