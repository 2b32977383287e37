import Citemark.Text

/-!
# Diagnostics

A problem with a citation never stops a run. It is noted with its place in the text, as a warning
or, in strict mode, as an error, and the notes are handed out in document order.

Results:
* `sorted_perm`: handing out the notes neither loses nor adds one.
-/

namespace Citemark

/-- How bad a problem is. -/
inductive Severity where
  | warning
  | error
deriving DecidableEq, Repr

/-- What is wrong with a citation. -/
inductive Code where
  /-- A reference to a name that no definition has. -/
  | unmatchedReference
  /-- A definition that is cited and has no address. -/
  | missingUrl
  /-- A definition of a name that is defined already. -/
  | duplicateDefinition
deriving DecidableEq, Repr

/-- The code as it is printed. -/
def Code.text : Code → Text
  | .unmatchedReference => "unmatched-reference".toList
  | .missingUrl => "missing-url".toList
  | .duplicateDefinition => "duplicate-definition".toList

/-- A problem and its place. -/
structure Diagnostic where
  severity : Severity
  code : Code
  message : Text
  /-- Byte offset of the marker at fault. -/
  offset : Nat
  /-- Line of that marker, from one. -/
  line : Nat
deriving DecidableEq, Repr

/-- The diagnostic on one line: `line 3: message [code]`. -/
def Diagnostic.display (d : Diagnostic) : Text :=
  "line ".toList ++ Text.ofNat d.line ++ ": ".toList ++ d.message ++ " [".toList ++ d.code.text ++
    "]".toList

/-- The diagnostics of one pass over a text, in the order in which they were found. -/
structure Report where
  /-- In strict mode problems are errors. -/
  strict : Bool := false
  found : List Diagnostic := []
deriving DecidableEq, Repr

namespace Report

/-- Switches the mode for what is found from now on. -/
def withStrict (r : Report) (strict : Bool) : Report := { r with strict }

/-- The severity of what is found now. -/
def severity (r : Report) : Severity := if r.strict then .error else .warning

/-- Notes a problem at a byte offset of a text. -/
def warn (r : Report) (code : Code) (message text : Text) (offset : Nat) : Report :=
  { r with found := r.found ++ [⟨r.severity, code, message, offset, text.lineAt offset⟩] }

/-- Whether an error has been noted; warnings do not count. -/
def hasErrors (r : Report) : Bool := r.found.any (·.severity = .error)

/-- The diagnostics by offset; those at one offset stay in the order in which they were found. -/
def sorted (r : Report) : List Diagnostic := r.found.mergeSort fun a b => a.offset ≤ b.offset

theorem sorted_perm (r : Report) : r.sorted.Perm r.found := List.mergeSort_perm _ _

end Report
end Citemark
