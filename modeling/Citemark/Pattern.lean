import Citemark.Text

/-!
# Patterns

Texts that are searched for together are joined to one pattern of alternatives, and a pattern has to
be compiled before it can be searched for. That fails for a pattern that is too large. What a
compiler takes is up to the compiler, so it is a parameter of all that searches.

Main definition:
* `PatternCompiler.standard`: the compiler of a run.
-/

namespace Citemark

/-- A compiler of patterns, known by the patterns that it does not compile: for each list of
    alternatives the reason, if there is one. -/
structure PatternCompiler where
  refusal? : (alternatives : List Text) → Option Text

namespace PatternCompiler

/-- The size in bytes that a compiled pattern may have. -/
def sizeLimit : Nat := 10 * 1024 * 1024

/-- The size in bytes of one state of a compiled pattern. -/
def stateSize : Nat := 32

/-- The number of alternatives from which on a table takes the place of a compiled pattern. -/
def tableThreshold : Nat := 3000

/-- Why a pattern above the size is not compiled. -/
def tooLarge : Text :=
  "Compiled regex exceeds size limit of ".toList ++ Text.ofNat sizeLimit ++ " bytes.".toList

/-- Compiles up to a size. A pattern has about one state for each byte of its alternatives. This
    leaves out the few states around them, and what alternatives with a common beginning share, so
    it is an estimate where the size is close to the limit. -/
def standard : PatternCompiler where
  refusal? alternatives :=
    if alternatives.length < tableThreshold ∧
        sizeLimit < stateSize * Text.byteSize alternatives.flatten then some tooLarge
    else none

end PatternCompiler
end Citemark
