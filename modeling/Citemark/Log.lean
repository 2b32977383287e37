import Citemark.Text

/-!
# The log

What a run has to say beside its result goes to the log, one entry after the other. On a terminal,
characters that would steer it are spelled out.

Main definition:
* `LogEntry.line`: how an entry is printed.
-/

namespace Citemark

/-- How important an entry is. -/
inductive Level where
  | info
  | warning
  | error
deriving DecidableEq, Repr

/-- The level as it is printed. -/
def Level.text : Level → Text
  | .info => "INFO".toList
  | .warning => "WARN".toList
  | .error => "ERROR".toList

/-- One entry of the log. -/
structure LogEntry where
  level : Level
  message : Text
deriving DecidableEq, Repr

namespace LogEntry

/-- Whether a terminal takes a character as a command: bell, backspace, form feed, escape, delete,
    and the second block of control characters. Line feeds and tabs stay. -/
def isTerminalControl (c : Char) : Bool :=
  c ∈ ['\x07', '\x08', '\x0c', '\x1b', '\x7f'] || ('\u0080' ≤ c && c ≤ '\u009f')

/-- A character as it is printed. -/
def spell (c : Char) : Text :=
  if isTerminalControl c then
    let digits := Nat.toDigits 16 c.toNat
    if c ≤ '\x7f' then ['\\', 'x'] ++ (List.replicate (2 - digits.length) '0' ++ digits)
    else ['\\', 'u', '\x7b'] ++ digits ++ ['\x7d']
  else [c]

/-- The line of an entry. -/
def line (e : LogEntry) : Text := e.level.text ++ [' '] ++ e.message.flatMap spell ++ ['\n']

end LogEntry
end Citemark
