import Citemark.Text

/-!
# Characters of YAML

The classes of characters that YAML tells apart, and a position in a source. Line breaks are the
line feed, the carriage return, both together, and the three breaks of Unicode.

Main definition:
* `Cursor`: a position, which moves over one character at a time.
-/

namespace Citemark.Yaml

/-- Space and tab. -/
def isBlank (c : Char) : Bool := c = ' ' || c = '\t'

/-- Characters that end a line. -/
def isBreak (c : Char) : Bool :=
  c = '\n' || c = '\r' || c = '\u0085' || c = '\u2028' || c = '\u2029'

/-- The break that a scalar gets for a line end: the Unicode line and paragraph separators stay,
    all others become a line feed. -/
def normalBreak (c : Char) : Char := if c = '\u2028' || c = '\u2029' then c else '\n'

/-- Whether a word is over: a blank, a line end or the end of the source follows. -/
def endsWord : Text → Bool
  | [] => true
  | c :: _ => isBlank c || isBreak c

/-- The characters of names: letters and digits of ASCII, `_` and `-`. -/
def isNameChar (c : Char) : Bool := c.isAlphanum || c = '_' || c = '-'

/-- The characters that a source may hold: tab, line ends, and what can be printed. -/
def isAllowed (c : Char) : Bool :=
  c = '\t' || c = '\n' || c = '\r' || c = '\u0085' || (' ' ≤ c && c ≤ '~') ||
    ('\u00a0' ≤ c && c.val ≤ 0xfffd) || 0x10000 ≤ c.val

/-- White space of Unicode. -/
def isWhiteSpace (c : Char) : Bool :=
  ('\t' ≤ c && c ≤ '\r') || c = ' ' || c = '\u0085' || c = '\u00a0' || c = '\u1680' ||
    ('\u2000' ≤ c && c ≤ '\u200a') || c = '\u2028' || c = '\u2029' || c = '\u202f' ||
    c = '\u205f' || c = '\u3000'

/-- A line that separates documents: three times the same mark, and no more of a word. -/
def isDocumentLine : Text → Bool
  | a :: b :: c :: rest => (a = '-' || a = '.') && a = b && b = c && endsWord rest
  | _ => false

/-! ## Positions -/

/-- A position in a source. Lines and columns are counted from zero, and a column for each
    character. -/
structure Cursor where
  /-- What is left to read. -/
  rest : Text
  /-- Number of bytes that have been read. -/
  index : Nat := 0
  line : Nat := 0
  column : Nat := 0

namespace Cursor

/-- Moves over one character. A carriage return in front of a line feed does not end the line. -/
def next (p : Cursor) : Cursor :=
  match p.rest with
  | [] => p
  | c :: rest =>
    if isBreak c && !(c = '\r' && rest.head? = some '\n') then
      ⟨rest, p.index + c.utf8Size, p.line + 1, 0⟩
    else ⟨rest, p.index + c.utf8Size, p.line, p.column + 1⟩

/-- Moves over a number of characters. -/
def advance : Nat → Cursor → Cursor
  | 0, p => p
  | n + 1, p => advance n p.next

/-- Moves to where `rest` is left to read. -/
def moveTo (p : Cursor) (rest : Text) : Cursor := p.advance (p.rest.length - rest.length)

end Cursor
end Citemark.Yaml
