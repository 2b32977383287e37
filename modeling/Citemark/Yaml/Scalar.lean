import Citemark.Yaml.Character

/-!
# Scalars of YAML

A scalar is written plain, in single or double quotes, or as a block of lines. A plain or quoted
scalar may go over several lines; the gap between two of its words is then folded: a single line
end becomes a space, and of several line ends the first is dropped.

Main definition:
* `Gap.text`: what the gap between two words stands for.
-/

namespace Citemark.Yaml

/-- How a scalar is written. -/
inductive ScalarStyle where
  | plain
  | quoted
  | literal
  | folded
deriving DecidableEq, Repr

/-! ## Gaps between words -/

/-- The blanks and line ends between two words of a scalar. -/
inductive Gap where
  /-- Blanks, and no line end so far. -/
  | blanks (s : Text)
  /-- Line ends; the blanks around them do not count. -/
  | folded (breaks : Text)
  /-- An escape whose line end is still to come. -/
  | escaped
  /-- The line ends after an escaped one. -/
  | joined (breaks : Text)
deriving DecidableEq, Repr

namespace Gap

/-- No gap. -/
def none : Gap := .blanks []

def isNone (g : Gap) : Bool := g = .none

/-- Whether the gap goes over the end of a line. -/
def isBroken : Gap → Bool
  | .blanks _ => false
  | _ => true

def addBlank (c : Char) : Gap → Gap
  | .blanks s => .blanks (s ++ [c])
  | g => g

def addBreak (c : Char) : Gap → Gap
  | .blanks _ => .folded [normalBreak c]
  | .folded breaks => .folded (breaks ++ [normalBreak c])
  | .escaped => .joined []
  | .joined breaks => .joined (breaks ++ [normalBreak c])

/-- What a gap stands for inside the scalar. -/
def text : Gap → Text
  | .blanks s => s
  | .folded ['\n'] => [' ']
  | .folded ('\n' :: more) => more
  | .folded breaks => breaks
  | .escaped => []
  | .joined breaks => breaks

end Gap

/-! ## Plain scalars -/

/-- Indicators of flow collections. -/
def isFlowIndicator (c : Char) : Bool := c ∈ [',', '[', ']', '\x7b', '\x7d']

/-- A scalar that has been read. -/
structure Lexeme where
  value : Text
  /-- What is left to read. -/
  rest : Text
  /-- Whether a line ended between the scalar and the rest. -/
  broken : Bool := false

/-- Puts text in front of the value. -/
def Lexeme.prepend (front : Text) (l : Lexeme) : Lexeme := { l with value := front ++ l.value }

/-- Reads a plain scalar from column `column`, with `gap` since the last word. In block context a
    line that is indented by less than `least` belongs to something else. -/
def plain? (inFlow : Bool) (least column : Nat) (gap : Gap) : Text → Option Lexeme
  | [] => some ⟨[], [], gap.isBroken⟩
  | c :: rest =>
    if c = '\r' && rest.head? = some '\n' then plain? inFlow least column gap rest
    else if isBreak c then plain? inFlow least 0 (gap.addBreak c) rest
    else if isBlank c then
      if c = '\t' && gap.isBroken && column < least then none
      else plain? inFlow least (column + 1) (gap.addBlank c) rest
    else if !gap.isNone && (c = '#' || (!inFlow && column < least) ||
        (column = 0 && isDocumentLine (c :: rest))) then
      some ⟨[], c :: rest, gap.isBroken⟩
    else if inFlow && c = ':' && rest.head?.any fun d => isFlowIndicator d || d = '?' then none
    else if (c = ':' && endsWord rest) || (inFlow && isFlowIndicator c) then
      some ⟨[], c :: rest, gap.isBroken⟩
    else (plain? inFlow least (column + 1) .none rest).map (·.prepend (gap.text ++ [c]))

/-! ## Quoted scalars -/

/-- The value of one hexadecimal digit. -/
def hexDigit? (c : Char) : Option Nat :=
  if c.isDigit then some (c.toNat - '0'.toNat)
  else if 'a' ≤ c && c ≤ 'f' then some (c.toNat - 'a'.toNat + 10)
  else if 'A' ≤ c && c ≤ 'F' then some (c.toNat - 'A'.toNat + 10)
  else none

/-- The value of a row of hexadecimal digits. -/
def hexValue? (digits : Text) : Option Nat :=
  digits.foldlM (fun n c => (hexDigit? c).map (16 * n + ·)) 0

/-- The character that a one-letter escape stands for. -/
def escape? : Char → Option Char
  | '0' => some '\x00'
  | 'a' => some '\x07'
  | 'b' => some '\x08'
  | 't' => some '\t'
  | '\t' => some '\t'
  | 'n' => some '\n'
  | 'v' => some '\x0b'
  | 'f' => some '\x0c'
  | 'r' => some '\r'
  | 'e' => some '\x1b'
  | ' ' => some ' '
  | '"' => some '"'
  | '/' => some '/'
  | '\\' => some '\\'
  | 'N' => some '\u0085'
  | '_' => some '\u00a0'
  | 'L' => some '\u2028'
  | 'P' => some '\u2029'
  | _ => none

/-- How many digits follow the letter of an escape by number. -/
def escapeDigits? : Char → Option Nat
  | 'x' => some 2
  | 'u' => some 4
  | 'U' => some 8
  | _ => none

/-- The character of an escape and the number of characters behind the backslash. A number has to
    be that of a character. -/
def escapeAt? (letter : Char) (rest : Text) : Option (Char × Nat) :=
  match escapeDigits? letter with
  | some count => do
    let digits := rest.take count
    let code ← hexValue? digits
    if digits.length = count && code.isValidChar then some (Char.ofNat code, count + 1)
    else none
  | none => (escape? letter).map fun c => (c, 1)

/-- Reads a quoted scalar behind its opening quote, with `skip` characters to pass over first and
    `gap` since the last word. -/
def quoted? (quote : Char) (skip column : Nat) (gap : Gap) : Text → Option Lexeme
  | [] => none
  | c :: rest =>
    match skip with
    | skip + 1 => quoted? quote skip (column + 1) gap rest
    | 0 =>
      if c = '\r' && rest.head? = some '\n' then quoted? quote 0 column gap rest
      else if isBreak c then quoted? quote 0 0 (gap.addBreak c) rest
      else if isBlank c then quoted? quote 0 (column + 1) (gap.addBlank c) rest
      else if column = 0 && isDocumentLine (c :: rest) then none
      else if c = quote then
        if quote = '\'' && rest.head? = some '\'' then
          (quoted? quote 1 (column + 1) .none rest).map (·.prepend (gap.text ++ [c]))
        else some ⟨gap.text, rest, false⟩
      else if c = '\\' && quote = '"' then
        if rest.head?.any isBreak then
          (quoted? quote 0 (column + 1) .escaped rest).map (·.prepend gap.text)
        else do
          let (e, count) ← escapeAt? (← rest.head?) rest.tail
          let l ← quoted? quote count (column + 1) .none rest
          return l.prepend (gap.text ++ [e])
      else (quoted? quote 0 (column + 1) .none rest).map (·.prepend (gap.text ++ [c]))

/-! ## Block scalars -/

/-- Which line ends at the end of a block belong to it. -/
inductive Chomping where
  | strip
  | clip
  | keep
deriving DecidableEq, Repr

/-- What stands behind the indicator of a block: chomping and indentation, in either order. -/
structure BlockHeader where
  chomping : Chomping := .clip
  /-- Indentation relative to the parent, if it is given. -/
  increment : Option Nat := none
  rest : Text

def chomping? : Char → Option Chomping
  | '+' => some .keep
  | '-' => some .strip
  | _ => none

/-- Reads a chomping indicator, if there is one. -/
def BlockHeader.readChomping (h : BlockHeader) : BlockHeader :=
  match h.rest with
  | c :: rest =>
    match chomping? c with
    | some chomping => { h with chomping, rest }
    | none => h
  | [] => h

/-- Reads an indentation indicator, if there is one. It may not be zero. -/
def BlockHeader.readIncrement? (h : BlockHeader) : Option BlockHeader :=
  match h.rest with
  | c :: rest =>
    if c = '0' then none
    else if c.isDigit then some { h with increment := some (c.toNat - '0'.toNat), rest }
    else some h
  | [] => some h

/-- Reads both indicators. -/
def BlockHeader.ofText? (t : Text) : Option BlockHeader :=
  let first := BlockHeader.readChomping { rest := t }
  if first.rest.length < t.length then first.readIncrement?
  else first.readIncrement?.map fun second =>
    if second.increment.isSome then second.readChomping else second

/-- Passes over one line end. -/
def skipBreak : Text → Text
  | '\r' :: '\n' :: rest => rest
  | c :: rest => if isBreak c then rest else c :: rest
  | [] => []

/-- Passes over blanks, a comment and the line end. Nothing else may stand there. -/
def skipLineEnd? (t : Text) : Option Text :=
  match t.dropWhile isBlank with
  | [] => some []
  | '#' :: rest => some (skipBreak (rest.dropWhile (!isBreak ·)))
  | c :: rest => if isBreak c then some (skipBreak (c :: rest)) else none

/-- The empty lines in front of a line of a block, and the indentation of that line. -/
structure BlockGap where
  breaks : Text
  /-- Column of the first character that is left. -/
  column : Nat
  /-- The widest indentation, that of empty lines included. -/
  widest : Nat
  rest : Text

/-- Passes over empty lines and indentation of at most `limit` columns. A tab may not stand for
    indentation. -/
def blockGap? (limit : Option Nat) (column widest : Nat) : Text → Option BlockGap
  | [] => some ⟨[], column, widest, []⟩
  | c :: rest =>
    let below := limit.all (column < ·)
    if c = ' ' && below then blockGap? limit (column + 1) (max widest (column + 1)) rest
    else if c = '\t' && below then none
    else if c = '\r' && rest.head? = some '\n' then blockGap? limit column widest rest
    else if isBreak c then
      (blockGap? limit 0 widest rest).map fun g => { g with breaks := normalBreak c :: g.breaks }
    else some ⟨[], column, widest, c :: rest⟩

/-- The line end at the start of a text. -/
def lineEnd : Text → Text
  | [] => []
  | c :: _ => if isBreak c then [normalBreak c] else []

/-- Whether a text starts with a blank. -/
def startsBlank (t : Text) : Bool := t.head?.any isBlank

/-- A block scalar while it is read. -/
structure Block where
  value : Text := []
  /-- The end of the last line. -/
  leading : Text := []
  /-- Whether the last line started with a blank, which keeps its end from being folded. -/
  leadingBlank : Bool := false
  gap : BlockGap

/-- What joins the last line to the next one: in a folded block a single line end between two
    lines of text is a space. -/
def Block.joint (folds : Bool) (b : Block) : Text :=
  if folds && b.leading = ['\n'] && !b.leadingBlank && !startsBlank b.gap.rest then
    if b.gap.breaks.isEmpty then [' '] else []
  else b.leading

/-- Reads the lines of a block that are indented by `indent`, at most `fuel` of them. -/
def blockLines? (folds : Bool) (indent : Nat) : (fuel : Nat) → Block → Option Block
  | 0, b => some b
  | fuel + 1, b =>
    if b.gap.column = indent && !b.gap.rest.isEmpty then do
      let line := b.gap.rest.takeWhile (!isBreak ·)
      let tail := b.gap.rest.dropWhile (!isBreak ·)
      let gap ← blockGap? (some indent) 0 0 (skipBreak tail)
      blockLines? folds indent fuel
        { value := b.value ++ b.joint folds ++ b.gap.breaks ++ line
          leading := lineEnd tail
          leadingBlank := startsBlank b.gap.rest
          gap }
    else some b

/-- Reads a block scalar behind its indicator. The parent, if there is one, is indented by
    `parent`. -/
def block? (folds : Bool) (parent : Option Nat) (t : Text) : Option Lexeme := do
  let header ← BlockHeader.ofText? t
  let body ← skipLineEnd? header.rest
  let given := header.increment.map (parent.getD 0 + ·)
  let gap ← blockGap? given 0 0 body
  let indent := given.getD (max gap.widest (max (parent.elim 0 (· + 1)) 1))
  let b ← blockLines? folds indent body.length { gap }
  let tail := match header.chomping with
    | .strip => []
    | .clip => b.leading
    | .keep => b.leading ++ b.gap.breaks
  return ⟨b.value ++ tail, b.gap.rest, true⟩

end Citemark.Yaml
