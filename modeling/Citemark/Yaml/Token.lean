import Citemark.Yaml.Scalar

/-!
# Tokens of YAML

A source is read into tokens: indicators, scalars, and the starts and ends of the blocks that
indentation makes. A mapping key needs no indicator in front of it: when a `:` shows that what
stood before was a key, the key token, and if need be the start of a block mapping, is put in front
of it afterwards. Such a key has to be on one line and within 1024 bytes.

Main definition:
* `Lexer.unroll`: the blocks that indentation closes.
-/

namespace Citemark.Yaml

/-- A token; the end of the source is the end of the tokens. -/
inductive Token where
  | versionDirective (major minor : Nat)
  | tagDirective (handle expansion : Text)
  | documentStart
  | documentEnd
  | blockSequenceStart
  | blockMappingStart
  | blockEnd
  | flowSequenceStart
  | flowSequenceEnd
  | flowMappingStart
  | flowMappingEnd
  | blockEntry
  | flowEntry
  | key
  | value
  | alias (name : Text)
  | anchor (name : Text)
  | tag (handle suffix : Text)
  | scalar (style : ScalarStyle) (value : Text)
deriving DecidableEq, Repr

/-- A place where a mapping key may have started. -/
structure PossibleKey where
  /-- Whether nothing but a key may stand there. -/
  required : Bool
  /-- Number of tokens in front of it. -/
  position : Nat
  start : Cursor

/-- The reader of tokens. -/
structure Lexer where
  cursor : Cursor
  tokens : Array Token := #[]
  /-- Columns of the open blocks, the innermost first. -/
  indents : List Nat := []
  /-- Whether a key may start here. -/
  keyAllowed : Bool := true
  /-- The possible key of the block context. -/
  key : Option PossibleKey := none
  /-- The possible keys outside of the innermost flow collection, the innermost first; there are
      as many as there are open flow collections. -/
  outer : List (Option PossibleKey) := []

namespace Lexer

def inFlow (lx : Lexer) : Bool := !lx.outer.isEmpty

def rest (lx : Lexer) : Text := lx.cursor.rest

def emit (lx : Lexer) (t : Token) : Lexer := { lx with tokens := lx.tokens.push t }

/-- Goes to where `rest` is left to read. -/
def moveTo (lx : Lexer) (rest : Text) : Lexer := { lx with cursor := lx.cursor.moveTo rest }

def allowKey (lx : Lexer) (allowed : Bool) : Lexer := { lx with keyAllowed := allowed }

/-! ## Possible keys -/

/-- Gives up the possible key of the current context; a required one may not be given up. -/
def dropKey? (lx : Lexer) : Option Lexer :=
  match lx.key with
  | some k => if k.required then none else some { lx with key := none }
  | none => some lx

/-- Notes that a key may start here. -/
def markKey? (lx : Lexer) : Option Lexer := do
  if !lx.keyAllowed then return lx
  let lx ← lx.dropKey?
  let required := !lx.inFlow && lx.indents.head? = some lx.cursor.column
  return { lx with key := some ⟨required, lx.tokens.size, lx.cursor⟩ }

/-- Whether a key that started at `k` can no longer end at `p`. -/
def isStale (p : Cursor) (k : PossibleKey) : Bool :=
  k.start.line < p.line || k.start.index + 1024 < p.index

/-- Gives up a possible key once it is too late for its `:`. -/
def refresh? (p : Cursor) : Option PossibleKey → Option (Option PossibleKey)
  | some k => if isStale p k then (if k.required then none else some none) else some (some k)
  | none => some none

/-- Gives up all possible keys for which it is too late. -/
def refreshKeys? (lx : Lexer) : Option Lexer := do
  let key ← refresh? lx.cursor lx.key
  let outer ← lx.outer.mapM (refresh? lx.cursor)
  return { lx with key, outer }

/-! ## Indentation -/

/-- Opens a block at a column, if it is deeper than the blocks around, with its start token after
    `position` tokens. -/
def roll (lx : Lexer) (column position : Nat) (start : Token) : Lexer :=
  if lx.inFlow || !lx.indents.head?.all (· < column) then lx
  else
    { lx with
      indents := column :: lx.indents
      tokens := lx.tokens.insertIdxIfInBounds position start }

/-- The ends of the blocks that are deeper than a column, and the blocks that stay open. -/
def closedAbove (deeper : Nat → Bool) : List Nat → List Token × List Nat
  | [] => ([], [])
  | indent :: indents =>
    if deeper indent then
      let (ends, left) := closedAbove deeper indents
      (.blockEnd :: ends, left)
    else ([], indent :: indents)

/-- Closes the blocks that `deeper` holds for. In flow context indentation does not count. -/
def unroll (lx : Lexer) (deeper : Nat → Bool) : Lexer :=
  if lx.inFlow then lx
  else
    let (ends, indents) := closedAbove deeper lx.indents
    { lx with indents, tokens := lx.tokens ++ ends.toArray }

/-! ## Between tokens -/

/-- The part of a line that is being passed over. -/
inductive GapPart where
  | lineStart
  | blanks
  | comment
deriving DecidableEq, Repr

/-- Passes over blanks, comments and line ends, and tells whether a key may follow. A new line of
    block context may start with a key, and a tab may not stand for its indentation. A byte order
    mark may start any line; it takes a column. -/
def skipGap (inFlow keyAllowed : Bool) (part : GapPart) : Text → Text × Bool
  | [] => ([], keyAllowed)
  | c :: rest =>
    if isBreak c then skipGap inFlow (keyAllowed || !inFlow) .lineStart rest
    else if part = .comment then skipGap inFlow keyAllowed .comment rest
    else if part = .lineStart && c = '\ufeff' then skipGap inFlow keyAllowed .blanks rest
    else if c = ' ' || (c = '\t' && (inFlow || !keyAllowed)) then
      skipGap inFlow keyAllowed .blanks rest
    else if c = '#' then skipGap inFlow keyAllowed .comment rest
    else (c :: rest, keyAllowed)

/-- Goes to the next token. -/
def toNextToken (lx : Lexer) : Lexer :=
  let part := if lx.cursor.column = 0 then .lineStart else .blanks
  let (rest, allowed) := skipGap lx.inFlow lx.keyAllowed part lx.rest
  (lx.moveTo rest).allowKey allowed

/-! ## Directives, tags and anchors -/

/-- Reads a number of at most nine digits. -/
def number? (t : Text) : Option (Nat × Text) :=
  let digits := t.takeWhile Char.isDigit
  if digits.isEmpty || digits.length > 9 then none
  else some (Nat.ofDigitChars 10 digits 0, t.dropWhile Char.isDigit)

/-- Reads a tag handle: `!`, or `!` and a name, or `!name!`. -/
def handle? (t : Text) : Option (Text × Text) := do
  let rest ← Text.after? ['!'] t
  let name := rest.takeWhile isNameChar
  match rest.dropWhile isNameChar with
  | '!' :: rest => return ('!' :: name ++ ['!'], rest)
  | rest => return ('!' :: name, rest)

/-- The characters of a tag; inside `<>` some flow indicators as well. -/
def isTagChar (verbatim : Bool) (c : Char) : Bool :=
  isNameChar c || c ∈ ";/?:@&=+$.%!~*'()".toList || (verbatim && c ∈ [',', '[', ']'])

/-- Number of bytes of a character by its first byte. -/
def sequenceLength? (lead : Nat) : Option Nat :=
  if lead < 0x80 then some 1
  else if lead < 0xc0 then none
  else if lead < 0xe0 then some 2
  else if lead < 0xf0 then some 3
  else if lead < 0xf8 then some 4
  else none

/-- Reads one byte that is escaped as `%` and two digits. -/
def escapedByte? : Text → Option (Nat × Text)
  | '%' :: a :: b :: rest => do return (16 * (← hexDigit? a) + (← hexDigit? b), rest)
  | _ => none

/-- Reads the escaped bytes that continue a character. -/
def escapedTail? : (count code : Nat) → Text → Option (Nat × Text)
  | 0, code, t => some (code, t)
  | count + 1, code, t => do
    let (byte, rest) ← escapedByte? t
    if byte / 0x40 = 2 then escapedTail? count (code * 0x40 + byte % 0x40) rest else none

/-- Reads one character that is escaped byte by byte. Bytes that are no character, or a longer form
    of one of ASCII, are read as a character that no known tag has. -/
def escapedChar? (t : Text) : Option (Char × Text) := do
  let (lead, rest) ← escapedByte? t
  let count ← sequenceLength? lead
  if count = 1 then return (Char.ofNat lead, rest)
  let (code, rest) ← escapedTail? (count - 1) (lead % (1 <<< (7 - count))) rest
  return (if code < 0x80 || !code.isValidChar then '\ufffd' else Char.ofNat code, rest)

/-- Reads the characters of a tag, at most `fuel` of them. -/
def tagText? (verbatim : Bool) : (fuel : Nat) → Text → Option (Text × Text)
  | fuel + 1, c :: rest =>
    if c = '%' then do
      let (d, rest) ← escapedChar? (c :: rest)
      let (more, rest) ← tagText? verbatim fuel rest
      return (d :: more, rest)
    else if isTagChar verbatim c then do
      let (more, rest) ← tagText? verbatim fuel rest
      return (c :: more, rest)
    else some ([], c :: rest)
  | _, t => some ([], t)

/-- Reads the characters of a tag behind `head`, of which the first is left out. There has to be
    something to read. An escaped NUL ends the tag, and what is read behind it does not count. -/
def tagSuffix? (verbatim : Bool) (head t : Text) : Option (Text × Text) := do
  let (suffix, rest) ← tagText? verbatim t.length t
  if head.isEmpty && suffix.isEmpty then none
  else some (head.tail ++ suffix.takeWhile (· ≠ '\x00'), rest)

/-- Reads a tag: `!<suffix>`, `!handle!suffix`, `!suffix`, or `!` alone, whose handle is empty. -/
def tag? (inFlow : Bool) (t : Text) : Option (Token × Text) := do
  let (token, rest) ← (show Option (Token × Text) from do
    if let some verbatim := Text.after? ['!', '<'] t then
      let (suffix, rest) ← tagSuffix? true [] verbatim
      return (.tag [] suffix, ← Text.after? ['>'] rest)
    let (handle, rest) ← handle? t
    if handle.length > 1 && handle.getLast? = some '!' then
      let (suffix, rest) ← tagSuffix? false [] rest
      return (.tag handle suffix, rest)
    let (suffix, rest) ← tagSuffix? false handle rest
    return (if suffix.isEmpty then .tag [] ['!'] else .tag ['!'] suffix, rest))
  if endsWord rest || (inFlow && rest.head? = some ',') then some (token, rest) else none

/-- Reads the name of an anchor or alias behind its indicator. -/
def anchorName? (t : Text) : Option (Text × Text) :=
  let name := t.takeWhile isNameChar
  let rest := t.dropWhile isNameChar
  if !name.isEmpty && (endsWord rest || rest.head?.any (· ∈ "?:,]\x7d%@\x60".toList)) then
    some (name, rest)
  else none

/-- Reads an anchor or alias. -/
def anchor? (token : Text → Token) (t : Text) : Option (Token × Text) :=
  (anchorName? t.tail).map fun (name, rest) => (token name, rest)

/-- Reads the value of a version directive. -/
def version? (t : Text) : Option (Token × Text) := do
  let (major, rest) ← number? (t.dropWhile isBlank)
  let (minor, rest) ← number? (← Text.after? ['.'] rest)
  return (.versionDirective major minor, rest)

/-- Reads the value of a tag directive. -/
def tagDirective? (t : Text) : Option (Token × Text) := do
  let (handle, rest) ← handle? (t.dropWhile isBlank)
  if handle ≠ ['!'] && !(handle.length > 1 && handle.getLast? = some '!') then none
  if !rest.head?.any isBlank then none
  let (expansion, rest) ← tagSuffix? true [] (rest.dropWhile isBlank)
  if !endsWord rest then none
  return (.tagDirective handle expansion, rest)

/-- Reads a directive and the end of its line. -/
def directive? (t : Text) : Option (Token × Text) := do
  let name := t.takeWhile isNameChar
  let rest := t.dropWhile isNameChar
  if !endsWord rest then none
  let (token, rest) ←
    if name = "YAML".toList then version? rest
    else if name = "TAG".toList then tagDirective? rest
    else none
  return (token, ← skipLineEnd? rest)

/-! ## Reading tokens -/

/-- The token of one character. -/
def single (lx : Lexer) (t : Token) : Lexer := (lx.moveTo lx.rest.tail).emit t

/-- Ends all blocks, for a token that stands outside of documents. -/
def leaveDocument? (lx : Lexer) : Option Lexer := do
  let lx ← (lx.unroll fun _ => true).dropKey?
  return lx.allowKey false

def readDocumentLine? (lx : Lexer) (t : Token) : Option Lexer := do
  let lx ← lx.leaveDocument?
  return (lx.moveTo (lx.rest.drop 3)).emit t

def readDirective? (lx : Lexer) : Option Lexer := do
  let lx ← lx.leaveDocument?
  let (token, rest) ← directive? lx.rest.tail
  return (lx.moveTo rest).emit token

/-- Opens a flow collection, which may itself be a key and may start with one. -/
def openFlow? (lx : Lexer) (t : Token) : Option Lexer := do
  let lx ← lx.markKey?
  return { lx.single t with key := none, outer := lx.key :: lx.outer, keyAllowed := true }

/-- Closes a flow collection. -/
def closeFlow? (lx : Lexer) (t : Token) : Option Lexer := do
  let lx ← lx.dropKey?
  let lx := match lx.outer with
    | key :: outer => { lx with key, outer }
    | [] => lx
  return (lx.single t).allowKey false

def readFlowEntry? (lx : Lexer) : Option Lexer := do
  return ((← lx.dropKey?).single .flowEntry).allowKey true

/-- Opens a block at the cursor in front of an indicator, which has to stand where a key may. -/
def openBlock? (lx : Lexer) (start : Token) : Option Lexer :=
  if lx.inFlow then some lx
  else if lx.keyAllowed then some (lx.roll lx.cursor.column lx.tokens.size start)
  else none

def readBlockEntry? (lx : Lexer) : Option Lexer := do
  let lx ← (← lx.openBlock? .blockSequenceStart).dropKey?
  return (lx.single .blockEntry).allowKey true

def readKey? (lx : Lexer) : Option Lexer := do
  let lx ← (← lx.openBlock? .blockMappingStart).dropKey?
  return (lx.single .key).allowKey (!lx.inFlow)

/-- Reads the `:` in front of a value. If a key may have started before, it has. -/
def readValue? (lx : Lexer) : Option Lexer := do
  match lx.key with
  | some k =>
    let lx := { lx with key := none, tokens := lx.tokens.insertIdxIfInBounds k.position .key }
    let lx := lx.roll k.start.column k.position .blockMappingStart
    return (lx.single .value).allowKey false
  | none =>
    let lx ← lx.openBlock? .blockMappingStart
    return (lx.single .value).allowKey (!lx.inFlow)

/-- Reads a token of several characters that may be a key, or belong to one. -/
def readKeyable? (lx : Lexer) (read : Text → Option (Token × Text)) : Option Lexer := do
  let lx ← lx.markKey?
  let (token, rest) ← read lx.rest
  return ((lx.moveTo rest).emit token).allowKey false

def readBlockScalar? (lx : Lexer) (style : ScalarStyle) : Option Lexer := do
  let lx ← lx.dropKey?
  let l ← block? (style = .folded) lx.indents.head? lx.rest.tail
  return ((lx.moveTo l.rest).emit (.scalar style l.value)).allowKey true

def readQuoted? (lx : Lexer) (quote : Char) : Option Lexer :=
  lx.readKeyable? fun t => do
    let l ← quoted? quote 0 (lx.cursor.column + 1) .none t.tail
    return (.scalar .quoted l.value, l.rest)

def readPlain? (lx : Lexer) : Option Lexer := do
  let lx ← lx.markKey?
  let least := lx.indents.head?.elim 0 (· + 1)
  let l ← plain? lx.inFlow least lx.cursor.column .none lx.rest
  return ((lx.moveTo l.rest).emit (.scalar .plain l.value)).allowKey l.broken

/-- Whether a plain scalar may start with these characters. -/
def startsPlain (inFlow : Bool) : Text → Bool
  | [] => false
  | c :: rest =>
    if c = '-' then !rest.head?.any isBlank
    else if c = '?' || c = ':' then !inFlow && !endsWord rest
    else !isBlank c && !isBreak c && c ∉ ",[]\x7b\x7d#&*!|>'\"%@\x60".toList

/-- Reads the token at the cursor. -/
def readToken? (lx : Lexer) : Option Lexer :=
  match lx.rest with
  | [] => none
  | c :: after =>
    let atStart := lx.cursor.column = 0
    if atStart && c = '%' then lx.readDirective?
    else if atStart && isDocumentLine lx.rest then
      lx.readDocumentLine? (if c = '-' then .documentStart else .documentEnd)
    else if c = '[' then lx.openFlow? .flowSequenceStart
    else if c = '\x7b' then lx.openFlow? .flowMappingStart
    else if c = ']' then lx.closeFlow? .flowSequenceEnd
    else if c = '\x7d' then lx.closeFlow? .flowMappingEnd
    else if c = ',' then lx.readFlowEntry?
    else if c = '-' && endsWord after then lx.readBlockEntry?
    else if c = '?' && (lx.inFlow || endsWord after) then lx.readKey?
    else if c = ':' && (lx.inFlow || endsWord after) then lx.readValue?
    else if c = '*' then lx.readKeyable? (anchor? .alias)
    else if c = '&' then lx.readKeyable? (anchor? .anchor)
    else if c = '!' then lx.readKeyable? (tag? lx.inFlow)
    else if c = '|' && !lx.inFlow then lx.readBlockScalar? .literal
    else if c = '>' && !lx.inFlow then lx.readBlockScalar? .folded
    else if c = '\'' || c = '"' then lx.readQuoted? c
    else if startsPlain lx.inFlow lx.rest then lx.readPlain?
    else none

/-- Reads all tokens, at most `fuel` of them that take characters. -/
def readAll? : (fuel : Nat) → Lexer → Option Lexer
  | 0, _ => none
  | fuel + 1, lx => do
    let lx ← lx.toNextToken.refreshKeys?
    let lx := lx.unroll (lx.cursor.column < ·)
    if lx.rest.isEmpty then lx.leaveDocument?
    else readAll? fuel (← lx.readToken?)

end Lexer

/-- The tokens of a source, if all of it can be read. -/
def Token.ofSource? (source : Text) : Option (List Token) := do
  if !source.all isAllowed then none
  let lx ← Lexer.readAll? (source.length + 1) { cursor := { rest := source } }
  return lx.tokens.toList

end Citemark.Yaml
