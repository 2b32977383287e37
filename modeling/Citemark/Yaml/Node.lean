import Citemark.Yaml.Token

/-!
# Nodes of YAML

A document is a tree of scalars, sequences and mappings. A node may carry an anchor, and an alias
stands for the node with that anchor. Anchors are numbered: a new anchor gets the number of names
that are in use before it, and a name that is given again means its new number from then on. A
number stands for the node that got it last.

Main definitions:
* `Node`, `Document`: what a source describes.
* `documents?`: the documents of a source, if all of it is well formed.
-/

namespace Citemark.Yaml

/-- A scalar with its style and its tag, if it has one. -/
structure Scalar where
  style : ScalarStyle
  tag : Option Text := none
  value : Text
deriving DecidableEq, Repr

/-- The scalar that stands where nothing is written. -/
def Scalar.empty : Scalar := { style := .plain, value := [] }

/-- A node of a document. -/
inductive Node where
  | scalar (s : Scalar)
  | sequence (items : List Node)
  | mapping (entries : List (Node × Node))
  /-- Stands for the node with an anchor of this number. -/
  | alias (number : Nat)

/-- A node with its anchor. -/
structure Anchored where
  number : Nat
  /-- How many anchors come before it in the document. -/
  rank : Nat
  node : Node

/-- A document and its anchored nodes. -/
structure Document where
  root : Node
  anchored : List Anchored

/-- The node that an alias stands for. -/
def Document.target? (d : Document) (number : Nat) : Option Node :=
  let latest := d.anchored.foldl (fun found a =>
    if a.number = number && found.all (·.rank < a.rank) then some a else found) none
  latest.map Anchored.node

/-- A node, seen through an alias. -/
def Document.follow? (d : Document) : Node → Option Node
  | .alias number => d.target? number
  | node => some node

namespace Document

/-! ## Reading nodes from tokens -/

/-- The state of reading one document. -/
structure State where
  tokens : List Token
  /-- Tag handles with what they stand for. -/
  handles : List (Text × Text) := []
  /-- Anchor names with their numbers. -/
  names : List (Text × Nat) := []
  /-- Number of anchors so far. -/
  rank : Nat := 0
  anchored : List Anchored := []

/-- Reading takes tokens from the front; a source that is not well formed gives nothing. -/
abbrev Reader := StateT State Option

namespace Reader

/-- The next token, which is left to read. -/
def peek : Reader (Option Token) := do return (← get).tokens.head?

/-- Passes over the next token. -/
def skip : Reader Unit := modify fun s => { s with tokens := s.tokens.tail }

/-- Passes over the next token if it is `t`. -/
def accept (t : Token) : Reader Bool := do
  if (← peek) = some t then
    skip
    return true
  else return false

/-- Whether the next token is one of these; the end of the source is not. -/
def isNext (ts : List Token) : Reader Bool := do return (← peek).any (· ∈ ts)

/-- Reads an anchor, if there is one. -/
def anchorName? : Reader (Option Text) := do
  match ← peek with
  | some (.anchor name) => skip; return some name
  | _ => return none

/-- Reads a tag, if there is one, and looks up its handle. -/
def tag? : Reader (Option Text) := do
  match ← peek with
  | some (.tag handle suffix) =>
    skip
    if handle.isEmpty then return some suffix
    let expansion ← (← get).handles.lookup handle
    return some (expansion ++ suffix)
  | _ => return none

/-- Reads anchor and tag of a node, in either order. -/
def properties : Reader (Option Text × Option Text) := do
  match ← anchorName? with
  | some name => return (some name, ← tag?)
  | none =>
    let tag ← tag?
    return (← anchorName?, tag)

/-- Gives an anchor its number and its rank. -/
def number (name : Text) : Reader (Nat × Nat) := do
  let s ← get
  let number := s.names.length
  let others := s.names.filter (·.1 ≠ name)
  set { s with names := (name, number) :: others, rank := s.rank + 1 }
  return (number, s.rank)

/-- Notes the node of an anchor. -/
def note (anchor : Option (Nat × Nat)) (node : Node) : Reader Node := do
  if let some (number, rank) := anchor then
    modify fun s => { s with anchored := ⟨number, rank, node⟩ :: s.anchored }
  return node

mutual

/-- Reads a node. Block collections may stand only in block context, and a sequence without
    indentation of its own only as a value of a mapping. -/
def node (inBlock indentless : Bool) : (fuel : Nat) → Reader Node
  | 0 => failure
  | fuel + 1 => do
    if let some (.alias name) ← peek then
      skip
      return .alias (← (← get).names.lookup name)
    let (name, tag) ← properties
    let anchor ← name.mapM number
    note anchor (← content inBlock indentless (name.isSome || tag.isSome) tag fuel)

/-- Reads a node behind its anchor and tag. -/
def content (inBlock indentless mayBeEmpty : Bool) (tag : Option Text) :
    (fuel : Nat) → Reader Node
  | 0 => failure
  | fuel + 1 => do
    match ← peek with
    | some (.scalar style value) =>
      skip
      return .scalar { style, tag, value }
    | some .flowSequenceStart =>
      skip
      return .sequence (← flowItems true fuel)
    | some .flowMappingStart =>
      skip
      return .mapping (← flowEntries true fuel)
    | some .blockSequenceStart =>
      if !inBlock then failure
      skip
      return .sequence (← blockItems fuel)
    | some .blockMappingStart =>
      if !inBlock then failure
      skip
      return .mapping (← blockEntries fuel)
    | some .blockEntry =>
      if indentless then return .sequence (← indentlessItems fuel)
      else if mayBeEmpty then return .scalar { Scalar.empty with tag }
      else failure
    | _ => if mayBeEmpty then return .scalar { Scalar.empty with tag } else failure

/-- Reads a node, or nothing if one of the given tokens follows. -/
def nodeUnless (ends : List Token) (inBlock indentless : Bool) : (fuel : Nat) → Reader Node
  | 0 => failure
  | fuel + 1 => do
    if ← isNext ends then return .scalar .empty
    else node inBlock indentless fuel

/-- Reads the items of an indented block sequence. -/
def blockItems : (fuel : Nat) → Reader (List Node)
  | 0 => failure
  | fuel + 1 => do
    if ← accept .blockEntry then
      let item ← nodeUnless [.blockEntry, .blockEnd] true false fuel
      return item :: (← blockItems fuel)
    else if ← accept .blockEnd then return []
    else failure

/-- Reads the items of a sequence that is indented like the mapping around it. -/
def indentlessItems : (fuel : Nat) → Reader (List Node)
  | 0 => failure
  | fuel + 1 => do
    if ← accept .blockEntry then
      let item ← nodeUnless [.blockEntry, .key, .value, .blockEnd] true false fuel
      return item :: (← indentlessItems fuel)
    else return []

/-- Reads the entries of a block mapping. -/
def blockEntries : (fuel : Nat) → Reader (List (Node × Node))
  | 0 => failure
  | fuel + 1 => do
    if ← accept .key then
      let key ← nodeUnless [.key, .value, .blockEnd] true true fuel
      let value ←
        if ← accept .value then nodeUnless [.key, .value, .blockEnd] true true fuel
        else pure (.scalar .empty)
      return (key, value) :: (← blockEntries fuel)
    else if ← accept .blockEnd then return []
    else failure

/-- Reads the items of a flow sequence. An item may be a mapping of one entry. -/
def flowItems (first : Bool) : (fuel : Nat) → Reader (List Node)
  | 0 => failure
  | fuel + 1 => do
    if ← accept .flowSequenceEnd then return []
    if !first then
      if !(← accept .flowEntry) then failure
      if ← accept .flowSequenceEnd then return []
    let item ←
      if ← accept .key then
        let key ← nodeUnless [.value, .flowEntry, .flowSequenceEnd] false false fuel
        let value ←
          if ← accept .value then nodeUnless [.flowEntry, .flowSequenceEnd] false false fuel
          else pure (.scalar .empty)
        pure (.mapping [(key, value)])
      else node false false fuel
    return item :: (← flowItems false fuel)

/-- Reads the entries of a flow mapping. A lone node is a key without value. -/
def flowEntries (first : Bool) : (fuel : Nat) → Reader (List (Node × Node))
  | 0 => failure
  | fuel + 1 => do
    if ← accept .flowMappingEnd then return []
    if !first then
      if !(← accept .flowEntry) then failure
      if ← accept .flowMappingEnd then return []
    let entry ←
      if ← accept .key then
        let key ← nodeUnless [.value, .flowEntry, .flowMappingEnd] false false fuel
        let value ←
          if ← accept .value then nodeUnless [.flowEntry, .flowMappingEnd] false false fuel
          else pure (.scalar .empty)
        pure (key, value)
      else
        let key ← node false false fuel
        pure (key, .scalar .empty)
    return entry :: (← flowEntries false fuel)

end

end Reader

/-! ## Reading documents -/

/-- The handles that need no directive. -/
def defaultHandles : List (Text × Text) :=
  [("!".toList, "!".toList), ("!!".toList, "tag:yaml.org,2002:".toList)]

/-- Reads the directives of a document, and gives the handles and the remaining tokens. A version
    may be given once and each handle once. -/
def directives? (versioned : Bool) (handles : List (Text × Text)) :
    List Token → Option (List (Text × Text) × List Token)
  | .versionDirective major minor :: tokens =>
    if versioned || major ≠ 1 || (minor ≠ 1 && minor ≠ 2) then none
    else directives? true handles tokens
  | .tagDirective handle expansion :: tokens =>
    if (handles.lookup handle).isSome then none
    else directives? versioned ((handle, expansion) :: handles) tokens
  | tokens => some (handles ++ defaultHandles, tokens)

/-- Reads the content of a document that starts with these tokens. Behind a start line it may be
    empty. -/
def content? (explicit : Bool) (handles : List (Text × Text)) (tokens : List Token) :
    Option (Document × List Token) := do
  let isEmpty := match tokens with
    | [] | .documentStart :: _ | .documentEnd :: _ => true
    | .versionDirective .. :: _ | .tagDirective .. :: _ => true
    | _ => false
  if explicit && isEmpty then return (⟨.scalar .empty, []⟩, tokens)
  let (root, s) ← (Reader.node true false (8 * tokens.length + 8)).run { tokens, handles }
  return (⟨root, s.anchored⟩, s.tokens)

/-- Passes over end lines. -/
def skipEnds : List Token → List Token
  | .documentEnd :: tokens => skipEnds tokens
  | tokens => tokens

/-- Reads a document that starts with directives or a start line. -/
def explicit? (tokens : List Token) : Option (Document × List Token) := do
  let (handles, tokens) ← directives? false [] tokens
  match tokens with
  | .documentStart :: tokens => content? true handles tokens
  | _ => none

/-- Reads further documents, at most `fuel` of them. Each has a start line of its own. -/
def more? : (fuel : Nat) → List Token → Option (List Document)
  | 0, _ => none
  | fuel + 1, tokens =>
    match skipEnds tokens with
    | [] => some []
    | tokens => do
      let (d, tokens) ← explicit? tokens
      return d :: (← more? fuel tokens)

/-- Reads all documents. Only the first may do without a start line. -/
def ofTokens? (tokens : List Token) : Option (List Document) := do
  let (d, rest) ← match tokens with
    | [] => return []
    | .versionDirective .. :: _ | .tagDirective .. :: _ | .documentStart :: _ => explicit? tokens
    | _ => content? false defaultHandles tokens
  return d :: (← more? (rest.length + 1) rest)

end Document

/-- The documents of a source. -/
def documents? (source : Text) : Option (List Document) := do
  Document.ofTokens? (← Token.ofSource? source)

end Citemark.Yaml
