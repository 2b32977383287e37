import Citemark.Document
import Citemark.Link

/-!
# Bibliographies

The bibliography of a text holds one citation for each definition marker. Numbering goes by
position alone: the n-th definition has the number n, wherever and whether it is cited. A
definition takes its address from its window, the text from its marker to the next definition or
the end of the text. Where a name is defined more than once, references mean the first definition.

Results:
* `size_add`: adding an entry makes the bibliography one longer.
-/

namespace Citemark

/-- One numbered entry. -/
structure Citation where
  /-- Position among all definitions, from one. -/
  index : Nat
  name : Text
  url : Option Text
  /-- The bytes of the definition marker. -/
  span : Span
deriving DecidableEq, Repr

namespace Citation

/-- What stands for the definition marker: `3.` -/
def renderDefinition (c : Citation) : Text := Text.ofNat c.index ++ ['.']

/-- What stands for every reference to the entry: `[[3]](address)`, or `[3]` without address. -/
def renderReference (c : Citation) : Text :=
  match c.url with
  | some url => ['[', '['] ++ Text.ofNat c.index ++ [']', ']', '('] ++ url ++ [')']
  | none => ['['] ++ Text.ofNat c.index ++ [']']

end Citation

/-- All citations of a text in the order of their numbers. -/
structure Bibliography where
  citations : Array Citation := #[]
deriving DecidableEq, Repr

namespace Bibliography

/-! ## Collecting -/

/-- Appends the entry of the next definition. -/
def add (b : Bibliography) (name : Text) (url : Option Text) (span : Span) : Bibliography where
  citations := b.citations.push ⟨b.citations.size + 1, name, url, span⟩

/-- Number of citations. -/
def size (b : Bibliography) : Nat := b.citations.size

theorem size_add (b : Bibliography) (name : Text) (url : Option Text) (span : Span) :
    (b.add name url span).size = b.size + 1 := by
  simp [add, size]

/-- The text that belongs to a definition, given the definitions behind it. -/
def window (text : Text) (definition : Marker) (later : List Marker) : Text :=
  let stop := match later with
    | [] => text.byteSize
    | next :: _ => next.span.start
  text.slice ⟨definition.span.stop, stop⟩

/-- Adds the given definitions of a text in order. -/
def addAll (text : Text) (b : Bibliography) : List Marker → Bibliography
  | [] => b
  | m :: later => addAll text (b.add m.name (Link.first? (window text m later)) m.span) later

/-- The bibliography of a text, given its markers. -/
def collect (text : Text) (markers : List Marker) : Bibliography :=
  addAll text {} (markers.filter Marker.isDefinition)

/-! ## Access -/

/-- The citation that references to a name mean: the first one of that name. -/
def lookup (b : Bibliography) (name : Text) : Option Citation :=
  b.citations.find? (·.name = name)

/-- Binary search for a start offset among the citations from `low` up to `high`. -/
def search (citations : Array Citation) (offset low high : Nat) : Option Citation :=
  if low < high then
    let middle := low + (high - low) / 2
    match citations[middle]? with
    | none => none
    | some c =>
      if c.span.start = offset then some c
      else if c.span.start < offset then search citations offset (middle + 1) high
      else search citations offset low middle
  else none
termination_by high - low

/-- The citation whose definition marker starts at an offset. -/
def atOffset? (b : Bibliography) (offset : Nat) : Option Citation :=
  search b.citations offset 0 b.citations.size

/-- The citations whose name an earlier one has already. No reference means these. -/
def duplicates (b : Bibliography) : List Citation :=
  b.citations.toList.filter fun c => (b.lookup c.name).map Citation.index ≠ some c.index

def isEmpty (b : Bibliography) : Bool := b.citations.isEmpty

end Bibliography
end Citemark
