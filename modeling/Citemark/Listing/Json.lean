import Citemark.Text

/-!
# JSON text

Values are printed over several lines, indented by two spaces for each level; an array or object
without content stays on one line. Characters outside of ASCII are printed as they are.

Main definition:
* `Json.text`: the text of a value.
-/

namespace Citemark

/-- A JSON value of a listing. -/
inductive Json where
  | null
  | number (n : Nat)
  | string (t : Text)
  | array (items : List Json)
  | object (fields : List (Text × Json))

namespace Json

/-- A character inside a string: quotes and backslashes are escaped, and so are control
    characters, by letter where there is one and else by number. -/
def escape (c : Char) : Text :=
  match c with
  | '"' => ['\\', '"']
  | '\\' => ['\\', '\\']
  | '\n' => ['\\', 'n']
  | '\r' => ['\\', 'r']
  | '\t' => ['\\', 't']
  | '\x08' => ['\\', 'b']
  | '\x0c' => ['\\', 'f']
  | c =>
    if c < ' ' then
      let digits := Nat.toDigits 16 c.toNat
      ['\\', 'u'] ++ List.replicate (4 - digits.length) '0' ++ digits
    else [c]

/-- A text between quotes. -/
def quoted (t : Text) : Text := ['"'] ++ t.flatMap escape ++ ['"']

/-- The start of a line at a depth. -/
def newLine (depth : Nat) : Text := '\n' :: List.replicate (2 * depth) ' '

mutual

/-- The text of a value at a depth. -/
def text (depth : Nat) : Json → Text
  | .null => "null".toList
  | .number n => Text.ofNat n
  | .string t => quoted t
  | .array items =>
    if items.isEmpty then ['[', ']']
    else ['['] ++ itemsText (depth + 1) items ++ newLine depth ++ [']']
  | .object fields =>
    if fields.isEmpty then ['\x7b', '\x7d']
    else ['\x7b'] ++ fieldsText (depth + 1) fields ++ newLine depth ++ ['\x7d']

/-- The items of an array, each on a new line. -/
def itemsText (depth : Nat) : List Json → Text
  | [] => []
  | item :: items =>
    newLine depth ++ item.text depth ++ (if items.isEmpty then [] else [',']) ++
      itemsText depth items

/-- The fields of an object, each on a new line. -/
def fieldsText (depth : Nat) : List (Text × Json) → Text
  | [] => []
  | (name, value) :: fields =>
    newLine depth ++ quoted name ++ [':', ' '] ++ value.text depth ++
      (if fields.isEmpty then [] else [',']) ++ fieldsText depth fields

end

end Json
end Citemark
