import Citemark.Listing.Json

/-!
# Reading JSON text

A reader for the JSON text of values takes blanks and line ends between the parts of a value, and
spelled out characters in a string. It reads back every value from the text that is printed for it.
So the text of a value shows all of it.

A value is read with fuel, of which each part of a value uses up one. A text has more characters
than it has parts, so its length is enough.

Results:
* `readString?_quoted`: a string is read back, whatever characters it has.
* `readValue?_text`: a value is read back from its text at any depth, whatever stands behind it.
* `read?_text`: the text of a value, with a line end behind it, gives the value.
-/

namespace Citemark

namespace Text

/-- Reads the number that a text starts with. -/
def readNat? (t : Text) : Option (Nat × Text) :=
  if (t.takeWhile Char.isDigit).isEmpty then none
  else some (Nat.ofDigitChars 10 (t.takeWhile Char.isDigit) 0, t.dropWhile Char.isDigit)

/-- No number goes on where the text starts. -/
def StartsNoDigit (t : Text) : Prop := ∀ c ∈ t.head?, c.isDigit = false

theorem startsNoDigit_cons {c : Char} {t : Text} (h : c.isDigit = false) :
    StartsNoDigit (c :: t) := by
  simpa [StartsNoDigit] using h

theorem readNat?_ofNat_append (n : Nat) {rest : Text} (h : StartsNoDigit rest) :
    readNat? (ofNat n ++ rest) = some (n, rest) := by
  have hdigits : ∀ c ∈ ofNat n, c.isDigit = true := fun c hc => isDigit_of_mem_ofNat hc
  have hstop : rest.takeWhile Char.isDigit = [] ∧ rest.dropWhile Char.isDigit = rest := by
    cases rest with
    | nil => exact ⟨rfl, rfl⟩
    | cons c rest =>
      have hc : c.isDigit = false := h c rfl
      simp [hc]
  have hvalue : Nat.ofDigitChars 10 (ofNat n) 0 = n :=
    Nat.ofDigitChars_toDigits (by decide) (by decide)
  unfold readNat?
  rw [List.takeWhile_append_of_pos hdigits, List.dropWhile_append_of_pos hdigits, hstop.1, hstop.2,
    List.append_nil, hvalue, if_neg (by simp [ofNat_ne_nil])]

end Text

namespace Json

/-! ## Strings -/

/-- The value of a hexadecimal digit. -/
def hexValue (c : Char) : Nat :=
  if c.isDigit then c.toNat - '0'.toNat else c.toLower.toNat - 'a'.toNat + 10

/-- The character with a number in hexadecimal digits. -/
def ofHex (digits : Text) : Char := Char.ofNat (digits.foldl (fun n c => 16 * n + hexValue c) 0)

/-- The character that stands behind a backslash in place of another one. -/
def unescape? : Char → Option Char
  | '"' => some '"'
  | '\\' => some '\\'
  | '/' => some '/'
  | 'n' => some '\n'
  | 'r' => some '\r'
  | 't' => some '\t'
  | 'b' => some '\x08'
  | 'f' => some '\x0c'
  | _ => none

/-- Reads a string behind its opening quote, up to the closing one. -/
def readString? : Text → Option (Text × Text)
  | [] => none
  | '"' :: rest => some ([], rest)
  | '\\' :: 'u' :: a :: b :: c :: d :: rest =>
    (readString? rest).map fun (t, rest) => (ofHex [a, b, c, d] :: t, rest)
  | '\\' :: c :: rest => do
    let c ← unescape? c
    let (t, rest) ← readString? rest
    return (c :: t, rest)
  | c :: rest => (readString? rest).map fun (t, rest) => (c :: t, rest)

/-- A character that has no meaning of its own in a string stands for itself. -/
theorem readString?_cons {c : Char} (hquote : c ≠ '"') (hslash : c ≠ '\\') (rest : Text) :
    readString? (c :: rest) = (readString? rest).map fun (t, rest) => (c :: t, rest) := by
  rw [readString?.eq_def]
  split <;> simp_all

/-- The four digits that are printed for a control character give it back. -/
theorem ofHex_digits : ∀ n : Fin 32,
    let digits := List.replicate (4 - (Nat.toDigits 16 n).length) '0' ++ Nat.toDigits 16 n
    digits.length = 4 ∧ ofHex digits = Char.ofNat n := by
  decide

theorem readString?_control {c : Char} (h : c < ' ') (rest : Text) :
    readString? (['\\', 'u'] ++ List.replicate (4 - (Nat.toDigits 16 c.toNat).length) '0' ++
        Nat.toDigits 16 c.toNat ++ rest) =
      (readString? rest).map fun (t, rest) => (c :: t, rest) := by
  obtain ⟨hlength, hvalue⟩ := ofHex_digits ⟨c.toNat, h⟩
  rw [List.append_assoc ['\\', 'u']]
  generalize List.replicate (4 - (Nat.toDigits 16 c.toNat).length) '0' ++
    Nat.toDigits 16 c.toNat = digits at hlength hvalue ⊢
  rw [Char.ofNat_toNat] at hvalue
  match digits, hlength with
  | [x, y, z, w], _ => simp [readString?, hvalue]

theorem readString?_escape_append (c : Char) (rest : Text) :
    readString? (escape c ++ rest) = (readString? rest).map fun (t, rest) => (c :: t, rest) := by
  unfold escape
  split
  case h_8 hquote hslash _ _ _ _ _ =>
    split
    · next hcontrol => exact readString?_control hcontrol rest
    · exact readString?_cons hquote hslash rest
  all_goals cases h : readString? rest <;> simp [readString?, unescape?, h]

theorem readString?_quoted (t rest : Text) :
    readString? (t.flatMap escape ++ '"' :: rest) = some (t, rest) := by
  induction t with
  | nil => rfl
  | cons c t ih =>
    rw [List.flatMap_cons, List.append_assoc, readString?_escape_append, ih]
    rfl

/-! ## Values -/

/-- What follows the blanks and line ends at the start of a text. -/
def skip (t : Text) : Text := t.dropWhile fun c => c = ' ' || c = '\n'

/-- Reads the name of a field and the colon behind it. -/
def readName? (t : Text) : Option (Text × Text) :=
  match skip t with
  | '"' :: rest => do
    let (name, rest) ← readString? rest
    match skip rest with
    | ':' :: rest => return (name, rest)
    | _ => none
  | _ => none

mutual

/-- Reads a value. -/
def readValue? : Nat → Text → Option (Json × Text)
  | 0, _ => none
  | fuel + 1, t =>
    match skip t with
    | 'n' :: 'u' :: 'l' :: 'l' :: rest => some (.null, rest)
    | '"' :: rest => (readString? rest).map fun (t, rest) => (.string t, rest)
    | '[' :: rest =>
      match skip rest with
      | ']' :: rest => some (.array [], rest)
      | _ => (readItems? fuel rest).map fun (items, rest) => (.array items, rest)
    | '\x7b' :: rest =>
      match skip rest with
      | '\x7d' :: rest => some (.object [], rest)
      | _ => (readFields? fuel rest).map fun (fields, rest) => (.object fields, rest)
    | t => (Text.readNat? t).map fun (n, rest) => (.number n, rest)

/-- Reads the items of an array, up to its closing bracket. -/
def readItems? : Nat → Text → Option (List Json × Text)
  | 0, _ => none
  | fuel + 1, t => do
    let (item, rest) ← readValue? fuel t
    match skip rest with
    | ']' :: rest => return ([item], rest)
    | ',' :: rest =>
      let (items, rest) ← readItems? fuel rest
      return (item :: items, rest)
    | _ => none

/-- Reads the fields of an object, up to its closing brace. -/
def readFields? : Nat → Text → Option (List (Text × Json) × Text)
  | 0, _ => none
  | fuel + 1, t => do
    let (name, rest) ← readName? t
    let (value, rest) ← readValue? fuel rest
    match skip rest with
    | '\x7d' :: rest => return ([(name, value)], rest)
    | ',' :: rest =>
      let (fields, rest) ← readFields? fuel rest
      return ((name, value) :: fields, rest)
    | _ => none

end

/-- Reads a text that holds one value and nothing else. -/
def read? (t : Text) : Option Json :=
  match readValue? (t.length + 1) t with
  | some (v, rest) => if (skip rest).isEmpty then some v else none
  | none => none

/-! ## Blanks -/

theorem skip_newLine (depth : Nat) (t : Text) : skip (newLine depth ++ t) = skip t := by
  refine List.dropWhile_append_of_pos fun c hc => ?_
  rcases List.mem_cons.1 hc with rfl | hc
  · rfl
  · rw [List.eq_of_mem_replicate hc]
    rfl

theorem skip_cons {c : Char} (hblank : c ≠ ' ') (hline : c ≠ '\n') (t : Text) :
    skip (c :: t) = c :: t := by
  simp [skip, hblank, hline]

/-- A closing bracket or brace stands on a line of its own. -/
theorem skip_newLine_cons (depth : Nat) {c : Char} (hblank : c ≠ ' ') (hline : c ≠ '\n')
    (t : Text) : skip (newLine depth ++ c :: t) = c :: t := by
  rw [skip_newLine, skip_cons hblank hline]

/-- Blanks in front of a value do not count. -/
theorem readValue?_congr (fuel : Nat) {t t' : Text} (h : skip t = skip t') :
    readValue? fuel t = readValue? fuel t' := by
  cases fuel with
  | zero => rfl
  | succ fuel => rw [readValue?, readValue?, h]

theorem readValue?_newLine (fuel depth : Nat) (t : Text) :
    readValue? fuel (newLine depth ++ t) = readValue? fuel t :=
  readValue?_congr fuel (skip_newLine depth t)

theorem readValue?_blank (fuel : Nat) (t : Text) : readValue? fuel (' ' :: t) = readValue? fuel t :=
  readValue?_congr fuel rfl

theorem readName?_quoted (depth : Nat) (name rest : Text) :
    readName? (newLine depth ++ (quoted name ++ ':' :: ' ' :: rest)) =
      some (name, ' ' :: rest) := by
  have hname := readString?_quoted name (':' :: ' ' :: rest)
  have hquote : skip (newLine depth ++ (quoted name ++ ':' :: ' ' :: rest)) =
      '"' :: (name.flatMap escape ++ '"' :: ':' :: ' ' :: rest) := by
    rw [skip_newLine]
    simp [quoted, skip]
  have hcolon : ∀ t, skip (':' :: t) = ':' :: t := skip_cons (by decide) (by decide)
  simp only [readName?, hquote, hname, hcolon, Option.bind_eq_bind, Option.bind_some,
    Option.pure_def]

/-- A digit starts none of the other values. -/
theorem readValue?_number (fuel n : Nat) {rest : Text} (h : rest.StartsNoDigit) :
    readValue? (fuel + 1) (Text.ofNat n ++ rest) = some (.number n, rest) := by
  obtain ⟨c, t, ht⟩ := List.exists_cons_of_ne_nil (Text.ofNat_ne_nil n)
  have hdigit : c.isDigit = true := Text.isDigit_of_mem_ofNat (ht ▸ List.mem_cons_self)
  have hread := Text.readNat?_ofNat_append n h
  have hne : ∀ d : Char, d.isDigit = false → c ≠ d := by
    rintro d hd rfl
    exact Bool.false_ne_true (hd.symm.trans hdigit)
  rw [ht, List.cons_append] at hread ⊢
  rw [readValue?, skip_cons (hne _ rfl) (hne _ rfl)]
  split
  · next heq => exact absurd (List.cons.inj heq).1 (hne _ rfl)
  · next heq => exact absurd (List.cons.inj heq).1 (hne _ rfl)
  · next heq => exact absurd (List.cons.inj heq).1 (hne _ rfl)
  · next heq => exact absurd (List.cons.inj heq).1 (hne _ rfl)
  · rw [hread]
    rfl

/-! ## Reading what was printed -/

theorem startsNoDigit_newLine (depth : Nat) (t : Text) : (newLine depth ++ t).StartsNoDigit :=
  Text.startsNoDigit_cons rfl

/-- What a value starts with, which is no blank and closes no array. -/
theorem exists_text_eq_cons (v : Json) (depth : Nat) :
    ∃ c t, v.text depth = c :: t ∧ c ≠ ' ' ∧ c ≠ '\n' ∧ c ≠ ']' := by
  cases v with
  | null => exact ⟨'n', _, by rw [text]; rfl, by decide⟩
  | number n =>
    obtain ⟨c, t, ht⟩ := List.exists_cons_of_ne_nil (Text.ofNat_ne_nil n)
    have hdigit : c.isDigit = true := Text.isDigit_of_mem_ofNat (ht ▸ List.mem_cons_self)
    refine ⟨c, t, by rw [text, ht], ?_, ?_, ?_⟩ <;> (rintro rfl; exact absurd hdigit (by decide))
  | string t => exact ⟨'"', _, by rw [text]; rfl, by decide⟩
  | array items =>
    cases items with
    | nil => exact ⟨'[', _, by rw [text]; rfl, by decide⟩
    | cons item items => exact ⟨'[', _, by rw [text]; rfl, by decide⟩
  | object fields =>
    cases fields with
    | nil => exact ⟨'\x7b', _, by rw [text]; rfl, by decide⟩
    | cons field fields => exact ⟨'\x7b', _, by rw [text]; rfl, by decide⟩

theorem itemsText_singleton (depth : Nat) (item : Json) :
    itemsText depth [item] = newLine depth ++ item.text depth := by
  simp [itemsText]

theorem itemsText_cons_cons (depth : Nat) (item next : Json) (items : List Json) :
    itemsText depth (item :: next :: items) =
      newLine depth ++ (item.text depth ++ ',' :: itemsText depth (next :: items)) := by
  rw [itemsText]
  simp

theorem fieldsText_singleton (depth : Nat) (name : Text) (value : Json) :
    fieldsText depth [(name, value)] =
      newLine depth ++ (quoted name ++ ':' :: ' ' :: value.text depth) := by
  simp [fieldsText]

theorem fieldsText_cons_cons (depth : Nat) (name : Text) (value : Json) (next : Text × Json)
    (fields : List (Text × Json)) : fieldsText depth ((name, value) :: next :: fields) =
      newLine depth ++ (quoted name ++ ':' :: ' ' ::
        (value.text depth ++ ',' :: fieldsText depth (next :: fields))) := by
  rw [fieldsText]
  simp

theorem exists_skip_itemsText (depth : Nat) (item : Json) (items : List Json) (z : Text) :
    ∃ c t, skip (itemsText depth (item :: items) ++ z) = c :: t ∧ c ≠ ']' := by
  obtain ⟨c, t, ht, hblank, hline, hclose⟩ := exists_text_eq_cons item depth
  rw [itemsText]
  simp only [List.append_assoc, skip_newLine, ht, List.cons_append]
  exact ⟨c, _, skip_cons hblank hline _, hclose⟩

theorem exists_skip_fieldsText (depth : Nat) (field : Text × Json) (fields : List (Text × Json))
    (z : Text) : ∃ t, skip (fieldsText depth (field :: fields) ++ z) = '"' :: t := by
  rw [fieldsText]
  simp only [List.append_assoc, skip_newLine]
  exact ⟨_, skip_cons (by decide) (by decide) _⟩

theorem readValue?_array {fuel : Nat} {t rest : Text} {items : List Json}
    (hskip : ∃ c t', skip t = c :: t' ∧ c ≠ ']') (hread : readItems? fuel t = some (items, rest)) :
    readValue? (fuel + 1) ('[' :: t) = some (.array items, rest) := by
  obtain ⟨c, t', hskip, hc⟩ := hskip
  rw [readValue?, skip_cons (by decide) (by decide)]
  simp only [hskip, hread, Option.map_some]
  split
  · next heq => exact absurd (List.cons.inj heq).1 hc
  · rfl

theorem readValue?_object {fuel : Nat} {t rest : Text} {fields : List (Text × Json)}
    (hskip : ∃ t', skip t = '"' :: t') (hread : readFields? fuel t = some (fields, rest)) :
    readValue? (fuel + 1) ('\x7b' :: t) = some (.object fields, rest) := by
  obtain ⟨t', hskip⟩ := hskip
  rw [readValue?, skip_cons (by decide) (by decide)]
  simp only [hskip, hread, Option.map_some]
  rfl

theorem readItems?_last {fuel : Nat} {t rest : Text} {item : Json} {outer : Nat}
    (hread : readValue? fuel t = some (item, newLine outer ++ ']' :: rest)) :
    readItems? (fuel + 1) t = some ([item], rest) := by
  have hclose := skip_newLine_cons outer (c := ']') (by decide) (by decide) rest
  simp only [readItems?, hread, hclose, Option.bind_eq_bind, Option.bind_some, Option.pure_def]

theorem readItems?_more {fuel : Nat} {t t' rest : Text} {item : Json} {items : List Json}
    (hread : readValue? fuel t = some (item, ',' :: t'))
    (hmore : readItems? fuel t' = some (items, rest)) :
    readItems? (fuel + 1) t = some (item :: items, rest) := by
  have hcomma : skip (',' :: t') = ',' :: t' := skip_cons (by decide) (by decide) t'
  simp only [readItems?, hread, hcomma, hmore, Option.bind_eq_bind, Option.bind_some,
    Option.pure_def]

theorem readFields?_last {fuel : Nat} {t t' rest : Text} {name : Text} {value : Json} {outer : Nat}
    (hname : readName? t = some (name, t'))
    (hread : readValue? fuel t' = some (value, newLine outer ++ '\x7d' :: rest)) :
    readFields? (fuel + 1) t = some ([(name, value)], rest) := by
  have hclose := skip_newLine_cons outer (c := '\x7d') (by decide) (by decide) rest
  simp only [readFields?, hname, hread, hclose, Option.bind_eq_bind, Option.bind_some,
    Option.pure_def]

theorem readFields?_more {fuel : Nat} {t t' t'' rest : Text} {name : Text} {value : Json}
    {fields : List (Text × Json)} (hname : readName? t = some (name, t'))
    (hread : readValue? fuel t' = some (value, ',' :: t''))
    (hmore : readFields? fuel t'' = some (fields, rest)) :
    readFields? (fuel + 1) t = some ((name, value) :: fields, rest) := by
  have hcomma : skip (',' :: t'') = ',' :: t'' := skip_cons (by decide) (by decide) t''
  simp only [readFields?, hname, hread, hcomma, hmore, Option.bind_eq_bind, Option.bind_some,
    Option.pure_def]

/-- An item, and so a field, stands behind a line end, which leaves fuel for what it is made of. -/
theorem exists_fuel {depth fuel : Nat} {t : Text} (h : (newLine depth ++ t).length ≤ fuel) :
    ∃ n, fuel = n + 1 ∧ t.length ≤ n := by
  rw [newLine, List.cons_append, List.length_cons, List.length_append] at h
  exact ⟨fuel - 1, by omega, by omega⟩

mutual

theorem readValue?_text (v : Json) (depth : Nat) {fuel : Nat} (rest : Text)
    (hfuel : (v.text depth).length ≤ fuel) (hrest : rest.StartsNoDigit) :
    readValue? fuel (v.text depth ++ rest) = some (v, rest) := by
  obtain ⟨fuel, rfl⟩ : ∃ n, fuel = n + 1 := by
    obtain ⟨c, t, ht, _⟩ := exists_text_eq_cons v depth
    rw [ht, List.length_cons] at hfuel
    exact ⟨fuel - 1, by omega⟩
  match v with
  | .null =>
    rw [text]
    rfl
  | .number n =>
    rw [text]
    exact readValue?_number fuel n hrest
  | .string t =>
    have hstring := readString?_quoted t rest
    simp [text, quoted, readValue?, skip, hstring]
  | .array [] => simp [text, readValue?, skip]
  | .array (item :: items) =>
    have hitems : (itemsText (depth + 1) (item :: items)).length ≤ fuel := by
      simp [text] at hfuel
      omega
    have htext : (array (item :: items)).text depth ++ rest = '[' ::
        (itemsText (depth + 1) (item :: items) ++ (newLine depth ++ ']' :: rest)) := by
      simp [text]
    rw [htext]
    exact readValue?_array (exists_skip_itemsText _ _ _ _)
      (readItems?_text (item :: items) (by simp) (depth + 1) depth rest hitems)
  | .object [] => simp [text, readValue?, skip]
  | .object (field :: fields) =>
    have hfields : (fieldsText (depth + 1) (field :: fields)).length ≤ fuel := by
      simp [text] at hfuel
      omega
    have htext : (object (field :: fields)).text depth ++ rest = '\x7b' ::
        (fieldsText (depth + 1) (field :: fields) ++ (newLine depth ++ '\x7d' :: rest)) := by
      simp [text]
    rw [htext]
    exact readValue?_object (exists_skip_fieldsText _ _ _ _)
      (readFields?_text (field :: fields) (by simp) (depth + 1) depth rest hfields)

theorem readItems?_text (items : List Json) (hne : items ≠ []) (depth outer : Nat) {fuel : Nat}
    (rest : Text) (hfuel : (itemsText depth items).length ≤ fuel) :
    readItems? fuel (itemsText depth items ++ (newLine outer ++ ']' :: rest)) =
      some (items, rest) := by
  match items with
  | [] => exact absurd rfl hne
  | [item] =>
    rw [itemsText_singleton] at hfuel ⊢
    obtain ⟨fuel, rfl, hitem⟩ := exists_fuel hfuel
    have hread := readValue?_text item depth _ hitem (startsNoDigit_newLine outer (']' :: rest))
    rw [List.append_assoc]
    exact readItems?_last ((readValue?_newLine fuel depth _).trans hread)
  | item :: next :: items =>
    rw [itemsText_cons_cons] at hfuel ⊢
    obtain ⟨fuel, rfl, hitem⟩ := exists_fuel hfuel
    rw [List.length_append, List.length_cons] at hitem
    have hmore := readItems?_text (next :: items) (by simp) depth outer rest
      (show _ ≤ fuel by omega)
    have hread := readValue?_text item depth
      (',' :: (itemsText depth (next :: items) ++ (newLine outer ++ ']' :: rest)))
      (show _ ≤ fuel by omega) (Text.startsNoDigit_cons rfl)
    rw [List.append_assoc, List.append_assoc, List.cons_append]
    exact readItems?_more ((readValue?_newLine fuel depth _).trans hread) hmore

theorem readFields?_text (fields : List (Text × Json)) (hne : fields ≠ []) (depth outer : Nat)
    {fuel : Nat} (rest : Text) (hfuel : (fieldsText depth fields).length ≤ fuel) :
    readFields? fuel (fieldsText depth fields ++ (newLine outer ++ '\x7d' :: rest)) =
      some (fields, rest) := by
  match fields with
  | [] => exact absurd rfl hne
  | [(name, value)] =>
    rw [fieldsText_singleton] at hfuel ⊢
    obtain ⟨fuel, rfl, hvalue⟩ := exists_fuel hfuel
    simp only [List.length_append, List.length_cons] at hvalue
    have hread := readValue?_text value depth _ (show _ ≤ fuel by omega)
      (startsNoDigit_newLine outer ('\x7d' :: rest))
    simp only [List.append_assoc, List.cons_append]
    exact readFields?_last (readName?_quoted depth name _)
      ((readValue?_blank fuel _).trans hread)
  | (name, value) :: next :: fields =>
    rw [fieldsText_cons_cons] at hfuel ⊢
    obtain ⟨fuel, rfl, hvalue⟩ := exists_fuel hfuel
    simp only [List.length_append, List.length_cons] at hvalue
    have hmore := readFields?_text (next :: fields) (by simp) depth outer rest
      (show _ ≤ fuel by omega)
    have hread := readValue?_text value depth
      (',' :: (fieldsText depth (next :: fields) ++ (newLine outer ++ '\x7d' :: rest)))
      (show _ ≤ fuel by omega) (Text.startsNoDigit_cons rfl)
    simp only [List.append_assoc, List.cons_append]
    exact readFields?_more (readName?_quoted depth name _)
      ((readValue?_blank fuel _).trans hread) hmore

end

end Json
end Citemark
