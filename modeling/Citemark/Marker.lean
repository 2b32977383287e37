import Citemark.Text

/-!
# Citation markers

A marker is `[[ref:name]]`, an inline citation of the entry `name`, or `[[item:name]]`, the
definition of that entry. A name is any text without `]`, the empty text and line feeds included.

Results:
* `name?_eq_some_iff`: a name ends exactly at the first `]`, which has to be a double one.
* `read?_eq_some_iff`: a marker is read exactly where its literal stands.
-/

namespace Citemark

/-- What a marker does: cite an entry or define it. -/
inductive MarkerKind where
  | reference
  | definition
deriving DecidableEq, Repr

/-- The word inside the brackets. -/
def MarkerKind.tag : MarkerKind → Text
  | .reference => ['r', 'e', 'f']
  | .definition => ['i', 't', 'e', 'm']

/-- The text that a marker of this kind starts with. -/
def MarkerKind.opener (kind : MarkerKind) : Text := ['[', '['] ++ kind.tag ++ [':']

/-- A marker by its content, wherever it stands. -/
structure Mark where
  kind : MarkerKind
  name : Text
deriving DecidableEq, Repr

namespace Mark

/-- The marker as it is written. -/
def literal (m : Mark) : Text := m.kind.opener ++ m.name ++ [']', ']']

theorem literal_ne_nil (m : Mark) : m.literal ≠ [] := by
  cases m with
  | mk kind name => cases kind <;> simp [literal, MarkerKind.opener]

/-- Reads a name and the `]]` behind it, and gives the name and the remaining text. -/
def name? : Text → Option (Text × Text)
  | [] => none
  | ']' :: ']' :: rest => some ([], rest)
  | c :: rest => if c = ']' then none else (name? rest).map fun (name, rest) => (c :: name, rest)

theorem name?_eq_some_iff {t name rest : Text} :
    name? t = some (name, rest) ↔ ']' ∉ name ∧ t = name ++ [']', ']'] ++ rest := by
  fun_induction name? t generalizing name rest with
  | case1 => simp
  | case2 r =>
    cases name with
    | nil => simp
    | cons d name =>
      simp only [Option.some.injEq, Prod.mk.injEq, List.cons_append, List.cons.injEq]
      constructor
      · rintro ⟨h, _⟩
        exact absurd h (by simp)
      · rintro ⟨hmem, rfl, _⟩
        simp at hmem
  | case3 t hnot =>
    constructor
    · simp
    · rintro ⟨hmem, ht⟩
      cases name with
      | nil => exact absurd (List.cons.inj ht).2 (hnot rest rfl)
      | cons d name =>
        obtain ⟨rfl, _⟩ := List.cons.inj ht
        simp at hmem
  | case4 c t _ hc ih =>
    simp only [Option.map_eq_some_iff, Prod.mk.injEq, Prod.exists, ih]
    constructor
    · rintro ⟨n, r, ⟨hmem, rfl⟩, rfl, rfl⟩
      exact ⟨by simp [Ne.symm hc, hmem], rfl⟩
    · rintro ⟨hmem, ht⟩
      cases name with
      | nil => exact absurd (List.cons.inj ht).1 hc
      | cons d name =>
        obtain ⟨rfl, htail⟩ := List.cons.inj ht
        exact ⟨name, rest, ⟨fun h => hmem (List.mem_cons_of_mem _ h), htail⟩, rfl, rfl⟩

/-- Reads a marker of one kind at the start of a text. -/
def readAs? (kind : MarkerKind) (t : Text) : Option (Mark × Text) := do
  let (name, rest) ← name? (← Text.after? kind.opener t)
  return (⟨kind, name⟩, rest)

theorem readAs?_eq_some_iff {kind : MarkerKind} {t rest : Text} {m : Mark} :
    readAs? kind t = some (m, rest) ↔ m.kind = kind ∧ ']' ∉ m.name ∧ t = m.literal ++ rest := by
  obtain ⟨k, n⟩ := m
  simp only [readAs?, bind, Option.bind_eq_some_iff, pure, Option.some.injEq, Prod.mk.injEq,
    Prod.exists, Text.after?_eq_some_iff, name?_eq_some_iff, mk.injEq]
  constructor
  · rintro ⟨u, hu, name, r, ⟨hn, hr⟩, ⟨rfl, rfl⟩, rfl⟩
    exact ⟨rfl, hn, by simp [hu, hr, literal]⟩
  · rintro ⟨rfl, hn, ht⟩
    exact ⟨n ++ [']', ']'] ++ rest, by simp [ht, literal], n, rest, ⟨hn, rfl⟩, ⟨rfl, rfl⟩, rfl⟩

/-- Reads a marker at the start of a text and gives what follows it. -/
def read? (t : Text) : Option (Mark × Text) :=
  (readAs? .reference t).or (readAs? .definition t)

theorem read?_eq_some_iff {t rest : Text} {m : Mark} :
    read? t = some (m, rest) ↔ ']' ∉ m.name ∧ t = m.literal ++ rest := by
  obtain ⟨k, n⟩ := m
  constructor
  · intro h
    rcases Option.or_eq_some_iff.1 h with h | ⟨_, h⟩ <;> exact (readAs?_eq_some_iff.1 h).2
  · rintro ⟨hn, ht⟩
    cases k with
    | reference => exact Option.or_eq_some_iff.2 (.inl (readAs?_eq_some_iff.2 ⟨rfl, hn, ht⟩))
    | definition =>
      refine Option.or_eq_some_iff.2 (.inr ⟨?_, readAs?_eq_some_iff.2 ⟨rfl, hn, ht⟩⟩)
      have h : Text.after? MarkerKind.reference.opener t = none := by
        rw [ht]
        rfl
      simp [readAs?, h]

theorem read?_eq_none_iff {t : Text} :
    read? t = none ↔ ∀ (m : Mark) (rest : Text), ']' ∉ m.name → t ≠ m.literal ++ rest := by
  constructor
  · intro h m rest hm ht
    rw [read?_eq_some_iff.2 ⟨hm, ht⟩] at h
    exact absurd h (by simp)
  · intro h
    cases hread : read? t with
    | none => rfl
    | some p =>
      obtain ⟨hm, ht⟩ := read?_eq_some_iff.1 hread
      exact absurd ht (h p.1 p.2 hm)

theorem length_of_read? {t rest : Text} {m : Mark} (h : read? t = some (m, rest)) :
    rest.length < t.length := by
  obtain ⟨_, rfl⟩ := read?_eq_some_iff.1 h
  have := List.length_pos_iff.2 m.literal_ne_nil
  rw [List.length_append]
  omega

end Mark

/-- A marker together with the bytes that it takes in a text, brackets included. -/
structure Marker extends Mark where
  span : Span
deriving DecidableEq, Repr

namespace Marker

def isDefinition (m : Marker) : Bool := m.kind = .definition

def isReference (m : Marker) : Bool := m.kind = .reference

end Marker
end Citemark
