import Citemark.RenderError

/-!
# Placeholder maps

A placeholder is a fixed token such as `[[GEN]]` that is replaced by a configured value. A map
holds its tokens in code point order, which is also the order of their UTF-8 bytes, and each token
once. A map is valid when no token is empty, none occurs in another, and none occurs in a value.

Results:
* `get?_insert`: what a map gives after an insertion.
* `mem_tokens`: the tokens are those that have an entry.
-/

namespace Citemark

namespace PlaceholderMap.Entries

/-! ## Entries in the order of their tokens -/

/-- Puts an entry in its place; an entry of the same token gives way. -/
def insert (token value : Text) : List (Text × Text) → List (Text × Text)
  | [] => [(token, value)]
  | (t, v) :: rest =>
    if token = t then (token, value) :: rest
    else if token.precedes t then (token, value) :: (t, v) :: rest
    else (t, v) :: insert token value rest

theorem mem_insert {token value : Text} {entries : List (Text × Text)} {e : Text × Text}
    (h : e ∈ insert token value entries) : e = (token, value) ∨ e ∈ entries := by
  fun_induction insert token value entries <;> grind

/-- Each token comes before all that follow. -/
def Sorted (entries : List (Text × Text)) : Prop :=
  entries.Pairwise fun a b => a.1.precedes b.1 = true

instance (entries : List (Text × Text)) : Decidable (Sorted entries) :=
  inferInstanceAs (Decidable (List.Pairwise _ _))

theorem sorted_insert (token value : Text) {entries : List (Text × Text)}
    (h : Sorted entries) : Sorted (insert token value entries) := by
  fun_induction insert token value entries with
  | case1 => simp [Sorted]
  | case2 => simpa [Sorted] using h
  | case3 t v rest _ hlt =>
    refine List.pairwise_cons.2 ⟨fun e he => ?_, h⟩
    rcases List.mem_cons.1 he with rfl | he
    · exact hlt
    · exact Text.precedes_trans hlt ((List.pairwise_cons.1 h).1 e he)
  | case4 t v rest hne hge ih =>
    obtain ⟨hfirst, hrest⟩ := List.pairwise_cons.1 h
    refine List.pairwise_cons.2 ⟨fun e he => ?_, ih hrest⟩
    rcases mem_insert he with rfl | he
    · exact Text.precedes_of_not hne hge
    · exact hfirst e he

end PlaceholderMap.Entries

/-- Tokens with their values. -/
structure PlaceholderMap where
  entries : List (Text × Text) := []
  sorted : PlaceholderMap.Entries.Sorted entries := by exact List.Pairwise.nil
deriving DecidableEq

namespace PlaceholderMap

/-- The map without tokens. -/
def empty : PlaceholderMap := {}

/-- Adds a token, or gives it another value. -/
def insert (m : PlaceholderMap) (token value : Text) : PlaceholderMap :=
  ⟨Entries.insert token value m.entries, Entries.sorted_insert token value m.sorted⟩

/-- Inserts pairs in order, so that the last value of a token stays. -/
def extend (m : PlaceholderMap) (pairs : List (Text × Text)) : PlaceholderMap :=
  pairs.foldl (fun m (token, value) => m.insert token value) m

/-- The map of a list of pairs. -/
def ofList (pairs : List (Text × Text)) : PlaceholderMap := empty.extend pairs

/-- The value of a token. -/
def get? (m : PlaceholderMap) (token : Text) : Option Text := m.entries.lookup token

def size (m : PlaceholderMap) : Nat := m.entries.length

def isEmpty (m : PlaceholderMap) : Bool := m.entries.isEmpty

/-- The tokens of a map, in their order. -/
def tokens (m : PlaceholderMap) : List Text := m.entries.map Prod.fst

theorem mem_tokens {m : PlaceholderMap} {token : Text} :
    token ∈ m.tokens ↔ ∃ value, (token, value) ∈ m.entries := by
  simp [tokens]

theorem get?_insert (m : PlaceholderMap) (token value other : Text) :
    (m.insert token value).get? other = if other = token then some value else m.get? other := by
  simp only [get?, insert]
  fun_induction Entries.insert token value m.entries <;> grind

/-! ## Validity -/

/-- What is wrong with the pair of an entry and a token of the map, its own included. -/
def offence? (token value other : Text) : Option RenderError :=
  if other ≠ token ∧ Text.occursIn token other then
    some (.overlappingPlaceholders token other)
  else if Text.occursIn other value then some (.recursivePlaceholder token other)
  else none

/-- The first offence of an entry, in the order of the tokens it is held against. -/
def entryOffence? (m : PlaceholderMap) (entry : Text × Text) : Option RenderError :=
  if entry.1.isEmpty then some .emptyPlaceholder
  else m.entries.findSome? fun other => offence? entry.1 entry.2 other.1

/-- Refuses a map with an offending entry and names the first offence. -/
def validate (m : PlaceholderMap) : Except RenderError Unit :=
  match m.entries.findSome? m.entryOffence? with
  | some offence => throw offence
  | none => pure ()

end PlaceholderMap
end Citemark
