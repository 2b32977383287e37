import Citemark.Text

/-!
# Parenthesised links

The link of a piece of text is the first address in it that stands in parentheses, as in
`[name](https://example.org)`. An address starts with `http://` or `https://` and ends before the
first `)` behind that.

Results:
* `untilParen?_eq_some_iff`: an address ends exactly at the first `)`.
* `read?_eq_some_iff`: a link is read exactly where an opener with a closing `)` stands.
-/

namespace Citemark.Link

/-- What an address may start with. -/
def schemes : List Text := ["http://".toList, "https://".toList]

/-- Whether a text starts with an address scheme. -/
def hasScheme (t : Text) : Bool := schemes.any (·.isPrefixOf t)

/-- The part of a text in front of the first `)`, if there is one. -/
def untilParen? : Text → Option Text
  | [] => none
  | c :: rest => if c = ')' then some [] else (untilParen? rest).map (c :: ·)

theorem untilParen?_eq_some_iff {t address : Text} :
    untilParen? t = some address ↔ ')' ∉ address ∧ ∃ rest, t = address ++ ')' :: rest := by
  induction t generalizing address with
  | nil => simp [untilParen?]
  | cons c t ih =>
    cases address with
    | nil => by_cases hc : c = ')' <;> simp [untilParen?, hc]
    | cons d address =>
      by_cases hc : c = ')'
      · subst hc
        simp only [untilParen?, if_true, Option.some.injEq, List.cons_append, List.cons.injEq]
        constructor
        · exact fun h => absurd h (by simp)
        · rintro ⟨hmem, _, rfl, _⟩
          simp at hmem
      · simp [untilParen?, hc, ih]
        grind

/-- Reads a link at the start of a text: the address after an opening parenthesis. -/
def read? : Text → Option Text
  | '(' :: rest => if hasScheme rest then untilParen? rest else none
  | _ => none

theorem read?_eq_some_iff {t address : Text} :
    read? t = some address ↔
      ∃ rest, t = '(' :: rest ∧ hasScheme rest = true ∧ untilParen? rest = some address := by
  unfold read?
  split
  · next rest => by_cases h : hasScheme rest <;> simp [h]
  · next hnot => simpa using fun rest h => absurd h (hnot rest)

/-- The leftmost link of a text. -/
def first? : Text → Option Text
  | [] => none
  | c :: rest => (read? (c :: rest)).or (first? rest)

end Citemark.Link
