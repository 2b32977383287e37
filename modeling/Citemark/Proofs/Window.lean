import Citemark.Proofs.Extension

/-!
# Links in a window

When the search for a link finds none. What may stand between the parentheses of a link is said by
its form alone, so that a text with a link is one that holds such an address in parentheses,
wherever the search may look first.

Results:
* `read?_eq_some_iff_isAddress`: a link is read exactly where an address stands in parentheses.
* `first?_eq_none_iff`: the search fails exactly on a text without a link.
* `address?_eq_none_iff`: a definition has no address exactly when its window holds no link.
-/

namespace Citemark
namespace Link

/-- What may stand between the parentheses of a link: a scheme, and no `)` behind it. -/
def IsAddress (address : Text) : Prop := (∃ s ∈ schemes, s <+: address) ∧ ')' ∉ address

/-- Whether an address in parentheses stands somewhere in a text. -/
def IsLinked (t : Text) : Prop := ∃ address, IsAddress address ∧ '(' :: address ++ [')'] <:+: t

theorem not_mem_of_mem_schemes {scheme : Text} (h : scheme ∈ schemes) : ')' ∉ scheme := by
  have hclosed : ∀ s ∈ schemes, ')' ∉ s := by decide
  exact hclosed scheme h

/-- A scheme holds no `)`, so one that starts in front of the first `)` also ends there. -/
theorem scheme_prefix_iff {s address rest : Text} (hs : s ∈ schemes) :
    s <+: address ++ ')' :: rest ↔ s <+: address := by
  constructor
  · intro hstarts
    obtain ⟨z, hz⟩ := hstarts
    rcases List.append_eq_append_iff.1 hz with ⟨y, rfl, _⟩ | ⟨y, rfl, hy⟩
    · exact List.prefix_append _ _
    · cases y with
      | nil => simp
      | cons c y =>
        obtain ⟨rfl, _⟩ := List.cons.inj hy
        exact absurd (by simp) (not_mem_of_mem_schemes hs)
  · exact fun h => h.trans (List.prefix_append _ _)

theorem read?_eq_some_iff_isAddress {t address : Text} :
    read? t = some address ↔ IsAddress address ∧ '(' :: address ++ [')'] <+: t := by
  rw [read?_eq_some_iff]
  constructor
  · rintro ⟨_, rfl, hscheme, huntil⟩
    obtain ⟨hclosed, rest, rfl⟩ := untilParen?_eq_some_iff.1 huntil
    obtain ⟨s, hs, hstarts⟩ := hasScheme_eq_true_iff.1 hscheme
    exact ⟨⟨⟨s, hs, (scheme_prefix_iff hs).1 hstarts⟩, hclosed⟩, rest, by simp⟩
  · rintro ⟨⟨⟨s, hs, hstarts⟩, hclosed⟩, rest, rfl⟩
    refine ⟨address ++ ')' :: rest, by simp, ?_, untilParen?_eq_some_iff.2 ⟨hclosed, rest, rfl⟩⟩
    exact hasScheme_eq_true_iff.2 ⟨s, hs, (scheme_prefix_iff hs).2 hstarts⟩

theorem isLinked_cons_iff {c : Char} {t : Text} :
    IsLinked (c :: t) ↔ (∃ address, read? (c :: t) = some address) ∨ IsLinked t := by
  simp only [IsLinked, read?_eq_some_iff_isAddress, List.infix_cons_iff, and_or_left, exists_or]

/-- The search fails exactly on a text without a link. -/
theorem first?_eq_none_iff {t : Text} : first? t = none ↔ ¬ IsLinked t := by
  induction t with
  | nil => simp [first?, IsLinked]
  | cons c t ih =>
    rw [first?, Option.or_eq_none_iff, ih, isLinked_cons_iff, not_or,
      Option.eq_none_iff_forall_ne_some, not_exists]

end Link

theorem address?_eq_none_iff {t : Text} {i : Nat} {d : Marker} (h : (definitions t)[i]? = some d) :
    address? t i = none ↔ ¬ Link.IsLinked (windowOf t d i) := by
  rw [address?, h, Option.bind_some, Link.first?_eq_none_iff]

end Citemark
