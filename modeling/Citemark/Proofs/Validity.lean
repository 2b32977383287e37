import Citemark.Substitution

/-!
# Valid placeholder maps

What a map promises once its check has passed, and what follows for a text: at every place stands
at most one token, so the order in which tokens are tried has no part in the result.

Results:
* `validate_eq_ok_iff`: the check accepts exactly the valid maps.
* `IsValid.token_unique`: two tokens that stand at one place are the same.
* `tokenAt?_eq_none_iff`: no token is found where none stands.
* `IsValid.firstToken?_eq_none_iff`, `IsValid.isLeftmost_of_firstToken?`: the search for the leftmost
  token.
-/

namespace Citemark
namespace PlaceholderMap

/-! ## Validity -/

/-- No token is empty, none occurs in another one, and none occurs in a value. -/
structure IsValid (m : PlaceholderMap) : Prop where
  ne_nil : ∀ token ∈ m.tokens, token ≠ []
  eq_of_occurs : ∀ token ∈ m.tokens, ∀ other ∈ m.tokens, token <:+: other → token = other
  not_infix_value : ∀ e ∈ m.entries, ∀ token ∈ m.tokens, ¬ token <:+: e.2

theorem offence?_eq_none_iff {token value other : Text} :
    offence? token value other = none ↔
      (token <:+: other → token = other) ∧ ¬ other <:+: value := by
  unfold offence?
  simp only [Text.occursIn_iff]
  by_cases hwithin : other ≠ token ∧ token <:+: other
  · rw [if_pos hwithin]
    constructor
    · simp
    · rintro ⟨h, _⟩
      exact absurd (h hwithin.2).symm hwithin.1
  · rw [if_neg hwithin]
    have hequal : token <:+: other → token = other := fun h =>
      Decidable.byContradiction fun hne => hwithin ⟨Ne.symm hne, h⟩
    refine ⟨fun hnone => ⟨hequal, fun hvalue => ?_⟩, fun h => if_neg h.2⟩
    rw [if_pos hvalue] at hnone
    exact absurd hnone (by simp)

theorem entryOffence?_eq_none_iff {m : PlaceholderMap} {e : Text × Text} :
    m.entryOffence? e = none ↔ e.1 ≠ [] ∧ ∀ other ∈ m.tokens,
      (e.1 <:+: other → e.1 = other) ∧ ¬ other <:+: e.2 := by
  unfold entryOffence?
  by_cases hnil : e.1 = []
  · simp [hnil]
  · rw [if_neg (by simpa using hnil), List.findSome?_eq_none_iff]
    simp only [offence?_eq_none_iff, tokens, List.forall_mem_map]
    exact ⟨fun h => ⟨hnil, h⟩, fun h => h.2⟩

theorem validate_eq_ok_iff {m : PlaceholderMap} : m.validate = .ok () ↔ m.IsValid := by
  have hvalidate : m.validate = .ok () ↔ ∀ e ∈ m.entries, m.entryOffence? e = none := by
    unfold validate
    rw [← List.findSome?_eq_none_iff]
    cases m.entries.findSome? m.entryOffence? with
    | none => simp [pure, Except.pure]
    | some offence => simp [throw, throwThe, MonadExceptOf.throw]
  simp only [hvalidate, entryOffence?_eq_none_iff]
  constructor
  · intro h
    refine ⟨?_, ?_, fun e he token htoken => ((h e he).2 token htoken).2⟩
    · intro token htoken
      obtain ⟨value, he⟩ := mem_tokens.1 htoken
      exact (h _ he).1
    · intro token htoken other hother
      obtain ⟨value, he⟩ := mem_tokens.1 htoken
      exact ((h _ he).2 other hother).1
  · intro h e he
    have htoken : e.1 ∈ m.tokens := mem_tokens.2 ⟨e.2, he⟩
    exact ⟨h.ne_nil _ htoken, fun other hother =>
      ⟨h.eq_of_occurs _ htoken other hother, h.not_infix_value e he other hother⟩⟩

/-- Two tokens that stand at one place are the same. -/
theorem IsValid.token_unique {m : PlaceholderMap} (h : m.IsValid) {a b t : Text}
    (ha : a ∈ m.tokens) (hb : b ∈ m.tokens) (hat : a <+: t) (hbt : b <+: t) : a = b := by
  rcases Nat.le_total a.length b.length with hle | hle
  · exact h.eq_of_occurs a ha b hb (List.prefix_of_prefix_length_le hat hbt hle).isInfix
  · exact (h.eq_of_occurs b hb a ha (List.prefix_of_prefix_length_le hbt hat hle).isInfix).symm

/-! ## Tokens in a text -/

/-- No token occurs in the text. -/
def IsFree (m : PlaceholderMap) (t : Text) : Prop := ∀ token ∈ m.tokens, ¬ token <:+: t

/-- The token occurs in the text, no token starts in front of it, and no other one with it. -/
def IsLeftmost (m : PlaceholderMap) (t token : Text) : Prop :=
  token ∈ m.tokens ∧ ∃ x y, t = x ++ token ++ y ∧
    ∀ other ∈ m.tokens, ∀ x' y', t = x' ++ other ++ y' →
      x.length ≤ x'.length ∧ (x'.length = x.length → other = token)

theorem tokenAt?_eq_none_iff {m : PlaceholderMap} {t : Text} :
    m.tokenAt? t = none ↔ ∀ token ∈ m.tokens, token ≠ [] → ¬ token <+: t := by
  unfold tokenAt?
  rw [List.find?_eq_none, tokens, List.forall_mem_map]
  simp

/-- A text is free of tokens when none stands at its start and the remaining text is free. -/
theorem IsValid.isFree_cons_iff {m : PlaceholderMap} (h : m.IsValid) {c : Char} {t : Text} :
    m.IsFree (c :: t) ↔ m.tokenAt? (c :: t) = none ∧ m.IsFree t := by
  simp only [IsFree, tokenAt?_eq_none_iff, List.infix_cons_iff]
  constructor
  · intro hfree
    exact ⟨fun token htoken _ hstarts => hfree token htoken (Or.inl hstarts),
      fun token htoken hwithin => hfree token htoken (Or.inr hwithin)⟩
  · rintro ⟨hnone, hfree⟩ token htoken (hstarts | hwithin)
    · exact hnone token htoken (h.ne_nil _ htoken) hstarts
    · exact hfree token htoken hwithin

theorem IsValid.isFree_nil {m : PlaceholderMap} (h : m.IsValid) : m.IsFree [] := by
  intro token htoken hwithin
  exact h.ne_nil _ htoken (List.infix_nil.1 hwithin)

/-- The search ends without a token exactly when the text is free of them. -/
theorem IsValid.firstToken?_eq_none_iff {m : PlaceholderMap} (h : m.IsValid) {t : Text} :
    m.firstToken? t = none ↔ m.IsFree t := by
  induction t with
  | nil => simp [firstToken?, h.isFree_nil]
  | cons c t ih => rw [firstToken?, Option.or_eq_none_iff, Option.map_eq_none_iff, ih,
      h.isFree_cons_iff]

/-- The search gives the leftmost token. -/
theorem IsValid.isLeftmost_of_firstToken? {m : PlaceholderMap} (h : m.IsValid) {t token : Text}
    (ht : m.firstToken? t = some token) : m.IsLeftmost t token := by
  induction t with
  | nil => simp [firstToken?] at ht
  | cons c t ih =>
    cases hat : m.tokenAt? (c :: t) with
    | some e =>
      rw [firstToken?, hat, Option.map_some, Option.some_or, Option.some.injEq] at ht
      obtain ⟨he, _, y, hy⟩ := tokenAt?_eq_some hat
      have htoken : e.1 ∈ m.tokens := mem_tokens.2 ⟨e.2, he⟩
      subst ht
      refine ⟨htoken, [], y, hy.symm, fun other hother x' y' heq => ⟨Nat.zero_le _, fun hx => ?_⟩⟩
      rw [List.eq_nil_of_length_eq_zero hx] at heq
      exact h.token_unique hother htoken ⟨y', heq.symm⟩ ⟨y, hy⟩
    | none =>
      rw [firstToken?, hat, Option.map_none, Option.none_or] at ht
      obtain ⟨htoken, x, y, rfl, hleft⟩ := ih ht
      refine ⟨htoken, c :: x, y, rfl, fun other hother x' y' heq => ?_⟩
      cases x' with
      | nil =>
        exact absurd ⟨y', heq.symm⟩ (tokenAt?_eq_none_iff.1 hat other hother (h.ne_nil _ hother))
      | cons d x' =>
        rw [List.cons_append, List.cons_append, List.cons.injEq] at heq
        simpa using hleft other hother x' y' heq.2

end PlaceholderMap
end Citemark
