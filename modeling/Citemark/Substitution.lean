import Citemark.Pattern
import Citemark.Placeholder

/-!
# Substitution

All tokens of a text are replaced in one pass from left to right: where a token starts, its value
is written and the token skipped; elsewhere one character is copied. What has been written is not
read again. The result is refused if a token occurs in it, since a second pass would then replace
what the first one left. The tokens are searched for as one pattern, so nothing is substituted, in
whatever text, if that pattern is not compiled.

Results:
* `source_fragments`: the fragments of a text make up that text.
* `tokenAt?_eq_some`: a token is found only where it stands, and with the value that the map has.
-/

namespace Citemark

/-- A character that was copied, or a token that was replaced by its value. -/
inductive Fragment where
  | copied (c : Char)
  | replaced (token value : Text)
deriving DecidableEq, Repr

namespace Fragment

/-- What a fragment was before the substitution. -/
def source : Fragment → Text
  | .copied c => [c]
  | .replaced token _ => token

/-- What a fragment is after the substitution. -/
def output : Fragment → Text
  | .copied c => [c]
  | .replaced _ value => value

end Fragment

namespace PlaceholderMap

/-- The first entry whose token stands at the start of a text. The empty token stands nowhere. -/
def tokenAt? (m : PlaceholderMap) (t : Text) : Option (Text × Text) :=
  m.entries.find? fun entry => !entry.1.isEmpty && entry.1.isPrefixOf t

theorem tokenAt?_eq_some {m : PlaceholderMap} {t token value : Text}
    (h : m.tokenAt? t = some (token, value)) :
    (token, value) ∈ m.entries ∧ token ≠ [] ∧ token <+: t := by
  have hmem := List.mem_of_find?_eq_some h
  have hp := List.find?_some h
  simp only [Bool.and_eq_true, Bool.not_eq_eq_eq_not, Bool.not_true, List.isEmpty_eq_false_iff,
    List.isPrefixOf_iff_prefix ] at hp
  exact ⟨hmem, hp⟩

/-- The fragments of a text, from left to right. -/
def fragments (m : PlaceholderMap) : Text → List Fragment
  | [] => []
  | c :: rest =>
    match h : m.tokenAt? (c :: rest) with
    | some (token, value) =>
      have := List.length_pos_iff.2 (tokenAt?_eq_some h).2.1
      .replaced token value :: fragments m ((c :: rest).drop token.length)
    | none => .copied c :: fragments m rest
termination_by t => t.length
decreasing_by
  · simp only [List.length_drop, List.length_cons]
    omega
  · simp

theorem source_fragments (m : PlaceholderMap) (t : Text) :
    (m.fragments t).flatMap Fragment.source = t := by
  fun_induction fragments m t with
  | case1 => rfl
  | case2 c rest token value h _ ih =>
    obtain ⟨tail, htail⟩ := (tokenAt?_eq_some h).2.2
    rw [List.flatMap_cons, ih, ← htail, List.drop_left]
    rfl
  | case3 c rest h ih => rw [List.flatMap_cons, ih]; rfl

/-- The text after one pass, whatever occurs in it. -/
def replaceAll (m : PlaceholderMap) (t : Text) : Text :=
  (m.fragments t).flatMap Fragment.output

/-- The leftmost token of a text. -/
def firstToken? (m : PlaceholderMap) : Text → Option Text
  | [] => none
  | c :: rest => ((m.tokenAt? (c :: rest)).map Prod.fst).or (m.firstToken? rest)

/-- The pattern of the tokens is compiled; without tokens there is none. -/
def Compiles (m : PlaceholderMap) (compiler : PatternCompiler) : Prop :=
  m.isEmpty = true ∨ compiler.refusal? m.tokens = none

instance (m : PlaceholderMap) (compiler : PatternCompiler) : Decidable (m.Compiles compiler) :=
  inferInstanceAs (Decidable (_ ∨ _))

/-- Replaces every token of a text by its value. Refuses an invalid map, tokens whose pattern is not
    compiled, and a text that would still hold a token. -/
def substitute (m : PlaceholderMap) (compiler : PatternCompiler) (t : Text) :
    Except RenderError Text := do
  m.validate
  if m.isEmpty then return t
  match compiler.refusal? m.tokens with
  | some reason => throw (.pattern reason)
  | none =>
    let output := m.replaceAll t
    match m.firstToken? output with
    | some token => throw (.placeholderFormed token)
    | none => return output

end PlaceholderMap
end Citemark
