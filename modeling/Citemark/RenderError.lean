import Citemark.Text

/-!
# Errors of rendering

Citations alone never fail; these are the ways in which rendering a template can: a placeholder map
that is not well defined, tokens whose pattern is not compiled, a text that substitution would have
to change twice, and warnings in strict mode.
-/

namespace Citemark

/-- Why a template could not be rendered. -/
inductive RenderError where
  /-- A placeholder token is the empty text. -/
  | emptyPlaceholder
  /-- The token `first` occurs within the token `second`. -/
  | overlappingPlaceholders (first second : Text)
  /-- The value of `token` contains the token `contained`. -/
  | recursivePlaceholder (token contained : Text)
  /-- A value and the text beside it make up a token. -/
  | placeholderFormed (token : Text)
  /-- The pattern of the tokens is not compiled. -/
  | pattern (reason : Text)
  /-- There were warnings in strict mode. -/
  | strict (count : Nat)
deriving DecidableEq, Repr

/-- The wording of an error. -/
def RenderError.message : RenderError → Text
  | .emptyPlaceholder => "Placeholder token must not be empty".toList
  | .overlappingPlaceholders first second =>
    "Placeholder tokens overlap: '".toList ++ first ++ "' occurs within '".toList ++ second ++
      "'".toList
  | .recursivePlaceholder token contained =>
    "Replacement for '".toList ++ token ++ "' contains placeholder token '".toList ++ contained ++
      "'".toList
  | .placeholderFormed token =>
    "Substitution formed placeholder token '".toList ++ token ++ "' from adjacent text".toList
  | .pattern reason => "Invalid placeholder pattern: ".toList ++ reason
  | .strict count => Text.ofNat count ++ " warning(s) reported in strict mode".toList

end Citemark
