import Citemark.Proofs.Idempotence
import Citemark.Proofs.Layers

/-!
# Substitution by a pattern search

A pass over a text can be left to a library that searches for patterns: the tokens are escaped,
joined to one pattern of alternatives, which is compiled, and every match is replaced by the value
that the map has for it. Such a search takes the leftmost match, and of several at one place the
alternative that comes first. In a valid map no two tokens start at one place, so the order of the
alternatives has no part in the result, and the pass is that of a plain scanner.

Results:
* `IsValid.replaceAll_eq_iff_scans`: one pass is a scanner that knows no order of the tokens.
* `IsSplit.replaceAll_eq`: the runs and tokens of a text determine what a pass writes.
* `IsValid.exists_isSplit`: the matches of a search, with the runs between them, split a text so.
* `substituteBy_eq`: substitution by a search, with the tokens in any order.
* `substitute_scans`: all that substitution promises about the tokens of a text.
-/

namespace Citemark

/-! ## Searching for alternatives -/

/-- A library that searches for patterns: how it writes a text as a pattern, how it compiles a
    pattern, or why not, and the match that it finds, as the text in front of it, the text matched,
    and the text behind. -/
structure Searcher where
  Pattern : Type
  escape : Text → Text
  compile : Text → Except Text Pattern
  find? : Pattern → Text → Option (Text × Text × Text)

/-- The match is the leftmost one, and of those at its place the preferred one. What is matched where
    a text starts is given in the order of preference. -/
structure IsLeftmostFirst (matchesAt : Text → List Text) (t before found after : Text) : Prop where
  eq : t = before ++ (found ++ after)
  leftmost : ∀ x y, t = x ++ y → x.length < before.length → matchesAt y = []
  preferred : (matchesAt (found ++ after)).head? = some found

namespace Searcher

/-- The pattern of alternatives: each is escaped, and bars stand between them. -/
def alternation (s : Searcher) (alternatives : List Text) : Text :=
  ['|'].intercalate (alternatives.map s.escape)

/-- Why the pattern of alternatives is not compiled, if it is not. -/
def refusal? (s : Searcher) (alternatives : List Text) : Option Text :=
  match s.compile (s.alternation alternatives) with
  | .error reason => some reason
  | .ok _ => none

/-- The compiler of a library. -/
def compiler (s : Searcher) : PatternCompiler := ⟨s.refusal?⟩

/-- What is known of a library about the pattern of some texts, where a pattern matches the texts
    `matchesAt` at the start of a text. -/
structure Reads (s : Searcher) (matchesAt : (pattern t : Text) → List Text)
    (alternatives : List Text) : Prop where
  /-- An escaped text stands for itself and for nothing else. -/
  escape : ∀ a ∈ alternatives, ∀ t, matchesAt (s.escape a) t = if a.isPrefixOf t then [a] else []
  /-- Alternatives match what one of them matches, and prefer the one that comes first. -/
  alternation : alternatives ≠ [] → ∀ t, matchesAt (s.alternation alternatives) t =
    alternatives.flatMap fun a => matchesAt (s.escape a) t
  /-- A search for a compiled pattern is leftmost-first. -/
  search : ∀ pattern, s.compile (s.alternation alternatives) = .ok pattern →
    ∀ t before found after, s.find? pattern t = some (before, found, after) ↔
      IsLeftmostFirst (matchesAt (s.alternation alternatives)) t before found after

/-- The matches of a pattern from left to right, each with the run in front of it, and the run
    behind the last. A search starts where the last match ended. A match of the empty text, which no
    token is, ends the walk. -/
def findAll (s : Searcher) (pattern : s.Pattern) (t : Text) : List (Text × Text) × Text :=
  match s.find? pattern t with
  | none => ([], t)
  | some (before, found, after) =>
    if after.length < t.length then
      let (more, last) := s.findAll pattern after
      ((before, found) :: more, last)
    else ([], t)
termination_by t.length

end Searcher

namespace PlaceholderMap

/-- One pass by a search for a compiled pattern; `none` where a match is no token. -/
def replaceBy (m : PlaceholderMap) (s : Searcher) (pattern : s.Pattern) (t : Text) :
    Option Text := do
  let (found, last) := s.findAll pattern t
  let written ← found.mapM fun (run, token) => (m.get? token).map (run ++ ·)
  return written.flatten ++ last

/-- Substitution by a search, with the tokens in some order; `none` where a match is no token. -/
def substituteBy (m : PlaceholderMap) (s : Searcher) (order : List Text) (t : Text) :
    Option (Except RenderError Text) :=
  match m.validate with
  | .error cause => some (.error cause)
  | .ok () =>
    if m.isEmpty then some (.ok t)
    else
      match s.compile (s.alternation order) with
      | .error reason => some (.error (.pattern reason))
      | .ok pattern => do
        let output ← m.replaceBy s pattern t
        match s.find? pattern output with
        | some (_, formed, _) => return .error (.placeholderFormed formed)
        | none => return .ok output

/-! ## A plain scanner -/

/-- From left to right, a token that starts what remains is skipped and its value written, and a
    character where no token starts is copied. -/
inductive Scans (m : PlaceholderMap) : Text → Text → Prop where
  | nil : Scans m [] []
  | token {token value rest written : Text} (h : m.get? token = some value)
      (hrest : Scans m rest written) : Scans m (token ++ rest) (value ++ written)
  | copy {c : Char} {rest written : Text} (h : ∀ token ∈ m.tokens, ¬ token <+: c :: rest)
      (hrest : Scans m rest written) : Scans m (c :: rest) (c :: written)

variable {m : PlaceholderMap}

theorem mem_tokens_iff_get? {token : Text} :
    token ∈ m.tokens ↔ ∃ value, m.get? token = some value := by
  simp only [mem_tokens, mem_entries_iff]

theorem replaceAll_of_tokenAt?_eq_none {c : Char} {t : Text} (h : m.tokenAt? (c :: t) = none) :
    m.replaceAll (c :: t) = c :: m.replaceAll t := by
  rw [replaceAll, fragments]
  split
  · next heq => exact absurd (h.symm.trans heq) (by simp)
  · rfl

theorem IsValid.tokenAt?_append (hm : m.IsValid) {token value : Text}
    (h : m.get? token = some value) (rest : Text) :
    m.tokenAt? (token ++ rest) = some (token, value) := by
  have htoken : token ∈ m.tokens := mem_tokens_iff_get?.2 ⟨value, h⟩
  cases hat : m.tokenAt? (token ++ rest) with
  | none =>
    have hnone := tokenAt?_eq_none_iff.1 hat token htoken (hm.ne_nil token htoken)
    exact absurd (List.prefix_append _ _) hnone
  | some e =>
    obtain ⟨he, _, hstarts⟩ := tokenAt?_eq_some (hat : _ = some (e.1, e.2))
    have hsame : e.1 = token :=
      hm.token_unique (mem_tokens.2 ⟨_, he⟩) htoken hstarts (List.prefix_append _ _)
    have hvalue := mem_entries_iff.1 he
    rw [hsame, h, Option.some.injEq] at hvalue
    rw [hvalue, ← hsame]

theorem IsValid.replaceAll_token_append (hm : m.IsValid) {token value : Text}
    (h : m.get? token = some value) (rest : Text) :
    m.replaceAll (token ++ rest) = value ++ m.replaceAll rest := by
  have hat := hm.tokenAt?_append h rest
  cases ht : token ++ rest with
  | nil =>
    have hnil := (List.append_eq_nil_iff.1 ht).1
    exact absurd hnil (hm.ne_nil token (mem_tokens_iff_get?.2 ⟨value, h⟩))
  | cons c t =>
    rw [ht] at hat
    rw [replaceAll, fragments]
    split
    · next heq =>
      obtain ⟨rfl, rfl⟩ := Prod.mk.inj (Option.some.inj (hat.symm.trans heq))
      rw [List.flatMap_cons, ← ht, List.drop_left]
      rfl
    · next heq => exact absurd (hat.symm.trans heq) (by simp)

theorem IsValid.scans_replaceAll (hm : m.IsValid) (t : Text) : m.Scans t (m.replaceAll t) := by
  unfold replaceAll
  fun_induction fragments m t with
  | case1 => exact .nil
  | case2 c rest token value hat _ ih =>
    obtain ⟨hentry, _, tail, htail⟩ := tokenAt?_eq_some hat
    rw [← htail, List.drop_left] at ih ⊢
    exact .token (mem_entries_iff.1 hentry) ih
  | case3 c rest hat ih =>
    refine .copy (fun token htoken => ?_) ih
    exact tokenAt?_eq_none_iff.1 hat token htoken (hm.ne_nil token htoken)

theorem IsValid.replaceAll_eq_iff_scans (hm : m.IsValid) {t o : Text} :
    m.replaceAll t = o ↔ m.Scans t o := by
  constructor
  · rintro rfl
    exact hm.scans_replaceAll t
  · intro h
    induction h with
    | nil => rw [replaceAll, fragments, List.flatMap_nil]
    | token h _ ih => rw [hm.replaceAll_token_append h, ih]
    | copy h _ ih =>
      have hnone := tokenAt?_eq_none_iff.2 fun token htoken _ => h token htoken
      rw [replaceAll_of_tokenAt?_eq_none hnone, ih]

/-! ## Runs and tokens -/

end PlaceholderMap

/-- A token of a text with the run in front of it and the value that replaces it. -/
structure Replacement where
  run : Text
  token : Text
  value : Text

namespace Replacement

def source (r : Replacement) : Text := r.run ++ r.token

def output (r : Replacement) : Text := r.run ++ r.value

end Replacement

namespace PlaceholderMap

/-- The text is made up of the replacements and a last run. No token occurs in a run, and none
    starts in one and reaches into the token behind it. Without the last condition a text can be
    split in several ways: with the tokens `ab` and `bc`, the text `abc` is `ab` and the run `c`, but
    also the run `a` and `bc`. -/
structure IsSplit (m : PlaceholderMap) (t : Text) (rs : List Replacement) (last : Text) : Prop where
  eq : t = rs.flatMap Replacement.source ++ last
  get?_token : ∀ r ∈ rs, m.get? r.token = some r.value
  isFree_run : ∀ r ∈ rs, m.IsFree r.run
  isFree_last : m.IsFree last
  leftmost : ∀ r ∈ rs, ∀ token ∈ m.tokens, ∀ x y, r.source = x ++ (token ++ y) →
    r.run.length ≤ x.length

variable {m : PlaceholderMap}

/-- A run is copied when no token starts in it: one that reaches over the token behind would hold
    that token. -/
theorem IsValid.replaceAll_run_append (hm : m.IsValid) {run token : Text} (rest : Text)
    (htoken : token ∈ m.tokens) (hleftmost : ∀ other ∈ m.tokens, ∀ x y,
      run ++ token = x ++ (other ++ y) → run.length ≤ x.length) :
    m.replaceAll (run ++ (token ++ rest)) = run ++ m.replaceAll (token ++ rest) := by
  induction run with
  | nil => rfl
  | cons c run ih =>
    have hnone : m.tokenAt? (c :: (run ++ (token ++ rest))) = none := by
      refine tokenAt?_eq_none_iff.2 fun other hother _ hstarts => ?_
      have hwhole : c :: run ++ token <+: c :: (run ++ (token ++ rest)) := ⟨rest, by simp⟩
      rcases List.prefix_or_prefix_of_prefix hstarts hwhole with ⟨y, hy⟩ | hover
      · exact absurd (hleftmost other hother [] y hy.symm) (by simp)
      · have hwithin : token <:+: other :=
          (List.suffix_append (c :: run) token).isInfix.trans hover.isInfix
        have hsame := hm.eq_of_occurs token htoken other hother hwithin
        have hlength := hover.length_le
        rw [List.length_append, List.length_cons, hsame] at hlength
        omega
    have hrun := ih fun other hother x y heq => by
      have hlonger := hleftmost other hother (c :: x) y (by rw [List.cons_append, heq]; rfl)
      simpa using hlonger
    rw [List.cons_append, replaceAll_of_tokenAt?_eq_none hnone, hrun]
    rfl

theorem IsSplit.replaceAll_eq (hm : m.IsValid) {t last : Text} {rs : List Replacement}
    (h : m.IsSplit t rs last) : m.replaceAll t = rs.flatMap Replacement.output ++ last := by
  obtain ⟨rfl, hvalues, hruns, hlast, hleftmost⟩ := h
  induction rs with
  | nil => exact replaceAll_of_isFree hlast
  | cons r rs ih =>
    have hvalue := hvalues r List.mem_cons_self
    have hrest := ih (fun e he => hvalues e (List.mem_cons_of_mem _ he))
      (fun e he => hruns e (List.mem_cons_of_mem _ he))
      (fun e he => hleftmost e (List.mem_cons_of_mem _ he))
    have hrun := hm.replaceAll_run_append (rs.flatMap Replacement.source ++ last)
      (mem_tokens_iff_get?.2 ⟨_, hvalue⟩) (hleftmost r List.mem_cons_self)
    rw [hm.replaceAll_token_append hvalue, hrest] at hrun
    simpa [Replacement.source, Replacement.output] using hrun

end PlaceholderMap

/-! ## Matches -/

/-- The match is the leftmost one of any alternative, and of the alternatives that match there the
    first. -/
structure IsFirstMatch (alternatives : List Text) (t before found after : Text) : Prop where
  eq : t = before ++ (found ++ after)
  leftmost : ∀ a ∈ alternatives, ∀ x y, t = x ++ (a ++ y) → before.length ≤ x.length
  first : alternatives.find? (·.isPrefixOf (found ++ after)) = some found

/-- Where the alternatives that start a text are what is matched there, the leftmost and preferred
    match is the leftmost one of the first alternative. -/
theorem isLeftmostFirst_filter_iff {alternatives : List Text} {t before found after : Text} :
    IsLeftmostFirst (fun t => alternatives.filter (·.isPrefixOf t)) t before found after ↔
      IsFirstMatch alternatives t before found after := by
  constructor
  · rintro ⟨heq, hleftmost, hpreferred⟩
    rw [List.head?_filter] at hpreferred
    refine ⟨heq, fun a ha x y hxy => Nat.le_of_not_lt fun hlt => ?_, hpreferred⟩
    have hnone := List.filter_eq_nil_iff.1 (hleftmost x (a ++ y) hxy hlt) a ha
    exact hnone (List.isPrefixOf_iff_prefix.2 (List.prefix_append a y))
  · rintro ⟨heq, hleftmost, hfirst⟩
    refine ⟨heq, fun x y hxy hlt => List.filter_eq_nil_iff.2 fun a ha hstarts => ?_, ?_⟩
    · obtain ⟨z, rfl⟩ := List.isPrefixOf_iff_prefix.1 hstarts
      exact absurd (hleftmost a ha x z hxy) (Nat.not_le.2 hlt)
    · rw [List.head?_filter]
      exact hfirst

/-- The search for alternatives, place by place. -/
def firstMatch? (alternatives : List Text) : Text → Option (Text × Text × Text)
  | [] => (alternatives.find? (·.isPrefixOf [])).map fun found => ([], found, [])
  | c :: rest =>
    match alternatives.find? (·.isPrefixOf (c :: rest)) with
    | some found => some ([], found, (c :: rest).drop found.length)
    | none => (firstMatch? alternatives rest).map fun (before, found, after) =>
        (c :: before, found, after)

section Match

variable {alternatives : List Text} {t before found after : Text}

theorem prefix_of_find?_eq_some {a : Text} (h : alternatives.find? (·.isPrefixOf t) = some a) :
    a <+: t := by
  simpa using List.find?_some h

theorem isFirstMatch_of_find?_eq_some {a : Text}
    (h : alternatives.find? (·.isPrefixOf t) = some a) :
    IsFirstMatch alternatives t before found after ↔
      before = [] ∧ found = a ∧ after = t.drop a.length := by
  obtain ⟨rest, rfl⟩ := prefix_of_find?_eq_some h
  constructor
  · rintro ⟨heq, hleftmost, hfirst⟩
    obtain rfl : before = [] :=
      List.eq_nil_of_length_eq_zero
        (Nat.le_zero.1 (hleftmost a (List.mem_of_find?_eq_some h) [] rest rfl))
    rw [List.nil_append] at heq
    rw [← heq, h, Option.some.injEq] at hfirst
    subst hfirst
    exact ⟨rfl, rfl, by rw [List.drop_left]; exact (List.append_cancel_left heq).symm⟩
  · rintro ⟨rfl, rfl, rfl⟩
    rw [List.drop_left]
    exact ⟨rfl, fun _ _ _ _ _ => Nat.zero_le _, h⟩

theorem isFirstMatch_cons_of_find?_eq_none {c : Char}
    (h : alternatives.find? (·.isPrefixOf (c :: t)) = none) :
    IsFirstMatch alternatives (c :: t) before found after ↔
      ∃ x, before = c :: x ∧ IsFirstMatch alternatives t x found after := by
  have hnone : ∀ a ∈ alternatives, ∀ y, c :: t ≠ a ++ y := fun a ha y heq =>
    List.find?_eq_none.1 h a ha (List.isPrefixOf_iff_prefix.2 ⟨y, heq.symm⟩)
  constructor
  · rintro ⟨heq, hleftmost, hfirst⟩
    cases before with
    | nil => exact absurd heq (hnone found (List.mem_of_find?_eq_some hfirst) after)
    | cons d x =>
      obtain ⟨rfl, ht⟩ := List.cons.inj heq
      refine ⟨x, rfl, ht, fun a ha y z hyz => ?_, hfirst⟩
      have hlonger := hleftmost a ha (c :: y) z (by rw [hyz]; rfl)
      simpa using hlonger
  · rintro ⟨x, rfl, heq, hleftmost, hfirst⟩
    refine ⟨by rw [heq]; rfl, fun a ha y z hyz => ?_, hfirst⟩
    cases y with
    | nil => exact absurd hyz (hnone a ha z)
    | cons d y => simpa using hleftmost a ha y z (List.cons.inj hyz).2

theorem firstMatch?_eq_some_iff : firstMatch? alternatives t = some (before, found, after) ↔
    IsFirstMatch alternatives t before found after := by
  induction t generalizing before with
  | nil =>
    rw [firstMatch?]
    cases h : alternatives.find? (·.isPrefixOf []) with
    | some a => simp [isFirstMatch_of_find?_eq_some h, eq_comm]
    | none =>
      have hnone : ¬ IsFirstMatch alternatives [] before found after := by
        rintro ⟨heq, _, hfirst⟩
        rw [(List.append_eq_nil_iff.1 heq.symm).2, h] at hfirst
        exact absurd hfirst (by simp)
      simp [hnone]
  | cons c t ih =>
    rw [firstMatch?]
    cases h : alternatives.find? (·.isPrefixOf (c :: t)) with
    | some a => simp [isFirstMatch_of_find?_eq_some h, eq_comm]
    | none =>
      simp only [isFirstMatch_cons_of_find?_eq_none h, Option.map_eq_some_iff, Prod.exists,
        Prod.mk.injEq]
      constructor
      · rintro ⟨x, _, _, hmatch, rfl, rfl, rfl⟩
        exact ⟨x, rfl, ih.1 hmatch⟩
      · rintro ⟨x, rfl, hmatch⟩
        exact ⟨x, _, _, ih.2 hmatch, rfl, rfl, rfl⟩

/-- The search fails exactly when no alternative occurs. -/
theorem firstMatch?_eq_none_iff :
    firstMatch? alternatives t = none ↔ ∀ a ∈ alternatives, ¬ a <:+: t := by
  induction t with
  | nil => simp [firstMatch?, List.find?_eq_none]
  | cons c t ih =>
    rw [firstMatch?]
    cases h : alternatives.find? (·.isPrefixOf (c :: t)) with
    | some a =>
      have hstarts := prefix_of_find?_eq_some h
      simp only [reduceCtorEq, false_iff, not_forall]
      exact ⟨a, List.mem_of_find?_eq_some h, not_not_intro hstarts.isInfix⟩
    | none =>
      have hnone : ∀ a ∈ alternatives, ¬ a <+: c :: t := fun a ha hstarts =>
        List.find?_eq_none.1 h a ha (List.isPrefixOf_iff_prefix.2 hstarts)
      simp only [Option.map_eq_none_iff, ih, List.infix_cons_iff, not_or]
      exact ⟨fun h a ha => ⟨hnone a ha, h a ha⟩, fun h a ha => (h a ha).2⟩

end Match

theorem filter_eq_flatMap (p : Text → Bool) (alternatives : List Text) :
    alternatives.filter p = alternatives.flatMap fun a => if p a then [a] else [] := by
  induction alternatives with
  | nil => rfl
  | cons a alternatives ih => cases h : p a <;> simp [h, ih]

namespace Searcher.Reads

variable {s : Searcher} {matchesAt : Text → Text → List Text} {alternatives : List Text}

theorem matchesAt_alternation (hs : s.Reads matchesAt alternatives) (hne : alternatives ≠ [])
    (t : Text) :
    matchesAt (s.alternation alternatives) t = alternatives.filter (·.isPrefixOf t) := by
  rw [hs.alternation hne, filter_eq_flatMap]
  refine List.flatMap_congr fun a ha => ?_
  exact hs.escape a ha t

theorem find?_eq_some_iff (hs : s.Reads matchesAt alternatives) (hne : alternatives ≠ [])
    {pattern : s.Pattern} (hpattern : s.compile (s.alternation alternatives) = .ok pattern)
    {t before found after : Text} : s.find? pattern t = some (before, found, after) ↔
      IsFirstMatch alternatives t before found after := by
  rw [hs.search pattern hpattern, ← isLeftmostFirst_filter_iff,
    funext (hs.matchesAt_alternation hne)]

theorem find?_eq (hs : s.Reads matchesAt alternatives) (hne : alternatives ≠ [])
    {pattern : s.Pattern} (hpattern : s.compile (s.alternation alternatives) = .ok pattern)
    (t : Text) : s.find? pattern t = firstMatch? alternatives t :=
  Option.ext fun ⟨_, _, _⟩ =>
    (hs.find?_eq_some_iff hne hpattern).trans firstMatch?_eq_some_iff.symm

end Searcher.Reads

/-! ## Escaped texts -/

/-- The characters that have a meaning of their own in a pattern. -/
def metacharacters : List Char := "\\.+*?()|[]\x7b\x7d^$#&-~".toList

/-- Puts a backslash in front of every character with a meaning of its own. -/
def escapeLiteral (t : Text) : Text :=
  t.flatMap fun c => if c ∈ metacharacters then ['\\', c] else [c]

/-- The alternatives of a pattern in which nothing but bars and backslashes has a meaning. -/
def alternativesOf : Text → List Text
  | [] => [[]]
  | '\\' :: c :: rest => (alternativesOf rest).modifyHead (c :: ·)
  | c :: rest =>
    if c = '|' then [] :: alternativesOf rest else (alternativesOf rest).modifyHead (c :: ·)

theorem alternativesOf_escapeLiteral_append (a rest : Text) :
    alternativesOf (escapeLiteral a ++ rest) = (alternativesOf rest).modifyHead (a ++ ·) := by
  induction a with
  | nil => cases h : alternativesOf rest <;> simp [escapeLiteral, h]
  | cons c a ih =>
    have hcons : alternativesOf (escapeLiteral (c :: a) ++ rest) =
        (alternativesOf (escapeLiteral a ++ rest)).modifyHead (c :: ·) := by
      by_cases hc : c ∈ metacharacters
      · simp [escapeLiteral, hc, alternativesOf]
      · have hslash : c ≠ '\\' := by
          rintro rfl
          exact hc (by decide)
        have hbar : c ≠ '|' := by
          rintro rfl
          exact hc (by decide)
        simp [escapeLiteral, hc, alternativesOf, hslash, hbar]
    rw [hcons, ih]
    cases alternativesOf rest <;> rfl

theorem alternativesOf_intercalate {alternatives : List Text} (h : alternatives ≠ []) :
    alternativesOf (['|'].intercalate (alternatives.map escapeLiteral)) = alternatives := by
  induction alternatives with
  | nil => exact absurd rfl h
  | cons a as ih =>
    cases as with
    | nil =>
      have hlast := alternativesOf_escapeLiteral_append a []
      simpa [List.intercalate, alternativesOf] using hlast
    | cons b as =>
      have hrest := ih (by simp)
      have hsplit : ['|'].intercalate ((a :: b :: as).map escapeLiteral) =
          escapeLiteral a ++ '|' :: ['|'].intercalate ((b :: as).map escapeLiteral) := by
        simp [List.intercalate]
      have hbar : ∀ z, alternativesOf ('|' :: z) = [] :: alternativesOf z := by
        simp [alternativesOf]
      rw [hsplit, alternativesOf_escapeLiteral_append, hbar, hrest]
      simp

theorem alternativesOf_escapeLiteral (a : Text) : alternativesOf (escapeLiteral a) = [a] := by
  have halternatives := alternativesOf_escapeLiteral_append a []
  simpa [alternativesOf] using halternatives

/-- The search for escaped texts and alternatives of them. Every pattern is compiled. -/
def literalSearcher : Searcher where
  Pattern := List Text
  escape := escapeLiteral
  compile pattern := .ok (alternativesOf pattern)
  find? := firstMatch?

/-- What a pattern of escaped texts matches: its alternatives where they stand. -/
def literalMatches (pattern t : Text) : List Text := (alternativesOf pattern).filter (·.isPrefixOf t)

theorem literalMatches_escapeLiteral (a t : Text) :
    literalMatches (escapeLiteral a) t = if a.isPrefixOf t then [a] else [] := by
  rw [literalMatches, alternativesOf_escapeLiteral, List.filter_singleton]
  exact Bool.cond_eq_ite _ _ _

theorem reads_literalSearcher (alternatives : List Text) :
    literalSearcher.Reads literalMatches alternatives where
  escape a _ t := literalMatches_escapeLiteral a t
  alternation hne t := by
    show (alternativesOf (['|'].intercalate (alternatives.map escapeLiteral))).filter _ = _
    rw [alternativesOf_intercalate hne, filter_eq_flatMap]
    exact List.flatMap_congr fun a _ => (literalMatches_escapeLiteral a t).symm
  search pattern hpattern t before found after := by
    obtain rfl := Except.ok.inj hpattern
    exact firstMatch?_eq_some_iff.trans isLeftmostFirst_filter_iff.symm

/-- Steps that all succeed give their results in order. -/
theorem mapM_map_eq_some {α β γ : Type} {f : α → β} {g : β → Option γ} {h : α → γ} {xs : List α}
    (hsome : ∀ x ∈ xs, g (f x) = some (h x)) : (xs.map f).mapM g = some (xs.map h) := by
  induction xs with
  | nil => rfl
  | cons x xs ih =>
    have hrest := ih fun y hy => hsome y (List.mem_cons_of_mem _ hy)
    simp [List.mapM_cons, hsome x List.mem_cons_self, hrest]

namespace PlaceholderMap

/-! ## Passes by a search -/

section Order

variable {m : PlaceholderMap} {s : Searcher} {matchesAt : Text → Text → List Text}
  {order : List Text} {pattern : s.Pattern}

/-- The matches of all tokens of a valid map, with their values, are the replacements of a pass. -/
theorem IsValid.exists_isSplit (hm : m.IsValid) (hs : s.Reads matchesAt order) (hne : order ≠ [])
    (horder : order.Perm m.tokens) (hpattern : s.compile (s.alternation order) = .ok pattern)
    (t : Text) :
    ∃ rs, (s.findAll pattern t).1 = rs.map (fun r => (r.run, r.token)) ∧
      m.IsSplit t rs (s.findAll pattern t).2 := by
  fun_induction s.findAll pattern t with
  | case1 t hnone =>
    rw [hs.find?_eq hne hpattern, firstMatch?_eq_none_iff] at hnone
    have hfree : m.IsFree t := fun token htoken => hnone token (horder.mem_iff.2 htoken)
    exact ⟨[], rfl, rfl, by simp, by simp, hfree, by simp⟩
  | case2 t before found after hfind hlt more last hmore ih =>
    rw [hmore] at ih
    obtain ⟨rs, hrs, heq, hvalues, hruns, hlast, hleftmost⟩ := ih
    dsimp only at hrs heq hlast
    obtain ⟨ht, hfirst, hfound⟩ := (hs.find?_eq_some_iff hne hpattern).1 hfind
    have htoken : found ∈ m.tokens := horder.mem_iff.1 (List.mem_of_find?_eq_some hfound)
    obtain ⟨value, hvalue⟩ := mem_tokens_iff_get?.1 htoken
    -- what starts in the run starts in front of the match
    have hrun : ∀ token ∈ m.tokens, ∀ x y, before ++ found = x ++ (token ++ y) →
        before.length ≤ x.length := fun token htoken x y hxy =>
      hfirst token (horder.mem_iff.2 htoken) x (y ++ after) (by
        rw [ht, ← List.append_assoc, hxy]
        simp)
    have hfree : m.IsFree before := by
      rintro token htoken ⟨x, y, hxy⟩
      have hle := hrun token htoken x (y ++ found) (by rw [← hxy]; simp)
      have hpos := List.length_pos_iff.2 (hm.ne_nil token htoken)
      rw [← hxy, List.length_append, List.length_append] at hle
      omega
    refine ⟨⟨before, found, value⟩ :: rs, by rw [hrs]; rfl, ?_,
      List.forall_mem_cons.2 ⟨hvalue, hvalues⟩, List.forall_mem_cons.2 ⟨hfree, hruns⟩, hlast,
      List.forall_mem_cons.2 ⟨hrun, hleftmost⟩⟩
    rw [ht, heq]
    simp [Replacement.source]
  | case3 t before found after hfind hge =>
    obtain ⟨ht, _, hfound⟩ := (hs.find?_eq_some_iff hne hpattern).1 hfind
    have htoken : found ∈ m.tokens := horder.mem_iff.1 (List.mem_of_find?_eq_some hfound)
    have hpos := List.length_pos_iff.2 (hm.ne_nil found htoken)
    rw [ht, List.length_append, List.length_append] at hge
    omega

/-- Every match has a value, and a pass by a search is a pass. -/
theorem IsValid.replaceBy_eq (hm : m.IsValid) (hs : s.Reads matchesAt order) (hne : order ≠ [])
    (horder : order.Perm m.tokens) (hpattern : s.compile (s.alternation order) = .ok pattern)
    (t : Text) : m.replaceBy s pattern t = some (m.replaceAll t) := by
  obtain ⟨rs, hrs, hsplit⟩ := hm.exists_isSplit hs hne horder hpattern t
  have hwritten : (rs.map fun r => (r.run, r.token)).mapM
      (fun (run, token) => (m.get? token).map (run ++ ·)) = some (rs.map Replacement.output) :=
    mapM_map_eq_some fun r hr => by simp [hsplit.get?_token r hr, Replacement.output]
  rw [replaceBy, hsplit.replaceAll_eq hm]
  simp only [hrs, hwritten]
  rfl

/-- The first match in a text is its leftmost token. -/
theorem IsValid.map_find?_eq_firstToken? (hm : m.IsValid) (hs : s.Reads matchesAt order)
    (hne : order ≠ []) (horder : order.Perm m.tokens)
    (hpattern : s.compile (s.alternation order) = .ok pattern) (t : Text) :
    (s.find? pattern t).map (·.2.1) = m.firstToken? t := by
  cases hfind : s.find? pattern t with
  | none =>
    rw [hs.find?_eq hne hpattern, firstMatch?_eq_none_iff] at hfind
    exact (hm.firstToken?_eq_none_iff.2 fun token htoken =>
      hfind token (horder.mem_iff.2 htoken)).symm
  | some found =>
    obtain ⟨before, found, after⟩ := found
    obtain ⟨ht, hleftmost, hfound⟩ := (hs.find?_eq_some_iff hne hpattern).1 hfind
    have htoken : found ∈ m.tokens := horder.mem_iff.1 (List.mem_of_find?_eq_some hfound)
    cases hfirst : m.firstToken? t with
    | none =>
      have hwithin : found <:+: t := ⟨before, after, by rw [ht, List.append_assoc]⟩
      exact absurd hwithin (hm.firstToken?_eq_none_iff.1 hfirst found htoken)
    | some token =>
      obtain ⟨hmem, x, y, hxy, hleft⟩ := hm.isLeftmost_of_firstToken? hfirst
      have hle := hleftmost token (horder.mem_iff.2 hmem) x y (by rw [hxy, List.append_assoc])
      obtain ⟨hge, hsame⟩ := hleft found htoken before after (by rw [ht, List.append_assoc])
      rw [Option.map_some, hsame (Nat.le_antisymm hle hge)]

/-- Substitution by a search finds a value for every match, and of the order of the tokens in the
    pattern its result shows only whether the pattern is compiled. -/
theorem substituteBy_eq (hs : s.Reads matchesAt order) (horder : order.Perm m.tokens)
    {compiler : PatternCompiler} (hcompiler : compiler.refusal? m.tokens = s.refusal? order)
    (t : Text) : m.substituteBy s order t = some (m.substitute compiler t) := by
  unfold substituteBy
  cases hvalidate : m.validate with
  | error cause =>
    simp only [substitute, hvalidate]
    rfl
  | ok =>
    have hm := validate_eq_ok_iff.1 hvalidate
    by_cases hempty : m.isEmpty = true
    · simp only [substitute, hvalidate, hempty]
      rfl
    · have hne : order ≠ [] := by
        rintro rfl
        have hnil : m.entries = [] := List.map_eq_nil_iff.1 (List.nil_perm.1 horder)
        exact hempty (List.isEmpty_iff.2 hnil)
      cases hpattern : s.compile (s.alternation order) with
      | error reason =>
        have hrefusal : compiler.refusal? m.tokens = some reason := by
          rw [hcompiler, Searcher.refusal?, hpattern]
        rw [if_neg hempty, substitute_of_refusal hvalidate (Bool.not_eq_true _ ▸ hempty) hrefusal]
      | ok pattern =>
        have hcompiles : m.Compiles compiler := .inr (by
          rw [hcompiler, Searcher.refusal?, hpattern])
        have hfirst := hm.map_find?_eq_firstToken? hs hne horder hpattern (m.replaceAll t)
        simp only [if_neg hempty, hm.replaceBy_eq hs hne horder hpattern,
          substitute_eq hvalidate hcompiles, ← hfirst, Option.bind_eq_bind, Option.bind_some]
        cases s.find? pattern (m.replaceAll t) <;> rfl

end Order

/-- Every text is split by the tokens of a valid map, as some search for them finds. -/
theorem IsValid.exists_split {m : PlaceholderMap} (hm : m.IsValid) (t : Text) :
    ∃ rs last, m.IsSplit t rs last := by
  by_cases hnil : m.tokens = []
  · exact ⟨[], t, rfl, by simp, by simp, by simp [IsFree, hnil], by simp⟩
  · obtain ⟨rs, _, hsplit⟩ :=
      hm.exists_isSplit (reads_literalSearcher m.tokens) hnil (List.Perm.refl _) rfl t
    exact ⟨rs, _, hsplit⟩

/-- **Substitution is a plain scan for tokens.** A search for the tokens, in whatever order they are
    joined to a pattern, gives the same substitution, since at every place at most one token stands.
    One pass writes what the scanner writes. So a text is runs and tokens in turn, where no token
    occurs in a run, and the pass writes the runs and the values of those tokens. Several such splits
    of one text may exist where tokens overlap; the pass is that of the one whose tokens are not
    overlapped from the left. -/
theorem substitute_scans {m : PlaceholderMap} (hvalid : m.validate = .ok ()) {s : Searcher}
    {matchesAt : (pattern t : Text) → List Text}
    (hs : ∀ order : List Text, order.Perm m.tokens → s.Reads matchesAt order) (t : Text) :
    (∀ order : List Text, order.Perm m.tokens →
      (∀ compiler : PatternCompiler, compiler.refusal? m.tokens = s.refusal? order →
        m.substituteBy s order t = some (m.substitute compiler t)) ∧
      (order ≠ [] → ∀ pattern, s.compile (s.alternation order) = .ok pattern →
        m.replaceBy s pattern t = some (m.replaceAll t))) ∧
    (∀ x y, t = x ++ y → ∀ a ∈ m.tokens, ∀ b ∈ m.tokens, a <+: y → b <+: y → a = b) ∧
    (∀ o, m.replaceAll t = o ↔ m.Scans t o) ∧
    (∃ (rs : List Replacement) (last : Text), t = rs.flatMap Replacement.source ++ last ∧
      (∀ r ∈ rs, m.get? r.token = some r.value) ∧ (∀ r ∈ rs, m.IsFree r.run) ∧ m.IsFree last ∧
      m.replaceAll t = rs.flatMap Replacement.output ++ last) ∧
    (∀ o, m.replaceAll t = o ↔
      ∃ rs last, m.IsSplit t rs last ∧ o = rs.flatMap Replacement.output ++ last) := by
  have hm := validate_eq_ok_iff.1 hvalid
  obtain ⟨rs, last, hsplit⟩ := hm.exists_split t
  have hwritten := hsplit.replaceAll_eq hm
  refine ⟨fun order horder => ⟨fun compiler hcompiler =>
    substituteBy_eq (hs order horder) horder hcompiler t, fun hne pattern hpattern =>
      hm.replaceBy_eq (hs order horder) hne horder hpattern t⟩, ?_,
    fun o => hm.replaceAll_eq_iff_scans,
    ⟨rs, last, hsplit.eq, hsplit.get?_token, hsplit.isFree_run, hsplit.isFree_last, hwritten⟩,
    fun o => ⟨?_, ?_⟩⟩
  · rintro x y - a ha b hb hstarts hstarts'
    exact hm.token_unique ha hb hstarts hstarts'
  · rintro rfl
    exact ⟨rs, last, hsplit, hwritten⟩
  · rintro ⟨rs, last, hsplit, rfl⟩
    exact hsplit.replaceAll_eq hm

end PlaceholderMap

namespace PlaceholderMap

/-- Tokens that would match other texts if they were not escaped. -/
def punctuationMap : PlaceholderMap :=
  .ofList [(".*".toList, "dot".toList), ("a|b".toList, "bar".toList)]

theorem substitute_punctuation :
    punctuationMap.validate = .ok () ∧
    (∀ order : List Text, order.Perm punctuationMap.tokens →
      literalSearcher.Reads literalMatches order) ∧
    ∀ order : List Text, order.Perm punctuationMap.tokens →
      punctuationMap.substituteBy literalSearcher order "aa|b.*b".toList =
        some (.ok "abardotb".toList) := by
  have hvalid : punctuationMap.validate = .ok () := by decide
  have hreads : ∀ order : List Text, order.Perm punctuationMap.tokens →
      literalSearcher.Reads literalMatches order := fun order _ => reads_literalSearcher order
  obtain ⟨hby, _⟩ := substitute_scans hvalid hreads "aa|b.*b".toList
  have hreplaced : punctuationMap.replaceAll "aa|b.*b".toList = "abardotb".toList := by
    decide +kernel
  have hfree : punctuationMap.firstToken? "abardotb".toList = none := by decide
  have hcompiles : punctuationMap.Compiles literalSearcher.compiler := .inr rfl
  refine ⟨hvalid, hreads, fun order horder => ?_⟩
  rw [(hby order horder).1 literalSearcher.compiler rfl, substitute_eq hvalid hcompiles, hreplaced,
    hfree]

end PlaceholderMap
end Citemark
