import Citemark.Proofs.Validity
import Mathlib.Data.List.SplitBy

/-!
# Idempotence of substitution

One pass writes copied runs and values side by side. Neither holds a token, so what a second pass
would replace has formed across an edge between them. A second pass changes every text with a token:
a value that is shorter than its token lets what follows move up, and no later value can make up for
that without a token of its own. All this is about maps whose pattern is compiled; with another map
substitution refuses every text.

Results:
* `IsValid.isFree_of_mem_pieces`: no token occurs in a copied run or in a value.
* `infix_or_straddles`: an occurrence lies in one piece or begins in front of an edge and ends behind.
* `eq_nil_of_lag`: a pass leaves a text alone only by copying it.
* `substitute_eq`, `substitute_of_refusal`: substitution with and without a compiled pattern.
* `substitute_accepts_fixed_points`: which texts are refused, and that accepted ones are settled.
* `substitute_longMap`: a text that no second pass would change may be refused for a large token.
-/

namespace Citemark

namespace Fragment

def isCopied : Fragment → Bool
  | .copied _ => true
  | .replaced _ _ => false

/-- Copied fragments are after the substitution what they were before. -/
theorem flatMap_output_of_isCopied {fs : List Fragment} (h : ∀ f ∈ fs, f.isCopied = true) :
    fs.flatMap output = fs.flatMap source := by
  induction fs with
  | nil => rfl
  | cons f fs ih =>
    rw [List.flatMap_cons, List.flatMap_cons, ih fun g hg => h g (List.mem_cons_of_mem _ hg)]
    have hf := h f List.mem_cons_self
    cases f with
    | copied c => rfl
    | replaced token value => exact Bool.noConfusion hf

end Fragment

/-! ## Occurrences across an edge -/

/-- The occurrence of a token behind `x` begins in front of an edge of the pieces and ends behind
    it. -/
def Straddles (pieces : List Text) (x token y : Text) : Prop :=
  ∃ (left right : List Text) (a b : Text), pieces = left ++ right ∧ token = a ++ b ∧ a ≠ [] ∧
    b ≠ [] ∧ left.flatten = x ++ a ∧ right.flatten = b ++ y

theorem Straddles.cons {pieces : List Text} {x token y : Text} (p : Text)
    (h : Straddles pieces x token y) : Straddles (p :: pieces) (p ++ x) token y := by
  obtain ⟨left, right, a, b, rfl, rfl, ha, hb, hleft, hright⟩ := h
  refine ⟨p :: left, right, a, b, rfl, rfl, ha, hb, ?_, hright⟩
  rw [List.flatten_cons, hleft, List.append_assoc]

/-- What occurs in a text of several pieces occurs in one of them or straddles an edge. -/
theorem infix_or_straddles {pieces : List Text} {x token y : Text} (hne : token ≠ [])
    (h : pieces.flatten = x ++ token ++ y) :
    (∃ p ∈ pieces, token <:+: p) ∨ Straddles pieces x token y := by
  induction pieces generalizing x with
  | nil => simp [hne] at h
  | cons p pieces ih =>
    -- what the remaining pieces say is said of all of them
    have hrest : ∀ {z : Text}, x = p ++ z → pieces.flatten = z ++ token ++ y →
        (∃ q ∈ p :: pieces, token <:+: q) ∨ Straddles (p :: pieces) x token y := by
      rintro z rfl hz
      rcases ih hz with ⟨q, hq, hwithin⟩ | hstraddles
      · exact Or.inl ⟨q, List.mem_cons_of_mem _ hq, hwithin⟩
      · exact Or.inr (hstraddles.cons p)
    rw [List.flatten_cons, List.append_assoc] at h
    rcases List.append_eq_append_iff.1 h with ⟨z, hx, hz⟩ | ⟨z, rfl, hz⟩
    · exact hrest hx (by rw [hz, List.append_assoc])
    · rcases List.append_eq_append_iff.1 hz with ⟨u, rfl, _⟩ | ⟨u, rfl, hu⟩
      · exact Or.inl ⟨_, List.mem_cons_self, ⟨x, u, by simp⟩⟩
      · by_cases hz : z = []
        · subst hz
          have hx : x = x ++ [] ++ [] := by simp
          exact hrest hx (by simpa using hu)
        by_cases hu' : u = []
        · subst hu'
          exact Or.inl ⟨x ++ z, List.mem_cons_self, by simpa using (List.suffix_append x z).isInfix⟩
        exact Or.inr ⟨[x ++ z], pieces, z, u, rfl, rfl, hz, hu', by simp, hu⟩

namespace PlaceholderMap

/-! ## Runs and values -/

/-- The fragments of a text, grouped: copied characters that stand side by side make one run, and
    each value is on its own. -/
def groups (m : PlaceholderMap) (t : Text) : List (List Fragment) :=
  (m.fragments t).splitBy fun a b => a.isCopied && b.isCopied

/-- The copied runs and the values that one pass writes. -/
def pieces (m : PlaceholderMap) (t : Text) : List Text :=
  (m.groups t).map fun g => g.flatMap Fragment.output

theorem flatten_pieces (m : PlaceholderMap) (t : Text) : (m.pieces t).flatten = m.replaceAll t := by
  have hgroups : (m.groups t).flatten = m.fragments t := List.flatten_splitBy _ _
  rw [pieces, ← List.flatMap_def, replaceAll, ← hgroups, List.flatten_eq_flatMap,
    List.flatMap_assoc]
  rfl

/-- A fragment next to another one of its group is copied. -/
theorem forall_isCopied_of_isChain {f g : Fragment} {fs : List Fragment}
    (h : (f :: g :: fs).IsChain fun a b => (a.isCopied && b.isCopied) = true) :
    ∀ x ∈ f :: g :: fs, x.isCopied = true := by
  induction fs generalizing f g with
  | nil =>
    rw [List.isChain_cons_cons, Bool.and_eq_true] at h
    intro x hx
    simp only [List.mem_cons, List.not_mem_nil, or_false] at hx
    rcases hx with rfl | rfl
    · exact h.1.1
    · exact h.1.2
  | cons g' fs ih =>
    rw [List.isChain_cons_cons, Bool.and_eq_true] at h
    intro x hx
    rcases List.mem_cons.1 hx with rfl | hx
    · exact h.1.1
    · exact ih h.2 x hx

theorem group_cases {m : PlaceholderMap} {t : Text} {g : List Fragment} (h : g ∈ m.groups t) :
    (∃ token value, g = [.replaced token value]) ∨ ∀ f ∈ g, f.isCopied = true := by
  have hchain := List.isChain_of_mem_splitBy h
  cases g with
  | nil => exact Or.inr (by simp)
  | cons f g =>
    cases g with
    | cons f' g => exact Or.inr (forall_isCopied_of_isChain hchain)
    | nil =>
      cases f with
      | copied c => exact Or.inr (by simp [Fragment.isCopied])
      | replaced token value => exact Or.inl ⟨token, value, rfl⟩

/-! ## Where a token can be -/

theorem tokenAt?_eq_none_mono {m : PlaceholderMap} {s t : Text} (h : s <+: t)
    (ht : m.tokenAt? t = none) : m.tokenAt? s = none := by
  rw [tokenAt?_eq_none_iff] at ht ⊢
  exact fun token htoken hne hstarts => ht token htoken hne (hstarts.trans h)

/-- Where a character is copied, no token stands. -/
theorem tokenAt?_of_copied {m : PlaceholderMap} {t : Text} {before after : List Fragment} {c : Char}
    (h : m.fragments t = before ++ .copied c :: after) :
    m.tokenAt? (c :: after.flatMap Fragment.source) = none := by
  fun_induction fragments m t generalizing before with
  | case1 => simp at h
  | case2 c' rest token value _ _ ih =>
    cases before with
    | nil => simp at h
    | cons f before => exact ih (List.cons.inj h).2
  | case3 c' rest hnone ih =>
    cases before with
    | nil =>
      obtain ⟨hc, rfl⟩ := List.cons.inj h
      rw [source_fragments, ← Fragment.copied.inj hc]
      exact hnone
    | cons f before => exact ih (List.cons.inj h).2

theorem mem_entries_of_replaced {m : PlaceholderMap} {t token value : Text}
    (h : .replaced token value ∈ m.fragments t) : (token, value) ∈ m.entries := by
  fun_induction fragments m t with
  | case1 => simp at h
  | case2 c rest token' value' hat _ ih =>
    rcases List.mem_cons.1 h with h | h
    · obtain ⟨rfl, rfl⟩ := Fragment.replaced.inj h
      exact (tokenAt?_eq_some hat).1
    · exact ih h
  | case3 c rest _ ih =>
    rcases List.mem_cons.1 h with h | h
    · simp at h
    · exact ih h

/-- A copied run holds no token, since the pass would have replaced it. -/
theorem IsValid.isFree_of_isCopied {m : PlaceholderMap} (hm : m.IsValid) {t : Text}
    {before run after : List Fragment} (h : m.fragments t = before ++ run ++ after)
    (hrun : ∀ f ∈ run, f.isCopied = true) : m.IsFree (run.flatMap Fragment.output) := by
  induction run generalizing before with
  | nil => exact hm.isFree_nil
  | cons f run ih =>
    have htail : ∀ g ∈ run, g.isCopied = true := fun g hg => hrun g (List.mem_cons_of_mem _ hg)
    cases f with
    | replaced token value => exact Bool.noConfusion (hrun _ List.mem_cons_self)
    | copied c =>
      have hcons : m.fragments t = before ++ .copied c :: (run ++ after) := by simpa using h
      have hnone := tokenAt?_of_copied hcons
      refine hm.isFree_cons_iff.2 ⟨tokenAt?_eq_none_mono ?_ hnone, ?_⟩
      · rw [List.flatMap_append, ← Fragment.flatMap_output_of_isCopied htail, ← List.cons_append]
        exact List.prefix_append _ _
      · have happend : m.fragments t = before ++ [.copied c] ++ run ++ after := by simpa using h
        exact ih happend htail

/-- No token occurs in a copied run or in a value. -/
theorem IsValid.isFree_of_mem_pieces {m : PlaceholderMap} (hm : m.IsValid) {t p : Text}
    (hp : p ∈ m.pieces t) : m.IsFree p := by
  obtain ⟨g, hg, rfl⟩ := List.mem_map.1 hp
  obtain ⟨before, after, hsplit⟩ := List.append_of_mem hg
  have hfragments : m.fragments t = before.flatten ++ g ++ after.flatten := by
    rw [← List.flatten_splitBy (fun a b => a.isCopied && b.isCopied) (m.fragments t), ← groups,
      hsplit, List.flatten_append, List.flatten_cons, List.append_assoc]
  rcases group_cases hg with ⟨token, value, rfl⟩ | hcopied
  · have hentry : (token, value) ∈ m.entries :=
      mem_entries_of_replaced (t := t) (by rw [hfragments]; simp)
    rw [List.flatMap_singleton]
    exact hm.not_infix_value _ hentry
  · exact hm.isFree_of_isCopied hfragments hcopied

/-! ## Fixed points -/

/-- Sources that lag behind their outputs never catch up: a value that ends in front of its token
    leaves a lag, and one that reaches over its token would hold it. -/
theorem eq_nil_of_lag {lag : Text} {fs : List Fragment}
    (hfs : ∀ token value, .replaced token value ∈ fs → ¬ token <:+: value)
    (h : lag ++ fs.flatMap Fragment.source = fs.flatMap Fragment.output) :
    lag = [] ∧ ∀ f ∈ fs, f.isCopied = true := by
  induction fs generalizing lag with
  | nil => simpa using h
  | cons f fs ih =>
    have hrest : ∀ token value, .replaced token value ∈ fs → ¬ token <:+: value :=
      fun token value hmem => hfs token value (List.mem_cons_of_mem _ hmem)
    rw [List.flatMap_cons, List.flatMap_cons, ← List.append_assoc] at h
    cases f with
    | copied c =>
      cases lag with
      | nil =>
        obtain ⟨_, hcopied⟩ := ih hrest ((List.nil_append _).trans (List.cons.inj h).2)
        exact ⟨rfl, List.forall_mem_cons.2 ⟨rfl, hcopied⟩⟩
      | cons d lag =>
        have hnil : lag ++ [c] = [] := (ih hrest (List.cons.inj h).2).1
        exact absurd hnil (by simp)
    | replaced token value =>
      have htoken := hfs token value List.mem_cons_self
      simp only [Fragment.source, Fragment.output] at h
      rcases List.append_eq_append_iff.1 h with ⟨z, hvalue, _⟩ | ⟨z, hlag, hz⟩
      · exact absurd ⟨lag, z, hvalue.symm⟩ htoken
      · obtain ⟨rfl, _⟩ := ih hrest hz.symm
        rw [List.append_nil] at hlag
        exact absurd (hlag ▸ (List.suffix_append lag token).isInfix) htoken

theorem replaceAll_of_isFree {m : PlaceholderMap} {t : Text} (h : m.IsFree t) :
    m.replaceAll t = t := by
  unfold replaceAll
  fun_induction fragments m t with
  | case1 => rfl
  | case2 c rest token value hat _ ih =>
    obtain ⟨hentry, _, hstarts⟩ := tokenAt?_eq_some hat
    exact absurd hstarts.isInfix (h token (mem_tokens.2 ⟨value, hentry⟩))
  | case3 c rest _ ih =>
    rw [List.flatMap_cons, ih fun token htoken hwithin =>
      h token htoken (hwithin.trans (List.suffix_cons c rest).isInfix)]
    rfl

/-- A pass leaves a text alone exactly when no token occurs in it. -/
theorem IsValid.replaceAll_eq_self_iff {m : PlaceholderMap} (hm : m.IsValid) {t : Text} :
    m.replaceAll t = t ↔ m.IsFree t := by
  refine ⟨fun h => ?_, replaceAll_of_isFree⟩
  have hvalues : ∀ token value, .replaced token value ∈ m.fragments t → ¬ token <:+: value := by
    intro token value hmem
    have hentry := mem_entries_of_replaced hmem
    exact hm.not_infix_value _ hentry token (mem_tokens.2 ⟨value, hentry⟩)
  have hsource : [] ++ (m.fragments t).flatMap Fragment.source =
      (m.fragments t).flatMap Fragment.output := by
    rw [List.nil_append, source_fragments]
    exact h.symm
  obtain ⟨_, hcopied⟩ := eq_nil_of_lag hvalues hsource
  have hwhole : m.fragments t = [] ++ m.fragments t ++ [] := by simp
  have hfree := hm.isFree_of_isCopied hwhole hcopied
  rwa [← replaceAll, h] at hfree

/-! ## Substitution -/

section Substitution

variable {m : PlaceholderMap} {compiler : PatternCompiler}

/-- What substitution does once the pattern is compiled. -/
theorem substitute_eq (hm : m.validate = .ok ()) (hcompiles : m.Compiles compiler) (t : Text) :
    m.substitute compiler t = match m.firstToken? (m.replaceAll t) with
      | some token => .error (.placeholderFormed token)
      | none => .ok (m.replaceAll t) := by
  unfold substitute
  rw [hm]
  by_cases hempty : m.isEmpty = true
  · have hfree : m.IsFree t := by
      have hnil : m.entries = [] := List.isEmpty_iff.1 hempty
      simp [IsFree, tokens, hnil]
    rw [replaceAll_of_isFree hfree, (validate_eq_ok_iff.1 hm).firstToken?_eq_none_iff.2 hfree]
    simp only [hempty]
    rfl
  · have hnone := hcompiles.resolve_left hempty
    simp only [hempty, hnone]
    rfl

theorem substitute_of_refusal (hm : m.validate = .ok ()) (hne : m.isEmpty = false) {reason : Text}
    (hrefusal : compiler.refusal? m.tokens = some reason) (t : Text) :
    m.substitute compiler t = .error (.pattern reason) := by
  unfold substitute
  rw [hm]
  simp only [hne, hrefusal]
  rfl

theorem exists_refusal_of_not_compiles (h : ¬ m.Compiles compiler) :
    m.isEmpty = false ∧ ∃ reason, compiler.refusal? m.tokens = some reason := by
  rw [Compiles, not_or, Bool.not_eq_true] at h
  exact ⟨h.1, Option.ne_none_iff_exists'.1 h.2⟩

theorem compiles_of_substitute {t o : Text} (h : m.substitute compiler t = .ok o) :
    m.validate = .ok () ∧ m.Compiles compiler := by
  have hm : m.validate = .ok () := by
    cases hvalidate : m.validate with
    | ok => rfl
    | error cause =>
      rw [substitute, hvalidate] at h
      exact nomatch h
  refine ⟨hm, Decidable.byContradiction fun hnot => ?_⟩
  obtain ⟨hne, reason, hrefusal⟩ := exists_refusal_of_not_compiles hnot
  exact absurd ((substitute_of_refusal hm hne hrefusal t).symm.trans h) (by simp)

end Substitution

/-- **Substitution refuses exactly the texts that a second pass would change.** Every occurrence of a
    token in the result of one pass straddles an edge between copied runs and values. If the pattern
    of the tokens is not compiled, no text is substituted. If it is, the result is returned exactly
    when another pass leaves it alone, and else the leftmost token is named. What is returned holds
    no token, and substitution returns it unchanged. -/
theorem substitute_accepts_fixed_points {m : PlaceholderMap} (hm : m.validate = .ok ())
    (compiler : PatternCompiler) (t : Text) :
    ((m.pieces t).flatten = m.replaceAll t ∧ (∀ p ∈ m.pieces t, m.IsFree p) ∧
      ∀ token ∈ m.tokens, ∀ x y, m.replaceAll t = x ++ token ++ y →
        Straddles (m.pieces t) x token y) ∧
    (∀ reason, m.isEmpty = false → compiler.refusal? m.tokens = some reason →
      m.substitute compiler t = .error (.pattern reason)) ∧
    (m.Compiles compiler →
      (m.substitute compiler t = .ok (m.replaceAll t) ↔
        m.replaceAll (m.replaceAll t) = m.replaceAll t) ∧
      (m.replaceAll (m.replaceAll t) ≠ m.replaceAll t → ∃ token,
        m.IsLeftmost (m.replaceAll t) token ∧
          m.substitute compiler t = .error (.placeholderFormed token))) ∧
    (∀ o, m.substitute compiler t = .ok o → m.IsFree o ∧ m.substitute compiler o = .ok o) := by
  have hvalid := validate_eq_ok_iff.1 hm
  -- the pass is accepted when its result is free of tokens
  have haccept : m.Compiles compiler → ∀ s, m.IsFree (m.replaceAll s) →
      m.substitute compiler s = .ok (m.replaceAll s) := by
    intro hcompiles s hfree
    rw [substitute_eq hm hcompiles, hvalid.firstToken?_eq_none_iff.2 hfree]
  have hreject : m.Compiles compiler → ¬ m.IsFree (m.replaceAll t) →
      ∃ token, m.IsLeftmost (m.replaceAll t) token ∧
        m.substitute compiler t = .error (.placeholderFormed token) := by
    intro hcompiles hoccurs
    rw [← hvalid.firstToken?_eq_none_iff] at hoccurs
    obtain ⟨token, htoken⟩ := Option.ne_none_iff_exists'.1 hoccurs
    exact ⟨token, hvalid.isLeftmost_of_firstToken? htoken,
      by rw [substitute_eq hm hcompiles, htoken]⟩
  have haccepted : ∀ o, m.substitute compiler t = .ok o → o = m.replaceAll t ∧ m.IsFree o := by
    intro o ho
    have hcompiles := (compiles_of_substitute ho).2
    by_cases hfree : m.IsFree (m.replaceAll t)
    · rw [haccept hcompiles t hfree, Except.ok.injEq] at ho
      exact ⟨ho.symm, ho ▸ hfree⟩
    · obtain ⟨token, _, herror⟩ := hreject hcompiles hfree
      exact absurd (herror.symm.trans ho) (by simp)
  refine ⟨⟨m.flatten_pieces t, fun p hp => hvalid.isFree_of_mem_pieces hp, ?_⟩, ?_, ?_, ?_⟩
  · intro token htoken x y hxy
    rcases infix_or_straddles (hvalid.ne_nil _ htoken) ((m.flatten_pieces t).trans hxy) with
      ⟨p, hp, hwithin⟩ | hstraddles
    · exact absurd hwithin (hvalid.isFree_of_mem_pieces hp token htoken)
    · exact hstraddles
  · exact fun reason hne hrefusal => substitute_of_refusal hm hne hrefusal t
  · intro hcompiles
    simp only [ne_eq, hvalid.replaceAll_eq_self_iff]
    exact ⟨⟨fun h => (haccepted _ h).2, haccept hcompiles t⟩, hreject hcompiles⟩
  · intro o ho
    obtain ⟨_, hfree⟩ := haccepted o ho
    have hfixed := hvalid.replaceAll_eq_self_iff.2 hfree
    refine ⟨hfree, ?_⟩
    rw [haccept (compiles_of_substitute ho).2 o (by rwa [hfixed]), hfixed]

/-- A token whose value is the beginning of a token. -/
def bracketMap : PlaceholderMap := ofList [("[[A]]".toList, "[[".toList)]

theorem substitute_bracketMap :
    bracketMap.validate = .ok () ∧ bracketMap.Compiles .standard ∧
    (∃ token, bracketMap.IsLeftmost (bracketMap.replaceAll "[[A]]A]]".toList) token ∧
      bracketMap.substitute .standard "[[A]]A]]".toList = .error (.placeholderFormed token)) ∧
    bracketMap.substitute .standard "[[A]]B]]".toList = .ok "[[B]]".toList := by
  have hvalid : bracketMap.validate = .ok () := by decide
  have hcompiles : bracketMap.Compiles .standard := by decide
  have hformed : bracketMap.replaceAll "[[A]]A]]".toList = "[[A]]".toList := by cbv
  have hchanged : bracketMap.replaceAll "[[A]]".toList = "[[".toList := by cbv
  have honce : bracketMap.replaceAll "[[A]]B]]".toList = "[[B]]".toList := by cbv
  have hfixed : bracketMap.replaceAll "[[B]]".toList = "[[B]]".toList := by cbv
  obtain ⟨_, _, hformedOf, _⟩ :=
    substitute_accepts_fixed_points hvalid .standard "[[A]]A]]".toList
  obtain ⟨_, _, hfixedOf, _⟩ := substitute_accepts_fixed_points hvalid .standard "[[A]]B]]".toList
  obtain ⟨_, hreject⟩ := hformedOf hcompiles
  obtain ⟨haccept, _⟩ := hfixedOf hcompiles
  rw [honce] at haccept
  refine ⟨hvalid, hcompiles, hreject ?_, haccept.2 hfixed⟩
  rw [hformed, hchanged]
  decide

/-! ## Patterns that are too large -/

theorem entries_ofList_singleton (token value : Text) :
    (ofList [(token, value)]).entries = [(token, value)] := rfl

/-- One token makes a valid map if it is not empty and does not occur in its value. -/
theorem validate_ofList_singleton {token value : Text} (hne : token ≠ [])
    (hvalue : ¬ token <:+: value) : (ofList [(token, value)]).validate = .ok () := by
  rw [validate_eq_ok_iff]
  refine ⟨?_, ?_, ?_⟩
  · simpa [tokens, entries_ofList_singleton] using hne
  · simp [tokens, entries_ofList_singleton]
  · simpa [tokens, entries_ofList_singleton] using hvalue

/-- A token above the size of a pattern is not compiled. -/
theorem substitute_ofList_singleton_of_large {token value : Text}
    (hvalid : (ofList [(token, value)]).validate = .ok ())
    (hlarge : PatternCompiler.sizeLimit < PatternCompiler.stateSize * token.byteSize) (t : Text) :
    (ofList [(token, value)]).substitute .standard t =
      .error (.pattern PatternCompiler.tooLarge) := by
  refine substitute_of_refusal hvalid rfl ?_ t
  have hcount : 1 < PatternCompiler.tableThreshold := by decide
  simp [PatternCompiler.standard, tokens, entries_ofList_singleton, hlarge, hcount]

/-- One token of 500000 letters. -/
def longMap : PlaceholderMap := ofList [(List.replicate 500000 'a', ['x'])]

/-- The token does not occur in the text, so a second pass would change nothing; but its pattern is
    not compiled. -/
theorem substitute_longMap : longMap.validate = .ok () ∧
    longMap.replaceAll (longMap.replaceAll "hello".toList) = longMap.replaceAll "hello".toList ∧
    longMap.substitute .standard "hello".toList =
      .error (.pattern PatternCompiler.tooLarge) := by
  have hlength : ∀ t : Text, t.length < 500000 → ¬ List.replicate 500000 'a' <:+: t := by
    intro t hshort hwithin
    have hle := hwithin.length_le
    rw [List.length_replicate] at hle
    omega
  have hne : List.replicate 500000 'a' ≠ [] := by
    rw [ne_eq, List.replicate_eq_nil_iff]
    decide
  have hvalid : longMap.validate = .ok () :=
    validate_ofList_singleton hne (hlength ['x'] (by decide))
  have hfree : longMap.IsFree "hello".toList := by
    rw [IsFree, tokens, longMap, entries_ofList_singleton, List.forall_mem_map,
      List.forall_mem_singleton]
    exact hlength _ (by decide)
  refine ⟨hvalid, by rw [replaceAll_of_isFree hfree, replaceAll_of_isFree hfree], ?_⟩
  refine substitute_ofList_singleton_of_large hvalid ?_ _
  rw [Text.byteSize_replicate]
  decide

end PlaceholderMap
end Citemark
