import Citemark.Proofs.Checked
import Citemark.Proofs.Seam
import Citemark.Proofs.Window

/-!
# The address of a definition

The search for a link tries one place of a window after the other, yet the leftmost opening alone
decides: what follows a later opening also follows the first one, so where the first finds no `)`,
no later one does. The windows cut up all that stands behind the first definition, so an address
comes from the one definition in front of it. A rendered reference can be read back from its
digits and its only `)`.

Results:
* `first?_of_opensFirstAt`: the link of a text, read at its leftmost opening.
* `first?_eq_some_iff_isFirstLink`, `first?_eq_none_iff_opensFirstAt`: when a text has a link.
* `weave_gapsFrom_of_occursFrom`, `tail_gapsFrom_definitions`: the windows cut up the text behind
  its first definition.
* `renderReference_append_inj`: a rendered reference tells number and address.
* `url_of_window`: the address of every definition.
-/

namespace Citemark
namespace Link

/-! ## Openings -/

/-- A link opens in a text: a parenthesis and a scheme, with `before` in front of them and `after`
    behind. -/
def OpensAt (t before scheme after : Text) : Prop :=
  scheme ∈ schemes ∧ t = before ++ '(' :: scheme ++ after

/-- The leftmost of the openings of a text. -/
def OpensFirstAt (t before scheme after : Text) : Prop :=
  OpensAt t before scheme after ∧ ∀ b s a, OpensAt t b s a → before.length ≤ b.length

/-- The link of the leftmost opening: its scheme and what follows in front of the first `)`. -/
def IsFirstLink (t address : Text) : Prop :=
  ∃ before scheme path rest, OpensFirstAt t before scheme (path ++ ')' :: rest) ∧ ')' ∉ path ∧
    address = scheme ++ path

variable {t before scheme after : Text}

theorem opensAt_cons_iff {c : Char} : OpensAt (c :: t) before scheme after ↔
    before = [] ∧ OpensAt (c :: t) [] scheme after ∨
      ∃ b, before = c :: b ∧ OpensAt t b scheme after := by
  unfold OpensAt
  cases before with
  | nil => simp
  | cons d b =>
    simp only [List.cons_append, List.cons.injEq, reduceCtorEq, false_and, false_or]
    constructor
    · intro h
      obtain ⟨hscheme, hd, ht⟩ := h
      exact ⟨b, ⟨hd.symm, rfl⟩, hscheme, ht⟩
    · intro h
      obtain ⟨b', ⟨hd, hb⟩, hscheme, ht⟩ := h
      subst hb
      exact ⟨hscheme, hd.symm, ht⟩

theorem untilParen?_eq_none_iff : untilParen? t = none ↔ ')' ∉ t := by
  induction t with
  | nil => simp [untilParen?]
  | cons c t ih =>
    by_cases hc : c = ')'
    · simp [untilParen?, hc]
    · simp [untilParen?, hc, ih, Ne.symm hc]

theorem untilParen?_append_of_not_mem {s : Text} (h : ')' ∉ s) :
    untilParen? (s ++ t) = (untilParen? t).map (s ++ ·) := by
  induction s with
  | nil => simp
  | cons c s ih =>
    have hc : c ≠ ')' := by
      intro e
      exact h (e ▸ List.mem_cons_self)
    rw [List.cons_append, untilParen?, if_neg hc, ih fun hs => h (List.mem_cons_of_mem _ hs),
      Option.map_map]
    rfl

/-- A link is read at an opening exactly where one stands. -/
theorem read?_of_opensAt (h : OpensAt t [] scheme after) :
    read? t = (untilParen? after).map (scheme ++ ·) := by
  obtain ⟨hscheme, rfl⟩ := h
  have hstarts : hasScheme (scheme ++ after) = true :=
    hasScheme_eq_true_iff.2 ⟨scheme, hscheme, List.prefix_append _ _⟩
  show (if hasScheme (scheme ++ after) = true then untilParen? (scheme ++ after) else none) = _
  rw [if_pos hstarts, untilParen?_append_of_not_mem (not_mem_of_mem_schemes hscheme)]

theorem exists_opensAt_of_read? {address : Text} (h : read? t = some address) :
    ∃ s a, OpensAt t [] s a := by
  obtain ⟨rest, rfl, hscheme, _⟩ := read?_eq_some_iff.1 h
  obtain ⟨s, hs, a, rfl⟩ := hasScheme_eq_true_iff.1 hscheme
  exact ⟨s, a, hs, rfl⟩

/-! ## The leftmost opening -/

/-- Behind a character that starts no opening, the leftmost opening is that of the remaining
    text. -/
theorem opensFirstAt_cons_iff {c : Char} (h : ∀ s a, ¬ OpensAt (c :: t) [] s a) :
    OpensFirstAt (c :: t) before scheme after ↔
      ∃ b, before = c :: b ∧ OpensFirstAt t b scheme after := by
  have hcons : ∀ {b s a}, OpensAt (c :: t) b s a ↔ ∃ b', b = c :: b' ∧ OpensAt t b' s a := by
    intro b s a
    rw [opensAt_cons_iff, or_iff_right fun hnil => h s a hnil.2]
  constructor
  · intro hfirst
    obtain ⟨b, rfl, hopens⟩ := hcons.1 hfirst.1
    refine ⟨b, rfl, hopens, fun b' s a h' => ?_⟩
    exact Nat.le_of_succ_le_succ (hfirst.2 (c :: b') s a (hcons.2 ⟨b', rfl, h'⟩))
  · intro hfirst
    obtain ⟨b, rfl, hopens, hleft⟩ := hfirst
    refine ⟨hcons.2 ⟨b, rfl, hopens⟩, fun b' s a h' => ?_⟩
    obtain ⟨b'', rfl, h''⟩ := hcons.1 h'
    exact Nat.succ_le_succ (hleft b'' s a h'')

theorem exists_opensFirstAt (h : OpensAt t before scheme after) :
    ∃ b s a, OpensFirstAt t b s a := by
  induction t generalizing before with
  | nil =>
    obtain ⟨_, ht⟩ := h
    simp at ht
  | cons c t ih =>
    by_cases hhead : ∃ s a, OpensAt (c :: t) [] s a
    · obtain ⟨s, a, hopens⟩ := hhead
      exact ⟨[], s, a, hopens, fun b _ _ _ => Nat.zero_le b.length⟩
    · have hnot : ∀ s a, ¬ OpensAt (c :: t) [] s a := fun s a hopens => hhead ⟨s, a, hopens⟩
      rcases opensAt_cons_iff.1 h with ⟨_, hopens⟩ | ⟨b, _, hopens⟩
      · exact absurd hopens (hnot _ _)
      · obtain ⟨b', s, a, hfirst⟩ := ih hopens
        exact ⟨c :: b', s, a, (opensFirstAt_cons_iff hnot).2 ⟨b', rfl, hfirst⟩⟩

/-- What stands behind a later opening stands behind the leftmost one, too. -/
theorem OpensFirstAt.not_mem_of_opensAt {b s a : Text} (hfirst : OpensFirstAt t before scheme after)
    (hafter : ')' ∉ after) (h : OpensAt t b s a) : ')' ∉ a := by
  obtain ⟨⟨hscheme, ht⟩, hleft⟩ := hfirst
  have hle := hleft b s a h
  obtain ⟨_, ht'⟩ := h
  rw [ht, List.append_assoc, List.append_assoc] at ht'
  obtain ⟨z, hz⟩ := List.prefix_of_prefix_length_le ⟨_, rfl⟩ ⟨_, ht'.symm⟩ hle
  rw [← hz, List.append_assoc] at ht'
  have hsuffix : a <:+ '(' :: scheme ++ after := by
    rw [List.append_cancel_left ht', ← List.append_assoc]
    exact List.suffix_append _ _
  intro hmem
  have hwhole := hsuffix.subset hmem
  simp [not_mem_of_mem_schemes hscheme, hafter] at hwhole

/-- The leftmost opening decides: if no `)` follows it, none follows a later one. -/
theorem first?_of_opensFirstAt (h : OpensFirstAt t before scheme after) :
    first? t = (untilParen? after).map (scheme ++ ·) := by
  induction before generalizing t with
  | nil =>
    obtain ⟨⟨hscheme, ht⟩, _⟩ := h
    have hread := read?_of_opensAt ⟨hscheme, ht⟩
    rw [List.nil_append, List.cons_append] at ht
    rw [ht] at hread ⊢
    rw [first?, hread]
    cases huntil : untilParen? after with
    | some path => rfl
    | none =>
      have hafter : ')' ∉ scheme ++ after := by
        simp [not_mem_of_mem_schemes hscheme, untilParen?_eq_none_iff.1 huntil]
      refine Option.eq_none_iff_forall_ne_some.2 fun address haddress => ?_
      exact hafter (length_and_mem_of_first? haddress).2
  | cons c b ih =>
    have ht : t = c :: (b ++ '(' :: scheme ++ after) := by simpa using h.1.2
    subst ht
    have hnot : ∀ s a, ¬ OpensAt (c :: (b ++ '(' :: scheme ++ after)) [] s a := by
      intro s a hopens
      exact absurd (h.2 [] s a hopens) (by simp)
    obtain ⟨b', hb, hfirst⟩ := (opensFirstAt_cons_iff hnot).1 h
    obtain rfl : b = b' := List.tail_eq_of_cons_eq hb
    have hread : read? (c :: (b ++ '(' :: scheme ++ after)) = none := by
      refine Option.eq_none_iff_forall_ne_some.2 fun address haddress => ?_
      obtain ⟨s, a, hopens⟩ := exists_opensAt_of_read? haddress
      exact hnot s a hopens
    rw [first?, hread, Option.none_or]
    exact ih hfirst

theorem exists_opensAt_of_first? {address : Text} (h : first? t = some address) :
    ∃ b s a, OpensAt t b s a := by
  induction t with
  | nil => simp [first?] at h
  | cons c t ih =>
    rcases Option.or_eq_some_iff.1 h with hread | ⟨_, hrest⟩
    · obtain ⟨s, a, hopens⟩ := exists_opensAt_of_read? hread
      exact ⟨[], s, a, hopens⟩
    · obtain ⟨b, s, a, hopens⟩ := ih hrest
      exact ⟨c :: b, s, a, opensAt_cons_iff.2 (Or.inr ⟨b, rfl, hopens⟩)⟩

theorem first?_eq_some_iff_isFirstLink {address : Text} :
    first? t = some address ↔ IsFirstLink t address := by
  constructor
  · intro h
    obtain ⟨_, _, _, hopens⟩ := exists_opensAt_of_first? h
    obtain ⟨before, scheme, after, hfirst⟩ := exists_opensFirstAt hopens
    rw [first?_of_opensFirstAt hfirst, Option.map_eq_some_iff] at h
    obtain ⟨path, huntil, rfl⟩ := h
    obtain ⟨hpath, rest, rfl⟩ := untilParen?_eq_some_iff.1 huntil
    exact ⟨before, scheme, path, rest, hfirst, hpath, rfl⟩
  · intro h
    obtain ⟨before, scheme, path, rest, hfirst, hpath, rfl⟩ := h
    rw [first?_of_opensFirstAt hfirst, untilParen?_eq_some_iff.2 ⟨hpath, rest, rfl⟩]
    rfl

theorem first?_eq_none_iff_opensFirstAt : first? t = none ↔ (∀ b s a, ¬ OpensAt t b s a) ∨
    ∃ before scheme after, OpensFirstAt t before scheme after ∧ ')' ∉ after := by
  constructor
  · intro h
    by_cases hopens : ∃ b s a, OpensAt t b s a
    · obtain ⟨_, _, _, hopens⟩ := hopens
      obtain ⟨before, scheme, after, hfirst⟩ := exists_opensFirstAt hopens
      rw [first?_of_opensFirstAt hfirst, Option.map_eq_none_iff, untilParen?_eq_none_iff] at h
      exact Or.inr ⟨before, scheme, after, hfirst, h⟩
    · exact Or.inl fun b s a h => hopens ⟨b, s, a, h⟩
  · intro h
    rcases h with hnone | ⟨before, scheme, after, hfirst, hafter⟩
    · refine Option.eq_none_iff_forall_ne_some.2 fun address haddress => ?_
      obtain ⟨b, s, a, hopens⟩ := exists_opensAt_of_first? haddress
      exact hnone b s a hopens
    · rw [first?_of_opensFirstAt hfirst, untilParen?_eq_none_iff.2 hafter]
      rfl

theorem IsFirstLink.isAddress {address : Text} (h : IsFirstLink t address) : IsAddress address := by
  obtain ⟨_, scheme, path, _, ⟨⟨hscheme, _⟩, _⟩, hpath, rfl⟩ := h
  refine ⟨⟨scheme, hscheme, List.prefix_append _ _⟩, ?_⟩
  simp [not_mem_of_mem_schemes hscheme, hpath]

/-- The link of a text stands in it in parentheses. -/
theorem IsFirstLink.exists_eq_append {address : Text} (h : IsFirstLink t address) :
    ∃ x y, t = x ++ ('(' :: address ++ [')']) ++ y := by
  obtain ⟨before, scheme, path, rest, ⟨⟨_, ht⟩, _⟩, _, rfl⟩ := h
  exact ⟨before, rest, by simp [ht]⟩

end Link

/-! ## Windows -/

/-- The byte that the window of the definition at a position ends at. -/
def windowStop (t : Text) (i : Nat) : Nat :=
  ((definitions t)[i + 1]?.map (·.span.start)).getD t.byteSize

/-- The text in front of the first definition. -/
def foreword (t : Text) : Text :=
  t.slice ⟨0, ((definitions t).head?.map (·.span.start)).getD t.byteSize⟩

/-- Runs between markers and the markers make up the text, for any of its markers in order. -/
theorem weave_gapsFrom_of_occursFrom {t : Text} (front : Text) {rest : Text} {ms : List Marker}
    (hoccurs : ∀ m ∈ ms, m.OccursFrom 0 t)
    (hpairwise : ms.Pairwise fun a b => a.span.stop ≤ b.span.start) (ht : t = front ++ rest)
    (hle : ∀ m ∈ ms, front.byteSize ≤ m.span.start) :
    weave (gapsFrom t front.byteSize ms) (ms.map fun m => m.literal) = rest := by
  induction ms generalizing front rest with
  | nil =>
    have hlast := Text.slice_append front rest []
    rw [List.append_nil, ← Text.byteSize_append, ← ht] at hlast
    simp [gapsFrom, weave, hlast]
  | cons m ms ih =>
    obtain ⟨hm, hlater⟩ := List.forall_mem_cons.1 hoccurs
    obtain ⟨hbehind, hpairwise⟩ := List.pairwise_cons.1 hpairwise
    obtain ⟨_, before, after, hsplit, hstart, hstop⟩ := hm
    have hend : m.span.stop = (before ++ m.literal).byteSize := by
      rw [Text.byteSize_append]
      omega
    have hrest := ih (before ++ m.literal) hlater hpairwise hsplit (hend ▸ hbehind)
    have hfront : front.byteSize ≤ before.byteSize := by
      have := hle m List.mem_cons_self
      omega
    rw [List.append_assoc] at hsplit
    obtain ⟨run, rfl, rfl⟩ := Text.eq_append_of_byteSize_le (ht.symm.trans hsplit) hfront
    have hrun : t.slice ⟨front.byteSize, m.span.start⟩ = run := by
      have hcut := Text.slice_append front run (m.literal ++ after)
      rw [Text.byteSize_append] at hstart
      rw [hstart, Nat.zero_add, ht, ← List.append_assoc]
      exact hcut
    rw [gapsFrom, List.map_cons, weave, hrun, hend, hrest, List.append_assoc]

theorem tail_gapsFrom (t : Text) (cursor : Nat) (ms : List Marker) :
    (gapsFrom t cursor ms).tail =
      ms.mapIdx fun i m => Bibliography.window t m (ms.drop (i + 1)) := by
  induction ms generalizing cursor with
  | nil => rfl
  | cons m ms ih =>
    have hhead : gapsFrom t m.span.stop ms =
        Bibliography.window t m ms :: (gapsFrom t m.span.stop ms).tail := by
      cases ms <;> rfl
    rw [gapsFrom, List.tail_cons, hhead, ih, List.mapIdx_cons]
    rfl

theorem gapsFrom_definitions (t : Text) :
    gapsFrom t 0 (definitions t) = foreword t :: (definitions t).mapIdx fun i d => windowOf t d i := by
  have htail := tail_gapsFrom t 0 (definitions t)
  simp only [Bibliography.window_drop] at htail
  rw [← htail, foreword]
  cases definitions t <;> rfl

/-- The windows cut up the text behind its first definition. -/
theorem weave_windows (t : Text) :
    weave (foreword t :: (definitions t).mapIdx fun i d => windowOf t d i)
      ((definitions t).map fun d => d.literal) = t := by
  have hoccurs : ∀ m ∈ definitions t, m.OccursFrom 0 t := fun m hm =>
    occursFrom_of_mem_scan (List.mem_of_mem_filter hm)
  rw [← gapsFrom_definitions]
  exact weave_gapsFrom_of_occursFrom [] hoccurs ((pairwise_scan t).filter _) rfl
    fun m _ => Nat.zero_le _

section Window

variable {t : Text} {i : Nat} {d : Marker}

/-- The window of a definition stands between its marker and the next definition. -/
theorem exists_eq_append_windowOf (h : (definitions t)[i]? = some d) : ∃ front back,
    t = front ++ windowOf t d i ++ back ∧ front.byteSize = d.span.stop ∧
      front.byteSize + (windowOf t d i).byteSize = windowStop t i := by
  have hoccurs : ∀ m ∈ definitions t, m.OccursFrom 0 t := fun m hm =>
    occursFrom_of_mem_scan (List.mem_of_mem_filter hm)
  have hlater : ∀ next ∈ (definitions t).drop (i + 1), next.OccursFrom 0 t ∧
      d.span.stop ≤ next.span.start := by
    intro next hnext
    refine ⟨hoccurs next (List.mem_of_mem_drop hnext), ?_⟩
    obtain ⟨hlt, rfl⟩ := List.getElem?_eq_some_iff.1 h
    have hpairwise : ((definitions t).drop i).Pairwise fun a b => a.span.stop ≤ b.span.start :=
      ((pairwise_scan t).filter _).drop
    rw [List.drop_eq_getElem_cons hlt] at hpairwise
    exact (List.pairwise_cons.1 hpairwise).1 next hnext
  have hspan : Checked.windowSpan t d ((definitions t).drop (i + 1)) =
      ⟨d.span.stop, windowStop t i⟩ := by
    rw [windowStop, ← List.head?_drop]
    cases (definitions t).drop (i + 1) <;> rfl
  have hsliceable := Checked.isSliceable_windowSpan (hoccurs d (List.mem_of_getElem? h)) hlater
  rw [hspan] at hsliceable
  exact hsliceable.exists_eq_append

/-- An address stands in the window of its definition, parentheses included. -/
theorem exists_eq_append_address (h : (definitions t)[i]? = some d) {address : Text}
    (hlink : Link.IsFirstLink (windowOf t d i) address) : ∃ x y,
      t = x ++ ('(' :: address ++ [')']) ++ y ∧ d.span.stop ≤ x.byteSize ∧
        (x ++ ('(' :: address ++ [')'])).byteSize ≤ windowStop t i := by
  obtain ⟨front, back, ht, hfront, hback⟩ := exists_eq_append_windowOf h
  obtain ⟨x, y, hwindow⟩ := hlink.exists_eq_append
  refine ⟨front ++ x, y ++ back, ?_, ?_, ?_⟩
  · rw [ht, hwindow]
    simp
  · rw [Text.byteSize_append]
    omega
  · rw [hwindow] at hback
    simp only [Text.byteSize_append] at hback ⊢
    omega

end Window

/-! ## Rendered references -/

namespace Citation

variable {c c' : Citation} {url : Text}

/-- The only `)` of a linked reference is its last character. -/
theorem exists_renderReference_eq (h : c.url = some url) (hurl : ')' ∉ url) :
    ∃ front, c.renderReference = front ++ [')'] ∧ ')' ∉ front := by
  refine ⟨['[', '['] ++ Text.ofNat c.index ++ [']', ']', '('] ++ url, ?_, ?_⟩
  · simp only [renderReference, h]
  · simp [Text.not_mem_ofNat, hurl]

/-- The number is in front of the first `]`, and the address in front of the first `)`. -/
theorem renderReference_append_inj {z z' : Text} (hc : ∀ url, c.url = some url → ')' ∉ url)
    (hc' : ∀ url, c'.url = some url → ')' ∉ url)
    (h : c.renderReference ++ z = c'.renderReference ++ z') :
    c.index = c'.index ∧ c.url = c'.url ∧ z = z' := by
  have hnumber : ∀ {x y : Text}, Text.ofNat c.index ++ ']' :: x = Text.ofNat c'.index ++ ']' :: y →
      c.index = c'.index ∧ x = y := by
    intro x y hxy
    obtain ⟨hindex, hrest⟩ := Text.eq_of_cut_eq (Text.not_mem_ofNat (by decide))
      (Text.not_mem_ofNat (by decide)) hxy
    exact ⟨Text.ofNat_inj.1 hindex, hrest⟩
  -- a digit is no bracket, so a linked reference is never a plain one
  have hplain : ∀ (n : Nat) (x y : Text), Text.ofNat n ++ x ≠ '[' :: y := by
    intro n x y hxy
    exact absurd (isDigit_of_ofNat_append hxy) (by decide)
  unfold renderReference at h
  cases hu : c.url with
  | none =>
    cases hu' : c'.url with
    | none =>
      rw [hu, hu'] at h
      obtain ⟨hindex, hz⟩ := hnumber (by simpa using h)
      exact ⟨hindex, rfl, hz⟩
    | some url' =>
      rw [hu, hu'] at h
      exact absurd (by simpa using h) (hplain c.index _ _)
  | some url =>
    cases hu' : c'.url with
    | none =>
      rw [hu, hu'] at h
      exact absurd (by simpa using h.symm) (hplain c'.index _ _)
    | some url' =>
      rw [hu, hu'] at h
      obtain ⟨hindex, hrest⟩ := hnumber (by simpa using h)
      have hcut : url ++ ')' :: z = url' ++ ')' :: z' := by simpa using hrest
      obtain ⟨rfl, hz⟩ := Text.eq_of_cut_eq (hc url hu) (hc' url' hu') hcut
      exact ⟨hindex, rfl, hz⟩

end Citation

/-! ## Addresses -/

theorem isAddress_of_mem_citations {t : Text} {c : Citation}
    (h : c ∈ (bibliography t).citations) {url : Text} (hurl : c.url = some url) :
    Link.IsAddress url := by
  obtain ⟨i, hi⟩ := Array.getElem?_of_mem h
  rw [getElem?_bibliography] at hi
  obtain ⟨d, _, rfl⟩ := Option.map_eq_some_iff.1 hi
  exact (Link.first?_eq_some_iff_isFirstLink.1 hurl).isAddress

/-- **The address of a definition.** The windows cut up the text behind its first definition. The
    citation of a definition has the address that the leftmost opening of its window starts and the
    first `)` behind it ends; it has none if nothing opens there or the leftmost opening stays open,
    for then every later one does, too. An address starts with a scheme, holds no `)`, and stands
    behind its own marker and in front of the next definition. So a linked reference ends with its
    only `)`, and whatever follows a reference, its number and its address can be read back. -/
theorem url_of_window (t : Text) :
    weave (foreword t :: (definitions t).mapIdx fun i d => windowOf t d i)
      ((definitions t).map fun d => d.literal) = t ∧
    (∀ (i : Nat) (d : Marker), (definitions t)[i]? = some d → ∃ c,
      (bibliography t).citations[i]? = some c ∧ c.index = i + 1 ∧ c.span = d.span ∧
      (∃ front back, t = front ++ windowOf t d i ++ back ∧ front.byteSize = d.span.stop ∧
        front.byteSize + (windowOf t d i).byteSize = windowStop t i) ∧
      (∀ url, c.url = some url ↔ Link.IsFirstLink (windowOf t d i) url) ∧
      (c.url = none ↔ (∀ b s a, ¬ Link.OpensAt (windowOf t d i) b s a) ∨
        ∃ b s a, Link.OpensFirstAt (windowOf t d i) b s a ∧ ')' ∉ a) ∧
      (∀ b s a, Link.OpensFirstAt (windowOf t d i) b s a → ')' ∉ a →
        ∀ b' s' a', Link.OpensAt (windowOf t d i) b' s' a' → ')' ∉ a') ∧
      (∀ url, c.url = some url → Link.IsAddress url ∧
        (∃ x y, t = x ++ ('(' :: url ++ [')']) ++ y ∧ d.span.stop ≤ x.byteSize ∧
          (x ++ ('(' :: url ++ [')'])).byteSize ≤ windowStop t i) ∧
        ∃ front, c.renderReference = front ++ [')'] ∧ ')' ∉ front)) ∧
    (∀ (t' : Text) (c c' : Citation), c ∈ (bibliography t).citations →
      c' ∈ (bibliography t').citations → ∀ z z' : Text,
        c.renderReference ++ z = c'.renderReference ++ z' →
          c.index = c'.index ∧ c.url = c'.url ∧ z = z') := by
  refine ⟨weave_windows t, ?_, ?_⟩
  · intro i d h
    have hentry : (bibliography t).citations[i]? = some (entryOf t i d) := by
      rw [getElem?_bibliography, h, Option.map_some]
    have hurl : ∀ url, (entryOf t i d).url = some url ↔ Link.IsFirstLink (windowOf t d i) url :=
      fun _ => Link.first?_eq_some_iff_isFirstLink
    refine ⟨entryOf t i d, hentry, rfl, rfl, exists_eq_append_windowOf h, hurl,
      Link.first?_eq_none_iff_opensFirstAt, ?_, ?_⟩
    · intro b s a hfirst hopen b' s' a' hopens
      exact hfirst.not_mem_of_opensAt hopen hopens
    · intro url hlinked
      have hlink := (hurl url).1 hlinked
      exact ⟨hlink.isAddress, exists_eq_append_address h hlink,
        Citation.exists_renderReference_eq hlinked hlink.isAddress.2⟩
  · intro t' c c' hc hc' z z' h
    exact Citation.renderReference_append_inj
      (fun _ hurl => (isAddress_of_mem_citations hc hurl).2)
      (fun _ hurl => (isAddress_of_mem_citations hc' hurl).2) h

/-- Openings in a name, inside an address, and closed only behind the next definition. -/
def nestedLinks : Text :=
  "[[item:(http://n)]] é (http://a (https://b) c) [[item:b]] (https://u [[item:c]] (http://z)".toList

theorem url_of_nestedLinks :
    (bibliography nestedLinks).citations.toList.map Citation.url =
      [some "http://a (https://b".toList, none, some "http://z".toList] ∧
    Link.IsFirstLink " é (http://a (https://b) c) ".toList "http://a (https://b".toList ∧
    ∃ b s a, Link.OpensFirstAt " (https://u ".toList b s a ∧ ')' ∉ a := by
  have hurls : (bibliography nestedLinks).citations.toList.map Citation.url =
      [some "http://a (https://b".toList, none, some "http://z".toList] := by decide +kernel
  have hwindows : (definitions nestedLinks).mapIdx (fun i d => windowOf nestedLinks d i) =
      [" é (http://a (https://b) c) ".toList, " (https://u ".toList, " (http://z)".toList] := by
    decide +kernel
  have hwindow : ∀ (i : Nat) (w : Text), [" é (http://a (https://b) c) ".toList,
      " (https://u ".toList, " (http://z)".toList][i]? = some w →
        ∃ d, (definitions nestedLinks)[i]? = some d ∧ windowOf nestedLinks d i = w := by
    intro i w hw
    rw [← hwindows, List.getElem?_mapIdx] at hw
    exact Option.map_eq_some_iff.1 hw
  have hurl : ∀ (i : Nat) (c : Citation), (bibliography nestedLinks).citations[i]? = some c →
      [some "http://a (https://b".toList, none, some "http://z".toList][i]? = some c.url := by
    intro i c hc
    rw [← hurls, List.getElem?_map, Array.getElem?_toList, hc]
    rfl
  obtain ⟨_, haddress, _⟩ := url_of_window nestedLinks
  refine ⟨hurls, ?_, ?_⟩
  · obtain ⟨d, hd, hw⟩ := hwindow 0 _ rfl
    obtain ⟨c, hc, _, _, _, hsome, _⟩ := haddress 0 d hd
    rw [← hw]
    exact (hsome _).1 (Option.some.inj (hurl 0 c hc)).symm
  · obtain ⟨d, hd, hw⟩ := hwindow 1 _ rfl
    obtain ⟨c, hc, _, _, _, _, hnone, _⟩ := haddress 1 d hd
    rw [hw] at hnone
    rcases hnone.1 (Option.some.inj (hurl 1 c hc)).symm with hclosed | hopen
    · exact absurd ⟨by decide, rfl⟩ (hclosed [' '] "https://".toList "u ".toList)
    · exact hopen

end Citemark
