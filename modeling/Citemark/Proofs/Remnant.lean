import Citemark.Proofs.Seam

/-!
# Markers in the rendered text

Which markers a scan finds in what resolution has written: those that stay because no definition has
their name, and those that start in an address that a citation has copied.

Results:
* `exists_host`: a marker of the rendered text starts in a marker that stays, or in an address.
* `mem_scan_append_opening`: what is in front of an address has no part in the markers behind.
* `isSettled_resolve_iff`: when no marker with a definition is left.
* `not_isSettled_link_target`: an address that brings a marker along.
-/

namespace Citemark

/-! ## Where a marker starts -/

/-- The marker starts in a passage that begins at byte `start`: in a marker that stays, or in the
    address of a citation. -/
def Passage.Hosts (start : Nat) (m : Marker) : Passage → Prop
  | .kept k => start ≤ m.span.start ∧ m.span.start < start + k.literal.byteSize
  | .cited c => ∃ url, c.url = some url ∧ start + c.opening.byteSize ≤ m.span.start ∧
      m.span.start < start + c.opening.byteSize + url.byteSize
  | _ => False

theorem hosts_of_start_lt {p : Passage} {base : Nat} {z : Text} {m : Marker}
    (hp : ∀ c, p ≠ .copied c) (h : m.OccursFrom base (p.output ++ z))
    (hlt : m.span.start < base + p.output.byteSize) : p.Hosts base m := by
  cases p with
  | copied c => exact absurd rfl (hp c)
  | numbered c =>
    have := c.inert_renderDefinition.le_start h
    exact absurd hlt (by simpa [Passage.output] using this)
  | cited c =>
    cases hurl : c.url with
    | none =>
      have := (Citation.inert_renderReference hurl).le_start h
      exact absurd hlt (by simpa [Passage.output] using this)
    | some url =>
      simp only [Passage.output, Citation.renderReference_of_url hurl, List.append_assoc] at h hlt
      have hopening := c.inert_opening.le_start h
      refine ⟨url, hurl, hopening, ?_⟩
      apply Nat.lt_of_not_le
      intro hle
      -- behind the address only the closing parenthesis is left
      have hclose := (h.of_prepend hopening).of_prepend hle
      have hinert : Inert [')'] := inert_of_not_mem (by decide)
      have := hinert.le_start hclose
      simp only [Text.byteSize_append] at hlt
      omega
  | kept k => exact ⟨h.base_le, hlt⟩

theorem exists_host {b : Bibliography} {offset base : Nat} {t : Text} {m : Marker}
    (h : m.OccursFrom base (Passage.textOf (b.passagesFrom offset (Document.ofText t)))) :
    ∃ before p after, b.passagesFrom offset (Document.ofText t) = before ++ p :: after ∧
      p.Hosts (base + (Passage.textOf before).byteSize) m := by
  fun_induction Document.ofText t generalizing offset base with
  | case1 => exact absurd h Marker.not_occursFrom_nil
  | case2 c rest m₀ rest' hread _ ih =>
    rw [Bibliography.passagesFrom, Passage.textOf_cons] at h
    rw [Bibliography.passagesFrom]
    generalize hp : b.passage ⟨m₀, ⟨offset, offset + m₀.literal.byteSize⟩⟩ = p at h ⊢
    by_cases hlt : m.span.start < base + p.output.byteSize
    · refine ⟨[], p, _, rfl, hosts_of_start_lt ?_ h hlt⟩
      rintro c rfl
      rcases b.passage_cases ⟨m₀, ⟨offset, offset + m₀.literal.byteSize⟩⟩ with
        ⟨_, hc⟩ | ⟨_, hc⟩ | hc <;> simp [hp] at hc
    · obtain ⟨before, q, after, hps, hq⟩ := ih (h.of_prepend (by omega))
      refine ⟨p :: before, q, after, by rw [hps]; rfl, ?_⟩
      rw [Passage.textOf_cons, Text.byteSize_append, ← Nat.add_assoc]
      exact hq
  | case3 c rest hread ih =>
    rw [Bibliography.passagesFrom, Passage.textOf_cons] at h
    rw [Bibliography.passagesFrom]
    have hnone := read?_cons_textOf b (offset + c.utf8Size) hread
    obtain ⟨before, q, after, hps, hq⟩ := ih ((Marker.occursFrom_cons_of_none hnone).1 h)
    refine ⟨.copied c :: before, q, after, by rw [hps]; rfl, ?_⟩
    rw [Passage.textOf_cons, Text.byteSize_append, ← Nat.add_assoc]
    exact hq

/-! ## Addresses -/

section Address

variable {before z : Text} {c : Citation} {m : Marker}

/-- The first `]` of an opening ends every marker that starts in front of the address. -/
theorem stop_le_of_opening (h : m.OccursFrom 0 (before ++ c.opening ++ z))
    (hlt : m.span.start < 0 + (before ++ c.opening).byteSize) :
    m.span.stop ≤ 0 + (before ++ c.opening).byteSize := by
  have hbefore : m.span.start < before.byteSize := by
    apply Nat.lt_of_not_le
    intro hle
    rw [List.append_assoc] at h
    have hopening := h.of_prepend (by omega)
    have := c.inert_opening.le_start hopening
    rw [Text.byteSize_append] at hlt
    omega
  have hcut : before ++ c.opening ++ z =
      (before ++ '[' :: '[' :: Text.ofNat c.index) ++ ']' :: ']' :: '(' :: z := by
    simp [Citation.opening]
  rw [hcut] at h
  have hstop := h.stop_le (by rw [Text.byteSize_append]; omega)
  have hsize : Text.byteSize ['(', ']', ']'] = 3 := rfl
  simp only [Citation.opening, Text.byteSize_append, Text.byteSize_cons, Text.byteSize_nil]
    at hstop ⊢
  have hbracket : (']' : Char).utf8Size = 1 := rfl
  omega

/-- What is in front of an address has no part in the markers that start behind. -/
theorem mem_scan_append_opening (hstart : (before ++ c.opening).byteSize ≤ m.span.start) :
    m ∈ scan (before ++ c.opening ++ z) ↔ ∃ m' ∈ scan z, m'.toMark = m.toMark ∧
      (before ++ c.opening).byteSize + m'.span.start = m.span.start ∧
      (before ++ c.opening).byteSize + m'.span.stop = m.span.stop := by
  rw [mem_scan_iff, Marker.isLongestFrom_append_iff (fun o ho => stop_le_of_opening ho) (by omega),
    ← Document.mem_markersFrom_iff, Nat.add_comm 0, Document.markersFrom_add, ← scan,
    List.mem_map]
  constructor
  · rintro ⟨m', hm', rfl⟩
    exact ⟨m', hm', rfl, rfl, rfl⟩
  · rintro ⟨m', hm', hmark, hstart', hstop'⟩
    refine ⟨m', hm', ?_⟩
    rw [hmark, hstart', hstop']

end Address

/-! ## Settled texts -/

/-- A rendered text is settled when its markers are references to names that the source does not
    define. -/
def IsSettled (t output : Text) : Prop :=
  ∀ m ∈ scan output, m.isReference = true ∧ ¬ IsDefined t m.name

/-- A marker that starts in one that stays is that one. -/
theorem toMark_eq_of_kept {before z : Text} {k : Mark} {m : Marker} (hk : ']' ∉ k.name)
    (hm : m ∈ scan (before ++ (k.literal ++ z))) (hstart : before.byteSize ≤ m.span.start)
    (hlt : m.span.start < before.byteSize + k.literal.byteSize) : m.toMark = k := by
  obtain ⟨hoccurs, hlongest⟩ := mem_scan_iff.1 hm
  have hfirst := (Marker.occursFrom_first (0 + before.byteSize) z hk).prepend before
  have hstop := hfirst.stop_eq hoccurs (by simpa [Marker.first] using hstart)
    (by simpa [Marker.first] using hlt)
  have hspan := hlongest _ hfirst (by simpa [Marker.first] using hstart) (Nat.le_of_eq hstop.symm)
  rw [← hfirst.eq_of_span_eq hoccurs hspan]
  rfl

/-- **What is left in a rendered text.** It is written passage by passage, and it is settled exactly
    when no address that a citation copies starts a marker with a definition. -/
theorem isSettled_resolve_iff (t : Text) (strict : Bool) :
    (resolve t strict).text = Passage.textOf (passages t) ∧
    (IsSettled t (resolve t strict).text ↔
      ∀ before after c url, passages t = before ++ .cited c :: after → c.url = some url →
        ∀ m ∈ scan (url ++ ')' :: Passage.textOf after), m.span.start < url.byteSize →
          m.isReference = true ∧ ¬ IsDefined t m.name) := by
  have htext := text_resolve_passages t strict
  -- at a citation with an address, the text is what is in front, the opening and the address
  have hcited : ∀ {before after : List Passage} {c : Citation} {url : Text},
      passages t = before ++ .cited c :: after → c.url = some url →
      (resolve t strict).text =
        Passage.textOf before ++ c.opening ++ (url ++ ')' :: Passage.textOf after) := by
    intro before after c url hps hurl
    rw [htext, hps, Passage.textOf_append, Passage.textOf_cons, Passage.output,
      Citation.renderReference_of_url hurl]
    simp
  refine ⟨htext, ?_, ?_⟩
  · intro hsettled before after c url hps hurl m hm _
    obtain ⟨hkind, hname⟩ := hsettled ⟨m.toMark,
      ⟨(Passage.textOf before ++ c.opening).byteSize + m.span.start,
        (Passage.textOf before ++ c.opening).byteSize + m.span.stop⟩⟩ <| by
      rw [hcited hps hurl]
      exact (mem_scan_append_opening (Nat.le_add_right _ _)).2 ⟨m, hm, rfl, rfl, rfl⟩
    exact ⟨hkind, hname⟩
  · intro haddress m hm
    have hoccurs := (mem_scan_iff.1 hm).1
    rw [htext] at hoccurs
    obtain ⟨before, p, after, hps, hhost⟩ := exists_host hoccurs
    rw [← passages] at hps
    cases p with
    | copied c => exact hhost.elim
    | numbered c => exact hhost.elim
    | cited c =>
      obtain ⟨url, hurl, hstart, hlt⟩ := hhost
      rw [hcited hps hurl] at hm
      rw [Nat.zero_add, ← Text.byteSize_append] at hstart hlt
      obtain ⟨m', hm', hmark, hstart', _⟩ := (mem_scan_append_opening hstart).1 hm
      obtain ⟨hkind, hname⟩ := haddress before after c url hps hurl m' hm' (by omega)
      rw [← hmark]
      exact ⟨by simpa [Marker.isReference, hmark] using hkind, hname⟩
    | kept k =>
      obtain ⟨hkind, hname, hundefined⟩ := kept_of_mem_passages (t := t) (k := k) (by rw [hps]; simp)
      rw [htext, hps, Passage.textOf_append, Passage.textOf_cons] at hm
      rw [Passage.Hosts, Nat.zero_add] at hhost
      have hmark := toMark_eq_of_kept hname hm hhost.1 hhost.2
      subst hmark
      exact ⟨by simp [Marker.isReference, hkind], hundefined⟩

/-- An address that holds a reference to the second definition, and a reference that copies it. -/
def linkTarget : Text :=
  "[[item:a]] (http://x/[[ref:b]])\n[[item:b]] plain\n[[ref:a]]".toList

theorem not_isSettled_link_target : ¬ ∀ t strict, IsSettled t (resolve t strict).text := by
  intro h
  obtain ⟨m, hm, hmark⟩ : ∃ m ∈ scan (resolve linkTarget false).text,
      m.toMark = ⟨.reference, ['b']⟩ := by
    decide +kernel
  have hdefined : IsDefined linkTarget ['b'] := by
    unfold IsDefined
    decide +kernel
  apply (h linkTarget false m hm).2
  rw [hmark]
  exact hdefined

end Citemark
