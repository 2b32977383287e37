import Citemark.Document

/-!
# Occurrences of markers

A marker occurs in a text wherever its literal stands, whether or not a scan finds it there. Names
may hold openers, so several occurrences can end at one place: in `[[ref:a[[item:b]]` both a
reference and a definition do. A scan keeps the longest of them.

Results:
* `OccursFrom.stop_eq`: occurrences that share a byte end at the same byte.
* `mem_markersFrom_iff`: a scan finds exactly the occurrences that no longer one contains.
* `scan_eq_longest_occurrences`: all that a scan promises, for every text.
-/

namespace Citemark

/-! ## First closing brackets -/

theorem MarkerKind.not_mem_opener (kind : MarkerKind) : ']' ∉ kind.opener := by
  cases kind <;> decide

namespace Mark

/-- The literal in front of its closing brackets. -/
def front (m : Mark) : Text := m.kind.opener ++ m.name

theorem literal_eq (m : Mark) : m.literal = m.front ++ [']', ']'] := rfl

theorem not_mem_front {m : Mark} (h : ']' ∉ m.name) : ']' ∉ m.front := by
  simp [front, m.kind.not_mem_opener, h]

/-- Where one text begins with two literals, they are the same marker. -/
theorem eq_of_literal_append {a b : Mark} {s t : Text} (ha : ']' ∉ a.name) (hb : ']' ∉ b.name)
    (h : a.literal ++ s = b.literal ++ t) : a = b ∧ s = t := by
  have hread := read?_eq_some_iff.2 ⟨ha, h.symm⟩
  rw [read?_eq_some_iff.2 ⟨hb, rfl⟩, Option.some.injEq, Prod.mk.injEq] at hread
  exact ⟨hread.1.symm, hread.2.symm⟩

end Mark

/-! ## Occurrences -/

namespace Marker

/-- The marker stands in a text that starts at byte `base`: its name holds no `]`, and its literal
    takes the bytes of its span. -/
def OccursFrom (base : Nat) (t : Text) (m : Marker) : Prop :=
  ']' ∉ m.name ∧ ∃ before after : Text, t = before ++ m.literal ++ after ∧
    m.span.start = base + before.byteSize ∧ m.span.stop = m.span.start + m.literal.byteSize

/-- The marker stands in a text, and no longer one that stands there contains it. -/
def IsLongestFrom (base : Nat) (t : Text) (m : Marker) : Prop :=
  m.OccursFrom base t ∧ ∀ other : Marker, other.OccursFrom base t →
    other.span.start ≤ m.span.start → m.span.stop ≤ other.span.stop → other.span = m.span

theorem OccursFrom.base_le {base : Nat} {t : Text} {m : Marker} (h : m.OccursFrom base t) :
    base ≤ m.span.start := by
  obtain ⟨_, before, after, _, hstart, _⟩ := h
  omega

theorem OccursFrom.start_lt_stop {base : Nat} {t : Text} {m : Marker} (h : m.OccursFrom base t) :
    m.span.start < m.span.stop := by
  obtain ⟨_, before, after, _, _, hstop⟩ := h
  have := Text.byteSize_pos m.literal_ne_nil
  omega

/-- The bytes of the span are the literal. -/
theorem OccursFrom.slice_eq {t : Text} {m : Marker} (h : m.OccursFrom 0 t) :
    t.slice m.span = m.literal := by
  obtain ⟨_, before, after, rfl, hstart, hstop⟩ := h
  have hspan : m.span = ⟨before.byteSize, before.byteSize + m.literal.byteSize⟩ := by
    rw [show m.span = ⟨m.span.start, m.span.stop⟩ from rfl, hstop, hstart, Nat.zero_add]
  rw [hspan]
  exact Text.slice_append _ _ _

/-- An occurrence stays one when text is put in front. -/
theorem OccursFrom.prepend {base : Nat} {t : Text} {m : Marker} (x : Text)
    (h : m.OccursFrom (base + x.byteSize) t) : m.OccursFrom base (x ++ t) := by
  obtain ⟨hname, before, after, rfl, hstart, hstop⟩ := h
  refine ⟨hname, x ++ before, after, by simp, ?_, hstop⟩
  rw [hstart, Text.byteSize_append, Nat.add_assoc]

/-- An occurrence behind the beginning of a text is one in the remaining text. -/
theorem OccursFrom.of_prepend {base : Nat} {x t : Text} {m : Marker}
    (h : m.OccursFrom base (x ++ t)) (hle : base + x.byteSize ≤ m.span.start) :
    m.OccursFrom (base + x.byteSize) t := by
  obtain ⟨hname, before, after, ht, hstart, hstop⟩ := h
  rw [List.append_assoc] at ht
  obtain ⟨z, rfl, hz⟩ := Text.eq_append_of_byteSize_le ht (by omega)
  refine ⟨hname, z, after, by simpa using hz, ?_, hstop⟩
  rw [hstart, Text.byteSize_append, Nat.add_assoc]

/-- Occurrences that share a byte end at the same byte: from both of their starts, the next `]` is
    the one that closes them. -/
theorem OccursFrom.stop_eq {base : Nat} {t : Text} {a b : Marker} (ha : a.OccursFrom base t)
    (hb : b.OccursFrom base t) (hstart : a.span.start ≤ b.span.start)
    (hshare : b.span.start < a.span.stop) : a.span.stop = b.span.stop := by
  obtain ⟨hna, x, y, rfl, hsa, hta⟩ := ha
  obtain ⟨hnb, x', y', ht, hsb, htb⟩ := hb
  have hfa := Mark.not_mem_front hna
  have hfb := Mark.not_mem_front hnb
  simp only [List.append_assoc] at ht
  obtain ⟨z, rfl, hz⟩ := Text.eq_append_of_byteSize_le ht (by omega)
  simp only [Mark.literal_eq, Text.byteSize_append] at hsb hta htb
  simp only [Mark.literal_eq, List.append_assoc, List.cons_append, List.nil_append] at hz
  by_cases hmem : ']' ∈ z
  · -- the first `]` of `z` closes `a`, so `b` would start with the second one
    exfalso
    obtain ⟨z₁, z₂, rfl, hz₁⟩ := List.eq_append_cons_of_mem hmem
    simp only [List.append_assoc, List.cons_append] at hz
    obtain ⟨rfl, hrest⟩ := Text.eq_of_cut_eq hfa hz₁ hz
    cases z₂ with
    | nil => simp [Mark.front, MarkerKind.opener] at hrest
    | cons c z₂ =>
      have hclose : Text.byteSize [']', ']'] = 2 := rfl
      have hbracket : (']' : Char).utf8Size = 1 := rfl
      have := c.utf8Size_pos
      simp only [Text.byteSize_append, Text.byteSize_cons] at hsb
      omega
  · rw [← List.append_assoc] at hz
    obtain ⟨hfront, _⟩ := Text.eq_of_cut_eq hfa (by simp [hmem, hfb]) hz
    rw [hfront, Text.byteSize_append] at hta
    omega

/-- A marker that starts in front of a `]` ends with the `]` behind that one at the latest. -/
theorem OccursFrom.stop_le {base : Nat} {x z : Text} {m : Marker}
    (h : m.OccursFrom base (x ++ ']' :: z)) (hstart : m.span.start ≤ base + x.byteSize) :
    m.span.stop ≤ base + x.byteSize + 2 := by
  obtain ⟨hname, before, after, ht, hs, hstop⟩ := h
  have hfront := Mark.not_mem_front hname
  rw [List.append_assoc] at ht
  obtain ⟨y, rfl, hy⟩ := Text.eq_append_of_byteSize_le ht.symm (by omega)
  simp only [Mark.literal_eq, List.append_assoc, List.cons_append, List.nil_append] at hy
  have hle : m.front.byteSize ≤ y.byteSize := by
    by_cases hmem : ']' ∈ y
    · obtain ⟨y₁, y₂, rfl, hy₁⟩ := List.eq_append_cons_of_mem hmem
      simp only [List.append_assoc, List.cons_append] at hy
      rw [(Text.eq_of_cut_eq hfront hy₁ hy).1, Text.byteSize_append]
      omega
    · exact Nat.le_of_eq (congrArg Text.byteSize (Text.eq_of_cut_eq hfront hmem hy).1)
  have hclose : Text.byteSize [']', ']'] = 2 := rfl
  simp only [Mark.literal_eq, Text.byteSize_append] at hstop ⊢
  omega

/-- At most one marker stands at a span. -/
theorem OccursFrom.eq_of_span_eq {base : Nat} {t : Text} {a b : Marker} (ha : a.OccursFrom base t)
    (hb : b.OccursFrom base t) (h : a.span = b.span) : a = b := by
  obtain ⟨hna, x, y, rfl, hsa, _⟩ := ha
  obtain ⟨hnb, x', y', ht, hsb, _⟩ := hb
  simp only [List.append_assoc] at ht
  rw [h] at hsa
  obtain ⟨z, rfl, hz⟩ := Text.eq_append_of_byteSize_le ht (by omega)
  have hnil : z = [] := by
    rw [Text.byteSize_append] at hsb
    exact Text.byteSize_eq_zero_iff.1 (by omega)
  subst hnil
  obtain ⟨hmark, _⟩ := Mark.eq_of_literal_append hna hnb hz
  cases a
  cases b
  simp_all

/-! ## The longest occurrences -/

theorem occursFrom_cons_of_none {base : Nat} {c : Char} {t : Text} {m : Marker}
    (h : Mark.read? (c :: t) = none) :
    m.OccursFrom base (c :: t) ↔ m.OccursFrom (base + c.utf8Size) t := by
  have hsize : Text.byteSize [c] = c.utf8Size := rfl
  constructor
  · intro hm
    rw [← hsize]
    apply hm.of_prepend (x := [c])
    obtain ⟨hname, before, after, ht, hstart, _⟩ := hm
    cases before with
    | nil =>
      rw [Mark.read?_eq_some_iff.2 ⟨hname, ht⟩] at h
      exact absurd h (by simp)
    | cons d before =>
      rw [List.append_assoc, List.cons_append, List.cons.injEq] at ht
      rw [hstart, ← ht.1]
      simp only [Text.byteSize_cons, Text.byteSize_nil]
      omega
  · intro hm
    exact (hsize ▸ hm).prepend [c]

theorem isLongestFrom_cons_of_none {base : Nat} {c : Char} {t : Text} {m : Marker}
    (h : Mark.read? (c :: t) = none) :
    m.IsLongestFrom base (c :: t) ↔ m.IsLongestFrom (base + c.utf8Size) t := by
  simp only [IsLongestFrom, occursFrom_cons_of_none h]

/-- Behind a place that no marker reaches over, the longest occurrences are those of the remaining
    text. -/
theorem isLongestFrom_append_iff {base : Nat} {x z : Text} {m : Marker}
    (hcut : ∀ o : Marker, o.OccursFrom base (x ++ z) → o.span.start < base + x.byteSize →
      o.span.stop ≤ base + x.byteSize)
    (hstart : base + x.byteSize ≤ m.span.start) :
    m.IsLongestFrom base (x ++ z) ↔ m.IsLongestFrom (base + x.byteSize) z := by
  constructor
  · rintro ⟨hm, hlongest⟩
    exact ⟨hm.of_prepend hstart, fun o ho => hlongest o (ho.prepend x)⟩
  · rintro ⟨hm, hlongest⟩
    refine ⟨hm.prepend x, fun o ho hle hstop => ?_⟩
    by_cases hlt : o.span.start < base + x.byteSize
    · have := hcut o ho hlt
      have := hm.start_lt_stop
      omega
    · exact hlongest o (ho.of_prepend (by omega)) hle hstop

/-- The marker at the start of a text. -/
def first (base : Nat) (m : Mark) : Marker := ⟨m, ⟨base, base + m.literal.byteSize⟩⟩

theorem occursFrom_first (base : Nat) {m : Mark} (rest : Text) (h : ']' ∉ m.name) :
    (first base m).OccursFrom base (m.literal ++ rest) :=
  ⟨h, [], rest, rfl, rfl, rfl⟩

/-- Behind a marker at the start, the longest occurrences are those of the remaining text: the first
    one reaches over none of them. -/
theorem isLongestFrom_literal_append {base : Nat} {m : Mark} {rest : Text} {other : Marker}
    (h : ']' ∉ m.name) : other.IsLongestFrom base (m.literal ++ rest) ↔
      other = first base m ∨ other.IsLongestFrom (base + m.literal.byteSize) rest := by
  have hfirst := occursFrom_first base rest h
  -- whatever starts inside the first marker ends where that ends
  have hinside : ∀ o : Marker, o.OccursFrom base (m.literal ++ rest) →
      o.span.start < base + m.literal.byteSize → o.span.stop = base + m.literal.byteSize :=
    fun o ho hlt => (hfirst.stop_eq ho ho.base_le hlt).symm
  by_cases hlt : other.span.start < base + m.literal.byteSize
  · constructor
    · rintro ⟨hother, hlongest⟩
      have hspan := hlongest _ hfirst hother.base_le (Nat.le_of_eq (hinside other hother hlt))
      exact Or.inl (hfirst.eq_of_span_eq hother hspan).symm
    · rintro (rfl | ⟨hother, _⟩)
      · refine ⟨hfirst, fun o ho hstart _ => ?_⟩
        have hbase : o.span.start = base := Nat.le_antisymm hstart ho.base_le
        have hend := hinside o ho (hbase ▸ hfirst.start_lt_stop)
        rw [show o.span = ⟨o.span.start, o.span.stop⟩ from rfl, hbase, hend]
        rfl
      · have := hother.base_le
        omega
  · have hne : other ≠ first base m := by
      rintro rfl
      exact hlt hfirst.start_lt_stop
    rw [isLongestFrom_append_iff (fun o ho h => Nat.le_of_eq (hinside o ho h)) (by omega)]
    simp [hne]

theorem not_occursFrom_nil {base : Nat} {m : Marker} : ¬ m.OccursFrom base [] := by
  rintro ⟨_, before, after, h, _⟩
  exact m.literal_ne_nil (by simp_all)

end Marker

/-! ## Scanning -/

namespace Document

theorem mem_markersFrom_iff {base : Nat} {t : Text} {m : Marker} :
    m ∈ (ofText t).markersFrom base ↔ m.IsLongestFrom base t := by
  fun_induction ofText t generalizing base with
  | case1 =>
    simp [markersFrom, Marker.IsLongestFrom, Marker.not_occursFrom_nil]
  | case2 c rest m₀ rest' h _ ih =>
    obtain ⟨hname, ht⟩ := Mark.read?_eq_some_iff.1 h
    rw [ht, Marker.isLongestFrom_literal_append hname, ← ih, markersFrom, List.mem_cons]
    rfl
  | case3 c rest h ih => rw [markersFrom, ih, Marker.isLongestFrom_cons_of_none h]

theorem base_le_of_mem_markersFrom {base : Nat} {d : Document} {m : Marker}
    (h : m ∈ d.markersFrom base) : base ≤ m.span.start := by
  fun_induction markersFrom base d with
  | case1 => simp at h
  | case2 base c d ih => exact Nat.le_trans (Nat.le_add_right _ _) (ih h)
  | case3 base m₀ d stop ih =>
    rcases List.mem_cons.1 h with rfl | h
    · exact Nat.le_refl _
    · exact Nat.le_trans (Nat.le_add_right _ _) (ih h)

/-- Where a document starts moves its markers and changes nothing else. -/
theorem markersFrom_add (n base : Nat) (d : Document) :
    d.markersFrom (n + base) = (d.markersFrom base).map fun m =>
      ⟨m.toMark, ⟨n + m.span.start, n + m.span.stop⟩⟩ := by
  fun_induction markersFrom base d with
  | case1 => rfl
  | case2 base c d ih => rw [markersFrom, Nat.add_assoc, ih]
  | case3 base m d stop ih => rw [markersFrom, List.map_cons, Nat.add_assoc, ih]

/-- The markers of a document come in order, and none starts before the one in front has ended. -/
theorem pairwise_markersFrom (base : Nat) (d : Document) :
    (d.markersFrom base).Pairwise fun a b => a.span.stop ≤ b.span.start := by
  fun_induction markersFrom base d with
  | case1 => exact List.Pairwise.nil
  | case2 base c d ih => exact ih
  | case3 base m d stop ih =>
    exact List.pairwise_cons.2 ⟨fun b hb => base_le_of_mem_markersFrom hb, ih⟩

end Document

theorem mem_scan_iff {t : Text} {m : Marker} : m ∈ scan t ↔ m.IsLongestFrom 0 t :=
  Document.mem_markersFrom_iff

theorem occursFrom_of_mem_scan {t : Text} {m : Marker} (h : m ∈ scan t) : m.OccursFrom 0 t :=
  (mem_scan_iff.1 h).1

theorem pairwise_scan (t : Text) : (scan t).Pairwise fun a b => a.span.stop ≤ b.span.start :=
  Document.pairwise_markersFrom 0 _

/-- **A scan accepts exactly the grammar of markers.** Occurrences that share a byte end at the same
    byte. A scan returns, in order and without overlap, the occurrences that no longer one contains,
    each with the kind and the name that its literal spells. -/
theorem scan_eq_longest_occurrences (t : Text) :
    (∀ a b : Marker, a.OccursFrom 0 t → b.OccursFrom 0 t → a.span.start < b.span.stop →
      b.span.start < a.span.stop → a.span.stop = b.span.stop) ∧
    (scan t).Pairwise (fun a b => a.span.stop ≤ b.span.start) ∧
    (∀ m ∈ scan t, m.span.start < m.span.stop ∧ t.slice m.span = m.literal) ∧
    (∀ m : Marker, m ∈ scan t ↔ m.IsLongestFrom 0 t) := by
  refine ⟨?_, Document.pairwise_markersFrom 0 _, ?_, fun m => mem_scan_iff⟩
  · intro a b ha hb hab hba
    rcases Nat.le_total a.span.start b.span.start with hle | hle
    · exact ha.stop_eq hb hle hba
    · exact (hb.stop_eq ha hle hab).symm
  · intro m hm
    have hoccurs := (mem_scan_iff.1 hm).1
    exact ⟨hoccurs.start_lt_stop, hoccurs.slice_eq⟩

end Citemark
