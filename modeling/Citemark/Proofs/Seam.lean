import Citemark.Proofs.Passage

/-!
# Seams of the rendered text

Whether a marker starts at a place hangs on what follows, and rendering changes that. Numbers and
brackets complete no opener that stands in front of them, and an opener in a copied run has met its
first `]` within that run. So no marker starts in what is written where none started before.

Results:
* `Inert.le_start`: no marker starts in numbers and brackets.
* `read?_append_blunt`, `read?_append_literal`: a run in front of a marker is read as before when the
  marker is replaced, and when what follows it changes.
* `read?_cons_textOf`: where no marker starts in a text, none starts in what is written for it.
-/

namespace Citemark

/-! ## Where no marker starts -/

theorem Mark.read?_eq_none {t : Text}
    (h : ∀ c rest, t = '[' :: '[' :: c :: rest → c ≠ 'r' ∧ c ≠ 'i') : Mark.read? t = none := by
  refine read?_eq_none_iff.2 fun m rest _ ht => ?_
  cases m with
  | mk kind name =>
    cases kind with
    | reference => exact absurd rfl (h 'r' _ ht).1
    | definition => exact absurd rfl (h 'i' _ ht).2

/-- No marker starts inside the text, whatever follows it. -/
def Inert : Text → Prop
  | [] => True
  | c :: x => (∀ z, Mark.read? (c :: x ++ z) = none) ∧ Inert x

theorem Inert.le_start {x z : Text} {base : Nat} {m : Marker} (hx : Inert x)
    (h : m.OccursFrom base (x ++ z)) : base + x.byteSize ≤ m.span.start := by
  induction x generalizing base with
  | nil => exact h.base_le
  | cons c x ih =>
    have hrest := (Marker.occursFrom_cons_of_none (hx.1 z)).1 h
    rw [Text.byteSize_cons, ← Nat.add_assoc]
    exact ih hx.2 hrest

theorem inert_of_not_mem {x : Text} (h : '[' ∉ x) : Inert x := by
  induction x with
  | nil => trivial
  | cons c x ih =>
    refine ⟨fun z => Mark.read?_eq_none fun d rest he => ?_, ih fun e => h (List.mem_cons_of_mem _ e)⟩
    rw [List.cons_append, List.cons.injEq] at he
    exact absurd (he.1 ▸ List.mem_cons_self) h

theorem exists_ofNat_eq_cons (n : Nat) :
    ∃ d rest, Text.ofNat n = d :: rest ∧ d.isDigit = true := by
  cases h : Text.ofNat n with
  | nil => exact absurd h (Text.ofNat_ne_nil n)
  | cons d rest => exact ⟨d, rest, rfl, Text.isDigit_of_mem_ofNat (h ▸ List.mem_cons_self)⟩

theorem isDigit_of_ofNat_append {n : Nat} {x rest : Text} {d : Char}
    (h : Text.ofNat n ++ x = d :: rest) : d.isDigit = true := by
  obtain ⟨e, digits, hn, hdigit⟩ := exists_ofNat_eq_cons n
  rw [hn, List.cons_append, List.cons.injEq] at h
  rw [← h.1]
  exact hdigit

namespace Citation

/-- What a citation writes in front of its address. -/
def opening (c : Citation) : Text := '[' :: '[' :: (Text.ofNat c.index ++ [']', ']', '('])

theorem renderReference_of_url {c : Citation} {url : Text} (h : c.url = some url) :
    c.renderReference = c.opening ++ (url ++ [')']) := by
  simp [renderReference, h, opening]

theorem inert_renderDefinition (c : Citation) : Inert c.renderDefinition :=
  inert_of_not_mem (by simp [renderDefinition, Text.not_mem_ofNat])

theorem inert_bracket (n : Nat) {x : Text} (h : '[' ∉ x) : Inert ('[' :: (Text.ofNat n ++ x)) := by
  refine ⟨fun z => Mark.read?_eq_none fun d rest he => ?_,
    inert_of_not_mem (by simp [Text.not_mem_ofNat, h])⟩
  simp only [List.cons_append, List.append_assoc, List.cons.injEq, true_and] at he
  exact absurd (isDigit_of_ofNat_append he) (by decide)

theorem inert_opening (c : Citation) : Inert c.opening := by
  refine ⟨fun z => Mark.read?_eq_none fun d rest he => ?_, inert_bracket _ (by decide)⟩
  simp only [List.cons_append, List.append_assoc, List.cons.injEq, true_and] at he
  have hdigit := isDigit_of_ofNat_append he
  constructor
  · rintro rfl
    exact absurd hdigit (by decide)
  · rintro rfl
    exact absurd hdigit (by decide)

theorem inert_renderReference {c : Citation} (h : c.url = none) : Inert c.renderReference := by
  have hrender : c.renderReference = '[' :: (Text.ofNat c.index ++ [']']) := by
    simp [renderReference, h]
  rw [hrender]
  exact inert_bracket _ (by decide)

end Citation

/-! ## Seams -/

/-- The text completes no opener that stands in front of it. -/
def Blunt (w : Text) : Prop :=
  ∃ (c d : Char) (rest : Text), w = c :: d :: rest ∧
    (c.isDigit = true ∨ c = '[' ∧ (d = '[' ∨ d.isDigit = true))

theorem blunt_renderDefinition (c : Citation) (z : Text) : Blunt (c.renderDefinition ++ z) := by
  obtain ⟨e, digits, hn, hdigit⟩ := exists_ofNat_eq_cons c.index
  unfold Citation.renderDefinition
  rw [hn]
  cases digits with
  | nil => exact ⟨e, '.', z, by simp, Or.inl hdigit⟩
  | cons d digits => exact ⟨e, d, digits ++ ['.'] ++ z, by simp, Or.inl hdigit⟩

theorem blunt_renderReference (c : Citation) (z : Text) : Blunt (c.renderReference ++ z) := by
  obtain ⟨e, digits, hn, hdigit⟩ := exists_ofNat_eq_cons c.index
  cases hurl : c.url with
  | none =>
    refine ⟨'[', e, digits ++ [']'] ++ z, ?_, Or.inr ⟨rfl, Or.inr hdigit⟩⟩
    simp [Citation.renderReference, hurl, hn]
  | some url =>
    refine ⟨'[', '[', Text.ofNat c.index ++ [']', ']', '('] ++ url ++ [')'] ++ z, ?_,
      Or.inr ⟨rfl, Or.inl rfl⟩⟩
    simp [Citation.renderReference, hurl]

theorem Blunt.head?_ne {w : Text} (h : Blunt w) : w.head? ≠ some ']' := by
  obtain ⟨c, d, rest, rfl, hc | ⟨rfl, _⟩⟩ := h
  · intro e
    rw [List.head?_cons, Option.some.injEq] at e
    exact absurd (e ▸ hc) (by decide)
  · simp

/-- Behind its first bracket no opener has a digit or a bracket. -/
theorem MarkerKind.not_digit_of_mem_tag {kind : MarkerKind} {c : Char}
    (h : c ∈ kind.tag ++ [':']) : c.isDigit = false ∧ c ≠ '[' := by
  cases kind <;>
    simp only [MarkerKind.tag, List.cons_append, List.nil_append, List.mem_cons, List.not_mem_nil,
      or_false] at h <;>
    rcases h with rfl | rfl | rfl | rfl | rfl <;> decide

theorem Blunt.not_opener {kind : MarkerKind} {a z y : Text} (h : Blunt (z ++ y)) (ha : a ≠ [])
    (hz : z ≠ []) : kind.opener ≠ a ++ z := by
  intro hopener
  obtain ⟨c, d, rest, hw, hc⟩ := h
  cases a with
  | nil => exact ha rfl
  | cons b a =>
    cases a with
    | nil =>
      -- only the first bracket stands in front, so a bracket and the tag must follow
      cases kind <;>
        (rw [MarkerKind.opener] at hopener
         simp only [MarkerKind.tag, List.cons_append, List.nil_append, List.cons.injEq] at hopener
         rw [← hopener.2] at hw
         simp only [List.cons_append, List.cons.injEq] at hw
         obtain ⟨rfl, rfl, _⟩ := hw
         revert hc
         decide)
    | cons b' a =>
      cases z with
      | nil => exact hz rfl
      | cons e z =>
        rw [MarkerKind.opener] at hopener
        simp only [List.cons_append, List.nil_append, List.cons.injEq] at hopener hw
        have hmem : e ∈ kind.tag ++ [':'] := by
          rw [hopener.2.2]
          simp
        obtain ⟨hdigit, hne⟩ := MarkerKind.not_digit_of_mem_tag hmem
        rw [hw.1] at hdigit hne
        rcases hc with hc | ⟨hc, _⟩
        · rw [hdigit] at hc
          exact Bool.noConfusion hc
        · exact hne hc

/-- A marker whose text begins in front of a `]` is complete before anything but `]` follows. -/
theorem Mark.literal_prefix_of_mem {a w y : Text} {k : Mark} (hk : ']' ∉ k.name) (ha : ']' ∈ a)
    (hw : w.head? ≠ some ']') (h : a ++ w = k.literal ++ y) : ∃ a', a = k.literal ++ a' := by
  obtain ⟨a₁, a₂, rfl, ha₁⟩ := List.eq_append_cons_of_mem ha
  simp only [Mark.literal_eq, List.append_assoc, List.cons_append, List.nil_append] at h
  obtain ⟨rfl, hrest⟩ := Text.eq_of_cut_eq ha₁ (Mark.not_mem_front hk) h
  cases a₂ with
  | nil =>
    rw [List.nil_append] at hrest
    rw [hrest] at hw
    exact absurd rfl hw
  | cons c a₂ =>
    rw [List.cons_append, List.cons.injEq] at hrest
    obtain ⟨rfl, _⟩ := hrest
    exact ⟨a₂, by simp [Mark.literal_eq]⟩

section Seam

variable {a rest : Text} {m : Mark}

/-- A run in front of a marker is read the same way in front of the same marker. -/
theorem read?_append_literal (rest' : Text) (hm : ']' ∉ m.name)
    (hnone : Mark.read? (a ++ (m.literal ++ rest)) = none) :
    Mark.read? (a ++ (m.literal ++ rest')) = none := by
  rw [Mark.read?_eq_none_iff] at hnone ⊢
  intro k y hk heq
  by_cases ha : ']' ∈ a
  · have hhead : (m.literal ++ rest').head? ≠ some ']' := by
      simp [Mark.literal, MarkerKind.opener]
    obtain ⟨a', rfl⟩ := Mark.literal_prefix_of_mem hk ha hhead heq
    exact hnone k _ hk (List.append_assoc _ _ _)
  · -- the first `]` closes `m`, so the two markers end together
    simp only [Mark.literal_eq, List.append_assoc, List.cons_append, List.nil_append] at heq
    rw [← List.append_assoc] at heq
    obtain ⟨hfront, _⟩ := Text.eq_of_cut_eq (by simp [ha, Mark.not_mem_front hm])
      (Mark.not_mem_front hk) heq
    apply hnone k rest hk
    rw [Mark.literal_eq, Mark.literal_eq, ← hfront]
    simp

/-- A run in front of a marker reads as no marker when something blunt stands in its place. -/
theorem read?_append_blunt {w : Text} (hne : a ≠ []) (hm : ']' ∉ m.name) (hw : Blunt w)
    (hnone : Mark.read? (a ++ (m.literal ++ rest)) = none) : Mark.read? (a ++ w) = none := by
  rw [Mark.read?_eq_none_iff] at hnone ⊢
  intro k y hk heq
  by_cases ha : ']' ∈ a
  · obtain ⟨a', rfl⟩ := Mark.literal_prefix_of_mem hk ha hw.head?_ne heq
    exact hnone k _ hk (List.append_assoc _ _ _)
  · rw [Mark.literal, List.append_assoc, List.append_assoc] at heq
    -- the opener ends within the run, since what follows the run completes none
    obtain ⟨b, rfl⟩ : ∃ b, a = k.kind.opener ++ b := by
      rcases List.append_eq_append_iff.1 heq with ⟨z, hopener, hz⟩ | ⟨b, hb, _⟩
      · by_cases hnil : z = []
        · exact ⟨[], by simp [hopener, hnil]⟩
        · exact absurd hopener ((hz ▸ hw).not_opener hne hnil)
      · exact ⟨b, hb⟩
    have hname : ']' ∉ b ++ m.front := by
      simp only [List.mem_append, not_or] at ha ⊢
      exact ⟨ha.2, Mark.not_mem_front hm⟩
    apply hnone ⟨k.kind, b ++ m.front⟩ rest hname
    simp [Mark.literal_eq, Mark.front]

end Seam

/-- A text is copied up to its first marker, and what is written for that is the marker or blunt. -/
theorem exists_seam (b : Bibliography) (offset : Nat) (t : Text) :
    Passage.textOf (b.passagesFrom offset (Document.ofText t)) = t ∨
      ∃ (run rest w : Text) (m : Mark), ']' ∉ m.name ∧ t = run ++ (m.literal ++ rest) ∧
        Passage.textOf (b.passagesFrom offset (Document.ofText t)) = run ++ w ∧
        ((∃ rest', w = m.literal ++ rest') ∨ Blunt w) := by
  fun_induction Document.ofText t generalizing offset with
  | case1 => exact Or.inl rfl
  | case2 c rest m rest' h _ ih =>
    obtain ⟨hname, ht⟩ := Mark.read?_eq_some_iff.1 h
    rw [Bibliography.passagesFrom, Passage.textOf_cons]
    refine Or.inr ⟨[], rest', _, m, hname, ht, (List.nil_append _).symm, ?_⟩
    rcases b.passage_cases ⟨m, ⟨offset, offset + m.literal.byteSize⟩⟩ with
      ⟨c, hp⟩ | ⟨c, hp⟩ | hp
    · exact Or.inr (hp ▸ blunt_renderDefinition c _)
    · exact Or.inr (hp ▸ blunt_renderReference c _)
    · exact Or.inl ⟨_, by rw [hp]; rfl⟩
  | case3 c rest h ih =>
    rw [Bibliography.passagesFrom, Passage.textOf_cons]
    rcases ih (offset + c.utf8Size) with heq | ⟨run, rest', w, m, hname, ht, hw, hseam⟩
    · exact Or.inl (by rw [heq]; rfl)
    · exact Or.inr ⟨c :: run, rest', w, m, hname, by rw [ht]; rfl, by rw [hw]; rfl, hseam⟩

theorem read?_cons_textOf (b : Bibliography) (offset : Nat) {c : Char} {t : Text}
    (h : Mark.read? (c :: t) = none) :
    Mark.read? (c :: Passage.textOf (b.passagesFrom offset (Document.ofText t))) = none := by
  rcases exists_seam b offset t with heq | ⟨run, rest, w, m, hname, ht, hw, hseam⟩
  · rw [heq]
    exact h
  · rw [ht, ← List.cons_append] at h
    rw [hw, ← List.cons_append]
    rcases hseam with ⟨rest', rfl⟩ | hblunt
    · exact read?_append_literal rest' hname h
    · exact read?_append_blunt (by simp) hname hblunt h

end Citemark
