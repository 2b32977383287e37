import Citemark.Proofs.Numbering

/-!
# Text behind a text

What stays when text is put behind a text. A marker that was read is closed, so nothing behind can
change it; text behind can only close a marker that was left open, and then nothing in between was
one. So numbers, names and places stay, and of the addresses only the last one can change.

Results:
* `scan_prefix_append`: the markers of a beginning are the first ones of the whole text.
* `mem_scan_of_stop_le`: a marker that ends within the beginning is one of its markers.
* `first?_append`: a link that was found stays the first one.
* `url_entryOf_append`: an address is lost only to a definition that reaches over the end.
* `numbering_append`: all that the bibliography keeps.
-/

namespace Citemark

/-! ## Markers -/

theorem Mark.read?_append {t rest : Text} {m : Mark} (z : Text) (h : read? t = some (m, rest)) :
    read? (t ++ z) = some (m, rest ++ z) := by
  obtain ⟨hname, rfl⟩ := read?_eq_some_iff.1 h
  exact read?_eq_some_iff.2 ⟨hname, List.append_assoc _ _ _⟩

namespace Marker

theorem OccursFrom.stop_le_size {base : Nat} {t : Text} {m : Marker} (h : m.OccursFrom base t) :
    m.span.stop ≤ base + t.byteSize := by
  obtain ⟨_, before, after, rfl, hstart, hstop⟩ := h
  simp only [Text.byteSize_append]
  omega

/-- An occurrence stays one when text is put behind. -/
theorem OccursFrom.append {base : Nat} {t : Text} {m : Marker} (z : Text)
    (h : m.OccursFrom base t) : m.OccursFrom base (t ++ z) := by
  obtain ⟨hname, before, after, rfl, hstart, hstop⟩ := h
  exact ⟨hname, before, after ++ z, by simp, hstart, hstop⟩

/-- An occurrence that ends within the beginning of a text is one in that beginning. -/
theorem OccursFrom.of_append {base : Nat} {t z : Text} {m : Marker}
    (h : m.OccursFrom base (t ++ z)) (hstop : m.span.stop ≤ base + t.byteSize) :
    m.OccursFrom base t := by
  obtain ⟨hname, before, after, ht, hstart, hend⟩ := h
  have hle : (before ++ m.literal).byteSize ≤ t.byteSize := by
    rw [Text.byteSize_append]
    omega
  obtain ⟨y, rfl, _⟩ := Text.eq_append_of_byteSize_le ht.symm hle
  exact ⟨hname, before, y, rfl, hstart, hend⟩

end Marker

/-- The markers of a beginning come first. Where a marker starts that only the text behind closes,
    the beginning has no marker left: it would have to end where that one ends. -/
theorem Document.markersFrom_prefix_append (base : Nat) (a b : Text) :
    (ofText a).markersFrom base <+: (ofText (a ++ b)).markersFrom base := by
  fun_induction ofText a generalizing base with
  | case1 => exact List.nil_prefix
  | case2 c rest m rest' h _ ih =>
    have happend : Mark.read? (c :: (rest ++ b)) = some (m, rest' ++ b) := Mark.read?_append b h
    show _ <+: (ofText (c :: (rest ++ b))).markersFrom base
    rw [ofText_cons_of_read? happend, markersFrom, markersFrom]
    exact (List.prefix_cons_inj _).2 (ih _)
  | case3 c rest h ih =>
    show _ <+: (ofText (c :: (rest ++ b))).markersFrom base
    cases hread : Mark.read? (c :: (rest ++ b)) with
    | none =>
      rw [ofText_cons_of_none hread, markersFrom, markersFrom]
      exact ih _
    | some p =>
      obtain ⟨m, rest'⟩ := p
      obtain ⟨hname, hwhole⟩ := Mark.read?_eq_some_iff.1 hread
      have hfirst : (Marker.first base m).OccursFrom base (c :: rest ++ b) := by
        rw [List.cons_append, hwhole]
        exact Marker.occursFrom_first base rest' hname
      have hcross : base + Text.byteSize (c :: rest) < (Marker.first base m).span.stop := by
        apply Nat.lt_of_not_le
        intro hle
        have hinside := (Marker.occursFrom_cons_of_none h).1 (hfirst.of_append hle)
        exact absurd hinside.base_le (Nat.not_le.2 (Nat.lt_add_of_pos_right c.utf8Size_pos))
      have hnil : (ofText rest).markersFrom (base + c.utf8Size) = [] := by
        refine List.eq_nil_iff_forall_not_mem.2 fun o ho => ?_
        have hoccurs := (Marker.occursFrom_cons_of_none h).2 (mem_markersFrom_iff.1 ho).1
        have hlt := hoccurs.start_lt_stop
        have hle := hoccurs.stop_le_size
        have hsame := hfirst.stop_eq (hoccurs.append b) hoccurs.base_le (by omega)
        omega
      rw [markersFrom, hnil]
      exact List.nil_prefix

theorem scan_prefix_append (a b : Text) : scan a <+: scan (a ++ b) :=
  Document.markersFrom_prefix_append 0 a b

/-- A marker of the whole text that ends within the beginning is one of the beginning. -/
theorem mem_scan_of_stop_le {a b : Text} {m : Marker} (h : m ∈ scan (a ++ b))
    (hstop : m.span.stop ≤ a.byteSize) : m ∈ scan a := by
  obtain ⟨hoccurs, hlongest⟩ := mem_scan_iff.1 h
  exact mem_scan_iff.2 ⟨hoccurs.of_append (by omega), fun o ho => hlongest o (ho.append b)⟩

theorem definitions_prefix_append (a b : Text) : definitions a <+: definitions (a ++ b) :=
  (scan_prefix_append a b).filter _

/-! ## Addresses -/

namespace Link

theorem untilParen?_append {t address : Text} (z : Text) (h : untilParen? t = some address) :
    untilParen? (t ++ z) = some address := by
  obtain ⟨hmem, rest, rfl⟩ := untilParen?_eq_some_iff.1 h
  exact untilParen?_eq_some_iff.2 ⟨hmem, rest ++ z, by simp⟩

theorem hasScheme_eq_true_iff {t : Text} : hasScheme t = true ↔ ∃ s ∈ schemes, s <+: t := by
  simp [hasScheme, List.isPrefixOf_iff_prefix]

/-- A text that is long enough tells whether a scheme stands at its start. -/
theorem hasScheme_append_iff {t : Text} (z : Text) (h : 8 ≤ t.length) :
    hasScheme (t ++ z) = true ↔ hasScheme t = true := by
  have hlength : ∀ s ∈ schemes, s.length ≤ 8 := by decide
  simp only [hasScheme_eq_true_iff]
  constructor
  · rintro ⟨s, hs, hstarts⟩
    refine ⟨s, hs, List.prefix_of_prefix_length_le hstarts (List.prefix_append t z) ?_⟩
    exact Nat.le_trans (hlength s hs) h
  · rintro ⟨s, hs, hstarts⟩
    exact ⟨s, hs, hstarts.trans (List.prefix_append t z)⟩

theorem read?_append {t address : Text} (z : Text) (h : read? t = some address) :
    read? (t ++ z) = some address := by
  obtain ⟨rest, rfl, hscheme, huntil⟩ := read?_eq_some_iff.1 h
  obtain ⟨s, hs, hstarts⟩ := hasScheme_eq_true_iff.1 hscheme
  exact read?_eq_some_iff.2 ⟨rest ++ z, rfl,
    hasScheme_eq_true_iff.2 ⟨s, hs, hstarts.trans (List.prefix_append rest z)⟩,
    untilParen?_append z huntil⟩

/-- A text with a link is longer than every scheme and holds a closing parenthesis. -/
theorem length_and_mem_of_first? {t address : Text} (h : first? t = some address) :
    8 ≤ t.length ∧ ')' ∈ t := by
  induction t with
  | nil => simp [first?] at h
  | cons c t ih =>
    rcases Option.or_eq_some_iff.1 h with h | ⟨_, h⟩
    · obtain ⟨rest, ht, hscheme, huntil⟩ := read?_eq_some_iff.1 h
      obtain ⟨s, hs, hstarts⟩ := hasScheme_eq_true_iff.1 hscheme
      have hlength : ∀ s ∈ schemes, 7 ≤ s.length := by decide
      have := hlength s hs
      have := hstarts.length_le
      obtain ⟨_, rest', rfl⟩ := untilParen?_eq_some_iff.1 huntil
      rw [ht]
      exact ⟨by rw [List.length_cons]; omega, by simp⟩
    · obtain ⟨hlength, hmem⟩ := ih h
      exact ⟨by rw [List.length_cons]; omega, List.mem_cons_of_mem _ hmem⟩

/-- A link that was found stays the first one. An opener in front of it that found no scheme or no
    closing parenthesis finds none in the text behind either, since the link brings both. -/
theorem first?_append {t address : Text} (z : Text) (h : first? t = some address) :
    first? (t ++ z) = some address := by
  induction t with
  | nil => simp [first?] at h
  | cons c t ih =>
    rw [List.cons_append, first?, Option.or_eq_some_iff]
    rcases Option.or_eq_some_iff.1 h with h | ⟨hnone, h⟩
    · exact Or.inl (read?_append z h)
    · refine Or.inr ⟨?_, ih h⟩
      obtain ⟨hlength, hmem⟩ := length_and_mem_of_first? h
      refine Option.eq_none_iff_forall_ne_some.2 fun other hother => ?_
      obtain ⟨rest, hcons, hscheme, huntil⟩ := read?_eq_some_iff.1 hother
      obtain ⟨rfl, rfl⟩ := List.cons.inj hcons
      obtain ⟨x, y, rfl, hx⟩ := List.eq_append_cons_of_mem hmem
      have hread : read? ('(' :: (x ++ ')' :: y)) = some x :=
        read?_eq_some_iff.2 ⟨_, rfl, (hasScheme_append_iff z hlength).1 hscheme,
          untilParen?_eq_some_iff.2 ⟨hx, y, rfl⟩⟩
      exact absurd (hnone.symm.trans hread) (by simp)

end Link

/-- The window of a definition in the beginning, said by where it ends. -/
theorem exists_window_eq {a : Text} {d : Marker} (h : d ∈ scan a) :
    ∃ after : Text, a.byteSize = d.span.stop + after.byteSize ∧ ∀ (z : Text) (stop : Nat),
      (a ++ z).slice ⟨d.span.stop, stop⟩ =
        (Text.splitAtByte (stop - d.span.stop) (after ++ z)).1 := by
  obtain ⟨_, before, after, rfl, hstart, hstop⟩ := occursFrom_of_mem_scan h
  have hend : d.span.stop = (before ++ d.literal).byteSize := by
    rw [Text.byteSize_append]
    omega
  refine ⟨after, by rw [Text.byteSize_append, hend], fun z stop => ?_⟩
  rw [List.append_assoc, hend]
  exact Text.slice_append_start _ _ _

section Entry

variable {a b : Text} {i : Nat} {d : Marker}

theorem getElem?_definitions_append (b : Text) (h : (definitions a)[i]? = some d) :
    (definitions (a ++ b))[i]? = some d := by
  obtain ⟨more, hmore⟩ := definitions_prefix_append a b
  rw [← hmore, List.getElem?_append_left (List.getElem?_eq_some_iff.1 h).1, h]

/-- A definition that is not the last one keeps its entry. -/
theorem entryOf_append_of_next {next : Marker} (h : (definitions a)[i]? = some d)
    (hnext : (definitions a)[i + 1]? = some next) : entryOf (a ++ b) i d = entryOf a i d := by
  have hd := (List.mem_filter.1 (List.mem_of_getElem? h)).1
  have hn := (List.mem_filter.1 (List.mem_of_getElem? hnext)).1
  obtain ⟨after, hsize, hwindow⟩ := exists_window_eq hd
  have hle : next.span.start - d.span.stop ≤ after.byteSize := by
    have hoccurs := occursFrom_of_mem_scan hn
    have := hoccurs.stop_le_size
    have := hoccurs.start_lt_stop
    omega
  have hwhole := hwindow [] next.span.start
  rw [List.append_nil, List.append_nil] at hwhole
  simp only [entryOf, windowOf, hnext, getElem?_definitions_append b hnext, Option.map_some,
    Option.getD_some, hwindow, hwhole, Text.splitAtByte_append_of_le b hle]

/-- A definition that begins in front of the end of the first text, and behind its last one, reaches
    over that end. -/
theorem lt_stop_of_next {next : Marker} (hlast : (definitions a)[i + 1]? = none)
    (hnext : (definitions (a ++ b))[i + 1]? = some next) :
    a.byteSize < next.span.stop := by
  apply Nat.lt_of_not_le
  intro hle
  obtain ⟨hmem, hdefinition⟩ := List.mem_filter.1 (List.mem_of_getElem? hnext)
  obtain ⟨j, hj⟩ := List.getElem?_of_mem
    (List.mem_filter.2 ⟨mem_scan_of_stop_le hmem hle, hdefinition⟩)
  have hji : j < i + 1 := by
    have := (List.getElem?_eq_some_iff.1 hj).1
    have := List.getElem?_eq_none_iff.1 hlast
    exact Nat.lt_of_lt_of_le ‹_› ‹_›
  obtain ⟨hlt, hfirst⟩ := List.getElem?_eq_some_iff.1 (getElem?_definitions_append b hj)
  obtain ⟨hlt', hsecond⟩ := List.getElem?_eq_some_iff.1 hnext
  have := List.pairwise_iff_getElem.1 (pairwise_definitions (a ++ b)) j (i + 1) hlt hlt' hji
  rw [hfirst, hsecond] at this
  exact absurd this (Nat.lt_irrefl _)

/-- An address that was found is lost only to a definition that reaches over the end. -/
theorem url_entryOf_append {url : Text} (h : (definitions a)[i]? = some d)
    (hurl : (entryOf a i d).url = some url) :
    (entryOf (a ++ b) i d).url = some url ∨ ∃ next ∈ scan (a ++ b), next.isDefinition = true ∧
      next.span.start < a.byteSize ∧ a.byteSize < next.span.stop := by
  cases hlast : (definitions a)[i + 1]? with
  | some next =>
    rw [entryOf_append_of_next h hlast]
    exact Or.inl hurl
  | none =>
    have hscan := (List.mem_filter.1 (List.mem_of_getElem? h)).1
    obtain ⟨after, hsize, hwindow⟩ := exists_window_eq hscan
    have hbeginning : windowOf a d i = after := by
      have hwhole := hwindow [] a.byteSize
      have hsub : a.byteSize - d.span.stop = after.byteSize := by omega
      rw [List.append_nil, List.append_nil, hsub] at hwhole
      simp only [windowOf, hlast, Option.map_none, Option.getD_none, hwhole]
      simpa using congrArg Prod.fst (Text.splitAtByte_append after [])
    -- behind the end of the first text the window only grows
    have hgrown : ∀ stop, a.byteSize ≤ stop →
        Link.first? ((a ++ b).slice ⟨d.span.stop, stop⟩) = some url := by
      intro stop hstop
      have hle : after.byteSize ≤ stop - d.span.stop := by omega
      rw [hwindow, Text.splitAtByte_append_of_ge b hle]
      exact Link.first?_append _ (hbeginning ▸ hurl)
    cases hnext : (definitions (a ++ b))[i + 1]? with
    | none =>
      refine Or.inl ?_
      simp only [entryOf, windowOf, hnext, Option.map_none, Option.getD_none]
      exact hgrown _ (by rw [Text.byteSize_append]; omega)
    | some next =>
      by_cases hstart : next.span.start < a.byteSize
      · obtain ⟨hmem, hdefinition⟩ := List.mem_filter.1 (List.mem_of_getElem? hnext)
        exact Or.inr ⟨next, hmem, hdefinition, hstart, lt_stop_of_next hlast hnext⟩
      · refine Or.inl ?_
        simp only [entryOf, windowOf, hnext, Option.map_some, Option.getD_some]
        exact hgrown _ (by omega)

end Entry

/-! ## The numbering -/

/-- The citation without its address. -/
def Citation.unlinked (c : Citation) : Citation := { c with url := none }

/-- The citations of a text without their addresses. -/
def numbering (t : Text) : List Citation := (bibliography t).citations.toList.map Citation.unlinked

/-- The citation of a definition at a position, without its address. -/
def placeOf (i : Nat) (d : Marker) : Citation := ⟨i + 1, d.name, none, d.span⟩

theorem numbering_eq (t : Text) : numbering t = (definitions t).mapIdx placeOf := by
  rw [numbering, citations_bibliography]
  apply List.ext_getElem?
  intro i
  rw [List.getElem?_map, List.getElem?_mapIdx, List.getElem?_mapIdx, Option.map_map]
  rfl

theorem length_numbering (t : Text) : (numbering t).length = (bibliography t).size := by
  simp [numbering, Bibliography.size]

theorem exists_of_mem_mapIdx_placeOf {f : Nat → Nat} {ds : List Marker} {c : Citation}
    (h : c ∈ ds.mapIdx fun i => placeOf (f i)) :
    ∃ i d, ds[i]? = some d ∧ c = placeOf (f i) d := by
  obtain ⟨i, hi⟩ := List.getElem?_of_mem h
  rw [List.getElem?_mapIdx] at hi
  obtain ⟨d, hd, rfl⟩ := Option.map_eq_some_iff.1 hi
  exact ⟨i, d, hd, rfl⟩

theorem of_mem_numbering {t : Text} {c : Citation} (h : c ∈ numbering t) :
    c.index ≤ (bibliography t).size ∧ IsDefined t c.name := by
  rw [← length_numbering]
  rw [numbering_eq] at h ⊢
  obtain ⟨i, d, hd, rfl⟩ := exists_of_mem_mapIdx_placeOf (f := id) h
  have hmem := List.mem_filter.1 (List.mem_of_getElem? hd)
  rw [List.length_mapIdx]
  exact ⟨(List.getElem?_eq_some_iff.1 hd).1, d, hmem.1, hmem.2, rfl⟩

/-- The numbering goes on where that of the first text ends. -/
theorem exists_numbering_append (a b : Text) : ∃ more, numbering (a ++ b) = numbering a ++ more ∧
    ∀ c ∈ more, (bibliography a).size < c.index := by
  obtain ⟨more, hmore⟩ := definitions_prefix_append a b
  refine ⟨_, by rw [numbering_eq, numbering_eq, ← hmore, List.mapIdx_append], fun c hc => ?_⟩
  obtain ⟨i, d, _, rfl⟩ := exists_of_mem_mapIdx_placeOf hc
  rw [← length_numbering, numbering_eq, List.length_mapIdx, placeOf]
  simp only
  omega

theorem map_unlinked_lookup (t name : Text) : ((bibliography t).lookup name).map Citation.unlinked =
    (numbering t).find? (·.name = name) := by
  rw [numbering, List.find?_map, Bibliography.lookup, ← Array.find?_toList]
  rfl

/-- A name means the same citation when text is put behind. -/
theorem map_unlinked_lookup_append {a name : Text} (b : Text) (h : IsDefined a name) :
    ((bibliography (a ++ b)).lookup name).map Citation.unlinked =
      ((bibliography a).lookup name).map Citation.unlinked := by
  obtain ⟨more, hmore, _⟩ := exists_numbering_append a b
  rw [map_unlinked_lookup, map_unlinked_lookup, hmore, List.find?_append]
  apply Option.or_of_isSome
  rw [← map_unlinked_lookup, Option.isSome_map, Option.isSome_iff_ne_none, ne_eq,
    lookup_bibliography_eq_none_iff]
  exact not_not_intro h

/-- Whether references to the name of a citation mean another one. -/
def isRepeated (t : Text) (c : Citation) : Bool :=
  (((bibliography t).lookup c.name).map Citation.unlinked).map Citation.index ≠ some c.index

theorem map_unlinked_duplicates (t : Text) : (bibliography t).duplicates.map Citation.unlinked =
    (numbering t).filter (isRepeated t) := by
  have hrepeated : ∀ c : Citation, isRepeated t c.unlinked =
      decide (((bibliography t).lookup c.name).map Citation.index ≠ some c.index) := by
    intro c
    rw [isRepeated, Option.map_map]
    rfl
  rw [numbering, List.filter_map, Bibliography.duplicates]
  congr 1
  exact List.filter_congr fun c _ => (hrepeated c).symm

/-- The repeated definitions of a beginning are those of the whole text within it. -/
theorem filter_duplicates_append (a b : Text) :
    ((bibliography (a ++ b)).duplicates.map Citation.unlinked).filter
        (·.index ≤ (bibliography a).size) =
      (bibliography a).duplicates.map Citation.unlinked := by
  obtain ⟨more, hmore, hbehind⟩ := exists_numbering_append a b
  rw [map_unlinked_duplicates, map_unlinked_duplicates, hmore, List.filter_append,
    List.filter_append]
  have hnone : (more.filter (isRepeated (a ++ b))).filter (·.index ≤ (bibliography a).size) = [] :=
    List.filter_eq_nil_iff.2 fun c hc => by simpa using hbehind c (List.mem_filter.1 hc).1
  have hall : ((numbering a).filter (isRepeated (a ++ b))).filter
      (·.index ≤ (bibliography a).size) = (numbering a).filter (isRepeated (a ++ b)) :=
    List.filter_eq_self.2 fun c hc => by
      simpa using (of_mem_numbering (List.mem_filter.1 hc).1).1
  rw [hnone, hall, List.append_nil]
  refine List.filter_congr fun c hc => ?_
  rw [isRepeated, isRepeated, map_unlinked_lookup_append b (of_mem_numbering hc).2]

/-- **Text behind a text renumbers nothing.** The markers of a text stay the first ones, and its
    citations keep number, name and place, all but the last one their address, too. Every name
    means the same citation as before, and the repeated definitions are the same. The last address,
    once found, changes only if a definition begins in the text and ends behind it. -/
theorem numbering_append (a b : Text) :
    scan a <+: scan (a ++ b) ∧
    numbering a <+: numbering (a ++ b) ∧
    (∀ i : Nat, i + 1 < (bibliography a).size →
      (bibliography (a ++ b)).citations[i]? = (bibliography a).citations[i]?) ∧
    (∀ name, IsDefined a name → ∃ c c', (bibliography a).lookup name = some c ∧
      (bibliography (a ++ b)).lookup name = some c' ∧ c'.unlinked = c.unlinked) ∧
    (((bibliography (a ++ b)).duplicates.map Citation.unlinked).filter
        (·.index ≤ (bibliography a).size) =
      (bibliography a).duplicates.map Citation.unlinked) ∧
    (∀ (i : Nat) (c c' : Citation) (url : Text), (bibliography a).citations[i]? = some c →
      (bibliography (a ++ b)).citations[i]? = some c' → c.url = some url → c'.url ≠ some url →
      ∃ d ∈ scan (a ++ b), d.isDefinition = true ∧
        d.span.start < a.byteSize ∧ a.byteSize < d.span.stop) := by
  obtain ⟨more, hmore, _⟩ := exists_numbering_append a b
  refine ⟨scan_prefix_append a b, ⟨more, hmore.symm⟩, ?_, ?_, filter_duplicates_append a b, ?_⟩
  · intro i hi
    have hlength : (definitions a).length = (bibliography a).size := by
      rw [← length_numbering, numbering_eq, List.length_mapIdx]
    obtain ⟨d, hd⟩ : ∃ d, (definitions a)[i]? = some d :=
      ⟨_, List.getElem?_eq_getElem (by omega)⟩
    obtain ⟨next, hnext⟩ : ∃ next, (definitions a)[i + 1]? = some next :=
      ⟨_, List.getElem?_eq_getElem (by omega)⟩
    rw [getElem?_bibliography, getElem?_bibliography, hd, getElem?_definitions_append b hd,
      Option.map_some, Option.map_some, entryOf_append_of_next hd hnext]
  · intro name hname
    have hsame := map_unlinked_lookup_append b hname
    obtain ⟨c, hc⟩ := Option.ne_none_iff_exists'.1
      fun h => lookup_bibliography_eq_none_iff.1 h hname
    rw [hc, Option.map_some] at hsame
    obtain ⟨c', hc', hunlinked⟩ := Option.map_eq_some_iff.1 hsame
    exact ⟨c, c', hc, hc', hunlinked⟩
  · intro i c c' url hc hc' hurl hchanged
    rw [getElem?_bibliography] at hc hc'
    obtain ⟨d, hd, rfl⟩ := Option.map_eq_some_iff.1 hc
    rw [getElem?_definitions_append b hd, Option.map_some, Option.some.injEq] at hc'
    subst hc'
    exact (url_entryOf_append hd hurl).resolve_left hchanged

/-- An address is lost when the text behind closes a definition that stood in it. -/
example :
    let a : Text := "[[item:a]] (http://x[[item:b)".toList
    (bibliography a).citations.toList.map Citation.url = [some "http://x[[item:b".toList] ∧
    (bibliography (a ++ [']', ']'])).citations.toList.map Citation.url = [none, none] := by
  decide +kernel

end Citemark
