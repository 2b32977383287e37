import Citemark.Proofs.Checked
import Mathlib.Data.Finset.Card

/-!
# Access to a bibliography

A citation can be reached by its position, by its name and by the place of its marker. Numbers and
places of a bibliography grow with the positions, and that is what makes the three ways agree: the
first citation of a name is the one with the least number, and a binary search by places misses
none. Where names are looked up by the positions that were kept while the bibliography grew, they
are those of the first citations.

Results:
* `isOrdered_bibliography`: numbers and places grow with the positions.
* `lookup_eq_some_iff`: a name means the citation with the least number among those of that name.
* `atOffset?_eq_some_iff`, `atOffset?_eq_find?`: the binary search is a linear one.
* `duplicates_eq_filter`, `Catalogue.duplicates_eq`: the duplicates are the citations with an
  earlier one of their name.
* `size_eq_card_add_length`: the size is that of the names and of the duplicates.
* `bibliography_access`: what the three ways of access give for every text.
-/

namespace Citemark
namespace Bibliography

/-- The numbers count the positions from one, and the markers stand in order and apart. -/
structure IsOrdered (b : Bibliography) : Prop where
  index_eq : ∀ (i : Nat) (c : Citation), b.citations[i]? = some c → c.index = i + 1
  start_lt_stop : ∀ c ∈ b.citations, c.span.start < c.span.stop
  pairwise_span : b.citations.toList.Pairwise fun c e => c.span.stop ≤ e.span.start

/-- Whether an earlier citation has the name of this one. -/
def IsDuplicate (b : Bibliography) (c : Citation) : Prop :=
  ∃ e ∈ b.citations, e.index < c.index ∧ e.name = c.name

instance (b : Bibliography) (c : Citation) : Decidable (b.IsDuplicate c) :=
  inferInstanceAs (Decidable (∃ e ∈ b.citations, _))

variable {b : Bibliography} {name : Text} {offset : Nat} {c e : Citation}

/-! ## Order -/

theorem IsOrdered.pairwise_index (h : b.IsOrdered) :
    b.citations.toList.Pairwise fun c e => c.index < e.index := by
  rw [List.pairwise_iff_getElem]
  intro i j hi hj hij
  have hci := h.index_eq i _ (Array.getElem?_eq_getElem hi)
  have hcj := h.index_eq j _ (Array.getElem?_eq_getElem hj)
  rw [Array.getElem_toList, Array.getElem_toList]
  omega

theorem IsOrdered.pairwise_start (h : b.IsOrdered) :
    b.citations.toList.Pairwise fun c e => c.span.start < e.span.start := by
  refine h.pairwise_span.imp_of_mem ?_
  intro c e hc _ hle
  exact Nat.lt_of_lt_of_le (h.start_lt_stop c (Array.mem_toList_iff.1 hc)) hle

/-- A citation is determined by its number. -/
theorem IsOrdered.eq_of_index_eq (h : b.IsOrdered) (hc : c ∈ b.citations) (he : e ∈ b.citations)
    (hindex : c.index = e.index) : c = e := by
  obtain ⟨i, hi⟩ := Array.getElem?_of_mem hc
  obtain ⟨j, hj⟩ := Array.getElem?_of_mem he
  have hij : i = j := by
    have := h.index_eq i c hi
    have := h.index_eq j e hj
    omega
  subst hij
  exact Option.some.inj (hi.symm.trans hj)

/-! ## Access by name -/

theorem lookup_eq_none_iff : b.lookup name = none ↔ ∀ c ∈ b.citations, c.name ≠ name := by
  rw [lookup, Array.find?_eq_none]
  simp

theorem exists_lookup_of_mem (hc : c ∈ b.citations) : ∃ first, b.lookup c.name = some first := by
  apply Option.ne_none_iff_exists'.1
  intro hnone
  exact lookup_eq_none_iff.1 hnone c hc rfl

/-- The first citation of a name is the one with the least number. -/
theorem IsOrdered.lookup_eq_some_iff (h : b.IsOrdered) : b.lookup name = some c ↔
    c ∈ b.citations ∧ c.name = name ∧ ∀ e ∈ b.citations, e.name = name → c.index ≤ e.index := by
  have hpairwise := h.pairwise_index
  rw [lookup, ← Array.find?_toList, List.find?_eq_some_iff_append]
  simp only [decide_eq_true_eq, Bool.not_eq_true', decide_eq_false_iff_not, ← Array.mem_toList_iff]
  constructor
  · intro hfind
    obtain ⟨hname, before, after, hsplit, hbefore⟩ := hfind
    rw [hsplit] at hpairwise ⊢
    have hbehind := (List.pairwise_cons.1 (List.pairwise_append.1 hpairwise).2.1).1
    refine ⟨by simp, hname, ?_⟩
    intro e he hsame
    rcases List.mem_append.1 he with he | he
    · exact absurd hsame (hbefore e he)
    · rcases List.mem_cons.1 he with rfl | he
      · exact Nat.le_refl _
      · exact Nat.le_of_lt (hbehind e he)
  · intro hleast
    obtain ⟨hmem, hname, hleast⟩ := hleast
    obtain ⟨before, after, hsplit⟩ := List.append_of_mem hmem
    refine ⟨hname, before, after, hsplit, ?_⟩
    intro e he hsame
    rw [hsplit] at hpairwise hleast
    have hlt := (List.pairwise_append.1 hpairwise).2.2 e he c List.mem_cons_self
    have hle := hleast e (List.mem_append_left _ he) hsame
    omega

/-! ## Access by place -/

theorem of_search_eq_some {citations : Array Citation} {low high : Nat}
    (h : search citations offset low high = some c) : c ∈ citations ∧ c.span.start = offset := by
  fun_induction search citations offset low high with
  | case1 => simp at h
  | case2 low high hwindow middle d hd heq =>
    obtain rfl := Option.some.inj h
    exact ⟨Array.mem_of_getElem? hd, heq⟩
  | case3 low high hwindow middle d hd hne hless ih => exact ih h
  | case4 low high hwindow middle d hd hne hge ih => exact ih h
  | case5 => simp at h

theorem IsOrdered.atOffset?_eq_some_iff (h : b.IsOrdered) :
    b.atOffset? offset = some c ↔ c ∈ b.citations ∧ c.span.start = offset := by
  constructor
  · exact of_search_eq_some
  · intro hc
    obtain ⟨hmem, hstart⟩ := hc
    obtain ⟨i, hi⟩ := Array.getElem?_of_mem hmem
    have hlt := (Array.getElem?_eq_some_iff.1 hi).1
    exact search_eq h.pairwise_start (Nat.zero_le i) hlt (Nat.le_refl _) hi hstart

/-- The binary search is a linear one. -/
theorem IsOrdered.atOffset?_eq_find? (h : b.IsOrdered) (offset : Nat) :
    b.atOffset? offset = b.citations.find? (·.span.start = offset) := by
  cases hfind : b.citations.find? (·.span.start = offset) with
  | some c =>
    rw [h.atOffset?_eq_some_iff]
    exact ⟨Array.mem_of_find?_eq_some hfind, by simpa using Array.find?_some hfind⟩
  | none =>
    refine Option.eq_none_iff_forall_ne_some.2 fun c hc => ?_
    obtain ⟨hmem, hstart⟩ := h.atOffset?_eq_some_iff.1 hc
    exact Array.find?_eq_none.1 hfind c hmem (by simpa using hstart)

/-! ## Duplicates -/

/-- References to a name mean one of its citations unless an earlier one has that name. -/
theorem IsOrdered.lookup_name_eq_iff (h : b.IsOrdered) (hc : c ∈ b.citations) :
    b.lookup c.name = some c ↔ ¬ b.IsDuplicate c := by
  rw [h.lookup_eq_some_iff]
  constructor
  · intro hleast
    rintro ⟨e, he, hlt, hname⟩
    exact Nat.not_lt.2 (hleast.2.2 e he hname) hlt
  · intro hfirst
    refine ⟨hc, rfl, fun e he hname => ?_⟩
    exact Nat.not_lt.1 fun hlt => hfirst ⟨e, he, hlt, hname⟩

theorem IsOrdered.duplicates_eq_filter (h : b.IsOrdered) :
    b.duplicates = b.citations.toList.filter fun c => b.IsDuplicate c := by
  refine List.filter_congr fun c hc => ?_
  have hmem := Array.mem_toList_iff.1 hc
  obtain ⟨first, hfirst⟩ := exists_lookup_of_mem hmem
  have hiff := h.lookup_name_eq_iff hmem
  rw [hfirst, Option.some.injEq] at hiff
  have hsame : first.index = c.index ↔ first = c :=
    ⟨h.eq_of_index_eq (h.lookup_eq_some_iff.1 hfirst).1 hmem, fun e => e ▸ rfl⟩
  simp only [hfirst, Option.map_some, ne_eq, Option.some.injEq, hsame, hiff, Decidable.not_not]

theorem IsOrdered.mem_duplicates_iff (h : b.IsOrdered) :
    c ∈ b.duplicates ↔ c ∈ b.citations ∧ b.IsDuplicate c := by
  rw [h.duplicates_eq_filter, List.mem_filter, Array.mem_toList_iff, decide_eq_true_eq]

/-- A citation is a duplicate or one that references can mean. -/
theorem IsOrdered.exists_lookup_or_mem_duplicates_iff (h : b.IsOrdered) :
    ((∃ name, b.lookup name = some c) ∨ c ∈ b.duplicates) ↔ c ∈ b.citations := by
  constructor
  · intro hc
    rcases hc with ⟨name, hname⟩ | hduplicate
    · exact (h.lookup_eq_some_iff.1 hname).1
    · exact (h.mem_duplicates_iff.1 hduplicate).1
  · intro hc
    by_cases hduplicate : b.IsDuplicate c
    · exact Or.inr (h.mem_duplicates_iff.2 ⟨hc, hduplicate⟩)
    · exact Or.inl ⟨c.name, (h.lookup_name_eq_iff hc).2 hduplicate⟩

theorem IsOrdered.lookup_ne_of_mem_duplicates (h : b.IsOrdered) (hc : c ∈ b.duplicates)
    (name : Text) : b.lookup name ≠ some c := by
  intro hname
  obtain ⟨hmem, hduplicate⟩ := h.mem_duplicates_iff.1 hc
  obtain rfl := (h.lookup_eq_some_iff.1 hname).2.1
  exact (h.lookup_name_eq_iff hmem).1 hname hduplicate

/-- The names of a bibliography. -/
def names (b : Bibliography) : Finset Text := (b.citations.toList.map Citation.name).toFinset

/-- Each name has one citation that is no duplicate. -/
theorem IsOrdered.card_names (h : b.IsOrdered) :
    b.names.card = (b.citations.toList.filter fun c => ¬ b.IsDuplicate c).length := by
  have hnodup : ((b.citations.toList.filter fun c => ¬ b.IsDuplicate c).map Citation.name).Nodup := by
    rw [List.Nodup, List.pairwise_map]
    refine (h.pairwise_index.filter _).imp_of_mem ?_
    intro c e hc he hlt hname
    have hfirst : ¬ b.IsDuplicate e := by simpa using (List.mem_filter.1 he).2
    exact hfirst ⟨c, Array.mem_toList_iff.1 (List.mem_filter.1 hc).1, hlt, hname⟩
  have hnames : b.names =
      ((b.citations.toList.filter fun c => ¬ b.IsDuplicate c).map Citation.name).toFinset := by
    ext name
    simp only [names, List.mem_toFinset, List.mem_map, List.mem_filter, decide_eq_true_eq,
      Array.mem_toList_iff]
    constructor
    · intro hname
      obtain ⟨c, hc, rfl⟩ := hname
      obtain ⟨first, hfirst⟩ := exists_lookup_of_mem hc
      obtain ⟨hmem, hname, _⟩ := h.lookup_eq_some_iff.1 hfirst
      exact ⟨first, ⟨hmem, (h.lookup_name_eq_iff hmem).1 (hname ▸ hfirst)⟩, hname⟩
    · intro hname
      obtain ⟨c, ⟨hc, _⟩, hname⟩ := hname
      exact ⟨c, hc, hname⟩
  rw [hnames, List.toFinset_card_of_nodup hnodup, List.length_map]

theorem IsOrdered.size_eq_card_add_length (h : b.IsOrdered) :
    b.size = b.names.card + b.duplicates.length := by
  have hsplit := List.length_eq_length_filter_add (l := b.citations.toList)
    fun c => decide (b.IsDuplicate c)
  rw [h.card_names, h.duplicates_eq_filter, size, ← Array.length_toList, hsplit]
  simp only [decide_not]
  omega

end Bibliography

/-! ## Positions of names -/

namespace Catalogue

/-- The citations that do not stand at the position of their name. -/
def duplicates (c : Catalogue) : List Citation :=
  (c.citations.toList.zipIdx.filter fun (e, i) => c.positions.lookup e.name ≠ some i).map Prod.fst

variable {c : Catalogue}

/-- A citation stands at the position of its name exactly when references to the name mean it. -/
theorem IsIndexed.positions_lookup_eq_iff (h : c.IsIndexed) (hc : c.toBibliography.IsOrdered)
    {e : Citation} {i : Nat} (he : c.citations[i]? = some e) :
    c.positions.lookup e.name = some i ↔ c.lookup e.name = some e := by
  obtain ⟨first, hfirst⟩ := Bibliography.exists_lookup_of_mem (Array.mem_of_getElem? he)
  have hlookup := h.lookup_eq_bind e.name
  rw [hfirst] at hlookup ⊢
  obtain ⟨j, hj, hentry⟩ := Option.bind_eq_some_iff.1 hlookup.symm
  rw [hj, Option.some.injEq, Option.some.injEq]
  constructor
  · intro hji
    rw [hji, he] at hentry
    exact (Option.some.inj hentry).symm
  · intro hsame
    have := hc.index_eq j first hentry
    have := hc.index_eq i e he
    rw [hsame] at *
    omega

theorem IsIndexed.duplicates_eq (h : c.IsIndexed) (hc : c.toBibliography.IsOrdered) :
    c.duplicates = c.toBibliography.duplicates := by
  have hfilter : (c.citations.toList.zipIdx.filter fun (e, i) =>
      c.positions.lookup e.name ≠ some i) =
      c.citations.toList.zipIdx.filter ((fun e => c.toBibliography.IsDuplicate e) ∘ Prod.fst) := by
    refine List.filter_congr fun p hp => ?_
    obtain ⟨e, i⟩ := p
    rw [List.mem_zipIdx_iff_getElem?, Array.getElem?_toList] at hp
    have hiff := hc.lookup_name_eq_iff (Array.mem_of_getElem? hp)
    simp only [Function.comp_apply, ne_eq, h.positions_lookup_eq_iff hc hp, hiff,
      Decidable.not_not]
  rw [duplicates, hfilter, ← List.filter_map, List.zipIdx_map_fst, hc.duplicates_eq_filter]

end Catalogue

/-! ## The bibliography of a text -/

theorem isOrdered_bibliography (t : Text) : (bibliography t).IsOrdered := by
  have hentry : ∀ (i : Nat) (c : Citation), (bibliography t).citations[i]? = some c →
      ∃ d, (definitions t)[i]? = some d ∧ entryOf t i d = c := by
    intro i c hc
    rw [getElem?_bibliography] at hc
    exact Option.map_eq_some_iff.1 hc
  refine ⟨?_, ?_, ?_⟩
  · intro i c hc
    obtain ⟨d, _, rfl⟩ := hentry i c hc
    rfl
  · intro c hc
    obtain ⟨i, hi⟩ := Array.getElem?_of_mem hc
    obtain ⟨d, hd, rfl⟩ := hentry i c hi
    have hscan := (List.mem_filter.1 (List.mem_of_getElem? hd)).1
    exact (occursFrom_of_mem_scan hscan).start_lt_stop
  · rw [citations_eq_map, List.pairwise_map]
    exact (pairwise_scan t).filter _

/-- **Position, name and place lead to the same citations.** A text has one citation for each
    definition, in order, with numbers from one on and spans that follow each other. A name means the
    citation with the least number of that name, an offset the one citation that starts there, and
    nothing if there is none. The duplicates are, in order, the citations with an earlier one of
    their name; all others are those that references can mean, one for each name. The positions that
    are kept for names while the citations are collected lead to the same ones. -/
theorem bibliography_access (t : Text) :
    (bibliography t).citations.toList.map (fun c => (c.name, c.span)) =
      (definitions t).map (fun d => (d.name, d.span)) ∧
    (bibliography t).IsOrdered ∧
    (∀ name c, (bibliography t).lookup name = some c ↔ c ∈ (bibliography t).citations ∧
      c.name = name ∧ ∀ e ∈ (bibliography t).citations, e.name = name → c.index ≤ e.index) ∧
    (∀ name, (bibliography t).lookup name = none ↔
      ∀ c ∈ (bibliography t).citations, c.name ≠ name) ∧
    (∀ offset c, (bibliography t).atOffset? offset = some c ↔
      c ∈ (bibliography t).citations ∧ c.span.start = offset) ∧
    (∀ offset, (bibliography t).atOffset? offset =
      (bibliography t).citations.find? (·.span.start = offset)) ∧
    (bibliography t).duplicates = (bibliography t).citations.toList.filter (fun c =>
      ∃ e ∈ (bibliography t).citations, e.index < c.index ∧ e.name = c.name) ∧
    (∀ c, ((∃ name, (bibliography t).lookup name = some c) ∨ c ∈ (bibliography t).duplicates) ↔
      c ∈ (bibliography t).citations) ∧
    (∀ c ∈ (bibliography t).duplicates, ∀ name, (bibliography t).lookup name ≠ some c) ∧
    (bibliography t).size =
      (bibliography t).names.card + (bibliography t).duplicates.length ∧
    (∃ c : Catalogue, Checked.collect t (scan t) = some c ∧ c.toBibliography = bibliography t ∧
      (∀ name, Checked.lookup c name = some ((bibliography t).lookup name)) ∧
      (∀ offset, Checked.atOffset c offset = some ((bibliography t).atOffset? offset)) ∧
      c.duplicates = (bibliography t).duplicates) := by
  have h := isOrdered_bibliography t
  refine ⟨?_, h, fun _ _ => h.lookup_eq_some_iff, fun _ => Bibliography.lookup_eq_none_iff,
    fun _ _ => h.atOffset?_eq_some_iff, h.atOffset?_eq_find?, h.duplicates_eq_filter,
    fun _ => h.exists_lookup_or_mem_duplicates_iff,
    fun _ hc => h.lookup_ne_of_mem_duplicates hc, h.size_eq_card_add_length, ?_⟩
  · rw [citations_eq_map, List.map_map]
    rfl
  · obtain ⟨c, hcollect, hindexed, hsame⟩ := Checked.exists_collect t
    rw [← hsame] at h ⊢
    exact ⟨c, hcollect, rfl, Checked.lookup_eq hindexed, Checked.atOffset_eq c,
      hindexed.duplicates_eq h⟩

end Citemark
