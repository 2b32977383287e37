import Citemark.Bibliography
import Citemark.Proofs.Occurrence

/-!
# The numbering of definitions

What a bibliography holds, said by positions in the list of definition markers: entry `i` has the
number `i + 1`, the name and span of the definition at position `i`, and the first link between that
definition and the next.

Results:
* `citations_bibliography`: the entries, one for each definition and in order.
* `lookup_bibliography`: a name is looked up at its first definition.
* `atOffset?_bibliography`: the binary search finds the entry of every definition marker.
-/

namespace Citemark

/-- The definition markers of a text, in document order. -/
def definitions (t : Text) : List Marker := (scan t).filter Marker.isDefinition

/-- The bytes between the definition at a position and the next one, or the end of the text. -/
def windowOf (t : Text) (definition : Marker) (i : Nat) : Text :=
  t.slice ⟨definition.span.stop,
    ((definitions t)[i + 1]?.map (·.span.start)).getD t.byteSize⟩

/-- The address of the definition at a position: the first link of its window. -/
def address? (t : Text) (i : Nat) : Option Text :=
  (definitions t)[i]?.bind fun d => Link.first? (windowOf t d i)

/-- The bibliography that a text is resolved with. -/
def bibliography (t : Text) : Bibliography := Bibliography.collect t (scan t)

theorem pairwise_start_scan (t : Text) :
    (scan t).Pairwise fun a b => a.span.start < b.span.start := by
  refine (pairwise_scan t).imp_of_mem fun {a b} ha _ h => ?_
  have := (occursFrom_of_mem_scan ha).start_lt_stop
  omega

theorem pairwise_definitions (t : Text) :
    (definitions t).Pairwise fun a b => a.span.start < b.span.start :=
  (pairwise_start_scan t).filter _

/-! ## Entries -/

namespace Bibliography

theorem citations_addAll (t : Text) (b : Bibliography) (ms : List Marker) :
    (addAll t b ms).citations.toList = b.citations.toList ++ ms.mapIdx fun i d =>
      ⟨b.size + i + 1, d.name, Link.first? (window t d (ms.drop (i + 1))), d.span⟩ := by
  induction ms generalizing b with
  | nil => simp [addAll]
  | cons m ms ih =>
    rw [addAll, ih, size_add, List.mapIdx_cons]
    simp only [add, Array.toList_push, List.append_assoc, List.cons_append, List.nil_append,
      List.drop_succ_cons, List.drop_zero, Nat.add_zero, size]
    congr 3
    funext i d
    rw [Nat.add_right_comm _ 1 i, Nat.add_assoc _ i 1]

theorem window_drop (t : Text) (d : Marker) (i : Nat) :
    window t d ((definitions t).drop (i + 1)) = windowOf t d i := by
  unfold window windowOf
  rw [← List.head?_drop]
  cases (definitions t).drop (i + 1) <;> rfl

end Bibliography

/-- The entry of the definition at a position. -/
def entryOf (t : Text) (i : Nat) (d : Marker) : Citation :=
  ⟨i + 1, d.name, Link.first? (windowOf t d i), d.span⟩

theorem citations_bibliography (t : Text) :
    (bibliography t).citations.toList = (definitions t).mapIdx (entryOf t) := by
  rw [bibliography, Bibliography.collect, Bibliography.citations_addAll, ← definitions]
  simp only [Bibliography.window_drop, Bibliography.size, List.size_toArray, List.length_nil,
    Nat.zero_add, List.nil_append]
  rfl

theorem getElem?_bibliography (t : Text) (i : Nat) :
    (bibliography t).citations[i]? = (definitions t)[i]?.map (entryOf t i) := by
  rw [← Array.getElem?_toList, citations_bibliography, List.getElem?_mapIdx]

/-! ## Access by name -/

theorem find?_mapIdx {α β : Type} (l : List α) (f : Nat → α → β) (p : β → Bool) (q : α → Bool)
    (h : ∀ i a, p (f i a) = q a) :
    (l.mapIdx f).find? p = (l.findIdx? q).bind fun i => l[i]?.map (f i) := by
  induction l generalizing f with
  | nil => simp
  | cons a l ih =>
    rw [List.mapIdx_cons, List.find?_cons, List.findIdx?_cons, h]
    cases hq : q a with
    | true => simp
    | false =>
      rw [ih (fun i => f (i + 1)) (fun i => h (i + 1))]
      cases l.findIdx? q <;> simp

theorem lookup_bibliography (t name : Text) :
    (bibliography t).lookup name =
      ((definitions t).findIdx? (·.name = name)).bind fun i =>
        (definitions t)[i]?.map (entryOf t i) := by
  rw [Bibliography.lookup, ← Array.find?_toList, citations_bibliography]
  exact find?_mapIdx _ _ _ _ fun _ _ => rfl

/-- Whether some definition of a text has a name. -/
def IsDefined (t name : Text) : Prop := ∃ d ∈ scan t, d.isDefinition = true ∧ d.name = name

instance (t name : Text) : Decidable (IsDefined t name) :=
  inferInstanceAs (Decidable (∃ d ∈ scan t, _))

theorem lookup_bibliography_eq_none_iff {t name : Text} :
    (bibliography t).lookup name = none ↔ ¬ IsDefined t name := by
  have hdefined : IsDefined t name ↔ ∃ d ∈ definitions t, d.name = name := by
    simp [IsDefined, definitions, and_assoc]
  rw [lookup_bibliography, hdefined]
  cases hi : (definitions t).findIdx? (·.name = name) with
  | none => simpa using hi
  | some i =>
    obtain ⟨hlt, hname, _⟩ := List.findIdx?_eq_some_iff_getElem.1 hi
    have hmem : ∃ d ∈ definitions t, d.name = name :=
      ⟨_, List.getElem_mem hlt, by simpa using hname⟩
    simp [List.getElem?_eq_getElem hlt, hmem]

/-! ## Access by offset -/

namespace Bibliography

/-- On entries in order, the binary search finds the entry that starts at an offset, if that lies
    within its bounds. -/
theorem search_eq {citations : Array Citation} {offset low high i : Nat} {c : Citation}
    (hsorted : citations.toList.Pairwise fun a b => a.span.start < b.span.start)
    (hlow : low ≤ i) (hhigh : i < high) (hsize : high ≤ citations.size)
    (hi : citations[i]? = some c) (hc : c.span.start = offset) :
    search citations offset low high = some c := by
  have hlt : ∀ {j k : Nat} {a b : Citation}, j < k → citations[j]? = some a →
      citations[k]? = some b → a.span.start < b.span.start := by
    intro j k a b hjk ha hb
    rw [← Array.getElem?_toList] at ha hb
    obtain ⟨_, rfl⟩ := List.getElem?_eq_some_iff.1 ha
    obtain ⟨_, rfl⟩ := List.getElem?_eq_some_iff.1 hb
    exact List.pairwise_iff_getElem.1 hsorted j k _ _ hjk
  fun_induction search citations offset low high with
  | case1 low high hwindow middle hnone =>
    have := Array.getElem?_eq_none_iff.1 hnone
    omega
  | case2 low high hwindow middle d hd heq =>
    -- two entries with one start are one entry
    rcases Nat.lt_trichotomy middle i with h | h | h
    · have := hlt h hd hi
      omega
    · rw [h] at hd
      exact hd.symm.trans hi
    · have := hlt h hi hd
      omega
  | case3 low high hwindow middle d hd hne hless ih =>
    rcases Nat.lt_trichotomy middle i with h | h | h
    · exact ih h hhigh hsize
    · rw [h, hi, Option.some.injEq] at hd
      exact absurd (hd ▸ hc) hne
    · have := hlt h hi hd
      omega
  | case4 low high hwindow middle d hd hne hge ih =>
    rcases Nat.lt_trichotomy middle i with h | h | h
    · have := hlt h hd hi
      omega
    · rw [h, hi, Option.some.injEq] at hd
      exact absurd (hd ▸ hc) hne
    · exact ih hlow h (by omega)
  | case5 low high hwindow => omega

end Bibliography

theorem atOffset?_bibliography {t : Text} {i : Nat} {d : Marker}
    (h : (definitions t)[i]? = some d) :
    (bibliography t).atOffset? d.span.start = some (entryOf t i d) := by
  have hentry : (bibliography t).citations[i]? = some (entryOf t i d) := by
    rw [getElem?_bibliography, h, Option.map_some]
  refine Bibliography.search_eq ?_ (Nat.zero_le i) ?_ (Nat.le_refl _) hentry rfl
  · rw [citations_bibliography, List.pairwise_iff_getElem]
    intro j k hj hk hjk
    simp only [List.getElem_mapIdx, entryOf]
    exact List.pairwise_iff_getElem.1 (pairwise_definitions t) j k _ _ hjk
  · exact (Array.getElem?_eq_some_iff.1 hentry).1

end Citemark
