import Citemark.Proofs.Numbering
import Citemark.Resolution

/-!
# The diagnostics of a text

Three passes note problems: one over the repeated definitions, one over the citations without
address, one over the references. What they note together can be said marker by marker. A marker
has at most one fault, and its fault hangs only on the names and windows of the markers of the text,
so the notes in document order are those of one walk over the markers.

Results:
* `lookup_eq_map_find?`, `duplicates_eq_map_filter`: the bibliography by its definition markers.
* `fault?_eq_some_iff`: when a marker has a fault.
* `Report.foldl_warn`, `faulty_eq_filter`: what one pass notes.
* `diagnostics_resolve_eq`: the diagnostics as one walk over the markers.
* `errorCount_resolve`: how many of them strict mode counts as errors.
* `mem_diagnostics_resolve_iff`: the diagnostics are the faults of the text, in document order.
-/

namespace Citemark

/-! ## Citations by their markers -/

/-- The citation of a definition marker. -/
def citationOf (t : Text) (d : Marker) : Citation := entryOf t ((definitions t).idxOf d) d

theorem nodup_definitions (t : Text) : (definitions t).Nodup :=
  (pairwise_definitions t).imp fun {a b} h e => by
    rw [e] at h
    exact Nat.lt_irrefl _ h

theorem idxOf_definitions {t : Text} {i : Nat} {d : Marker} (h : (definitions t)[i]? = some d) :
    (definitions t).idxOf d = i := by
  obtain ⟨hlt, rfl⟩ := List.getElem?_eq_some_iff.1 h
  exact (nodup_definitions t).idxOf_getElem i hlt

theorem citations_eq_map (t : Text) :
    (bibliography t).citations.toList = (definitions t).map (citationOf t) := by
  rw [citations_bibliography, List.mapIdx_eq_iff]
  intro i
  rw [List.getElem?_map]
  cases h : (definitions t)[i]? with
  | none => rfl
  | some d => rw [Option.map_some, Option.map_some, citationOf, idxOf_definitions h]

theorem lookup_eq_map_find? (t name : Text) : (bibliography t).lookup name =
    ((definitions t).find? (·.name = name)).map (citationOf t) := by
  rw [Bibliography.lookup, ← Array.find?_toList, citations_eq_map, List.find?_map]
  rfl

theorem index_citationOf_inj {t : Text} {d e : Marker} (hd : d ∈ definitions t)
    (he : e ∈ definitions t) (h : (citationOf t d).index = (citationOf t e).index) : d = e := by
  obtain ⟨i, hi⟩ := List.getElem?_of_mem hd
  obtain ⟨j, hj⟩ := List.getElem?_of_mem he
  have hij : i = j := by
    rw [citationOf, citationOf, idxOf_definitions hi, idxOf_definitions hj] at h
    exact Nat.succ.inj h
  rw [hij, hj, Option.some.injEq] at hi
  exact hi.symm

/-! ## Repeated names -/

/-- Whether a definition in front of a marker has its name. -/
def IsRepeat (t : Text) (m : Marker) : Prop :=
  ∃ e ∈ definitions t, e.span.start < m.span.start ∧ e.name = m.name

instance (t : Text) (m : Marker) : Decidable (IsRepeat t m) :=
  inferInstanceAs (Decidable (∃ e ∈ definitions t, _))

/-- A definition is the first one of its name unless one in front has that name. -/
theorem find?_definitions_eq_iff {t : Text} {d : Marker} (h : d ∈ definitions t) :
    (definitions t).find? (·.name = d.name) = some d ↔ ¬ IsRepeat t d := by
  have hpairwise := pairwise_definitions t
  constructor
  · rintro hfind ⟨e, he, hstart, hname⟩
    obtain ⟨_, before, after, hsplit, hbefore⟩ := List.find?_eq_some_iff_append.1 hfind
    rw [hsplit] at he hpairwise
    rcases List.mem_append.1 he with he | he
    · simpa [hname] using hbefore e he
    · have hbehind := (List.pairwise_cons.1 (List.pairwise_append.1 hpairwise).2.1).1
      rcases List.mem_cons.1 he with rfl | he
      · exact Nat.lt_irrefl _ hstart
      · exact Nat.lt_asymm hstart (hbehind e he)
  · intro hfirst
    obtain ⟨before, after, hsplit⟩ := List.append_of_mem h
    refine List.find?_eq_some_iff_append.2 ⟨by simp, before, after, hsplit, fun e he => ?_⟩
    rw [hsplit] at hpairwise
    have hstart := (List.pairwise_append.1 hpairwise).2.2 e he d List.mem_cons_self
    have hmem : e ∈ definitions t := by
      rw [hsplit]
      exact List.mem_append_left _ he
    simpa using fun hname => hfirst ⟨e, hmem, hstart, hname⟩

/-- References to the name of a definition mean it unless it is repeated. -/
theorem index_lookup_eq_iff {t : Text} {d : Marker} (h : d ∈ definitions t) :
    ((bibliography t).lookup d.name).map Citation.index = some (citationOf t d).index ↔
      ¬ IsRepeat t d := by
  rw [← find?_definitions_eq_iff h, lookup_eq_map_find?, Option.map_map, Option.map_eq_some_iff]
  constructor
  · rintro ⟨e, hfind, hindex⟩
    rw [hfind, index_citationOf_inj (List.mem_of_find?_eq_some hfind) h hindex]
  · exact fun hfind => ⟨d, hfind, rfl⟩

theorem duplicates_eq_map_filter (t : Text) : (bibliography t).duplicates =
    ((definitions t).filter fun d => IsRepeat t d).map (citationOf t) := by
  rw [Bibliography.duplicates, citations_eq_map, List.filter_map]
  congr 1
  refine List.filter_congr fun d hd => ?_
  have hindex := index_lookup_eq_iff hd
  simp only [Function.comp_apply, decide_eq_decide]
  show ((bibliography t).lookup d.name).map Citation.index ≠ some (citationOf t d).index ↔ _
  rw [ne_eq, hindex, Decidable.not_not]

/-! ## Faults -/

/-- Whether a reference of the text uses a name. -/
def IsCited (t name : Text) : Prop := ∃ r ∈ scan t, r.isReference = true ∧ r.name = name

instance (t name : Text) : Decidable (IsCited t name) :=
  inferInstanceAs (Decidable (∃ r ∈ scan t, _))

/-- What is wrong with a marker of a text. -/
def IsAtFault (t : Text) (m : Marker) : Code → Prop
  | .duplicateDefinition => m ∈ definitions t ∧ IsRepeat t m
  | .missingUrl =>
    (∃ i, (definitions t)[i]? = some m ∧ address? t i = none) ∧ ¬ IsRepeat t m ∧ IsCited t m.name
  | .unmatchedReference => m ∈ scan t ∧ m.isReference = true ∧ ¬ IsDefined t m.name

/-- The fault of a marker of a text. -/
def fault? (t : Text) (m : Marker) : Option Code :=
  match m.kind with
  | .reference => if IsDefined t m.name then none else some .unmatchedReference
  | .definition =>
    if IsRepeat t m then some .duplicateDefinition
    else if (citationOf t m).url = none ∧ IsCited t m.name then some .missingUrl
    else none

theorem mem_definitions_iff {t : Text} {m : Marker} :
    m ∈ definitions t ↔ m ∈ scan t ∧ m.kind = .definition := by
  simp [definitions, Marker.isDefinition]

theorem url_citationOf_eq_none_iff {t : Text} {d : Marker} (h : d ∈ definitions t) :
    (citationOf t d).url = none ↔ ∃ i, (definitions t)[i]? = some d ∧ address? t i = none := by
  have haddress : ∀ {i}, (definitions t)[i]? = some d → address? t i = (citationOf t d).url := by
    intro i hi
    rw [address?, hi, Option.bind_some, citationOf, idxOf_definitions hi]
    rfl
  constructor
  · intro hurl
    obtain ⟨i, hi⟩ := List.getElem?_of_mem h
    exact ⟨i, hi, by rw [haddress hi, hurl]⟩
  · rintro ⟨i, hi, hnone⟩
    rw [← haddress hi, hnone]

/-- A marker has one fault at most, since the faults exclude each other. -/
theorem fault?_eq_some_iff {t : Text} {m : Marker} (h : m ∈ scan t) {code : Code} :
    fault? t m = some code ↔ IsAtFault t m code := by
  cases hkind : m.kind with
  | reference =>
    have hnot : m ∉ definitions t := by simp [mem_definitions_iff, hkind]
    have hnone : ∀ i, (definitions t)[i]? ≠ some m := fun i hi => hnot (List.mem_of_getElem? hi)
    cases code <;> simp [fault?, IsAtFault, hkind, hnot, hnone, h, Marker.isReference]
  | definition =>
    have hmem := mem_definitions_iff.2 ⟨h, hkind⟩
    have hurl := url_citationOf_eq_none_iff hmem
    by_cases hrepeat : IsRepeat t m
    · cases code <;> simp [fault?, IsAtFault, hkind, hmem, hrepeat, Marker.isReference]
    · cases code <;> simp [fault?, IsAtFault, hkind, hrepeat, ← hurl, Marker.isReference]

/-! ## Notes -/

/-- What is said about a marker at fault. -/
def faultMessage (t : Text) (m : Marker) : Code → Text
  | .duplicateDefinition => "duplicate definition of citation '".toList ++ m.name ++
      "' (numbered ".toList ++ Text.ofNat (citationOf t m).index ++
      "); references use the first".toList
  | .missingUrl => "no URL found for citation '".toList ++ m.name ++ "'".toList
  | .unmatchedReference =>
    "no definition found for citation reference '".toList ++ m.literal ++ "'".toList

/-- The note of a fault, at the start of its marker. -/
def diagnosis (t : Text) (strict : Bool) (m : Marker) (code : Code) : Diagnostic where
  severity := if strict then .error else .warning
  code
  message := faultMessage t m code
  offset := m.span.start
  line := t.lineAt m.span.start

/-- The markers with one fault, in document order. -/
def faulty (t : Text) (code : Code) : List Marker :=
  (scan t).filter fun m => fault? t m = some code

theorem faulty_eq_filter {t : Text} {code : Code} {p : Marker → Bool}
    (h : ∀ m ∈ scan t, IsAtFault t m code ↔ p m = true) : faulty t code = (scan t).filter p := by
  refine List.filter_congr fun m hm => ?_
  rw [Bool.eq_iff_iff, decide_eq_true_eq, fault?_eq_some_iff hm]
  exact h m hm

namespace Report

/-- Notes every marker with one fault. -/
def noteAll (r : Report) (t : Text) (code : Code) : Report :=
  { r with found := r.found ++ (faulty t code).map (diagnosis t r.strict · code) }

theorem foldl_warn {α : Type} (l : List α) (r : Report) (code : Code) (message : α → Text)
    (t : Text) (offset : α → Nat) :
    l.foldl (fun r a => r.warn code (message a) t (offset a)) r =
      { r with found := r.found ++ l.map fun a =>
        ⟨r.severity, code, message a, offset a, t.lineAt (offset a)⟩ } := by
  induction l generalizing r with
  | nil => simp
  | cons a l ih =>
    rw [List.foldl_cons, ih, warn, List.map_cons, List.append_assoc]
    rfl

theorem offset_le_trans (a b c : Diagnostic) (hab : decide (a.offset ≤ b.offset) = true)
    (hbc : decide (b.offset ≤ c.offset) = true) : decide (a.offset ≤ c.offset) = true := by
  rw [decide_eq_true_eq] at *
  exact Nat.le_trans hab hbc

theorem offset_le_total (a b : Diagnostic) :
    (decide (a.offset ≤ b.offset) || decide (b.offset ≤ a.offset)) = true := by
  rw [Bool.or_eq_true, decide_eq_true_eq, decide_eq_true_eq]
  exact Nat.le_total _ _

theorem pairwise_sorted (r : Report) : r.sorted.Pairwise fun a b => a.offset ≤ b.offset :=
  (List.pairwise_mergeSort offset_le_trans offset_le_total r.found).imp fun h => of_decide_eq_true h

end Report

namespace Bibliography

theorem warnDuplicates_bibliography (t : Text) (r : Report) :
    (bibliography t).warnDuplicates t r = r.noteAll t .duplicateDefinition := by
  have hfaulty : faulty t .duplicateDefinition = (definitions t).filter fun d => IsRepeat t d := by
    rw [definitions, List.filter_filter]
    refine faulty_eq_filter fun m hm => ?_
    simp [IsAtFault, mem_definitions_iff, hm, Marker.isDefinition, and_comm]
  rw [warnDuplicates, Report.foldl_warn, duplicates_eq_map_filter, List.map_map, Report.noteAll,
    hfaulty]
  rfl

theorem isCanonical_citationOf {t : Text} {d : Marker} (h : d ∈ definitions t) :
    (bibliography t).isCanonical (citationOf t d) = true ↔ ¬ IsRepeat t d := by
  rw [← index_lookup_eq_iff h]
  show ((bibliography t).lookup d.name).any _ = true ↔ _
  cases (bibliography t).lookup d.name <;> simp

theorem isCited_scan_iff {t name : Text} : isCited (scan t) name = true ↔ IsCited t name := by
  simp [isCited, IsCited]

theorem warnMissing_bibliography (t : Text) (r : Report) :
    (bibliography t).warnMissing (scan t) t r = r.noteAll t .missingUrl := by
  have hfaulty : faulty t .missingUrl = (definitions t).filter fun d =>
      ((citationOf t d).url.isNone && (bibliography t).isCanonical (citationOf t d) &&
        isCited (scan t) d.name) := by
    rw [definitions, List.filter_filter]
    refine faulty_eq_filter fun m hm => ?_
    by_cases hkind : m.kind = .definition
    · have hmem := mem_definitions_iff.2 ⟨hm, hkind⟩
      simp [IsAtFault, ← url_citationOf_eq_none_iff hmem, isCanonical_citationOf hmem,
        isCited_scan_iff, Marker.isDefinition, hkind, and_assoc]
    · have hnone : ∀ i, (definitions t)[i]? ≠ some m := fun i hi =>
        hkind (mem_definitions_iff.1 (List.mem_of_getElem? hi)).2
      simp [IsAtFault, hnone, Marker.isDefinition, hkind]
  rw [warnMissing, Report.foldl_warn, citations_eq_map, List.filter_map, List.map_map,
    Report.noteAll, hfaulty]
  rfl

theorem warnUnmatched_bibliography (t : Text) (r : Report) :
    (bibliography t).warnUnmatched (scan t) t r = r.noteAll t .unmatchedReference := by
  have hfaulty : faulty t .unmatchedReference = (scan t).filter fun m =>
      m.isReference && ((bibliography t).lookup m.name).isNone :=
    faulty_eq_filter fun m hm => by simp [IsAtFault, hm, lookup_bibliography_eq_none_iff]
  rw [warnUnmatched, Report.foldl_warn, Report.noteAll, hfaulty]
  rfl

end Bibliography

/-- The notes of all markers with one fault, for one fault after the other, are those of one walk
    over the markers in another order. -/
theorem faults_perm (f : Marker → Option Code) (note : Marker → Code → Diagnostic)
    (ms : List Marker) :
    ((ms.filter (f · = some .duplicateDefinition)).map (note · .duplicateDefinition) ++
      ((ms.filter (f · = some .missingUrl)).map (note · .missingUrl) ++
        (ms.filter (f · = some .unmatchedReference)).map (note · .unmatchedReference))).Perm
      (ms.filterMap fun m => (f m).map (note m)) := by
  induction ms with
  | nil => rfl
  | cons m ms ih =>
    simp only [List.filter_cons, List.filterMap_cons]
    cases f m with
    | none => exact ih
    | some code =>
      cases code with
      | duplicateDefinition => exact ih.cons _
      | missingUrl => exact List.perm_middle.trans (ih.cons _)
      | unmatchedReference =>
        rw [← List.append_assoc] at ih ⊢
        exact List.perm_middle.trans (ih.cons _)

theorem pairwise_diagnoses (t : Text) (strict : Bool) :
    ((scan t).filterMap fun m => (fault? t m).map (diagnosis t strict m)).Pairwise
      fun a b => a.offset < b.offset := by
  refine List.Pairwise.filterMap _ ?_ (pairwise_start_scan t)
  intro a b hab d hd e he
  obtain ⟨_, _, rfl⟩ := Option.map_eq_some_iff.1 hd
  obtain ⟨_, _, rfl⟩ := Option.map_eq_some_iff.1 he
  exact hab

/-- What the three passes together note. -/
theorem exists_report (t : Text) (strict : Bool) : ∃ r : Report,
    (resolve t strict).diagnostics = r.sorted ∧ r.found.Perm
      ((scan t).filterMap fun m => (fault? t m).map (diagnosis t strict m)) := by
  refine ⟨((Report.noteAll ⟨strict, []⟩ t .duplicateDefinition).noteAll t .missingUrl).noteAll t
    .unmatchedReference, ?_, ?_⟩
  · rw [← Bibliography.warnDuplicates_bibliography, ← Bibliography.warnMissing_bibliography,
      ← Bibliography.warnUnmatched_bibliography]
    rfl
  · have hfaults := faults_perm (fault? t) (diagnosis t strict) (scan t)
    rw [← List.append_assoc] at hfaults
    exact hfaults

/-- The diagnostics are the notes of one walk over the markers. -/
theorem diagnostics_resolve_eq (t : Text) (strict : Bool) : (resolve t strict).diagnostics =
    (scan t).filterMap fun m => (fault? t m).map (diagnosis t strict m) := by
  obtain ⟨r, hr, hfound⟩ := exists_report t strict
  have hstrict := pairwise_diagnoses t strict
  have hperm := r.sorted_perm.trans hfound
  rw [hr]
  -- no two notes share an offset, so sorting leaves no choice
  have hne : r.sorted.Pairwise fun a b => a.offset ≠ b.offset :=
    (hperm.pairwise_iff fun h => Ne.symm h).2 (hstrict.imp Nat.ne_of_lt)
  refine hperm.eq_of_pairwise (fun a b _ _ hab hba => absurd hab (Nat.lt_asymm hba)) ?_ hstrict
  exact (r.pairwise_sorted.and hne).imp fun ⟨hle, hne⟩ => Nat.lt_of_le_of_ne hle hne

/-- Each diagnostic is the note of a fault of some marker. -/
theorem exists_diagnosis_of_mem {t : Text} {strict : Bool} {d : Diagnostic}
    (h : d ∈ (resolve t strict).diagnostics) :
    ∃ m ∈ scan t, ∃ code, fault? t m = some code ∧ d = diagnosis t strict m code := by
  rw [diagnostics_resolve_eq, List.mem_filterMap] at h
  obtain ⟨m, hm, hd⟩ := h
  obtain ⟨code, hcode, rfl⟩ := Option.map_eq_some_iff.1 hd
  exact ⟨m, hm, code, hcode, rfl⟩

theorem severity_of_mem_diagnostics {t : Text} {strict : Bool} {d : Diagnostic}
    (h : d ∈ (resolve t strict).diagnostics) :
    d.severity = if strict then .error else .warning := by
  obtain ⟨m, _, code, _, rfl⟩ := exists_diagnosis_of_mem h
  rfl

/-- In strict mode every diagnostic counts as an error, otherwise none does. -/
theorem errorCount_resolve (t : Text) (strict : Bool) : (resolve t strict).errorCount =
    if strict then (resolve t strict).diagnostics.length else 0 := by
  cases strict with
  | true =>
    exact List.countP_eq_length.2 fun d hd => by simpa using severity_of_mem_diagnostics hd
  | false => exact List.countP_eq_zero.2 fun d hd => by simp [severity_of_mem_diagnostics hd]

theorem line_diagnosis {t : Text} {m : Marker} (h : m ∈ scan t) : ∃ before after : Text,
    t = before ++ after ∧ before.byteSize = m.span.start ∧
      t.lineAt m.span.start = 1 + before.count '\n' := by
  obtain ⟨_, before, after, rfl, hstart, _⟩ := occursFrom_of_mem_scan h
  rw [Nat.zero_add] at hstart
  refine ⟨before, m.literal ++ after, List.append_assoc _ _ _, hstart.symm, ?_⟩
  rw [hstart, List.append_assoc, Text.lineAt_eq]

/-- **The diagnostics of a text are its faults.** There is one for each marker at fault and no
    other: for each definition whose name one in front has, for each first definition of a cited
    name that has no address, and for each reference to a name without definition. They are in
    strict document order, so no marker has two, and each is on the line that its marker starts
    in. -/
theorem mem_diagnostics_resolve_iff (t : Text) (strict : Bool) :
    (∀ d, d ∈ (resolve t strict).diagnostics ↔
      ∃ m code, IsAtFault t m code ∧ d = diagnosis t strict m code) ∧
    (resolve t strict).diagnostics.Pairwise (fun a b => a.offset < b.offset) ∧
    (∀ m code code', IsAtFault t m code → IsAtFault t m code' → code = code') ∧
    (∀ d ∈ (resolve t strict).diagnostics, ∃ before after : Text, t = before ++ after ∧
      before.byteSize = d.offset ∧ d.line = 1 + before.count '\n') := by
  have hscan : ∀ {m code}, IsAtFault t m code → m ∈ scan t := by
    intro m code h
    cases code with
    | duplicateDefinition => exact (mem_definitions_iff.1 h.1).1
    | missingUrl =>
      obtain ⟨i, hi, _⟩ := h.1
      exact (mem_definitions_iff.1 (List.mem_of_getElem? hi)).1
    | unmatchedReference => exact h.1
  have hmem : ∀ d, d ∈ (resolve t strict).diagnostics ↔
      ∃ m code, IsAtFault t m code ∧ d = diagnosis t strict m code := by
    intro d
    rw [diagnostics_resolve_eq, List.mem_filterMap]
    constructor
    · rintro ⟨m, hm, hd⟩
      obtain ⟨code, hcode, rfl⟩ := Option.map_eq_some_iff.1 hd
      exact ⟨m, code, (fault?_eq_some_iff hm).1 hcode, rfl⟩
    · rintro ⟨m, code, hfault, rfl⟩
      exact ⟨m, hscan hfault, by rw [(fault?_eq_some_iff (hscan hfault)).2 hfault]; rfl⟩
  refine ⟨hmem, ?_, ?_, ?_⟩
  · rw [diagnostics_resolve_eq]
    exact pairwise_diagnoses t strict
  · intro m code code' h h'
    have hm := hscan h
    rw [← fault?_eq_some_iff hm] at h h'
    exact Option.some.inj (h.symm.trans h')
  · intro d hd
    obtain ⟨m, code, hfault, rfl⟩ := (hmem d).1 hd
    exact line_diagnosis (hscan hfault)

end Citemark
