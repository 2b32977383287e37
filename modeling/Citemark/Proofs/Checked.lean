import Citemark.Proofs.Alternation
import Citemark.Proofs.Diagnosis
import Citemark.Proofs.Rendering

/-!
# Checked access

Text is cut at byte offsets, citations are taken by their position, and a matched token is looked up
in the map it came from. None of this is checked when a text is rendered. Here rendering is written
once more, loop by loop, with a check in front of each such access, and `none` for one that must not
happen: a cut outside of the text, inside a character, or with its ends the wrong way round; a
position behind the last citation; a match that is no token. No text, map or mode comes to that.

Results:
* `IsBoundary.isSliceable`: two boundaries in order can be cut out.
* `Catalogue.isIndexed_add`, `Checked.exists_addAll`: positions stay those of the first citations
  while a bibliography grows.
* `Checked.lookup_eq`, `Checked.atOffset_eq`: positions that are looked up lie in the bibliography.
* `Checked.rewrite_eq`: every cut of the rewriting is one between boundaries.
* `Checked.resolve_eq`, `Checked.render_eq`: resolution and rendering with checks.
* `render_checks`: no check fails, whatever the text, the map and the mode.
-/

namespace Citemark

/-! ## Cuts -/

namespace Text

/-- A span can be cut out of a text: its ends are in order, not behind the end of the text, and not
    inside a character. -/
structure IsSliceable (t : Text) (span : Span) : Prop where
  start_le_stop : span.start ≤ span.stop
  stop_le_size : span.stop ≤ t.byteSize
  isBoundary_start : t.IsBoundary span.start
  isBoundary_stop : t.IsBoundary span.stop

instance (t : Text) (span : Span) : Decidable (t.IsSliceable span) :=
  decidable_of_iff (span.start ≤ span.stop ∧ span.stop ≤ t.byteSize ∧ t.IsBoundary span.start ∧
      t.IsBoundary span.stop)
    ⟨fun ⟨hle, hsize, hstart, hstop⟩ => ⟨hle, hsize, hstart, hstop⟩,
      fun h => ⟨h.start_le_stop, h.stop_le_size, h.isBoundary_start, h.isBoundary_stop⟩⟩

theorem IsBoundary.isSliceable {t : Text} {start stop : Nat} (hstart : t.IsBoundary start)
    (hstop : t.IsBoundary stop) (h : start ≤ stop) : t.IsSliceable ⟨start, stop⟩ :=
  ⟨h, hstop.le_byteSize, hstart, hstop⟩

/-- What is cut out stands in the text at the bytes of the span. -/
theorem IsSliceable.exists_eq_append {t : Text} {span : Span} (h : t.IsSliceable span) :
    ∃ front back, t = front ++ t.slice span ++ back ∧ front.byteSize = span.start ∧
      front.byteSize + (t.slice span).byteSize = span.stop := by
  obtain ⟨hle, _, ⟨front, rest, hstart, hfront⟩, ⟨before, back, hstop, hbefore⟩⟩ := h
  obtain ⟨cut, rfl, rfl⟩ := eq_append_of_byteSize_le (hstart.symm.trans hstop) (by omega)
  rw [byteSize_append] at hbefore
  have hcut : t.slice span = cut := by
    have hspan : span = ⟨front.byteSize, front.byteSize + cut.byteSize⟩ := by
      rw [hbefore, hfront]
    rw [hspan, hstop]
    exact slice_append front cut back
  rw [hcut]
  exact ⟨front, back, hstop, hfront, hbefore⟩

end Text

namespace Marker

variable {t : Text} {m : Marker}

theorem OccursFrom.isBoundary_start (h : m.OccursFrom 0 t) : t.IsBoundary m.span.start := by
  obtain ⟨_, before, after, rfl, hstart, _⟩ := h
  exact ⟨before, m.literal ++ after, List.append_assoc _ _ _, by omega⟩

theorem OccursFrom.isBoundary_stop (h : m.OccursFrom 0 t) : t.IsBoundary m.span.stop := by
  obtain ⟨_, before, after, rfl, hstart, hstop⟩ := h
  exact ⟨before ++ m.literal, after, rfl, by rw [Text.byteSize_append]; omega⟩

theorem OccursFrom.isSliceable (h : m.OccursFrom 0 t) : t.IsSliceable m.span :=
  h.isBoundary_start.isSliceable h.isBoundary_stop (Nat.le_of_lt h.start_lt_stop)

end Marker

/-! ## Positions of names -/

/-- A bibliography with the position of the first citation of each name. -/
structure Catalogue extends Bibliography where
  positions : List (Text × Nat) := []

namespace Catalogue

/-- Appends the entry of the next definition. A name that has a position keeps it. -/
def add (c : Catalogue) (name : Text) (url : Option Text) (span : Span) : Catalogue where
  toBibliography := c.toBibliography.add name url span
  positions :=
    if (c.positions.lookup name).isSome then c.positions else (name, c.size) :: c.positions

/-- The positions are those of the first citations of each name. -/
def IsIndexed (c : Catalogue) : Prop :=
  ∀ name, c.positions.lookup name = c.citations.toList.findIdx? (·.name = name)

theorem IsIndexed.lookup_eq_bind {c : Catalogue} (h : c.IsIndexed) (name : Text) :
    c.lookup name = (c.positions.lookup name).bind fun i => c.citations[i]? := by
  rw [Bibliography.lookup, ← Array.find?_toList, List.find?_eq_bind_findIdx?_getElem?, h name]
  simp only [Array.getElem?_toList]

theorem isIndexed_empty : IsIndexed {} := fun _ => rfl

theorem isIndexed_add {c : Catalogue} (h : c.IsIndexed) (name : Text) (url : Option Text)
    (span : Span) : (c.add name url span).IsIndexed := by
  intro other
  have hcitations : (c.add name url span).citations.toList =
      c.citations.toList ++ [⟨c.size + 1, name, url, span⟩] := by
    simp [add, Bibliography.add, Bibliography.size]
  have hlength : c.citations.toList.length = c.size := by simp [Bibliography.size]
  rw [hcitations, List.findIdx?_append, ← h other, List.findIdx?_singleton, hlength]
  cases hname : c.positions.lookup name with
  | some i =>
    have hkept : (c.add name url span).positions = c.positions := by simp [add, hname]
    rw [hkept]
    by_cases heq : name = other
    · rw [← heq, hname, Option.some_or]
    · simp [heq]
  | none =>
    have hnew : (c.add name url span).positions = (name, c.size) :: c.positions := by
      simp [add, hname]
    rw [hnew, List.lookup_cons]
    by_cases heq : name = other
    · subst heq
      simp [hname]
    · have hbeq : (other == name) = false := by simpa using Ne.symm heq
      simp [heq, hbeq]

end Catalogue

/-! ## Checked rendering -/

namespace Checked

/-- Cuts a span out of a text. -/
def slice (t : Text) (span : Span) : Option Text :=
  if t.IsSliceable span then some (t.slice span) else none

/-- Where the window of a definition is, given the definitions behind it. -/
def windowSpan (t : Text) (definition : Marker) : List Marker → Span
  | [] => ⟨definition.span.stop, t.byteSize⟩
  | next :: _ => ⟨definition.span.stop, next.span.start⟩

/-- Adds the given definitions of a text in order. -/
def addAll (t : Text) (c : Catalogue) : List Marker → Option Catalogue
  | [] => return c
  | m :: later => do
    let window ← slice t (windowSpan t m later)
    addAll t (c.add m.name (Link.first? window) m.span) later

/-- The bibliography of a text, given its markers. -/
def collect (t : Text) (markers : List Marker) : Option Catalogue :=
  addAll t {} (markers.filter Marker.isDefinition)

/-- The citation at a position, if there is a position. -/
def entry (citations : Array Citation) : Option Nat → Option (Option Citation)
  | none => return none
  | some i => return some (← citations[i]?)

/-- The citation that references to a name mean. -/
def lookup (c : Catalogue) (name : Text) : Option (Option Citation) :=
  entry c.citations (c.positions.lookup name)

/-- Binary search for the position of a start offset from `low` up to `high`. -/
def search (citations : Array Citation) (offset low high : Nat) : Option (Option Nat) :=
  if low < high then do
    let middle := low + (high - low) / 2
    let c ← citations[middle]?
    if c.span.start = offset then return some middle
    else if c.span.start < offset then search citations offset (middle + 1) high
    else search citations offset low middle
  else return none
termination_by high - low

/-- The citation whose definition marker starts at an offset. -/
def atOffset (c : Catalogue) (offset : Nat) : Option (Option Citation) := do
  entry c.citations (← search c.citations offset 0 c.size)

/-- Notes every cited entry without address. -/
def warnMissing (c : Catalogue) (markers : List Marker) (t : Text) (r : Report) : Option Report :=
  c.citations.toList.foldlM (fun r x => do
    let meant ← lookup c x.name
    let isMissing := x.url.isNone && meant.any (·.index = x.index) &&
      Bibliography.isCited markers x.name
    let message := faultMessage t ⟨⟨.definition, x.name⟩, x.span⟩ .missingUrl
    return if isMissing then r.warn .missingUrl message t x.span.start else r) r

/-- What is written for a marker, and the report with the note of a reference without definition. -/
def writeMarker (c : Catalogue) (t : Text) (r : Report) (m : Marker) : Option (Text × Report) := do
  match m.kind with
  | .definition =>
    match ← atOffset c m.span.start with
    | some x => return (x.renderDefinition, r)
    | none => return (← slice t m.span, r)
  | .reference =>
    match ← lookup c m.name with
    | some x => return (x.renderReference, r)
    | none =>
      let r := r.warn .unmatchedReference (faultMessage t m .unmatchedReference) t m.span.start
      return (← slice t m.span, r)

/-- Copies a text from byte `cursor` on, with the markers in it replaced. -/
def rewrite (c : Catalogue) (t : Text) (cursor : Nat) (r : Report) :
    List Marker → Option (Text × Report)
  | [] => return (← slice t ⟨cursor, t.byteSize⟩, r)
  | m :: markers => do
    let run ← slice t ⟨cursor, m.span.start⟩
    let (written, r) ← writeMarker c t r m
    let (rest, r) ← rewrite c t m.span.stop r markers
    return (run ++ written ++ rest, r)

/-- Numbers the definitions of a text and rewrites its markers. -/
def resolve (t : Text) (strict : Bool) : Option Resolution := do
  let markers := scan t
  let c ← collect t markers
  let report := c.warnDuplicates t (Report.withStrict {} strict)
  let report ← warnMissing c markers t report
  let (text, report) ← rewrite c t 0 report markers
  return { text, citations := c.toBibliography, diagnostics := report.sorted }

/-- Substitutes placeholders by a pattern search, then resolves the citations. -/
def render (s : Searcher) (t : Text) (m : PlaceholderMap) (strict : Bool) :
    Option (Except RenderError Resolution) := do
  match ← m.substituteBy s m.tokens t with
  | .error cause => return .error cause
  | .ok substituted => return .ok (← resolve substituted strict)

/-! ### Collecting -/

theorem slice_eq {t : Text} {span : Span} (h : t.IsSliceable span) :
    slice t span = some (t.slice span) := if_pos h

theorem slice_windowSpan (t : Text) (m : Marker) (later : List Marker) :
    t.slice (windowSpan t m later) = Bibliography.window t m later := by
  cases later <;> rfl

theorem isSliceable_windowSpan {t : Text} {m : Marker} {later : List Marker}
    (hm : m.OccursFrom 0 t) (hlater : ∀ next ∈ later, next.OccursFrom 0 t ∧
      m.span.stop ≤ next.span.start) : t.IsSliceable (windowSpan t m later) := by
  cases later with
  | nil =>
    exact hm.isBoundary_stop.isSliceable t.isBoundary_byteSize hm.isBoundary_stop.le_byteSize
  | cons next later =>
    obtain ⟨hnext, hle⟩ := hlater next List.mem_cons_self
    exact hm.isBoundary_stop.isSliceable hnext.isBoundary_start hle

/-- Collecting cuts out every window and keeps the positions those of the first citations. -/
theorem exists_addAll {t : Text} {c : Catalogue} {ms : List Marker} (hc : c.IsIndexed)
    (hoccurs : ∀ m ∈ ms, m.OccursFrom 0 t)
    (hpairwise : ms.Pairwise fun a b => a.span.stop ≤ b.span.start) :
    ∃ c', addAll t c ms = some c' ∧ c'.IsIndexed ∧
      c'.toBibliography = Bibliography.addAll t c.toBibliography ms := by
  induction ms generalizing c with
  | nil => exact ⟨c, rfl, hc, rfl⟩
  | cons m later ih =>
    obtain ⟨hm, hlater⟩ := List.forall_mem_cons.1 hoccurs
    obtain ⟨hfirst, hrest⟩ := List.pairwise_cons.1 hpairwise
    have hslice := slice_eq (isSliceable_windowSpan hm fun next h => ⟨hlater next h, hfirst next h⟩)
    rw [slice_windowSpan] at hslice
    obtain ⟨c', hadd, hindexed, hsame⟩ := ih (Catalogue.isIndexed_add hc m.name
      (Link.first? (Bibliography.window t m later)) m.span) hlater hrest
    refine ⟨c', ?_, hindexed, hsame⟩
    rw [addAll, hslice]
    exact hadd

theorem exists_collect (t : Text) : ∃ c : Catalogue, collect t (scan t) = some c ∧ c.IsIndexed ∧
    c.toBibliography = bibliography t := by
  have hoccurs : ∀ m ∈ definitions t, m.OccursFrom 0 t := fun m hm =>
    occursFrom_of_mem_scan (List.mem_of_mem_filter hm)
  exact exists_addAll Catalogue.isIndexed_empty hoccurs ((pairwise_scan t).filter _)

/-! ### Looking up -/

section Lookup

variable {c : Catalogue} {t : Text}

theorem lookup_eq (hc : c.IsIndexed) (name : Text) :
    lookup c name = some (c.toBibliography.lookup name) := by
  rw [lookup, hc.lookup_eq_bind]
  cases hi : c.positions.lookup name with
  | none => rfl
  | some i =>
    rw [hc name] at hi
    obtain ⟨hlt, _⟩ := List.findIdx?_eq_some_iff_getElem.1 hi
    have hlt : i < c.citations.size := by simpa using hlt
    simp [entry, Array.getElem?_eq_getElem hlt]

/-- A search within the bibliography touches no other position, and finds one of it. -/
theorem search_bind_entry {citations : Array Citation} {offset low high : Nat}
    (h : high ≤ citations.size) : (search citations offset low high).bind (entry citations) =
      some (Bibliography.search citations offset low high) := by
  fun_induction Bibliography.search citations offset low high with
  | case1 low high hwindow middle hnone =>
    have := Array.getElem?_eq_none_iff.1 hnone
    omega
  | case2 low high hwindow middle c hmiddle heq =>
    rw [search]
    simp [hwindow, middle, hmiddle, heq, entry]
  | case3 low high hwindow middle c hmiddle hne hless ih =>
    rw [search]
    simp [hwindow, middle, hmiddle, hne, hless, ih h]
  | case4 low high hwindow middle c hmiddle hne hge ih =>
    rw [search]
    simp [hwindow, middle, hmiddle, hne, hge, ih (by omega)]
  | case5 low high hwindow =>
    rw [search]
    simp [hwindow, entry]

theorem atOffset_eq (c : Catalogue) (offset : Nat) :
    atOffset c offset = some (c.toBibliography.atOffset? offset) :=
  search_bind_entry (Nat.le_refl _)

/-! ### Rewriting -/

theorem warnMissing_eq (hc : c.IsIndexed) (ms : List Marker) (t : Text) (r : Report) :
    warnMissing c ms t r = some (c.toBibliography.warnMissing ms t r) := by
  simp only [warnMissing, lookup_eq hc, Option.bind_eq_bind, Option.bind_some,
    List.foldlM_pure, Bibliography.warnMissing, List.foldl_filter]
  rfl

theorem warnUnmatched_cons (b : Bibliography) (m : Marker) (ms : List Marker) (t : Text)
    (r : Report) : b.warnUnmatched (m :: ms) t r = b.warnUnmatched ms t
      (if m.isReference && (b.lookup m.name).isNone then
        r.warn .unmatchedReference (faultMessage t m .unmatchedReference) t m.span.start
      else r) := by
  unfold Bibliography.warnUnmatched
  rw [List.filter_cons]
  split <;> rfl

theorem writeMarker_eq (hc : c.IsIndexed) {m : Marker} (hm : m.OccursFrom 0 t) (r : Report) :
    writeMarker c t r m = some (c.toBibliography.replace m,
      if m.isReference && (c.toBibliography.lookup m.name).isNone then
        r.warn .unmatchedReference (faultMessage t m .unmatchedReference) t m.span.start
      else r) := by
  have hslice : slice t m.span = some m.literal := by rw [slice_eq hm.isSliceable, hm.slice_eq]
  unfold writeMarker Bibliography.replace Bibliography.replacement?
  cases hkind : m.kind with
  | definition =>
    have hreference : m.isReference = false := by simp [Marker.isReference, hkind]
    rw [atOffset_eq, hreference]
    cases c.toBibliography.atOffset? m.span.start <;> simp [hslice]
  | reference =>
    have hreference : m.isReference = true := by simp [Marker.isReference, hkind]
    rw [lookup_eq hc, hreference]
    cases c.toBibliography.lookup m.name <;> simp [hslice]

/-- The rewriting cuts at boundaries only, and writes the runs and the replacements in turn. -/
theorem rewrite_eq (hc : c.IsIndexed) {ms : List Marker} (hoccurs : ∀ m ∈ ms, m.OccursFrom 0 t)
    (hpairwise : ms.Pairwise fun a b => a.span.stop ≤ b.span.start) {cursor : Nat}
    (hcursor : t.IsBoundary cursor) (hle : ∀ m ∈ ms, cursor ≤ m.span.start) (r : Report) :
    rewrite c t cursor r ms = some (weave (gapsFrom t cursor ms)
      (ms.map c.toBibliography.replace), c.toBibliography.warnUnmatched ms t r) := by
  induction ms generalizing cursor r with
  | nil =>
    have hlast := slice_eq (hcursor.isSliceable t.isBoundary_byteSize hcursor.le_byteSize)
    simp [rewrite, hlast, gapsFrom, weave, Bibliography.warnUnmatched]
  | cons m ms ih =>
    obtain ⟨hm, hrest⟩ := List.forall_mem_cons.1 hoccurs
    obtain ⟨hfirst, hpairwise⟩ := List.pairwise_cons.1 hpairwise
    have hrun := slice_eq (hcursor.isSliceable hm.isBoundary_start (hle m List.mem_cons_self))
    have hlater := fun r => ih hrest hpairwise hm.isBoundary_stop hfirst r
    simp only [rewrite, hrun, writeMarker_eq hc hm, hlater, Option.bind_eq_bind, Option.bind_some,
      Option.pure_def, gapsFrom, List.map_cons, weave, warnUnmatched_cons]

end Lookup

theorem resolve_eq (t : Text) (strict : Bool) :
    resolve t strict = some (Citemark.resolve t strict) := by
  obtain ⟨c, hcollect, hc, hsame⟩ := exists_collect t
  have hrewrite := rewrite_eq hc (fun m hm => occursFrom_of_mem_scan hm) (pairwise_scan t)
    t.isBoundary_zero (fun m _ => Nat.zero_le _)
  have hwritten : weave (gapsFrom t 0 (scan t)) ((scan t).map (bibliography t).replace) =
      (bibliography t).rewrite 0 t (scan t) :=
    (weave_gaps _ t).trans (text_resolve_eq_written t strict).symm
  simp only [resolve, hcollect, Option.bind_eq_bind, Option.bind_some, warnMissing_eq hc, hrewrite,
    hsame, hwritten]
  rfl

theorem render_eq {s : Searcher} {matchesAt : (pattern t : Text) → List Text} {m : PlaceholderMap}
    (hs : s.Reads matchesAt m.tokens) (t : Text) (strict : Bool) :
    render s t m strict = some (Citemark.render s.compiler t m strict) := by
  have hsubstitute : m.substituteBy s m.tokens t = some (m.substitute s.compiler t) :=
    PlaceholderMap.substituteBy_eq hs (List.Perm.refl _) rfl t
  simp only [render, hsubstitute, Citemark.render, Option.bind_eq_bind, Option.bind_some]
  cases m.substitute s.compiler t with
  | error cause => rfl
  | ok substituted =>
    simp only [resolve_eq]
    rfl

end Checked

/-- **Rendering never comes to an access that must not happen.** With a check in front of each cut,
    of each citation taken by its position and of each value taken for a match, rendering and
    resolving still give a result, and the same one, for every text, map and mode. Names and offsets
    of any kind can be looked up, and every definition marker finds its citation. -/
theorem render_checks {s : Searcher} {matchesAt : (pattern t : Text) → List Text}
    {m : PlaceholderMap} (hs : s.Reads matchesAt m.tokens) (t : Text) (strict : Bool) :
    Checked.render s t m strict = some (render s.compiler t m strict) ∧
    Checked.resolve t strict = some (resolve t strict) ∧
    (∃ c, Checked.collect t (scan t) = some c ∧
      c.toBibliography = (resolve t strict).citations ∧
      (∀ name, Checked.lookup c name = some (c.toBibliography.lookup name)) ∧
      (∀ offset, Checked.atOffset c offset = some (c.toBibliography.atOffset? offset))) ∧
    (∀ d ∈ scan t, d.isDefinition = true → ∃ c,
      (resolve t strict).citations.atOffset? d.span.start = some c ∧
        c.name = d.name ∧ c.span = d.span) := by
  refine ⟨Checked.render_eq hs t strict, Checked.resolve_eq t strict, ?_, fun d hd hkind => ?_⟩
  · obtain ⟨c, hcollect, hc, hsame⟩ := Checked.exists_collect t
    exact ⟨c, hcollect, hsame, Checked.lookup_eq hc, Checked.atOffset_eq c⟩
  · obtain ⟨i, hi⟩ := List.getElem?_of_mem (List.mem_filter.2 ⟨hd, hkind⟩ : d ∈ definitions t)
    exact ⟨entryOf t i d, atOffset?_bibliography hi, rfl, rfl⟩

theorem render_checks_multibyte :
    literalSearcher.Reads literalMatches PlaceholderMap.punctuationMap.tokens ∧
    (Checked.render literalSearcher "é.* [[item:ü]](http://€)[[ref:ü]]".toList
        PlaceholderMap.punctuationMap true).map (·.toOption.map Resolution.text) =
      some (some "édot 1.(http://€)[[1]](http://€)".toList) := by
  have hreads := reads_literalSearcher PlaceholderMap.punctuationMap.tokens
  obtain ⟨hrender, _⟩ := render_checks hreads "é.* [[item:ü]](http://€)[[ref:ü]]".toList true
  refine ⟨hreads, ?_⟩
  rw [hrender]
  decide +kernel

end Citemark
