import Citemark.Proofs.Numbering
import Citemark.Resolution

/-!
# The rendered text

What resolution writes, said without the cursor, the binary search and the look-up that compute it:
the runs between the markers of a text stay, and what stands for a marker depends on its place among
the definitions or on the first definition of its name.

Results:
* `rewrite_eq_written`, `text_resolve_eq_written`: the walk of the cursor writes one replacement for
  each marker.
* `weave_gapsFrom`: the runs between the markers, woven with replacements, are that text.
* `text_resolve`: the text of a resolution is the rendering.
-/

namespace Citemark

/-! ## Runs and replacements -/

/-- The runs of a text between some markers: one in front of each, and one behind the last. -/
def gapsFrom (t : Text) (cursor : Nat) : List Marker → List Text
  | [] => [t.slice ⟨cursor, t.byteSize⟩]
  | m :: later => t.slice ⟨cursor, m.span.start⟩ :: gapsFrom t m.span.stop later

/-- The runs of a text between its markers. -/
def gaps (t : Text) : List Text := gapsFrom t 0 (scan t)

/-- Runs with one text between each and the next. -/
def weave : List Text → List Text → Text
  | run :: runs, piece :: pieces => run ++ piece ++ weave runs pieces
  | runs, _ => runs.flatten

/-- What stands for every reference to a name, if some definition has that name: the number of the
    first such definition, linked if that has an address. -/
def citationText? (t name : Text) : Option Text :=
  ((definitions t).findIdx? (·.name = name)).map fun i =>
    match address? t i with
    | some url => ['[', '['] ++ Text.ofNat (i + 1) ++ [']', ']', '('] ++ url ++ [')']
    | none => ['['] ++ Text.ofNat (i + 1) ++ [']']

/-- What stands for the marker at a position: for a definition the number of definitions up to it,
    for a reference the citation of its name, or its own bytes if no definition has that name. -/
def rendering (t : Text) (i : Nat) (m : Marker) : Text :=
  match m.kind with
  | .definition => Text.ofNat (((scan t).take (i + 1)).countP Marker.isDefinition) ++ ['.']
  | .reference => (citationText? t m.name).getD (t.slice m.span)

namespace Document

/-- The text of a document that starts at byte `offset`, with every marker replaced. -/
def written (f : Marker → Text) (offset : Nat) : Document → Text
  | [] => []
  | .char c :: d => c :: written f (offset + c.utf8Size) d
  | .mark m :: d =>
    let stop := offset + m.literal.byteSize
    f ⟨m, ⟨offset, stop⟩⟩ ++ written f stop d

/-- Replacing every marker by its literal changes nothing. -/
theorem written_literal (offset : Nat) (d : Document) :
    d.written (fun m => m.literal) offset = d.toText := by
  fun_induction written (fun m => m.literal) offset d with
  | case1 => rfl
  | case2 offset c d ih => rw [ih]; rfl
  | case3 offset m d stop ih => rw [ih]; rfl

end Document

namespace Bibliography

/-- What the rewriting puts in the place of a marker. -/
def replace (b : Bibliography) (m : Marker) : Text := (b.replacement? m).getD m.literal

/-- The cursor stands in front of `run`, the characters since the last marker. -/
theorem rewrite_eq_written (b : Bibliography) (cursor : Nat) (run : Text) (d : Document) :
    b.rewrite cursor (run ++ d.toText) (d.markersFrom (cursor + run.byteSize)) =
      run ++ d.written b.replace (cursor + run.byteSize) := by
  induction d generalizing cursor run with
  | nil => rfl
  | cons p d ih =>
    cases p with
    | char c =>
      have hsize : cursor + run.byteSize + c.utf8Size = cursor + Text.byteSize (run ++ [c]) := by
        simp [Nat.add_assoc]
      have happend : run ++ (c :: Document.toText d) = (run ++ [c]) ++ Document.toText d := by simp
      rw [Document.toText_cons, Document.markersFrom, Document.written, hsize]
      show b.rewrite cursor (run ++ (c :: Document.toText d)) _ = _
      rw [happend, ih]
      simp
    | mark m =>
      have hrest := ih (cursor + run.byteSize + m.literal.byteSize) []
      simp only [List.nil_append, Text.byteSize_nil, Nat.add_zero] at hrest
      rw [Document.toText_cons, Document.markersFrom, Document.written]
      simp only [rewrite, Piece.source, Nat.add_sub_cancel_left, Text.splitAtByte_append, hrest,
        replace, List.append_assoc]

end Bibliography

theorem text_resolve_eq_written (t : Text) (strict : Bool) :
    (resolve t strict).text = (Document.ofText t).written (bibliography t).replace 0 := by
  have hwritten := (bibliography t).rewrite_eq_written 0 [] (Document.ofText t)
  simp only [List.nil_append, Text.byteSize_nil, Nat.add_zero, Document.toText_ofText] at hwritten
  exact hwritten

theorem weave_gapsFrom (f : Marker → Text) (before run : Text) (d : Document) :
    weave (gapsFrom (before ++ run ++ d.toText) before.byteSize
        (d.markersFrom (before.byteSize + run.byteSize)))
      ((d.markersFrom (before.byteSize + run.byteSize)).map f) =
      run ++ d.written f (before.byteSize + run.byteSize) := by
  induction d generalizing before run with
  | nil =>
    have hslice := Text.slice_append before run []
    simp_all [Document.markersFrom, gapsFrom, weave, Document.written]
  | cons p d ih =>
    cases p with
    | char c =>
      have hstep := ih before (run ++ [c])
      simp_all [Document.markersFrom, Document.written, Piece.source, Nat.add_assoc]
    | mark m =>
      have hslice := Text.slice_append before run (m.literal ++ Document.toText d)
      have hrest := ih (before ++ run ++ m.literal) []
      simp only [Text.byteSize_append, Text.byteSize_nil, Nat.add_zero, List.append_nil,
        List.nil_append] at hrest
      simp only [Document.markersFrom, List.map_cons, gapsFrom, weave, Document.toText_cons,
        Piece.source, hslice, Document.written]
      rw [← List.append_assoc (before ++ run), hrest, List.append_assoc]

/-- The runs between the markers of a text, woven with a replacement for each. -/
theorem weave_gaps (f : Marker → Text) (t : Text) :
    weave (gaps t) ((scan t).map f) = (Document.ofText t).written f 0 := by
  have h := weave_gapsFrom f [] [] (Document.ofText t)
  simpa [Document.toText_ofText, gaps, scan] using h

/-! ## The replacement of each marker -/

/-- The elements that a filter keeps, by their places in the list. -/
theorem getElem?_filter_iff {α : Type} {p : α → Bool} {l : List α} {k : Nat} {a : α} :
    (l.filter p)[k]? = some a ↔ ∃ i, l[i]? = some a ∧ p a ∧ (l.take i).countP p = k := by
  induction l generalizing k with
  | nil => simp
  | cons b l ih =>
    have hsplit : (∃ i, (b :: l)[i]? = some a ∧ p a ∧ ((b :: l).take i).countP p = k) ↔
        b = a ∧ p a ∧ k = 0 ∨
          ∃ i, l[i]? = some a ∧ p a ∧ (l.take i).countP p + (if p b then 1 else 0) = k := by
      constructor
      · rintro ⟨i, hi, ha, hk⟩
        cases i with
        | zero => exact Or.inl ⟨by simpa using hi, ha, by simpa using hk.symm⟩
        | succ i => exact Or.inr ⟨i, by simpa using hi, ha, by simpa [List.countP_cons] using hk⟩
      · rintro (⟨rfl, ha, rfl⟩ | ⟨i, hi, ha, hk⟩)
        · exact ⟨0, by simp, ha, by simp⟩
        · exact ⟨i + 1, by simpa using hi, ha, by simpa [List.countP_cons] using hk⟩
    rw [hsplit]
    by_cases hb : p b
    · cases k with
      | zero =>
        simp only [hb, List.filter_cons_of_pos, List.getElem?_cons_zero, Option.some.injEq]
        constructor
        · rintro rfl
          exact Or.inl ⟨rfl, hb, trivial⟩
        · rintro (⟨rfl, _⟩ | ⟨i, _, _, hk⟩)
          · rfl
          · simp at hk
      | succ k => simp [hb, ih]
    · have hne : ¬ (b = a ∧ p a ∧ k = 0) := by
        rintro ⟨rfl, ha, _⟩
        exact hb ha
      simp [hb, ih, hne]

theorem isDefinition_of_getElem? {t : Text} {k : Nat} {d : Marker}
    (h : (definitions t)[k]? = some d) : d.kind = .definition := by
  have hmem := List.mem_of_getElem? h
  simpa [definitions, Marker.isDefinition] using (List.mem_filter.1 hmem).2

theorem replacement?_definition {t : Text} {k : Nat} {d : Marker}
    (h : (definitions t)[k]? = some d) :
    (bibliography t).replacement? d = some (Text.ofNat (k + 1) ++ ['.']) := by
  rw [Bibliography.replacement?, isDefinition_of_getElem? h]
  simp only [atOffset?_bibliography h, Option.map_some]
  rfl

theorem replacement?_reference (t : Text) {m : Marker} (h : m.kind = .reference) :
    (bibliography t).replacement? m = citationText? t m.name := by
  rw [Bibliography.replacement?, h]
  simp only [lookup_bibliography, citationText?]
  cases hi : (definitions t).findIdx? (·.name = m.name) with
  | none => rfl
  | some i =>
    obtain ⟨hlt, _⟩ := List.findIdx?_eq_some_iff_getElem.1 hi
    have hentry := List.getElem?_eq_getElem hlt
    cases hlink : Link.first? (windowOf t (definitions t)[i] i) with
    | none => simp [address?, hentry, entryOf, Citation.renderReference, hlink]
    | some url => simp [address?, hentry, entryOf, Citation.renderReference, hlink]

theorem rendering_eq_replace {t : Text} {i : Nat} {m : Marker} (h : (scan t)[i]? = some m) :
    rendering t i m = (bibliography t).replace m := by
  unfold rendering Bibliography.replace
  cases hkind : m.kind with
  | definition =>
    have hp : m.isDefinition = true := by simp [Marker.isDefinition, hkind]
    have hk : (definitions t)[((scan t).take i).countP Marker.isDefinition]? = some m :=
      getElem?_filter_iff.2 ⟨i, h, hp, rfl⟩
    rw [replacement?_definition hk, List.take_add_one, h]
    simp [hp]
  | reference =>
    have hslice := (occursFrom_of_mem_scan (List.mem_of_getElem? h)).slice_eq
    rw [replacement?_reference t hkind, hslice]

theorem map_replace_scan (t : Text) :
    (scan t).map (bibliography t).replace = (scan t).mapIdx (rendering t) := by
  apply List.ext_getElem?
  intro i
  rw [List.getElem?_map, List.getElem?_mapIdx]
  cases h : (scan t)[i]? with
  | none => rfl
  | some m => rw [Option.map_some, Option.map_some, rendering_eq_replace h]

theorem length_gapsFrom (t : Text) (cursor : Nat) (ms : List Marker) :
    (gapsFrom t cursor ms).length = ms.length + 1 := by
  induction ms generalizing cursor with
  | nil => rfl
  | cons m ms ih => rw [gapsFrom, List.length_cons, ih, List.length_cons]

/-- **The text of a resolution.** It is the text between the markers with one rendering for each
    marker. The definitions are rendered as `1.`, `2.` and so on without gaps, and all references to
    one name alike. -/
theorem text_resolve (t : Text) (strict : Bool) :
    (resolve t strict).text = weave (gaps t) ((scan t).mapIdx (rendering t)) ∧
    t = weave (gaps t) ((scan t).map fun m => t.slice m.span) ∧
    (gaps t).length = (scan t).length + 1 ∧
    (∀ (k : Nat) (d : Marker), (definitions t)[k]? = some d →
      ∃ i, (scan t)[i]? = some d ∧ rendering t i d = Text.ofNat (k + 1) ++ ['.']) ∧
    (∀ (i j : Nat) (a b : Marker), (scan t)[i]? = some a → (scan t)[j]? = some b →
      a.isReference → b.isReference → a.name = b.name → rendering t i a = rendering t j b) := by
  refine ⟨?_, ?_, length_gapsFrom _ _ _, ?_, ?_⟩
  · rw [← map_replace_scan, weave_gaps, text_resolve_eq_written]
  · have hliteral : (scan t).map (fun m => t.slice m.span) = (scan t).map fun m => m.literal :=
      List.map_congr_left fun m hm => (mem_scan_iff.1 hm).1.slice_eq
    rw [hliteral, weave_gaps, Document.written_literal, Document.toText_ofText]
  · intro k d hk
    obtain ⟨i, hi, _, _⟩ := getElem?_filter_iff.1 hk
    refine ⟨i, hi, ?_⟩
    rw [rendering_eq_replace hi, Bibliography.replace, replacement?_definition hk]
    rfl
  · intro i j a b hi hj ha hb hname
    have hka : a.kind = .reference := by simpa [Marker.isReference] using ha
    have hkb : b.kind = .reference := by simpa [Marker.isReference] using hb
    have hmark : a.literal = b.literal := by rw [Mark.literal, Mark.literal, hka, hkb, hname]
    rw [rendering_eq_replace hi, rendering_eq_replace hj, Bibliography.replace,
      Bibliography.replace, replacement?_reference t hka, replacement?_reference t hkb, hname, hmark]

end Citemark
