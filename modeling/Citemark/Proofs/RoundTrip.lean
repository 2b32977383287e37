import Citemark.Proofs.FixedPoint

/-!
# Scanning what was written

Runs of text and markers in turn, written one behind the other, and what a scan finds in that. A
name may hold openers and a run may end in brackets: a marker takes all up to its first `]`, and a
run without an opener leaves nothing open that the marker behind it could complete.

Results:
* `ofText_append_of_isOpenerFree`: a run without an opener is read as plain characters.
* `scan_weave`: the markers of a woven text are those that were written.
* `gaps_weave`: its runs are those that were written.
* `scan_writes_back`: scanning and writing undo each other.
-/

namespace Citemark

/-! ## Runs -/

theorem blunt_literal (m : Mark) (z : Text) : Blunt (m.literal ++ z) :=
  ⟨'[', '[', m.kind.tag ++ [':'] ++ m.name ++ [']', ']'] ++ z,
    by simp [Mark.literal, MarkerKind.opener], Or.inr ⟨rfl, Or.inl rfl⟩⟩

section Run

variable {x z : Text}

/-- No marker starts in a run without an opener when nothing behind it completes one. -/
theorem read?_append_eq_none (hx : IsOpenerFree x) (hne : x ≠ []) (hz : z = [] ∨ Blunt z) :
    Mark.read? (x ++ z) = none := by
  refine hx.read?_append fun kind y rest hnil hy hopener => ?_
  rcases hz with rfl | hblunt
  · exact hnil (List.append_eq_nil_iff.1 hy.symm).1
  · exact (hy ▸ hblunt).not_opener hne hnil hopener

theorem ofText_append_of_isOpenerFree (hx : IsOpenerFree x) (hz : z = [] ∨ Blunt z) :
    Document.ofText (x ++ z) = x.map .char ++ Document.ofText z := by
  induction x with
  | nil => rfl
  | cons c x ih =>
    have hnone : Mark.read? (c :: (x ++ z)) = none := read?_append_eq_none hx (by simp) hz
    rw [List.cons_append, Document.ofText_cons_of_none hnone, ih hx.of_cons]
    rfl

end Run

theorem Document.markersFrom_append_chars (offset : Nat) (x : Text) (d : Document) :
    markersFrom offset (x.map .char ++ d) = markersFrom (offset + x.byteSize) d := by
  induction x generalizing offset with
  | nil => rfl
  | cons c x ih =>
    rw [List.map_cons, List.cons_append, markersFrom, ih, Text.byteSize_cons, Nat.add_assoc]

/-! ## Woven texts -/

/-- Markers between runs, behind `offset` bytes: each takes the bytes of its literal behind all that
    is woven in front of it. -/
def placedFrom (offset : Nat) (runs : List Text) (ms : List Mark) : List Marker :=
  ms.mapIdx fun i m =>
    .first (offset + Text.byteSize (weave (runs.take (i + 1)) ((ms.take i).map Mark.literal))) m

theorem placedFrom_cons (offset : Nat) (run : Text) (runs : List Text) (m : Mark) (ms : List Mark) :
    placedFrom offset (run :: runs) (m :: ms) = .first (offset + run.byteSize) m ::
      placedFrom (offset + run.byteSize + m.literal.byteSize) runs ms := by
  simp [placedFrom, List.mapIdx_cons, weave, Nat.add_assoc]

section Weave

variable {runs : List Text} {ms : List Mark}

theorem markersFrom_ofText_weave (offset : Nat) (hlength : runs.length = ms.length + 1)
    (hnames : ∀ m ∈ ms, ']' ∉ m.name) (hruns : ∀ run ∈ runs, IsOpenerFree run) :
    (Document.ofText (weave runs (ms.map Mark.literal))).markersFrom offset =
      placedFrom offset runs ms := by
  induction ms generalizing offset runs with
  | nil =>
    obtain ⟨run, rfl⟩ := List.length_eq_one_iff.1 hlength
    have hrun : weave [run] [] = run ++ [] := by simp [weave]
    have hread := ofText_append_of_isOpenerFree (hruns run List.mem_cons_self) (Or.inl rfl)
    rw [List.map_nil, hrun, hread, Document.markersFrom_append_chars, Document.ofText]
    rfl
  | cons m ms ih =>
    cases runs with
    | nil => simp at hlength
    | cons run runs =>
      have hrest := ih (offset + run.byteSize + m.literal.byteSize) (Nat.succ.inj hlength)
        (fun k hk => hnames k (List.mem_cons_of_mem _ hk))
        (fun r hr => hruns r (List.mem_cons_of_mem _ hr))
      rw [List.map_cons, weave, List.append_assoc,
        ofText_append_of_isOpenerFree (hruns run List.mem_cons_self) (Or.inr (blunt_literal _ _)),
        Document.ofText_literal_append _ (hnames m List.mem_cons_self),
        Document.markersFrom_append_chars, Document.markersFrom, hrest, placedFrom_cons]
      rfl

/-- The runs of a woven text behind its first `before`. -/
theorem gapsFrom_weave (before : Text) (hlength : runs.length = ms.length + 1) :
    gapsFrom (before ++ weave runs (ms.map Mark.literal)) before.byteSize
      (placedFrom before.byteSize runs ms) = runs := by
  induction ms generalizing before runs with
  | nil =>
    obtain ⟨run, rfl⟩ := List.length_eq_one_iff.1 hlength
    have hslice := Text.slice_append before run []
    simp_all [placedFrom, gapsFrom, weave]
  | cons m ms ih =>
    cases runs with
    | nil => simp at hlength
    | cons run runs =>
      have hslice := Text.slice_append before run (m.literal ++ weave runs (ms.map Mark.literal))
      have hrest := ih (before ++ run ++ m.literal) (Nat.succ.inj hlength)
      simp only [Text.byteSize_append, List.append_assoc] at hslice hrest
      rw [placedFrom_cons, gapsFrom, List.map_cons, weave, List.append_assoc, Nat.add_assoc]
      simp only [Marker.first, Nat.add_assoc, hslice, hrest]

theorem scan_weave (hlength : runs.length = ms.length + 1) (hnames : ∀ m ∈ ms, ']' ∉ m.name)
    (hruns : ∀ run ∈ runs, IsOpenerFree run) :
    scan (weave runs (ms.map Mark.literal)) = placedFrom 0 runs ms :=
  markersFrom_ofText_weave 0 hlength hnames hruns

theorem gaps_weave (hlength : runs.length = ms.length + 1) (hnames : ∀ m ∈ ms, ']' ∉ m.name)
    (hruns : ∀ run ∈ runs, IsOpenerFree run) : gaps (weave runs (ms.map Mark.literal)) = runs := by
  rw [gaps, scan_weave hlength hnames hruns]
  exact gapsFrom_weave [] hlength

end Weave

/-- **Scanning and writing markers undo each other.** The runs of a text, woven with the literals of
    its markers, are that text. Markers whose names hold no `]`, woven into runs without an opener,
    are found again, in order and each at the bytes that its literal takes in the woven text, and so
    are the runs. -/
theorem scan_writes_back :
    (∀ t : Text, weave (gaps t) ((scan t).map fun m => m.literal) = t) ∧
    ∀ (runs : List Text) (ms : List Mark), runs.length = ms.length + 1 →
      (∀ m ∈ ms, ']' ∉ m.name) → (∀ run ∈ runs, IsOpenerFree run) →
        scan (weave runs (ms.map Mark.literal)) = placedFrom 0 runs ms ∧
        gaps (weave runs (ms.map Mark.literal)) = runs := by
  refine ⟨fun t => ?_, fun runs ms hlength hnames hruns => ?_⟩
  · rw [weave_gaps, Document.written_literal, Document.toText_ofText]
  · exact ⟨scan_weave hlength hnames hruns, gaps_weave hlength hnames hruns⟩

/-- Runs that end in brackets, and a name that holds an opener, a line feed and a letter of two
    bytes. -/
theorem scan_brackets :
    scan "x[[[ref:[[item:é\n]]][[item:]][[".toList =
        [⟨⟨.reference, "[[item:é\n".toList⟩, ⟨2, 20⟩⟩, ⟨⟨.definition, []⟩, ⟨21, 30⟩⟩] ∧
      gaps "x[[[ref:[[item:é\n]]][[item:]][[".toList = ["x[".toList, "]".toList, "[[".toList] := by
  have hruns : ∀ run ∈ ["x[".toList, "]".toList, "[[".toList], IsOpenerFree run := by
    intro run hrun kind
    revert run
    cases kind <;> decide
  obtain ⟨hscan, hgaps⟩ := scan_writes_back.2 ["x[".toList, "]".toList, "[[".toList]
    [⟨.reference, "[[item:é\n".toList⟩, ⟨.definition, []⟩] rfl (by decide) hruns
  have hwoven : weave ["x[".toList, "]".toList, "[[".toList]
      (List.map Mark.literal [⟨.reference, "[[item:é\n".toList⟩, ⟨.definition, []⟩]) =
        "x[[[ref:[[item:é\n]]][[item:]][[".toList := by decide
  have hplaced : placedFrom 0 ["x[".toList, "]".toList, "[[".toList]
      [⟨.reference, "[[item:é\n".toList⟩, ⟨.definition, []⟩] =
        [⟨⟨.reference, "[[item:é\n".toList⟩, ⟨2, 20⟩⟩, ⟨⟨.definition, []⟩, ⟨21, 30⟩⟩] := by decide
  rw [hwoven] at hscan hgaps
  exact ⟨hscan.trans hplaced, hgaps⟩

end Citemark
