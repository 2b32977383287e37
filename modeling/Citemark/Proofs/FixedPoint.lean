import Citemark.Proofs.Seam
import Mathlib.Data.List.Basic

/-!
# Rendering a rendered text

A rendered text holds the markers that stay, and none besides, unless an address brings the start of
one along. Read again it falls into the same characters and the same references, so rendering it
once more finds nothing to number and changes nothing.

Results:
* `IsOpenerFree.read?_append`: no marker starts in a text without an opener unless what follows
  completes one.
* `inert_append_paren`: an address without an opener starts no marker.
* `ofText_textOf`: the rendered text, read piece by piece.
* `map_toMark_scan_resolve`: the markers of the rendered text are the unmatched references.
* `resolve_eq_self_of_no_definitions`: a text without definitions is left alone.
* `resolve_settles`: one pass is enough unless an address holds an opener.
-/

namespace Citemark

/-! ## Inert pieces -/

theorem Inert.append {x y : Text} (hx : Inert x) (hy : Inert y) : Inert (x ++ y) := by
  induction x with
  | nil => exact hy
  | cons c x ih =>
    refine ⟨fun z => ?_, ih hx.2⟩
    have hread := hx.1 (y ++ z)
    rwa [← List.append_assoc] at hread

/-- No opener begins in the text, wherever it ends. -/
def IsOpenerFree (x : Text) : Prop := ∀ kind : MarkerKind, ¬ kind.opener <:+: x

theorem IsOpenerFree.of_cons {c : Char} {x : Text} (h : IsOpenerFree (c :: x)) : IsOpenerFree x :=
  fun kind hwithin => h kind (hwithin.trans (List.suffix_cons c x).isInfix)

/-- No marker starts in a text without an opener, unless what follows goes on with one. -/
theorem IsOpenerFree.read?_append {x z : Text} (hx : IsOpenerFree x)
    (hz : ∀ (kind : MarkerKind) (y rest : Text), y ≠ [] → z = y ++ rest → kind.opener ≠ x ++ y) :
    Mark.read? (x ++ z) = none := by
  refine Mark.read?_eq_none_iff.2 fun m rest _ heq => ?_
  rw [Mark.literal, List.append_assoc, List.append_assoc] at heq
  rcases List.append_eq_append_iff.1 heq with ⟨y, hopener, hy⟩ | ⟨y, rfl, _⟩
  · by_cases hnil : y = []
    · rw [hnil, List.append_nil] at hopener
      exact hx m.kind (hopener ▸ List.infix_refl _)
    · exact hz m.kind y _ hnil hy hopener
  · exact hx m.kind (List.prefix_append _ _).isInfix

/-- An address without an opener starts no marker: what it begins would have to go on behind the
    closing parenthesis, which no opener holds. -/
theorem inert_append_paren {url : Text} (h : IsOpenerFree url) : Inert (url ++ [')']) := by
  induction url with
  | nil => exact inert_of_not_mem (by decide)
  | cons c url ih =>
    refine ⟨fun z => ?_, ih h.of_cons⟩
    have hnone : Mark.read? ((c :: url) ++ ')' :: z) = none := by
      refine h.read?_append fun kind y rest hne hy hopener => ?_
      obtain ⟨d, y, rfl⟩ := List.exists_cons_of_ne_nil hne
      obtain ⟨rfl, _⟩ := List.cons.inj hy
      have hmem : ')' ∈ kind.opener := by
        rw [hopener]
        simp
      exact absurd hmem (by cases kind <;> decide)
    simpa using hnone

namespace Document

theorem ofText_append_of_inert {x : Text} (z : Text) (h : Inert x) :
    ofText (x ++ z) = x.map .char ++ ofText z := by
  induction x with
  | nil => rfl
  | cons c x ih =>
    have hchar := ofText_cons_of_none (t := x ++ z) (h.1 z)
    rwa [ih h.2] at hchar

theorem ofText_literal_append {m : Mark} (z : Text) (h : ']' ∉ m.name) :
    ofText (m.literal ++ z) = .mark m :: ofText z := by
  have hread : Mark.read? (m.literal ++ z) = some (m, z) := Mark.read?_eq_some_iff.2 ⟨h, rfl⟩
  cases ht : m.literal ++ z with
  | nil => simp [m.literal_ne_nil] at ht
  | cons c t =>
    rw [ht] at hread
    exact ofText_cons_of_read? hread

theorem map_toMark_markersFrom (offset : Nat) (d : Document) :
    (d.markersFrom offset).map Marker.toMark = d.filterMap Piece.mark? := by
  fun_induction markersFrom offset d with
  | case1 => rfl
  | case2 _ _ _ ih => rw [ih, List.filterMap_cons_none rfl]
  | case3 _ m _ _ ih =>
    rw [List.map_cons, ih]
    rfl

end Document

/-! ## Reading the rendered text -/

namespace Passage

/-- What a passage is read as. -/
def pieces : Passage → Document
  | .kept m => [.mark m]
  | p => p.output.map .char

/-- The marker that a passage is, if it is one that stays. -/
def kept? : Passage → Option Mark
  | .kept m => some m
  | _ => none

theorem filterMap_pieces (p : Passage) : p.pieces.filterMap Piece.mark? = p.kept?.toList := by
  have hchars : ∀ x : Text, (x.map Piece.char).filterMap Piece.mark? = [] := by
    intro x
    rw [List.filterMap_eq_nil_iff, List.forall_mem_map]
    exact fun _ _ => rfl
  cases p with
  | kept m => rfl
  | copied c => exact hchars _
  | numbered c => exact hchars _
  | cited c => exact hchars _

end Passage

section Reading

variable {b : Bibliography}

/-- No reference brings an opener along. -/
def Bibliography.IsOpenerFree (b : Bibliography) : Prop :=
  ∀ c ∈ b.citations.toList, ∀ url, c.url = some url → Citemark.IsOpenerFree url

theorem inert_renderReference_of_mem (hb : b.IsOpenerFree) {c : Citation}
    (hc : c ∈ b.citations.toList) : Inert c.renderReference := by
  cases hurl : c.url with
  | none => exact Citation.inert_renderReference hurl
  | some url =>
    rw [Citation.renderReference_of_url hurl]
    exact c.inert_opening.append (inert_append_paren (hb c hc url hurl))

theorem ofText_output_passage (hb : b.IsOpenerFree) {m : Marker} (hm : ']' ∉ m.name) (z : Text) :
    Document.ofText ((b.passage m).output ++ z) = (b.passage m).pieces ++ Document.ofText z := by
  have hkept : Document.ofText (m.literal ++ z) = [.mark m.toMark] ++ Document.ofText z :=
    Document.ofText_literal_append z hm
  unfold Bibliography.passage
  cases m.kind with
  | definition =>
    cases b.atOffset? m.span.start with
    | none => exact hkept
    | some c => exact Document.ofText_append_of_inert z c.inert_renderDefinition
  | reference =>
    cases hlookup : b.lookup m.name with
    | none => exact hkept
    | some c =>
      have hc : c ∈ b.citations.toList :=
        Array.mem_toList_iff.2 (Array.mem_of_find?_eq_some hlookup)
      exact Document.ofText_append_of_inert z (inert_renderReference_of_mem hb hc)

/-- What is written for a text is read passage by passage. -/
theorem ofText_textOf (hb : b.IsOpenerFree) (offset : Nat) (t : Text) :
    Document.ofText (Passage.textOf (b.passagesFrom offset (Document.ofText t))) =
      (b.passagesFrom offset (Document.ofText t)).flatMap Passage.pieces := by
  fun_induction Document.ofText t generalizing offset with
  | case1 => rw [Bibliography.passagesFrom, Passage.textOf_nil, Document.ofText, List.flatMap_nil]
  | case2 c rest m rest' h _ ih =>
    have hname := (Mark.read?_eq_some_iff.1 h).1
    rw [Bibliography.passagesFrom, Passage.textOf_cons, ofText_output_passage hb hname, ih,
      List.flatMap_cons]
  | case3 c rest h ih =>
    have hnone := read?_cons_textOf b (offset + c.utf8Size) h
    rw [Bibliography.passagesFrom, Passage.textOf_cons, List.flatMap_cons, ← ih]
    exact Document.ofText_cons_of_none hnone

end Reading

/-! ## The markers that stay -/

/-- The references of a text to names without definition. -/
def unmatched (t : Text) : List Marker :=
  (scan t).filter fun m => m.isReference && !IsDefined t m.name

theorem filterMap_kept?_passagesFrom (b : Bibliography) (offset : Nat) (d : Document) :
    (b.passagesFrom offset d).filterMap Passage.kept? =
      (d.markersFrom offset).filterMap fun m => (b.passage m).kept? := by
  fun_induction Bibliography.passagesFrom b offset d with
  | case1 => rfl
  | case2 _ _ _ ih => rw [List.filterMap_cons_none rfl, ih]; rfl
  | case3 _ m _ _ ih => rw [List.filterMap_cons, ih]; rfl

theorem kept?_passage {t : Text} {m : Marker} (h : m ∈ scan t) :
    ((bibliography t).passage m).kept? =
      if m.isReference && !IsDefined t m.name then some m.toMark else none := by
  unfold Bibliography.passage
  cases hkind : m.kind with
  | definition =>
    have hdefinition : m.isDefinition = true := by simp [Marker.isDefinition, hkind]
    obtain ⟨i, hi⟩ := List.getElem?_of_mem (List.mem_filter.2 ⟨h, hdefinition⟩)
    simp [atOffset?_bibliography hi, Passage.kept?, Marker.isReference, hkind]
  | reference =>
    have hdefined : (bibliography t).lookup m.name = none ↔ ¬ IsDefined t m.name :=
      lookup_bibliography_eq_none_iff
    cases hlookup : (bibliography t).lookup m.name with
    | none => simp [Passage.kept?, Marker.isReference, hkind, hdefined.1 hlookup]
    | some c =>
      have hname : IsDefined t m.name := Decidable.byContradiction fun h => by
        rw [hdefined.2 h] at hlookup
        exact absurd hlookup (by simp)
      simp [Passage.kept?, Marker.isReference, hkind, hname]

theorem map_toMark_scan (t : Text) :
    (scan t).map Marker.toMark = (Document.ofText t).filterMap Piece.mark? :=
  Document.map_toMark_markersFrom 0 _

/-- The markers of the rendered text are the references without definition. -/
theorem map_toMark_scan_resolve {t : Text} (strict : Bool) (h : (bibliography t).IsOpenerFree) :
    (scan (resolve t strict).text).map Marker.toMark = (unmatched t).map Marker.toMark := by
  have hkept : ∀ ps : List Passage,
      (ps.flatMap Passage.pieces).filterMap Piece.mark? = ps.filterMap Passage.kept? := by
    intro ps
    induction ps with
    | nil => rfl
    | cons p ps ih =>
      rw [List.flatMap_cons, List.filterMap_append, Passage.filterMap_pieces, ih,
        List.filterMap_cons]
      cases p.kept? <;> rfl
  rw [map_toMark_scan, text_resolve_passages, passages, ofText_textOf h, hkept,
    filterMap_kept?_passagesFrom, ← scan, unmatched, ← List.filterMap_eq_map, List.filterMap_filter]
  exact List.filterMap_congr fun m hm => kept?_passage hm

/-! ## Texts without definitions -/

theorem bibliography_eq_empty {t : Text} (h : definitions t = []) : bibliography t = {} := by
  rw [bibliography, Bibliography.collect, ← definitions, h]
  rfl

/-- A text without definitions is left alone. -/
theorem resolve_eq_self_of_no_definitions {t : Text} (h : definitions t = []) (strict : Bool) :
    (resolve t strict).text = t := by
  have hliteral : ∀ m ∈ scan t, (bibliography t).replace m = m.literal := by
    intro m hm
    have hnot : ∀ m ∈ scan t, ¬ m.isDefinition = true := List.filter_eq_nil_iff.1 h
    have hlookup : (bibliography t).lookup m.name = none :=
      lookup_bibliography_eq_none_iff.2 fun ⟨d, hd, hdefinition, _⟩ => hnot d hd hdefinition
    unfold Bibliography.replace Bibliography.replacement?
    cases hkind : m.kind with
    | definition => exact absurd (by simp [Marker.isDefinition, hkind]) (hnot m hm)
    | reference =>
      simp only [hlookup]
      rfl
  rw [text_resolve_eq_written, ← weave_gaps, List.map_congr_left hliteral, weave_gaps,
    Document.written_literal, Document.toText_ofText]

/-- **One pass is enough unless an address holds an opener.** Else the markers of the rendered text
    are the references without definition, in their order, and rendering it once more numbers
    nothing and changes nothing. -/
theorem resolve_settles (t : Text) (strict : Bool) :
    (∃ c ∈ (resolve t strict).citations.citations.toList, ∃ url, c.url = some url ∧
      ∃ kind : MarkerKind, kind.opener <:+: url) ∨
    ((scan (resolve t strict).text).map Marker.toMark = (unmatched t).map Marker.toMark ∧
      ∀ again : Bool, (resolve (resolve t strict).text again).text = (resolve t strict).text ∧
        (resolve (resolve t strict).text again).citations = {}) := by
  by_cases h : (bibliography t).IsOpenerFree
  · have hmarkers := map_toMark_scan_resolve strict h
    have hnone : definitions (resolve t strict).text = [] := by
      refine List.filter_eq_nil_iff.2 fun m hm => ?_
      obtain ⟨r, hr, hmark⟩ := List.mem_map.1 (hmarkers ▸ List.mem_map_of_mem hm)
      have hreference := (List.mem_filter.1 hr).2
      simp only [Bool.and_eq_true, Marker.isReference, decide_eq_true_eq] at hreference
      simp [Marker.isDefinition, ← hmark, hreference.1]
    exact Or.inr ⟨hmarkers, fun again =>
      ⟨resolve_eq_self_of_no_definitions hnone again, bibliography_eq_empty hnone⟩⟩
  · refine Or.inl ?_
    show ∃ c ∈ (bibliography t).citations.toList, _
    simpa [Bibliography.IsOpenerFree, IsOpenerFree] using h

end Citemark
