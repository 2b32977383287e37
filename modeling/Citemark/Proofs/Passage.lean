import Citemark.Proofs.Rendering

/-!
# Passages of the rendered text

A rendered text passage by passage: characters that were copied, numbers of definitions, citations
in the place of references, and the references that stay because no definition has their name.

Results:
* `text_resolve_passages`: the passages make up the text of a resolution.
* `kept_of_mem_passages`: what stays is a reference to a name without definition.
-/

namespace Citemark

/-- What was written for one piece of a document. -/
inductive Passage where
  | copied (c : Char)
  | numbered (c : Citation)
  | cited (c : Citation)
  | kept (m : Mark)
deriving DecidableEq, Repr

namespace Passage

/-- The text of a passage. -/
def output : Passage → Text
  | .copied c => [c]
  | .numbered c => c.renderDefinition
  | .cited c => c.renderReference
  | .kept m => m.literal

/-- The text of a sequence of passages. -/
def textOf (ps : List Passage) : Text := ps.flatMap output

@[simp] theorem textOf_nil : textOf [] = [] := rfl

@[simp] theorem textOf_cons (p : Passage) (ps : List Passage) :
    textOf (p :: ps) = p.output ++ textOf ps := rfl

@[simp] theorem textOf_append (ps qs : List Passage) : textOf (ps ++ qs) = textOf ps ++ textOf qs :=
  List.flatMap_append

end Passage

namespace Bibliography

/-- What is written for a marker. -/
def passage (b : Bibliography) (m : Marker) : Passage :=
  match m.kind with
  | .definition => ((b.atOffset? m.span.start).map .numbered).getD (.kept m.toMark)
  | .reference => ((b.lookup m.name).map .cited).getD (.kept m.toMark)

theorem output_passage (b : Bibliography) (m : Marker) : (b.passage m).output = b.replace m := by
  unfold passage replace replacement?
  cases m.kind with
  | definition => cases b.atOffset? m.span.start <;> rfl
  | reference => cases b.lookup m.name <;> rfl

theorem passage_cases (b : Bibliography) (m : Marker) :
    (∃ c, b.passage m = .numbered c) ∨ (∃ c, b.passage m = .cited c) ∨
      b.passage m = .kept m.toMark := by
  unfold passage
  cases m.kind with
  | definition => cases b.atOffset? m.span.start <;> simp
  | reference => cases b.lookup m.name <;> simp

/-- What is written for a document that starts at byte `offset`. -/
def passagesFrom (b : Bibliography) (offset : Nat) : Document → List Passage
  | [] => []
  | .char c :: d => .copied c :: passagesFrom b (offset + c.utf8Size) d
  | .mark m :: d =>
    let stop := offset + m.literal.byteSize
    b.passage ⟨m, ⟨offset, stop⟩⟩ :: passagesFrom b stop d

theorem textOf_passagesFrom (b : Bibliography) (offset : Nat) (d : Document) :
    Passage.textOf (b.passagesFrom offset d) = d.written b.replace offset := by
  fun_induction passagesFrom b offset d with
  | case1 => rfl
  | case2 offset c d ih => rw [Passage.textOf_cons, ih]; rfl
  | case3 offset m d stop ih => rw [Passage.textOf_cons, ih, output_passage]; rfl

/-- Every passage but the copied characters stands for a marker. -/
theorem exists_marker_of_mem_passagesFrom {b : Bibliography} {offset : Nat} {d : Document}
    {p : Passage} (h : p ∈ b.passagesFrom offset d) (hp : ∀ c, p ≠ .copied c) :
    ∃ m ∈ d.markersFrom offset, p = b.passage m := by
  fun_induction passagesFrom b offset d with
  | case1 => simp at h
  | case2 offset c d ih =>
    rcases List.mem_cons.1 h with h | h
    · exact absurd h (hp c)
    · exact ih h
  | case3 offset m d stop ih =>
    rcases List.mem_cons.1 h with h | h
    · exact ⟨_, List.mem_cons_self, h⟩
    · obtain ⟨m', hm', hp'⟩ := ih h
      exact ⟨m', List.mem_cons_of_mem _ hm', hp'⟩

end Bibliography

/-- What is written for a text. -/
def passages (t : Text) : List Passage := (bibliography t).passagesFrom 0 (Document.ofText t)

theorem text_resolve_passages (t : Text) (strict : Bool) :
    (resolve t strict).text = Passage.textOf (passages t) := by
  rw [text_resolve_eq_written, passages, Bibliography.textOf_passagesFrom]

/-- A marker that is written as it was is a reference to a name without definition. -/
theorem kept_of_mem_passages {t : Text} {k : Mark} (h : .kept k ∈ passages t) :
    k.kind = .reference ∧ ']' ∉ k.name ∧ ¬ IsDefined t k.name := by
  obtain ⟨m, hm, hp⟩ := Bibliography.exists_marker_of_mem_passagesFrom h (by simp)
  have hoccurs := occursFrom_of_mem_scan hm
  unfold Bibliography.passage at hp
  cases hkind : m.kind with
  | definition =>
    have hdefinition : m.isDefinition = true := by simp [Marker.isDefinition, hkind]
    obtain ⟨i, hi⟩ := List.getElem?_of_mem (List.mem_filter.2 ⟨hm, hdefinition⟩)
    simp [hkind, atOffset?_bibliography hi] at hp
  | reference =>
    cases hlookup : (bibliography t).lookup m.name with
    | none =>
      simp only [hkind, hlookup, Option.map_none, Option.getD_none, Passage.kept.injEq] at hp
      subst hp
      exact ⟨hkind, hoccurs.1, lookup_bibliography_eq_none_iff.1 hlookup⟩
    | some c => simp [hkind, hlookup] at hp

end Citemark
