import Citemark.Marker

/-!
# Documents

A document is a text read as a sequence of pieces: markers, and single characters that belong to
none. Reading goes from left to right, and a marker is taken wherever one starts; so an unclosed
opener stays plain text, unless a later `]]` without a `]` in front closes it.

Results:
* `toText_ofText`: writing the pieces of a text gives the text back.
-/

namespace Citemark

/-- A marker, or one character outside of all markers. -/
inductive Piece where
  | char (c : Char)
  | mark (m : Mark)
deriving DecidableEq, Repr

/-- The text that a piece was read from. -/
def Piece.source : Piece → Text
  | .char c => [c]
  | .mark m => m.literal

/-- The marker that a piece is, if it is one. -/
def Piece.mark? : Piece → Option Mark
  | .char _ => none
  | .mark m => some m

/-- A text as a sequence of pieces. -/
abbrev Document := List Piece

namespace Document

/-- Reads a text from left to right. -/
def ofText : Text → Document
  | [] => []
  | c :: rest =>
    match h : Mark.read? (c :: rest) with
    | some (m, rest) =>
      have := Mark.length_of_read? h
      .mark m :: ofText rest
    | none => .char c :: ofText rest
termination_by t => t.length
decreasing_by
  · exact this
  · exact Nat.lt_succ_self _

/-- Writes every piece as it was read. -/
def toText (d : Document) : Text := d.flatMap Piece.source

@[simp] theorem toText_nil : toText [] = [] := rfl

@[simp] theorem toText_cons (p : Piece) (d : Document) :
    toText (p :: d) = p.source ++ toText d := rfl

@[simp] theorem toText_append (a b : Document) : toText (a ++ b) = toText a ++ toText b :=
  List.flatMap_append

theorem ofText_cons_of_read? {c : Char} {t rest : Text} {m : Mark}
    (h : Mark.read? (c :: t) = some (m, rest)) : ofText (c :: t) = .mark m :: ofText rest := by
  rw [ofText]
  split
  · next heq =>
    obtain ⟨rfl, rfl⟩ := Prod.mk.inj (Option.some.inj (h.symm.trans heq))
    rfl
  · next heq => exact absurd (h.symm.trans heq) (by simp)

theorem ofText_cons_of_none {c : Char} {t : Text} (h : Mark.read? (c :: t) = none) :
    ofText (c :: t) = .char c :: ofText t := by
  rw [ofText]
  split
  · next heq => exact absurd (h.symm.trans heq) (by simp)
  · rfl

theorem toText_ofText (t : Text) : toText (ofText t) = t := by
  fun_induction ofText t with
  | case1 => rfl
  | case2 c rest m rest' h _ ih =>
    rw [toText_cons, ih]
    exact (Mark.read?_eq_some_iff.1 h).2.symm
  | case3 c rest h ih => rw [toText_cons, ih]; rfl

/-! ## Located markers -/

/-- The markers of a document that starts at byte `offset`. -/
def markersFrom (offset : Nat) : Document → List Marker
  | [] => []
  | .char c :: rest => markersFrom (offset + c.utf8Size) rest
  | .mark m :: rest =>
    let stop := offset + m.literal.byteSize
    ⟨m, ⟨offset, stop⟩⟩ :: markersFrom stop rest

end Document

/-- All markers of a text with their spans, in document order. -/
def scan (t : Text) : List Marker := (Document.ofText t).markersFrom 0

end Citemark
