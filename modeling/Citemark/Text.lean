/-!
# Text and byte offsets

A text is a list of characters. Positions in a text are byte offsets of its UTF-8 form, so a
character takes one to four of them.

Results:
* `byteSize_append`: sizes add up along a concatenation.
* `eq_append_of_byteSize_le`: of two beginnings of a text, the smaller is one of the larger.
* `eq_of_cut_eq`: a text is cut in one way only at the first place of a character.
* `splitAtByte_append`: cutting at the size of the first part gives both parts back.
* `splitAtByte_append_of_le`, `splitAtByte_append_of_ge`: a cut in front of an end, or behind it.
* `isBoundary_iff`: an offset is a boundary when a cut there takes exactly so many bytes.
* `occursIn_iff`: the search for a piece of text finds exactly the infixes.
* `precedes_trans`, `precedes_of_not`: the order by code points is transitive and total.
* `lineAt_eq`: the line of an offset counts the line feeds in front of it.
-/

namespace Citemark

/-- A text is the list of its characters. -/
abbrev Text := List Char

/-- A range of byte offsets, `stop` excluded. -/
structure Span where
  start : Nat
  stop : Nat
deriving DecidableEq, Repr

namespace Text

/-! ## Sizes and cuts -/

/-- Number of bytes of the UTF-8 form. -/
def byteSize : Text → Nat
  | [] => 0
  | c :: rest => c.utf8Size + byteSize rest

@[simp] theorem byteSize_nil : byteSize [] = 0 := rfl

@[simp] theorem byteSize_cons (c : Char) (t : Text) :
    byteSize (c :: t) = c.utf8Size + byteSize t := rfl

@[simp] theorem byteSize_append (a b : Text) :
    byteSize (a ++ b) = byteSize a + byteSize b := by
  induction a with
  | nil => simp
  | cons c a ih =>
    have h : byteSize (c :: (a ++ b)) = c.utf8Size + byteSize (a ++ b) := rfl
    rw [List.cons_append, h, ih, byteSize_cons, Nat.add_assoc]

theorem byteSize_replicate (n : Nat) (c : Char) :
    byteSize (List.replicate n c) = n * c.utf8Size := by
  induction n with
  | zero => rw [List.replicate_zero, byteSize_nil, Nat.zero_mul]
  | succ n ih => rw [List.replicate_succ, byteSize_cons, ih, Nat.succ_mul, Nat.add_comm]

theorem byteSize_eq_zero_iff {t : Text} : byteSize t = 0 ↔ t = [] := by
  cases t with
  | nil => simp
  | cons c t =>
    have := c.utf8Size_pos
    simp
    omega

theorem byteSize_pos {t : Text} (h : t ≠ []) : 0 < byteSize t :=
  Nat.pos_of_ne_zero fun e => h (byteSize_eq_zero_iff.1 e)

theorem eq_append_of_byteSize_le {a b c d : Text} (h : a ++ b = c ++ d)
    (hle : byteSize a ≤ byteSize c) : ∃ z, c = a ++ z ∧ b = z ++ d := by
  rcases List.append_eq_append_iff.1 h with h | ⟨z, ha, hd⟩
  · exact h
  · have hz : z = [] := by
      rw [ha, byteSize_append] at hle
      exact byteSize_eq_zero_iff.1 (by omega)
    subst hz
    exact ⟨[], by simpa using ha.symm, by simpa using hd.symm⟩

/-- A text is cut in one way only at the first place of a character. -/
theorem eq_of_cut_eq {c : Char} {a b s t : Text} (ha : c ∉ a) (hb : c ∉ b)
    (h : a ++ c :: s = b ++ c :: t) : a = b ∧ s = t := by
  induction a generalizing b with
  | nil =>
    cases b with
    | nil => simpa using h
    | cons d b =>
      rw [List.nil_append, List.cons_append, List.cons.injEq] at h
      exact absurd (h.1 ▸ List.mem_cons_self) hb
  | cons e a ih =>
    cases b with
    | nil =>
      rw [List.nil_append, List.cons_append, List.cons.injEq] at h
      exact absurd (h.1 ▸ List.mem_cons_self) ha
    | cons d b =>
      rw [List.cons_append, List.cons_append, List.cons.injEq] at h
      obtain ⟨rfl, h⟩ := h
      obtain ⟨rfl, hs⟩ := ih (fun hc => ha (List.mem_cons_of_mem _ hc))
        (fun hc => hb (List.mem_cons_of_mem _ hc)) h
      exact ⟨rfl, hs⟩

/-- Cuts a text at a byte offset. A character that the offset falls inside stays whole in the
    second part. -/
def splitAtByte (offset : Nat) : Text → Text × Text
  | [] => ([], [])
  | c :: rest =>
    if c.utf8Size ≤ offset then
      let (before, after) := splitAtByte (offset - c.utf8Size) rest
      (c :: before, after)
    else ([], c :: rest)

theorem splitAtByte_zero (t : Text) : splitAtByte 0 t = ([], t) := by
  cases t with
  | nil => rfl
  | cons c t =>
    have h : ¬ c.utf8Size ≤ 0 := by
      have := c.utf8Size_pos
      omega
    simp [splitAtByte, h]

theorem splitAtByte_append (a b : Text) : splitAtByte (byteSize a) (a ++ b) = (a, b) := by
  induction a with
  | nil => simpa using splitAtByte_zero b
  | cons c a ih =>
    have h : c.utf8Size + byteSize a - c.utf8Size = byteSize a := by omega
    simp [splitAtByte, h, ih]

theorem splitAtByte_fst_append_snd (n : Nat) (t : Text) :
    (splitAtByte n t).1 ++ (splitAtByte n t).2 = t := by
  induction t generalizing n with
  | nil => rfl
  | cons c t ih =>
    by_cases hc : c.utf8Size ≤ n
    · simp [splitAtByte, hc, ih]
    · simp [splitAtByte, hc]

/-- A cut in the first part of a text leaves the second part whole. -/
theorem splitAtByte_append_of_le {n : Nat} {a : Text} (b : Text) (h : n ≤ byteSize a) :
    splitAtByte n (a ++ b) = ((splitAtByte n a).1, (splitAtByte n a).2 ++ b) := by
  induction a generalizing n with
  | nil =>
    obtain rfl := Nat.le_zero.1 h
    simp [splitAtByte_zero]
  | cons c a ih =>
    rw [byteSize_cons] at h
    by_cases hc : c.utf8Size ≤ n
    · have hrest : n - c.utf8Size ≤ byteSize a := by omega
      simp [splitAtByte, hc, ih hrest]
    · simp [splitAtByte, hc]

/-- A cut behind the first part of a text leaves that part whole. -/
theorem splitAtByte_append_of_ge {n : Nat} {a : Text} (b : Text) (h : byteSize a ≤ n) :
    splitAtByte n (a ++ b) =
      (a ++ (splitAtByte (n - byteSize a) b).1, (splitAtByte (n - byteSize a) b).2) := by
  induction a generalizing n with
  | nil => rfl
  | cons c a ih =>
    rw [byteSize_cons] at h
    have hc : c.utf8Size ≤ n := by omega
    have hrest : byteSize a ≤ n - c.utf8Size := by omega
    simp [splitAtByte, hc, ih hrest, Nat.sub_add_eq]

/-- The part of a text inside a span. -/
def slice (t : Text) (span : Span) : Text :=
  (splitAtByte (span.stop - span.start) (splitAtByte span.start t).2).1

theorem slice_append (a b c : Text) :
    slice (a ++ b ++ c) ⟨byteSize a, byteSize a + byteSize b⟩ = b := by
  have h : byteSize a + byteSize b - byteSize a = byteSize b := by omega
  simp [slice, h, splitAtByte_append, List.append_assoc]

/-- A slice that starts behind the first part is cut from the second. -/
theorem slice_append_start (a b : Text) (stop : Nat) :
    slice (a ++ b) ⟨byteSize a, stop⟩ = (splitAtByte (stop - byteSize a) b).1 := by
  simp [slice, splitAtByte_append]

/-- An offset is a boundary when it does not fall inside a character. -/
def IsBoundary (t : Text) (offset : Nat) : Prop :=
  ∃ before after, t = before ++ after ∧ byteSize before = offset

theorem isBoundary_iff {t : Text} {offset : Nat} :
    t.IsBoundary offset ↔ byteSize (splitAtByte offset t).1 = offset := by
  constructor
  · rintro ⟨before, after, rfl, rfl⟩
    rw [splitAtByte_append]
  · exact fun h => ⟨_, _, (splitAtByte_fst_append_snd offset t).symm, h⟩

instance (t : Text) (offset : Nat) : Decidable (t.IsBoundary offset) :=
  decidable_of_iff _ isBoundary_iff.symm

theorem IsBoundary.le_byteSize {t : Text} {offset : Nat} (h : t.IsBoundary offset) :
    offset ≤ t.byteSize := by
  obtain ⟨before, after, rfl, rfl⟩ := h
  rw [byteSize_append]
  exact Nat.le_add_right _ _

theorem isBoundary_zero (t : Text) : t.IsBoundary 0 := ⟨[], t, rfl, rfl⟩

theorem isBoundary_byteSize (t : Text) : t.IsBoundary t.byteSize :=
  ⟨t, [], (List.append_nil t).symm, rfl⟩

/-! ## Searching -/

/-- What follows `head` in a text that starts with it. -/
def after? : (head : Text) → Text → Option Text
  | [], t => some t
  | _ :: _, [] => none
  | h :: head, c :: t => if h = c then after? head t else none

theorem after?_eq_some_iff {head t rest : Text} :
    after? head t = some rest ↔ t = head ++ rest := by
  induction head generalizing t with
  | nil => simp [after?]
  | cons h head ih =>
    cases t with
    | nil => simp [after?]
    | cons c t =>
      by_cases hc : h = c
      · subst hc
        simp [after?, ih]
      · have hc' : ¬ c = h := fun e => hc e.symm
        simp [after?, hc, hc']

/-- Whether `needle` occurs somewhere in a text. -/
def occursIn (needle : Text) : Text → Bool
  | [] => needle.isEmpty
  | c :: rest => needle.isPrefixOf (c :: rest) || occursIn needle rest

theorem occursIn_iff {needle t : Text} : occursIn needle t = true ↔ needle <:+: t := by
  induction t with
  | nil => simp [occursIn]
  | cons c t ih => simp [occursIn, ih, List.infix_cons_iff]

/-! ## Order -/

/-- Whether a text comes before another: at the first difference it has the lower code point, or
    it ends there. UTF-8 keeps the order of the code points, so this is the order of the bytes. -/
def precedes : Text → Text → Bool
  | _, [] => false
  | [], _ :: _ => true
  | a :: s, b :: t => a.toNat < b.toNat || (a = b && precedes s t)

theorem precedes_cons {a b : Char} {s t : Text} :
    precedes (a :: s) (b :: t) = true ↔ a.toNat < b.toNat ∨ a = b ∧ precedes s t = true := by
  simp [precedes]

theorem precedes_irrefl (t : Text) : precedes t t = false := by
  induction t with
  | nil => rfl
  | cons c t ih => simp [precedes, ih]

theorem ne_of_precedes {s t : Text} (h : precedes s t = true) : s ≠ t := by
  rintro rfl
  rw [precedes_irrefl] at h
  exact Bool.false_ne_true h

theorem precedes_trans {s t u : Text} (hst : precedes s t = true) (htu : precedes t u = true) :
    precedes s u = true := by
  induction s generalizing t u with
  | nil =>
    cases u with
    | nil => cases t <;> simp [precedes] at htu
    | cons c u => rfl
  | cons a s ih =>
    cases t with
    | nil => simp [precedes] at hst
    | cons b t =>
      cases u with
      | nil => simp [precedes] at htu
      | cons c u =>
        rw [precedes_cons] at hst htu ⊢
        rcases hst with hab | ⟨rfl, hst⟩
        · rcases htu with hbc | ⟨rfl, _⟩
          · exact Or.inl (Nat.lt_trans hab hbc)
          · exact Or.inl hab
        · rcases htu with hbc | ⟨rfl, htu⟩
          · exact Or.inl hbc
          · exact Or.inr ⟨rfl, ih hst htu⟩

theorem precedes_of_not {s t : Text} (hne : s ≠ t) (h : ¬ precedes s t = true) :
    precedes t s = true := by
  induction s generalizing t with
  | nil =>
    cases t with
    | nil => exact absurd rfl hne
    | cons b t => exact absurd rfl h
  | cons a s ih =>
    cases t with
    | nil => rfl
    | cons b t =>
      rw [precedes_cons] at h ⊢
      by_cases hab : a = b
      · subst hab
        have hst : s ≠ t := fun e => hne (e ▸ rfl)
        have hns : ¬ precedes s t = true := fun e => h (Or.inr ⟨rfl, e⟩)
        exact Or.inr ⟨rfl, ih hst hns⟩
      · have hcode : a.toNat ≠ b.toNat := fun e => hab (Char.toNat_inj.1 e)
        have hnlt : ¬ a.toNat < b.toNat := fun e => h (Or.inl e)
        exact Or.inl (by omega)

/-! ## Lines -/

/-- The line of a byte offset, counted from one: one more than the number of line feeds in front
    of it. An offset past the end is on the last line. -/
def lineAt : Text → Nat → Nat
  | [], _ => 1
  | c :: rest, offset =>
    if offset = 0 then 1
    else (if c = '\n' then 1 else 0) + lineAt rest (offset - c.utf8Size)

theorem lineAt_zero (t : Text) : lineAt t 0 = 1 := by
  cases t <;> simp [lineAt]

theorem lineAt_eq (a b : Text) : lineAt (a ++ b) (byteSize a) = 1 + a.count '\n' := by
  induction a with
  | nil => simpa using lineAt_zero b
  | cons c a ih =>
    have hne : c.utf8Size + byteSize a ≠ 0 := by
      have := c.utf8Size_pos
      omega
    have hsub : c.utf8Size + byteSize a - c.utf8Size = byteSize a := by omega
    rw [List.cons_append, byteSize_cons, lineAt, if_neg hne, hsub, ih, List.count_cons]
    simp only [beq_iff_eq]
    omega

/-! ## Numbers -/

/-- Decimal digits of a number, without leading zeros. -/
def ofNat (n : Nat) : Text := Nat.toDigits 10 n

theorem ofNat_ne_nil (n : Nat) : ofNat n ≠ [] := Nat.toDigits_ne_nil

theorem ofNat_inj {m n : Nat} : ofNat m = ofNat n ↔ m = n := by
  constructor
  · intro h
    have hread := congrArg (Nat.ofDigitChars 10 · 0) h
    simpa [ofNat, Nat.ofDigitChars_toDigits] using hread
  · exact congrArg ofNat

theorem isDigit_of_mem_ofNat {n : Nat} {c : Char} (h : c ∈ ofNat n) : c.isDigit = true :=
  Nat.isDigit_of_mem_toDigits (by decide) (by decide) h

theorem not_mem_ofNat {n : Nat} {c : Char} (h : c.isDigit = false) : c ∉ ofNat n := by
  intro hmem
  rw [isDigit_of_mem_ofNat hmem] at h
  exact Bool.false_ne_true h.symm

end Text
end Citemark
