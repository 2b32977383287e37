import Citemark.Proofs.Diagnosis
import Citemark.Proofs.Offence

/-!
# The notes of a report

A report is a state machine: its mode is switched and problems are noted, in any order. What a run
leaves can be said step by step. A note hangs on its own step and on the switches in front of it,
and no later step touches it. Handed out, the notes stand by offset and then as they were noted, and
each has the number of the line that holds its offset.

Results:
* `Text.lineAt_eq_count_bytes`: the number of a line counts the line feeds among the bytes in front.
* `Text.isOnLine_lineAt`: an offset lies on the line of its number.
* `Report.strict_run`, `Report.found_run`: the mode and the notes after a run.
* `Report.filter_sorted`: notes at one offset are handed out as they were noted.
* `Report.run_keeps_notes`: all that a run promises.
-/

namespace Citemark
namespace Text

/-! ## The number of a line -/

/-- The byte of a line feed. -/
def lineFeed : UInt8 := 10

theorem length_bytes (t : Text) : t.bytes.length = t.byteSize := by
  induction t with
  | nil => rfl
  | cons c t ih =>
    rw [bytes_cons, List.length_append, String.length_utf8EncodeChar, ih, byteSize_cons]

/-- No other character has the byte of a line feed in its form. -/
theorem lineFeed_not_mem_utf8EncodeChar {c : Char} (h : c ≠ '\n') :
    lineFeed ∉ String.utf8EncodeChar c := by
  have hcode : c.val.toNat ≠ 10 := fun hc => h (Char.toNat_inj.1 hc)
  have hbyte : ∀ n : Nat, lineFeed = UInt8.ofNat n ↔ n % 256 = 10 := by
    intro n
    rw [← UInt8.toNat_inj, UInt8.toNat_ofNat', eq_comm]
    rfl
  unfold String.utf8EncodeChar
  dsimp only
  split_ifs <;> simp only [List.mem_cons, List.not_mem_nil, or_false, hbyte] <;> omega

theorem count_take_utf8EncodeChar {c : Char} {n : Nat} (h : 0 < n) :
    ((String.utf8EncodeChar c).take n).count lineFeed = if c = '\n' then 1 else 0 := by
  by_cases hc : c = '\n'
  · subst hc
    have hform : String.utf8EncodeChar '\n' = [lineFeed] := by decide
    rw [hform, List.take_of_length_le (Nat.succ_le_of_lt h)]
    rfl
  · rw [if_neg hc, List.count_eq_zero]
    exact fun hmem => lineFeed_not_mem_utf8EncodeChar hc (List.mem_of_mem_take hmem)

theorem lineAt_eq_count_take (t : Text) (offset : Nat) :
    t.lineAt offset = 1 + (t.bytes.take offset).count lineFeed := by
  induction t generalizing offset with
  | nil => simp [lineAt, bytes_eq_flatMap]
  | cons c t ih =>
    by_cases hoffset : offset = 0
    · subst hoffset
      rw [lineAt_zero, List.take_zero, List.count_nil]
    · rw [lineAt, if_neg hoffset, ih, bytes_cons, List.take_append, List.count_append,
        count_take_utf8EncodeChar (Nat.pos_of_ne_zero hoffset), String.length_utf8EncodeChar]
      omega

/-- The number of the line of an offset counts the line feeds among the bytes in front of it, or
    among all bytes if it is past the end. -/
theorem lineAt_eq_count_bytes (t : Text) (offset : Nat) :
    t.lineAt offset = 1 + (t.bytes.take (min offset t.byteSize)).count lineFeed := by
  rw [lineAt_eq_count_take, List.take_eq_take_min, length_bytes]

theorem lineAt_le_lineAt (t : Text) {m n : Nat} (h : m ≤ n) : t.lineAt m ≤ t.lineAt n := by
  rw [lineAt_eq_count_take, lineAt_eq_count_take]
  have hsublist := List.Sublist.count_le lineFeed (List.take_sublist_take_left (l := t.bytes) h)
  omega

/-! ## Lines -/

/-- The lines of a text, without their line feeds. -/
def lines (t : Text) : List Text := t.splitOn '\n'

theorem exists_lines_eq_cons (t : Text) : ∃ line after, t.lines = line :: after :=
  List.exists_cons_of_ne_nil (List.splitOn_ne_nil '\n' t)

theorem lines_cons_lineFeed (t : Text) : lines ('\n' :: t) = [] :: t.lines := by
  rw [lines, List.splitOn_cons_eq_if_modifyHead, if_pos (beq_self_eq_true _), lines]

theorem lines_cons {c : Char} (hc : c ≠ '\n') (t : Text) :
    lines (c :: t) = t.lines.modifyHead (c :: ·) := by
  rw [lines, List.splitOn_cons_eq_if_modifyHead, if_neg (by simpa using hc), lines]

/-- Lines without line feeds that are written with one behind each are read back. -/
theorem lines_flatMap {α : Type} (line : α → Text) (as : List α) (h : ∀ a ∈ as, '\n' ∉ line a) :
    lines (as.flatMap fun a => line a ++ ['\n']) = as.map line ++ [[]] := by
  unfold lines
  induction as with
  | nil => rfl
  | cons a as ih =>
    have hrest := ih fun b hb => h b (List.mem_cons_of_mem a hb)
    rw [List.flatMap_cons, List.append_assoc, List.singleton_append,
      List.splitOn_append_cons_self_of_not_mem (h a List.mem_cons_self), hrest]
    rfl

/-- What is written with a line feed behind each part has one for each part, and those of the
    parts. -/
theorem count_flatMap_lines {α : Type} (line content : α → Text) (as : List α)
    (h : ∀ a, (line a).count '\n' = (content a).count '\n') :
    (as.flatMap fun a => line a ++ ['\n']).count '\n' =
      as.length + (as.flatMap content).count '\n' := by
  induction as with
  | nil => rfl
  | cons a as ih =>
    rw [List.flatMap_cons, List.flatMap_cons, List.count_append, List.count_append,
      List.count_append, List.count_singleton_self, ih, h, List.length_cons]
    omega

/-- Where the line behind some lines starts: each of them has its line feed. -/
def lineStart : List Text → Nat
  | [] => 0
  | line :: before => line.byteSize + 1 + lineStart before

@[simp] theorem lineStart_nil : lineStart [] = 0 := rfl

@[simp] theorem lineStart_cons (line : Text) (before : List Text) :
    lineStart (line :: before) = line.byteSize + 1 + lineStart before := rfl

/-- A byte offset lies on the line of a number. The byte behind a line belongs to it: that of its
    line feed, or the end of the text. -/
def IsOnLine (t : Text) (offset number : Nat) : Prop :=
  ∃ before line after, t.lines = before ++ line :: after ∧ number = before.length + 1 ∧
    lineStart before ≤ offset ∧ offset ≤ lineStart before + line.byteSize

theorem isOnLine_zero (t : Text) : t.IsOnLine 0 1 := by
  obtain ⟨line, after, hlines⟩ := t.exists_lines_eq_cons
  exact ⟨[], line, after, hlines, rfl, Nat.zero_le _, Nat.zero_le _⟩

theorem isOnLine_firstChar {c : Char} (hc : c ≠ '\n') (t : Text) {offset : Nat}
    (h : offset ≤ c.utf8Size) : IsOnLine (c :: t) offset 1 := by
  obtain ⟨line, after, hlines⟩ := t.exists_lines_eq_cons
  refine ⟨[], c :: line, after, ?_, rfl, Nat.zero_le _, ?_⟩
  · rw [lines_cons hc, hlines]
    rfl
  · rw [lineStart_nil, byteSize_cons]
    omega

theorem IsOnLine.cons_lineFeed {t : Text} {offset number : Nat} (h : t.IsOnLine offset number) :
    IsOnLine ('\n' :: t) (1 + offset) (1 + number) := by
  obtain ⟨before, line, after, hlines, rfl, hstart, hstop⟩ := h
  refine ⟨[] :: before, line, after, ?_, Nat.add_comm _ _, ?_, ?_⟩
  · rw [lines_cons_lineFeed, hlines]
    rfl
  · rw [lineStart_cons, byteSize_nil]
    omega
  · rw [lineStart_cons, byteSize_nil]
    omega

theorem IsOnLine.cons {c : Char} (hc : c ≠ '\n') {t : Text} {offset number : Nat}
    (h : t.IsOnLine offset number) : IsOnLine (c :: t) (c.utf8Size + offset) number := by
  obtain ⟨before, line, after, hlines, hnumber, hstart, hstop⟩ := h
  cases before with
  | nil =>
    refine ⟨[], c :: line, after, ?_, hnumber, Nat.zero_le _, ?_⟩
    · rw [lines_cons hc, hlines]
      rfl
    · rw [lineStart_nil, byteSize_cons] at *
      omega
  | cons first before =>
    refine ⟨(c :: first) :: before, line, after, ?_, hnumber, ?_, ?_⟩
    · rw [lines_cons hc, hlines]
      rfl
    · rw [lineStart_cons, byteSize_cons] at *
      omega
    · rw [lineStart_cons, byteSize_cons] at *
      omega

/-- An offset lies on the line of its number, one past the end on the last line. -/
theorem isOnLine_lineAt (t : Text) (offset : Nat) :
    t.IsOnLine (min offset t.byteSize) (t.lineAt offset) := by
  induction t generalizing offset with
  | nil =>
    rw [byteSize_nil, Nat.min_zero]
    exact isOnLine_zero []
  | cons c t ih =>
    by_cases hzero : offset = 0
    · subst hzero
      rw [Nat.zero_min, lineAt_zero]
      exact isOnLine_zero (c :: t)
    have hnext := ih (offset - c.utf8Size)
    rw [lineAt, if_neg hzero, byteSize_cons]
    by_cases hc : c = '\n'
    · subst hc
      have hsize : Char.utf8Size '\n' = 1 := rfl
      have hmin : min offset (Char.utf8Size '\n' + byteSize t) =
          1 + min (offset - Char.utf8Size '\n') (byteSize t) := by omega
      rw [if_pos rfl, hmin]
      exact hnext.cons_lineFeed
    · rw [if_neg hc, Nat.zero_add]
      -- The offset may lie inside the character, and then nothing in front of it counts.
      by_cases hinside : offset ≤ c.utf8Size
      · rw [Nat.sub_eq_zero_of_le hinside, lineAt_zero]
        exact isOnLine_firstChar hc t (by omega)
      · have hmin : min offset (c.utf8Size + byteSize t) =
            c.utf8Size + min (offset - c.utf8Size) (byteSize t) := by omega
        rw [hmin]
        exact hnext.cons hc

end Text

namespace Report

/-! ## Runs -/

/-- What can be done with a report over a text. -/
inductive Step where
  | switch (strict : Bool)
  | note (code : Code) (message : Text) (offset : Nat)
deriving DecidableEq, Repr

namespace Step

/-- The mode that a step switches to, if it does. -/
def mode? : Step → Option Bool
  | .switch strict => some strict
  | .note .. => none

/-- What a step notes in a mode, if it does. -/
def diagnostic? (t : Text) (strict : Bool) : Step → Option Diagnostic
  | .switch _ => none
  | .note code message offset =>
    some ⟨if strict then .error else .warning, code, message, offset, t.lineAt offset⟩

end Step

/-- Takes a step. -/
def step (t : Text) (r : Report) : Step → Report
  | .switch strict => r.withStrict strict
  | .note code message offset => r.warn code message t offset

/-- Takes some steps from a new report on. -/
def run (t : Text) (steps : List Step) : Report := steps.foldl (step t) {}

/-- The mode after some steps: that of the last switch, and not strict without one. -/
def modeAfter (steps : List Step) : Bool := (steps.filterMap Step.mode?).getLast?.getD false

/-- What some steps note, each in the mode after the steps in front of it. -/
def notesOf (t : Text) (steps : List Step) : List Diagnostic :=
  steps.zipIdx.filterMap fun (s, i) => s.diagnostic? t (modeAfter (steps.take i))

variable {t : Text}

theorem strict_step (r : Report) (s : Step) : (step t r s).strict = s.mode?.getD r.strict := by
  cases s <;> rfl

theorem found_step (r : Report) (s : Step) :
    (step t r s).found = r.found ++ (s.diagnostic? t r.strict).toList := by
  cases s with
  | switch strict => exact (List.append_nil _).symm
  | note code message offset => rfl

theorem run_append (before after : List Step) :
    run t (before ++ after) = after.foldl (step t) (run t before) := List.foldl_append

theorem run_concat (steps : List Step) (s : Step) :
    run t (steps ++ [s]) = step t (run t steps) s := run_append steps [s]

theorem modeAfter_concat (steps : List Step) (s : Step) :
    modeAfter (steps ++ [s]) = s.mode?.getD (modeAfter steps) := by
  unfold modeAfter
  rw [List.filterMap_append, List.getLast?_append]
  cases s with
  | switch strict => rfl
  | note code message offset => rfl

theorem notesOf_concat (steps : List Step) (s : Step) :
    notesOf t (steps ++ [s]) = notesOf t steps ++ (s.diagnostic? t (modeAfter steps)).toList := by
  unfold notesOf
  rw [List.zipIdx_append, List.filterMap_append, Nat.zero_add]
  congr 1
  · refine List.filterMap_congr fun p hp => ?_
    obtain ⟨hlt, _⟩ := List.getElem?_eq_some_iff.1 (List.mem_zipIdx_iff_getElem?.1 hp)
    simp only [List.take_append_of_le_length (Nat.le_of_lt hlt)]
  · simp only [List.zipIdx_singleton, List.filterMap_cons, List.filterMap_nil, List.take_left']
    cases s.diagnostic? t (modeAfter steps) <;> rfl

theorem strict_run (t : Text) (steps : List Step) : (run t steps).strict = modeAfter steps := by
  induction steps using List.reverseRecOn with
  | nil => rfl
  | append_singleton steps s ih => rw [run_concat, strict_step, ih, modeAfter_concat]

/-- A run notes what its steps note, each in the mode that its earlier switches leave. -/
theorem found_run (t : Text) (steps : List Step) : (run t steps).found = notesOf t steps := by
  induction steps using List.reverseRecOn with
  | nil => rfl
  | append_singleton steps s ih =>
    rw [run_concat, found_step, ih, strict_run, notesOf_concat]

/-- Later steps leave the notes alone. -/
theorem found_prefix_run_append (t : Text) (before after : List Step) :
    (run t before).found <+: (run t (before ++ after)).found := by
  induction after using List.reverseRecOn with
  | nil => rw [List.append_nil]
  | append_singleton after s ih =>
    rw [← List.append_assoc, run_concat, found_step]
    exact ih.trans (List.prefix_append _ _)

theorem mem_notesOf_iff {steps : List Step} {d : Diagnostic} : d ∈ notesOf t steps ↔
    ∃ (i : Nat) (s : Step), steps[i]? = some s ∧
      s.diagnostic? t (modeAfter (steps.take i)) = some d := by
  unfold notesOf
  simp only [List.mem_filterMap, Prod.exists, List.mem_zipIdx_iff_getElem?]
  exact exists_comm

/-- There is an error exactly if something was noted in strict mode. -/
theorem hasErrors_run_iff (t : Text) (steps : List Step) : (run t steps).hasErrors = true ↔
    ∃ (i : Nat) (code : Code) (message : Text) (offset : Nat),
      steps[i]? = some (.note code message offset) ∧ modeAfter (steps.take i) = true := by
  unfold hasErrors
  rw [found_run, List.any_eq_true]
  simp only [mem_notesOf_iff, decide_eq_true_eq]
  constructor
  · intro h
    obtain ⟨d, ⟨i, s, hs, hd⟩, herror⟩ := h
    cases s with
    | switch strict => simp [Step.diagnostic?] at hd
    | note code message offset =>
      obtain rfl := Option.some.inj hd
      refine ⟨i, code, message, offset, hs, ?_⟩
      by_contra hmode
      simp [hmode] at herror
  · intro h
    obtain ⟨i, code, message, offset, hs, hmode⟩ := h
    exact ⟨_, ⟨i, _, hs, rfl⟩, by simp [hmode]⟩

/-! ## Handing out -/

/-- Notes at one offset are handed out as they were noted. -/
theorem filter_sorted (r : Report) (offset : Nat) :
    r.sorted.filter (·.offset = offset) = r.found.filter (·.offset = offset) := by
  have hpairwise : (r.found.filter (·.offset = offset)).Pairwise
      fun a b => decide (a.offset ≤ b.offset) = true := by
    refine List.pairwise_of_forall_mem_list fun a ha b hb => ?_
    have hoffset : ∀ d ∈ r.found.filter (·.offset = offset), d.offset = offset := fun d hd => by
      simpa using (List.mem_filter.1 hd).2
    rw [hoffset a ha, hoffset b hb, decide_eq_true_eq]
  have hsublist : (r.found.filter (·.offset = offset)).Sublist r.sorted :=
    List.sublist_mergeSort offset_le_trans offset_le_total hpairwise List.filter_sublist
  have hfilter := hsublist.filter fun d => decide (d.offset = offset)
  simp only [List.filter_filter, Bool.and_self] at hfilter
  have hlength := (r.sorted_perm.filter fun d => decide (d.offset = offset)).length_eq
  exact (hfilter.eq_of_length hlength.symm).symm

theorem line_of_mem_notesOf {steps : List Step} {d : Diagnostic} (h : d ∈ notesOf t steps) :
    d.line = t.lineAt d.offset := by
  obtain ⟨i, s, _, hd⟩ := mem_notesOf_iff.1 h
  cases s with
  | switch strict => exact nomatch hd
  | note code message offset =>
    obtain rfl := Option.some.inj hd
    rfl

/-- The notes by offset are also the notes by line. -/
theorem pairwise_sorted_line (t : Text) (steps : List Step) :
    (run t steps).sorted.Pairwise fun a b => a.line ≤ b.line := by
  have hline : ∀ d ∈ (run t steps).sorted, d.line = t.lineAt d.offset := by
    intro d hd
    have hfound := (sorted_perm _).mem_iff.1 hd
    rw [found_run] at hfound
    exact line_of_mem_notesOf hfound
  refine (pairwise_sorted _).imp_of_mem fun ha hb hoffset => ?_
  rw [hline _ ha, hline _ hb]
  exact Text.lineAt_le_lineAt t hoffset

/-- Whatever is noted at whatever offsets, and however the mode is switched in between: each note
    has the severity of the mode that the switches in front of it leave, no later step changes it,
    and an error is there exactly if something was noted in strict mode. Handed out are the same
    notes, by offset and so by line, those at one offset as they were noted, and each has the number
    of the line that holds its offset, or the end of the text if that comes first. -/
theorem run_keeps_notes (t : Text) (steps : List Step) :
    (run t steps).found = notesOf t steps ∧
      (∀ later, (run t steps).found <+: (run t (steps ++ later)).found) ∧
      ((run t steps).hasErrors = true ↔ ∃ (i : Nat) (code : Code) (message : Text) (offset : Nat),
        steps[i]? = some (.note code message offset) ∧ modeAfter (steps.take i) = true) ∧
      (run t steps).sorted.Perm (notesOf t steps) ∧
      (run t steps).sorted.Pairwise (fun a b => a.offset ≤ b.offset ∧ a.line ≤ b.line) ∧
      (∀ offset, (run t steps).sorted.filter (·.offset = offset) =
        (notesOf t steps).filter (·.offset = offset)) ∧
      ∀ d ∈ (run t steps).sorted,
        d.line = 1 + (t.bytes.take (min d.offset t.byteSize)).count Text.lineFeed ∧
          t.IsOnLine (min d.offset t.byteSize) d.line := by
  have hfound := found_run t steps
  have hperm := sorted_perm (run t steps)
  rw [hfound] at hperm
  refine ⟨hfound, found_prefix_run_append t steps, hasErrors_run_iff t steps, hperm,
    (pairwise_sorted _).and (pairwise_sorted_line t steps), fun offset => ?_, fun d hd => ?_⟩
  · rw [filter_sorted, hfound]
  · have hline := line_of_mem_notesOf (hperm.mem_iff.1 hd)
    rw [hline]
    exact ⟨t.lineAt_eq_count_bytes d.offset, t.isOnLine_lineAt d.offset⟩

end Report
end Citemark
