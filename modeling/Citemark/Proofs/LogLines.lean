import Citemark.Proofs.Notes
import Citemark.Program

/-!
# The lines of the log

The log has one entry for each diagnostic, and an entry ends its line. Whether that is its only line
hangs on the names of the markers: a name may go over several lines, and what is said about a marker
holds its name once, as it is written. Nothing else in an entry breaks a line, so a diagnostic takes
one line and one more for each line feed in the name of its marker.

Results:
* `LogEntry.count_body`, `LogEntry.lines_flatMap_line`: the lines of entries by their messages.
* `count_display_diagnosis`: the line feeds of a diagnostic are those of a name.
* `Program.stderr_exit_logged`: what a run writes for its diagnostics, quiet or not.
* `logged_on_one_line_each_iff`: when every diagnostic is logged on one line.
-/

namespace Citemark

/-! ## Parts without line feeds -/

namespace Text

theorem count_append_left {a b : Text} (h : '\n' ∉ b) : (a ++ b).count '\n' = a.count '\n' := by
  rw [List.count_append, List.count_eq_zero.2 h, Nat.add_zero]

theorem count_append_right {a b : Text} (h : '\n' ∉ a) : (a ++ b).count '\n' = b.count '\n' := by
  rw [List.count_append, List.count_eq_zero.2 h, Nat.zero_add]

theorem lineFeed_not_mem_ofNat (n : Nat) : '\n' ∉ ofNat n := not_mem_ofNat rfl

end Text

/-! ## Entries -/

namespace LogEntry

theorem lineFeed_not_mem_toDigits (n : Nat) : '\n' ∉ Nat.toDigits 16 n := by
  have hdigit : ∀ d : Nat, '\n' ∉ [d.digitChar] := by
    intro d h
    exact Nat.digitChar_ne '\n' (by decide) (List.mem_singleton.1 h).symm
  induction n using Nat.strongRecOn with
  | ind n ih =>
    rw [Nat.toDigits_eq_if (by omega)]
    split
    · exact hdigit n
    · have hdiv := ih (n / 16) (by omega)
      intro h
      exact (List.mem_append.1 h).elim hdiv (hdigit _)

/-- A line feed is written as it is, and no other character is spelled with one. -/
theorem count_spell (c : Char) : (spell c).count '\n' = [c].count '\n' := by
  unfold spell
  by_cases hcontrol : isTerminalControl c = true
  · have hc : '\n' ∉ [c] := by
      intro h
      rw [← List.mem_singleton.1 h] at hcontrol
      exact absurd hcontrol (by decide)
    have hdigits := lineFeed_not_mem_toDigits c.toNat
    rw [if_pos hcontrol, List.count_eq_zero.2 hc, List.count_eq_zero]
    dsimp only
    split
    · simp [hdigits]
    · simp [hdigits]
  · rw [if_neg hcontrol]

theorem count_flatMap_spell (t : Text) : (t.flatMap spell).count '\n' = t.count '\n' := by
  induction t with
  | nil => rfl
  | cons c t ih =>
    rw [List.flatMap_cons, List.count_append, count_spell, ih, ← List.count_append,
      List.singleton_append]

/-- What an entry writes in front of its end of line. -/
def body (e : LogEntry) : Text := e.level.text ++ [' '] ++ e.message.flatMap spell

theorem count_body (e : LogEntry) : e.body.count '\n' = e.message.count '\n' := by
  have hlevel : '\n' ∉ e.level.text ++ [' '] := by cases e.level <;> decide
  rw [body, Text.count_append_right hlevel, count_flatMap_spell]

/-- The lines of some entries whose messages keep to one line are these entries. -/
theorem lines_flatMap_line (es : List LogEntry) (h : ∀ e ∈ es, '\n' ∉ e.message) :
    Text.lines (es.flatMap line) = es.map body ++ [[]] := by
  have hbody : ∀ e ∈ es, '\n' ∉ e.body := by
    intro e he
    rw [← List.count_eq_zero, count_body, List.count_eq_zero]
    exact h e he
  exact Text.lines_flatMap body es hbody

end LogEntry

/-! ## Diagnostics -/

theorem Diagnostic.count_display (d : Diagnostic) : d.display.count '\n' = d.message.count '\n' := by
  have hline : '\n' ∉ "line ".toList := by decide
  have hcolon : '\n' ∉ ": ".toList := by decide
  have hopen : '\n' ∉ " [".toList := by decide
  have hcode : '\n' ∉ d.code.text := by cases d.code <;> decide
  have hclose : '\n' ∉ "]".toList := by decide
  unfold display
  rw [Text.count_append_left hclose, Text.count_append_left hcode,
    Text.count_append_left hopen, List.append_assoc, List.append_assoc,
    Text.count_append_right hline, Text.count_append_right (Text.lineFeed_not_mem_ofNat _),
    Text.count_append_right hcolon]

theorem Mark.count_literal (m : Mark) : m.literal.count '\n' = m.name.count '\n' := by
  have hopener : '\n' ∉ m.kind.opener := by cases m.kind <;> decide
  have hcloser : '\n' ∉ [']', ']'] := by decide
  rw [literal, Text.count_append_left hcloser, Text.count_append_right hopener]

/-- What is said about a marker at fault holds its name once. -/
theorem count_faultMessage (t : Text) (m : Marker) (code : Code) :
    (faultMessage t m code).count '\n' = m.name.count '\n' := by
  have hquote : '\n' ∉ "'".toList := by decide
  unfold faultMessage
  cases code with
  | duplicateDefinition =>
    have hbefore : '\n' ∉ "duplicate definition of citation '".toList := by decide
    have hbetween : '\n' ∉ "' (numbered ".toList := by decide
    have hbehind : '\n' ∉ "); references use the first".toList := by decide
    dsimp only
    rw [Text.count_append_left hbehind,
      Text.count_append_left (Text.lineFeed_not_mem_ofNat _), Text.count_append_left hbetween,
      Text.count_append_right hbefore]
  | missingUrl =>
    have hbefore : '\n' ∉ "no URL found for citation '".toList := by decide
    dsimp only
    rw [Text.count_append_left hquote, Text.count_append_right hbefore]
  | unmatchedReference =>
    have hbefore : '\n' ∉ "no definition found for citation reference '".toList := by decide
    dsimp only
    rw [Text.count_append_left hquote, Text.count_append_right hbefore,
      Mark.count_literal]

theorem count_display_diagnosis (t : Text) (strict : Bool) (m : Marker) (code : Code) :
    (diagnosis t strict m code).display.count '\n' = m.name.count '\n' := by
  rw [Diagnostic.count_display]
  exact count_faultMessage t m code

/-- The markers at fault, in document order. -/
def atFault (t : Text) : List Marker := (scan t).filter fun m => (fault? t m).isSome

theorem mem_atFault_iff {t : Text} {m : Marker} :
    m ∈ atFault t ↔ m ∈ scan t ∧ ∃ code, IsAtFault t m code := by
  unfold atFault
  rw [List.mem_filter, Option.isSome_iff_exists]
  exact and_congr_right fun hm => exists_congr fun code => fault?_eq_some_iff hm

/-- The diagnostics hold as many line feeds as the names at fault. -/
theorem count_flatMap_display (t : Text) (strict : Bool) :
    ((resolve t strict).diagnostics.flatMap Diagnostic.display).count '\n' =
      ((atFault t).flatMap (·.name)).count '\n' := by
  unfold atFault
  rw [diagnostics_resolve_eq]
  induction scan t with
  | nil => rfl
  | cons m ms ih =>
    cases hfault : fault? t m with
    | none =>
      simp only [List.filterMap_cons, List.filter_cons, hfault]
      exact ih
    | some code =>
      simp only [List.filterMap_cons, List.filter_cons, hfault, Option.map_some,
        Option.isSome_some, if_true, List.flatMap_cons, List.count_append]
      rw [count_display_diagnosis, ih]

/-! ## What is logged -/

/-- What is written to the log for some diagnostics of a template. -/
def Template.logged (template : Template) (ds : List Diagnostic) : Text :=
  (ds.map template.logEntry).flatMap LogEntry.line

/-- A run that does not fail writes its diagnostics, quiet or not. -/
theorem Program.stderr_exit_logged (template : Template) (ds : List Diagnostic) (quiet : Bool)
    (stdout : Text) :
    (Program.exit quiet { log := ds.map template.logEntry, stdout }).stderr =
      template.logged ds := by
  have hlevel : ∀ e ∈ ds.map template.logEntry, (!quiet || decide (e.level ≠ .info)) = true := by
    intro e he
    obtain ⟨d, _, rfl⟩ := List.mem_map.1 he
    unfold Template.logEntry
    cases d.severity <;> simp
  unfold Program.exit
  rw [List.filter_eq_self.2 hlevel]
  exact List.append_nil _

theorem Template.count_logEntry (template : Template) (d : Diagnostic) :
    (template.logEntry d).message.count '\n' =
      template.name.count '\n' + d.display.count '\n' := by
  have hcolon : '\n' ∉ ": ".toList := by decide
  rw [logEntry, List.count_append, Text.count_append_left hcolon]

theorem Template.count_logged (template : Template) (ds : List Diagnostic)
    (h : '\n' ∉ template.name) : (template.logged ds).count '\n' =
      ds.length + (ds.flatMap Diagnostic.display).count '\n' := by
  have hbody : ∀ d, (template.logEntry d).body.count '\n' = d.display.count '\n' := by
    intro d
    rw [LogEntry.count_body, template.count_logEntry, List.count_eq_zero.2 h, Nat.zero_add]
  unfold logged
  rw [List.flatMap_map]
  exact Text.count_flatMap_lines _ _ ds hbody

/-- **A diagnostic is one line unless a name breaks it.** The diagnostics of a text are printed
    without line feeds exactly if no marker at fault has one in its name. A run that has nothing else
    to log writes the log of its diagnostics, quiet or not. Under a template name without line
    feeds, this log takes one line for each diagnostic and one more for each line feed
    in the name of a marker at fault, so as many lines as there are diagnostics exactly if there is
    none, and then its lines are the entries of the diagnostics. -/
theorem logged_on_one_line_each_iff (t : Text) (strict : Bool) :
    ((∀ d ∈ (resolve t strict).diagnostics, '\n' ∉ d.display) ↔
      ∀ m ∈ scan t, (∃ code, IsAtFault t m code) → '\n' ∉ m.name) ∧
    (∀ (template : Template) (quiet : Bool) (stdout : Text),
      (Program.exit quiet
        { log := (resolve t strict).diagnostics.map template.logEntry, stdout }).stderr =
          template.logged (resolve t strict).diagnostics) ∧
    ∀ template : Template, '\n' ∉ template.name →
      (template.logged (resolve t strict).diagnostics).count '\n' =
        (resolve t strict).diagnostics.length + ((atFault t).flatMap (·.name)).count '\n' ∧
      ((template.logged (resolve t strict).diagnostics).count '\n' =
          (resolve t strict).diagnostics.length ↔
        ∀ m ∈ scan t, (∃ code, IsAtFault t m code) → '\n' ∉ m.name) ∧
      ((∀ m ∈ scan t, (∃ code, IsAtFault t m code) → '\n' ∉ m.name) →
        (template.logged (resolve t strict).diagnostics).lines =
          (resolve t strict).diagnostics.map (fun d => (template.logEntry d).body) ++ [[]]) := by
  have hcounts := count_flatMap_display t strict
  have hnames : ((atFault t).flatMap (·.name)).count '\n' = 0 ↔
      ∀ m ∈ scan t, (∃ code, IsAtFault t m code) → '\n' ∉ m.name := by
    simp only [List.count_eq_zero, List.mem_flatMap, mem_atFault_iff, not_exists, not_and, and_imp]
  have hdisplay : (∀ d ∈ (resolve t strict).diagnostics, '\n' ∉ d.display) ↔
      ∀ m ∈ scan t, (∃ code, IsAtFault t m code) → '\n' ∉ m.name := by
    rw [← hnames, ← hcounts]
    simp only [List.count_eq_zero, List.mem_flatMap, not_exists, not_and]
  refine ⟨hdisplay, fun template quiet stdout =>
    Program.stderr_exit_logged template _ quiet stdout, fun template hname => ?_⟩
  have hcount := template.count_logged (resolve t strict).diagnostics hname
  rw [hcounts] at hcount
  refine ⟨hcount, ?_, fun hbroken => ?_⟩
  · rw [← hnames, hcount]
    omega
  · unfold Template.logged
    rw [LogEntry.lines_flatMap_line, List.map_map]
    · rfl
    · intro e he
      obtain ⟨d, hd, rfl⟩ := List.mem_map.1 he
      rw [← List.count_eq_zero, template.count_logEntry, List.count_eq_zero.2 hname,
        List.count_eq_zero.2 (hdisplay.2 hbroken d hd)]

/-! ## A name over two lines -/

/-- A reference with a line feed in its name. -/
def brokenName : Text := "[[ref:a\nb]]".toList

/-- One diagnostic is printed and logged on two lines. -/
theorem brokenName_logged_on_two_lines :
    ∃ d, (resolve brokenName false).diagnostics = [d] ∧ '\n' ∈ d.display ∧
      ((Template.ofFile "t.md".toList brokenName).logged [d]).count '\n' = 2 := by
  refine ⟨⟨.warning, .unmatchedReference,
    "no definition found for citation reference '[[ref:a\nb]]'".toList, 0, 1⟩, ?_, ?_, ?_⟩
  · decide +kernel
  · decide +kernel
  · decide +kernel

end Citemark
