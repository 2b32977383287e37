import Citemark.Proofs.Atomicity
import Citemark.Proofs.Idempotence

/-!
# The lines of diagnostics

A template is resolved after its tokens have been replaced, and the line of a diagnostic is counted
in what is resolved. A marker that was copied from the template stands on the line of its template
unless the values in front of it have more or fewer line feeds than the tokens that they replaced;
then it is reported so many lines further down or up.

Results:
* `count_output_add`: what a replacement adds to the line feeds of a text.
* `eq_replaceAll_of_substitute`: what is resolved is the text after one pass.
* `line_of_mem_diagnostics_render`: the line of a diagnostic, counted behind the replacement.
* `line_eq_template_line_iff`: when that is the line of the template.
-/

namespace Citemark

namespace Fragment

/-- The token that a fragment replaces. -/
def token : Fragment → Text
  | .copied _ => []
  | .replaced token _ => token

/-- The value that a fragment writes for a token. -/
def value : Fragment → Text
  | .copied _ => []
  | .replaced _ value => value

/-- Characters are lost with the tokens and gained with the values, and else kept. -/
theorem count_output_add (c : Char) (fs : List Fragment) :
    (fs.flatMap output).count c + (fs.flatMap token).count c =
      (fs.flatMap source).count c + (fs.flatMap value).count c := by
  induction fs with
  | nil => rfl
  | cons f fs ih =>
    simp only [List.flatMap_cons, List.count_append]
    cases f with
    | copied d =>
      simp only [output, source, token, value, List.count_nil]
      omega
    | replaced token' value' =>
      simp only [output, source, token, value]
      omega

end Fragment

namespace PlaceholderMap

/-- Substitution copies the character at byte `position` of a text to byte `offset` of its result,
    and what stands in front of it makes up the fragments `before`. -/
def IsCopied (m : PlaceholderMap) (t : Text) (before : List Fragment) (offset position : Nat) :
    Prop :=
  (∃ c after, m.fragments t = before ++ .copied c :: after) ∧
    Text.byteSize (before.flatMap Fragment.output) = offset ∧
    Text.byteSize (before.flatMap Fragment.source) = position

variable {m : PlaceholderMap} {compiler : PatternCompiler} {t : Text} {before : List Fragment}
  {offset position : Nat}

theorem eq_replaceAll_of_substitute {o : Text} (h : m.substitute compiler t = .ok o) :
    o = m.replaceAll t := by
  obtain ⟨hvalid, hcompiles⟩ := compiles_of_substitute h
  rw [substitute_eq hvalid hcompiles] at h
  split at h
  · exact nomatch h
  · exact (Except.ok.inj h).symm

theorem IsCopied.lineAt_source (h : m.IsCopied t before offset position) :
    t.lineAt position = 1 + (before.flatMap Fragment.source).count '\n' := by
  obtain ⟨⟨c, after, hsplit⟩, _, rfl⟩ := h
  rw [← m.source_fragments t, hsplit, List.flatMap_append]
  exact Text.lineAt_eq _ _

theorem IsCopied.lineAt_output (h : m.IsCopied t before offset position) :
    (m.replaceAll t).lineAt offset = 1 + (before.flatMap Fragment.output).count '\n' := by
  obtain ⟨⟨c, after, hsplit⟩, rfl, _⟩ := h
  rw [replaceAll, hsplit, List.flatMap_append]
  exact Text.lineAt_eq _ _

end PlaceholderMap

theorem line_of_mem_diagnostics_render {compiler : PatternCompiler} {t : Text}
    {m : PlaceholderMap} {strict : Bool} {r : Resolution} (h : render compiler t m strict = .ok r)
    {d : Diagnostic} (hd : d ∈ r.diagnostics) : d.line = (m.replaceAll t).lineAt d.offset := by
  obtain ⟨substituted, hsubstitute, rfl⟩ := render_eq_ok_iff.1 h
  obtain ⟨marker, _, code, _, rfl⟩ := exists_diagnosis_of_mem hd
  rw [← PlaceholderMap.eq_replaceAll_of_substitute hsubstitute]
  rfl

/-- **Lines are counted behind the replacement.** A diagnostic whose marker was copied from a place
    of the template is reported on the line of that place, moved down by the line feeds of the
    values in front and up by those of the tokens that they replaced. It is the line of the template
    exactly when the two balance. -/
theorem line_eq_template_line_iff {compiler : PatternCompiler} {t : Text} {m : PlaceholderMap}
    {strict : Bool} {r : Resolution} (h : render compiler t m strict = .ok r) {d : Diagnostic}
    (hd : d ∈ r.diagnostics) {before : List Fragment} {position : Nat}
    (hcopied : m.IsCopied t before d.offset position) :
    t.lineAt position = 1 + (before.flatMap Fragment.source).count '\n' ∧
    d.line + (before.flatMap Fragment.token).count '\n' =
      t.lineAt position + (before.flatMap Fragment.value).count '\n' ∧
    (d.line = t.lineAt position ↔
      (before.flatMap Fragment.value).count '\n' = (before.flatMap Fragment.token).count '\n') := by
  have hsource := hcopied.lineAt_source
  have hline : d.line = 1 + (before.flatMap Fragment.output).count '\n' := by
    rw [line_of_mem_diagnostics_render h hd, hcopied.lineAt_output]
  have hcount := Fragment.count_output_add '\n' before
  refine ⟨hsource, ?_, ?_⟩
  · omega
  · omega

/-! ## A value over two lines -/

/-- A template of one line, whose token is replaced by two. -/
def noteTemplate : Text := "[[NOTE]] [[ref:x]]".toList

def noteMap : PlaceholderMap := .ofList [("[[NOTE]]".toList, "first\nsecond".toList)]

/-- What is substituted in front of the marker of that template. -/
def noteFragments : List Fragment :=
  [.replaced "[[NOTE]]".toList "first\nsecond".toList, .copied ' ']

/-- What is said about that marker. -/
def noteDiagnostic : Diagnostic where
  severity := .warning
  code := .unmatchedReference
  message := "no definition found for citation reference '[[ref:x]]'".toList
  offset := 13
  line := 2

theorem render_noteTemplate : render .standard noteTemplate noteMap false =
    .ok (resolve "first\nsecond [[ref:x]]".toList false) := by
  have hvalid : noteMap.validate = .ok () := rfl
  have hreplace : noteMap.replaceAll noteTemplate = "first\nsecond [[ref:x]]".toList := by
    decide +kernel
  have hfree : noteMap.firstToken? "first\nsecond [[ref:x]]".toList = none := by decide
  have hcompiles : noteMap.Compiles .standard := by decide
  refine render_eq_ok_iff.2 ⟨_, ?_, rfl⟩
  rw [PlaceholderMap.substitute_eq hvalid hcompiles, hreplace, hfree]

theorem diagnostics_noteTemplate :
    (resolve "first\nsecond [[ref:x]]".toList false).diagnostics = [noteDiagnostic] := by
  decide +kernel

theorem isCopied_noteTemplate : noteMap.IsCopied noteTemplate noteFragments 13 9 := by
  have hfragments : noteMap.fragments noteTemplate =
      noteFragments ++ .copied '[' :: "[ref:x]]".toList.map Fragment.copied := by
    decide +kernel
  exact ⟨⟨_, _, hfragments⟩, by decide, by decide⟩

/-- The second line of the value moves the marker down by one. -/
theorem line_of_noteTemplate :
    render .standard noteTemplate noteMap false =
      .ok (resolve "first\nsecond [[ref:x]]".toList false) ∧
    noteDiagnostic ∈ (resolve "first\nsecond [[ref:x]]".toList false).diagnostics ∧
    noteMap.IsCopied noteTemplate noteFragments noteDiagnostic.offset 9 ∧
    noteTemplate.lineAt 9 = 1 ∧ noteDiagnostic.line = noteTemplate.lineAt 9 + 1 := by
  have hmem : noteDiagnostic ∈ (resolve "first\nsecond [[ref:x]]".toList false).diagnostics := by
    rw [diagnostics_noteTemplate]
    exact List.mem_singleton_self _
  obtain ⟨hposition, hline, _⟩ :=
    line_eq_template_line_iff render_noteTemplate hmem isCopied_noteTemplate
  exact ⟨render_noteTemplate, hmem, isCopied_noteTemplate, hposition, hline⟩

/-- A marker on the only line of its template is reported on another line. -/
theorem not_line_of_template : ∃ r d, render .standard noteTemplate noteMap false = .ok r ∧
    d ∈ r.diagnostics ∧ noteMap.IsCopied noteTemplate noteFragments d.offset 9 ∧
    d.line ≠ 1 + (noteTemplate.take 9).count '\n' := by
  refine ⟨_, noteDiagnostic, render_noteTemplate, ?_, isCopied_noteTemplate, by decide⟩
  rw [diagnostics_noteTemplate]
  exact List.mem_singleton_self _

end Citemark
