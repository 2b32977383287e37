import Citemark.Bibliography
import Citemark.Diagnostic
import Citemark.Substitution

/-!
# Resolution

Resolving a text scans its markers, numbers the definitions, and copies the text once with every
marker replaced: a definition by its number, a reference by the number of the first definition of
its name, linked if that has an address. A reference without definition stays as it is written.
The written text is not scanned again, so the brackets of a rendered reference are never taken for
a marker.

Results:
* `check_eq_ok_iff`: a resolution passes exactly when it holds no error.
* `check_eq_error_iff`: another one is refused with the number of its errors.
-/

namespace Citemark

namespace Bibliography

/-! ## Rewriting -/

/-- What stands for a marker; nothing for a reference without definition. -/
def replacement? (b : Bibliography) (m : Marker) : Option Text :=
  match m.kind with
  | .definition => (b.atOffset? m.span.start).map Citation.renderDefinition
  | .reference => (b.lookup m.name).map Citation.renderReference

/-- Copies the text behind byte `cursor`, with the markers in it replaced. -/
def rewrite (b : Bibliography) (cursor : Nat) (text : Text) : List Marker → Text
  | [] => text
  | m :: markers =>
    let (run, text) := text.splitAtByte (m.span.start - cursor)
    let (written, text) := text.splitAtByte (m.span.stop - m.span.start)
    run ++ (b.replacement? m).getD written ++ rewrite b m.span.stop text markers

/-! ## Problems -/

/-- Notes every definition of a name that is defined before. -/
def warnDuplicates (b : Bibliography) (text : Text) (r : Report) : Report :=
  b.duplicates.foldl (fun r c =>
    r.warn .duplicateDefinition ("duplicate definition of citation '".toList ++ c.name ++
      "' (numbered ".toList ++ Text.ofNat c.index ++ "); references use the first".toList)
      text c.span.start) r

/-- Whether a reference uses a name. -/
def isCited (markers : List Marker) (name : Text) : Bool :=
  markers.any fun m => m.isReference && m.name = name

/-- Whether references mean this citation, and not an earlier one of the same name. -/
def isCanonical (b : Bibliography) (c : Citation) : Bool :=
  (b.lookup c.name).any (·.index = c.index)

/-- Notes every cited entry without address. -/
def warnMissing (b : Bibliography) (markers : List Marker) (text : Text) (r : Report) : Report :=
  let missing := b.citations.toList.filter fun c =>
    c.url.isNone && b.isCanonical c && isCited markers c.name
  missing.foldl (fun r c =>
    r.warn .missingUrl ("no URL found for citation '".toList ++ c.name ++ "'".toList)
      text c.span.start) r

/-- Notes every reference without definition. -/
def warnUnmatched (b : Bibliography) (markers : List Marker) (text : Text) (r : Report) : Report :=
  let unmatched := markers.filter fun m => m.isReference && (b.lookup m.name).isNone
  unmatched.foldl (fun r m =>
    r.warn .unmatchedReference ("no definition found for citation reference '".toList ++
      m.literal ++ "'".toList) text m.span.start) r

end Bibliography

/-! ## Results -/

/-- A rendered text, its numbering, and its problems in document order. -/
structure Resolution where
  text : Text
  citations : Bibliography
  diagnostics : List Diagnostic
deriving DecidableEq, Repr

namespace Resolution

/-- Number of problems that count as errors. -/
def errorCount (r : Resolution) : Nat := r.diagnostics.countP (·.severity = .error)

def hasErrors (r : Resolution) : Bool := r.errorCount > 0

/-- Fails if strict mode has made an error of any problem. -/
def check (r : Resolution) : Except RenderError Unit :=
  if r.errorCount = 0 then pure () else throw (.strict r.errorCount)

theorem check_eq_ok_iff (r : Resolution) : r.check = .ok () ↔ r.hasErrors = false := by
  by_cases h : r.errorCount = 0
  · simp [check, hasErrors, h, pure, Except.pure]
  · simp [check, hasErrors, h, throw, throwThe, MonadExceptOf.throw, Nat.pos_of_ne_zero h]

theorem check_eq_error_iff (r : Resolution) {cause : RenderError} :
    r.check = .error cause ↔ r.hasErrors = true ∧ cause = .strict r.errorCount := by
  by_cases h : r.errorCount = 0
  · simp [check, hasErrors, h, pure, Except.pure]
  · simp [check, hasErrors, h, throw, throwThe, MonadExceptOf.throw, Nat.pos_of_ne_zero h,
      eq_comm]

end Resolution

/-- Numbers the definitions of a text and rewrites its markers. -/
def resolve (text : Text) (strict : Bool) : Resolution :=
  let markers := scan text
  let citations := Bibliography.collect text markers
  let report : Report := Report.withStrict {} strict
  let report := citations.warnDuplicates text report
  let report := citations.warnMissing markers text report
  let report := citations.warnUnmatched markers text report
  { text := citations.rewrite 0 text markers
    citations
    diagnostics := report.sorted }

/-- Substitutes placeholders, then resolves the citations of the substituted text. -/
def render (compiler : PatternCompiler) (text : Text) (placeholders : PlaceholderMap)
    (strict : Bool) : Except RenderError Resolution := do
  let substituted ← placeholders.substitute compiler text
  return resolve substituted strict

end Citemark
