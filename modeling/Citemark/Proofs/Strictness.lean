import Citemark.Proofs.Diagnosis
import Citemark.Proofs.Window
import Mathlib.Data.List.Pairwise
import Mathlib.Tactic.ByContra

/-!
# Strict mode

Strict mode changes how problems are labelled and whether a text passes, and nothing else: text,
numbering and diagnostics are computed without it. What it lets pass are the texts in which nothing
is at fault, and those can be told without running a pass.

Results:
* `diagnostics_resolve_relabel`: two runs note the same, up to the label.
* `forall_not_isRepeat_iff`: no definition is repeated exactly when the names are distinct.
* `diagnostics_resolve_eq_nil_iff`: nothing is noted exactly for clean texts.
* `strict_relabels_and_gates`: what strict mode changes, and what it lets pass.
-/

namespace Citemark

/-! ## Labels -/

/-- The same problem at the same place, labelled otherwise. -/
def Diagnostic.relabel (severity : Severity) (d : Diagnostic) : Diagnostic := { d with severity }

theorem diagnostics_resolve_relabel (t : Text) (strict other : Bool) :
    (resolve t strict).diagnostics =
      (resolve t other).diagnostics.map (.relabel (if strict then .error else .warning)) := by
  simp only [diagnostics_resolve_eq, List.map_filterMap, Option.map_map]
  rfl

/-! ## Clean texts -/

/-- A text in which nothing is at fault: every reference has a definition, no two definitions share
    a name, and every definition that a reference uses has a link in its window. -/
structure IsClean (t : Text) : Prop where
  defined : ∀ r ∈ scan t, r.isReference = true → IsDefined t r.name
  distinct : (definitions t).Pairwise fun a b => a.name ≠ b.name
  linked : ∀ i d, (definitions t)[i]? = some d → IsCited t d.name →
    Link.IsLinked (windowOf t d i)

theorem forall_not_isRepeat_iff {t : Text} :
    (∀ d ∈ definitions t, ¬ IsRepeat t d) ↔
      (definitions t).Pairwise fun a b => a.name ≠ b.name := by
  constructor
  · intro h
    refine (pairwise_definitions t).imp_of_mem fun {a b} ha hb hstart hname => ?_
    exact h b hb ⟨a, ha, hstart, hname⟩
  · rintro h d hd ⟨e, he, hstart, hname⟩
    have hne : e ≠ d := by
      rintro rfl
      exact Nat.lt_irrefl _ hstart
    have : Std.Symm fun a b : Marker => a.name ≠ b.name := ⟨fun _ _ => Ne.symm⟩
    exact h.forall he hd hne hname

/-- Nothing is at fault exactly in a clean text. -/
theorem forall_not_isAtFault_iff {t : Text} :
    (∀ m ∈ scan t, ∀ code, ¬ IsAtFault t m code) ↔ IsClean t := by
  have hscan : ∀ {d}, d ∈ definitions t → d ∈ scan t := fun hd => (mem_definitions_iff.1 hd).1
  constructor
  · intro h
    have hrepeat : ∀ d ∈ definitions t, ¬ IsRepeat t d := fun d hd hrepeat =>
      h d (hscan hd) .duplicateDefinition ⟨hd, hrepeat⟩
    refine ⟨fun r hr hreference => ?_, forall_not_isRepeat_iff.1 hrepeat, fun i d hi hcited => ?_⟩
    · by_contra hundefined
      exact h r hr .unmatchedReference ⟨hr, hreference, hundefined⟩
    · by_contra hunlinked
      have hd := List.mem_of_getElem? hi
      exact h d (hscan hd) .missingUrl
        ⟨⟨i, hi, (address?_eq_none_iff hi).2 hunlinked⟩, hrepeat d hd, hcited⟩
  · rintro ⟨hdefined, hdistinct, hlinked⟩ m hm code hfault
    cases code with
    | duplicateDefinition => exact forall_not_isRepeat_iff.2 hdistinct m hfault.1 hfault.2
    | missingUrl =>
      obtain ⟨⟨i, hi, hnone⟩, _, hcited⟩ := hfault
      exact (address?_eq_none_iff hi).1 hnone (hlinked i m hi hcited)
    | unmatchedReference => exact hfault.2.2 (hdefined m hm hfault.2.1)

theorem diagnostics_resolve_eq_nil_iff {t : Text} {strict : Bool} :
    (resolve t strict).diagnostics = [] ↔ IsClean t := by
  rw [diagnostics_resolve_eq, List.filterMap_eq_nil_iff, ← forall_not_isAtFault_iff]
  refine forall₂_congr fun m hm => ?_
  simp only [← fault?_eq_some_iff hm, Option.map_eq_none_iff]
  exact Option.eq_none_iff_forall_ne_some

/-! ## Two runs -/

/-- **Strict mode relabels and gates.** With and without it a text gives the same text, the same
    numbering and the same diagnostics, as errors in the one run and as warnings in the other.
    Without it every text passes; with it exactly the clean ones pass, and the others are refused
    with the number of their diagnostics. -/
theorem strict_relabels_and_gates (t : Text) :
    (resolve t true).text = (resolve t false).text ∧
    (resolve t true).citations = (resolve t false).citations ∧
    (resolve t true).diagnostics = (resolve t false).diagnostics.map (.relabel .error) ∧
    (∀ d ∈ (resolve t true).diagnostics, d.severity = .error) ∧
    (∀ d ∈ (resolve t false).diagnostics, d.severity = .warning) ∧
    (resolve t false).check = .ok () ∧
    ((resolve t true).check = .ok () ↔ IsClean t) ∧
    (∀ cause, (resolve t true).check = .error cause ↔
      ¬ IsClean t ∧ cause = .strict (resolve t true).diagnostics.length) := by
  have hcount : (resolve t true).errorCount = (resolve t true).diagnostics.length :=
    errorCount_resolve t true
  have hrelaxed : (resolve t false).hasErrors = false := by
    rw [Resolution.hasErrors, errorCount_resolve t false]
    rfl
  have hclean : (resolve t true).hasErrors = false ↔ IsClean t := by
    rw [Resolution.hasErrors, decide_eq_false_iff_not, hcount, gt_iff_lt, List.length_pos_iff,
      Decidable.not_not, diagnostics_resolve_eq_nil_iff]
  refine ⟨rfl, rfl, diagnostics_resolve_relabel t true false,
    fun d hd => severity_of_mem_diagnostics hd, fun d hd => severity_of_mem_diagnostics hd,
    (Resolution.check_eq_ok_iff _).2 hrelaxed, ?_, fun cause => ?_⟩
  · rw [Resolution.check_eq_ok_iff, hclean]
  · rw [Resolution.check_eq_error_iff, ← hclean, Bool.not_eq_false, hcount]

/-- A repeated definition needs no link, since no reference means it. -/
example : (resolve "[[ref:a]] [[item:a]] (http://x) [[item:a]]".toList true).diagnostics.map
    Diagnostic.code = [.duplicateDefinition] := by
  decide +kernel

end Citemark
