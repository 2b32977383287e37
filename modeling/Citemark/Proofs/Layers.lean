import Citemark.Proofs.Atomicity

/-!
# Layers of settings

What a run substitutes, where it writes and whether it is strict is put together from the built-in
settings, a file of the user, the arguments, and the name of the template. A placeholder map is
determined by the values that it gives, and putting a layer on top gives the value of the layer
where it has one; so every token has the value of its last layer, whatever the other tokens are.

Results:
* `lastValue?_entries`, `ext_get?`: a placeholder map is what it gives for each token.
* `get?_extend`: what a map gives after pairs have been inserted in order.
* `merge_assoc`, `default_merge`, `withPlaceholders_eq_merge`: the algebra of layers.
* `settings_precedence`: the one order in which layers win.
-/

namespace Citemark

namespace PlaceholderMap

/-! ## Maps and their values -/

/-- The value of the last pair of a token. -/
def lastValue? (pairs : List (Text × Text)) (token : Text) : Option Text :=
  (pairs.filter (·.1 = token)).getLast?.map Prod.snd

theorem lastValue?_cons (e : Text × Text) (pairs : List (Text × Text)) (token : Text) :
    lastValue? (e :: pairs) token =
      (lastValue? pairs token).or (if token = e.1 then some e.2 else none) := by
  unfold lastValue?
  by_cases h : e.1 = token
  · rw [List.filter_cons_of_pos (by simpa using h), List.getLast?_cons, if_pos h.symm]
    cases (pairs.filter (·.1 = token)).getLast? <;> rfl
  · rw [List.filter_cons_of_neg (by simpa using h), if_neg (Ne.symm h), Option.or_none]

/-- In a map a token has one pair only, so that its last value is its value. -/
theorem lastValue?_entries (m : PlaceholderMap) (token : Text) :
    lastValue? m.entries token = m.get? token := by
  obtain ⟨entries, hsorted⟩ := m
  show lastValue? entries token = entries.lookup token
  induction entries with
  | nil => rfl
  | cons e entries ih =>
    obtain ⟨hfirst, hrest⟩ := List.pairwise_cons.1 hsorted
    rw [lastValue?_cons, ih hrest, List.lookup_cons]
    by_cases h : token = e.1
    · subst h
      have hnone : entries.lookup e.1 = none :=
        List.lookup_eq_none_iff.2 fun other hother =>
          bne_iff_ne.2 (Text.ne_of_precedes (hfirst other hother))
      simp [hnone]
    · have hbeq : (token == e.1) = false := by simpa using h
      simp [h, hbeq]

theorem mem_entries_iff {m : PlaceholderMap} {token value : Text} :
    (token, value) ∈ m.entries ↔ m.get? token = some value := by
  rw [get?, List.lookup_eq_some_iff]
  constructor
  · intro h
    obtain ⟨before, after, hsplit⟩ := List.append_of_mem h
    have hpairwise := List.pairwise_append.1 (hsplit ▸ m.sorted)
    refine ⟨before, after, hsplit, fun e he => ?_⟩
    have hlt := hpairwise.2.2 e he _ List.mem_cons_self
    exact bne_iff_ne.2 (Text.ne_of_precedes hlt).symm
  · rintro ⟨before, after, hsplit, _⟩
    rw [hsplit]
    exact List.mem_append_right _ List.mem_cons_self

theorem nodup_entries (m : PlaceholderMap) : m.entries.Nodup :=
  m.sorted.imp fun hlt heq => Text.ne_of_precedes hlt (congrArg Prod.fst heq)

/-- A map is what it gives: its entries are those values in the order of their tokens. -/
theorem ext_get? {m other : PlaceholderMap} (h : ∀ token, m.get? token = other.get? token) :
    m = other := by
  have hperm : m.entries.Perm other.entries :=
    (List.perm_ext_iff_of_nodup m.nodup_entries other.nodup_entries).2 fun ⟨token, value⟩ => by
      rw [mem_entries_iff, mem_entries_iff, h]
  have hentries : m.entries = other.entries := by
    refine hperm.eq_of_pairwise (fun a b _ _ hab hba => ?_) m.sorted other.sorted
    exact absurd rfl (Text.ne_of_precedes (Text.precedes_trans hab hba))
  obtain ⟨entries, _⟩ := m
  obtain ⟨_, _⟩ := other
  obtain rfl : entries = _ := hentries
  rfl

/-! ## Putting pairs on top -/

/-- Inserted pairs win over what a map had, and later ones over earlier ones. -/
theorem get?_extend (m : PlaceholderMap) (pairs : List (Text × Text)) (token : Text) :
    (m.extend pairs).get? token = (lastValue? pairs token).or (m.get? token) := by
  induction pairs generalizing m with
  | nil => rfl
  | cons e pairs ih =>
    have hextend : m.extend (e :: pairs) = (m.insert e.1 e.2).extend pairs := rfl
    rw [hextend, ih, get?_insert, lastValue?_cons, Option.or_assoc]
    by_cases h : token = e.1 <;> simp [h]

theorem get?_ofList (pairs : List (Text × Text)) (token : Text) :
    (ofList pairs).get? token = lastValue? pairs token := by
  rw [ofList, get?_extend]
  exact Option.or_none

/-- Putting a map on top gives its values where it has one. -/
theorem get?_extend_entries (m top : PlaceholderMap) (token : Text) :
    (m.extend top.entries).get? token = (top.get? token).or (m.get? token) := by
  rw [get?_extend, lastValue?_entries]

/-- Only the order of the pairs of each token counts. -/
theorem extend_congr (m : PlaceholderMap) {pairs other : List (Text × Text)}
    (h : ∀ token, pairs.filter (·.1 = token) = other.filter (·.1 = token)) :
    m.extend pairs = m.extend other :=
  ext_get? fun token => by rw [get?_extend, get?_extend, lastValue?, lastValue?, h]

end PlaceholderMap

namespace Settings

/-! ## The algebra of layers -/

theorem merge_assoc (a b c : Settings) : (a.merge b).merge c = a.merge (b.merge c) := by
  have hplaceholders : (a.placeholders.extend b.placeholders.entries).extend
      c.placeholders.entries =
        a.placeholders.extend (b.placeholders.extend c.placeholders.entries).entries :=
    PlaceholderMap.ext_get? fun token => by
      simp only [PlaceholderMap.get?_extend_entries, Option.or_assoc]
  simp only [merge, Option.or_assoc, Bool.or_assoc, hplaceholders]

theorem default_merge (s : Settings) : merge {} s = s := by
  have hplaceholders : PlaceholderMap.empty.extend s.placeholders.entries = s.placeholders :=
    PlaceholderMap.ext_get? fun token => by
      rw [PlaceholderMap.get?_extend_entries]
      exact Option.or_none
  simp [merge, hplaceholders]

theorem withPlaceholders_eq_merge (s : Settings) (pairs : List (Text × Text)) :
    s.withPlaceholders pairs = s.merge { placeholders := .ofList pairs } := by
  have hplaceholders : s.placeholders.extend pairs =
      s.placeholders.extend (PlaceholderMap.ofList pairs).entries :=
    PlaceholderMap.ext_get? fun token => by
      rw [PlaceholderMap.get?_extend_entries, PlaceholderMap.get?_extend,
        PlaceholderMap.get?_ofList]
  simp [withPlaceholders, merge, hplaceholders]

end Settings

namespace RenderArgs

variable {args : RenderArgs} {compiler : PatternCompiler} {read : ReadText}
  {user : Option Settings} {template : Template}

/-! ## What a run is made of -/

/-- What a run plans that substitutes some placeholders in a template, is strict or not, and writes
    to a path. -/
def planOf (compiler : PatternCompiler) (template : Template) (placeholders : PlaceholderMap)
    (strict : Bool) (path : Text) : Plan :=
  match render compiler template.text placeholders strict with
  | .error cause => { action := .error (.rendering cause) }
  | .ok resolution =>
    { log := resolution.diagnostics.map template.logEntry
      action := action { output := some path } resolution }

theorem plan_eq_planOf (huser : Settings.IsUserLayer read args.config user)
    (htemplate : Template.load read args.input = .ok template) :
    args.plan compiler read = planOf compiler template
      (template.placeholders (args.settings (Settings.layered user)))
      (args.settings (Settings.layered user)).strict
      (args.settings (Settings.layered user)).outputPath := by
  have hload : Settings.load read args.config = .ok (Settings.layered user) :=
    Settings.load_eq_ok_iff.2 ⟨user, huser, rfl⟩
  rw [plan_eq_match, rendered, hload]
  simp only [bind, Except.bind, htemplate, planOf, Template.resolve]
  generalize args.settings (Settings.layered user) = settings
  cases render compiler template.text (template.placeholders settings) settings.strict with
  | error cause => rfl
  | ok resolution => rfl

/-- Each layer wins over those below it. -/
theorem get?_placeholders (args : RenderArgs) (user : Option Settings) (template : Template)
    (token : Text) :
    (template.placeholders (args.settings (Settings.layered user))).get? token =
      (PlaceholderMap.lastValue? args.placeholders token).or
        ((user.bind (·.placeholders.get? token)).or
          ((Settings.builtIn.placeholders.get? token).or
            (if token = Template.generatorToken then some template.name else none))) := by
  have hgenerator : (PlaceholderMap.empty.insert Template.generatorToken template.name).get? token =
      if token = Template.generatorToken then some template.name else none := by
    rw [PlaceholderMap.get?_insert]
    rfl
  have hpairs : (args.settings (Settings.layered user)).placeholders =
      (Settings.layered user).placeholders.extend args.placeholders := rfl
  rw [Template.placeholders, PlaceholderMap.get?_extend_entries, hgenerator, hpairs,
    PlaceholderMap.get?_extend, Option.or_assoc]
  cases user with
  | none => rfl
  | some user =>
    have hmerge : (Settings.layered (some user)).placeholders =
        Settings.builtIn.placeholders.extend user.placeholders.entries := rfl
    rw [hmerge, PlaceholderMap.get?_extend_entries, Option.bind_some, Option.or_assoc]

theorem outputPath_settings (args : RenderArgs) (user : Option Settings) :
    some (args.settings (Settings.layered user)).outputPath =
      args.output.or ((user.bind Settings.output).or Settings.builtIn.output) := by
  cases hargs : args.output with
  | some path => simp [settings, Settings.outputPath, hargs]
  | none =>
    cases user with
    | none => simp [settings, Settings.outputPath, Settings.layered, Settings.withPlaceholders,
        Settings.builtIn, hargs]
    | some user =>
      cases huser : user.output <;> simp [settings, Settings.outputPath, Settings.layered,
        Settings.withPlaceholders, Settings.merge, Settings.builtIn, hargs, huser]

theorem strict_settings_iff (args : RenderArgs) (user : Option Settings) :
    (args.settings (Settings.layered user)).strict = true ↔
      args.strict = true ∨ (∃ s, user = some s ∧ s.strict = true) ∨
        Settings.builtIn.strict = true := by
  cases user with
  | none => simp [settings, Settings.layered, Settings.withPlaceholders, or_comm]
  | some user => simp [settings, Settings.layered, Settings.withPlaceholders, Settings.merge,
      or_comm, or_left_comm]

/-- Of the pairs on the command line, only the order of those of one token counts. -/
theorem execute_congr (args : RenderArgs) {pairs : List (Text × Text)}
    (h : ∀ token, pairs.filter (·.1 = token) = args.placeholders.filter (·.1 = token)) :
    execute { args with placeholders := pairs } = args.execute := by
  have hsettings : settings { args with placeholders := pairs } = args.settings := by
    funext loaded
    simp only [settings, Settings.withPlaceholders, loaded.placeholders.extend_congr h]
  funext compiler fs
  rw [execute, execute, plan_eq_match, plan_eq_match, rendered, rendered, hsettings]

/-- **Layers have one precedence.** A run substitutes for each token the value of its last pair on
    the command line, else the one of the user's file, else the built-in one, else the name of the
    template for the token of the generator, and else nothing. It writes where the command line
    says, else the user's file, else the built-in settings, and it is strict if any layer is. Layers
    may be put together in any grouping, a layer that sets nothing changes nothing on either side,
    and pairs are a layer of their own, in which only the order of the pairs of one token counts. -/
theorem settings_precedence (args : RenderArgs) (user : Option Settings) (template : Template) :
    let settings := args.settings (Settings.layered user)
    (∀ compiler read, Settings.IsUserLayer read args.config user →
      Template.load read args.input = .ok template →
        args.plan compiler read = planOf compiler template (template.placeholders settings)
          settings.strict settings.outputPath) ∧
    (∀ token, (template.placeholders settings).get? token =
      (PlaceholderMap.lastValue? args.placeholders token).or
        ((user.bind (·.placeholders.get? token)).or
          ((Settings.builtIn.placeholders.get? token).or
            (if token = Template.generatorToken then some template.name else none)))) ∧
    some settings.outputPath =
      args.output.or ((user.bind Settings.output).or Settings.builtIn.output) ∧
    (settings.strict = true ↔ args.strict = true ∨ (∃ s, user = some s ∧ s.strict = true) ∨
      Settings.builtIn.strict = true) ∧
    (∀ a b c : Settings, (a.merge b).merge c = a.merge (b.merge c)) ∧
    (∀ s : Settings, s.merge {} = s ∧ Settings.merge {} s = s) ∧
    (∀ (s : Settings) pairs, s.withPlaceholders pairs = s.merge { placeholders := .ofList pairs }) ∧
    (∀ pairs, (∀ token, pairs.filter (·.1 = token) = args.placeholders.filter (·.1 = token)) →
      execute { args with placeholders := pairs } = args.execute) :=
  ⟨fun _ _ huser htemplate => plan_eq_planOf huser htemplate, get?_placeholders args user template,
    outputPath_settings args user, strict_settings_iff args user, Settings.merge_assoc,
    fun s => ⟨s.merge_default, s.default_merge⟩, Settings.withPlaceholders_eq_merge,
    fun _ h => args.execute_congr h⟩

/-- The last pair of a token wins over the user's file, and a token that only the file has keeps its
    value. -/
example :
    let fs := (FileSystem.withFile {} ['t'] (Text.utf8 "[a] [b] [[GEN]]".toList)).withFile ['c']
      (Text.utf8 "placeholders:\n  '[a]': 1\n  '[b]': 1\n".toList)
    (execute { input := some ['t'], output := some ['-'], config := some ['c'],
               placeholders := [("[a]".toList, ['2']), ("[a]".toList, ['3'])] } .standard fs).2.stdout =
      "3 1 t".toList := by
  decide +kernel

end RenderArgs
end Citemark
