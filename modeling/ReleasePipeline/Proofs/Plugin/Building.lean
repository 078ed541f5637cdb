import ReleasePipeline.Proofs.Config.Keys
import ReleasePipeline.Proofs.Plugin.Steps

/-! Which failures the making of steps ends in, and which options lead to one for a type. -/
namespace ReleasePipeline

/-- The computation fails for invalid inputs, and for the type of one exactly where `odd` holds. -/
structure FailsFor {α : Type} (odd : Prop) (x : Except Failure α) : Prop where
  kind : ∀ f, x = .error f → f.kind = .invalid ∨ f.kind = .mistyped ∧ odd
  mistyped : odd → ∃ f, x = .error f ∧ f.kind = .mistyped

section FailsFor

variable {α β ε : Type} {odd : Prop} {x : Except Failure α}

theorem failsFor_of_invalid (h : ∀ f, x = .error f → f.kind = .invalid) : FailsFor False x :=
  ⟨fun f hf => .inl (h f hf), False.elim⟩

theorem FailsFor.kind_eq {f : Failure} (hx : FailsFor False x) (h : x = .error f) :
    f.kind = .invalid :=
  (hx.kind f h).resolve_right fun hodd => hodd.2

theorem failsFor_ok (a : α) : FailsFor False (.ok a) :=
  failsFor_of_invalid nofun

theorem failsFor_error {f : Failure} (h : f.kind = .invalid) :
    FailsFor False (.error f : Except Failure α) := by
  refine failsFor_of_invalid fun g hg => ?_
  cases hg
  exact h

theorem failsFor_mistyped {f : Failure} (hodd : odd) (h : f.kind = .mistyped) :
    FailsFor odd (.error f : Except Failure α) := by
  refine ⟨fun g hg => ?_, fun _ => ⟨f, rfl, h⟩⟩
  cases hg
  exact .inr ⟨h, hodd⟩

theorem FailsFor.of_not (hx : FailsFor False x) (hodd : ¬ odd) : FailsFor odd x :=
  ⟨fun _ hf => .inl (hx.kind_eq hf), fun h => absurd h hodd⟩

/-- What comes after a check finds no odd types. -/
theorem failsFor_bind {g : α → Except Failure β} (hx : FailsFor odd x)
    (hg : ∀ a, FailsFor False (g a)) : FailsFor odd (x >>= g) where
  kind f h := by
    rcases bind_eq_error.mp h with hfirst | ⟨a, -, hrest⟩
    · exact hx.kind f hfirst
    · exact .inl ((hg a).kind_eq hrest)
  mistyped hodd := by
    obtain ⟨f, hf, hkind⟩ := hx.mistyped hodd
    exact ⟨f, bind_eq_error.mpr (.inl hf), hkind⟩

theorem failsFor_map {g : α → β} (hx : FailsFor odd x) : FailsFor odd (x.map g) where
  kind f h := hx.kind f (map_eq_error.mp h)
  mistyped hodd := by
    obtain ⟨f, hf, hkind⟩ := hx.mistyped hodd
    exact ⟨f, map_eq_error.mpr hf, hkind⟩

theorem failsFor_mapError {y : Except ε α} {g : ε → Failure} (hg : ∀ e, (g e).kind = .invalid) :
    FailsFor False (y.mapError g) := by
  refine failsFor_of_invalid fun f h => ?_
  obtain ⟨e, -, rfl⟩ := mapError_eq_error.mp h
  exact hg e

theorem failsFor_mapM {g : α → Except Failure β} (hg : ∀ a, FailsFor False (g a)) (xs : List α) :
    FailsFor False (xs.mapM g) := by
  refine failsFor_of_invalid fun f h => ?_
  obtain ⟨a, -, ha⟩ := exists_of_mapM_eq_error h
  exact (hg a).kind_eq ha

theorem failsFor_option_mapM {g : α → Except Failure β} (hg : ∀ a, FailsFor False (g a))
    (a? : Option α) : FailsFor False (a?.mapM g) := by
  cases a? with
  | none => exact failsFor_ok none
  | some a => exact failsFor_map (hg a)

end FailsFor

section Options

variable {plugin name : String} {options : Table} {v : Value} {index : ℕ}

theorem failsFor_checkPreset : FailsFor (∃ v, options.get? "preset" = some v ∧ v.isSought = false)
    (Options.checkPreset plugin options) := by
  rw [Options.checkPreset]
  cases hv : options.get? "preset" with
  | none => exact (failsFor_ok ()).of_not fun ⟨_, h, _⟩ => nomatch h
  | some v =>
    simp only [Option.some.injEq, exists_eq_left']
    cases v.isSought with
    | false => exact failsFor_mistyped rfl rfl
    | true =>
      refine FailsFor.of_not ?_ (by simp)
      simp only [Bool.not_true, Bool.false_eq_true, if_false]
      split
      · exact failsFor_ok ()
      · exact failsFor_error rfl

theorem failsFor_optionalText : FailsFor False (Options.optionalText options name) := by
  rw [Options.optionalText]
  split
  · exact failsFor_ok none
  · split
    · exact failsFor_ok _
    · exact failsFor_error rfl

theorem failsFor_template : FailsFor False (Options.template name v) := by
  rw [Options.template]
  split
  · exact failsFor_error rfl
  · split
    · exact failsFor_ok _
    · exact failsFor_error rfl

theorem failsFor_checkNames : FailsFor options.HasOddKey (Exec.checkNames options) := by
  have hunknown (known : List String) (k : Value) (hnone : k.asString? = none) :
      (!k.asString?.any known.contains) = true := by
    rw [hnone]
    rfl
  have hcases : (options.HasOddKey ∧ Exec.checkNames options = .error (.option .oddNames)) ∨
      (¬ options.HasOddKey ∧ (Exec.checkNames options = .ok () ∨ ∃ names,
        Exec.checkNames options = .error (.option (.unknown (ReleaseConfig.sortNames names))))) :=
    Table.check_cases (hunknown _)
  rcases hcases with ⟨hodd, hcheck⟩ | ⟨hodd, hcheck | ⟨names, hcheck⟩⟩
  · rw [hcheck]
    exact failsFor_mistyped hodd rfl
  · rw [hcheck]
    exact (failsFor_ok ()).of_not hodd
  · rw [hcheck]
    exact (failsFor_error rfl).of_not hodd

theorem failsFor_commandsOf : FailsFor False (Exec.commandsOf options) := by
  rw [Exec.commandsOf]
  refine failsFor_bind (failsFor_mapM (fun _ => ?_) _) fun found => ?_
  · exact failsFor_option_mapM (fun _ => failsFor_bind failsFor_template fun _ => failsFor_ok _) _
  · split
    · exact failsFor_error rfl
    · exact failsFor_ok _

theorem failsFor_label {t : Table} : FailsFor False (GitHubRelease.label index t) := by
  rw [GitHubRelease.label]
  split
  · exact failsFor_ok none
  · exact failsFor_map failsFor_template

theorem failsFor_specOf : FailsFor False (GitHubRelease.specOf v index) := by
  rw [GitHubRelease.specOf]
  split
  · simp only [pure_bind]
    split
    · exact failsFor_error rfl
    · exact failsFor_ok _
  · split
    · exact failsFor_error rfl
    · simp only [pure_bind]
      refine failsFor_bind failsFor_label fun _ => ?_
      split
      · exact failsFor_error rfl
      · exact failsFor_ok _
  · exact failsFor_error rfl

end Options

/-- An option is of a type that the plugin does not expect: a preset that cannot be looked for
among texts, or an option of commands whose name is no string. -/
inductive OddOptions (p : Plugin) (options : Table) : Prop
  | preset {v : Value} (hp : p = CommitAnalyzer.plugin ∨ p = NotesGenerator.plugin)
    (hv : options.get? "preset" = some v) (h : v.isSought = false)
  | names (hp : p = Exec.plugin) (h : options.HasOddKey)

section Build

variable {options : Table}

theorem failsFor_analysis : FailsFor (∃ v, options.get? "preset" = some v ∧ v.isSought = false)
    (CommitAnalyzer.plugin.build options) := by
  refine failsFor_bind failsFor_checkPreset fun _ => ?_
  exact failsFor_bind (failsFor_mapError fun _ => rfl) fun _ => failsFor_ok _

theorem failsFor_notes : FailsFor (∃ v, options.get? "preset" = some v ∧ v.isSought = false)
    (NotesGenerator.plugin.build options) := by
  refine failsFor_bind failsFor_checkPreset fun _ => ?_
  split
  · exact failsFor_error rfl
  · refine failsFor_bind (failsFor_mapError fun _ => rfl) fun _ => ?_
    exact failsFor_bind failsFor_optionalText fun _ => failsFor_ok _

theorem failsFor_changelog : FailsFor False (Changelog.plugin.build options) := by
  simp only [Changelog.plugin]
  split
  · exact failsFor_error rfl
  · split
    · exact failsFor_error rfl
    · exact failsFor_bind failsFor_optionalText fun _ => failsFor_ok _

theorem failsFor_exec : FailsFor options.HasOddKey (Exec.plugin.build options) := by
  refine failsFor_bind failsFor_checkNames fun _ => failsFor_bind failsFor_commandsOf fun _ => ?_
  exact failsFor_bind failsFor_optionalText fun _ => failsFor_ok _

theorem failsFor_github : FailsFor False (GitHubRelease.plugin.build options) := by
  simp only [GitHubRelease.plugin]
  split
  · exact failsFor_error rfl
  · exact failsFor_bind (failsFor_mapM (fun _ => failsFor_specOf) _) fun _ => failsFor_ok _

theorem failsFor_commit : FailsFor False (GitCommit.plugin.build options) := by
  simp only [GitCommit.plugin]
  split
  · exact failsFor_error rfl
  · exact failsFor_error rfl
  · exact failsFor_bind failsFor_template fun _ => failsFor_ok _

theorem failsFor_manifests : FailsFor False (CargoVersion.plugin.build options) := by
  simp only [CargoVersion.plugin]
  split
  · exact failsFor_ok _
  · exact failsFor_error rfl

/-- The known plugins refuse the options that are invalid, and those of odd types for their types. -/
theorem failsFor_build {p : Plugin} (hp : p ∈ knownPlugins) :
    FailsFor (OddOptions p options) (p.build options) where
  kind f h := by
    rcases mem_knownPlugins.mp hp with rfl | rfl | rfl | rfl | rfl | rfl | rfl
    · exact (failsFor_analysis.kind f h).imp_right fun ⟨hkind, _, hv, hodd⟩ =>
        ⟨hkind, .preset (.inl rfl) hv hodd⟩
    · exact (failsFor_notes.kind f h).imp_right fun ⟨hkind, _, hv, hodd⟩ =>
        ⟨hkind, .preset (.inr rfl) hv hodd⟩
    · exact .inl (failsFor_changelog.kind_eq h)
    · exact (failsFor_exec.kind f h).imp_right fun ⟨hkind, hodd⟩ => ⟨hkind, .names rfl hodd⟩
    · exact .inl (failsFor_github.kind_eq h)
    · exact .inl (failsFor_commit.kind_eq h)
    · exact .inl (failsFor_manifests.kind_eq h)
  mistyped hodd := by
    cases hodd with
    | preset hp hv hodd =>
      rcases hp with rfl | rfl
      · exact failsFor_analysis.mistyped ⟨_, hv, hodd⟩
      · exact failsFor_notes.mistyped ⟨_, hv, hodd⟩
    | names hp hodd =>
      subst hp
      exact failsFor_exec.mistyped hodd

end Build

section Steps

variable {registry : Registry} {s : Settings} {w : World} {i : PluginInvocation} {c : ReleaseConfig}
  {f : Failure}

/-- The options of an invocation of a plugin that can be used are of odd types. -/
def OddInvocation (registry : Registry) (s : Settings) (w : World) (i : PluginInvocation) : Prop :=
  ∃ p, registry.plugin? i.name = some p ∧ p.availability s w = .available ∧ OddOptions p i.options

/-- The first invocation that makes no step has options of odd types. -/
def OddPlugins (registry : Registry) (s : Settings) (w : World) (plugins : List PluginInvocation) :
    Prop :=
  ∃ before i after, plugins = before ++ i :: after ∧
    (∀ q ∈ before, ∃ st, registry.step s w q = .ok st) ∧ OddInvocation registry s w i

theorem kind_of_step (hover : registry.Over knownPlugins) (h : registry.step s w i = .error f) :
    f.kind = .invalid ∨ (∃ name reason, f = .invocation (.unavailable name reason)) ∨
      f.kind = .mistyped ∧ OddInvocation registry s w i := by
  rw [Registry.step] at h
  split at h
  · cases h
    exact .inl rfl
  · rename_i p hp
    split at h
    · cases h
      exact .inr (.inl ⟨_, _, rfl⟩)
    · rename_i havailable
      rcases bind_eq_error.mp h with hbuild | ⟨st, -, h⟩
      · rcases (failsFor_build (hover.mem hp)).kind f hbuild with hkind | ⟨hkind, hodd⟩
        · exact .inl hkind
        · exact .inr (.inr ⟨hkind, p, hp, havailable, hodd⟩)
      · split at h
        · cases h
        · cases h
          exact .inl rfl

theorem mistyped_of_oddInvocation (hover : registry.Over knownPlugins)
    (h : OddInvocation registry s w i) :
    ∃ f, registry.step s w i = .error f ∧ f.kind = .mistyped := by
  obtain ⟨p, hp, havailable, hodd⟩ := h
  obtain ⟨f, hf, hkind⟩ := (failsFor_build (hover.mem hp)).mistyped hodd
  refine ⟨f, ?_, hkind⟩
  rw [Registry.step, hp]
  simp only [havailable]
  exact bind_eq_error.mpr (.inl hf)

namespace Lifecycle

theorem kind_placed {name : String} {index : ℕ} (h : f.kind = .invalid) :
    (placed name index f).kind = .invalid := by
  rw [placed, if_pos (by simp [Failure.isInvalid, h])]
  rfl

theorem placed_eq_self {name : String} {index : ℕ} (h : f.isInvalid = false) :
    placed name index f = f :=
  if_neg (by simp [h])

/-- The steps are not made if one invocation makes none, and the first such decides on the failure. -/
theorem buildSteps_eq_error : buildSteps registry s w c = .error f ↔
    ∃ before i after, c.plugins = before ++ i :: after ∧
      (∀ q ∈ before, ∃ st, registry.step s w q = .ok st) ∧
      ∃ e, registry.step s w i = .error e ∧ placed i.name (1 + before.length) e = f := by
  let named (e : PluginInvocation × ℕ) : Except Failure NamedStep := do
    return ⟨e.1.name, ← (registry.step s w e.1).mapError (placed e.1.name e.2)⟩
  have hok (e : PluginInvocation × ℕ) :
      (∃ n, named e = .ok n) ↔ ∃ st, registry.step s w e.1 = .ok st := by
    simp only [named, bind_eq_ok, mapError_eq_ok]
    constructor
    · rintro ⟨_, st, hst, -⟩
      exact ⟨st, hst⟩
    · rintro ⟨st, hst⟩
      exact ⟨_, st, hst, rfl⟩
  have herror (e : PluginInvocation × ℕ) : named e = .error f ↔
      ∃ g, registry.step s w e.1 = .error g ∧ placed e.1.name e.2 g = f := by
    simp only [named, bind_eq_error, mapError_eq_error]
    exact or_iff_left fun ⟨_, _, h⟩ => nomatch h
  have hfirsts (before : List PluginInvocation) :
      (∀ e ∈ before.zipIdx 1, ∃ st, registry.step s w e.1 = .ok st) ↔
        ∀ q ∈ before, ∃ st, registry.step s w q = .ok st := by
    conv_rhs => rw [← List.zipIdx_map_fst 1 before, List.forall_mem_map]
  have hbuilt : buildSteps registry s w c = .error f ↔ _ := mapM_zipIdx_eq_error (f := named)
  simpa only [hok, herror, hfirsts] using hbuilt

theorem kind_of_buildSteps (hover : registry.Over knownPlugins)
    (h : buildSteps registry s w c = .error f) :
    f.kind = .invalid ∨ (∃ name reason, f = .invocation (.unavailable name reason)) ∨
      f.kind = .mistyped ∧ OddPlugins registry s w c.plugins := by
  obtain ⟨before, i, after, hplugins, hbefore, e, he, rfl⟩ := buildSteps_eq_error.mp h
  rcases kind_of_step hover he with hkind | ⟨name, reason, rfl⟩ | ⟨hkind, hodd⟩
  · exact .inl (kind_placed hkind)
  · exact .inr (.inl ⟨name, reason, rfl⟩)
  · rw [placed_eq_self (by simp [Failure.isInvalid, hkind])]
    exact .inr (.inr ⟨hkind, before, i, after, hplugins, hbefore, hodd⟩)

theorem mistyped_of_oddPlugins (hover : registry.Over knownPlugins)
    (h : OddPlugins registry s w c.plugins) :
    ∃ f, buildSteps registry s w c = .error f ∧ f.kind = .mistyped := by
  obtain ⟨before, i, after, hplugins, hbefore, hodd⟩ := h
  obtain ⟨f, hf, hkind⟩ := mistyped_of_oddInvocation hover hodd
  refine ⟨f, buildSteps_eq_error.mpr ⟨before, i, after, hplugins, hbefore, f, hf, ?_⟩, hkind⟩
  exact placed_eq_self (by simp [Failure.isInvalid, hkind])

end Lifecycle

end Steps

end ReleasePipeline
