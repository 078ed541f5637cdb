import ReleasePipeline.Proofs.CommandLine.Branch
import ReleasePipeline.Proofs.Config.File
import ReleasePipeline.Proofs.Plugin.Building

/-! How the program answers a configuration of which it makes no steps. Values of types that nobody
looked at leave it with a failure that it does not handle. -/
namespace ReleasePipeline

open ReleasePipeline.Action Procedure World

variable {registry : Registry} {s : Settings} {w : World} {v : Value} {f : Failure}

namespace World

/-- In both worlds the same programs are installed. -/
def SameTools (w w' : World) : Prop := w'.tools = w.tools

instance : IsPreorder World SameTools where
  refl _ := rfl
  trans _ _ _ h h' := Eq.trans h' h

theorem admits_sameTools : Admits SameTools False fun _ => False where
  message _ _ _ := rfl
  files h := h.elim
  run _ _ h := h.elim

end World

namespace ReleaseConfig

/-- The steps of the configuration that a value is. -/
def stepsOf (registry : Registry) (s : Settings) (w : World) (v : Value) :
    Except Failure (List NamedStep) := do
  let c ← (ofValue v).mapError .config
  Lifecycle.buildSteps registry s w c

/-- The reading of the configuration, or the making of its steps, first stops at a type that it does
not expect: at keys that are no strings, or at the options of an invocation. -/
inductive OddValue (registry : Registry) (s : Settings) (w : World) (v : Value) : Prop
  | keys (h : HasOddKeys v)
  | plugins {c : ReleaseConfig} (hc : ofValue v = .ok c) (h : OddPlugins registry s w c.plugins)

/-- The steps of a value are made unless an input is invalid, a plugin is unavailable, or a type is
an odd one. -/
theorem kind_of_stepsOf (hover : registry.Over knownPlugins)
    (h : stepsOf registry s w v = .error f) :
    f.kind = .invalid ∨ (∃ name reason, f = .invocation (.unavailable name reason)) ∨
      f.kind = .mistyped ∧ OddValue registry s w v := by
  rcases bind_eq_error.mp h with hconfig | ⟨c, hc, hbuild⟩
  · obtain ⟨e, he, rfl⟩ := mapError_eq_error.mp hconfig
    cases e with
    | oddKeys => exact .inr (.inr ⟨rfl, .keys (ofValue_eq_oddKeys_iff.mp he)⟩)
    | _ => exact .inl rfl
  · have hvalue := mapError_eq_ok.mp hc
    exact (Lifecycle.kind_of_buildSteps hover hbuild).imp_right fun h =>
      h.imp_right fun ⟨hkind, hodd⟩ => ⟨hkind, .plugins hvalue hodd⟩

theorem mistyped_of_oddValue (hover : registry.Over knownPlugins) (h : OddValue registry s w v) :
    ∃ f, stepsOf registry s w v = .error f ∧ f.kind = .mistyped := by
  cases h with
  | keys h =>
    refine ⟨.config .oddKeys, bind_eq_error.mpr (.inl ?_), rfl⟩
    exact mapError_eq_error.mpr ⟨_, ofValue_eq_oddKeys_iff.mpr h, rfl⟩
  | plugins hc h =>
    obtain ⟨f, hf, hkind⟩ := Lifecycle.mistyped_of_oddPlugins hover h
    exact ⟨f, bind_eq_error.mpr (.inr ⟨_, mapError_eq_ok.mpr hc, hf⟩), hkind⟩

end ReleaseConfig

namespace CommandLine

theorem Ending.exitCode?_of_kind {e : Failure} (h : e.kind = f.kind) :
    (failed e).exitCode? = (failed f).exitCode? := by
  rw [exitCode?, exitCode?, Failure.isInvalid, Failure.isInvalid, h]

/-- The words have the program run a value: a file holds it, the plugins are found, and what it
configures releases from the branch. -/
structure RunOf (contents : Place → PluginFile) (words : List String) (w : World)
    (registry : Registry) (v : Value) where
  source : Source
  request : RunRequest
  path : Path
  bytes : ByteArray
  text : String
  branch : String
  found : World
  words_eq : Request.ofWords words = .ok (.run source request)
  file : source.file = some path
  isFile : w.files.isFile w.here path = .ok true
  read : w.files.read w.here path = .ok bytes
  decoded : textOfBytes bytes = .ok text
  value : ReleaseConfig.readText path text = .ok v
  branch_eq : branchOfRef (source.reference w.environment) = .ok branch
  plugins : findPlugins contents request.pluginDirectories (w.startedOn branch) = .ok registry found
  releases : ∀ c, ReleaseConfig.ofValue v = .ok c → ∃ m, c.matcher? branch = some m

section RunOf

variable {contents : Place → PluginFile} {words : List String}

theorem tools_of_findPlugins {given : List Path} {w' : World}
    (h : findPlugins contents given w = .ok registry w') : w'.tools = w.tools :=
  rel_of_ok (keeps_findPlugins admits_sameTools) h

theorem RunOf.load_eq (run : RunOf contents words w registry v) : run.source.load w =
    (ReleaseConfig.ofValue v).mapError fun e => .configFile (.config run.path e) := by
  rw [Source.load, run.file]
  simp only [ReleaseConfig.load, run.isFile, run.read, run.decoded, run.value, Except.mapError,
    Bind.bind, Except.bind, if_true]
  cases ReleaseConfig.ofValue v <;> rfl

/-- Where the value is no configuration, the release ends with the reason. -/
theorem RunOf.release_of_config_error (run : RunOf contents words w registry v) {e : ConfigError}
    (h : ReleaseConfig.ofValue v = .error e) :
    ∃ w', release contents run.source run.request w =
      .error (.configFile (.config run.path e)) w' := by
  have hget : (get : Action World) w = .ok w w := rfl
  have hload : run.source.load w = .error (.configFile (.config run.path e)) := by
    rw [run.load_eq, h]
    rfl
  rw [release, bind_apply, hget]
  simp only [run.branch_eq, hload, Except.mapError, Action.ofExcept, pure_bind]
  exact ⟨w, rfl⟩

/-- Where the configuration has no steps, the release ends like the making of them. -/
theorem RunOf.release_of_buildSteps_error (hover : registry.Over knownPlugins)
    (run : RunOf contents words w registry v) {c : ReleaseConfig}
    (hc : ReleaseConfig.ofValue v = .ok c)
    (h : Lifecycle.buildSteps registry (run.request.settings w) w c = .error f) :
    ∃ w', release contents run.source run.request w = .error f w' := by
  have hload : run.source.load w = .ok c := by
    rw [run.load_eq, hc]
    rfl
  obtain ⟨m, hm⟩ := run.releases c hc
  obtain ⟨text, hrelease⟩ := release_eq run.branch_eq hload contents run.request
  let w₁ := run.found.recorded (.message .info text)
  have hbranch : w₁.release.branch = run.branch := branch_of_findPlugins run.plugins
  have hfound := tools_of_findPlugins run.plugins
  have htools : (w₁.onBranch m).tools = w.tools := hfound
  have hrun : c.run registry (run.request.settings w) w₁ = .error f (w₁.onBranch m) := by
    refine ReleaseConfig.run_of_buildSteps_error (hbranch ▸ hm) ?_
    rw [buildSteps_of_tools hover htools]
    exact h
  refine ⟨w₁.onBranch m, ?_⟩
  simp only [hrelease, bind_apply_eq_error]
  exact .inr ⟨registry, run.found, run.plugins, .inr ⟨(), w₁, rfl, .inl hrun⟩⟩

/-- Where no steps are made of the value, the program ends like the making of them. -/
theorem RunOf.ending (hover : registry.Over knownPlugins) (run : RunOf contents words w registry v)
    (h : ReleaseConfig.stepsOf registry (run.request.settings w) w v = .error f) :
    ∃ e, (program contents words w).ending = .failed e ∧ e.kind = f.kind := by
  have hfailed {e : Failure} {w' : World}
      (h : release contents run.source run.request w = .error e w') :
      (program contents words w).ending = .failed e := by
    simp only [program, run.words_eq, answer, EStateM.run, h]
  rcases bind_eq_error.mp h with hconfig | ⟨c, hc, hbuild⟩
  · obtain ⟨e, he, rfl⟩ := mapError_eq_error.mp hconfig
    obtain ⟨w', hrelease⟩ := run.release_of_config_error he
    refine ⟨_, hfailed hrelease, ?_⟩
    cases e <;> rfl
  · obtain ⟨w', hrelease⟩ := run.release_of_buildSteps_error hover (mapError_eq_ok.mp hc) hbuild
    exact ⟨f, hfailed hrelease, rfl⟩

/-- Of a value the steps are made, or it is refused: an invalid one with code 2, and one whose plugin
is unavailable with code 1. For a value of odd types the program does not handle the failure. -/
theorem configuration_refusals {plugins : List Plugin} (hplugins : plugins ⊆ knownPlugins)
    (hregistry : Registry.ofPlugins plugins = .ok registry) (w : World) (v : Value) :
    (∀ s f, ReleaseConfig.stepsOf registry s w v = .error f →
      (f.kind = .invalid ∧ (Ending.failed f).exitCode? = some 2) ∨
      ((∃ name reason, f = .invocation (.unavailable name reason)) ∧
        (Ending.failed f).exitCode? = some 1) ∨
      (f.kind = .mistyped ∧ (Ending.failed f).exitCode? = none)) ∧
    (∀ s, (∃ f, ReleaseConfig.stepsOf registry s w v = .error f ∧ f.kind = .mistyped) ↔
      ReleaseConfig.OddValue registry s w v) ∧
    (∀ contents words (run : RunOf contents words w registry v) f,
      ReleaseConfig.stepsOf registry (run.request.settings w) w v = .error f →
      (program contents words w).ending.exitCode? = (Ending.failed f).exitCode?) := by
  have hover := over_known hplugins hregistry
  refine ⟨fun s f h => ?_, fun s => ⟨?_, ReleaseConfig.mistyped_of_oddValue hover⟩, ?_⟩
  · rcases ReleaseConfig.kind_of_stepsOf hover h with hkind | ⟨name, reason, rfl⟩ | ⟨hkind, -⟩
    · exact .inl ⟨hkind, by simp [Ending.exitCode?, Failure.isInvalid, hkind]⟩
    · exact .inr (.inl ⟨⟨name, reason, rfl⟩, rfl⟩)
    · exact .inr (.inr ⟨hkind, by simp [Ending.exitCode?, Failure.isInvalid, hkind]⟩)
  · rintro ⟨f, h, hkind⟩
    rcases ReleaseConfig.kind_of_stepsOf hover h with hinvalid | ⟨name, reason, rfl⟩ | ⟨-, hodd⟩
    · exact absurd (hinvalid.symm.trans hkind) (by decide)
    · cases hkind
    · exact hodd
  · intro contents words run f h
    obtain ⟨e, hending, hkind⟩ := run.ending hover h
    rw [hending, Ending.exitCode?_of_kind hkind]

end RunOf

section Preset

/-- A configuration with a list where a preset is named. -/
def presetText : String :=
  "\x7b\"branches\": [\"main\"], \"plugins\": [[\"commit-analyzer\", " ++
    "\x7b\"preset\": [\"conventionalcommits\"]\x7d]]\x7d"

/-- Its value. -/
def presetValue : Value := .table (Table.ofNames
  [("branches", .list [.string "main"]),
   ("plugins", .list [.list [.string "commit-analyzer",
     .table (Table.ofNames [("preset", .list [.string "conventionalcommits"])])]])])

/-- A repository with a new feature and that configuration. -/
def presetWorld : World where
  __ := featureWorld []
  files := ⟨[(["repo"], .directory), (["repo", "release.json"], .file presetText.toUTF8)]⟩
  here := ["repo"]
  environment := ⟨[("HOME", "/home")]⟩

/-- Where there are no directories of plugins, those found are the built-in ones. -/
theorem findPlugins_of_no_directories {contents : Place → PluginFile} {given : List Path}
    (h : PluginSearch.directories ⟨w.files, w.here, w.environment, contents⟩ given = .ok []) :
    ∃ w', findPlugins contents given w = .ok builtInRegistry w' := by
  have hget : (get : Action World) w = .ok w w := rfl
  have hload : PluginSearch.load ⟨w.files, w.here, w.environment, contents⟩ builtInPlugins given =
      .ok { plugins := builtInPlugins } := by
    rw [PluginSearch.load, h]
    rfl
  rw [findPlugins, bind_apply, hget]
  simp only [hload, ofPlugins_builtInPlugins, Except.mapError, Action.ofExcept, pure_bind]
  exact ⟨_, rfl⟩

/-- The words that run the configuration on its branch have the program run the value. -/
theorem exists_runOf_presetValue :
    Nonempty (RunOf (fun _ => .nothing) latentWords presetWorld builtInRegistry presetValue) := by
  have hdirectories : (PluginSearch.directories ⟨presetWorld.files, presetWorld.here,
      presetWorld.environment, fun _ => .nothing⟩ []) = .ok [] := by rfl
  obtain ⟨found, hfound⟩ := findPlugins_of_no_directories (w := presetWorld.startedOn "main") hdirectories
  exact ⟨{
    source := { ref := some "main", file := some (.ofText "release.json") }
    request := {}
    path := .ofText "release.json"
    bytes := presetText.toUTF8
    text := presetText
    branch := "main"
    found
    words_eq := by rfl
    file := rfl
    isFile := by rfl
    read := by rfl
    decoded := ReleaseConfig.textOfBytes_toUTF8 (by decide +kernel)
    value := by
      have hread : Json.read presetText = .ok presetValue := by cbv
      delta ReleaseConfig.readText
      simp only [hread]
      rfl
    branch_eq := by rfl
    plugins := hfound
    releases := by
      intro c hc
      cases hc
      exact ⟨_, rfl⟩ }⟩

/-- The list stops the program with a failure that it does not handle. -/
theorem refusal_of_presetWorld :
    (∃ f, ReleaseConfig.stepsOf builtInRegistry { root := .ofText "/repo" } presetWorld presetValue =
      .error f ∧ f.kind = .mistyped) ∧
    (program (fun _ => .nothing) latentWords presetWorld).ending.exitCode? = none := by
  have hplugins : builtInPlugins ⊆ knownPlugins := List.subset_append_left _ _
  obtain ⟨hexit, hodd, hprogram⟩ :=
    configuration_refusals hplugins ofPlugins_builtInPlugins presetWorld presetValue
  have hpreset (s : Settings) : ReleaseConfig.OddValue builtInRegistry s presetWorld presetValue :=
    .plugins rfl ⟨[], _, [], rfl, nofun, CommitAnalyzer.plugin, rfl, rfl, .preset (.inl rfl) rfl rfl⟩
  refine ⟨(hodd _).mpr (hpreset _), ?_⟩
  obtain ⟨run⟩ := exists_runOf_presetValue
  obtain ⟨f, hf, hkind⟩ := (hodd (run.request.settings presetWorld)).mpr (hpreset _)
  rw [hprogram _ _ run f hf]
  rcases hexit _ f hf with ⟨hinvalid, -⟩ | ⟨⟨name, reason, rfl⟩, -⟩ | ⟨-, hnone⟩
  · exact absurd (hinvalid.symm.trans hkind) (by decide)
  · cases hkind
  · exact hnone

/-- What the list leads to is neither an invalid input nor an unavailable plugin, and the program does
not handle it. -/
theorem preset_list_unhandled :
    ReleaseConfig.stepsOf builtInRegistry { root := .ofText "/repo" } presetWorld presetValue =
      .error (.option .presetForm) ∧
    (Failure.option .presetForm).kind = .mistyped ∧
    (program (fun _ => .nothing) latentWords presetWorld).ending.exitCode? = none :=
  ⟨rfl, rfl, by decide +kernel⟩

end Preset

end CommandLine

end ReleasePipeline
