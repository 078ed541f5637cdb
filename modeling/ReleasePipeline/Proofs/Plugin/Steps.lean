import ReleasePipeline.Plugin.Registry
import ReleasePipeline.Plugin.BuiltIn
import ReleasePipeline.Proofs.Except
import ReleasePipeline.Proofs.Run.Effects
import ReleasePipeline.Proofs.Template
import ReleasePipeline.Run.Lifecycle

/-! The steps of the known plugins, and what they do to the world. -/
namespace ReleasePipeline

variable {registry : Registry} {ps : List Plugin} {s : Settings} {st : Step}

namespace Registry

/-- Every plugin of the registry is one of the list. -/
def Over (ps : List Plugin) (registry : Registry) : Prop := ∀ e ∈ registry.entries, e.2 ∈ ps

theorem over_addHandler {registry' : Registry} {p : Plugin} {h : Handler}
    (hover : registry.Over ps) (hp : p ∈ ps) (hadd : addHandler p registry h = .ok registry') :
    registry'.Over ps := by
  cases h with
  | other v => cases hadd
  | name v =>
    simp only [addHandler] at hadd
    split at hadd
    · cases hadd
    · split at hadd
      · cases hadd
      · cases hadd
        intro e he
        rcases List.mem_append.mp he with he | he
        · exact hover e he
        · rw [List.mem_singleton.mp he]
          exact hp

theorem over_addPlugin {registry' : Registry} {p : Plugin} (hover : registry.Over ps)
    (hp : p ∈ ps) (hadd : registry.addPlugin p = .ok registry') : registry'.Over ps := by
  rw [addPlugin] at hadd
  split at hadd
  · cases hadd
  · split at hadd
    · cases hadd
    · exact foldlM_keeps (fun h _ r r' hr hr' => over_addHandler hr hp hr') hover hadd

theorem over_ofPlugins (h : ofPlugins ps = .ok registry) : registry.Over ps := by
  have hempty : Registry.Over ps {} := fun _ he => absurd he List.not_mem_nil
  exact foldlM_keeps (fun p hp r r' hr hr' => over_addPlugin hr hp hr') hempty h

theorem Over.mono {qs : List Plugin} (hover : registry.Over ps) (h : ps ⊆ qs) : registry.Over qs :=
  fun e he => h (hover e he)

/-- A step comes from a plugin of the registry that is available. -/
theorem step_eq_ok {w : World} {i : PluginInvocation} : registry.step s w i = .ok st ↔
    ∃ p, registry.plugin? i.name = some p ∧ p.availability s w = .available ∧
      p.build i.options = .ok st ∧ st.phases.filter Phase.isOther = [] := by
  constructor
  · intro h
    rw [step] at h
    split at h
    · cases h
    · rename_i p hp
      split at h
      · cases h
      · rename_i havailable
        rw [bind_eq_ok] at h
        obtain ⟨built, hbuild, h⟩ := h
        split at h
        · rename_i hphases
          cases h
          exact ⟨p, hp, havailable, hbuild, hphases⟩
        · cases h
  · rintro ⟨p, hp, havailable, hbuild, hphases⟩
    simp only [step, hp, havailable, hbuild, bind, Except.bind, hphases]
    rfl

theorem Over.mem {p : Plugin} {name : String} (hover : registry.Over ps)
    (h : registry.plugin? name = some p) : p ∈ ps := by
  obtain ⟨before, after, hentries, -⟩ := List.lookup_eq_some_iff.mp h
  exact hover (name, p) (by simp [hentries])

end Registry

/-- The plugins whose steps are known. -/
def knownPlugins : List Plugin := builtInPlugins ++ [CargoVersion.plugin]

/-- The steps that the known plugins make. -/
inductive Step.Known : Step → Prop
  | analysis (rules : List Rule) : Known (CommitAnalyzer.step rules)
  | notes (types : List NoteType) (url : Option String) : Known (NotesGenerator.step types url)
  | changelog (file : String) (title : Option String) : Known (Changelog.step file title)
  | exec (commands : List (Phase × String)) (cwd : Option String) : Known (Exec.step commands cwd)
  | github (specs : List GitHubRelease.AssetSpec) : Known (GitHubRelease.step specs)
  | commit (assets : List String) (message : String) : Known (GitCommit.step assets message)
  | manifests (files : List String) : Known (CargoVersion.step files)

/-- The steps that the known plugins make of options that they accept: their templates are known. -/
inductive Step.Vetted : Step → Prop
  | analysis (rules : List Rule) : Vetted (CommitAnalyzer.step rules)
  | notes (types : List NoteType) (url : Option String) : Vetted (NotesGenerator.step types url)
  | changelog (file : String) (title : Option String) : Vetted (Changelog.step file title)
  | exec (commands : List (Phase × String)) (cwd : Option String)
    (h : ∀ c ∈ commands, Template.Known c.2) : Vetted (Exec.step commands cwd)
  | github (specs : List GitHubRelease.AssetSpec)
    (h : ∀ spec ∈ specs, ∀ text, spec.label = some text → Template.Known text) :
    Vetted (GitHubRelease.step specs)
  | commit (assets : List String) (message : String) (h : Template.Known message) :
    Vetted (GitCommit.step assets message)
  | manifests (files : List String) : Vetted (CargoVersion.step files)

theorem Step.Vetted.known (h : st.Vetted) : st.Known := by
  cases h with
  | analysis rules => exact .analysis rules
  | notes types url => exact .notes types url
  | changelog file title => exact .changelog file title
  | exec commands cwd => exact .exec commands cwd
  | github specs => exact .github specs
  | commit assets message => exact .commit assets message
  | manifests files => exact .manifests files

theorem over_known (hps : ps ⊆ knownPlugins) (h : Registry.ofPlugins ps = .ok registry) :
    registry.Over knownPlugins := (Registry.over_ofPlugins h).mono hps

theorem mem_knownPlugins {p : Plugin} : p ∈ knownPlugins ↔ p = CommitAnalyzer.plugin ∨
    p = NotesGenerator.plugin ∨ p = Changelog.plugin ∨ p = Exec.plugin ∨
    p = GitHubRelease.plugin ∨ p = GitCommit.plugin ∨ p = CargoVersion.plugin := by
  simp only [knownPlugins, builtInPlugins, List.cons_append, List.nil_append, List.mem_cons,
    List.not_mem_nil, or_false]

section Build

variable {options : Table}

theorem vetted_analysis (h : CommitAnalyzer.plugin.build options = .ok st) : st.Vetted := by
  simp only [CommitAnalyzer.plugin, bind_eq_ok] at h
  obtain ⟨_, _, rules, _, h⟩ := h
  cases h
  exact .analysis rules

theorem vetted_notes (h : NotesGenerator.plugin.build options = .ok st) : st.Vetted := by
  simp only [NotesGenerator.plugin, bind_eq_ok] at h
  obtain ⟨_, _, h⟩ := h
  split at h
  · cases h
  · simp only [bind_eq_ok] at h
    obtain ⟨types, _, url, _, h⟩ := h
    cases h
    exact .notes types url

theorem vetted_changelog (h : Changelog.plugin.build options = .ok st) : st.Vetted := by
  simp only [Changelog.plugin] at h
  split at h
  · cases h
  · split at h
    · cases h
    · simp only [bind_eq_ok] at h
      obtain ⟨title, _, h⟩ := h
      cases h
      exact .changelog _ title

theorem known_of_commandsOf {commands : List (Phase × String)}
    (h : Exec.commandsOf options = .ok commands) : ∀ c ∈ commands, Template.Known c.2 := by
  rw [Exec.commandsOf, bind_eq_ok] at h
  obtain ⟨found, hfound, h⟩ := h
  split at h
  · cases h
  · cases h
    intro c hc
    obtain ⟨found', hmem, rfl⟩ := List.mem_filterMap.mp hc
    obtain ⟨⟨name, phase⟩, -, hread⟩ := exists_of_mapM_mem hfound hmem
    obtain ⟨-, hnone⟩ | ⟨v, _, -, hsome, hread⟩ := option_mapM_eq_ok.mp hread
    · cases hnone
    · cases hsome
      obtain ⟨text, htext, hc⟩ := bind_eq_ok.mp hread
      cases hc
      exact Template.known_of_template htext

/-- The plugin makes a step of the commands of its options. -/
theorem exec_of_build (h : Exec.plugin.build options = .ok st) :
    ∃ commands cwd, Exec.commandsOf options = .ok commands ∧ st = Exec.step commands cwd := by
  simp only [Exec.plugin, bind_eq_ok] at h
  obtain ⟨_, _, commands, hcommands, cwd, _, h⟩ := h
  cases h
  exact ⟨commands, cwd, hcommands, rfl⟩

theorem vetted_exec (h : Exec.plugin.build options = .ok st) : st.Vetted := by
  obtain ⟨commands, cwd, hcommands, rfl⟩ := exec_of_build h
  exact .exec commands cwd (known_of_commandsOf hcommands)

theorem known_of_label {index : ℕ} {t : Table} {label : Option String} {text : String}
    (h : GitHubRelease.label index t = .ok label) (htext : label = some text) :
    Template.Known text := by
  rw [GitHubRelease.label] at h
  split at h
  · cases h
    cases htext
  · obtain ⟨text', htemplate, hlabel⟩ := map_eq_ok.mp h
    cases hlabel.trans htext
    exact Template.known_of_template htemplate

theorem known_of_specOf {v : Value} {index : ℕ} {spec : GitHubRelease.AssetSpec}
    (h : GitHubRelease.specOf v index = .ok spec) {text : String}
    (htext : spec.label = some text) : Template.Known text := by
  rw [GitHubRelease.specOf] at h
  split at h
  · simp only [pure_bind] at h
    split at h
    · cases h
    · cases h
      cases htext
  · split at h
    · cases h
    · simp only [pure_bind, bind_eq_ok] at h
      obtain ⟨label, hlabel, h⟩ := h
      split at h
      · cases h
      · cases h
        exact known_of_label hlabel htext
  · cases h

/-- The plugin makes a step of the assets of its options. -/
theorem github_of_build (h : GitHubRelease.plugin.build options = .ok st) :
    ∃ items specs, GitHubRelease.items? (Options.getOr options "assets" (.list [])) = some items ∧
      (items.zipIdx 1).mapM (fun (v, i) => GitHubRelease.specOf v i) = .ok specs ∧
      st = GitHubRelease.step specs := by
  simp only [GitHubRelease.plugin] at h
  split at h
  · cases h
  · rename_i items hitems
    obtain ⟨specs, hspecs, h⟩ := bind_eq_ok.mp h
    cases h
    exact ⟨items, specs, hitems, hspecs, rfl⟩

theorem vetted_github (h : GitHubRelease.plugin.build options = .ok st) : st.Vetted := by
  obtain ⟨items, specs, -, hspecs, rfl⟩ := github_of_build h
  refine .github specs fun spec hspec text htext => ?_
  obtain ⟨⟨v, index⟩, -, hread⟩ := exists_of_mapM_mem hspecs hspec
  exact known_of_specOf hread htext

/-- The plugin makes a step of the message of its options. -/
theorem commit_of_build (h : GitCommit.plugin.build options = .ok st) :
    ∃ assets message, Options.template "message"
        (Options.getOr options "message" (.string GitCommit.defaultMessage)) = .ok message ∧
      st = GitCommit.step assets message := by
  simp only [GitCommit.plugin] at h
  split at h
  · cases h
  · cases h
  · rename_i assets _ _
    obtain ⟨message, hmessage, h⟩ := bind_eq_ok.mp h
    cases h
    exact ⟨assets, message, hmessage, rfl⟩

theorem vetted_commit (h : GitCommit.plugin.build options = .ok st) : st.Vetted := by
  obtain ⟨assets, message, hmessage, rfl⟩ := commit_of_build h
  exact .commit assets message (Template.known_of_template hmessage)

theorem vetted_manifests (h : CargoVersion.plugin.build options = .ok st) : st.Vetted := by
  simp only [CargoVersion.plugin] at h
  split at h
  · cases h
    exact .manifests _
  · cases h

theorem vetted_of_build {p : Plugin} (hp : p ∈ knownPlugins) (h : p.build options = .ok st) :
    st.Vetted := by
  rcases mem_knownPlugins.mp hp with rfl | rfl | rfl | rfl | rfl | rfl | rfl
  · exact vetted_analysis h
  · exact vetted_notes h
  · exact vetted_changelog h
  · exact vetted_exec h
  · exact vetted_github h
  · exact vetted_commit h
  · exact vetted_manifests h

end Build

theorem vetted_of_step {w : World} {i : PluginInvocation} (hover : registry.Over knownPlugins)
    (h : registry.step s w i = .ok st) : st.Vetted := by
  obtain ⟨p, hp, -, hbuild, -⟩ := Registry.step_eq_ok.mp h
  exact vetted_of_build (hover.mem hp) hbuild

section Lifecycle

variable {w : World} {c : ReleaseConfig} {steps : List NamedStep} {n : NamedStep}

theorem vetted_of_buildSteps (hover : registry.Over knownPlugins)
    (h : Lifecycle.buildSteps registry s w c = .ok steps) (hn : n ∈ steps) : n.step.Vetted := by
  obtain ⟨⟨p, index⟩, -, hbuilt⟩ := exists_of_mapM_mem h hn
  rw [bind_eq_ok] at hbuilt
  obtain ⟨built, hstep, hn⟩ := hbuilt
  cases hn
  exact vetted_of_step hover (mapError_eq_ok.mp hstep)

theorem known_of_buildSteps (hover : registry.Over knownPlugins)
    (h : Lifecycle.buildSteps registry s w c = .ok steps) (hn : n ∈ steps) : n.step.Known :=
  (vetted_of_buildSteps hover h hn).known

/-- The known plugins look at nothing but the installed programs to see whether they can be used. -/
theorem buildSteps_of_tools {w' : World} (hover : registry.Over knownPlugins)
    (h : w'.tools = w.tools) :
    Lifecycle.buildSteps registry s w' c = Lifecycle.buildSteps registry s w c := by
  have htool (tool : String) : Options.needsTool tool w' = Options.needsTool tool w := by
    simp only [Options.needsTool, h]
  have hchange (tool : String) :
      Options.needsToolToChange tool s w' = Options.needsToolToChange tool s w := by
    simp only [Options.needsToolToChange, htool]
  have hstep (i : PluginInvocation) : registry.step s w' i = registry.step s w i := by
    cases hp : registry.plugin? i.name with
    | none => simp only [Registry.step, hp]
    | some p =>
      have havailable : p.availability s w' = p.availability s w := by
        rcases mem_knownPlugins.mp (hover.mem hp) with rfl | rfl | rfl | rfl | rfl | rfl | rfl
        · rfl
        · rfl
        · rfl
        · exact hchange "bash"
        · exact hchange "gh"
        · exact htool "git"
        · rfl
      simp only [Registry.step, hp, havailable]
  simp only [Lifecycle.buildSteps, hstep]

end Lifecycle

theorem Registry.ofPlugins_of_isOk (h : (ofPlugins ps).isOk = true) :
    ofPlugins ps = .ok ((ofPlugins ps).toOption.getD {}) := by
  cases hps : ofPlugins ps with
  | error e =>
    rw [hps] at h
    cases h
  | ok registry => rfl

/-- The registry of all known plugins. -/
def knownRegistry : Registry := (Registry.ofPlugins knownPlugins).toOption.getD {}

theorem ofPlugins_knownPlugins : Registry.ofPlugins knownPlugins = .ok knownRegistry :=
  Registry.ofPlugins_of_isOk (by decide +kernel)

/-- The registry of the built-in plugins. -/
def builtInRegistry : Registry := (Registry.ofPlugins builtInPlugins).toOption.getD {}

theorem ofPlugins_builtInPlugins : Registry.ofPlugins builtInPlugins = .ok builtInRegistry :=
  Registry.ofPlugins_of_isOk (by decide +kernel)

/-- A configuration that releases from one branch. -/
def mainConfig : ReleaseConfig where
  branches := [{ name := "main" }]
  plugins := [⟨"commit-analyzer", []⟩, ⟨"release-notes-generator", []⟩, ⟨"changelog", []⟩,
    ⟨"exec", Table.ofNames [("publishCmd", .string "make publish")]⟩, ⟨"github", []⟩, ⟨"git", []⟩]

/-- The answers of a repository that lists some tags and has a new feature. -/
def featureAnswer (tags : List String) (argv : List String) : Answer :=
  if argv = "git" :: Git.tagListing then { output := String.join (tags.map fun t => t ++ "\n") }
  else if argv.take 2 = ["git", "log"] then { output := "abc\x1ffeat: first\x1e" }
  else if argv.take 2 = ["git", "status"] then { output := " M CHANGELOG.md\x00" }
  else {}

/-- A repository that lists some tags and has a new feature. -/
def featureWorld (tags : List String) : World where
  tools := ["bash", "gh", "git"]
  answers argv _ := featureAnswer tags argv
  release := { branch := "main", date := ⟨2024, 5, 1⟩ }

end ReleasePipeline
