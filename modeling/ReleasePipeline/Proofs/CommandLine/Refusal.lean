import ReleasePipeline.CommandLine.Program
import ReleasePipeline.Proofs.Config.Shape
import ReleasePipeline.Proofs.Run.Latent
import ReleasePipeline.Proofs.Run.Replay

/-! An invalid input is refused before anything is done, unless it is one that is checked late. -/
namespace ReleasePipeline

open ReleasePipeline.Action Procedure

variable {α β : Type} {w w' : World} {x : Action α} {f : α → Action β}

namespace World

/-- Between the worlds no command is executed and no file changes. -/
structure Untouched (w w' : World) : Prop where
  alone : Alone w w'
  files : w'.files = w.files

instance : IsPreorder World Untouched where
  refl w := ⟨refl_of Alone w, rfl⟩
  trans _ _ _ h h' := ⟨trans_of Alone h.alone h'.alone, h'.files.trans h.files⟩

theorem untouched_of_release (w : World) (release : Release) : Untouched w { w with release } :=
  ⟨alone_of_release w release, rfl⟩

theorem admits_untouched : Admits Untouched False fun _ => False where
  message w level text := ⟨admits_alone.message w level text, rfl⟩
  files h := h.elim
  run _ _ h := h.elim

theorem admits_staysOrderly : Admits StaysOrderly False fun _ => False where
  message _ _ _ h := ⟨h.bump, h.writable⟩
  files h := h.elim
  run _ _ h := h.elim

end World

open World

namespace Action

/-- Where the action fails at a world, it has done nothing, or it fails late. -/
def RefusesAt (x : Action α) (w : World) : Prop :=
  ∀ e w', x w = .error e w' → Untouched w w' ∨ e.Late

theorem refusesAt_of_keeps (hx : Keeps Untouched x) : RefusesAt x w := by
  intro e w' h
  exact .inl (rel_of_error hx h)

theorem refusesAt_of_relates (hx : Relates StaysOrderly FailsLate x) (hw : w.Orderly) :
    RefusesAt x w :=
  fun _ _ h => .inr (relates_of_error hx h hw)

/-- What comes first does nothing. -/
theorem refusesAt_bind (hx : Keeps Untouched x)
    (hf : ∀ a w', x w = .ok a w' → RefusesAt (f a) w') : RefusesAt (x >>= f) w := by
  intro e w' h
  obtain hfirst | ⟨a, w₁, hfirst, hrest⟩ := bind_apply_eq_error.mp h
  · exact .inl (rel_of_error hx hfirst)
  · exact (hf a w₁ hfirst e w' hrest).imp_left (trans_of Untouched (rel_of_ok hx hfirst))

/-- What comes last does not fail. -/
theorem refusesAt_bind_of_ok (hx : RefusesAt x w) (hf : ∀ a w', ∃ b w'', f a w' = .ok b w'') :
    RefusesAt (x >>= f) w := by
  intro e w' h
  obtain hfirst | ⟨a, w₁, -, hrest⟩ := bind_apply_eq_error.mp h
  · exact hx e w' hfirst
  · obtain ⟨b, w₂, hb⟩ := hf a w₁
    cases hb.symm.trans hrest

end Action

namespace ReleaseConfig

variable {c : ReleaseConfig} {registry : Registry} {s : Settings}

theorem refusesAt_run (hover : registry.Over knownPlugins)
    (hmark : Text.contains versionMark c.tagFormat = true) (hw : w.Orderly) :
    RefusesAt (c.run registry s) w := by
  simp only [run, procedure, perform_bind, perform_world]
  refine refusesAt_bind keeps_get fun w₁ w' hget => ?_
  cases hget
  cases c.matcher? w.release.branch with
  | none =>
    simp only [perform_bind, perform_say, perform_pure]
    exact refusesAt_of_keeps (keeps_bind (keeps_log admits_untouched _ _) fun _ => keeps_pure _)
  | some m =>
    simp only [perform_bind, perform_changeRelease, perform_world, perform_ofExcept]
    refine refusesAt_bind (fun w => untouched_of_release w _) fun _ w₁ hlearn => ?_
    have horderly : w₁.Orderly := by
      cases hlearn
      exact ⟨hw.bump, hw.writable.last, hw.writable.next⟩
    refine refusesAt_bind keeps_get fun w₂ w₃ hget => ?_
    cases hget
    refine refusesAt_bind (keeps_ofExcept _) fun steps w₂ hbuilt => ?_
    obtain ⟨hsteps, rfl⟩ := ofExcept_eq_ok.mp hbuilt
    have hvetted := fun n hn => vetted_of_buildSteps (n := n) hover hsteps hn
    exact refusesAt_of_relates (Lifecycle.relates_runSteps hmark hvetted) horderly

end ReleaseConfig

section Mark

variable {c : ReleaseConfig}

theorem contains_of_builtIn {ref : Option String} (h : ReleaseConfig.builtIn ref = .ok c) :
    Text.contains versionMark c.tagFormat = true := by
  obtain ⟨branch, -, rfl⟩ := map_eq_ok.mp h
  have hdefault : Text.contains versionMark defaultTagFormat = true := by decide
  exact hdefault

theorem contains_of_load {source : CommandLine.Source} (h : source.load w = .ok c) :
    Text.contains versionMark c.tagFormat = true := by
  rw [CommandLine.Source.load] at h
  split at h
  · have hload := mapError_eq_ok.mp h
    rw [ReleaseConfig.load] at hload
    rw [bind_eq_ok] at hload
    obtain ⟨found, -, hload⟩ := hload
    split at hload
    · simp only [bind_eq_ok] at hload
      obtain ⟨_, _, _, _, value, _, hload⟩ := hload
      exact (ReleaseConfig.wellFormed_of_ofValue (mapError_eq_ok.mp hload)).mark
    · cases hload
  · exact contains_of_builtIn (mapError_eq_ok.mp h)

end Mark

namespace CommandLine

variable {contents : Place → PluginFile} {given : List Path} {registry : Registry}

theorem keeps_findPlugins {R : World → World → Prop} [IsPreorder World R] {write : Prop}
    {may : List String → Prop} (h : Admits R write may) : Keeps R (findPlugins contents given) := by
  refine keeps_bind keeps_get fun w => keeps_bind (keeps_ofExcept _) fun found => ?_
  refine keeps_bind (keeps_forM fun _ _ => keeps_log h _ _) fun _ => ?_
  refine keeps_bind (keeps_ofExcept _) fun registry => ?_
  exact keeps_bind (keeps_log h _ _) fun _ => keeps_pure _

section Contents

variable (hcontents : ∀ place p, contents place = .plugin p → p ∈ knownPlugins)

include hcontents

theorem subset_of_loadFile {search : PluginSearch} (hsearch : search.contents = contents)
    {found found' : PluginSet} (hfound : found.plugins ⊆ knownPlugins) {file : Path}
    (h : search.loadFile found file = .ok found') : found'.plugins ⊆ knownPlugins := by
  rw [PluginSearch.loadFile] at h
  cases hread : search.read file with
  | nothing =>
    rw [hread] at h
    cases h
    exact hfound
  | broken reason =>
    rw [hread] at h
    cases h
    exact hfound
  | stops =>
    rw [hread] at h
    cases h
  | plugin p =>
    rw [hread] at h
    cases h
    rw [PluginSearch.read] at hread
    split at hread
    · cases hread
    · split at hread
      · cases hread
      · rw [hsearch] at hread
        exact List.append_subset.mpr
          ⟨hfound, List.cons_subset.mpr ⟨hcontents file.names p hread, List.nil_subset _⟩⟩

theorem subset_of_loadDirectory {search : PluginSearch} (hsearch : search.contents = contents)
    {found found' : PluginSet} (hfound : found.plugins ⊆ knownPlugins) {dir : Path}
    (h : search.loadDirectory found dir = .ok found') : found'.plugins ⊆ knownPlugins := by
  obtain ⟨present, -, h⟩ := bind_eq_ok.mp h
  split at h
  · exact foldlM_keeps (I := fun found : PluginSet => found.plugins ⊆ knownPlugins)
      (fun _ _ _ _ hfound hload => subset_of_loadFile hcontents hsearch hfound hload) hfound h
  · simp only [bind_eq_ok] at h
    obtain ⟨_, _, h⟩ := h
    cases h
    exact hfound

theorem subset_of_load {search : PluginSearch} (hsearch : search.contents = contents)
    {found : PluginSet} (h : search.load builtInPlugins given = .ok found) :
    found.plugins ⊆ knownPlugins := by
  obtain ⟨directories, -, h⟩ := bind_eq_ok.mp h
  have hbuiltIn : builtInPlugins ⊆ knownPlugins := List.subset_append_left _ _
  exact foldlM_keeps (I := fun found : PluginSet => found.plugins ⊆ knownPlugins)
    (fun _ _ _ _ hfound hload => subset_of_loadDirectory hcontents hsearch hfound hload) hbuiltIn h

theorem over_of_findPlugins (h : findPlugins contents given w = .ok registry w') :
    registry.Over knownPlugins := by
  obtain ⟨w₁, w₂, hget, h⟩ := bind_apply_eq_ok.mp h
  cases hget
  obtain ⟨found, w₁, hload, h⟩ := bind_apply_eq_ok.mp h
  obtain ⟨hfound, -⟩ := ofExcept_eq_ok.mp hload
  obtain ⟨_, w₂, -, h⟩ := bind_apply_eq_ok.mp h
  obtain ⟨registry', w₃, hregister, h⟩ := bind_apply_eq_ok.mp h
  obtain ⟨hregistry, -⟩ := ofExcept_eq_ok.mp hregister
  obtain ⟨_, w₄, -, h⟩ := bind_apply_eq_ok.mp h
  cases h
  exact over_known (subset_of_load hcontents rfl hfound) (mapError_eq_ok.mp hregistry)

end Contents

theorem refusesAt_release (hcontents : ∀ place p, contents place = .plugin p → p ∈ knownPlugins)
    (source : Source) (r : RunRequest) : RefusesAt (release contents source r) w := by
  rw [release]
  refine refusesAt_bind keeps_get fun w₁ w₂ hget => ?_
  cases hget
  refine refusesAt_bind (keeps_ofExcept _) fun branch w₂ hbranch => ?_
  obtain ⟨-, rfl⟩ := ofExcept_eq_ok.mp hbranch
  refine refusesAt_bind (keeps_ofExcept _) fun c w₃ hload => ?_
  obtain ⟨hconfig, rfl⟩ := ofExcept_eq_ok.mp hload
  have hmark := contains_of_load hconfig
  simp only
  refine refusesAt_bind (fun w => untouched_of_release w _) fun _ w₁ hlearn => ?_
  have horderly : w₁.Orderly := by
    cases hlearn
    exact ⟨by rintro _ ⟨⟩, by rintro _ ⟨⟩, by rintro _ ⟨⟩⟩
  refine refusesAt_bind (keeps_findPlugins admits_untouched) fun registry w₂ hfind => ?_
  have hover := over_of_findPlugins hcontents hfind
  have horderly₂ : w₂.Orderly := rel_of_ok (keeps_findPlugins admits_staysOrderly) hfind horderly
  refine refusesAt_bind (keeps_log admits_untouched _ _) fun _ w₃ hlog => ?_
  have horderly₃ : w₃.Orderly := rel_of_ok (keeps_log admits_staysOrderly _ _) hlog horderly₂
  refine refusesAt_bind_of_ok (ReleaseConfig.refusesAt_run hover hmark horderly₃) fun outcome w' => ?_
  cases outcome with
  | released version => exact ⟨(), _, rfl⟩
  | otherBranch => exact ⟨(), _, rfl⟩
  | noChanges => exact ⟨(), _, rfl⟩

theorem isInvalid_of_exitCode? {e : Failure} (h : (Ending.failed e).exitCode? = some 2) :
    e.isInvalid = true := by
  rw [Ending.exitCode?] at h
  split at h
  · assumption
  · split at h <;> cases h

section Program

variable (hcontents : ∀ place p, contents place = .plugin p → p ∈ knownPlugins)

include hcontents

theorem refusal_of_answer (request : Request)
    (hcode : (answer contents request w).ending.exitCode? = some 2) :
    Untouched w (answer contents request w).world ∨
      ∃ e, (answer contents request w).ending = .failed e ∧ e.Latent := by
  cases request with
  | config source format =>
    simp only [answer]
    cases configText source format w with
    | ok output => exact .inl (refl_of Untouched w)
    | error e => exact .inl (refl_of Untouched w)
  | run source r =>
    simp only [answer] at hcode ⊢
    cases hrun : EStateM.run (release contents source r) w with
    | ok result w' =>
      simp only [hrun] at hcode
      cases hcode
    | error e w' =>
      simp only [hrun] at hcode
      refine (refusesAt_release hcontents source r e w' hrun).imp_right fun hlate => ?_
      exact ⟨e, rfl, hlate (isInvalid_of_exitCode? hcode)⟩

/-- Where the program takes its input for invalid, it has executed no command and changed no file,
or the input is one that nothing checks before the steps are applied. (A file with an escape for half of
a surrogate pair is left out here: it ends the program without this exit code.) -/
theorem refusal_before_effects (words : List String) (w : World)
    (hcode : (program contents words w).ending.exitCode? = some 2) :
    Untouched w (program contents words w).world ∨
      ∃ e, (program contents words w).ending = .failed e ∧ e.Latent := by
  rw [program] at hcode ⊢
  cases hwords : Request.ofWords words with
  | error refusal => exact .inl (refl_of Untouched w)
  | ok request =>
    rw [hwords] at hcode
    exact refusal_of_answer hcontents request hcode

end Program

/-- A configuration with a pattern of which no path can be a match. -/
def latentConfig : String :=
  "\x7b\"branches\": [\"main\"], \"plugins\": [\"commit-analyzer\", " ++
    "[\"github\", \x7b\"assets\": [\"dist/**.tgz\"]\x7d]]\x7d"

/-- A repository with a new feature and that configuration. -/
def latentWorld : World where
  __ := featureWorld []
  files := ⟨[(["repo"], .directory), (["repo", "release.json"], .file latentConfig.toUTF8)]⟩
  here := ["repo"]
  environment := ⟨[("HOME", "/home")]⟩

/-- The words that run it. -/
def latentWords : List String := ["run", "--ref", "main", "--config", "release.json"]

theorem exitCode?_latentWorld :
    (program (fun _ => .nothing) latentWords latentWorld).ending.exitCode? = some 2 := by
  decide +kernel

theorem refusal_of_latentWorld :
    let report := program (fun _ => .nothing) latentWords latentWorld
    report.ending.exitCode? = some 2 ∧
    (Untouched latentWorld report.world ∨ ∃ e, report.ending = .failed e ∧ e.Latent) := by
  have hcontents : ∀ place p, (fun _ => .nothing : Place → PluginFile) place = .plugin p →
      p ∈ knownPlugins := by
    intro place p h
    cases h
  exact ⟨exitCode?_latentWorld,
    refusal_before_effects hcontents latentWords latentWorld exitCode?_latentWorld⟩

/-- The pattern is refused when the tag of the release is already pushed. -/
theorem tag_pushed_latentWorld :
    let report := program (fun _ => .nothing) latentWords latentWorld
    report.ending.exitCode? = some 2 ∧ (commandsOf report.world.events).map (·.argv) =
      [["gh", "auth", "status"], ["git", "tag", "--list", "--merged", "HEAD"],
       ["git", "log", Git.logFormat, "HEAD"], ["git", "tag", "v1.0.0"],
       ["git", "push", "origin", "refs/tags/v1.0.0"]] :=
  ⟨exitCode?_latentWorld, by decide +kernel⟩

end CommandLine

end ReleasePipeline
