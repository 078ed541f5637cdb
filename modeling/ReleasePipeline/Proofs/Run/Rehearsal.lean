import ReleasePipeline.Proofs.Plugin.Rehearsal
import ReleasePipeline.Proofs.Run.Course
import ReleasePipeline.Proofs.Version.Tag

/-! A rehearsal ends like the real run: what a release does can be tried out before it is made. -/
namespace ReleasePipeline

open ReleasePipeline.Action Procedure

variable {registry : Registry} {plugins : List Plugin} {c : ReleaseConfig} {s : Settings}
  {w : World} {table : List String → Answer} {before : List Event} {tag : Option String}
  {steps : List NamedStep} {phase : Phase}

/-- Where a plugin is available for a real run, it is for a rehearsal. -/
theorem available_rehearsal {p : Plugin} (hp : p ∈ knownPlugins)
    (h : p.availability s w = .available) : p.availability s.rehearsal w = .available := by
  rcases mem_knownPlugins.mp hp with rfl | rfl | rfl | rfl | rfl | rfl | rfl
  · exact h
  · exact h
  · exact h
  · rfl
  · rfl
  · exact h
  · exact h

theorem step_rehearsal {st : Step} {i : PluginInvocation} (hover : registry.Over knownPlugins)
    (h : registry.step s w i = .ok st) : registry.step s.rehearsal w i = .ok st := by
  obtain ⟨p, hp, havailable, hbuild, hphases⟩ := Registry.step_eq_ok.mp h
  have hrehearsal := available_rehearsal (hover.mem hp) havailable
  exact Registry.step_eq_ok.mpr ⟨p, hp, hrehearsal, hbuild, hphases⟩

theorem buildSteps_rehearsal (hover : registry.Over knownPlugins)
    (h : Lifecycle.buildSteps registry s w c = .ok steps) :
    Lifecycle.buildSteps registry s.rehearsal w c = .ok steps := by
  refine mapM_eq_ok.mpr ((mapM_eq_ok.mp h).imp fun {invocation n} hn => ?_)
  obtain ⟨p, index⟩ := invocation
  rw [bind_eq_ok] at hn ⊢
  obtain ⟨built, hstep, hn⟩ := hn
  exact ⟨built, mapError_eq_ok.mpr (step_rehearsal hover (mapError_eq_ok.mp hstep)), hn⟩

namespace Lifecycle

section Phases

variable (hreal : s.dryRun = false)

include hreal

theorem follows_applyAll {active : List (NamedStep × Nat)} (hknown : ∀ n ∈ active, n.1.step.Known) :
    Follows (Mirrors table before tag) ((applyAll phase active).perform s)
      ((applyAll phase active).perform s.rehearsal) fun _ _ => Mirrors table before tag := by
  induction active with
  | nil => exact follows_pure fun w v h => h
  | cons first rest ih =>
    obtain ⟨n, index⟩ := first
    simp only [applyAll, perform_bind, perform_act, perform_say]
    have hstep : Rehearses table before tag (n.step.apply s phase)
        (n.step.apply s.rehearsal phase) := rehearses_apply hreal (hknown (n, index) List.mem_cons_self)
    refine follows_bind hstep fun report report' => ?_
    refine follows_bind (follows_log _ _ _ _) fun _ _ => ?_
    exact ih fun n' hn' => hknown n' (List.mem_cons_of_mem _ hn')

theorem follows_runPhase (hknown : ∀ n ∈ steps, n.step.Known) : Follows (Mirrors table before tag)
    ((runPhase steps phase).perform s) ((runPhase steps phase).perform s.rehearsal)
    fun _ _ => Mirrors table before tag := by
  have hactive : ∀ n ∈ active phase steps, n.1.step.Known := fun n hn => hknown _ (mem_of_active hn)
  rw [runPhase]
  cases hphase : active phase steps with
  | nil => exact follows_pure fun w v h => h
  | cons first rest =>
    simp only [perform_bind, perform_say]
    refine follows_bind (follows_log _ _ _ _) fun _ _ => ?_
    rw [← hphase]
    exact follows_applyAll hreal hactive

end Phases

theorem follows_readHistory (tagFormat : String) : Follows (Mirrors table before tag)
    ((readHistory tagFormat).perform s) ((readHistory tagFormat).perform s.rehearsal)
    fun _ _ => Mirrors table before tag := by
  simp only [readHistory, perform_bind, perform_act, perform_ofExcept, perform_changeRelease,
    perform_world, perform_say]
  refine follows_bind_same (follows_read rfl) fun output => ?_
  refine follows_bind_same (follows_ofExcept _) fun versions => follows_of_fact fun _ => ?_
  refine follows_bind (follows_changeRelease fun _ h => h) fun _ _ => ?_
  refine follows_get_bind fun w v h => ?_
  rw [h.release]
  refine follows_bind_same (follows_ofExcept _) fun since => follows_of_fact fun _ => ?_
  refine follows_bind (follows_changeRelease fun _ h => h) fun _ _ => ?_
  refine follows_bind_same (follows_read rfl) fun output => ?_
  refine follows_bind (follows_changeRelease fun _ h => h) fun _ _ => ?_
  exact follows_log _ _ _ _

/-- The tag of the next version is the same, and no option of a listing. -/
theorem follows_decideVersion (tagFormat : String) (bump : BumpKind) :
    Follows (Mirrors table before tag) ((decideVersion tagFormat bump).perform s)
      ((decideVersion tagFormat bump).perform s.rehearsal) fun a b w v => a = b ∧
        ∃ name, name ≠ "--list" ∧ Mirrors table before (some name) w v := by
  simp only [decideVersion, perform_bind, perform_ofExcept, perform_changeRelease, perform_world,
    perform_say, perform_pure]
  refine follows_get_bind fun w v h => ?_
  rw [h.release]
  refine follows_bind_same (follows_ofExcept _) fun version => follows_of_fact fun _ => ?_
  refine follows_bind (follows_changeRelease fun _ h => h) fun _ _ => ?_
  refine follows_bind_same (follows_ofExcept _) fun name => follows_of_fact fun hname => ?_
  have hoption := Tag.ne_of_ofVersion (t := "--list") (mapError_eq_ok.mp hname) (by decide)
  refine follows_bind (follows_changeRelease (t := some name) fun _ _ => rfl) fun _ _ => ?_
  refine follows_bind (follows_log _ _ _ _) fun _ _ => ?_
  exact follows_pure fun w v h => ⟨rfl, name, hoption, h⟩

section Release

variable (hreal : s.dryRun = false)

include hreal

theorem follows_makeTag {name : String} (hname : name ≠ "--list") :
    Follows (Mirrors table before (some name)) ((makeTag s).perform s)
      ((makeTag s.rehearsal).perform s.rehearsal) fun _ _ => Mirrors table before (some name) := by
  have hchange (args : List String) (h : Git.isReading ("git" :: args) = false) :
      Keeps Silent ((Move.change args).perform s) :=
    keeps_bind (Git.keeps_change admits_silent fun _ => h) fun _ => keeps_pure ""
  have htag : Git.isReading ("git" :: Git.tagging name) = false := by
    simp only [Git.isReading, Git.tagging]
    split <;> simp_all
  simp only [makeTag, perform_bind, perform_world]
  refine follows_get_bind fun w v h => ?_
  have hw : w.release.gitTag = some name := h.gitTag
  have hv : v.release.gitTag = some name := h.release ▸ hw
  simp only [hw, hv, hreal, Settings.rehearsal_dryRun, Bool.false_eq_true, if_false, if_true,
    perform_bind, perform_act, perform_say, Option.getD_some]
  -- while the real run makes the tag and pushes it, the rehearsal does nothing
  change Follows _ _ (pure "" >>= fun _ => pure "" >>= fun _ => log .info _) _
  refine follows_bind (follows_silent "" (hchange _ htag)) fun _ _ => ?_
  refine follows_bind (follows_silent "" (hchange _ rfl)) fun _ _ => ?_
  exact follows_log _ _ _ _

theorem follows_release (hknown : ∀ n ∈ steps, n.step.Known) (tagFormat : String)
    (bump : BumpKind) : Follows (Mirrors table before tag)
    ((release s tagFormat steps bump).perform s)
    ((release s.rehearsal tagFormat steps bump).perform s.rehearsal)
    fun a b w v => a = b ∧ ∃ tag, Mirrors table before tag w v := by
  simp only [release, perform_bind, perform_world, perform_pure]
  refine follows_bind_same (follows_decideVersion tagFormat bump) fun version => ?_
  refine follows_of_exists fun name => follows_of_fact fun hname => ?_
  refine follows_bind (follows_runPhase hreal hknown) fun _ _ => ?_
  refine follows_bind (follows_runPhase hreal hknown) fun _ _ => ?_
  refine follows_bind (follows_makeTag hreal hname) fun _ _ => ?_
  refine follows_bind (follows_runPhase hreal hknown) fun _ _ => ?_
  refine follows_get_bind fun w v h => ?_
  rw [h.release]
  exact follows_pure fun w v h => ⟨rfl, some name, h⟩

theorem follows_runSteps (hknown : ∀ n ∈ steps, n.step.Known) (tagFormat : String) :
    Follows (Mirrors table before tag) ((runSteps s tagFormat steps).perform s)
      ((runSteps s.rehearsal tagFormat steps).perform s.rehearsal)
      fun a b w v => a = b ∧ ∃ tag, Mirrors table before tag w v := by
  simp only [runSteps, analyze, perform_bind, perform_world, bind_assoc]
  refine follows_bind (follows_runPhase hreal hknown) fun _ _ => ?_
  refine follows_bind (follows_readHistory tagFormat) fun _ _ => ?_
  refine follows_bind (follows_runPhase hreal hknown) fun _ _ => ?_
  refine follows_get_bind fun w v h => ?_
  rw [h.release]
  cases w.release.bump with
  | some bump => exact follows_release hreal hknown tagFormat bump
  | none =>
    simp only [perform_bind, perform_world, perform_say, perform_pure]
    refine follows_get_bind fun w v h => ?_
    refine follows_bind (follows_log _ _ _ _) fun _ _ => ?_
    exact follows_pure fun w v h => ⟨rfl, tag, h⟩

end Release

end Lifecycle

/-- Both runs begin in one world, where they build the same steps. -/
theorem follows_procedure (hover : registry.Over knownPlugins) (hreal : s.dryRun = false) :
    Follows (fun w v => w = v ∧ Mirrors table before tag w v) ((c.procedure registry s).perform s)
      ((c.procedure registry s.rehearsal).perform s.rehearsal)
      fun a b w v => a = b ∧ ∃ tag, Mirrors table before tag w v := by
  simp only [ReleaseConfig.procedure, perform_bind, perform_world]
  refine follows_get_bind ?_
  rintro w _ ⟨rfl, -⟩
  cases c.matcher? w.release.branch with
  | none =>
    simp only [perform_bind, perform_say, perform_pure]
    refine follows_weaken (fun w v h => h.2) ?_
    refine follows_bind (follows_log _ _ _ _) fun _ _ => ?_
    exact follows_pure fun w v h => ⟨rfl, tag, h⟩
  | some m =>
    simp only [perform_bind, perform_changeRelease, perform_world, perform_ofExcept]
    have hchannel (f : Release → Release) (hf : ∀ r, r.gitTag = tag → (f r).gitTag = tag) :
        Follows (fun w v => w = v ∧ Mirrors table before tag w v) (changeRelease f)
          (changeRelease f) fun _ _ w v => w = v ∧ Mirrors table before tag w v := by
      rintro w _ a w' ⟨rfl, h⟩ hx
      obtain ⟨_, v', hv, hmirrors⟩ := follows_changeRelease hf w w a w' h hx
      cases hx
      cases hv
      exact ⟨(), _, rfl, rfl, hmirrors⟩
    refine follows_bind (hchannel _ fun _ h => h) fun _ _ => ?_
    refine follows_get_bind ?_
    rintro w _ ⟨rfl, -⟩
    cases hsteps : Lifecycle.buildSteps registry s w c with
    | error e => exact follows_throw e
    | ok steps =>
      rw [buildSteps_rehearsal hover hsteps]
      have hknown := fun n hn => known_of_buildSteps (n := n) hover hsteps hn
      exact follows_weaken (fun w v h => h.2) (Lifecycle.follows_runSteps hreal hknown c.tagFormat)

/-- A rehearsal of a run that returns has the same outcome and notes the same of the release. Its
commands are those by which the real run asks for tags, commits and the status. -/
theorem rehearsal_of_run {outcome : Outcome} {w₁ : World}
    (hplugins : plugins ⊆ knownPlugins) (hregistry : Registry.ofPlugins plugins = .ok registry)
    (hreal : s.dryRun = false) (hanswers : w.answers = fun argv _ => table argv)
    (hrun : c.run registry s w = .ok outcome w₁) :
    ∃ w₂, c.run registry s.rehearsal w = .ok outcome w₂ ∧ w₂.release = w₁.release ∧
      commandsOf ((c.run registry s.rehearsal).shown w) =
        readingsOf ((c.run registry s).shown w) := by
  have hmirrors : Mirrors table w.events w.release.gitTag w w :=
    ⟨rfl, rfl, hanswers, hanswers, [], [], (List.append_nil _).symm, (List.append_nil _).symm, rfl⟩
  obtain ⟨_, w₂, hrehearsal, rfl, tag, h⟩ :=
    follows_procedure (over_known hplugins hregistry) hreal w w outcome w₁ ⟨rfl, hmirrors⟩ hrun
  obtain ⟨es, fs, hes, hfs, hasked⟩ := h.events
  refine ⟨w₂, hrehearsal, h.release, ?_⟩
  rw [shown_of_append ((after_of_ok hrehearsal).symm ▸ hfs),
    shown_of_append ((after_of_ok hrun).symm ▸ hes), hasked]

theorem rehearsal_of_mainConfig : ∃ outcome w₁ w₂,
    mainConfig.run knownRegistry { root := .ofText "/repo" } (featureWorld []) = .ok outcome w₁ ∧
    mainConfig.run knownRegistry { root := .ofText "/repo", dryRun := true } (featureWorld []) =
      .ok outcome w₂ ∧ w₂.release = w₁.release := by
  have hok : (match mainConfig.run knownRegistry { root := .ofText "/repo" } (featureWorld []) with
      | .ok _ _ => true
      | .error _ _ => false) = true := by decide +kernel
  cases hrun : mainConfig.run knownRegistry { root := .ofText "/repo" } (featureWorld []) with
  | error e w₁ =>
    rw [hrun] at hok
    cases hok
  | ok outcome w₁ =>
    obtain ⟨w₂, hrehearsal, hrelease, -⟩ :=
      rehearsal_of_run (fun _ h => h) ofPlugins_knownPlugins rfl rfl hrun
    exact ⟨outcome, w₁, w₂, rfl, hrehearsal, hrelease⟩

end ReleasePipeline
