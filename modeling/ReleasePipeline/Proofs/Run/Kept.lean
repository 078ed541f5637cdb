import ReleasePipeline.Proofs.Plugin.Effects
import ReleasePipeline.Proofs.Run.Course

/-! A relation that allows what the known steps do and what a run does by itself is kept by the
run. -/
namespace ReleasePipeline

open ReleasePipeline.Action Procedure

/-- The relation allows what a run does once it knows the last release. -/
structure AdmitsRelease (R : World → World → Prop) (s : Settings) : Prop extends
    AdmitsSteps R s where
  nextVersion : ∀ w nextVersion, R w { w with release := { w.release with nextVersion } }
  gitTag : ∀ w gitTag, R w { w with release := { w.release with gitTag } }
  tag : s.dryRun = false → ∀ w c name,
    c.argv = "git" :: Git.tagging name ∨ c.argv = "git" :: Git.tagPush s.remote name →
    R w (w.executed c)

/-- The relation allows what a run does on its branch. -/
structure AdmitsRun (R : World → World → Prop) (s : Settings) : Prop extends
    AdmitsRelease R s where
  learn : ∀ w release, release.branch = w.release.branch → R w { w with release }
  ask : ∀ w c, c.argv = "git" :: Git.tagListing ∨ (∃ since, c.argv = "git" :: Git.commitListing since) →
    R w (w.executed c)

variable {R : World → World → Prop} [IsPreorder World R] {s : Settings} {steps : List NamedStep}
  {phase : Phase} {format : String} {c : ReleaseConfig} {registry : Registry}

namespace Lifecycle

/-- A phase keeps what the known steps keep. -/
theorem keeps_runPhase (h : AdmitsSteps R s) (hknown : ∀ n ∈ steps, n.step.Known) :
    Keeps R ((runPhase steps phase).perform s) := by
  refine keeps_iff_relates.mpr (relates_runPhase (fun level text => ?_) fun n hn _ => ?_)
  · exact keeps_iff_relates.mp (keeps_log h.toAdmits level text)
  · exact keeps_iff_relates.mp (keeps_apply h (hknown n hn))

section Release

variable (h : AdmitsRelease R s)

include h

theorem keeps_decideVersion (bump : BumpKind) : Keeps R ((decideVersion format bump).perform s) := by
  simp only [decideVersion, perform_bind, perform_ofExcept, perform_changeRelease, perform_world,
    perform_say, perform_pure]
  refine keeps_bind keeps_get fun w => keeps_bind (keeps_ofExcept _) fun v => ?_
  refine keeps_bind (fun w => h.nextVersion w _) fun _ => keeps_bind (keeps_ofExcept _) fun tag => ?_
  refine keeps_bind (fun w => h.gitTag w _) fun _ => ?_
  exact keeps_bind (keeps_log h.toAdmits _ _) fun _ => keeps_pure _

theorem keeps_makeTag : Keeps R ((makeTag s).perform s) := by
  simp only [makeTag, perform_bind, perform_world]
  refine keeps_bind keeps_get fun w => ?_
  split
  · exact keeps_log h.toAdmits _ _
  · rename_i hreal
    split
    · exact keeps_throw _
    · rename_i tag _
      have htags : Admits R False fun argv =>
          argv = "git" :: Git.tagging tag ∨ argv = "git" :: Git.tagPush s.remote tag :=
        { message := h.message
          files := False.elim
          run := fun w c hc => h.tag (Bool.eq_false_iff.mpr hreal) w c tag hc }
      have hchange {args : List String} (hargs : "git" :: args = "git" :: Git.tagging tag ∨
          "git" :: args = "git" :: Git.tagPush s.remote tag) :
          Keeps R ((Move.change args).perform s) :=
        keeps_bind (Git.keeps_change htags fun _ => hargs) fun _ => keeps_pure _
      simp only [perform_bind, perform_act, perform_say]
      refine keeps_bind (hchange (.inl rfl)) fun _ => keeps_bind (hchange (.inr rfl)) fun _ => ?_
      exact keeps_log h.toAdmits _ _

theorem keeps_release (hknown : ∀ n ∈ steps, n.step.Known) (bump : BumpKind) :
    Keeps R ((release s format steps bump).perform s) := by
  have hphase (phase : Phase) : Keeps R ((runPhase steps phase).perform s) :=
    keeps_runPhase h.toAdmitsSteps hknown
  simp only [release, perform_bind, perform_world, perform_pure]
  refine keeps_bind (keeps_decideVersion h bump) fun v => ?_
  refine keeps_bind (hphase .generateNotes) fun _ => keeps_bind (hphase .prepare) fun _ => ?_
  refine keeps_bind (keeps_makeTag h) fun _ => keeps_bind (hphase .publish) fun _ => ?_
  exact keeps_bind keeps_get fun _ => keeps_pure _

end Release

section Run

variable (h : AdmitsRun R s)

include h

theorem keeps_ask {args : List String} (hargs : "git" :: args = "git" :: Git.tagListing ∨
    ∃ since, "git" :: args = "git" :: Git.commitListing since) : Keeps R (Git.read s args) := by
  have hask : Admits R False fun argv =>
      argv = "git" :: Git.tagListing ∨ ∃ since, argv = "git" :: Git.commitListing since :=
    { message := h.message, files := False.elim, run := h.ask }
  exact Git.keeps_read hask hargs

/-- What holds once the tags are listed is kept by the rest of the reading. -/
theorem meets_listing {P Q E : World → Prop}
    (hlisting : Meets P (Git.read s Git.tagListing) (fun _ => Q) E)
    (hQ : ∀ w w', Q w → R w w' → Q w') (hE : ∀ w, Q w → E w) :
    Meets P ((readHistory format).perform s) (fun _ => Q) E := by
  simp only [readHistory, perform_bind, perform_act, perform_ofExcept, perform_changeRelease,
    perform_world, perform_say]
  refine meets_bind hlisting fun tags => meets_of_kept (R := R) ?_ hQ hE
  refine keeps_bind (keeps_ofExcept _) fun versions => ?_
  refine keeps_bind (fun w => h.learn w _ rfl) fun _ => keeps_bind keeps_get fun w => ?_
  refine keeps_bind (keeps_ofExcept _) fun since => keeps_bind (fun w => h.learn w _ rfl) fun _ => ?_
  refine keeps_bind (keeps_ask h (.inr ⟨since, rfl⟩)) fun commits => ?_
  exact keeps_bind (fun w => h.learn w _ rfl) fun _ => keeps_log h.toAdmits _ _

theorem keeps_readHistory : Keeps R ((readHistory format).perform s) := fun w =>
  have hlisting : Meets (R w) (Git.read s Git.tagListing) (fun _ => R w) (R w) :=
    meets_of_kept (keeps_ask h (.inl rfl)) (fun _ _ => trans_of R) fun _ hw => hw
  after_of_meets (meets_listing h hlisting (fun _ _ => trans_of R) fun _ hw => hw) (refl_of R w)

theorem keeps_runSteps (hknown : ∀ n ∈ steps, n.step.Known) :
    Keeps R ((runSteps s format steps).perform s) := by
  have hphase (phase : Phase) : Keeps R ((runPhase steps phase).perform s) :=
    keeps_runPhase h.toAdmitsSteps hknown
  simp only [runSteps, analyze, perform_bind, perform_world, bind_assoc]
  refine keeps_bind (hphase .verify) fun _ => keeps_bind (keeps_readHistory h) fun _ => ?_
  refine keeps_bind (hphase .analyze) fun _ => keeps_bind keeps_get fun w => ?_
  cases w.release.bump with
  | some bump => exact keeps_release h.toAdmitsRelease hknown bump
  | none =>
    simp only [perform_bind, perform_world, perform_say, perform_pure]
    refine keeps_bind keeps_get fun w => ?_
    exact keeps_bind (keeps_log h.toAdmits _ _) fun _ => keeps_pure _

end Run

variable {w w' : World} {outcome : Outcome}

/-- A run of steps ends after the analysis, or it makes a release of the bump that was found. -/
theorem runSteps_eq_ok (h : (runSteps s format steps).perform s w = .ok outcome w') :
    ∃ w₁, (analyze format steps).perform s w = .ok () w₁ ∧
      ((outcome = .noChanges ∧ ∃ text, w' = w₁.recorded (.message .info text)) ∨
        ∃ bump, (release s format steps bump).perform s w₁ = .ok outcome w') := by
  simp only [runSteps, perform_bind, perform_world, bind_apply_eq_ok] at h
  obtain ⟨_, w₁, hanalyze, known, _, hget, h⟩ := h
  cases hget
  refine ⟨w₁, hanalyze, ?_⟩
  cases hbump : w₁.release.bump with
  | none =>
    simp only [hbump, perform_bind, perform_world, perform_say, perform_pure, bind_apply_eq_ok] at h
    obtain ⟨_, _, hget, _, _, hlog, hend⟩ := h
    cases hget
    cases hlog
    cases hend
    exact .inl ⟨rfl, _, rfl⟩
  | some bump =>
    simp only [hbump] at h
    exact .inr ⟨bump, h⟩

end Lifecycle

namespace ReleaseConfig

/-- A run keeps what is allowed of all that it does. -/
theorem keeps_run (h : AdmitsRun R s) (hover : registry.Over knownPlugins) :
    Keeps R (c.run registry s) := by
  simp only [run, procedure, perform_bind, perform_world]
  refine keeps_bind keeps_get fun w => ?_
  cases c.matcher? w.release.branch with
  | none =>
    simp only [perform_bind, perform_say, perform_pure]
    exact keeps_bind (keeps_log h.toAdmits _ _) fun _ => keeps_pure _
  | some m =>
    simp only [perform_bind, perform_changeRelease, perform_world, perform_ofExcept]
    refine keeps_bind (fun w => h.learn w _ rfl) fun _ => keeps_bind keeps_get fun w => ?_
    refine keeps_ofExcept_bind fun steps hsteps => ?_
    exact Lifecycle.keeps_runSteps h fun n hn => known_of_buildSteps hover hsteps hn

/-- Where no matcher accepts its branch, a run ends with a message. -/
theorem run_of_matcher?_eq_none {w : World} (h : c.matcher? w.release.branch = none) :
    ∃ text, c.run registry s w = .ok .otherBranch (w.recorded (.message .info text)) := by
  have hget : (get : Action World) w = .ok w w := rfl
  simp only [run, procedure, perform_bind, perform_world, bind_apply, hget, h]
  exact ⟨_, rfl⟩

/-- A run whose steps are not made fails like the making of its steps. -/
theorem run_of_buildSteps_error {w : World} {m : BranchMatcher} {e : Failure}
    (hmatcher : c.matcher? w.release.branch = some m)
    (h : Lifecycle.buildSteps registry s (w.onBranch m) c = .error e) :
    c.run registry s w = .error e (w.onBranch m) := by
  simp only [run, procedure, perform_bind, perform_world, bind_apply_eq_error]
  refine .inr ⟨w, w, rfl, ?_⟩
  simp only [hmatcher, perform_bind, perform_changeRelease, perform_world, perform_ofExcept,
    bind_apply_eq_error]
  refine .inr ⟨(), w.onBranch m, rfl, .inr ⟨_, _, rfl, .inl ?_⟩⟩
  rw [h]
  rfl

/-- A run ends at the check of its branch, or it makes its steps and runs them. -/
theorem run_eq_ok {w w' : World} {outcome : Outcome} (h : c.run registry s w = .ok outcome w') :
    (c.matcher? w.release.branch = none ∧ outcome = .otherBranch ∧
      ∃ text, w' = w.recorded (.message .info text)) ∨
    ∃ m steps, c.matcher? w.release.branch = some m ∧
      Lifecycle.buildSteps registry s (w.onBranch m) c = .ok steps ∧
      (Lifecycle.runSteps s c.tagFormat steps).perform s (w.onBranch m) = .ok outcome w' := by
  simp only [run, procedure, perform_bind, perform_world, bind_apply_eq_ok] at h
  obtain ⟨known, _, hget, h⟩ := h
  cases hget
  cases hmatcher : c.matcher? w.release.branch with
  | none =>
    simp only [hmatcher, perform_bind, perform_say, perform_pure, bind_apply_eq_ok] at h
    obtain ⟨_, _, hlog, hend⟩ := h
    cases hlog
    cases hend
    exact .inl ⟨rfl, rfl, _, rfl⟩
  | some m =>
    simp only [hmatcher, perform_bind, perform_changeRelease, perform_world, perform_ofExcept,
      bind_apply_eq_ok, ofExcept_eq_ok] at h
    obtain ⟨_, _, hbranch, _, _, hget, steps, _, ⟨hsteps, rfl⟩, h⟩ := h
    cases hbranch
    cases hget
    exact .inr ⟨m, steps, rfl, hsteps, h⟩

end ReleaseConfig

end ReleasePipeline
