import ReleasePipeline.Proofs.Plugin.Effects
import ReleasePipeline.Proofs.Run.Mirror

/-! In a rehearsal each known step notes and asks the same as in a real run. -/
namespace ReleasePipeline

open ReleasePipeline.Action

variable {table : List String → Answer} {before : List Event} {tag : Option String} {s : Settings}
  {phase : Phase}

theorem isReading_of_stepWork {argv : List String} (h : StepWork argv) :
    Git.isReading argv = false := by
  cases h <;> rfl

/-- Two actions keep the worlds of a real run and its rehearsal together. -/
def Rehearses (table : List String → Answer) (before : List Event) (tag : Option String)
    (x y : Action String) : Prop :=
  Follows (Mirrors table before tag) x y fun _ _ => Mirrors table before tag

theorem rehearses_analysis (rules : List Rule) : Rehearses table before tag
    ((CommitAnalyzer.step rules).apply s phase)
    ((CommitAnalyzer.step rules).apply s.rehearsal phase) := by
  refine follows_bind_same follows_release fun r => ?_
  refine follows_bind (follows_changeRelease fun _ h => h) fun _ _ => ?_
  exact follows_pure fun w v h => h

theorem rehearses_notes (types : List NoteType) (url : Option String) : Rehearses table before tag
    ((NotesGenerator.step types url).apply s phase)
    ((NotesGenerator.step types url).apply s.rehearsal phase) := by
  refine follows_bind_same follows_release fun r => follows_bind_same follows_nextText fun version => ?_
  refine follows_bind (follows_changeRelease fun _ h => h) fun _ _ => ?_
  exact follows_pure fun w v h => h

theorem rehearses_changelog (file : String) (title : Option String) : Rehearses table before tag
    ((Changelog.step file title).apply s phase)
    ((Changelog.step file title).apply s.rehearsal phase) :=
  follows_silent _ (keeps_changelog admits_silent (fun _ => trivial) file title)

section Real

variable (hreal : s.dryRun = false)

include hreal

theorem rehearses_exec (commands : List (Phase × String)) (cwd : Option String) :
    Rehearses table before tag ((Exec.step commands cwd).apply s phase)
      ((Exec.step commands cwd).apply s.rehearsal phase) := by
  simp only [Rehearses, Exec.step]
  cases commands.lookup phase with
  | none => exact follows_throw _
  | some text =>
    refine follows_bind_same (follows_fillIn text) fun command => ?_
    simp only [hreal, Settings.rehearsal_dryRun, Bool.false_eq_true, if_false, if_true]
    exact follows_silent _
      (keeps_runCommand admits_silent (isReading_of_stepWork (.script _)) _ _)

theorem rehearses_github (specs : List GitHubRelease.AssetSpec) : Rehearses table before tag
    ((GitHubRelease.step specs).apply s phase)
    ((GitHubRelease.step specs).apply s.rehearsal phase) := by
  simp only [Rehearses, GitHubRelease.step]
  split
  · exact follows_silent _ (keeps_verify admits_silent fun _ => isReading_of_stepWork .login)
  · refine follows_bind_same follows_release fun r => ?_
    cases r.gitTag with
    | none => exact follows_throw _
    | some name =>
      simp only [hreal, Settings.rehearsal_dryRun, Bool.false_eq_true, if_false, if_true]
      exact follows_silent _
        (keeps_publishTag admits_silent (fun _ _ h => isReading_of_stepWork h) hreal specs name)

theorem rehearses_commit (assets : List String) (message : String) : Rehearses table before tag
    ((GitCommit.step assets message).apply s phase)
    ((GitCommit.step assets message).apply s.rehearsal phase) := by
  have hchanged : Follows (Mirrors table before tag) (Git.changedFiles s assets)
      (Git.changedFiles s.rehearsal assets)
      fun a b w v => a = b ∧ Mirrors table before tag w v := by
    refine follows_bind_same (follows_read rfl) fun output => ?_
    exact follows_pure fun w v h => ⟨rfl, h⟩
  refine follows_bind_same hchanged fun changed => ?_
  by_cases hnone : changed.isEmpty
  · simp only [hnone, if_true]
    exact follows_pure fun w v h => h
  · simp only [hnone, hreal, Settings.rehearsal_dryRun, Bool.false_eq_true, if_false, if_true]
    have hpush : Keeps Silent (do Git.push s s.remote (← Action.release).branch) :=
      Git.keeps_push admits_silent.message fun _ w c hc => admits_silent.run w c (hc ▸ rfl)
    exact follows_silent _
      (keeps_commitFiles admits_silent (fun _ _ h => isReading_of_stepWork h) hpush changed message _)

theorem rehearses_manifests (files : List String) : Rehearses table before tag
    ((CargoVersion.step files).apply s phase)
    ((CargoVersion.step files).apply s.rehearsal phase) := by
  refine follows_bind_same follows_nextText fun version => ?_
  simp only [hreal, Settings.rehearsal_dryRun, Bool.false_eq_true, if_false, if_true]
  exact follows_silent _
    (keeps_setVersions admits_silent (fun _ => trivial) hreal version _ files)

theorem rehearses_apply {st : Step} (hst : st.Known) :
    Rehearses table before tag (st.apply s phase) (st.apply s.rehearsal phase) := by
  cases hst with
  | analysis rules => exact rehearses_analysis rules
  | notes types url => exact rehearses_notes types url
  | changelog file title => exact rehearses_changelog file title
  | exec commands cwd => exact rehearses_exec hreal commands cwd
  | github specs => exact rehearses_github hreal specs
  | commit assets message => exact rehearses_commit hreal assets message
  | manifests files => exact rehearses_manifests hreal files

end Real

end ReleasePipeline
