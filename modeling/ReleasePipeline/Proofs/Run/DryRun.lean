import ReleasePipeline.Proofs.Plugin.Effects
import ReleasePipeline.Proofs.Run.Course
import ReleasePipeline.Proofs.Run.Replay

/-! A dry run asks the repository three questions and changes nothing. -/
namespace ReleasePipeline

variable {c : ReleaseConfig} {registry : Registry} {plugins : List Plugin}
  {s : Settings} {w : World}

namespace Git

/-- The commands that ask the repository for its tags, its commits and its status. -/
inductive IsQuery : List String → Prop
  | tags : IsQuery ["git", "tag", "--list", "--merged", "HEAD"]
  | log (range : String) : IsQuery ["git", "log", logFormat, range]
  | status (rest : List String) : IsQuery ("git" :: "status" :: "--porcelain" :: "-z" :: rest)

theorem isQuery_of_stepCommand {argv : List String} (h : StepCommand true argv) : IsQuery argv := by
  rcases h with ⟨paths, rfl⟩ | ⟨hreal, _⟩
  · exact .status _
  · cases hreal

end Git

namespace World

/-- Commands that write nothing leave the files as they are. -/
theorem files_replay (hanswers : ∀ argv before, (w.answers argv before).writes = [])
    (es : List Event) : (w.replay es).files = w.files := by
  induction es generalizing w with
  | nil => rfl
  | cons e es ih =>
    cases e with
    | message level text => exact ih hanswers
    | run c =>
      have hfiles : (w.executed c).files = w.files := by
        rw [executed, hanswers]
        rfl
      exact (ih (w := w.executed c) hanswers).trans hfiles

/-- From one world to the other there is nothing but questions, messages and what is noted of the
release. -/
def Asks (w w' : World) : Prop := ∃ es, (∀ c, Event.run c ∈ es → Git.IsQuery c.argv) ∧
  w' = { w.replay es with release := w'.release }

instance : IsPreorder World Asks := inferInstanceAs (IsPreorder World (Replays Git.IsQuery))

theorem asks_update (w : World) (release : Release) : Asks w { w with release } :=
  replays_update w release

theorem admits_asks : Admits Asks False Git.IsQuery := admits_replays

theorem admitsSteps_asks (hdry : s.dryRun = true) : AdmitsSteps Asks s where
  message := admits_asks.message
  files h := by
    rw [hdry] at h
    cases h
  run w c hc := by
    rw [hdry] at hc
    exact admits_asks.run w c (Git.isQuery_of_stepCommand hc)
  bump w bump := asks_update w _
  notes w notes := asks_update w _
  push hreal := by
    rw [hdry] at hreal
    cases hreal

end World

open World

theorem keeps_course (hover : registry.Over knownPlugins) (hdry : s.dryRun = true)
    {since : Option String} {tag : String} {m : Move} (hm : m ∈ c.course registry s w since tag) :
    Action.Keeps Asks (m.perform s) := by
  rcases ReleaseConfig.mem_course hm with ⟨_, steps, hsteps, n, hn, index, phase, rfl⟩ | rfl | rfl |
    ⟨hreal, _⟩
  · exact keeps_apply (admitsSteps_asks hdry) (known_of_buildSteps hover hsteps hn)
  · exact Git.keeps_read admits_asks .tags
  · exact Git.keeps_read admits_asks (.log _)
  · rw [hdry] at hreal
    cases hreal

theorem asks_run (hover : registry.Over knownPlugins) (hdry : s.dryRun = true) :
    Asks w ((c.run registry s).after w) := by
  obtain ⟨since, tag, hcourse⟩ := ReleaseConfig.carries_course c registry s w
  have hmade := (Procedure.moves_of_carries hcourse).subset
  refine (Procedure.passes_moves (c.procedure registry s) w).related admits_asks.message
    asks_update fun m hm => ?_
  exact keeps_course hover hdry (hmade (List.mem_map_of_mem hm))

/-- A dry run with the known plugins executes only commands that ask for tags, commits and the
status. No file changes but by what these write, whether the run returns or fails. -/
theorem dry_run_only_asks (hplugins : plugins ⊆ knownPlugins)
    (hregistry : Registry.ofPlugins plugins = .ok registry) (hdry : s.dryRun = true)
    (c : ReleaseConfig) (w : World) :
    let run := c.run registry s
    (∀ command, .run command ∈ run.shown w → Git.IsQuery command.argv) ∧
    (run.after w).files = (w.replay (run.shown w)).files ∧
    ((∀ argv before, (w.answers argv before).writes = []) → (run.after w).files = w.files) := by
  intro run
  obtain ⟨es, hes, hafter⟩ := asks_run (c := c) (w := w) (over_known hplugins hregistry) hdry
  have hevents : (run.after w).events = w.events ++ es := by
    rw [hafter]
    exact events_replay w es
  have hfiles : (run.after w).files = (w.replay es).files := by rw [hafter]
  rw [Action.shown_of_append hevents]
  refine ⟨hes, hfiles, fun hanswers => ?_⟩
  rw [hfiles, files_replay hanswers]

theorem dry_run_only_asks_mainConfig :
    let run := mainConfig.run knownRegistry { root := .ofText "/repo", dryRun := true }
    (commandsOf (run.shown (featureWorld []))).map (·.argv) =
      [["git", "tag", "--list", "--merged", "HEAD"], ["git", "log", Git.logFormat, "HEAD"],
       ["git", "status", "--porcelain", "-z", "--untracked-files=all", "--", "CHANGELOG.md"]] ∧
    (∀ command, .run command ∈ run.shown (featureWorld []) → Git.IsQuery command.argv) ∧
    (run.after (featureWorld [])).files =
      ((featureWorld []).replay (run.shown (featureWorld []))).files := by
  intro run
  have hasks := dry_run_only_asks (fun _ h => h) ofPlugins_knownPlugins
    (s := { root := .ofText "/repo", dryRun := true }) rfl mainConfig (featureWorld [])
  refine ⟨?_, hasks.1, hasks.2.1⟩
  decide +kernel

end ReleasePipeline
