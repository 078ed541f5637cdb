import ReleasePipeline.Proofs.Run.Discovery
import ReleasePipeline.Proofs.Run.Stopping
import ReleasePipeline.Proofs.Tool.CommitListing

/-! Which commits a run finds: those of the log that it was answered with. -/
namespace ReleasePipeline

open ReleasePipeline.Action Procedure

variable {c : ReleaseConfig} {registry : Registry} {plugins : List Plugin} {s : Settings}
  {steps : List NamedStep} {w w' w₀ : World} {format : String} {since : Option String}

namespace Git

/-- The world after a question to the repository. -/
def learned (s : Settings) (args : List String) (w : World) : World :=
  (told args w).executed (command s args)

/-- What a question to the repository is answered. -/
def answer (s : Settings) (args : List String) (w : World) : Answer :=
  (told args w).answerTo (command s args)

/-- A log of entries that is shown is read as their hashes and their messages. -/
theorem log_of_shows {entries : List LogEntry}
    (h : (answer s (commitListing since) w).Shows (logText entries)) :
    log s since w = .ok (entries.map fun e => (e.sha, Text.strip (Text.unified e.message)))
      (learned s (commitListing since) w) := by
  have hread : read s (commitListing since) w =
      .ok (Text.unified (logText entries)) (learned s (commitListing since) w) := by
    rw [← h.output]
    exact read_of_serves h.1
  rw [log, bind_apply, hread, ← commitsOf_unified_logText]
  rfl

theorem asked_of_run {es : List Event} {command : Command} (hrun : .run command ∈ es)
    (hcommand : command.argv = "git" :: commitListing since) :
    "git" :: commitListing since ∈ asked es := by
  have hmem : command ∈ commandsOf es := List.mem_filterMap.mpr ⟨.run command, hrun, rfl⟩
  rw [asked, List.mem_filter]
  exact ⟨hcommand ▸ List.mem_map_of_mem hmem, rfl⟩

end Git

/-- The commits of a log. -/
def Lifecycle.commitsIn (log : String) : List Commit :=
  (Git.commitsOf log).map fun (sha, message) => .ofMessage sha message

/-- Since the world `w₀` nobody has asked for the commits. -/
structure Unread (w₀ w : World) : Prop where
  answers : w.answers = w₀.answers
  events : ∃ es, w.events = w₀.events ++ es ∧ ∀ since, "git" :: Git.commitListing since ∉ Git.asked es

/-- Since the world `w₀` nobody has asked for the commits, or somebody has asked once, and they are
those of the log if there was one. -/
inductive Gathered (s : Settings) (w₀ w : World) : Prop
  | unread (h : Unread w₀ w)
  | asked {u : World} {since : Option String} {fs : List Event} (hu : Unread w₀ u)
    (hevents : w.events = (Git.learned s (Git.commitListing since) u).events ++ fs)
    (hnone : Git.asked fs = [])
    (hcommits : (Git.answer s (Git.commitListing since) u).Serves → w.release.commits =
      Lifecycle.commitsIn (Git.answer s (Git.commitListing since) u).output)

theorem unread_of_elsewhere (h : Unread w₀ w) (hw : Elsewhere w w') : Unread w₀ w' := by
  obtain ⟨es, hes, hnever⟩ := h.events
  obtain ⟨fs, hfs, hnone⟩ := hw.events
  refine ⟨hw.answers.trans h.answers, es ++ fs, by rw [hfs, hes, List.append_assoc], ?_⟩
  intro since
  rw [Git.asked_append, hnone, List.append_nil]
  exact hnever since

theorem gathered_of_elsewhere (h : Gathered s w₀ w) (hw : Elsewhere w w') : Gathered s w₀ w' := by
  cases h with
  | unread h => exact .unread (unread_of_elsewhere h hw)
  | asked hu hevents hnone hcommits =>
    obtain ⟨fs, hfs, hmore⟩ := hw.events
    refine .asked hu (by rw [hfs, hevents, List.append_assoc]) ?_ fun hserves => ?_
    · rw [Git.asked_append, hnone, hmore]
      rfl
    · exact hw.commits.trans (hcommits hserves)

namespace Lifecycle

/-- The question for the tags is none for the commits. -/
theorem meets_askTags_unread :
    Meets (Unread w₀) ((Move.ask Git.tagListing).perform s) (fun _ => Unread w₀)
      (Gathered s w₀) := by
  refine meets_of_after (fun w h => ?_) fun _ => .unread
  obtain ⟨es, hes, hnever⟩ := h.events
  rw [Move.perform, Git.after_read]
  refine ⟨h.answers, es ++ [Git.announcement Git.tagListing, .run (Git.command s Git.tagListing)], ?_,
    fun since hmem => ?_⟩
  · simp [World.executed, World.recorded, Git.told, hes]
  · rw [Git.asked_append, List.mem_append] at hmem
    rcases hmem with hbefore | hnow
    · exact hnever since hbefore
    · have hlisting : Git.asked [Git.announcement Git.tagListing,
          .run (Git.command s Git.tagListing)] = ["git" :: Git.tagListing] := rfl
      rw [hlisting, List.mem_singleton] at hnow
      simp [Git.commitListing, Git.tagListing] at hnow

/-- The question for the commits is answered with the log, or the run ends. -/
theorem meets_askLog (since : Option String) :
    Meets (Unread w₀) ((Move.ask (Git.commitListing since)).perform s)
      (fun log w => ∃ u, Unread w₀ u ∧ w = Git.learned s (Git.commitListing since) u ∧
        ((Git.answer s (Git.commitListing since) u).Serves →
          log = (Git.answer s (Git.commitListing since) u).output))
      (Gathered s w₀) := by
  intro u hu
  have hafter : (Git.read s (Git.commitListing since)).after u =
      Git.learned s (Git.commitListing since) u := Git.after_read _ _
  rw [Move.perform]
  by_cases hserves : (Git.answer s (Git.commitListing since) u).Serves
  · rw [Git.read_of_serves hserves]
    exact ⟨u, hu, rfl, fun _ => rfl⟩
  · cases hread : Git.read s (Git.commitListing since) u with
    | ok log w' =>
      rw [after_of_ok hread] at hafter
      exact ⟨u, hu, hafter, fun h => absurd h hserves⟩
    | error e w' =>
      rw [after_of_error hread] at hafter
      have hevents : w'.events = (Git.learned s (Git.commitListing since) u).events ++ [] := by
        rw [hafter, List.append_nil]
      exact .asked hu hevents rfl fun h => absurd h hserves

theorem gathered_readHistory :
    Meets (Unread w₀) ((readHistory format).perform s) (fun _ => Gathered s w₀)
      (Gathered s w₀) := by
  simp only [readHistory, perform_bind, perform_act, perform_ofExcept, perform_changeRelease,
    perform_world, perform_say]
  refine meets_bind meets_askTags_unread fun listing => ?_
  refine meets_bind (meets_ofExcept fun _ => .unread) fun versions => meets_of_fact fun _ => ?_
  refine meets_bind (meets_changeRelease (Q := Unread w₀) fun w h => ⟨h.answers, h.events⟩) fun _ => ?_
  refine meets_get_bind fun w hw => ?_
  refine meets_bind (meets_ofExcept fun _ => .unread) fun since => meets_of_fact fun _ => ?_
  refine meets_bind (meets_changeRelease (Q := Unread w₀) fun w h => ⟨h.answers, h.events⟩) fun _ => ?_
  refine meets_bind (meets_askLog since) fun log => ?_
  refine meets_bind (meets_changeRelease (Q := Gathered s w₀) fun w h => ?_) fun _ =>
    meets_of_kept (keeps_log admits_elsewhere _ _) (fun _ _ => gathered_of_elsewhere) fun _ h => h
  obtain ⟨u, hu, rfl, hlog⟩ := h
  refine .asked hu (List.append_nil _).symm rfl fun hserves => ?_
  rw [← hlog hserves]
  rfl

end Lifecycle

namespace ReleaseConfig

theorem gathered_run (hover : registry.Over knownPlugins) :
    Gathered s w ((c.run registry s).after w) := by
  have hstart : Unread w w := ⟨rfl, [], (List.append_nil _).symm, fun _ h => nomatch h⟩
  refine after_run_of_history hover (fun _ _ => unread_of_elsewhere) (fun _ => .unread)
    (fun _ _ => gathered_of_elsewhere) Lifecycle.gathered_readHistory (.unread hstart) fun m hm => ?_
  exact ⟨rfl, [], (List.append_nil _).symm, fun _ h => nomatch h⟩

/-- A command of a run that asks for the commits is the only one that does so. -/
theorem commits_of_log {before after : List Event} {command : Command}
    (hover : registry.Over knownPlugins)
    (hshown : (c.run registry s).shown w = before ++ .run command :: after)
    (hcommand : command.argv = "git" :: Git.commitListing since)
    (hserves : (w.answerAfter before command).Serves) :
    ((c.run registry s).after w).release.commits =
      Lifecycle.commitsIn (w.answerAfter before command).output := by
  cases gathered_run (c := c) (s := s) (w := w) hover with
  | unread h =>
    obtain ⟨es, hes, hnever⟩ := h.events
    have hrun : Event.run command ∈ es := by
      rw [← shown_of_append hes, hshown]
      exact List.mem_append_right before List.mem_cons_self
    exact absurd (Git.asked_of_run hrun hcommand) (hnever since)
  | @asked u since' fs hu hevents hnone hcommits =>
    obtain ⟨es, hes, hnever⟩ := hu.events
    let announced := es ++ [Git.announcement (Git.commitListing since')]
    have htold : (Git.told (Git.commitListing since') u).events = w.events ++ announced := by
      rw [← List.append_assoc, ← hes]
      rfl
    have hfinal : ((c.run registry s).after w).events =
        w.events ++ (announced ++ .run (Git.command s (Git.commitListing since')) :: fs) := by
      rw [hevents, ← List.append_assoc, ← htold]
      simp [Git.learned, World.executed, World.recorded]
    have hbefore : Event.run command ∉ announced := by
      intro hrun
      rcases List.mem_append.mp hrun with hrun | hrun
      · exact hnever since (Git.asked_of_run hrun hcommand)
      · simp [Git.announcement] at hrun
    have hafter : Event.run command ∉ fs := by
      intro hrun
      have hasked := Git.asked_of_run hrun hcommand
      rw [hnone] at hasked
      cases hasked
    -- the run asks for the commits once, so its two questions for them are one
    obtain ⟨rfl, hquestion, rfl⟩ := (List.append_cons_inj_of_notMem hbefore hafter).mp
      ((shown_of_append hfinal).symm.trans hshown)
    cases hquestion
    have hanswers : (Git.told (Git.commitListing since') u).answers = w.answers := hu.answers
    have hanswer : Git.answer s (Git.commitListing since') u =
        w.answerAfter announced (Git.command s (Git.commitListing since')) := by
      rw [Git.answer, World.answerTo_eq, World.answerAfter_append hanswers htold, List.append_nil]
    rw [← hanswer] at hserves ⊢
    exact hcommits hserves

/-- A log of entries is read as their hashes and their messages, and a run that it is shown to finds
their commits. Of no message more is lost than the blanks at its ends, and its line endings become line
feeds. -/
theorem log_entries_found (hplugins : plugins ⊆ knownPlugins)
    (hregistry : Registry.ofPlugins plugins = .ok registry) (entries : List Git.LogEntry) :
    (∀ since, (Git.answer s (Git.commitListing since) w).Shows (Git.logText entries) →
      ∃ w', Git.log s since w =
        .ok (entries.map fun e => (e.sha, Text.strip (Text.unified e.message))) w') ∧
    ∀ before command after since,
      (c.run registry s).shown w = before ++ .run command :: after →
      command.argv = "git" :: Git.commitListing since →
      (w.answerAfter before command).Shows (Git.logText entries) →
      ((c.run registry s).after w).release.commits =
        entries.map fun e => .ofMessage e.sha (Text.strip (Text.unified e.message)) := by
  refine ⟨fun since hshows => ⟨_, Git.log_of_shows hshows⟩, ?_⟩
  intro before command after since hshown hcommand hshows
  have hcommits := commits_of_log (over_known hplugins hregistry) hshown hcommand hshows.1
  rw [hcommits, hshows.output, Lifecycle.commitsIn, Git.commitsOf_unified_logText, List.map_map]
  simp only [Function.comp_def]

end ReleaseConfig

/-- Commits whose messages are empty, hold the mark behind a hash, or have line feeds around them. -/
def oddEntries : List Git.LogEntry :=
  [{ sha := "ab12", message := "" },
   { sha := "0F", message := "\n\nfeat: a\x1fb\n\n" },
   { sha := "c3", message := "\x1f\n" }]

/-- A repository with these commits. -/
def loggedWorld (entries : List Git.LogEntry) : World where
  __ := featureWorld []
  answers argv _ :=
    if argv.take 2 = ["git", "log"] then ({ output := (Git.logText entries).toUTF8 } : Printed).read
    else featureAnswer [] argv

theorem shows_logText (entries : List Git.LogEntry) :
    ({ output := (Git.logText entries).toUTF8 } : Printed).read.Shows (Git.logText entries) :=
  Printed.shows_read rfl rfl (textOfBytes_eq_unified "")

theorem odd_entries_found :
    let s : Settings := { root := .ofText "/repo" }
    let w := loggedWorld oddEntries
    (∃ w', Git.log s none w =
      .ok [("ab12", ""), ("0F", "feat: a\x1fb"), ("c3", "")] w') ∧
    ((mainConfig.run knownRegistry s).after w).release.commits =
      [.ofMessage "ab12" "", .ofMessage "0F" "feat: a\x1fb", .ofMessage "c3" ""] := by
  intro s w
  obtain ⟨hlog, hrun⟩ := ReleaseConfig.log_entries_found (c := mainConfig) (s := s) (w := w)
    (fun _ h => h) ofPlugins_knownPlugins oddEntries
  have hmem : .run (Git.command s (Git.commitListing none)) ∈
      (mainConfig.run knownRegistry s).shown w := by decide +kernel
  obtain ⟨before, after, hshown⟩ := List.append_of_mem hmem
  have hfound := hrun before _ after none hshown rfl (shows_logText oddEntries)
  have hmessages : oddEntries.map (fun e => (e.sha, Text.strip (Text.unified e.message))) =
      [("ab12", ""), ("0F", "feat: a\x1fb"), ("c3", "")] := by decide +kernel
  have hread := hlog none (shows_logText oddEntries)
  rw [hmessages] at hread
  refine ⟨hread, hfound.trans ?_⟩
  have hcommits := congrArg (List.map fun p => Commit.ofMessage p.1 p.2) hmessages
  simpa only [List.map_map, Function.comp_def, List.map_cons, List.map_nil] using hcommits

/-- A commit with carriage returns in its message, which is not found with them. -/
def returnedEntries : List Git.LogEntry := [{ sha := "a", message := "feat: a\r\n\r\nbody" }]

theorem returns_read_as_feeds :
    let s : Settings := { root := .ofText "/repo" }
    let w := loggedWorld returnedEntries
    (∃ w', Git.log s none w = .ok [("a", "feat: a\n\nbody")] w') ∧
    ¬ ∃ w', Git.log s none w =
      .ok (returnedEntries.map fun e => (e.sha, Text.strip e.message)) w' := by
  intro s w
  have hlog : Git.log s none w = _ := Git.log_of_shows (shows_logText returnedEntries)
  have hmessages : returnedEntries.map (fun e => (e.sha, Text.strip (Text.unified e.message))) =
      [("a", "feat: a\n\nbody")] := by decide +kernel
  rw [hmessages] at hlog
  refine ⟨⟨_, hlog⟩, ?_⟩
  rintro ⟨w', h⟩
  rw [hlog] at h
  injection h with hentries
  revert hentries
  decide +kernel

end ReleasePipeline
