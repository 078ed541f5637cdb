import ReleasePipeline.Proofs.CommandLine.Refusal
import ReleasePipeline.Proofs.Run.Kept
import ReleasePipeline.Proofs.Text.Line

/-! The branch of a run is the last segment of its reference: it decides on whether there are
releases, and the release commit goes to it. -/
namespace ReleasePipeline

open ReleasePipeline.Action Procedure World

/-- What follows the last slash of a name; all of it where there is none. -/
def lastSegment (name : String) : String :=
  String.ofList (name.toList.reverse.takeWhile (· ≠ '/')).reverse

section Segment

variable {name : String}

theorem not_mem_lastSegment : '/' ∉ (lastSegment name).toList := by
  intro h
  rw [lastSegment, String.toList_ofList, List.mem_reverse] at h
  simpa using List.mem_takeWhile_imp h

/-- A name is its last segment, perhaps with a slash and more in front of it. -/
theorem toList_eq_or (name : String) : name.toList = (lastSegment name).toList ∨
    ∃ before, name.toList = before ++ '/' :: (lastSegment name).toList := by
  have hname := congrArg List.reverse
    (List.takeWhile_append_dropWhile (p := fun c => decide (c ≠ '/')) (l := name.toList.reverse))
  rw [List.reverse_append, List.reverse_reverse] at hname
  rw [lastSegment, String.toList_ofList]
  cases hrest : name.toList.reverse.dropWhile (fun c => decide (c ≠ '/')) with
  | nil =>
    rw [hrest] at hname
    exact .inl hname.symm
  | cons c rest =>
    have hslash : c = '/' := by
      have hhead := List.head?_dropWhile_not (fun c => decide (c ≠ '/')) name.toList.reverse
      rw [hrest] at hhead
      simpa using hhead
    rw [hrest, hslash, List.reverse_cons, List.append_assoc] at hname
    exact .inr ⟨rest.reverse, hname.symm⟩

theorem lastSegment_ne_empty (hname : name ≠ "") (hslash : name.toList.getLast? ≠ some '/') :
    lastSegment name ≠ "" := by
  intro hempty
  rcases toList_eq_or name with hsame | ⟨before, hbefore⟩
  · rw [hempty, String.toList_empty] at hsame
    exact hname (String.toList_eq_nil_iff.mp hsame)
  · rw [hempty, String.toList_empty] at hbefore
    exact hslash (by simp [hbefore])

/-- The branch of a reference to a branch is the last segment of its name. -/
theorem branchOfRef_heads (hname : name ≠ "") (hstrip : Text.strip name = name)
    (hslash : name.toList.getLast? ≠ some '/') :
    branchOfRef (some ("refs/heads/" ++ name)) = .ok (lastSegment name) := by
  have hblank : Text.isBlankText ("refs/heads/" ++ name) = false := by
    simp [Text.isBlankText, Text.isBlank]
  have hstripped : Text.strip ("refs/heads/" ++ name) = "refs/heads/" ++ name := by
    have hchars : Text.stripChars name.toList = name.toList := by
      rw [← String.ofList_inj, String.ofList_toList]
      exact hstrip
    have hall := Text.stripChars_append (c := 'r') (d := '/') rfl rfl "efs/heads".toList hchars
    rw [← String.toList_inj, Text.strip, String.toList_ofList, String.toList_append]
    exact hall
  have hlast : (Text.splitOn '/' ("refs/heads/" ++ name)).getLast? = some (lastSegment name) := by
    obtain ⟨before, hbefore⟩ : ∃ before, ("refs/heads/" ++ name).toList =
        before ++ '/' :: (lastSegment name).toList := by
      rw [String.toList_append]
      rcases toList_eq_or name with hsame | ⟨before, hbefore⟩
      · exact ⟨"refs/heads".toList, by rw [hsame]; rfl⟩
      · exact ⟨"refs/heads/".toList ++ before, by rw [hbefore, List.append_assoc]⟩
    rw [Text.splitOn, hbefore, Text.splitChars_eq_splitOn, List.splitOn_append_cons_self,
      List.splitOn_eq_singleton not_mem_lastSegment]
    simp
  rw [branchOfRef]
  simp only [hblank, hstripped, hlast, Option.getD_some, Bool.false_eq_true, if_false]
  rw [if_neg]
  simpa using lastSegment_ne_empty hname hslash

end Segment

/-- The words of a command that pushes do so for a tag or to the branch. -/
def PushesTo (branch : String) (argv : List String) : Prop :=
  ∀ rest, argv = "git" :: "push" :: rest → ∃ remote,
    argv = "git" :: Git.branchPush remote branch ∨ ∃ name, argv = "git" :: Git.tagPush remote name

/-- Between the worlds the branch stays, and release commits go to it. -/
structure Homeward (w w' : World) : Prop where
  branch : w'.release.branch = w.release.branch
  shows : Shows (PushesTo w.release.branch) w w'

instance : IsPreorder World Homeward where
  refl w := ⟨rfl, refl_of (Shows _) w⟩
  trans _ _ _ h h' := ⟨h'.branch.trans h.branch, trans_of (Shows _) h.shows (h.branch ▸ h'.shows)⟩

variable {s : Settings} {w w' : World} {steps : List NamedStep} {format : String}
  {outcome : Outcome}

theorem pushesTo_of_stepCommand {dryRun : Bool} {branch : String} {argv : List String}
    (h : StepCommand dryRun argv) : PushesTo branch argv := by
  intro rest hpush
  rcases h with ⟨paths, rfl⟩ | ⟨-, hwork⟩
  · simp [Git.statusListing] at hpush
  · cases hwork <;> simp at hpush

theorem admitsSteps_homeward : AdmitsSteps Homeward s where
  message w level text := ⟨rfl, shows_message w level text⟩
  files _ w _ := ⟨rfl, refl_of (Shows _) w⟩
  run w _ h := ⟨rfl, shows_executed w (pushesTo_of_stepCommand h)⟩
  bump w _ := ⟨rfl, refl_of (Shows _) w⟩
  notes w _ := ⟨rfl, refl_of (Shows _) w⟩
  push _ w _ h := ⟨rfl, shows_executed w fun _ _ => ⟨s.remote, .inl h⟩⟩

theorem pushesTo_of_tag {branch name : String} {argv : List String}
    (h : argv = "git" :: Git.tagging name ∨ argv = "git" :: Git.tagPush s.remote name) :
    PushesTo branch argv := by
  intro rest hpush
  rcases h with rfl | rfl
  · simp [Git.tagging] at hpush
  · exact ⟨s.remote, .inr ⟨name, rfl⟩⟩

theorem pushesTo_of_ask {branch : String} {argv : List String}
    (h : argv = "git" :: Git.tagListing ∨ ∃ since, argv = "git" :: Git.commitListing since) :
    PushesTo branch argv := by
  intro rest hpush
  rcases h with rfl | ⟨since, rfl⟩
  · simp [Git.tagListing] at hpush
  · simp [Git.commitListing] at hpush

theorem admitsRun_homeward : AdmitsRun Homeward s where
  toAdmitsSteps := admitsSteps_homeward
  nextVersion w _ := ⟨rfl, refl_of (Shows _) w⟩
  gitTag w _ := ⟨rfl, refl_of (Shows _) w⟩
  tag _ w _ _ h := ⟨rfl, shows_executed w (pushesTo_of_tag h)⟩
  learn w _ h := ⟨h, refl_of (Shows _) w⟩
  ask w _ h := ⟨rfl, shows_executed w (pushesTo_of_ask h)⟩

/-- Between the worlds a command was executed. -/
def Acted (w w' : World) : Prop := ∃ es c, w'.events = w.events ++ es ∧ Event.run c ∈ es

theorem acted_of_homeward {w₁ : World} (h : Acted w w₁) (hw : Homeward w₁ w') : Acted w w' := by
  obtain ⟨es, c, hes, hc⟩ := h
  obtain ⟨fs, hfs, -⟩ := hw.shows
  exact ⟨es ++ fs, c, by rw [hfs, hes, List.append_assoc], List.mem_append_left _ hc⟩

theorem acted_of_homeward_before {w₁ : World} (hw : Homeward w w₁) (h : Acted w₁ w') :
    Acted w w' := by
  obtain ⟨es, hes, -⟩ := hw.shows
  obtain ⟨fs, c, hfs, hc⟩ := h
  exact ⟨es ++ fs, c, by rw [hfs, hes, List.append_assoc], List.mem_append_right _ hc⟩

theorem not_alone_of_acted (h : Acted w w') : ¬ Alone w w' := by
  obtain ⟨es, c, hes, hc⟩ := h
  exact not_alone_of_run hes hc

namespace Lifecycle

/-- A run of steps that returns has asked for the tags. -/
theorem acted_of_runSteps (hknown : ∀ n ∈ steps, n.step.Known)
    (h : (runSteps s format steps).perform s w = .ok outcome w') : Acted w w' := by
  obtain ⟨w₁, hanalyze, hrest⟩ := runSteps_eq_ok h
  have hphase {phase : Phase} {u v : World} (h : (runPhase steps phase).perform s u = .ok () v) :
      Homeward u v := rel_of_ok (keeps_runPhase admitsSteps_homeward hknown) h
  simp only [analyze, perform_bind, bind_apply_eq_ok] at hanalyze
  obtain ⟨_, verified, hverify, _, read, hread, hanalyze⟩ := hanalyze
  have hlisting : Meets (Homeward w) (Git.read s Git.tagListing) (fun _ => Acted w)
      fun _ => True := by
    refine Git.meets_read (fun w₂ text hw₂ => ?_) fun _ _ => trivial
    obtain ⟨es, hes, -⟩ := hw₂.shows
    let asking := Git.command s Git.tagListing
    refine ⟨es ++ [.message .debug text, .run asking], asking, ?_, by simp⟩
    simp [World.executed, World.recorded, hes, asking]
  have hacted := post_of_ok (meets_listing admitsRun_homeward hlisting (fun _ _ => acted_of_homeward)
    fun _ _ => trivial) (hphase hverify) hread
  refine acted_of_homeward (acted_of_homeward hacted (hphase hanalyze)) ?_
  obtain ⟨-, text, rfl⟩ | ⟨bump, hrelease⟩ := hrest
  · exact (admitsSteps_homeward (s := s)).message w₁ _ _
  · exact rel_of_ok (keeps_release admitsRun_homeward.toAdmitsRelease hknown bump) hrelease

end Lifecycle

/-- The world in which a run on a branch begins. -/
def World.startedOn (w : World) (branch : String) : World :=
  { w with release := { branch, date := w.release.date } }

theorem ReleaseConfig.matcher?_eq_none_iff {c : ReleaseConfig} {branch : String} :
    c.matcher? branch = none ↔ ¬ ∃ m ∈ c.branches, m.accepts branch = true := by
  simp [matcher?]

/-- A run that returns on a branch that a matcher accepts has executed a command. -/
theorem ReleaseConfig.acted_of_run {c : ReleaseConfig} {registry : Registry}
    (hover : registry.Over knownPlugins) {m : BranchMatcher} (hm : m ∈ c.branches)
    (haccepts : m.accepts w.release.branch = true) (h : c.run registry s w = .ok outcome w') :
    Acted w w' := by
  obtain ⟨hnone, -, -⟩ | ⟨m', steps, -, hsteps, hrun⟩ := run_eq_ok h
  · exact absurd ⟨m, hm, haccepts⟩ (matcher?_eq_none_iff.mp hnone)
  · exact Lifecycle.acted_of_runSteps (w := w.onBranch m')
      (fun n hn => known_of_buildSteps hover hsteps hn) hrun

namespace CommandLine

/-- The program ends at the check of its branch: regularly and without a command. -/
structure Report.StopsAtCheck (w : World) (report : Report) : Prop where
  ending : report.ending = .done
  alone : Alone w report.world

/-- What the program tells about the outcome of a run. -/
def tell : Outcome → Action Unit
  | .released version => do
    log .info s!"Released {version.text}."
    log .info "Done."
  | _ => log .info "Done."

theorem keeps_tell {R : World → World → Prop} [IsPreorder World R] {write : Prop}
    {may : List String → Prop} (h : Admits R write may) (outcome : Outcome) :
    Keeps R (tell outcome) := by
  cases outcome with
  | released version => exact keeps_bind (keeps_log h _ _) fun _ => keeps_log h _ _
  | otherBranch => exact keeps_log h _ _
  | noChanges => exact keeps_log h _ _

/-- The settings of a run that is asked for. -/
def RunRequest.settings (r : RunRequest) (w : World) : Settings :=
  { root := (r.root.getD ⟨"", []⟩).resolved w.here, dryRun := r.dryRun, remote := r.remote }

theorem branch_of_findPlugins {contents : Place → PluginFile} {given : List Path}
    {registry : Registry} (h : findPlugins contents given w = .ok registry w') :
    w'.release.branch = w.release.branch :=
  (rel_of_ok (keeps_findPlugins (admitsRun_homeward (s := { root := .ofText "" })).toAdmits) h).branch

section Release

variable {contents : Place → PluginFile} {source : Source} {r : RunRequest} {branch : String}
  {c : ReleaseConfig} (hbranch : branchOfRef (source.reference w.environment) = .ok branch)
  (hload : source.load w = .ok c)

include hbranch hload

/-- Once the branch and the configuration are known, a release finds the plugins and runs. -/
theorem release_eq (contents : Place → PluginFile) (r : RunRequest) :
    ∃ text, release contents source r w =
      (findPlugins contents r.pluginDirectories >>= fun registry =>
        log .info text >>= fun _ => c.run registry (r.settings w) >>= tell) (w.startedOn branch) := by
  let mode := if r.dryRun then " (dry run)" else ""
  refine ⟨s!"=== Releasing {branch} from {(r.settings w).root.text}{mode} ===", ?_⟩
  have hget : (get : Action World) w = .ok w w := rfl
  rw [release, bind_apply, hget]
  simp only [hbranch, hload, Except.mapError, Action.ofExcept, pure_bind]
  change (findPlugins contents r.pluginDirectories >>= _) (w.startedOn branch) = _
  refine congrFun (bind_congr fun registry => bind_congr fun _ => bind_congr fun outcome => ?_) _
  cases outcome <;> rfl

/-- Where the plugins cannot be found, a release fails before it has executed a command. -/
theorem release_of_plugin_failure {e : Failure} {w₁ : World}
    (hfind : findPlugins contents r.pluginDirectories (w.startedOn branch) = .error e w₁) :
    release contents source r w = .error e w₁ ∧ Alone w w₁ := by
  obtain ⟨text, hrelease⟩ := release_eq hbranch hload contents r
  constructor
  · rw [hrelease, bind_apply, hfind]
  · have halone : Alone (w.startedOn branch) w₁ :=
      rel_of_error (keeps_findPlugins admits_alone) hfind
    exact halone

section Known

variable (hcontents : ∀ place p, contents place = .plugin p → p ∈ knownPlugins)

include hcontents

theorem homeward_release :
    Homeward (w.startedOn branch) ((release contents source r).after w) := by
  obtain ⟨text, hrelease⟩ := release_eq hbranch hload contents r
  have hadmits : AdmitsRun Homeward (r.settings w) := admitsRun_homeward
  rw [after, hrelease]
  refine keeps_bind_of_ok (keeps_findPlugins hadmits.toAdmits) (fun registry _ _ hfind => ?_)
    (w.startedOn branch)
  refine keeps_bind (keeps_log hadmits.toAdmits _ _) fun _ => ?_
  exact keeps_bind (ReleaseConfig.keeps_run hadmits (over_of_findPlugins hcontents hfind))
    (keeps_tell hadmits.toAdmits)

/-- Where a matcher accepts the branch, a release that returns has executed a command. -/
theorem acted_of_release {m : BranchMatcher} (hm : m ∈ c.branches)
    (haccepts : m.accepts branch = true) (h : release contents source r w = .ok () w') :
    Acted w w' := by
  obtain ⟨text, hrelease⟩ := release_eq hbranch hload contents r
  have hadmits : Admits Homeward _ _ := (admitsRun_homeward (s := r.settings w)).toAdmits
  simp only [hrelease, bind_apply_eq_ok] at h
  obtain ⟨registry, w₁, hfind, _, w₂, hlog, outcome, w₃, hrun, htell⟩ := h
  have hstart : Homeward (w.startedOn branch) w₂ := trans_of Homeward
    (rel_of_ok (keeps_findPlugins hadmits) hfind) (rel_of_ok (keeps_log hadmits _ _) hlog)
  have hacted : Acted w₂ w₃ := ReleaseConfig.acted_of_run (over_of_findPlugins hcontents hfind) hm
    (by rw [hstart.branch]; exact haccepts) hrun
  have hreturned : Acted (w.startedOn branch) w' := acted_of_homeward_before hstart
    (acted_of_homeward hacted (rel_of_ok (keeps_tell hadmits outcome) htell))
  exact hreturned

end Known

/-- Where no matcher accepts the branch, a release ends regularly and without a command. -/
theorem release_of_no_matcher (hnone : c.matcher? branch = none) {registry : Registry} {w₁ : World}
    (hfind : findPlugins contents r.pluginDirectories (w.startedOn branch) = .ok registry w₁) :
    ∃ w', release contents source r w = .ok () w' ∧ Alone w w' := by
  obtain ⟨text, hrelease⟩ := release_eq hbranch hload contents r
  have hbranch₁ : w₁.release.branch = branch := branch_of_findPlugins hfind
  let w₂ := w₁.recorded (.message .info text)
  have hnone₂ : c.matcher? w₂.release.branch = none := by
    rw [← hnone, ← hbranch₁]
    rfl
  obtain ⟨text', hrun⟩ : ∃ text', c.run registry (r.settings w) w₂ = .ok .otherBranch
      (w₂.recorded (.message .info text')) := ReleaseConfig.run_of_matcher?_eq_none hnone₂
  let w₃ := w₂.recorded (.message .info text')
  refine ⟨w₃.recorded (.message .info "Done."), ?_, ?_⟩
  · simp only [hrelease, bind_apply_eq_ok]
    exact ⟨registry, w₁, hfind, (), w₂, rfl, .otherBranch, w₃, hrun, rfl⟩
  · have halone : Alone (w.startedOn branch) w₁ :=
      rel_of_ok (keeps_findPlugins admits_alone) hfind
    have hmessage (w : World) (text : String) : Alone w (w.recorded (.message .info text)) :=
      admits_alone.message w _ text
    exact trans_of Alone (trans_of Alone (trans_of Alone halone (hmessage _ _)) (hmessage _ _))
      (hmessage _ _)

end Release

/-- Where its plugins can be found, the program goes on past the check of its branch exactly if a
matcher accepts the last segment of the branch. It pushes release commits nowhere but there. -/
theorem run_on_last_segment {contents : Place → PluginFile}
    (hcontents : ∀ place p, contents place = .plugin p → p ∈ knownPlugins) {words : List String}
    {source : Source} {r : RunRequest} (hwords : Request.ofWords words = .ok (.run source r))
    {branch : String} (href : source.ref = some ("refs/heads/" ++ branch)) {path : Path}
    (hfile : source.file = some path) {c : ReleaseConfig}
    (hload : ReleaseConfig.load w.files w.here path = .ok c) (hname : branch ≠ "")
    (hstrip : Text.strip branch = branch) (hslash : branch.toList.getLast? ≠ some '/') :
    let report := program contents words w
    let found := findPlugins contents r.pluginDirectories (w.startedOn (lastSegment branch))
    (∀ e w₁, found = .error e w₁ → report.ending = .failed e ∧ Alone w report.world) ∧
    (∀ registry w₁, found = .ok registry w₁ →
      (¬ report.StopsAtCheck w ↔ ∃ m ∈ c.branches, m.accepts (lastSegment branch) = true)) ∧
    Shows (PushesTo (lastSegment branch)) w report.world := by
  intro report found
  have hbranch : branchOfRef (source.reference w.environment) = .ok (lastSegment branch) := by
    rw [Source.reference, href, Option.some_or]
    exact branchOfRef_heads hname hstrip hslash
  have hconfig : source.load w = .ok c := by
    rw [Source.load, hfile]
    exact mapError_eq_ok.mpr hload
  have hreport : report = answer contents (.run source r) w := by
    simp only [report, program, hwords]
  have hworld : report.world = (release contents source r).after w := by
    rw [hreport, answer, after, EStateM.run]
    cases release contents source r w <;> rfl
  have hfailed {e : Failure} {w' : World} (h : release contents source r w = .error e w') :
      report.ending = .failed e := by
    rw [hreport, answer, EStateM.run, h]
  refine ⟨fun e w₁ hfind => ?_, fun registry w₁ hfind => ⟨fun hgoes => ?_, ?_⟩, ?_⟩
  · obtain ⟨hrelease, halone⟩ := release_of_plugin_failure hbranch hconfig hfind
    refine ⟨hfailed hrelease, ?_⟩
    rw [hworld, after_of_error hrelease]
    exact halone
  · by_contra hnone
    obtain ⟨w', hrelease, halone⟩ := release_of_no_matcher hbranch hconfig
      (ReleaseConfig.matcher?_eq_none_iff.mpr hnone) hfind
    refine hgoes ⟨?_, ?_⟩
    · rw [hreport, answer, EStateM.run, hrelease]
    · rw [hworld, after_of_ok hrelease]
      exact halone
  · rintro ⟨m, hm, haccepts⟩ hstops
    cases hrun : release contents source r w with
    | error e w' => exact absurd ((hfailed hrun).symm.trans hstops.ending) (by simp)
    | ok result w' =>
      refine not_alone_of_acted (acted_of_release hbranch hconfig hcontents hm haccepts hrun) ?_
      rw [← after_of_ok hrun, ← hworld]
      exact hstops.alone
  · rw [hworld]
    exact (homeward_release hbranch hconfig hcontents).shows

/-- A repository with a new feature whose configuration releases from the branches of a pattern. -/
def patternWorld (pattern : String) : World where
  __ := featureWorld []
  files := ⟨[(["repo"], .directory), (["repo", "release.json"], .file
    ("\x7b\"branches\": [\"" ++ pattern ++ "\"], " ++
      "\"plugins\": [\"commit-analyzer\", \"changelog\", \"git\"]\x7d").toUTF8)]⟩
  here := ["repo"]
  environment := ⟨[("HOME", "/home")]⟩

/-- The configuration of that repository. -/
def patternLoad (pattern : String) : Except ConfigFileError ReleaseConfig :=
  ReleaseConfig.load (patternWorld pattern).files (patternWorld pattern).here (.ofText "release.json")

theorem exists_of_patternLoad {pattern branch : String}
    (h : ((patternLoad pattern).toOption.any fun c => c.branches.any (·.accepts branch)) = true) :
    ∃ c, patternLoad pattern = .ok c ∧ ∃ m ∈ c.branches, m.accepts branch = true := by
  cases hload : patternLoad pattern with
  | error e =>
    rw [hload] at h
    cases h
  | ok c =>
    rw [hload] at h
    exact ⟨c, rfl, List.any_eq_true.mp h⟩

/-- The words that run it on a branch with a slash in its name. -/
def slashWords : List String :=
  ["run", "--ref", "refs/heads/release/1.x", "--config", "release.json"]

/-- The program on that branch in that repository. -/
def slashReport (pattern : String) : Report :=
  program (fun _ => .nothing) slashWords (patternWorld pattern)

/-- It goes on where a pattern accepts the last segment, and pushes the release commit there. -/
theorem run_on_slash_segment :
    (∃ c, patternLoad "1.*" = .ok c ∧ ∃ m ∈ c.branches, m.accepts "1.x" = true) ∧
    ¬ (slashReport "1.*").StopsAtCheck (patternWorld "1.*") ∧
    Shows (PushesTo "1.x") (patternWorld "1.*") (slashReport "1.*").world ∧
    "git" :: Git.branchPush "origin" "1.x" ∈
      (commandsOf (slashReport "1.*").world.events).map (·.argv) := by
  let source : Source :=
    { ref := some "refs/heads/release/1.x", file := some (.ofText "release.json") }
  have hcontents : ∀ place p, (fun _ => .nothing : Place → PluginFile) place = .plugin p →
      p ∈ knownPlugins := by
    intro place p h
    cases h
  have hwords : Request.ofWords slashWords = .ok (.run source {}) := by rfl
  have href : source.ref = some ("refs/heads/" ++ "release/1.x") := by decide
  have hsegment : lastSegment "release/1.x" = "1.x" := by decide +kernel
  obtain ⟨c, hload, haccepts⟩ : ∃ c, patternLoad "1.*" = .ok c ∧
      ∃ m ∈ c.branches, m.accepts "1.x" = true := exists_of_patternLoad (by decide +kernel)
  obtain ⟨-, hcheck, hshows⟩ := run_on_last_segment (w := patternWorld "1.*") hcontents hwords href rfl
    hload (by decide) (by decide +kernel) (by decide +kernel)
  rw [hsegment] at hcheck hshows
  have hfound : (match findPlugins (fun _ => .nothing) [] ((patternWorld "1.*").startedOn "1.x") with
      | .ok _ _ => true
      | .error _ _ => false) = true := by decide +kernel
  refine ⟨⟨c, hload, haccepts⟩, ?_, hshows, by decide +kernel⟩
  cases hfind : findPlugins (fun _ => .nothing) [] ((patternWorld "1.*").startedOn "1.x") with
  | error e w₁ =>
    rw [hfind] at hfound
    cases hfound
  | ok registry w₁ => exact (hcheck registry w₁ hfind).mpr haccepts

/-- It ends at the check of its branch though a pattern accepts the whole name. -/
theorem stops_on_whole_name :
    (∃ c, patternLoad "release/*" = .ok c ∧
      ∃ m ∈ c.branches, m.accepts "release/1.x" = true) ∧
    (slashReport "release/*").StopsAtCheck (patternWorld "release/*") := by
  have hdone : (match (slashReport "release/*").ending with
      | .done => true
      | _ => false) = true := by decide +kernel
  refine ⟨exists_of_patternLoad (by decide +kernel), ?_, ?_⟩
  · cases hending : (slashReport "release/*").ending with
    | done => rfl
    | failed e =>
      rw [hending] at hdone
      cases hdone
    | refused r =>
      rw [hending] at hdone
      cases hdone
  · exact ⟨_, (List.nil_append _).symm, by decide +kernel⟩

end CommandLine

end ReleasePipeline
