import ReleasePipeline.Proofs.Plugin.Deeds
import ReleasePipeline.Proofs.Run.Kept
import ReleasePipeline.Proofs.Run.Replay
import ReleasePipeline.Proofs.Version.Next

/-! A run that releases a version does so under one tag: all that it writes, executes and publishes
is for that version. -/
namespace ReleasePipeline

open ReleasePipeline.Action Procedure World

/-- The commands that a run executes before it knows its version. -/
inductive Opening : List String → Prop
  | script (text : String) : Opening ["bash", "-c", text]
  | login : Opening ["gh", "auth", "status"]
  | tags : Opening ("git" :: Git.tagListing)
  | commits (since : Option String) : Opening ("git" :: Git.commitListing since)

/-- Between the worlds a run looks for what has to be released. -/
structure Opened (w w' : World) : Prop where
  prerelease : w'.release.prerelease = w.release.prerelease
  shows : Shows Opening w w'

/-- What a run does in a phase for a version with its tag: it leaves messages, and its steps do their
deeds. -/
inductive Advance (v : Version) (tag : String) (s : Settings) (phase : Phase)
    (steps : List NamedStep) : World → World → Prop
  | message (w : World) (level : Level) (text : String) :
    Advance v tag s phase steps w (w.recorded (.message level text))
  | deed {n : NamedStep} {w w' : World} (hn : n ∈ steps) (h : Deed v tag s phase n.step w w') :
    Advance v tag s phase steps w w'

/-- What a run does in a phase, one after the other. -/
def Advances (v : Version) (tag : String) (s : Settings) (phase : Phase) (steps : List NamedStep) :
    World → World → Prop := Relation.ReflTransGen (Advance v tag s phase steps)

/-- The commands are executed one after the other, with messages between. -/
def Executes (cs : List Command) (w w' : World) : Prop :=
  ∃ es, commandsOf es = cs ∧ w' = w.replay es

/-- The words of a command that names a tag or publishes a release do so for the tag and its
version. -/
structure NamesOnly (v : Version) (tag remote : String) (argv : List String) : Prop where
  tagging : ∀ name, argv = "git" :: Git.tagging name → name = tag
  pushing : ∀ name, argv = "git" :: Git.tagPush remote name → name = tag
  publishing : ∀ rest, argv = "gh" :: "release" :: "create" :: rest →
    ∃ assets, argv = GitHub.creation tag tag v.isPrerelease assets

variable {v : Version} {tag format : String} {s : Settings} {phase : Phase}
  {steps : List NamedStep} {w w' w₀ : World} {st : Step} {may : List String → Prop}
  {argv : List String}

theorem shows_of_executes {cs : List Command} (h : Executes cs w w')
    (hmay : ∀ c ∈ cs, may c.argv) : Shows may w w' := by
  obtain ⟨es, rfl, rfl⟩ := h
  exact ⟨es, World.events_replay w es, hmay⟩

theorem shows_of_deed (h : Deed v tag s phase st w w') : Shows (Order v tag s phase st) w w' := by
  cases h with
  | message _ w level text => exact shows_message _ level text
  | run w h => exact shows_executed _ h
  | notes w h => exact refl_of (Shows _) w
  | directories w p => exact refl_of (Shows _) w
  | changelog h => exact refl_of (Shows _) w
  | manifest hfile hread hset h => exact refl_of (Shows _) w

theorem namesOnly_of_opening {remote : String} (h : Opening argv) : NamesOnly v tag remote argv := by
  constructor <;> cases h <;> intro name h <;>
    simp [Git.tagging, Git.tagPush, Git.tagListing, Git.commitListing] at h

theorem Git.branchPush_ne_tagPush {remote remote' branch name : String} :
    branchPush remote branch ≠ tagPush remote' name := by
  intro h
  have href : "HEAD:refs/heads/" ++ branch = "refs/tags/" ++ name :=
    (List.cons.inj (List.cons.inj (List.cons.inj h).2).2).1
  have hfirst := congrArg (fun ref => ref.toList.head?) href
  simp at hfirst

theorem namesOnly_of_order (h : Order v tag s phase st argv) : NamesOnly v tag s.remote argv := by
  cases h with
  | publish hlabels =>
    refine ⟨fun name h => ?_, fun name h => ?_, fun _ _ => ⟨_, rfl⟩⟩
    all_goals simp [GitHub.creation] at h
  | push branch =>
    refine ⟨fun name h => ?_, fun name h => ?_, fun rest h => ?_⟩
    · simp [Git.branchPush, Git.tagging] at h
    · exact absurd (List.cons.inj h).2 Git.branchPush_ne_tagPush
    · simp at h
  | _ =>
    refine ⟨fun name h => ?_, fun name h => ?_, fun rest h => ?_⟩
    all_goals simp [Git.tagging, Git.tagPush, Git.statusListing] at h

theorem namesOnly_tagging {remote : String} : NamesOnly v tag remote ("git" :: Git.tagging tag) := by
  refine ⟨fun name h => ?_, fun name h => ?_, fun rest h => ?_⟩
  · simpa [Git.tagging] using h.symm
  · simp [Git.tagging, Git.tagPush] at h
  · simp at h

theorem namesOnly_tagPush {remote : String} :
    NamesOnly v tag remote ("git" :: Git.tagPush remote tag) := by
  refine ⟨fun name h => ?_, fun name h => ?_, fun rest h => ?_⟩
  · simp [Git.tagging, Git.tagPush] at h
  · simp only [Git.tagPush, List.cons.injEq, true_and, and_true] at h
    exact (String.append_right_inj "refs/tags/").mp h.symm
  · simp at h

instance : IsPreorder World Opened where
  refl w := ⟨rfl, refl_of (Shows Opening) w⟩
  trans _ _ _ h h' := ⟨h'.prerelease.trans h.prerelease, trans_of (Shows Opening) h.shows h'.shows⟩

instance : IsPreorder World (Advances v tag s phase steps) where
  refl _ := .refl
  trans _ _ _ := .trans

theorem shows_of_advances (h : Advances v tag s phase steps w w') :
    Shows (NamesOnly v tag s.remote) w w' := by
  induction h with
  | refl => exact refl_of (Shows _) w
  | tail _ hadvance ih =>
    refine trans_of (Shows _) ih ?_
    cases hadvance with
    | message w level text => exact shows_message _ level text
    | deed hn h => exact (shows_of_deed h).mono fun _ => namesOnly_of_order

theorem opened_update {r : Release} (h : Opened w₀ w) (hr : r.prerelease = w.release.prerelease) :
    Opened w₀ { w with release := r } :=
  ⟨hr.trans h.prerelease, h.shows⟩

theorem admits_opened : Admits Opened True Opening where
  message w level text := ⟨rfl, shows_message w level text⟩
  files _ w _ := ⟨rfl, refl_of (Shows Opening) w⟩
  run w _ h := ⟨rfl, shows_executed w h⟩

/-- Of the known steps only a few take part before the version is known. -/
theorem opened_of_known (hst : st.Known) (hphase : phase ∈ st.phases)
    (hearly : phase = .verify ∨ phase = .analyze) : Keeps Opened (st.apply s phase) := by
  have hone {other : Phase} (h : phase ∈ [other]) : other = .verify ∨ other = .analyze :=
    List.mem_singleton.mp h ▸ hearly
  cases hst with
  | analysis rules =>
    refine keeps_bind keeps_release fun r => ?_
    exact keeps_bind (fun w => opened_update (refl_of Opened w) rfl) fun _ => keeps_pure _
  | notes types url => exact absurd (hone hphase) (by decide)
  | changelog file title => exact absurd (hone hphase) (by decide)
  | exec commands cwd => exact keeps_exec admits_opened (fun _ text => .script text) commands cwd
  | github specs =>
    have hverify : phase = .verify := by
      rcases List.mem_pair.mp hphase with h | rfl
      · exact h
      · exact absurd hearly (by decide)
    simp only [GitHubRelease.step, if_pos hverify]
    exact keeps_verify admits_opened fun _ => .login
  | commit assets message => exact absurd (hone hphase) (by decide)
  | manifests files => exact absurd (hone hphase) (by decide)

namespace Lifecycle

section Opening

variable (hknown : ∀ n ∈ steps, n.step.Known)

theorem opened_readHistory : Keeps Opened ((readHistory format).perform s) := by
  simp only [readHistory, perform_bind, perform_act, perform_ofExcept, perform_changeRelease,
    perform_world, perform_say]
  refine keeps_bind (Git.keeps_read admits_opened .tags) fun tags => ?_
  refine keeps_bind (keeps_ofExcept _) fun versions => ?_
  refine keeps_bind (fun w => opened_update (refl_of Opened w) rfl) fun _ => keeps_bind keeps_get fun w => ?_
  refine keeps_bind (keeps_ofExcept _) fun since => ?_
  refine keeps_bind (fun w => opened_update (refl_of Opened w) rfl) fun _ => ?_
  refine keeps_bind (Git.keeps_read admits_opened (.commits since)) fun commits => ?_
  refine keeps_bind (fun w => opened_update (refl_of Opened w) rfl) fun _ => ?_
  exact keeps_log admits_opened _ _

include hknown

theorem opened_phase (hearly : phase = .verify ∨ phase = .analyze) :
    Keeps Opened ((runPhase steps phase).perform s) := by
  refine keeps_iff_relates.mpr (relates_runPhase (fun level text => ?_) fun n hn hphase => ?_)
  · exact keeps_iff_relates.mp (keeps_log admits_opened level text)
  · exact keeps_iff_relates.mp (opened_of_known (hknown n hn) hphase hearly)

theorem opened_analyze : Keeps Opened ((analyze format steps).perform s) := by
  simp only [analyze, perform_bind]
  refine keeps_bind (opened_phase hknown (.inl rfl)) fun _ => ?_
  exact keeps_bind opened_readHistory fun _ => opened_phase hknown (.inr rfl)

end Opening

theorem meets_settle (bump : BumpKind) : Meets (Opened w₀) ((decideVersion format bump).perform s)
    (fun v w => ∃ tag, (Tag.ofVersion format v = .ok tag ∧ v.channel = w₀.release.prerelease) ∧
      Opened w₀ w ∧ w.release.Settled v tag) fun _ => True := by
  simp only [decideVersion, perform_bind, perform_ofExcept, perform_changeRelease, perform_world,
    perform_say, perform_pure]
  refine meets_get_bind fun w hw => ?_
  refine meets_bind (meets_ofExcept fun _ _ => trivial) fun v => meets_of_fact fun hnext => ?_
  have hchannel : v.channel = w₀.release.prerelease :=
    (Version.channel_of_nextFor (mapError_eq_ok.mp hnext)).trans hw.prerelease
  refine meets_bind (meets_changeRelease (Q := fun w => Opened w₀ w ∧
    w.release.nextVersion = some v) fun w h => ⟨?_, rfl⟩) fun _ => ?_
  · exact opened_update h rfl
  refine meets_bind (meets_ofExcept fun _ _ => trivial) fun tag => meets_of_fact fun htag => ?_
  refine meets_bind (meets_changeRelease (Q := fun w => Opened w₀ w ∧
    w.release.Settled v tag) fun w h => ⟨?_, h.2, rfl, ?_⟩) fun _ => ?_
  · exact opened_update h.1 rfl
  · exact h.1.prerelease.trans hchannel.symm
  refine meets_bind (Q := fun _ w => Opened w₀ w ∧ w.release.Settled v tag)
    (fun w h => ⟨?_, h.2⟩) fun _ => ?_
  · exact trans_of Opened h.1 (admits_opened.message w _ _)
  · exact meets_pure fun w h => ⟨tag, ⟨mapError_eq_ok.mp htag, hchannel⟩, h⟩

theorem advances_phase (hknown : ∀ n ∈ steps, n.step.Known) (hverify : phase ≠ .verify)
    (hanalyze : phase ≠ .analyze) :
    Keeps (Under (Release.Settled v tag) (Advances v tag s phase steps))
      ((runPhase steps phase).perform s) := by
  refine keeps_iff_relates.mpr (relates_runPhase (fun level text => ?_) fun n hn hphase => ?_)
  · exact keeps_iff_relates.mp fun w hw => ⟨hw, .single (.message w level text)⟩
  · refine keeps_iff_relates.mp fun w hw => ?_
    obtain ⟨hsettled, hdeeds⟩ := deeds_of_known (hknown n hn) hphase hverify hanalyze w hw
    exact ⟨hsettled, Relation.ReflTransGen.mono (fun _ _ h => .deed hn h) _ _ hdeeds⟩

theorem executes_change {args : List String} {cs : List Command} (hreal : s.dryRun = false) :
    Meets (Executes cs w₀) ((Move.change args).perform s)
      (fun _ => Executes (cs ++ [Git.command s args]) w₀) fun _ => True := by
  refine meets_bind (Git.meets_change hreal ?_ fun _ _ => trivial) fun _ => meets_pure fun _ h => h
  rintro w text ⟨es, hes, rfl⟩
  refine ⟨es ++ [.message .debug text, .run (Git.command s args)], ?_, ?_⟩
  · rw [commandsOf_append, hes]
    rfl
  · rw [World.replay_append]
    rfl

theorem executes_makeTag (hreal : s.dryRun = false) (htag : w₀.release.gitTag = some tag) :
    Meets (fun w => w = w₀) ((makeTag s).perform s)
      (fun _ => Executes [Git.command s (Git.tagging tag), Git.command s (Git.tagPush s.remote tag)]
        w₀) fun _ => True := by
  simp only [makeTag, perform_bind, perform_world]
  refine meets_get_bind fun w hw => ?_
  subst hw
  simp only [htag, hreal, Bool.false_eq_true, if_false, perform_bind, perform_act, perform_say]
  refine meets_bind (Q := fun _ => Executes [Git.command s (Git.tagging tag)] w) ?_ fun _ => ?_
  · rintro w' rfl
    have hnothing : Executes [] w' w' := ⟨[], rfl, rfl⟩
    exact executes_change hreal w' hnothing
  refine meets_bind (executes_change hreal) fun _ => ?_
  rintro w' ⟨es, hes, rfl⟩
  let made := s!"Created tag {tag}."
  refine ⟨es ++ [.message .info made], ?_, ?_⟩
  · rw [commandsOf_append, hes]
    rfl
  · rw [World.replay_append]
    rfl

/-- A run that releases a version: it finds out about it, writes the notes, prepares the release, makes
the tag and publishes. -/
def Releases (v : Version) (tag : String) (s : Settings) (steps : List NamedStep) (w w' : World) :
    Prop :=
  ∃ settled noted prepared tagged, Opened w settled ∧ settled.release.Settled v tag ∧
    Advances v tag s .generateNotes steps settled noted ∧
    Advances v tag s .prepare steps noted prepared ∧
    Executes [Git.command s (Git.tagging tag), Git.command s (Git.tagPush s.remote tag)]
      prepared tagged ∧
    Advances v tag s .publish steps tagged w'

theorem shows_of_releases (h : Releases v tag s steps w w') :
    Shows (NamesOnly v tag s.remote) w w' := by
  obtain ⟨settled, noted, prepared, tagged, hopened, -, hnotes, hprepare, htag, hpublish⟩ := h
  have hstart : Shows (NamesOnly v tag s.remote) w settled :=
    hopened.shows.mono fun _ => namesOnly_of_opening
  have htagged : Shows (NamesOnly v tag s.remote) prepared tagged := by
    refine shows_of_executes htag fun c hc => ?_
    rcases List.mem_pair.mp hc with rfl | rfl
    · exact namesOnly_tagging
    · exact namesOnly_tagPush
  have hsame := trans_of (Shows (NamesOnly v tag s.remote)) (shows_of_advances hnotes)
    (shows_of_advances hprepare)
  exact trans_of (Shows _) hstart (trans_of (Shows _) hsame
    (trans_of (Shows _) htagged (shows_of_advances hpublish)))

theorem releases_of_release (hknown : ∀ n ∈ steps, n.step.Known) (hreal : s.dryRun = false)
    {bump : BumpKind} (hw : Opened w₀ w)
    (h : (release s format steps bump).perform s w = .ok (.released v) w') :
    ∃ tag, Tag.ofVersion format v = .ok tag ∧ v.channel = w₀.release.prerelease ∧
      Releases v tag s steps w₀ w' := by
  simp only [release, perform_bind, perform_world, perform_pure, bind_apply_eq_ok] at h
  obtain ⟨v', settled, hdecide, _, noted, hnotes, _, prepared, hprepare, _, tagged, htag, _, final,
    hpublish, _, _, hget, hdone⟩ := h
  cases hget
  obtain ⟨tag, ⟨hof, hchannel⟩, hopened, hsettled⟩ := post_of_ok (meets_settle bump) hw hdecide
  have hphase {phase : Phase} {w₁ w₂ : World} (hverify : phase ≠ .verify) (hanalyze : phase ≠ .analyze)
      (h₁ : w₁.release.Settled v' tag) (h : (runPhase steps phase).perform s w₁ = .ok () w₂) :=
    rel_of_ok (advances_phase hknown hverify hanalyze) h h₁
  obtain ⟨hnoted, hnotes⟩ := hphase (by decide) (by decide) hsettled hnotes
  obtain ⟨hprepared, hprepare⟩ := hphase (by decide) (by decide) hnoted hprepare
  have htags := post_of_ok (executes_makeTag hreal hprepared.tag) rfl htag
  have htagged : tagged.release.Settled v' tag := by
    obtain ⟨es, -, rfl⟩ := htags
    rwa [World.release_replay]
  obtain ⟨hfinal, hpublish⟩ := hphase (by decide) (by decide) htagged hpublish
  cases hdone
  rw [hfinal.version]
  exact ⟨tag, hof, hchannel, settled, noted, prepared, tagged, hopened, hsettled, hnotes, hprepare,
    htags, hpublish⟩

end Lifecycle

open Lifecycle

variable {registry : Registry} {c : ReleaseConfig}

theorem BranchMatcher.isSome_channelFor (m : BranchMatcher) (branch : String) :
    (m.channelFor branch).isSome = true ↔ m.kind ≠ .stable := by
  rw [channelFor]
  cases m.kind <;> simp

/-- A run that releases a version does so for that version alone. Its branch decides on whether the
version is a prerelease; whatever it tags, writes or publishes is for the version and its tag. -/
theorem run_releases_one_version (hover : registry.Over knownPlugins) (hreal : s.dryRun = false)
    (h : c.run registry s w = .ok (.released v) w') :
    ∃ m tag steps, c.matcher? w.release.branch = some m ∧
      buildSteps registry s (w.onBranch m) c = .ok steps ∧
      Tag.ofVersion c.tagFormat v = .ok tag ∧ (v.isPrerelease = true ↔ m.kind ≠ .stable) ∧
      (∀ command ∈ commandsOf ((c.run registry s).shown w),
        NamesOnly v tag s.remote command.argv) ∧
      Releases v tag s steps (w.onBranch m) w' := by
  obtain ⟨-, hend, -⟩ | ⟨m, steps, hmatcher, hsteps, hrun⟩ := ReleaseConfig.run_eq_ok h
  · cases hend
  obtain ⟨w₁, hanalyze, ⟨hend, -⟩ | ⟨bump, hrelease⟩⟩ := runSteps_eq_ok hrun
  · cases hend
  have hknown := fun n hn => known_of_buildSteps (n := n) hover hsteps hn
  have hopened := rel_of_ok (opened_analyze hknown) hanalyze
  obtain ⟨tag, htag, hchannel, hreleases⟩ := releases_of_release hknown hreal hopened hrelease
  refine ⟨m, tag, steps, hmatcher, hsteps, htag, ?_, ?_, hreleases⟩
  · rw [Version.isPrerelease, hchannel]
    exact m.isSome_channelFor _
  · obtain ⟨es, hes, hnames⟩ := shows_of_releases hreleases
    have hshown : (c.run registry s).shown w = es := shown_of_append (after_of_ok h ▸ hes)
    rw [hshown]
    exact hnames

/-- A configuration that releases from a channel of its own, with a manifest. -/
def betaConfig : ReleaseConfig where
  branches := [{ name := "main" }, { name := "beta", kind := .ownChannel }]
  plugins := [⟨"commit-analyzer", []⟩, ⟨"release-notes-generator", []⟩, ⟨"cargo-version", []⟩,
    ⟨"exec", Table.ofNames [("prepareCmd", .string "make $\x7bnextRelease.version\x7d")]⟩,
    ⟨"github", []⟩, ⟨"git", []⟩]

/-- A repository with that branch, a manifest and a new feature. -/
def betaWorld : World where
  __ := featureWorld []
  files := ⟨[(["repo"], .directory),
    (["repo", "Cargo.toml"], .file "[package]\nversion = \"0.1.0\"\n".toUTF8)]⟩
  here := ["repo"]
  release := { branch := "beta", date := ⟨2024, 5, 1⟩ }

/-- The first release of the channel. -/
def betaVersion : Version := ⟨1, 0, 0, some "beta", some 1⟩

theorem one_version_of_betaConfig :
    let s : Settings := { root := .ofText "/repo" }
    let final := (betaConfig.run knownRegistry s).after betaWorld
    betaConfig.run knownRegistry s betaWorld = .ok (.released betaVersion) final ∧
    ∃ m tag steps, betaConfig.matcher? "beta" = some m ∧
      Tag.ofVersion "v$\x7bversion\x7d" betaVersion = .ok tag ∧
      (betaVersion.isPrerelease = true ↔ m.kind ≠ .stable) ∧
      (∀ command ∈ commandsOf ((betaConfig.run knownRegistry s).shown betaWorld),
        NamesOnly betaVersion tag "origin" command.argv) ∧
      Releases betaVersion tag s steps (betaWorld.onBranch m) final := by
  intro s final
  have hok : (match betaConfig.run knownRegistry s betaWorld with
      | .ok outcome _ => decide (outcome = .released betaVersion)
      | .error _ _ => false) = true := by decide +kernel
  have hrun : betaConfig.run knownRegistry s betaWorld = .ok (.released betaVersion) final := by
    cases hresult : betaConfig.run knownRegistry s betaWorld with
    | error e w' =>
      rw [hresult] at hok
      cases hok
    | ok outcome w' =>
      rw [hresult] at hok
      rw [of_decide_eq_true hok, ← after_of_ok hresult]
  have hover : knownRegistry.Over knownPlugins := over_known (fun _ h => h) ofPlugins_knownPlugins
  obtain ⟨m, tag, steps, hmatcher, -, htag, hprerelease, hnames, hreleases⟩ :=
    run_releases_one_version hover rfl hrun
  exact ⟨hrun, m, tag, steps, hmatcher, htag, hprerelease, hnames, hreleases⟩

end ReleasePipeline
