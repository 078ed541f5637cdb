import ReleasePipeline.Proofs.Plugin.Agreement
import ReleasePipeline.Proofs.Run.Discovery

/-! Channels are isolated: what a run does depends on the stable releases and on those of its own
channel, and not on how, how often or among what else their tags are listed. -/
namespace ReleasePipeline

open ReleasePipeline.Action Procedure

/-- Both listings name the same stable versions and the same versions of the channel. -/
def SameListed (format : String) (channel : Option String) (output output' : String) : Prop :=
  ∃ vs us, Lifecycle.versionsOf format (Git.tagsOf output) = .ok vs ∧
    Lifecycle.versionsOf format (Git.tagsOf output') = .ok us ∧ Version.SameReleases channel vs us

/-- The answers differ in what is printed as the listing of the tags, and there only in the tags of
other channels, in lines that are no tags of versions and in how the others are listed. -/
structure Relisted (format : String) (channel : Option String) (first second : Answers) : Prop where
  other : OtherListing first second
  listing : ∀ before, ∃ output,
    second ("git" :: Git.tagListing) before =
      { first ("git" :: Git.tagListing) before with output } ∧
    SameListed format channel (first ("git" :: Git.tagListing) before).output output

variable {registry : Registry} {plugins : List Plugin} {c : ReleaseConfig} {s : Settings}
  {w v : World} {first second : Answers} {channel : Option String} {format : String}
  {steps : List NamedStep} {phase : Phase}

/-- The one command whose answers differ. -/
theorem agrees_executeListing (h : Relisted format channel first second) :
    let listing := Git.command s Git.tagListing
    Agrees (Alike first second channel) (execute listing) (execute listing)
      (fun answer answer' w v => (∃ output, answer' = { answer with output } ∧
        SameListed format channel answer.output output) ∧ Alike first second channel w v)
      (Alike first second channel) := by
  intro listing w v hw
  obtain ⟨output, hanswer, hlisted⟩ : ∃ output,
      v.answers listing.argv (v.recorded (.run listing)).events =
        { w.answers listing.argv (w.recorded (.run listing)).events with output } ∧
      SameListed format channel
        (w.answers listing.argv (w.recorded (.run listing)).events).output output := by
    cases hw with
    | relisted answers =>
      rw [answers]
      exact h.listing (w.recorded (.run listing)).events
  have hexecuted := alike_executed hw (c := listing) (by rw [hanswer])
  rw [execute_apply, execute_apply, hanswer]
  dsimp only
  cases hfault : (w.answers listing.argv (w.recorded (.run listing)).events).fault with
  | none => exact ⟨⟨output, by rw [hfault], hlisted⟩, hexecuted⟩
  | some fault => cases fault <;> exact ⟨rfl, hexecuted⟩

theorem agrees_readListing (h : Relisted format channel first second) :
    Agrees (Alike first second channel) (Git.read s Git.tagListing) (Git.read s Git.tagListing)
      (fun output output' w v => SameListed format channel output output' ∧
        Alike first second channel w v) (Alike first second channel) := by
  simp only [Git.read, run, bind_assoc, reduceCtorEq, decide_false, Bool.and_false,
    Bool.false_eq_true, if_false]
  refine agrees_bind (blind_log _ _) fun _ _ => agrees_of_fact fun _ => ?_
  refine agrees_bind (agrees_executeListing h) fun answer answer' => agrees_of_fact ?_
  rintro ⟨output, rfl, hlisted⟩
  dsimp only
  split
  · exact agrees_throw _ fun _ _ hw => hw
  · exact agrees_pure fun _ _ hw => ⟨hlisted, hw⟩

namespace Lifecycle

theorem blind_applyAll (hother : OtherListing first second) {active : List (NamedStep × Nat)}
    (hknown : ∀ n ∈ active, n.1.step.Known) :
    Blind (Alike first second channel) ((applyAll phase active).perform s) := by
  induction active with
  | nil => exact blind_pure _
  | cons first rest ih =>
    obtain ⟨n, index⟩ := first
    simp only [applyAll, perform_bind, perform_act, perform_say]
    refine blind_bind (blind_apply hother (hknown (n, index) List.mem_cons_self)) fun report => ?_
    refine blind_bind (blind_log _ _) fun _ => ?_
    exact ih fun n' hn' => hknown n' (List.mem_cons_of_mem _ hn')

theorem blind_runPhase (hother : OtherListing first second)
    (hknown : ∀ n ∈ steps, n.step.Known) :
    Blind (Alike first second channel) ((runPhase steps phase).perform s) := by
  have hactive : ∀ n ∈ active phase steps, n.1.step.Known := fun n hn => hknown _ (mem_of_active hn)
  rw [runPhase]
  cases hphase : active phase steps with
  | nil => exact blind_pure _
  | cons first rest =>
    simp only [perform_bind, perform_say]
    rw [← hphase]
    exact blind_bind (blind_log _ _) fun _ => blind_applyAll hother hactive

/-- The versions are noted with the last release among them, which is one for both lists. -/
theorem agrees_noteTags {vs us : List Version} (hvs : ∀ v ∈ vs, v.Legible)
    (h : Version.SameReleases channel vs us) :
    let note (tags : List Version) : Action Unit := changeRelease fun r =>
      { r with tags, lastRelease := Version.lastRelease tags r.prerelease }
    Agrees (Alike first second channel) (note vs) (note us)
      (fun _ _ => Alike first second channel) (Alike first second channel) := by
  intro note w v hw
  cases hw with
  | @relisted tags answers prerelease releases =>
    have hlast : Version.lastRelease us w.release.prerelease =
        Version.lastRelease vs w.release.prerelease := by
      rw [prerelease]
      exact Version.lastRelease_congr hvs h
    let noted (tags : List Version) : World := { w with release := { w.release with
      tags, lastRelease := Version.lastRelease vs w.release.prerelease } }
    have hnoted : { w.relisted second tags with release := { w.release with
        tags := us, lastRelease := Version.lastRelease us w.release.prerelease } } =
        World.relisted (noted vs) second us := by
      rw [hlast]
      rfl
    change Alike first second channel (noted vs) { w.relisted second tags with release :=
      { w.release with tags := us, lastRelease := Version.lastRelease us w.release.prerelease } }
    rw [hnoted]
    exact .relisted answers prerelease h

theorem blind_readHistory (h : Relisted format channel first second) :
    Blind (Alike first second channel) ((readHistory format).perform s) := by
  simp only [readHistory, perform_bind, perform_act, perform_ofExcept, perform_changeRelease,
    perform_world, perform_say]
  refine agrees_bind (agrees_readListing h) fun output output' => agrees_of_fact ?_
  rintro ⟨vs, us, hvs, hus, hreleases⟩
  rw [hvs, hus]
  change Agrees _ (pure vs >>= _) (pure us >>= _) _ _
  rw [pure_bind, pure_bind]
  refine agrees_bind (agrees_noteTags (fun v hv => Version.legible_of_versionsOf hvs hv) hreleases)
    fun _ _ => ?_
  refine blind_get_bind (fun _ _ => rfl) fun w => blind_bind (blind_ofExcept _) fun since => ?_
  refine blind_bind (blind_changeRelease (fun _ _ => rfl) fun _ => ⟨rfl, rfl⟩) fun _ => ?_
  refine blind_bind (blind_read h.other (by simp [Git.commitListing, Git.tagListing])) fun log => ?_
  refine blind_bind (blind_changeRelease (fun _ _ => rfl) fun _ => ⟨rfl, rfl⟩) fun _ => ?_
  exact blind_log _ _

/-- The tags tell nothing of other channels to the next version. -/
theorem blind_decideVersion (bump : BumpKind) :
    Blind (Alike first second channel) ((decideVersion format bump).perform s) := by
  simp only [decideVersion, perform_bind, perform_ofExcept, perform_changeRelease, perform_world,
    perform_say, perform_pure]
  refine agrees_get_bind fun w v hw => ?_
  have hnext : Version.nextFor v.release.tags bump v.release.prerelease =
      Version.nextFor w.release.tags bump w.release.prerelease := by
    cases hw with
    | relisted answers prerelease releases =>
      change Version.nextFor _ bump w.release.prerelease = _
      rw [prerelease]
      exact (Version.nextFor_congr releases).symm
  rw [hnext]
  refine blind_bind (blind_ofExcept _) fun version => ?_
  refine blind_bind (blind_changeRelease (fun _ _ => rfl) fun _ => ⟨rfl, rfl⟩) fun _ => ?_
  refine blind_bind (blind_ofExcept _) fun tag => ?_
  refine blind_bind (blind_changeRelease (fun _ _ => rfl) fun _ => ⟨rfl, rfl⟩) fun _ => ?_
  exact blind_bind (blind_log _ _) fun _ => blind_pure _

section Release

variable (hother : OtherListing first second)

include hother

theorem blind_makeTag : Blind (Alike first second channel) ((makeTag s).perform s) := by
  have hchange {args : List String} (hargs : args ≠ Git.tagListing) :
      Blind (Alike first second channel) ((Move.change args).perform s) :=
    blind_bind (blind_change hother hargs) fun _ => blind_pure _
  simp only [makeTag, perform_bind, perform_world]
  refine blind_get_bind (fun _ _ => rfl) fun w => ?_
  split
  · exact blind_log _ _
  · split
    · exact blind_throw _
    · simp only [perform_bind, perform_act, perform_say]
      refine blind_bind (hchange (by simp [Git.tagging, Git.tagListing])) fun _ => ?_
      refine blind_bind (hchange (by simp [Git.tagPush, Git.tagListing])) fun _ => ?_
      exact blind_log _ _

theorem blind_release (hknown : ∀ n ∈ steps, n.step.Known) (bump : BumpKind) :
    Blind (Alike first second channel) ((release s format steps bump).perform s) := by
  simp only [release, perform_bind, perform_world, perform_pure]
  refine blind_bind (blind_decideVersion bump) fun version => ?_
  refine blind_bind (blind_runPhase hother hknown) fun _ => ?_
  refine blind_bind (blind_runPhase hother hknown) fun _ => ?_
  refine blind_bind (blind_makeTag hother) fun _ => ?_
  refine blind_bind (blind_runPhase hother hknown) fun _ => ?_
  exact blind_get_bind (fun _ _ => rfl) fun w => blind_pure _

end Release

theorem blind_runSteps (h : Relisted format channel first second)
    (hknown : ∀ n ∈ steps, n.step.Known) :
    Blind (Alike first second channel) ((runSteps s format steps).perform s) := by
  simp only [runSteps, analyze, perform_bind, perform_world, bind_assoc]
  refine blind_bind (blind_runPhase h.other hknown) fun _ => ?_
  refine blind_bind (blind_readHistory h) fun _ => ?_
  refine blind_bind (blind_runPhase h.other hknown) fun _ => ?_
  refine blind_get_bind (fun _ _ => rfl) fun w => ?_
  cases w.release.bump with
  | some bump => exact blind_release h.other hknown bump
  | none =>
    simp only [perform_bind, perform_world, perform_say, perform_pure]
    refine blind_get_bind (fun _ _ => rfl) fun w => ?_
    exact blind_bind (blind_log _ _) fun _ => blind_pure _

end Lifecycle

namespace ReleaseConfig

/-- After the steps are built, everything is up to the channel. -/
theorem blind_started (hover : registry.Over knownPlugins)
    (h : Relisted c.tagFormat channel first second) :
    Blind (Alike first second channel) (get >>= fun w =>
      Action.ofExcept (Lifecycle.buildSteps registry s w c) >>= fun steps =>
        (Lifecycle.runSteps s c.tagFormat steps).perform s) := by
  refine agrees_get_bind fun w v hw => ?_
  have hsame : Lifecycle.buildSteps registry s v c = Lifecycle.buildSteps registry s w c := by
    cases hw with
    | relisted => exact buildSteps_of_tools hover rfl
  rw [hsame]
  cases hsteps : Lifecycle.buildSteps registry s w c with
  | error e => exact blind_throw_bind e _
  | ok steps =>
    exact Lifecycle.blind_runSteps h fun n hn => known_of_buildSteps hover hsteps hn

/-- Runs from worlds that differ in the answers alone end in worlds that differ in the tags besides. -/
theorem agrees_run (hover : registry.Over knownPlugins)
    (h : Relisted c.tagFormat (c.channelOn w.release.branch) w.answers second) :
    Agrees (fun w₁ v => w₁ = w ∧ v = w.relisted second w.release.tags) (c.run registry s)
      (c.run registry s) (fun a b w v => a = b ∧ ∃ tags, v = w.relisted second tags)
      fun w v => ∃ tags, v = w.relisted second tags := by
  have htags {channel : Option String} {w₁ v : World} (hw : Alike w.answers second channel w₁ v) :
      ∃ tags, v = w₁.relisted second tags := by
    cases hw with
    | relisted => exact ⟨_, rfl⟩
  simp only [run, procedure, perform_bind, perform_world]
  refine agrees_get_bind ?_
  rintro w _ ⟨rfl, rfl⟩
  have hbranch : (w.relisted second w.release.tags).release.branch = w.release.branch := rfl
  rw [hbranch]
  cases hmatcher : c.matcher? w.release.branch with
  | none =>
    simp only [perform_bind, perform_say, perform_pure]
    have hblind (text : String) : Blind (Alike w.answers second w.release.prerelease)
        (log .info text >>= fun _ => pure Outcome.otherBranch) :=
      blind_bind (blind_log _ _) fun _ => blind_pure _
    refine agrees_mono (hblind _) ?_ (fun _ _ _ _ => And.imp_right htags) fun _ _ => htags
    rintro _ _ ⟨rfl, rfl⟩
    exact .relisted rfl rfl fun _ _ => Iff.rfl
  | some m =>
    simp only [perform_bind, perform_changeRelease, perform_world, perform_ofExcept]
    have hblind := blind_started (s := s) hover h
    refine agrees_bind (Q := fun _ _ => Alike w.answers second (c.channelOn w.release.branch)) ?_
      fun _ _ => agrees_mono hblind (fun _ _ hw => hw) (fun _ _ _ _ => And.imp_right htags)
        fun _ _ => htags
    rintro w _ ⟨rfl, rfl⟩
    refine .relisted (w := w.onBranch m) rfl ?_ fun _ _ => Iff.rfl
    rw [channelOn, hmatcher]
    rfl

end ReleaseConfig

/-- Two runs whose listings of the tags name the same stable versions and the same versions of their
channel do the same: they show the same messages, execute the same commands with the same inputs, leave
the same files and end alike. The order of the tags, tags that are listed twice, tags of other channels
and lines that name no version do not matter. -/
theorem run_sees_own_channel (hplugins : plugins ⊆ knownPlugins)
    (hregistry : Registry.ofPlugins plugins = .ok registry)
    (hlistings : Relisted c.tagFormat (c.channelOn w.release.branch) w.answers second) :
    let run := c.run registry s
    let v := { w with answers := second }
    run.ending v = run.ending w ∧ run.shown v = run.shown w ∧
      (run.after v).files = (run.after w).files ∧
      (run.after v).release = { (run.after w).release with tags := (run.after v).release.tags } := by
  intro run v
  have h := ReleaseConfig.agrees_run (s := s) (over_known hplugins hregistry) hlistings
  obtain ⟨hending, tags, hafter⟩ := ending_of_agrees h (w := w) (v := v) ⟨rfl, rfl⟩
  refine ⟨hending, ?_, ?_, ?_⟩
  · rw [Action.shown, hafter]
    rfl
  · rw [hafter]
    rfl
  · rw [hafter]
    rfl

theorem next_isolated_from_beta :
    let run := (channelConfig "next").run knownRegistry { root := .ofText "/repo" }
    let first := channelWorld "next" ["v1.2.0", "v1.3.0-next.1"]
    let second := channelWorld "next"
      ["v1.3.0-next.1", "nightly", "v2.0.0-beta.4", "v1.2.0", "v1.3.0-next.1"]
    run.ending second = run.ending first ∧ run.shown second = run.shown first ∧
      tagged (run.shown second) = ["v1.3.0-next.2"] := by
  intro run first second
  have hother : OtherListing first.answers second.answers := by
    intro argv before hargv
    change featureAnswer _ argv = featureAnswer _ argv
    rw [featureAnswer, featureAnswer, if_neg hargv, if_neg hargv]
  have hchannel : (channelConfig "next").channelOn "next" = some "next" := by decide +kernel
  have hlisted : SameListed (channelConfig "next").tagFormat
      ((channelConfig "next").channelOn first.release.branch)
      (Git.listing ["v1.2.0", "v1.3.0-next.1"])
      (Git.listing ["v1.3.0-next.1", "nightly", "v2.0.0-beta.4", "v1.2.0", "v1.3.0-next.1"]) := by
    refine ⟨[⟨1, 2, 0, none, none⟩, ⟨1, 3, 0, some "next", some 1⟩],
      [⟨1, 3, 0, some "next", some 1⟩, ⟨2, 0, 0, some "beta", some 4⟩, ⟨1, 2, 0, none, none⟩,
        ⟨1, 3, 0, some "next", some 1⟩], by decide +kernel, by decide +kernel, fun v hv => ?_⟩
    change v.channel = none ∨ v.channel = (channelConfig "next").channelOn "next" at hv
    rw [hchannel] at hv
    have hbeta : v ≠ ⟨2, 0, 0, some "beta", some 4⟩ := by
      rintro rfl
      revert hv
      decide
    simp only [List.mem_cons, List.not_mem_nil, or_false, hbeta, false_or]
    tauto
  have htagged : tagged (run.shown first) = ["v1.3.0-next.2"] := by decide +kernel
  have hsecond : second = { first with answers := second.answers } := rfl
  obtain ⟨hending, hshown, -⟩ := run_sees_own_channel (s := { root := .ofText "/repo" })
    (fun _ h => h) ofPlugins_knownPlugins ⟨hother, fun _ => ⟨_, rfl, hlisted⟩⟩
  rw [hsecond]
  exact ⟨hending, hshown, (congrArg tagged hshown).trans htagged⟩

end ReleasePipeline
