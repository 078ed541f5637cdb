import ReleasePipeline.Proofs.Run.Kept
import ReleasePipeline.Proofs.Version.Next
import ReleasePipeline.Proofs.Version.Tag

/-! The tag that a run makes: a new one, whose version comes after the listed ones. -/
namespace ReleasePipeline

open ReleasePipeline.Action Procedure

/-- The name that the words of a command give to a new tag. -/
def Git.tagName? : List String → Option String
  | ["git", "tag", name] => some name
  | _ => none

/-- The names of the tags that are to be made among events. -/
def tagged (es : List Event) : List String := (commandsOf es).filterMap fun c => Git.tagName? c.argv

theorem tagged_append (es fs : List Event) : tagged (es ++ fs) = tagged es ++ tagged fs := by
  rw [tagged, commandsOf_append, List.filterMap_append]
  rfl

namespace Version

/-- The version with its tag is new among the listed tags: its tag is none of them, and it comes
after the stable versions and those of its channel. -/
structure Fresh (format : String) (channel : Option String) (listed : List String) (v : Version)
    (tag : String) : Prop where
  ofVersion : Tag.ofVersion format v = .ok tag
  notListed : tag ∉ listed
  after : ∀ other ∈ listed, ∀ u, Tag.version? format other = .ok (some u) →
    u.channel = none ∨ u.channel = channel → u.Below v

variable {format tag : String} {channel : Option String} {listed : List String} {v : Version}
  {vs : List Version}

theorem mem_versionsOf (h : Lifecycle.versionsOf format listed = .ok vs) {other : String}
    (hother : other ∈ listed) {u : Version} (hu : Tag.version? format other = .ok (some u)) :
    u ∈ vs := by
  obtain ⟨found, hfound, hvs⟩ := bind_eq_ok.mp h
  obtain ⟨found', hmem, hother'⟩ := exists_of_mem_mapM hfound hother
  cases hvs
  rw [hu] at hother'
  cases hother'
  exact List.mem_filterMap.mpr ⟨some u, hmem, rfl⟩

theorem exists_of_mem_versionsOf (h : Lifecycle.versionsOf format listed = .ok vs) {u : Version}
    (hu : u ∈ vs) : ∃ other ∈ listed, Tag.version? format other = .ok (some u) := by
  obtain ⟨found, hfound, hvs⟩ := bind_eq_ok.mp h
  cases hvs
  obtain ⟨found', hmem, rfl⟩ := List.mem_filterMap.mp hu
  exact exists_of_mapM_mem hfound hmem

theorem legible_of_versionsOf (h : Lifecycle.versionsOf format listed = .ok vs) {u : Version}
    (hu : u ∈ vs) : u.Legible := by
  obtain ⟨other, -, hother⟩ := exists_of_mem_versionsOf h hu
  exact Tag.legible_of_version? hother

/-- The version with its tag is the next one after those of the listed tags. -/
def Chosen (format : String) (channel : Option String) (listed : List String) (v : Version)
    (tag : String) : Prop :=
  ∃ vs bump, Lifecycle.versionsOf format listed = .ok vs ∧ nextFor vs bump channel = .ok v ∧
    Tag.ofVersion format v = .ok tag

theorem fresh_of_chosen (hone : Tag.OneMark format)
    (hchannel : ∀ name, channel = some name → IsChannelName name)
    (h : v.Chosen format channel listed tag) : v.Legible ∧ Fresh format channel listed v tag := by
  obtain ⟨vs, bump, hvs, hnext, htag⟩ := h
  obtain ⟨b, rfl⟩ := exists_next_of_nextFor hnext
  have hlegible : (next vs b channel).Legible :=
    legible_next (fun u hu => legible_of_versionsOf hvs hu) hchannel
  have hafter : ∀ other ∈ listed, ∀ u, Tag.version? format other = .ok (some u) →
      u.channel = none ∨ u.channel = channel → u.Below (next vs b channel) :=
    fun other hother u hu hc => below_next (mem_versionsOf hvs hother hu) hc
  refine ⟨hlegible, htag, fun hlisted => ?_, hafter⟩
  -- a listed tag would be read back as the next version itself
  have hread := Tag.version?_of_ofVersion hone hlegible htag
  exact not_below_self (hafter tag hlisted _ hread (Or.inr next_channel))

end Version

/-- Between the worlds no tag is made, and of the release only the bump and the notes change. -/
structure Tagless (w w' : World) : Prop where
  answers : w'.answers = w.answers
  release : w'.release = { w.release with bump := w'.release.bump, notes := w'.release.notes }
  events : ∃ es, w'.events = w.events ++ es ∧ tagged es = []

instance : IsPreorder World Tagless where
  refl w := ⟨rfl, rfl, [], (List.append_nil _).symm, rfl⟩
  trans w₁ w₂ w₃ := by
    intro h₁ h₂
    refine ⟨h₂.answers.trans h₁.answers, ?_,
      World.exists_events_append tagged_append h₁.events h₂.events⟩
    rw [h₂.release, h₁.release]

variable {registry : Registry} {c : ReleaseConfig} {s : Settings} {w w₀ : World}
  {steps : List NamedStep} {phase : Phase} {format tag : String} {channel : Option String}
  {listed : List String} {v : Version}

theorem tagName?_of_stepCommand {dryRun : Bool} {argv : List String}
    (h : StepCommand dryRun argv) : Git.tagName? argv = none := by
  rcases h with ⟨paths, rfl⟩ | ⟨-, hwork⟩
  · rfl
  · cases hwork <;> rfl

theorem admits_tagless : Admits Tagless True fun argv => Git.tagName? argv = none where
  message w level text := ⟨rfl, rfl, [.message level text], rfl, rfl⟩
  files _ w files := ⟨rfl, rfl, [], (List.append_nil _).symm, rfl⟩
  run w c hc := ⟨rfl, rfl, [.run c], rfl, by simp [tagged, commandsOf, hc]⟩

theorem admitsSteps_tagless : AdmitsSteps Tagless s where
  message := admits_tagless.message
  files _ := admits_tagless.files trivial
  run w c hc := admits_tagless.run w c (tagName?_of_stepCommand hc)
  bump _ _ := ⟨rfl, rfl, [], (List.append_nil _).symm, rfl⟩
  notes _ _ := ⟨rfl, rfl, [], (List.append_nil _).symm, rfl⟩
  push _ w c hc := admits_tagless.run w c (hc ▸ rfl)

/-- Until a run makes its tag, it only comes to know more of the release. -/
structure Untagged (w₀ : World) (k : Release → Prop) (w : World) : Prop where
  answers : w.answers = w₀.answers
  release : k w.release
  events : ∃ es, w.events = w₀.events ++ es ∧ tagged es = []

/-- What a run knows of the release does not depend on the bump and the notes. -/
def Lasting (k : Release → Prop) : Prop := ∀ r bump notes, k r → k { r with bump, notes }

/-- Once the version is decided on, the tag is made at most once. -/
structure Tagged (w₀ : World) (v : Version) (tag : String) (w : World) : Prop where
  version : w.release.nextVersion = some v
  events : ∃ es, w.events = w₀.events ++ es ∧ (tagged es = [] ∨ tagged es = [tag])

/-- How a run ends: without a tag, or with the one that it has chosen. -/
def Concluded (w₀ : World) (format : String) (channel : Option String) (listed : List String)
    (w : World) : Prop :=
  ∃ es, w.events = w₀.events ++ es ∧ (tagged es = [] ∨ ∃ v tag, tagged es = [tag] ∧
    w.release.nextVersion = some v ∧ v.Chosen format channel listed tag)

/-- How a run ends: without a tag, or with one that is new. -/
def Ended (w₀ : World) (format : String) (channel : Option String) (listed : List String)
    (w : World) : Prop :=
  ∃ es, w.events = w₀.events ++ es ∧ (tagged es = [] ∨ ∃ v tag, tagged es = [tag] ∧
    w.release.nextVersion = some v ∧ v.Legible ∧ v.Fresh format channel listed tag)

section Stages

variable {k : Release → Prop}

theorem untagged_of_tagless {w' : World} (hk : Lasting k) (h : Untagged w₀ k w)
    (hw : Tagless w w') : Untagged w₀ k w' := by
  refine ⟨hw.answers.trans h.answers, ?_,
    World.exists_events_append tagged_append h.events hw.events⟩
  rw [hw.release]
  exact hk _ _ _ h.release

theorem tagged_of_tagless {w' : World} (h : Tagged w₀ v tag w) (hw : Tagless w w') :
    Tagged w₀ v tag w' := by
  obtain ⟨es, hes, hmade⟩ := h.events
  obtain ⟨fs, hfs, hnone⟩ := hw.events
  refine ⟨?_, es ++ fs, ?_, ?_⟩
  · rw [hw.release]
    exact h.version
  · rw [hfs, hes, List.append_assoc]
  · rwa [tagged_append, hnone, List.append_nil]

theorem tagged_of_untagged (h : Untagged w₀ k w) (hv : w.release.nextVersion = some v) :
    Tagged w₀ v tag w := by
  obtain ⟨es, hes, hnone⟩ := h.events
  exact ⟨hv, es, hes, Or.inl hnone⟩

theorem concluded_of_untagged (h : Untagged w₀ k w) : Concluded w₀ format channel listed w := by
  obtain ⟨es, hes, hnone⟩ := h.events
  exact ⟨es, hes, Or.inl hnone⟩

theorem concluded_of_tagged (hchosen : v.Chosen format channel listed tag)
    (h : Tagged w₀ v tag w) : Concluded w₀ format channel listed w := by
  obtain ⟨es, hes, hnone | hmade⟩ := h.events
  · exact ⟨es, hes, Or.inl hnone⟩
  · exact ⟨es, hes, Or.inr ⟨v, tag, hmade, h.version, hchosen⟩⟩

theorem meets_learn (k' : Release → Prop) {f : Release → Release} {E : World → Prop}
    (hf : ∀ r, k r → k' (f r)) :
    Meets (Untagged w₀ k) (changeRelease f) (fun _ => Untagged w₀ k') E :=
  meets_changeRelease fun _ h => ⟨h.answers, hf _ h.release, h.events⟩

variable {α : Type} {x : Action α}

theorem meets_tagless (hk : Lasting k) (hx : Keeps Tagless x) :
    Meets (Untagged w₀ k) x (fun _ => Untagged w₀ k) (Concluded w₀ format channel listed) :=
  meets_of_kept hx (fun _ _ => untagged_of_tagless hk) fun _ => concluded_of_untagged

theorem meets_later (hchosen : v.Chosen format channel listed tag) (hx : Keeps Tagless x) :
    Meets (Tagged w₀ v tag) x (fun _ => Tagged w₀ v tag) (Concluded w₀ format channel listed) :=
  meets_of_kept hx (fun _ _ => tagged_of_tagless) fun _ => concluded_of_tagged hchosen

end Stages

namespace Lifecycle

variable {output : String}

/-- What a run knows once it has read the history: its channel and the listed versions. -/
def HistoryKnown (format : String) (channel : Option String) (listed : List String)
    (r : Release) : Prop :=
  r.prerelease = channel ∧ versionsOf format listed = .ok r.tags

/-- What a run knows once it has decided on the next version. -/
def VersionKnown (v : Version) (tag : String) (r : Release) : Prop :=
  r.nextVersion = some v ∧ r.gitTag = some tag

theorem meets_readHistory
    (hlisting : ∀ before, (w₀.answers ("git" :: Git.tagListing) before).output = output) :
    Meets (Untagged w₀ fun r => r.prerelease = channel) ((readHistory format).perform s)
      (fun _ => Untagged w₀ (HistoryKnown format channel (Git.tagsOf output)))
      (Concluded w₀ format channel (Git.tagsOf output)) := by
  have hasks (args : List String) (h : Git.tagName? ("git" :: args) = none) :
      Keeps Tagless (Git.read s args) := Git.keeps_read admits_tagless h
  have hlist : Meets (Untagged w₀ fun r => r.prerelease = channel)
      ((Move.ask Git.tagListing).perform s)
      (fun listing w => listing = output ∧ Untagged w₀ (fun r => r.prerelease = channel) w)
      (Concluded w₀ format channel (Git.tagsOf output)) := by
    refine meets_of_keeps (hasks _ rfl) (fun w listing w' h hread hw => ?_) fun w w' h hw =>
      concluded_of_untagged (untagged_of_tagless (fun _ _ _ h => h) h hw)
    obtain ⟨before, rfl⟩ := Git.output_of_read hread
    rw [h.answers, hlisting]
    exact ⟨rfl, untagged_of_tagless (fun _ _ _ h => h) h hw⟩
  have hlasting : Lasting (HistoryKnown format channel (Git.tagsOf output)) := fun _ _ _ h => h
  simp only [readHistory, perform_bind, perform_act, perform_ofExcept, perform_changeRelease,
    perform_world, perform_say]
  refine meets_bind hlist fun listing => meets_of_fact ?_
  rintro rfl
  refine meets_bind (meets_ofExcept fun _ h => concluded_of_untagged h) fun versions => ?_
  refine meets_of_fact fun hversions => ?_
  refine meets_bind (meets_learn (HistoryKnown format channel _)
    fun _ h => ⟨h, mapError_eq_ok.mp hversions⟩) fun _ => ?_
  refine meets_get_bind fun w _ => ?_
  refine meets_bind (meets_ofExcept fun _ h => concluded_of_untagged h) fun since => ?_
  refine meets_of_fact fun _ => ?_
  refine meets_bind (meets_learn (HistoryKnown format channel _) fun _ h => h) fun _ => ?_
  refine meets_bind (meets_tagless hlasting (hasks _ rfl)) fun commits => ?_
  refine meets_bind (meets_learn (HistoryKnown format channel _) fun _ h => h) fun _ => ?_
  exact meets_tagless hlasting (keeps_log admits_tagless _ _)

theorem meets_decideVersion (bump : BumpKind) :
    Meets (Untagged w₀ (HistoryKnown format channel listed)) ((decideVersion format bump).perform s)
      (fun v w => ∃ tag, v.Chosen format channel listed tag ∧ Untagged w₀ (VersionKnown v tag) w)
      (Concluded w₀ format channel listed) := by
  simp only [decideVersion, perform_bind, perform_ofExcept, perform_changeRelease, perform_world,
    perform_say, perform_pure]
  refine meets_get_bind fun w hw => ?_
  obtain ⟨hprerelease, hversions⟩ := hw.release
  refine meets_bind (meets_ofExcept fun _ h => concluded_of_untagged h) fun v => ?_
  refine meets_of_fact fun hnext => ?_
  refine meets_bind (meets_learn (fun r => r.nextVersion = some v) fun _ _ => rfl) fun _ => ?_
  refine meets_bind (meets_ofExcept fun _ h => concluded_of_untagged h) fun tag => ?_
  refine meets_of_fact fun htag => ?_
  rw [hprerelease] at hnext
  have hchosen : v.Chosen format channel listed tag :=
    ⟨w.release.tags, bump, hversions, mapError_eq_ok.mp hnext, mapError_eq_ok.mp htag⟩
  refine meets_bind (meets_learn (VersionKnown v tag) fun _ h => ⟨h, rfl⟩) fun _ => ?_
  refine meets_bind (meets_tagless (fun _ _ _ h => h) (keeps_log admits_tagless _ _)) fun _ => ?_
  exact meets_pure fun w h => ⟨tag, hchosen, h⟩

theorem meets_tagging (hreal : s.dryRun = false) (hchosen : v.Chosen format channel listed tag) :
    Meets (Untagged w₀ (VersionKnown v tag)) ((Move.change (Git.tagging tag)).perform s)
      (fun _ => Tagged w₀ v tag) (Concluded w₀ format channel listed) := by
  refine meets_bind (Git.meets_change hreal (fun w text h => ?_) fun _ => concluded_of_tagged hchosen)
    fun _ => meets_pure fun _ h => h
  obtain ⟨es, hes, hnone⟩ := h.events
  refine ⟨h.release.1, es ++ [.message .debug text, .run (Git.command s (Git.tagging tag))], ?_,
    Or.inr ?_⟩
  · simp [World.executed, World.recorded, hes]
  · rw [tagged_append, hnone]
    rfl

theorem meets_makeTag (hchosen : v.Chosen format channel listed tag) :
    Meets (Untagged w₀ (VersionKnown v tag)) ((makeTag s).perform s)
      (fun _ => Tagged w₀ v tag) (Concluded w₀ format channel listed) := by
  simp only [makeTag, perform_bind, perform_world]
  refine meets_get_bind fun w hw => ?_
  obtain ⟨-, htag⟩ := hw.release
  cases hdry : s.dryRun with
  | true =>
    have hlasting : Lasting (VersionKnown v tag) := fun _ _ _ h => h
    simp only [if_true, perform_say]
    refine meets_weaken (meets_tagless hlasting (keeps_log admits_tagless _ _)) fun _ w h => ?_
    exact tagged_of_untagged h h.release.1
  | false =>
    have hpush : Keeps Tagless ((Move.change (Git.tagPush s.remote tag)).perform s) :=
      keeps_bind (Git.keeps_change admits_tagless fun _ => rfl) fun _ => keeps_pure ""
    simp only [htag, Bool.false_eq_true, if_false, perform_bind, perform_act, perform_say]
    refine meets_bind (meets_tagging hdry hchosen) fun _ => ?_
    refine meets_bind (meets_later hchosen hpush) fun _ => ?_
    exact meets_later hchosen (keeps_log admits_tagless _ _)

theorem meets_release (hknown : ∀ n ∈ steps, n.step.Known) (bump : BumpKind) :
    Meets (Untagged w₀ (HistoryKnown format channel listed))
      ((release s format steps bump).perform s)
      (fun _ => Concluded w₀ format channel listed) (Concluded w₀ format channel listed) := by
  have hphase (phase : Phase) : Keeps Tagless ((runPhase steps phase).perform s) :=
    keeps_runPhase admitsSteps_tagless hknown
  simp only [release, perform_bind, perform_world, perform_pure]
  refine meets_bind (meets_decideVersion bump) fun v => ?_
  refine meets_of_exists fun tag => meets_of_fact fun hchosen => ?_
  have hlasting : Lasting (VersionKnown v tag) := fun _ _ _ h => h
  refine meets_bind (meets_tagless hlasting (hphase .generateNotes)) fun _ => ?_
  refine meets_bind (meets_tagless hlasting (hphase .prepare)) fun _ => ?_
  refine meets_bind (meets_makeTag hchosen) fun _ => ?_
  refine meets_weaken (meets_later hchosen ?_) fun _ _ => concluded_of_tagged hchosen
  exact keeps_bind (hphase .publish) fun _ => keeps_bind keeps_get fun _ => keeps_pure _

theorem meets_runSteps (hknown : ∀ n ∈ steps, n.step.Known)
    (hlisting : ∀ before, (w₀.answers ("git" :: Git.tagListing) before).output = output) :
    Meets (Untagged w₀ fun r => r.prerelease = channel) ((runSteps s format steps).perform s)
      (fun _ => Concluded w₀ format channel (Git.tagsOf output))
      (Concluded w₀ format channel (Git.tagsOf output)) := by
  have hphase (phase : Phase) : Keeps Tagless ((runPhase steps phase).perform s) :=
    keeps_runPhase admitsSteps_tagless hknown
  simp only [runSteps, analyze, perform_bind, perform_world, bind_assoc]
  refine meets_bind (meets_tagless (fun _ _ _ h => h) (hphase .verify)) fun _ => ?_
  refine meets_bind (meets_readHistory hlisting) fun _ => ?_
  refine meets_bind (meets_tagless (fun _ _ _ h => h) (hphase .analyze)) fun _ => ?_
  refine meets_get_bind fun w _ => ?_
  cases w.release.bump with
  | some bump => exact meets_release hknown bump
  | none =>
    simp only [perform_bind, perform_world, perform_say, perform_pure]
    refine meets_weaken (meets_tagless (fun _ _ _ h => h) ?_) fun _ _ => concluded_of_untagged
    refine keeps_bind keeps_get fun w => ?_
    exact keeps_bind (keeps_log admits_tagless _ _) fun _ => keeps_pure _

end Lifecycle

namespace ReleaseConfig

/-- The channel of the releases of a branch. -/
def channelOn (c : ReleaseConfig) (branch : String) : Option String :=
  (c.matcher? branch).bind fun m => m.channelFor branch

theorem concluded_run {output : String} (hover : registry.Over knownPlugins)
    (hlisting : ∀ before, (w.answers ("git" :: Git.tagListing) before).output = output) :
    Concluded w c.tagFormat (c.channelOn w.release.branch) (Git.tagsOf output)
      ((c.run registry s).after w) := by
  have hstart : Untagged w (fun r => r.branch = w.release.branch) w :=
    ⟨rfl, rfl, [], (List.append_nil _).symm, rfl⟩
  refine after_of_meets ?_ hstart
  simp only [run, procedure, perform_bind, perform_world]
  refine meets_get_bind fun w₁ h₁ => ?_
  rw [h₁.release]
  cases hmatcher : c.matcher? w.release.branch with
  | none =>
    simp only [perform_bind, perform_say, perform_pure]
    refine meets_weaken (meets_tagless (fun _ _ _ h => h) ?_) fun _ _ => concluded_of_untagged
    exact keeps_bind (keeps_log admits_tagless _ _) fun _ => keeps_pure _
  | some m =>
    have hm : c.channelOn w.release.branch = m.channelFor w.release.branch := by
      rw [channelOn, hmatcher]
      rfl
    simp only [perform_bind, perform_changeRelease, perform_world, perform_ofExcept]
    rw [hm]
    refine meets_bind (meets_learn (fun r => r.prerelease = m.channelFor w.release.branch)
      fun _ _ => rfl) fun _ => ?_
    refine meets_get_bind fun w₂ _ => ?_
    refine meets_bind (meets_ofExcept fun _ h => concluded_of_untagged h) fun steps => ?_
    refine meets_of_fact fun hsteps => ?_
    have hknown := fun n hn => known_of_buildSteps (n := n) hover hsteps hn
    exact Lifecycle.meets_runSteps hknown hlisting

theorem ended_run {output : String} (hover : registry.Over knownPlugins)
    (hone : Tag.OneMark c.tagFormat)
    (hchannel : ∀ name, c.channelOn w.release.branch = some name → Version.IsChannelName name)
    (hlisting : ∀ before, (w.answers ("git" :: Git.tagListing) before).output = output) :
    Ended w c.tagFormat (c.channelOn w.release.branch) (Git.tagsOf output)
      ((c.run registry s).after w) := by
  obtain ⟨es, hes, hmade⟩ := concluded_run (c := c) (s := s) hover hlisting
  refine ⟨es, hes, hmade.imp_right ?_⟩
  rintro ⟨v, tag, htag, hversion, hchosen⟩
  exact ⟨v, tag, htag, hversion, Version.fresh_of_chosen hone hchannel hchosen⟩

end ReleaseConfig

end ReleasePipeline
