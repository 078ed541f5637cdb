import ReleasePipeline.Proofs.Run.Tagging
import ReleasePipeline.Proofs.Tool.Reading
import ReleasePipeline.Proofs.Tool.TagListing

/-! What a run finds in the history, and when it finds what another run has tagged. -/
namespace ReleasePipeline

open ReleasePipeline.Action Procedure

namespace Git

/-- The command asks for the tags or for the commits. -/
def asksHistory : List String → Bool
  | ["git", "tag", "--list", "--merged", "HEAD"] => true
  | "git" :: "log" :: _ => true
  | _ => false

/-- The words of the commands among events that ask for the tags or for the commits. -/
def asked (es : List Event) : List (List String) :=
  ((commandsOf es).map (·.argv)).filter asksHistory

theorem asked_append (es fs : List Event) : asked (es ++ fs) = asked es ++ asked fs := by
  rw [asked, commandsOf_append, List.map_append, List.filter_append]
  rfl

end Git

namespace Lifecycle

/-- The last release of a channel among listed tags, and its tag. -/
def latest (format : String) (channel : Option String) (listed : List String) :
    Except TagError (Option Version × Option String) := do
  let last := Version.lastRelease (← versionsOf format listed) channel
  return (last, ← tagOf? format last)

end Lifecycle

variable {c : ReleaseConfig} {registry : Registry} {s t : Settings} {w w' w₀ : World}
  {steps : List NamedStep} {phase : Phase} {format : String} {channel : Option String}
  {listed : List String} {output : String}

/-- Between the worlds nobody asks for the history, and nothing that was found in it changes. -/
structure Elsewhere (w w' : World) : Prop where
  answers : w'.answers = w.answers
  prerelease : w'.release.prerelease = w.release.prerelease
  lastRelease : w'.release.lastRelease = w.release.lastRelease
  lastTag : w'.release.lastTag = w.release.lastTag
  commits : w'.release.commits = w.release.commits
  events : ∃ es, w'.events = w.events ++ es ∧ Git.asked es = []

instance : IsPreorder World Elsewhere where
  refl _ := ⟨rfl, rfl, rfl, rfl, rfl, [], (List.append_nil _).symm, rfl⟩
  trans _ _ _ h h' :=
    ⟨h'.answers.trans h.answers, h'.prerelease.trans h.prerelease,
      h'.lastRelease.trans h.lastRelease, h'.lastTag.trans h.lastTag, h'.commits.trans h.commits,
      World.exists_events_append Git.asked_append h.events h'.events⟩

theorem asksHistory_of_stepCommand {dryRun : Bool} {argv : List String}
    (h : StepCommand dryRun argv) : Git.asksHistory argv = false := by
  rcases h with ⟨paths, rfl⟩ | ⟨-, hwork⟩
  · rfl
  · cases hwork <;> rfl

theorem admits_elsewhere : Admits Elsewhere True fun argv => Git.asksHistory argv = false where
  message _ level text := ⟨rfl, rfl, rfl, rfl, rfl, [.message level text], rfl, rfl⟩
  files _ _ _ := ⟨rfl, rfl, rfl, rfl, rfl, [], (List.append_nil _).symm, rfl⟩
  run _ c hc := ⟨rfl, rfl, rfl, rfl, rfl, [.run c], rfl, by simp [Git.asked, commandsOf, hc]⟩

theorem admitsSteps_elsewhere : AdmitsSteps Elsewhere s where
  message := admits_elsewhere.message
  files _ := admits_elsewhere.files trivial
  run w c hc := admits_elsewhere.run w c (asksHistory_of_stepCommand hc)
  bump _ _ := ⟨rfl, rfl, rfl, rfl, rfl, [], (List.append_nil _).symm, rfl⟩
  notes _ _ := ⟨rfl, rfl, rfl, rfl, rfl, [], (List.append_nil _).symm, rfl⟩
  push _ w c hc := admits_elsewhere.run w c (hc ▸ rfl)

theorem asksHistory_of_tag {argv : List String} {name : String}
    (h : argv = "git" :: Git.tagging name ∨ argv = "git" :: Git.tagPush s.remote name) :
    Git.asksHistory argv = false := by
  rcases h with rfl | rfl
  · simp [Git.asksHistory, Git.tagging]
  · rfl

/-- After the history nothing more is asked about it. -/
theorem admitsRelease_elsewhere : AdmitsRelease Elsewhere s where
  toAdmitsSteps := admitsSteps_elsewhere
  nextVersion _ _ := ⟨rfl, rfl, rfl, rfl, rfl, [], (List.append_nil _).symm, rfl⟩
  gitTag _ _ := ⟨rfl, rfl, rfl, rfl, rfl, [], (List.append_nil _).symm, rfl⟩
  tag _ w c _ hc := admits_elsewhere.run w c (asksHistory_of_tag hc)

/-- The run has asked some questions so far, and knows its channel. -/
structure Curious (w₀ : World) (channel : Option String) (questions : List (List String))
    (w : World) : Prop where
  answers : w.answers = w₀.answers
  prerelease : w.release.prerelease = channel
  events : ∃ es, w.events = w₀.events ++ es ∧ Git.asked es = questions

/-- What a run has found: nothing where it did not ask, no more than the tags where their numbers are
too long, and the last release where it asked for the commits since then. -/
inductive Explored (w₀ : World) (format : String) (channel : Option String) (listed : List String)
    (w : World) : Prop
  | never {es : List Event} (h : w.events = w₀.events ++ es) (hasked : Git.asked es = [])
  | tags {es : List Event} {e : TagError} (h : w.events = w₀.events ++ es)
    (hasked : Git.asked es = ["git" :: Git.tagListing])
    (hlatest : Lifecycle.latest format channel listed = .error e)
  | commits {es : List Event} {last : Option Version} {since : Option String}
    (h : w.events = w₀.events ++ es)
    (hasked : Git.asked es = ["git" :: Git.tagListing, "git" :: Git.commitListing since])
    (hlatest : Lifecycle.latest format channel listed = .ok (last, since))
    (hlast : w.release.lastRelease = last) (hsince : w.release.lastTag = since)

theorem curious_of_elsewhere {questions : List (List String)}
    (h : Curious w₀ channel questions w) (hw : Elsewhere w w') :
    Curious w₀ channel questions w' := by
  have hevents := World.exists_events_append Git.asked_append h.events hw.events
  rw [List.append_nil] at hevents
  exact ⟨hw.answers.trans h.answers, hw.prerelease.trans h.prerelease, hevents⟩

theorem explored_of_curious (h : Curious w₀ channel [] w) : Explored w₀ format channel listed w := by
  obtain ⟨es, hes, hasked⟩ := h.events
  exact .never hes hasked

theorem explored_of_elsewhere (h : Explored w₀ format channel listed w) (hw : Elsewhere w w') :
    Explored w₀ format channel listed w' := by
  obtain ⟨fs, hfs, hnone⟩ := hw.events
  have hevents {es : List Event} (hes : w.events = w₀.events ++ es) :
      w'.events = w₀.events ++ (es ++ fs) := by rw [hfs, hes, List.append_assoc]
  have hquestions (es : List Event) : Git.asked (es ++ fs) = Git.asked es := by
    rw [Git.asked_append, hnone, List.append_nil]
  cases h with
  | never hes hasked => exact .never (hevents hes) ((hquestions _).trans hasked)
  | tags hes hasked hlatest => exact .tags (hevents hes) ((hquestions _).trans hasked) hlatest
  | commits hes hasked hlatest hlast hsince =>
    exact .commits (hevents hes) ((hquestions _).trans hasked) hlatest (hw.lastRelease.trans hlast)
      (hw.lastTag.trans hsince)

theorem explored_of_found (h : Explored w₀ format channel listed w) (hevents : w'.events = w.events)
    (hlast : w'.release.lastRelease = w.release.lastRelease)
    (hsince : w'.release.lastTag = w.release.lastTag) : Explored w₀ format channel listed w' := by
  cases h with
  | never hes hasked => exact .never (hevents.trans hes) hasked
  | tags hes hasked hlatest => exact .tags (hevents.trans hes) hasked hlatest
  | commits hes hasked hlatest hl hs =>
    exact .commits (hevents.trans hes) hasked hlatest (hlast.trans hl) (hsince.trans hs)

namespace Lifecycle

theorem latest_eq_error {e : TagError} (h : versionsOf format listed = .error e) :
    latest format channel listed = .error e := by
  rw [latest, h]
  rfl

theorem latest_eq {versions : List Version} (h : versionsOf format listed = .ok versions) :
    latest format channel listed = (tagOf? format (Version.lastRelease versions channel)).map
      fun since => (Version.lastRelease versions channel, since) := by
  rw [latest, h]
  rfl

theorem curious_of_read {args : List String} {questions : List (List String)}
    (hargs : Git.asksHistory ("git" :: args) = true) (h : Curious w₀ channel questions w) :
    Curious w₀ channel (questions ++ ["git" :: args])
      ((Git.told args w).executed (Git.command s args)) := by
  obtain ⟨es, hes, hasked⟩ := h.events
  refine ⟨h.answers, h.prerelease,
    es ++ [Git.announcement args, .run (Git.command s args)], ?_, ?_⟩
  · simp [World.executed, World.recorded, Git.told, hes]
  · rw [Git.asked_append, hasked]
    simp [Git.asked, commandsOf, Git.announcement, Git.command, hargs]

section Listing

variable (hlisting : ∀ before, (w₀.answers ("git" :: Git.tagListing) before).Serves ∧
  (w₀.answers ("git" :: Git.tagListing) before).output = output)

include hlisting

theorem meets_askTags {E : World → Prop} :
    Meets (Curious w₀ channel []) ((Move.ask Git.tagListing).perform s)
      (fun listing w => listing = output ∧ Curious w₀ channel ["git" :: Git.tagListing] w) E := by
  intro w h
  rw [Move.perform, Git.read_of_answers (h.answers ▸ hlisting)]
  exact ⟨rfl, curious_of_read rfl h⟩

/-- The log is asked for the commits since the last release among the listed tags. -/
theorem explored_readHistory :
    Meets (Curious w₀ channel []) ((readHistory format).perform s)
      (fun _ => Explored w₀ format channel (Git.tagsOf output))
      (Explored w₀ format channel (Git.tagsOf output)) := by
  simp only [readHistory, perform_bind, perform_act, perform_ofExcept, perform_changeRelease,
    perform_world, perform_say]
  refine meets_bind (meets_askTags hlisting) fun listing => meets_of_fact ?_
  rintro rfl
  refine meets_bind (meets_ofExcept_of_error fun e he w h => ?_) fun versions =>
    meets_of_fact fun hversions => ?_
  · obtain ⟨e', hfail, -⟩ := mapError_eq_error.mp he
    obtain ⟨es, hes, hasked⟩ := h.events
    exact .tags hes hasked (latest_eq_error hfail)
  let last := Version.lastRelease versions channel
  have hlatest : latest format channel (Git.tagsOf listing) =
      (tagOf? format last).map fun since => (last, since) :=
    latest_eq (mapError_eq_ok.mp hversions)
  refine meets_bind (meets_changeRelease (Q := fun w => w.release.lastRelease = last ∧
    Curious w₀ channel ["git" :: Git.tagListing] w) fun w h =>
      ⟨congrArg (Version.lastRelease versions) h.prerelease, h.answers, h.prerelease, h.events⟩)
    fun _ => ?_
  refine meets_get_bind fun w hw => ?_
  rw [hw.1]
  refine meets_bind (meets_ofExcept_of_error fun e he w h => ?_) fun since =>
    meets_of_fact fun hsince => ?_
  · obtain ⟨e', hfail, -⟩ := mapError_eq_error.mp he
    obtain ⟨es, hes, hasked⟩ := h.2.events
    refine .tags (e := e') hes hasked ?_
    rw [hlatest, hfail]
    rfl
  refine meets_bind (meets_changeRelease (Q := fun w => w.release.lastTag = since ∧
    w.release.lastRelease = last ∧ Curious w₀ channel ["git" :: Git.tagListing] w) fun w h =>
      ⟨rfl, h.1, h.2.answers, h.2.prerelease, h.2.events⟩) fun _ => ?_
  refine meets_bind (meets_of_after (Q := Explored w₀ format channel (Git.tagsOf listing))
    (fun w h => ?_) fun _ h => h) fun commits => ?_
  · obtain ⟨hlastTag, hlast, hcurious⟩ := h
    rw [Move.perform, Git.after_read]
    have hquestion : Git.asksHistory ("git" :: Git.commitListing since) = true := rfl
    obtain ⟨es, hes, hasked⟩ := (curious_of_read (s := s) hquestion hcurious).events
    refine .commits hes hasked ?_ hlast hlastTag
    rw [hlatest, mapError_eq_ok.mp hsince]
    rfl
  refine meets_bind (meets_changeRelease fun w h => explored_of_found h rfl rfl rfl) fun _ => ?_
  exact meets_of_kept (keeps_log admits_elsewhere _ _) (fun _ _ => explored_of_elsewhere) fun _ h => h

end Listing

section History

variable {P Q : World → Prop} (hP : ∀ w w', P w → Elsewhere w w' → P w') (hend : ∀ w, P w → Q w)
  (hQ : ∀ w w', Q w → Elsewhere w w' → Q w')
  (hhistory : Meets P ((readHistory format).perform s) (fun _ => Q) Q)

include hP hend hQ hhistory

/-- What the reading of the history achieves is kept by all that comes after it. -/
theorem meets_runSteps_of_history (hknown : ∀ n ∈ steps, n.step.Known) :
    Meets P ((runSteps s format steps).perform s) (fun _ => Q) Q := by
  have hphase (phase : Phase) : Keeps Elsewhere ((runPhase steps phase).perform s) :=
    keeps_runPhase admitsSteps_elsewhere hknown
  simp only [runSteps, analyze, perform_bind, perform_world, bind_assoc]
  refine meets_bind (meets_of_kept (hphase .verify) hP hend) fun _ => ?_
  refine meets_bind hhistory fun _ => meets_of_kept ?_ hQ fun _ h => h
  refine keeps_bind (hphase .analyze) fun _ => keeps_bind keeps_get fun w => ?_
  cases w.release.bump with
  | some bump => exact keeps_release admitsRelease_elsewhere hknown bump
  | none =>
    simp only [perform_bind, perform_world, perform_say, perform_pure]
    refine keeps_bind keeps_get fun w => ?_
    exact keeps_bind (keeps_log admits_elsewhere _ _) fun _ => keeps_pure _

end History

end Lifecycle

namespace ReleaseConfig

/-- What the reading of the history achieves holds after a run, if it held before. -/
theorem after_run_of_history {P Q : World → Prop} (hover : registry.Over knownPlugins)
    (hP : ∀ w w', P w → Elsewhere w w' → P w') (hend : ∀ w, P w → Q w)
    (hQ : ∀ w w', Q w → Elsewhere w w' → Q w')
    (hhistory : Meets P ((Lifecycle.readHistory c.tagFormat).perform s) (fun _ => Q) Q)
    (hstart : Q w) (hbranch : ∀ m, c.matcher? w.release.branch = some m → P (w.onBranch m)) :
    Q ((c.run registry s).after w) := by
  simp only [run, procedure, perform_bind, perform_world]
  change Q (Action.after (Procedure.perform s _) w)
  cases hmatcher : c.matcher? w.release.branch with
  | none =>
    simp only [perform_bind, perform_say, perform_pure]
    refine hQ w _ hstart (keeps_bind ?_ (fun _ => keeps_pure _) w)
    exact keeps_log admits_elsewhere _ _
  | some m =>
    simp only [perform_bind, perform_changeRelease, perform_world, perform_ofExcept]
    change Q (Action.after (_ >>= _) (w.onBranch m))
    refine after_of_meets ?_ (hbranch m hmatcher)
    refine meets_bind (meets_ofExcept hend) fun steps => meets_of_fact fun hsteps => ?_
    exact Lifecycle.meets_runSteps_of_history hP hend hQ hhistory fun n hn =>
      known_of_buildSteps hover hsteps hn

/-- What a run finds in the history follows from the listed tags and the channel of its branch. -/
theorem explored_run (hover : registry.Over knownPlugins)
    (hlisting : ∀ before, (w.answers ("git" :: Git.tagListing) before).Serves ∧
      (w.answers ("git" :: Git.tagListing) before).output = output) :
    Explored w c.tagFormat (c.channelOn w.release.branch) (Git.tagsOf output)
      ((c.run registry s).after w) := by
  refine after_run_of_history (P := Curious w (c.channelOn w.release.branch) []) hover
    (fun _ _ => curious_of_elsewhere) (fun _ => explored_of_curious) (fun _ _ => explored_of_elsewhere)
    (Lifecycle.explored_readHistory hlisting) (.never (List.append_nil _).symm rfl) fun m hm => ?_
  refine ⟨rfl, ?_, [], (List.append_nil _).symm, rfl⟩
  rw [channelOn, hm]
  rfl

end ReleaseConfig

namespace Version

variable {listed' : List String} {tag : String} {v : Version}

/-- The texts name a version that a run chooses unless they cannot name its channel. -/
theorem Chosen.legible_iff (h : v.Chosen format channel listed tag) :
    v.Legible ↔ ∀ name, channel = some name → IsChannelName name := by
  obtain ⟨vs, bump, hvs, hnext, -⟩ := h
  obtain ⟨b, rfl⟩ := exists_next_of_nextFor hnext
  refine ⟨fun hlegible name hname => ?_, legible_next fun u hu => legible_of_versionsOf hvs hu⟩
  have hchannel : (next vs b channel).channel = some name := next_channel.trans hname
  generalize next vs b channel = u at hlegible hchannel
  cases hlegible with
  | stable a b c => cases hchannel
  | prerelease a b c other k hother =>
    cases hchannel
    exact hother

/-- Tags are read back for the formats that mention the version once and the channels that the text of
a version can name, and for no others. -/
theorem Chosen.version?_iff (h : v.Chosen format channel listed tag) :
    Tag.version? format tag = .ok (some v) ↔
      Tag.OneMark format ∧ ∀ name, channel = some name → IsChannelName name := by
  obtain ⟨_, _, _, _, hof⟩ := id h
  rw [Tag.version?_eq_iff hof, h.legible_iff]

/-- Where a tag that a run makes is listed beside the others, the last release is found if and only if
the tag is read back. -/
theorem Chosen.latest_iff (h : v.Chosen format channel listed tag)
    (hlisted : ∀ name, name ∈ listed' ↔ name ∈ listed ∨ name = tag) :
    Lifecycle.latest format channel listed' = .ok (some v, some tag) ↔
      Tag.version? format tag = .ok (some v) := by
  obtain ⟨vs, bump, hvs, hnext, htag⟩ := h
  obtain ⟨b, rfl⟩ := exists_next_of_nextFor hnext
  constructor
  · intro hlatest
    obtain ⟨vs', hvs', hlatest⟩ := bind_eq_ok.mp hlatest
    obtain ⟨since, -, hpair⟩ := bind_eq_ok.mp hlatest
    have hlast : lastRelease vs' channel = some (next vs b channel) :=
      (Prod.mk.inj (Except.ok.inj hpair)).1
    obtain ⟨other, hother, hread⟩ := exists_of_mem_versionsOf hvs' (mem_of_lastRelease hlast)
    rcases (hlisted other).mp hother with hold | rfl
    · -- the version comes after all that the first run has seen
      have hmem := mem_versionsOf hvs hold hread
      exact absurd (below_next hmem (Or.inr next_channel)) not_below_self
    · exact hread
  · intro hread
    obtain ⟨found, hfound, -⟩ := bind_eq_ok.mp hvs
    have hall : ∀ name ∈ listed', ∃ u, Tag.version? format name = .ok u := by
      intro name hname
      rcases (hlisted name).mp hname with hold | rfl
      · obtain ⟨u, -, hu⟩ := exists_of_mem_mapM hfound hold
        exact ⟨u, hu⟩
      · exact ⟨_, hread⟩
    obtain ⟨found', hfound'⟩ := exists_mapM_eq_ok hall
    have hvs' : Lifecycle.versionsOf format listed' = .ok (found'.filterMap id) :=
      bind_eq_ok.mpr ⟨found', hfound', rfl⟩
    have hmem : next vs b channel ∈ found'.filterMap id :=
      mem_versionsOf hvs' ((hlisted tag).mpr (Or.inr rfl)) hread
    have hlast : lastRelease (found'.filterMap id) channel = some (next vs b channel) := by
      refine lastRelease_of_below hmem (Or.inr next_channel) fun u hu hc => ?_
      obtain ⟨other, hother, hu⟩ := exists_of_mem_versionsOf hvs' hu
      rcases (hlisted other).mp hother with hold | rfl
      · exact Or.inr (below_next (mem_versionsOf hvs hold hu) hc)
      · rw [hread] at hu
        exact Or.inl (Option.some.inj (Except.ok.inj hu)).symm
    rw [Lifecycle.latest_eq hvs', hlast, Lifecycle.tagOf?, htag]
    rfl

end Version

namespace ReleaseConfig

variable {plugins : List Plugin} {tag : String} {v : Version}

theorem chosen_of_tagged (hover : registry.Over knownPlugins)
    (hlisting : ∀ before, (w.answers ("git" :: Git.tagListing) before).output = output)
    (htag : tag ∈ tagged ((c.run registry s).shown w))
    (hversion : ((c.run registry s).after w).release.nextVersion = some v) :
    v.Chosen c.tagFormat (c.channelOn w.release.branch) (Git.tagsOf output) tag := by
  obtain ⟨es, hes, hmade⟩ := concluded_run (c := c) (s := s) hover hlisting
  rw [shown_of_append hes] at htag
  rcases hmade with hnone | ⟨v', tag', hmade, hversion', hchosen⟩
  · rw [hnone] at htag
    exact absurd htag List.not_mem_nil
  · rw [hmade, List.mem_singleton] at htag
    rw [hversion'] at hversion
    cases hversion
    exact htag ▸ hchosen

/-- The next run on a branch, to which the tag of a release is listed beside the former ones, finds
that release and asks for the commits since its tag, if it asks at all. That holds for the tag formats
that mention the version once and the channels that the text of a version can name, and for no
others. -/
theorem next_run_finds_release (hplugins : plugins ⊆ knownPlugins)
    (hregistry : Registry.ofPlugins plugins = .ok registry) {output' : String}
    (hlisting : ∀ before, (w.answers ("git" :: Git.tagListing) before).output = output)
    (htag : tag ∈ tagged ((c.run registry s).shown w))
    (hversion : ((c.run registry s).after w).release.nextVersion = some v)
    (hlisting' : ∀ before, (w'.answers ("git" :: Git.tagListing) before).Serves ∧
      (w'.answers ("git" :: Git.tagListing) before).output = output')
    (hlisted : ∀ name, name ∈ Git.tagsOf output' ↔ name ∈ Git.tagsOf output ∨ name = tag)
    (hbranch : w'.release.branch = w.release.branch) :
    let asked := Git.asked ((c.run registry t).shown w')
    let final := ((c.run registry t).after w').release
    asked = [] ∨ (asked = ["git" :: Git.tagListing, "git" :: Git.commitListing (some tag)] ∧
        final.lastRelease = some v ∧ final.lastTag = some tag ↔
      Tag.OneMark c.tagFormat ∧
        ∀ name, c.channelOn w.release.branch = some name → Version.IsChannelName name) := by
  intro asked final
  have hover := over_known hplugins hregistry
  have hchosen := chosen_of_tagged hover hlisting htag hversion
  rw [← hchosen.version?_iff, ← hchosen.latest_iff hlisted, ← hbranch]
  cases explored_run (c := c) (s := t) hover hlisting' with
  | never hes hasked =>
    left
    exact (congrArg Git.asked (shown_of_append hes)).trans hasked
  | tags hes hasked hlatest =>
    right
    have hasked' : asked = _ := (congrArg Git.asked (shown_of_append hes)).trans hasked
    rw [hlatest, hasked']
    simp
  | commits hes hasked hlatest hlast hsince =>
    right
    have hasked' : asked = _ := (congrArg Git.asked (shown_of_append hes)).trans hasked
    rw [hlatest, hasked']
    constructor
    · rintro ⟨-, hv, ht⟩
      rw [← hlast, ← hsince]
      exact congrArg Except.ok (Prod.ext hv ht)
    · intro hfound
      cases hfound
      exact ⟨rfl, hlast, hsince⟩

end ReleaseConfig

/-- A configuration that makes prereleases on a channel named like their branch. -/
def channelConfig (branch : String) : ReleaseConfig where
  branches := [{ name := branch, kind := .ownChannel }]
  plugins := [⟨"commit-analyzer", []⟩]

/-- A repository on a branch that lists some tags and has a new feature. -/
def channelWorld (branch : String) (tags : List String) : World where
  __ := featureWorld tags
  release := { branch, date := ⟨2024, 5, 1⟩ }

theorem next_run_finds_next :
    let run := (channelConfig "next").run knownRegistry { root := .ofText "/repo" }
    let first := channelWorld "next" ["v1.2.0"]
    let second := channelWorld "next" ["v1.2.0", "v1.3.0-next.1"]
    tagged (run.shown first) = ["v1.3.0-next.1"] ∧
    Git.asked (run.shown second) =
      ["git" :: Git.tagListing, "git" :: Git.commitListing (some "v1.3.0-next.1")] ∧
    (run.after second).release.lastRelease = some ⟨1, 3, 0, some "next", some 1⟩ ∧
    (run.after second).release.lastTag = some "v1.3.0-next.1" := by
  intro run first second
  have hlisting : ∀ before, (first.answers ("git" :: Git.tagListing) before).output =
      Git.listing ["v1.2.0"] := fun _ => rfl
  have hlisting' : ∀ before, (second.answers ("git" :: Git.tagListing) before).Serves ∧
      (second.answers ("git" :: Git.tagListing) before).output =
        Git.listing ["v1.2.0", "v1.3.0-next.1"] := fun _ => ⟨⟨rfl, rfl⟩, rfl⟩
  have htagged : tagged (run.shown first) = ["v1.3.0-next.1"] := by decide +kernel
  have htag : "v1.3.0-next.1" ∈ tagged (run.shown first) := by
    rw [htagged]
    exact List.mem_cons_self
  have hversion : (run.after first).release.nextVersion = some ⟨1, 3, 0, some "next", some 1⟩ := by
    decide +kernel
  have hlisted : ∀ name, name ∈ Git.tagsOf (Git.listing ["v1.2.0", "v1.3.0-next.1"]) ↔
      name ∈ Git.tagsOf (Git.listing ["v1.2.0"]) ∨ name = "v1.3.0-next.1" := by
    have hold : Git.tagsOf (Git.listing ["v1.2.0"]) = ["v1.2.0"] := by decide +kernel
    have hnew : Git.tagsOf (Git.listing ["v1.2.0", "v1.3.0-next.1"]) =
        ["v1.2.0", "v1.3.0-next.1"] := by decide +kernel
    intro name
    rw [hold, hnew, List.mem_cons, List.mem_singleton, List.mem_singleton]
  have hchannel : ∀ name, (channelConfig "next").channelOn "next" = some name →
      Version.IsChannelName name := by
    have hnext : (channelConfig "next").channelOn "next" = some "next" := by decide +kernel
    intro name hname
    cases hnext.symm.trans hname
    decide
  have hone : Tag.OneMark (channelConfig "next").tagFormat := by
    have hdefault : Tag.OneMark defaultTagFormat := by decide
    exact hdefault
  have hasked : Git.asked (run.shown second) ≠ [] := by decide +kernel
  subst run
  have hfound := ReleaseConfig.next_run_finds_release (t := { root := .ofText "/repo" })
    (fun _ h => h) ofPlugins_knownPlugins hlisting htag hversion hlisting' hlisted rfl
  exact ⟨htagged, (hfound.resolve_left hasked).mpr ⟨hone, hchannel⟩⟩

/-- No text of a version names a channel with an underscore, so the second run does not find the
release of the first one and makes its tag again. -/
theorem next_run_misses_underscore :
    let run := (channelConfig "next_gen").run knownRegistry { root := .ofText "/repo" }
    let second := channelWorld "next_gen" ["v1.0.0-next_gen.1"]
    tagged (run.shown (channelWorld "next_gen" [])) = ["v1.0.0-next_gen.1"] ∧
    Git.asked (run.shown second) = ["git" :: Git.tagListing, "git" :: Git.commitListing none] ∧
    (run.after second).release.lastRelease = none ∧
    tagged (run.shown second) = ["v1.0.0-next_gen.1"] := by
  decide +kernel

end ReleasePipeline
