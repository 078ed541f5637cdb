import ReleasePipeline.Proofs.Run.Tagging
import ReleasePipeline.Proofs.Tool.TagListing

/-! Sessions: runs one after the other over one repository, each of which sees the tags of those
before it. -/
namespace ReleasePipeline

variable {registry : Registry} {plugins : List Plugin} {format : String}
  {initial listed : List String}

/-- A run of a session. -/
structure Turn where
  config : ReleaseConfig
  settings : Settings
  world : World
  /-- The tags that are listed to the run, in the order of their lines. -/
  lines : List String
  /-- The tags that come into being, of those that the run makes: a command can fail. -/
  created : List String

namespace Turn

/-- The tags that the run makes. -/
def tagged (registry : Registry) (t : Turn) : List String :=
  ReleasePipeline.tagged ((t.config.run registry t.settings).shown t.world)

/-- The channel of the releases of the run. -/
def channel (t : Turn) : Option String := t.config.channelOn t.world.release.branch

/-- The run has its turn where some tags are listed, whatever else it meets. -/
structure At (registry : Registry) (format : String) (listed : List String) (t : Turn) : Prop where
  format : t.config.tagFormat = format
  channel : ∀ name, t.channel = some name → Version.IsChannelName name
  lines : ∀ name, name ∈ t.lines ↔ name ∈ listed
  listing : ∀ before,
    (t.world.answers ("git" :: Git.tagListing) before).output = Git.listing t.lines
  created : t.created.Sublist (t.tagged registry)

end Turn

/-- Each turn of a session lists the initial tags and those of the turns before. -/
def Session (registry : Registry) (format : String) : List String → List Turn → Prop
  | _, [] => True
  | listed, t :: ts =>
    t.At registry format listed ∧ Session registry format (listed ++ t.created) ts

section Formats

variable (hplugins : plugins ⊆ knownPlugins)
  (hregistry : Registry.ofPlugins plugins = .ok registry) (hone : Tag.OneMark format)
  (hplain : ∀ c ∈ format.toList, Text.isBlank c = false)

include hplugins hregistry hone hplain

/-- A run makes one tag at most, and that is new to it. -/
theorem fresh_of_tagged {t : Turn} (ht : t.At registry format listed) {tag : String}
    (htag : tag ∈ t.tagged registry) : t.tagged registry = [tag] ∧ tag ∉ t.lines ∧
      ∃ v, ((t.config.run registry t.settings).after t.world).release.nextVersion = some v ∧
        v.Fresh format t.channel (Git.tagsOf (Git.listing t.lines)) tag := by
  obtain ⟨rfl, hchannel, -, hlisting, -⟩ := ht
  have hended := ReleaseConfig.ended_run (s := t.settings) (over_known hplugins hregistry) hone
    hchannel hlisting
  obtain ⟨es, hes, hmade⟩ := hended
  have hshown : t.tagged registry = tagged es := by rw [Turn.tagged, Action.shown_of_append hes]
  rw [hshown] at htag ⊢
  rcases hmade with hnone | ⟨v, name, hname, hversion, hlegible, hfresh⟩
  · rw [hnone] at htag
    exact absurd htag List.not_mem_nil
  · rw [hname, List.mem_singleton] at htag
    subst htag
    refine ⟨hname, fun hline => hfresh.notListed ?_, v, hversion, hfresh⟩
    exact Git.mem_tagsOf_listing hline (Tag.tag_ne_empty hone hlegible hfresh.ofVersion)
      (Tag.isBlank_of_mem_tag hone hplain hlegible hfresh.ofVersion)

theorem nodup_created {t : Turn} (ht : t.At registry format listed) :
    t.created.Nodup ∧ ∀ tag ∈ t.created, tag ∉ listed := by
  have hnew : ∀ tag ∈ t.created, t.tagged registry = [tag] ∧ tag ∉ t.lines := by
    intro tag htag
    obtain ⟨hone', hline, -⟩ := fresh_of_tagged hplugins hregistry hone hplain ht
      (ht.created.subset htag)
    exact ⟨hone', hline⟩
  refine ⟨?_, fun tag htag hlisted => (hnew tag htag).2 ((ht.lines tag).mpr hlisted)⟩
  cases hcreated : t.created with
  | nil => exact List.nodup_nil
  | cons tag rest =>
    have hsingle := (hnew tag (hcreated ▸ List.mem_cons_self)).1
    have hsub := ht.created
    rw [hsingle] at hsub
    rw [← hcreated]
    exact (List.nodup_singleton tag).sublist hsub

theorem nodup_flatMap_created {turns : List Turn} (h : Session registry format listed turns) :
    (turns.flatMap Turn.created).Nodup ∧ ∀ tag ∈ turns.flatMap Turn.created, tag ∉ listed := by
  induction turns generalizing listed with
  | nil => exact ⟨List.nodup_nil, fun _ h => absurd h List.not_mem_nil⟩
  | cons t ts ih =>
    obtain ⟨ht, hts⟩ := h
    obtain ⟨hnodup, hnew⟩ := nodup_created hplugins hregistry hone hplain ht
    obtain ⟨hnodup', hnew'⟩ := ih hts
    rw [List.flatMap_cons]
    refine ⟨List.nodup_append.mpr ⟨hnodup, hnodup', ?_⟩, ?_⟩
    · rintro tag htag _ htag' rfl
      exact hnew' tag htag' (List.mem_append_right listed htag)
    · intro tag htag
      rcases List.mem_append.mp htag with htag | htag
      · exact hnew tag htag
      · exact fun hlisted => hnew' tag htag (List.mem_append_left t.created hlisted)

omit hplugins hregistry hone hplain in
theorem exists_at_of_mem {turns : List Turn} (h : Session registry format listed turns) {t : Turn}
    (ht : t ∈ turns) : ∃ listed, t.At registry format listed := by
  induction turns generalizing listed with
  | nil => exact absurd ht List.not_mem_nil
  | cons first rest ih =>
    rcases List.mem_cons.mp ht with rfl | ht
    · exact ⟨listed, h.1⟩
    · exact ih h.2 ht

/-- In a session every tag that a run makes is new to it, with a version after all listed stable
ones and after those of its channel. No tag comes into being twice. -/
theorem session_tags_fresh {turns : List Turn} (h : Session registry format initial turns) :
    (∀ t ∈ turns, ∀ tag ∈ t.tagged registry, tag ∉ t.lines ∧
      ∃ v, ((t.config.run registry t.settings).after t.world).release.nextVersion = some v ∧
        v.Fresh format t.channel (Git.tagsOf (Git.listing t.lines)) tag) ∧
    (turns.flatMap Turn.created).Nodup ∧ ∀ tag ∈ turns.flatMap Turn.created, tag ∉ initial := by
  refine ⟨fun t ht tag htag => ?_, nodup_flatMap_created hplugins hregistry hone hplain h⟩
  obtain ⟨listed, hat⟩ := exists_at_of_mem h ht
  exact (fresh_of_tagged hplugins hregistry hone hplain hat htag).2

end Formats

/-- A turn in which a feature is released. -/
def featureTurn (tags : List String) : Turn where
  config := mainConfig
  settings := { root := .ofText "/repo" }
  world := featureWorld tags
  lines := tags
  created := tagged ((mainConfig.run knownRegistry { root := .ofText "/repo" }).shown
    (featureWorld tags))

theorem created_featureTurn : (featureTurn ["v0.9.0"]).created = ["v0.10.0"] ∧
    (featureTurn ["v0.9.0", "v0.10.0"]).created = ["v0.11.0"] := by decide +kernel

theorem at_featureTurn {tags : List String} (h : ∀ name, name ∈ tags ↔ name ∈ listed) :
    (featureTurn tags).At knownRegistry defaultTagFormat listed where
  format := by simp only [featureTurn, mainConfig]
  channel name hname := by
    have hstable : mainConfig.channelOn "main" = none := by decide +kernel
    change mainConfig.channelOn "main" = some name at hname
    rw [hstable] at hname
    cases hname
  lines := h
  listing before := by
    simp only [featureTurn, featureWorld, featureAnswer, if_true]
    rfl
  created := by
    simp only [featureTurn, Turn.tagged]
    exact List.Sublist.refl _

theorem session_of_featureTurns :
    let turns := [featureTurn ["v0.9.0"], featureTurn ["v0.9.0", "v0.10.0"]]
    Session knownRegistry defaultTagFormat ["v0.9.0"] turns ∧
    (∀ t ∈ turns, ∀ tag ∈ t.tagged knownRegistry, tag ∉ t.lines) ∧
    (turns.flatMap Turn.created).Nodup := by
  intro turns
  have hsecond (name : String) : name ∈ ["v0.9.0", "v0.10.0"] ↔
      name ∈ ["v0.9.0"] ++ (featureTurn ["v0.9.0"]).created := by
    rw [created_featureTurn.1]
    rfl
  have hsession : Session knownRegistry defaultTagFormat ["v0.9.0"] turns :=
    ⟨at_featureTurn fun _ => Iff.rfl, at_featureTurn hsecond, trivial⟩
  have hnone : defaultTagFormat.toList.any Text.isBlank = false := by decide
  have hplain : ∀ c ∈ defaultTagFormat.toList, Text.isBlank c = false := by simpa using hnone
  have hfresh := session_tags_fresh (fun _ h => h) ofPlugins_knownPlugins (by decide) hplain
    hsession
  exact ⟨hsession, fun t ht tag htag => (hfresh.1 t ht tag htag).1, hfresh.2.1⟩

end ReleasePipeline
