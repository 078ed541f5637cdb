import ReleasePipeline.Proofs.Run.Discovery
import ReleasePipeline.Proofs.Version.Spelling

/-! The tag since which a run reads the log. The run does not keep the name from which it has read the
last release, but spells the tag of that release anew. -/
namespace ReleasePipeline

open ReleasePipeline.Action

variable {c : ReleaseConfig} {registry : Registry} {plugins : List Plugin} {s : Settings} {w : World}
  {format : String} {channel : Option String} {listed names : List String}

/-- The last release with its tag: there is none, or a listed name was read as the release. -/
inductive Traced (format : String) (listed : List String) : Option Version → Option String → Prop
  | nothing : Traced format listed none none
  | release {v : Version} {name tag : String} (hname : name ∈ listed)
    (hread : Tag.version? format name = .ok (some v)) (htag : Tag.ofVersion format v = .ok tag) :
    Traced format listed (some v) (some tag)

theorem traced_of_latest {last : Option Version} {since : Option String}
    (h : Lifecycle.latest format channel listed = .ok (last, since)) :
    Traced format listed last since := by
  obtain ⟨vs, hvs, h⟩ := bind_eq_ok.mp h
  obtain ⟨since', hsince, h⟩ := bind_eq_ok.mp h
  cases h
  cases hlast : Version.lastRelease vs channel with
  | none =>
    rw [hlast] at hsince
    cases hsince
    exact .nothing
  | some v =>
    rw [hlast, Lifecycle.tagOf?, map_eq_ok] at hsince
    obtain ⟨tag, htag, rfl⟩ := hsince
    obtain ⟨name, hname, hread⟩ :=
      Version.exists_of_mem_versionsOf hvs (Version.mem_of_lastRelease hlast)
    exact .release hname hread htag

namespace Tag

variable {tag : String} {v : Version}

/-- The tag that is spelled anew for a version that was read from a listing of names. With one mark in
the format it respells a line of the listing, and it is listed just where a name of the version is plain.
With more marks it is no tag of that version. -/
structure Rebuilt (format : String) (names : List String) (v : Version) (tag : String) : Prop where
  line : ∃ line ∈ Git.tagsOf (Git.listing names), version? format line = .ok (some v) ∧
    (OneMark format → Respells format line tag)
  read_iff : version? format tag = .ok (some v) ↔ OneMark format
  listed_iff : OneMark format → (tag ∈ names ↔
    ∃ name ∈ names, version? format name = .ok (some v) ∧ PlainName format name)

theorem rebuilt_of_ofVersion {line : String} (hline : line ∈ Git.tagsOf (Git.listing names))
    (hread : version? format line = .ok (some v)) (h : ofVersion format v = .ok tag) :
    Rebuilt format names v tag := by
  have hread_iff : version? format tag = .ok (some v) ↔ OneMark format :=
    (version?_eq_iff h).trans (and_iff_left (legible_of_version? hread))
  refine ⟨⟨line, hline, hread, fun hone => respells_of_version? hone hread h⟩, hread_iff,
    fun hone => ⟨fun hmem => ?_, ?_⟩⟩
  · have hself := hread_iff.mpr hone
    exact ⟨tag, hmem, hself, (eq_iff_plainName hone hself h).mp rfl⟩
  · rintro ⟨name, hname, hread, hplain⟩
    rwa [(eq_iff_plainName hone hread h).mpr hplain]

theorem plainName_of_plain {name : String} (hread : version? format name = .ok (some v))
    (h : Version.Plain name.toList) : PlainName format name := by
  obtain ⟨inner, hinner, -⟩ := exists_inner?_of_version? hread
  obtain ⟨⟨before, after⟩, hcut, -⟩ := Option.bind_eq_some_iff.mp hinner
  refine ⟨inner, hinner, fun c hc => h c ?_⟩
  rw [toList_of_inner? hcut hinner]
  exact List.mem_append_right _ (List.mem_append_left _ hc)

/-- Among names in ASCII and without blanks the tag of the last release is listed. -/
theorem Rebuilt.mem_of_plain (h : Rebuilt format names v tag) (hone : OneMark format)
    (hnames : ∀ name ∈ names, Version.Plain name.toList) : tag ∈ names := by
  obtain ⟨line, hline, hread, -⟩ := h.line
  have hmem : line ∈ names :=
    Git.mem_of_mem_tagsOf_listing (fun name hname c hc => (hnames name hname c hc).2) hline
  exact (h.listed_iff hone).mpr ⟨line, hmem, hread, plainName_of_plain hread (hnames line hmem)⟩

end Tag

/-- A run that reads the log reads it since the tag of the last release, which it spells anew. -/
theorem ReleaseConfig.last_tag_rebuilt (hplugins : plugins ⊆ knownPlugins)
    (hregistry : Registry.ofPlugins plugins = .ok registry)
    (hlisting : ∀ before, (w.answers ("git" :: Git.tagListing) before).Serves ∧
      (w.answers ("git" :: Git.tagListing) before).output = Git.listing names) :
    let asked := Git.asked ((c.run registry s).shown w)
    let final := ((c.run registry s).after w).release
    asked = [] ∨ asked = ["git" :: Git.tagListing] ∨
      asked = ["git" :: Git.tagListing, "git" :: Git.commitListing final.lastTag] ∧
      (final.lastRelease = none ∧ final.lastTag = none ∨ ∃ v tag,
        final.lastRelease = some v ∧ final.lastTag = some tag ∧
        Tag.Rebuilt c.tagFormat names v tag) := by
  intro asked final
  have hover := over_known hplugins hregistry
  cases ReleaseConfig.explored_run (c := c) (s := s) hover hlisting with
  | never hes hasked => exact Or.inl ((congrArg Git.asked (shown_of_append hes)).trans hasked)
  | tags hes hasked hlatest =>
    exact Or.inr (Or.inl ((congrArg Git.asked (shown_of_append hes)).trans hasked))
  | @commits es last since hes hasked hlatest hlast hsince =>
    have hlastRelease : final.lastRelease = last := hlast
    have hlastTag : final.lastTag = since := hsince
    refine Or.inr (Or.inr ⟨?_, ?_⟩)
    · rw [hlastTag]
      exact (congrArg Git.asked (shown_of_append hes)).trans hasked
    · rw [hlastRelease, hlastTag]
      cases traced_of_latest hlatest with
      | nothing => exact Or.inl ⟨rfl, rfl⟩
      | release hline hread htag =>
        exact Or.inr ⟨_, _, rfl, rfl, Tag.rebuilt_of_ofVersion hline hread htag⟩

theorem last_tag_of_ascii_names :
    let run := (channelConfig "next").run knownRegistry { root := .ofText "/repo" }
    let names := ["nightly", "v1.2.0"]
    (run.after (channelWorld "next" names)).release.lastTag = some "v1.2.0" ∧ "v1.2.0" ∈ names ∧
      Tag.Rebuilt (channelConfig "next").tagFormat names ⟨1, 2, 0, none, none⟩ "v1.2.0" := by
  intro run names
  have hlisting : ∀ before, ((channelWorld "next" names).answers
      ("git" :: Git.tagListing) before).Serves ∧ ((channelWorld "next" names).answers
      ("git" :: Git.tagListing) before).output = Git.listing names := fun _ => ⟨⟨rfl, rfl⟩, rfl⟩
  have hrebuilt := ReleaseConfig.last_tag_rebuilt (c := channelConfig "next")
    (s := { root := .ofText "/repo" }) (fun _ h => h) ofPlugins_knownPlugins hlisting
  have hrun : (channelConfig "next").run knownRegistry { root := .ofText "/repo" } = run := rfl
  dsimp only at hrebuilt
  rw [hrun] at hrebuilt
  have hasked : Git.asked (run.shown (channelWorld "next" names)) =
      ["git" :: Git.tagListing, "git" :: Git.commitListing (some "v1.2.0")] := by decide +kernel
  have hlast : (run.after (channelWorld "next" names)).release.lastRelease =
      some ⟨1, 2, 0, none, none⟩ := by decide +kernel
  have htag : (run.after (channelWorld "next" names)).release.lastTag = some "v1.2.0" := by
    decide +kernel
  have hone : Tag.OneMark (channelConfig "next").tagFormat := by
    have hdefault : Tag.OneMark defaultTagFormat := by decide
    exact hdefault
  clear_value run
  rw [hasked, hlast, htag] at hrebuilt
  obtain hnever | hfailed | ⟨-, hnone | ⟨v, tag, hv, ht, hrebuilt⟩⟩ := hrebuilt
  · cases hnever
  · cases hfailed
  · cases hnone.1
  · cases hv
    cases ht
    exact ⟨htag, hrebuilt.mem_of_plain hone (by decide), hrebuilt⟩

/-- A tag with a digit of another script names a version, but the log is read since a tag that does not
exist. -/
theorem last_tag_of_arabic_digit :
    let run := (channelConfig "next").run knownRegistry { root := .ofText "/repo" }
    let names := ["v1.1\u0663.0"]
    Git.asked (run.shown (channelWorld "next" names)) =
      ["git" :: Git.tagListing, "git" :: Git.commitListing (some "v1.13.0")] ∧
    (run.after (channelWorld "next" names)).release.lastTag = some "v1.13.0" ∧
    "v1.13.0" ∉ names := by
  decide +kernel

end ReleasePipeline
