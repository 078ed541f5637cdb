import ReleasePipeline.Config.Shape
import ReleasePipeline.Proofs.Template
import ReleasePipeline.Proofs.Value.Basic

/-! What the configurations of values have, and that their own values give them back. -/
namespace ReleasePipeline

/-- The matcher and its channel have names. -/
structure BranchMatcher.WellFormed (m : BranchMatcher) : Prop where
  name : m.name ≠ ""
  channel : ∀ channel, m.kind = .channel channel → channel ≠ ""

/-- There are branches and plugins with names, and the tags have a place for the version. -/
structure ReleaseConfig.WellFormed (c : ReleaseConfig) : Prop where
  branches : c.branches ≠ []
  matchers : ∀ m ∈ c.branches, m.WellFormed
  plugins : c.plugins ≠ []
  names : ∀ p ∈ c.plugins, p.name ≠ ""
  mark : Text.contains versionMark c.tagFormat = true

namespace ReleaseConfig

variable {v : Value} {index : ℕ}

theorem name_eq_ok_iff {place s : String} : name place v = .ok s ↔ v = .string s ∧ s ≠ "" := by
  rw [← asName?_eq_some_iff, name]
  cases v.asName? with
  | none => simp
  | some t => simp

theorem name_string (place : String) {s : String} (h : s ≠ "") : name place (.string s) = .ok s :=
  name_eq_ok_iff.mpr ⟨rfl, h⟩

section Branches

variable {m : BranchMatcher}

theorem channel_of_releaseKind {kind : Option Value} {k : ReleaseKind} {channel : String}
    (h : releaseKind index kind = .ok k) (hk : k = .channel channel) : channel ≠ "" := by
  unfold releaseKind at h
  split at h
  · cases h
    cases hk
  · cases h
    cases hk
  · cases h
    cases hk
  · split at h
    · rename_i s hs
      cases h
      cases hk
      exact (asName?_eq_some_iff.mp hs).2
    · cases h

theorem wellFormed_of_branchOf (h : branchOf v index = .ok m) : m.WellFormed := by
  rw [branchOf] at h
  split at h
  · rename_i hs
    cases h
    exact ⟨(asName?_eq_some_iff.mp hs).2, nofun⟩
  · obtain ⟨s, hs, h⟩ := bind_eq_ok.mp h
    obtain ⟨kind, hkind, h⟩ := bind_eq_ok.mp h
    cases h
    exact ⟨(name_eq_ok_iff.mp hs).2, fun channel => channel_of_releaseKind hkind⟩
  · cases h

theorem releaseKind_kindValue (index : ℕ) {k : ReleaseKind}
    (h : ∀ channel, k = .channel channel → channel ≠ "") :
    releaseKind index (some (BranchMatcher.kindValue k)) = .ok k := by
  cases k with
  | stable => rfl
  | ownChannel => rfl
  | channel s =>
    have hs := asName?_eq_some_iff.mpr ⟨rfl, h s rfl⟩
    simp [BranchMatcher.kindValue, releaseKind, hs]

theorem branchOf_toValue (h : m.WellFormed) : branchOf m.toValue index = .ok m := by
  obtain ⟨s, kind⟩ := m
  by_cases hkind : kind = .stable
  · subst hkind
    have hs := asName?_eq_some_iff.mpr ⟨rfl, h.name⟩
    simp only [BranchMatcher.toValue, if_true, branchOf, hs]
  · have hvalue : BranchMatcher.toValue ⟨s, kind⟩ =
        .table (Table.ofNames [("name", .string s), ("prerelease", BranchMatcher.kindValue kind)]) :=
      if_neg hkind
    have hname := name_string s!"branches[{index}].name" h.name
    have hread := releaseKind_kindValue index h.channel
    rw [hvalue, branchOf]
    simp only [Value.asName?, Value.asTable?, Value.bare, Table.getD, Table.get?_ofNames]
    rw [bind_eq_ok]
    refine ⟨s, hname, ?_⟩
    rw [bind_eq_ok]
    exact ⟨kind, hread, rfl⟩

end Branches

section Plugins

variable {p : PluginInvocation}

theorem name_ne_of_pluginOf (h : pluginOf v index = .ok p) : p.name ≠ "" := by
  rw [pluginOf] at h
  split at h
  · rename_i hs
    cases h
    exact (asName?_eq_some_iff.mp hs).2
  · obtain ⟨s, hs, h⟩ := bind_eq_ok.mp h
    cases h
    exact (name_eq_ok_iff.mp hs).2
  · obtain ⟨s, hs, h⟩ := bind_eq_ok.mp h
    split at h
    · cases h
      exact (name_eq_ok_iff.mp hs).2
    · cases h
  · cases h
  · obtain ⟨_, _, h⟩ := bind_eq_ok.mp h
    obtain ⟨s, hs, h⟩ := bind_eq_ok.mp h
    split at h
    · cases h
      exact (name_eq_ok_iff.mp hs).2
    · split at h
      · cases h
        exact (name_eq_ok_iff.mp hs).2
      · cases h
  · cases h

theorem pluginOf_toValue (h : p.name ≠ "") : pluginOf p.toValue index = .ok p := by
  obtain ⟨s, options⟩ := p
  cases options with
  | nil =>
    have hs := asName?_eq_some_iff.mpr ⟨rfl, h⟩
    simp only [PluginInvocation.toValue, List.isEmpty_nil, if_true, pluginOf, hs]
  | cons entry options =>
    have hname := name_string s!"plugins[{index}][0]" h
    have hread : pluginOf (PluginInvocation.toValue ⟨s, entry :: options⟩) index = (do
        let name ← name s!"plugins[{index}][0]" (.string s)
        return ⟨name, entry :: options⟩) := rfl
    rw [hread, hname]
    rfl

end Plugins

section Config

variable {c : ReleaseConfig}

theorem items_ne_nil {error : ConfigError} {xs : List Value} (h : items error v = .ok xs) :
    xs ≠ [] := by
  rw [items] at h
  split at h
  · cases h
    exact List.cons_ne_nil _ _
  · cases h

theorem branchItems_ne_nil {xs : List Value} (h : branchItems v = .ok xs) : xs ≠ [] := by
  rw [branchItems] at h
  split at h
  · cases h
    exact List.cons_ne_nil _ _
  · exact items_ne_nil h

/-- Results for the items of a list that is not empty. -/
theorem mapM_zipIdx_ne_nil {α : Type} {f : Value × ℕ → Except ConfigError α} {xs : List Value}
    {ys : List α} (h : xs.zipIdx.mapM f = .ok ys) (hxs : xs ≠ []) : ys ≠ [] := by
  have hlength := (mapM_eq_ok.mp h).length_eq
  rw [List.length_zipIdx] at hlength
  exact List.ne_nil_of_length_pos (hlength ▸ List.length_pos_of_ne_nil hxs)

/-- The configurations of values are well-formed. -/
theorem wellFormed_of_ofValue (h : ofValue v = .ok c) : c.WellFormed := by
  rw [ofValue] at h
  split at h
  · cases h
  · simp only [bind_eq_ok] at h
    obtain ⟨_, _, bs, hbs, ps, hps, format, _, h⟩ := h
    split at h
    · rename_i hmark
      simp only [bind_eq_ok] at h
      obtain ⟨branches, hbranches, plugins, hplugins, h⟩ := h
      cases h
      refine ⟨?_, fun m hm => ?_, ?_, fun p hp => ?_, hmark⟩
      · exact mapM_zipIdx_ne_nil hbranches (branchItems_ne_nil hbs)
      · obtain ⟨⟨b, i⟩, -, hb⟩ := exists_of_mapM_mem hbranches hm
        exact wellFormed_of_branchOf hb
      · exact mapM_zipIdx_ne_nil hplugins (items_ne_nil hps)
      · obtain ⟨⟨q, i⟩, -, hq⟩ := exists_of_mapM_mem hplugins hp
        exact name_ne_of_pluginOf hq
    · cases h

/-- What reads each item's own value back reads a list of them back. -/
theorem mapM_zipIdx_toValue {α : Type} {f : Value × ℕ → Except ConfigError α} {g : α → Value}
    {xs : List α} (h : ∀ x ∈ xs, ∀ i, f (g x, i) = .ok x) (start : ℕ) :
    ((xs.map g).zipIdx start).mapM f = .ok xs := by
  induction xs generalizing start with
  | nil => rfl
  | cons x xs ih =>
    have hrest := ih (fun x' hx' => h x' (List.mem_cons_of_mem x hx')) (start + 1)
    rw [List.map_cons, List.zipIdx_cons]
    exact mapM_eq_ok.mpr (.cons (h x List.mem_cons_self start) (mapM_eq_ok.mp hrest))

theorem items_list {error : ConfigError} {xs : List Value} (h : xs ≠ []) :
    items error (.list xs) = .ok xs := by
  obtain ⟨x, xs, rfl⟩ := List.exists_cons_of_ne_nil h
  rfl

theorem branchItems_list {xs : List Value} (h : xs ≠ []) : branchItems (.list xs) = .ok xs :=
  items_list h

/-- The tag format is read back from the table, also where the table leaves it out. -/
theorem tagFormat_toTable (c : ReleaseConfig) :
    (Table.get? c.toTable "tagFormat").getD (.string defaultTagFormat) = .string c.tagFormat := by
  rw [toTable, Table.get?_ofNames]
  by_cases h : c.tagFormat = defaultTagFormat
  · simp [h, List.lookup_cons]
  · simp [h, List.lookup_cons]

theorem checkKeys_toTable (c : ReleaseConfig) :
    checkKeys ["branches", "plugins", "tagFormat"] .unknownKeys c.toTable = .ok () := by
  rw [checkKeys, toTable]
  by_cases h : c.tagFormat = defaultTagFormat
  · simp [h, Table.ofNames, Table.keys]
  · simp [h, Table.ofNames, Table.keys]

/-- A well-formed configuration is the configuration of its value. -/
theorem ofValue_toValue (h : c.WellFormed) : ofValue c.toValue = .ok c := by
  have hformat : c.tagFormat ≠ "" := by
    intro hempty
    have hmark := h.mark
    rw [hempty] at hmark
    exact absurd hmark (by decide)
  have hname : name "tagFormat" ((Table.get? c.toTable "tagFormat").getD (.string defaultTagFormat)) =
      .ok c.tagFormat := by
    rw [tagFormat_toTable]
    exact name_string _ hformat
  have hbranches : branchItems (Table.getD c.toTable "branches") =
      .ok (c.branches.map BranchMatcher.toValue) :=
    branchItems_list (by simpa using h.branches)
  have hplugins : items .noPlugins (Table.getD c.toTable "plugins") =
      .ok (c.plugins.map PluginInvocation.toValue) :=
    items_list (by simpa using h.plugins)
  have hmatchers := mapM_zipIdx_toValue (f := fun e => branchOf e.1 e.2)
    (fun m hm i => branchOf_toValue (h.matchers m hm)) 0
  have hinvocations := mapM_zipIdx_toValue (f := fun e => pluginOf e.1 e.2)
    (fun p hp i => pluginOf_toValue (h.names p hp)) 0
  have htable : c.toValue.asTable? = some c.toTable := rfl
  rw [ofValue, htable]
  simp only [bind_eq_ok, hname, hbranches, hplugins]
  refine ⟨(), checkKeys_toTable c, _, rfl, _, rfl, _, rfl, ?_⟩
  rw [if_pos h.mark, bind_eq_ok]
  exact ⟨_, hmatchers, bind_eq_ok.mpr ⟨_, hinvocations, rfl⟩⟩

end Config

end ReleaseConfig

end ReleasePipeline
