import Mathlib.Data.List.Sort
import Mathlib.Data.String.Basic
import ReleasePipeline.Proofs.Plugin.Steps
import ReleasePipeline.Proofs.Value.Basic

/-! Which plugins can be registered together, and what their registry then tells of each name. -/
namespace ReleasePipeline

namespace ReleaseConfig

variable {names names' : List String} {n : String}

theorem sortNames_perm (names : List String) : (sortNames names).Perm names :=
  List.mergeSort_perm names _

theorem pairwise_sortNames (names : List String) : (sortNames names).Pairwise (· ≤ ·) :=
  List.pairwise_mergeSort' (· ≤ ·) names

/-- Names that differ are strictly ascending. -/
theorem pairwise_lt_sortNames (h : names.Nodup) : (sortNames names).Pairwise (· < ·) := by
  have hnodup : (sortNames names).Nodup := (sortNames_perm names).nodup_iff.mpr h
  exact (pairwise_sortNames names).imp₂ (fun _ _ hle hne => lt_of_le_of_ne hle hne) hnodup

/-- The order in which names come makes no difference. -/
theorem sortNames_eq_of_perm (h : names.Perm names') : sortNames names = sortNames names' :=
  ((sortNames_perm names).trans (h.trans (sortNames_perm names').symm)).eq_of_pairwise'
    (pairwise_sortNames names) (pairwise_sortNames names')

end ReleaseConfig

/-- The name that a handler stands for. -/
def Handler.declared? : Handler → Option String
  | .name v => v.asName?
  | .other _ => none

namespace Plugin

/-- The names that the plugin answers to. -/
def declared (p : Plugin) : List String := p.handlers.filterMap Handler.declared?

/-- The plugin has a name and answers to names, none of which is empty. -/
structure Proper (p : Plugin) : Prop where
  name : p.name ≠ ""
  handlers : p.handlers ≠ []
  named : ∀ h ∈ p.handlers, ∃ n, n ≠ "" ∧ h = .name (.string n)

end Plugin

namespace Registry

variable {r r' : Registry} {p : Plugin} {h : Handler} {hs : List Handler} {ps qs : List Plugin}
  {n : String}

/-- The names of the entries. -/
def keys (r : Registry) : List String := r.entries.map (·.1)

theorem names_eq (r : Registry) : r.names = ReleaseConfig.sortNames r.keys := rfl

theorem keys_append (r : Registry) (entries : List (String × Plugin)) :
    keys ⟨r.entries ++ entries⟩ = r.keys ++ entries.map (·.1) := List.map_append

theorem plugin?_eq_none_iff : r.plugin? n = none ↔ n ∉ r.keys := by
  rw [plugin?, List.lookup_eq_none_iff, keys, List.mem_map]
  constructor
  · rintro h ⟨⟨m, p⟩, hentry, rfl⟩
    simpa using h (m, p) hentry
  · rintro h ⟨m, p⟩ hentry
    simpa using fun hsame : n = m => h ⟨(m, p), hentry, hsame.symm⟩

/-- A handler is added if it is a name that no entry has. -/
theorem addHandler_eq_ok : addHandler p r h = .ok r' ↔ ∃ n, (n ≠ "" ∧ h = .name (.string n)) ∧
    n ∉ r.keys ∧ r' = ⟨r.entries ++ [(n, p)]⟩ := by
  constructor
  · intro hadd
    cases h with
    | other v => cases hadd
    | name v =>
      simp only [addHandler] at hadd
      split at hadd
      · cases hadd
      · rename_i n hname
        obtain ⟨rfl, hne⟩ := asName?_eq_some_iff.mp hname
        split at hadd
        · cases hadd
        · rename_i hnone
          cases hadd
          exact ⟨n, ⟨hne, rfl⟩, plugin?_eq_none_iff.mp hnone, rfl⟩
  · rintro ⟨n, ⟨hne, rfl⟩, hfresh, rfl⟩
    simp only [addHandler, asName?_eq_some_iff.mpr ⟨rfl, hne⟩, plugin?_eq_none_iff.mpr hfresh]

theorem declared?_name (hne : n ≠ "") : Handler.declared? (.name (.string n)) = some n :=
  asName?_eq_some_iff.mpr ⟨rfl, hne⟩

/-- Handlers are added one after the other if they are names, all different and none of an entry. -/
theorem addHandlers_eq_ok (hr : r.keys.Nodup) : hs.foldlM (addHandler p) r = .ok r' ↔
    (∀ h ∈ hs, ∃ n, n ≠ "" ∧ h = .name (.string n)) ∧
      (r.keys ++ hs.filterMap Handler.declared?).Nodup ∧
      r' = ⟨r.entries ++ (hs.filterMap Handler.declared?).map (·, p)⟩ := by
  induction hs generalizing r with
  | nil => simp [pure, Except.pure, hr, eq_comm]
  | cons h hs ih =>
    rw [List.foldlM_cons, bind_eq_ok, List.forall_mem_cons]
    constructor
    · rintro ⟨r₁, hfirst, hrest⟩
      obtain ⟨n, ⟨hne, rfl⟩, hfresh, rfl⟩ := addHandler_eq_ok.mp hfirst
      have hr₁ : (keys ⟨r.entries ++ [(n, p)]⟩).Nodup := by
        rw [keys_append]
        exact List.nodup_append'.mpr ⟨hr, List.nodup_singleton n, by simpa using hfresh⟩
      obtain ⟨hnamed, hnodup, rfl⟩ := (ih hr₁).mp hrest
      rw [keys_append] at hnodup
      rw [List.filterMap_cons_some (declared?_name hne)]
      exact ⟨⟨⟨n, hne, rfl⟩, hnamed⟩, by simpa using hnodup, by simp⟩
    · rintro ⟨⟨⟨n, hne, rfl⟩, hnamed⟩, hnodup, hr'⟩
      rw [List.filterMap_cons_some (declared?_name hne)] at hnodup hr'
      have hkeys : keys ⟨r.entries ++ [(n, p)]⟩ = r.keys ++ [n] := keys_append r _
      have hnodup₁ : (r.keys ++ [n] ++ hs.filterMap Handler.declared?).Nodup := by simpa using hnodup
      have hr₁ : (r.keys ++ [n]).Nodup := hnodup₁.of_append_left
      have hfresh : n ∉ r.keys := by
        simpa using (List.nodup_append'.mp hr₁).2.2
      refine ⟨_, addHandler_eq_ok.mpr ⟨n, ⟨hne, rfl⟩, hfresh, rfl⟩, ?_⟩
      exact (ih (hkeys ▸ hr₁)).mpr ⟨hnamed, hkeys ▸ hnodup₁, by simpa using hr'⟩

/-- The entries of a plugin. -/
def entriesOf (p : Plugin) : List (String × Plugin) := p.declared.map (·, p)

theorem addPlugin_eq_ok (hr : r.keys.Nodup) : r.addPlugin p = .ok r' ↔
    p.Proper ∧ (r.keys ++ p.declared).Nodup ∧ r' = ⟨r.entries ++ entriesOf p⟩ := by
  rw [addPlugin]
  split
  · rename_i hname
    exact iff_of_false (by rintro ⟨⟩) fun h => h.1.name (by simpa using hname)
  · rename_i hname
    split
    · rename_i hhandlers
      exact iff_of_false (by rintro ⟨⟩) fun h => h.1.handlers (by simpa using hhandlers)
    · rename_i hhandlers
      rw [addHandlers_eq_ok hr]
      refine and_congr_left' ⟨fun h => ⟨?_, ?_, h⟩, fun h => h.named⟩
      · simpa using hname
      · simpa using hhandlers

/-- Plugins are added one after the other if they are proper and no name is declared twice. -/
theorem addPlugins_eq_ok (hr : r.keys.Nodup) : ps.foldlM addPlugin r = .ok r' ↔
    (∀ p ∈ ps, p.Proper) ∧ (r.keys ++ ps.flatMap Plugin.declared).Nodup ∧
      r' = ⟨r.entries ++ ps.flatMap entriesOf⟩ := by
  induction ps generalizing r with
  | nil => simp [pure, Except.pure, hr, eq_comm]
  | cons p ps ih =>
    have hkeys : keys ⟨r.entries ++ entriesOf p⟩ = r.keys ++ p.declared := by
      rw [keys_append, entriesOf, List.map_map]
      exact congrArg _ (List.map_id p.declared)
    rw [List.foldlM_cons, bind_eq_ok, List.forall_mem_cons, List.flatMap_cons, List.flatMap_cons,
      ← List.append_assoc, ← List.append_assoc, ← hkeys]
    constructor
    · rintro ⟨r₁, hfirst, hrest⟩
      obtain ⟨hproper, hnodup, rfl⟩ := (addPlugin_eq_ok hr).mp hfirst
      obtain ⟨hall, hnodup, rfl⟩ := (ih (hkeys ▸ hnodup)).mp hrest
      exact ⟨⟨hproper, hall⟩, hnodup, rfl⟩
    · rintro ⟨⟨hproper, hall⟩, hnodup, rfl⟩
      have hr₁ := hnodup.of_append_left
      exact ⟨_, (addPlugin_eq_ok hr).mpr ⟨hproper, hkeys ▸ hr₁, rfl⟩, (ih hr₁).mpr ⟨hall, hnodup, rfl⟩⟩

theorem ofPlugins_eq_ok : ofPlugins ps = .ok r ↔ (∀ p ∈ ps, p.Proper) ∧
    (ps.flatMap Plugin.declared).Nodup ∧ r.entries = ps.flatMap entriesOf := by
  have hempty : keys {} = [] := rfl
  rw [ofPlugins, addPlugins_eq_ok (by simp [hempty]), hempty, List.nil_append]
  obtain ⟨entries⟩ := r
  simp

theorem map_fst_entriesOf (p : Plugin) : (entriesOf p).map (·.1) = p.declared := by
  rw [entriesOf, List.map_map]
  exact List.map_id p.declared

theorem keys_of_ofPlugins (h : ofPlugins ps = .ok r) : r.keys = ps.flatMap Plugin.declared := by
  obtain ⟨-, -, hentries⟩ := ofPlugins_eq_ok.mp h
  rw [keys, hentries, List.map_flatMap]
  simp only [map_fst_entriesOf]

/-- Where no name stands twice, a name is looked up to what stands beside it. -/
theorem lookup_eq_some_iff_mem {entries : List (String × Plugin)}
    (hnodup : (entries.map (·.1)).Nodup) : entries.lookup n = some p ↔ (n, p) ∈ entries := by
  constructor
  · intro h
    obtain ⟨before, after, rfl, -⟩ := List.lookup_eq_some_iff.mp h
    exact List.mem_append_right before List.mem_cons_self
  · intro h
    obtain ⟨before, after, rfl⟩ := List.append_of_mem h
    refine List.lookup_eq_some_iff.mpr ⟨before, after, rfl, fun e he => ?_⟩
    rw [List.map_append, List.nodup_append'] at hnodup
    have hfresh : e.1 ≠ n := by
      rintro rfl
      exact hnodup.2.2 (List.mem_map_of_mem he) (by simp)
    simpa using hfresh.symm

/-- The registry tells of a name which plugin declares it. -/
theorem plugin?_eq_some_iff (h : ofPlugins ps = .ok r) :
    r.plugin? n = some p ↔ p ∈ ps ∧ n ∈ p.declared := by
  obtain ⟨-, hnodup, hentries⟩ := ofPlugins_eq_ok.mp h
  rw [← keys_of_ofPlugins h] at hnodup
  rw [plugin?, lookup_eq_some_iff_mem hnodup, hentries, List.mem_flatMap]
  constructor
  · rintro ⟨q, hq, hmem⟩
    obtain ⟨m, hm, hpair⟩ := List.mem_map.mp hmem
    cases hpair
    exact ⟨hq, hm⟩
  · rintro ⟨hp, hn⟩
    exact ⟨p, hp, List.mem_map.mpr ⟨n, hn, rfl⟩⟩

/-- In another order the plugins make a registry that tells the same. -/
theorem exists_ofPlugins_of_perm (h : ofPlugins ps = .ok r) (hperm : qs.Perm ps) :
    ∃ r', ofPlugins qs = .ok r' ∧ r'.names = r.names ∧ ∀ n, r'.plugin? n = r.plugin? n := by
  obtain ⟨hproper, hnodup, -⟩ := ofPlugins_eq_ok.mp h
  have hdeclared : (qs.flatMap Plugin.declared).Perm (ps.flatMap Plugin.declared) :=
    hperm.flatMap_right _
  have hqs : ofPlugins qs = .ok ⟨qs.flatMap entriesOf⟩ :=
    ofPlugins_eq_ok.mpr ⟨fun p hp => hproper p (hperm.mem_iff.mp hp), hdeclared.nodup_iff.mpr hnodup, rfl⟩
  refine ⟨_, hqs, ?_, fun n => Option.ext fun p => ?_⟩
  · rw [names_eq, names_eq, keys_of_ofPlugins hqs, keys_of_ofPlugins h]
    exact ReleaseConfig.sortNames_eq_of_perm hdeclared
  · rw [plugin?_eq_some_iff hqs, plugin?_eq_some_iff h, hperm.mem_iff]

/-- Plugins can be registered if they have names and declare names, all of them different. The
registry then has just these names, in ascending order, and tells of each the one plugin that declares
it, whatever the order of the plugins. -/
theorem ofPlugins_registers (ps : List Plugin) :
    ((∃ r, ofPlugins ps = .ok r) ↔
      (∀ p ∈ ps, p.Proper) ∧ (ps.flatMap Plugin.declared).Nodup) ∧
    ∀ r, ofPlugins ps = .ok r →
      r.names.Pairwise (· < ·) ∧ (∀ n, n ∈ r.names ↔ ∃ p ∈ ps, n ∈ p.declared) ∧
      (∀ p ∈ ps, ∀ n ∈ p.declared, r.plugin? n = some p) ∧
      (∀ n, (∀ p ∈ ps, n ∉ p.declared) → r.plugin? n = none) ∧
      ∀ qs, qs.Perm ps →
        ∃ r', ofPlugins qs = .ok r' ∧ r'.names = r.names ∧ ∀ n, r'.plugin? n = r.plugin? n := by
  refine ⟨⟨?_, ?_⟩, fun r h => ?_⟩
  · rintro ⟨r, h⟩
    obtain ⟨hproper, hnodup, -⟩ := ofPlugins_eq_ok.mp h
    exact ⟨hproper, hnodup⟩
  · rintro ⟨hproper, hnodup⟩
    exact ⟨_, ofPlugins_eq_ok.mpr ⟨hproper, hnodup, rfl⟩⟩
  · have hkeys := keys_of_ofPlugins h
    have hnames : r.names.Perm (ps.flatMap Plugin.declared) := hkeys ▸ ReleaseConfig.sortNames_perm _
    have hnodup : r.keys.Nodup := hkeys ▸ (ofPlugins_eq_ok.mp h).2.1
    refine ⟨?_, fun n => ?_, fun p hp n hn => (plugin?_eq_some_iff h).mpr ⟨hp, hn⟩, fun n hn => ?_,
      fun qs hperm => exists_ofPlugins_of_perm h hperm⟩
    · exact ReleaseConfig.pairwise_lt_sortNames hnodup
    · rw [hnames.mem_iff, List.mem_flatMap]
    · rw [plugin?_eq_none_iff, hkeys, List.mem_flatMap]
      rintro ⟨p, hp, hmem⟩
      exact hn p hp hmem

/-- The known plugins can be registered in the opposite order as well. -/
theorem known_plugins_reversed : ∃ r, ofPlugins knownPlugins.reverse = .ok r ∧
    r.names = knownRegistry.names ∧ ∀ n, r.plugin? n = knownRegistry.plugin? n :=
  ((ofPlugins_registers knownPlugins).2 knownRegistry ofPlugins_knownPlugins).2.2.2.2 _
    (List.reverse_perm knownPlugins)

end Registry

end ReleasePipeline
