import ReleasePipeline.Proofs.Config.Shape

/-! Tables with keys that are no strings: where the reading of a configuration stops at one. -/
namespace ReleasePipeline

/-- A key of the table is no string. -/
def Table.HasOddKey (t : Table) : Prop := ∃ k ∈ t.keys, k.asString? = none

variable {ε : Type}

/-- A check of the keys that sorts out the strings among them stops at one that is none. -/
theorem Table.check_cases {t : Table} {unknown : Value → Bool} {error : List String → ε} {odd : ε}
    (hunknown : ∀ k : Value, k.asString? = none → unknown k = true) :
    let checked : Except ε Unit :=
      if (t.keys.filter unknown).isEmpty then .ok ()
      else match (t.keys.filter unknown).mapM Value.asString? with
        | some names => .error (error names)
        | none => .error odd
    (t.HasOddKey ∧ checked = .error odd) ∨
      (¬ t.HasOddKey ∧ (checked = .ok () ∨ ∃ names, checked = .error (error names))) := by
  intro checked
  by_cases hodd : t.HasOddKey
  · obtain ⟨k, hk, hnone⟩ := hodd
    have hmem : k ∈ t.keys.filter unknown := List.mem_filter.mpr ⟨hk, hunknown k hnone⟩
    have hfound : ¬ (t.keys.filter unknown).isEmpty = true := by
      rw [List.isEmpty_iff]
      exact List.ne_nil_of_mem hmem
    refine .inl ⟨⟨k, hk, hnone⟩, ?_⟩
    simp only [checked, if_neg hfound, mapM_eq_none_iff.mpr ⟨k, hmem, hnone⟩]
  · refine .inr ⟨hodd, ?_⟩
    by_cases hempty : (t.keys.filter unknown).isEmpty = true
    · exact .inl (if_pos hempty)
    · cases hnames : (t.keys.filter unknown).mapM Value.asString? with
      | some names =>
        refine .inr ⟨names, ?_⟩
        simp only [checked, if_neg hempty, hnames]
      | none =>
        obtain ⟨k, hk, hnone⟩ := mapM_eq_none_iff.mp hnames
        exact absurd ⟨k, (List.mem_filter.mp hk).1, hnone⟩ hodd

namespace ReleaseConfig

variable {v : Value} {t : Table} {index : ℕ} {known : List String} {error : List String → ConfigError}

/-- A table is refused for the type of its keys if and only if one of them is no string. -/
theorem checkKeys_eq_oddKeys_iff (herror : ∀ names, error names ≠ .oddKeys) :
    checkKeys known error t = .error .oddKeys ↔ t.HasOddKey := by
  have hcases : (t.HasOddKey ∧ checkKeys known error t = .error .oddKeys) ∨
      (¬ t.HasOddKey ∧ (checkKeys known error t = .ok () ∨
        ∃ names, checkKeys known error t = .error (error (sortNames names)))) := by
    refine Table.check_cases fun k hnone => ?_
    cases k with
    | string s => cases hnone
    | _ => rfl
  rcases hcases with ⟨hodd, hcheck⟩ | ⟨hodd, hcheck | ⟨names, hcheck⟩⟩
  · exact iff_of_true hcheck hodd
  · refine iff_of_false (fun h => ?_) hodd
    cases hcheck.symm.trans h
  · exact iff_of_false (fun h => herror _ (Except.error.inj (hcheck.symm.trans h))) hodd

theorem name_ne_oddKeys (place : String) (v : Value) : name place v ≠ .error .oddKeys := by
  intro h
  rw [name] at h
  split at h <;> cases h

theorem releaseKind_ne_oddKeys (index : ℕ) (v : Option Value) :
    releaseKind index v ≠ .error .oddKeys := by
  intro h
  rw [releaseKind.eq_def] at h
  split at h
  · cases h
  · cases h
  · cases h
  · split at h <;> cases h

theorem branchOf_ne_oddKeys (v : Value) (index : ℕ) : branchOf v index ≠ .error .oddKeys := by
  intro h
  rw [branchOf] at h
  split at h
  · cases h
  · rcases bind_eq_error.mp h with hname | ⟨_, -, h⟩
    · exact name_ne_oddKeys _ _ hname
    · rcases bind_eq_error.mp h with hkind | ⟨_, -, h⟩
      · exact releaseKind_ne_oddKeys _ _ hkind
      · cases h
  · cases h

/-- An item of the plugins that is refused for the type of its keys is a table of which one is no
string. -/
theorem hasOddKey_of_pluginOf (h : pluginOf v index = .error .oddKeys) :
    ∃ t, v.asTable? = some t ∧ t.HasOddKey := by
  have herror : ∀ names, ConfigError.pluginKeys index names ≠ .oddKeys := fun _ => nofun
  rw [pluginOf] at h
  split at h
  · cases h
  · rcases bind_eq_error.mp h with hname | ⟨_, -, h⟩
    · exact absurd hname (name_ne_oddKeys _ _)
    · cases h
  · rcases bind_eq_error.mp h with hname | ⟨_, -, h⟩
    · exact absurd hname (name_ne_oddKeys _ _)
    · split at h <;> cases h
  · cases h
  · rename_i t _ _ ht
    refine ⟨t, ht, ?_⟩
    rcases bind_eq_error.mp h with hkeys | ⟨_, -, h⟩
    · exact (checkKeys_eq_oddKeys_iff herror).mp hkeys
    · rcases bind_eq_error.mp h with hname | ⟨_, -, h⟩
      · exact absurd hname (name_ne_oddKeys _ _)
      · split at h
        · cases h
        · split at h <;> cases h
  · cases h

theorem pluginOf_of_hasOddKey (ht : v.asTable? = some t) (hodd : t.HasOddKey) :
    pluginOf v index = .error .oddKeys := by
  have herror : ∀ names, ConfigError.pluginKeys index names ≠ .oddKeys := fun _ => nofun
  rw [pluginOf]
  have hname : v.asName? = none := by
    cases v with
    | string s => cases ht
    | _ => rfl
  have hlist : v.asList? = none := by
    rw [Value.asTable?] at ht
    rw [Value.asList?]
    split at ht
    · rename_i hbare
      rw [hbare]
    · cases ht
  rw [hname, hlist, ht]
  exact bind_eq_error.mpr (.inl ((checkKeys_eq_oddKeys_iff herror).mpr hodd))

/-- All of a configuration but its plugins is right. -/
structure Framed (t : Table) : Prop where
  keys : checkKeys ["branches", "plugins", "tagFormat"] .unknownKeys t = .ok ()
  branches : ∃ items matchers, branchItems (t.getD "branches") = .ok items ∧
    items.zipIdx.mapM (fun (b, i) => branchOf b i) = .ok matchers
  tagFormat : ∃ format, name "tagFormat" ((t.get? "tagFormat").getD (.string defaultTagFormat)) =
    .ok format ∧ Text.contains versionMark format = true

/-- The reading of a configuration comes upon a table with a key that is no string: the configuration
itself, or an item of its plugins after others that are right. -/
inductive HasOddKeys (v : Value) : Prop
  | top {t : Table} (ht : v.asTable? = some t) (h : t.HasOddKey)
  | plugin {t plugin : Table} {before after : List Value} {item : Value}
    (ht : v.asTable? = some t) (hframed : Framed t)
    (hitems : (t.getD "plugins").asList? = some (before ++ item :: after))
    (hbefore : ∀ q ∈ before.zipIdx, ∃ p, pluginOf q.1 q.2 = .ok p)
    (hitem : item.asTable? = some plugin) (h : plugin.HasOddKey)

theorem items_eq_ok_iff {e : ConfigError} {xs : List Value} :
    items e v = .ok xs ↔ v.asList? = some xs ∧ xs ≠ [] := by
  rw [items]
  split
  · rename_i x xs hlist
    simp only [hlist, Except.ok.injEq, Option.some.injEq]
    constructor
    · rintro rfl
      exact ⟨rfl, List.cons_ne_nil x xs⟩
    · rintro ⟨h, -⟩
      exact h
  · rename_i hother
    constructor
    · intro h
      cases h
    · rintro ⟨hlist, hne⟩
      obtain ⟨x, xs, rfl⟩ := List.exists_cons_of_ne_nil hne
      exact absurd hlist (hother x xs)

theorem items_eq_error {e e' : ConfigError} (h : items e v = .error e') : e' = e := by
  rw [items] at h
  split at h
  · cases h
  · exact (Except.error.inj h).symm

theorem unknownKeys_ne (names : List String) : ConfigError.unknownKeys names ≠ .oddKeys :=
  nofun

theorem branchItems_ne_oddKeys (v : Value) : branchItems v ≠ .error .oddKeys := by
  intro h
  rw [branchItems] at h
  split at h
  · cases h
  · cases items_eq_error h

theorem hasOddKeys_of_ofValue (h : ofValue v = .error .oddKeys) : HasOddKeys v := by
  rw [ofValue] at h
  split at h
  · cases h
  · rename_i t ht
    rcases bind_eq_error.mp h with hkeys | ⟨_, hkeys, h⟩
    · exact .top ht ((checkKeys_eq_oddKeys_iff unknownKeys_ne).mp hkeys)
    rcases bind_eq_error.mp h with hbad | ⟨bs, hbs, h⟩
    · exact absurd hbad (branchItems_ne_oddKeys _)
    rcases bind_eq_error.mp h with hbad | ⟨ps, hps, h⟩
    · cases items_eq_error hbad
    rcases bind_eq_error.mp h with hbad | ⟨format, hformat, h⟩
    · exact absurd hbad (name_ne_oddKeys _ _)
    split at h
    · rename_i hmark
      rcases bind_eq_error.mp h with hbad | ⟨matchers, hmatchers, h⟩
      · obtain ⟨⟨b, i⟩, -, hb⟩ := exists_of_mapM_eq_error hbad
        exact absurd hb (branchOf_ne_oddKeys b i)
      rcases bind_eq_error.mp h with hbad | ⟨_, -, h⟩
      · obtain ⟨before, item, after, rfl, hbefore, hitem⟩ := mapM_zipIdx_eq_error.mp hbad
        obtain ⟨plugin, hplugin, hodd⟩ := hasOddKey_of_pluginOf hitem
        have hframed : Framed t := ⟨hkeys, ⟨bs, matchers, hbs, hmatchers⟩, format, hformat, hmark⟩
        exact .plugin ht hframed (items_eq_ok_iff.mp hps).1 hbefore hplugin hodd
      · cases h
    · cases h

theorem ofValue_of_hasOddKeys (h : HasOddKeys v) : ofValue v = .error .oddKeys := by
  cases h with
  | top ht h =>
    rw [ofValue, ht]
    exact bind_eq_error.mpr (.inl ((checkKeys_eq_oddKeys_iff unknownKeys_ne).mpr h))
  | @plugin t plugin before after item ht hframed hitems hbefore hitem h =>
    obtain ⟨hkeys, ⟨bs, matchers, hbs, hmatchers⟩, format, hformat, hmark⟩ := hframed
    have hps : items .noPlugins (t.getD "plugins") = .ok (before ++ item :: after) :=
      items_eq_ok_iff.mpr ⟨hitems, by simp⟩
    have hodd : pluginOf item (0 + before.length) = .error .oddKeys := pluginOf_of_hasOddKey hitem h
    have hplugins := mapM_zipIdx_eq_error (f := fun q => pluginOf q.1 q.2).mpr
      ⟨before, item, after, rfl, hbefore, hodd⟩
    rw [ofValue, ht]
    simp only [bind_eq_error]
    refine .inr ⟨(), hkeys, .inr ⟨bs, hbs, .inr ⟨_, hps, .inr ⟨format, hformat, ?_⟩⟩⟩⟩
    rw [if_pos hmark]
    exact bind_eq_error.mpr (.inr ⟨matchers, hmatchers, bind_eq_error.mpr (.inl hplugins)⟩)

/-- A value is refused for the type of keys if and only if the reading comes upon such ones. -/
theorem ofValue_eq_oddKeys_iff : ofValue v = .error .oddKeys ↔ HasOddKeys v :=
  ⟨hasOddKeys_of_ofValue, ofValue_of_hasOddKeys⟩

end ReleaseConfig

end ReleasePipeline
