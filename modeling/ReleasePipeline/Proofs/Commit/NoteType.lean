import Mathlib.Data.List.Induction
import ReleasePipeline.Commit.Notes
import ReleasePipeline.Proofs.Except
import ReleasePipeline.Proofs.Value.Basic

/-! Note types: which entry of a list decides on a type, and what the tables of a list say. -/
namespace ReleasePipeline.NoteType

variable {types : List NoteType} {t u : NoteType} {i j : Nat} {kind heading : String}

/-- No entry is of the type. -/
def Fresh (types : List NoteType) (kind : String) : Prop := ∀ u ∈ types, u.type ≠ kind

instance : Decidable (Fresh types kind) :=
  inferInstanceAs (Decidable (∀ u ∈ types, u.type ≠ kind))

/-- The entry at a place is the first one of its type. -/
def FirstAt (types : List NoteType) (i : Nat) (t : NoteType) : Prop :=
  types[i]? = some t ∧ Fresh (types.take i) t.type

/-- The entry at a place is the first one of its type and shows it under the heading. -/
def ShowsAt (types : List NoteType) (i : Nat) (heading : String) : Prop :=
  ∃ t, FirstAt types i t ∧ t.hidden = false ∧ t.heading = heading

theorem FirstAt.lt_length (h : FirstAt types i t) : i < types.length :=
  (List.getElem?_eq_some_iff.mp h.1).1

theorem ShowsAt.lt_length (h : ShowsAt types i heading) : i < types.length := by
  obtain ⟨t, ht, -⟩ := h
  exact ht.lt_length

theorem firstAt_concat : FirstAt (types ++ [u]) i t ↔
    FirstAt types i t ∨ i = types.length ∧ t = u ∧ Fresh types u.type := by
  rcases Nat.lt_trichotomy i types.length with hlt | rfl | hgt
  · simp only [FirstAt, List.getElem?_append_left hlt, List.take_append_of_le_length (Nat.le_of_lt hlt)]
    constructor
    · exact .inl
    · rintro (h | ⟨rfl, -⟩)
      · exact h
      · exact absurd hlt (Nat.lt_irrefl _)
  · simp only [FirstAt, List.getElem?_concat_length, List.take_left, List.getElem?_length, true_and,
      reduceCtorEq, false_and, false_or, Option.some.injEq]
    constructor
    · rintro ⟨rfl, h⟩
      exact ⟨rfl, h⟩
    · rintro ⟨rfl, h⟩
      exact ⟨rfl, h⟩
  · constructor
    · intro h
      have hlt := h.lt_length
      rw [List.length_append, List.length_singleton] at hlt
      omega
    · rintro (h | ⟨rfl, -⟩)
      · have hlt := h.lt_length
        omega
      · omega

theorem showsAt_concat : ShowsAt (types ++ [t]) i heading ↔ ShowsAt types i heading ∨
    i = types.length ∧ Fresh types t.type ∧ t.hidden = false ∧ t.heading = heading := by
  simp only [ShowsAt, firstAt_concat, or_and_right, exists_or]
  constructor
  · rintro (h | ⟨u, ⟨hi, rfl, hfresh⟩, hshown⟩)
    · exact .inl h
    · exact .inr ⟨hi, hfresh, hshown⟩
  · rintro (h | ⟨hi, hfresh, hshown⟩)
    · exact .inl h
    · exact .inr ⟨t, ⟨hi, rfl, hfresh⟩, hshown⟩

/-- A type has one first entry at most. -/
theorem FirstAt.unique (ht : FirstAt types i t) (hu : FirstAt types j u) (h : t.type = u.type) :
    i = j ∧ t = u := by
  have hle {i j : Nat} {t u : NoteType} (ht : FirstAt types i t) (hu : FirstAt types j u)
      (h : t.type = u.type) : ¬ i < j := by
    intro hlt
    have hmem : t ∈ types.take j :=
      List.mem_iff_getElem?.mpr ⟨i, by rw [List.getElem?_take_of_lt hlt, ht.1]⟩
    exact hu.2 t hmem h
  have hij : i = j := by
    have h₁ := hle ht hu h
    have h₂ := hle hu ht h.symm
    omega
  subst hij
  exact ⟨rfl, Option.some.inj (ht.1.symm.trans hu.1)⟩

theorem fresh_concat : Fresh (types ++ [t]) kind ↔ Fresh types kind ∧ t.type ≠ kind := by
  simp [Fresh, or_imp, forall_and]

theorem firstEntries_append (types : List NoteType) (t : NoteType) :
    firstEntries (types ++ [t]) = if (firstEntries types).any (·.type = t.type)
      then firstEntries types else firstEntries types ++ [t] :=
  List.foldl_append

theorem fresh_firstEntries : Fresh (firstEntries types) kind ↔ Fresh types kind := by
  induction types using List.reverseRecOn with
  | nil => rfl
  | append_singleton types u ih =>
    rw [firstEntries_append, fresh_concat]
    split
    · rename_i hseen
      obtain ⟨v, hv, htype⟩ := List.any_eq_true.mp hseen
      constructor
      · intro hfresh
        refine ⟨ih.mp hfresh, fun hkind => hfresh v hv ?_⟩
        rw [← hkind]
        exact of_decide_eq_true htype
      · rintro ⟨hfresh, -⟩
        exact ih.mpr hfresh
    · rw [fresh_concat, ih]

/-- A further entry is kept if and only if its type is new. -/
theorem firstEntries_concat (types : List NoteType) (t : NoteType) :
    firstEntries (types ++ [t]) =
      if Fresh types t.type then firstEntries types ++ [t] else firstEntries types := by
  have hseen : (firstEntries types).any (·.type = t.type) = true ↔ ¬ Fresh types t.type := by
    rw [← fresh_firstEntries, List.any_eq_true, Fresh]
    simp
  rw [firstEntries_append]
  simp only [hseen, ite_not]

theorem mem_firstEntries_iff : t ∈ firstEntries types ↔ ∃ i, FirstAt types i t := by
  induction types using List.reverseRecOn with
  | nil => simp [firstEntries, FirstAt]
  | append_singleton types u ih =>
    simp only [firstEntries_concat, firstAt_concat, exists_or, ← ih, exists_eq_left]
    split
    · rename_i hfresh
      simp [hfresh]
    · rename_i hseen
      simp [hseen]

theorem visible_concat (types : List NoteType) (t : NoteType) :
    visible (types ++ [t]) =
      if Fresh types t.type ∧ t.hidden = false then visible types ++ [t] else visible types := by
  rw [visible, firstEntries_concat]
  by_cases hfresh : Fresh types t.type
  · cases hhidden : t.hidden <;> simp [hfresh, hhidden, visible]
  · simp [hfresh, visible]

theorem mem_visible_iff : t ∈ visible types ↔ ∃ i, FirstAt types i t ∧ t.hidden = false := by
  rw [visible, List.mem_filter, mem_firstEntries_iff, exists_and_right]
  simp

/-- A later entry for a type that is already there changes nothing. -/
theorem firstEntries_of_mem {before after : List NoteType} (hu : u ∈ before)
    (htype : u.type = t.type) :
    firstEntries (before ++ t :: after) = firstEntries (before ++ after) := by
  have hold : firstEntries (before ++ [t]) = firstEntries before := by
    rw [firstEntries_concat, if_neg fun hfresh => hfresh u hu htype]
  have hrest : firstEntries (before ++ [t] ++ after) = firstEntries (before ++ after) := by
    unfold firstEntries at hold ⊢
    rw [List.foldl_append, hold, ← List.foldl_append]
  rwa [List.append_assoc] at hrest

/-- What the table of an accepted note type says. -/
structure Reads (t : Table) (n : NoteType) : Prop where
  type : t.get? "type" = some (.string n.type)
  type_ne : n.type ≠ ""
  heading : t.getD "section" = .string n.heading ∧ n.heading ≠ "" ∨
    (t.getD "section" = .null ∨ t.getD "section" = .string "") ∧ n.heading = n.type
  hidden : t.get? "hidden" = some (.bool n.hidden) ∨ t.get? "hidden" = none ∧ n.hidden = false

theorem heading_of_isString {t : Table}
    (h : (t.getD "section").isNull = true ∨ ∃ s, t.getD "section" = .string s) :
    t.getD "section" = .string (ofTable t).heading ∧ (ofTable t).heading ≠ "" ∨
      (t.getD "section" = .null ∨ t.getD "section" = .string "") ∧
        (ofTable t).heading = (ofTable t).type := by
  rcases h with hnull | ⟨s, hs⟩
  · rw [isNull_iff] at hnull
    refine .inr ⟨.inl hnull, ?_⟩
    rw [ofTable, hnull]
    rfl
  · by_cases hempty : s = ""
    · subst hempty
      refine .inr ⟨.inr hs, ?_⟩
      rw [ofTable, hs]
      rfl
    · have hheading : (ofTable t).heading = s := by
        rw [ofTable, hs]
        simp [Value.asName?, hempty]
      rw [hheading]
      exact .inl ⟨hs, hempty⟩

theorem hidden_of_isBool {t : Table} (h : ∀ v, t.get? "hidden" = some v → ∃ b, v = .bool b) :
    t.get? "hidden" = some (.bool (ofTable t).hidden) ∨
      t.get? "hidden" = none ∧ (ofTable t).hidden = false := by
  cases hget : t.get? "hidden" with
  | none =>
    have habsent : t.getD "hidden" = .null := by rw [Table.getD, hget]; rfl
    refine .inr ⟨rfl, ?_⟩
    rw [ofTable, habsent]
    rfl
  | some v =>
    obtain ⟨b, rfl⟩ := h v hget
    have hvalue : t.getD "hidden" = .bool b := by rw [Table.getD, hget]; rfl
    refine .inl ?_
    rw [ofTable, hvalue]
    rfl

theorem reads_of_fault? {t : Table} {entry : Nat} (h : fault? entry t = none) :
    Reads t (ofTable t) := by
  unfold fault? at h
  simp only at h
  split at h
  · cases h
  rename_i htype
  split at h
  · cases h
  rename_i hsection
  split at h
  · cases h
  rename_i hhidden
  obtain ⟨type, htype⟩ : ∃ type, (t.getD "type").asName? = some type :=
    Option.ne_none_iff_exists'.mp (by simpa using htype)
  obtain ⟨hstring, hne⟩ := asName?_eq_some_iff.mp htype
  have hread : (ofTable t).type = type := by rw [ofTable, hstring]; rfl
  refine ⟨?_, hread ▸ hne, heading_of_isString ?_, hidden_of_isBool ?_⟩
  · rw [hread]
    exact Table.get?_of_getD hstring (by simp)
  · by_cases hnull : (t.getD "section").isNull
    · exact .inl hnull
    · obtain ⟨s, hs⟩ := Option.ne_none_iff_exists'.mp (show (t.getD "section").asString? ≠ none by
        simpa [hnull] using hsection)
      exact .inr ⟨s, asString?_eq_some_iff.mp hs⟩
  · intro v hv
    obtain ⟨b, hb⟩ := Option.ne_none_iff_exists'.mp (show v.asBool? ≠ none by
      simpa [hv] using hhidden)
    exact ⟨b, asBool?_eq_some_iff.mp hb⟩

theorem fault?_of_tables {v : Value} {ts : List Table} (h : tables v = .ok ts) :
    ∀ t ∈ ts, ∃ entry, fault? entry t = none := by
  rw [tables] at h
  split at h
  · cases h
    have hdefaults : ∀ t ∈ defaults, fault? 1 t = none := by decide
    exact fun t ht => ⟨1, hdefaults t ht⟩
  · split at h
    · cases h
    · split at h
      · cases h
      · rename_i hnone
        cases h
        intro t ht
        have hplace : t ∈ (ts.zipIdx 1).map Prod.fst := by rwa [List.zipIdx_map_fst]
        obtain ⟨⟨_, entry⟩, hentry, rfl⟩ := List.mem_map.mp hplace
        exact ⟨entry, List.findSome?_eq_none_iff.mp hnone _ hentry⟩

theorem reads_of_tables {v : Value} {ts : List Table} (h : tables v = .ok ts) :
    List.Forall₂ Reads ts (ts.map ofTable) := by
  rw [List.forall₂_map_right_iff, List.forall₂_same]
  intro t ht
  obtain ⟨entry, hentry⟩ := fault?_of_tables h t ht
  exact reads_of_fault? hentry

end ReleasePipeline.NoteType
