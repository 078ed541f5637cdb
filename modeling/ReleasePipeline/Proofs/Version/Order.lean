import Mathlib.Data.List.Basic
import ReleasePipeline.Version.Basic

/-! The order of versions: by their bases, and within a base by stability, channel and counter. -/
namespace ReleasePipeline.Version

open Std

variable {u v w : Version} {vs : List Version}

/-- The order of versions by their first three numbers alone. -/
def cmpBase (u v : Version) : Ordering :=
  (compare u.major v.major).then ((compare u.minor v.minor).then (compare u.patch v.patch))

/-- The order of versions of one base. -/
def cmpWithin (u v : Version) : Ordering :=
  (compare u.rank.stability v.rank.stability).then
    ((compare u.rank.channel v.rank.channel).then (compare u.rank.counter v.rank.counter))

/-- A version comes before another one. -/
def Below (u v : Version) : Prop := u.rank.cmp v.rank = .lt

instance : TransCmp Rank.cmp :=
  inferInstanceAs <| TransCmp <|
    compareLex (compareOn Rank.major) <| compareLex (compareOn Rank.minor) <|
    compareLex (compareOn Rank.patch) <| compareLex (compareOn Rank.stability) <|
    compareLex (compareOn Rank.channel) (compareOn Rank.counter)

instance : TransCmp cmpBase :=
  inferInstanceAs <| TransCmp <|
    compareLex (compareOn Version.major) <| compareLex (compareOn Version.minor)
    (compareOn Version.patch)

theorem cmp_rank : u.rank.cmp v.rank = (cmpBase u v).then (cmpWithin u v) := by
  have hbase : ∀ x : Version, x.rank.major = x.major ∧ x.rank.minor = x.minor ∧
      x.rank.patch = x.patch := by
    intro x
    rw [rank]
    split <;> simp
  simp only [Rank.cmp, cmpBase, cmpWithin, Ordering.then_assoc, hbase]

theorem below_of_cmpBase (h : cmpBase u v = .lt) : Below u v := by
  rw [Below, cmp_rank, h]
  rfl

theorem not_below_self : ¬ Below v v := by
  intro h
  have heq : v.rank.cmp v.rank = .eq := ReflCmp.compare_self
  rw [Below, heq] at h
  cases h

theorem below_of_not_gt (h₁ : u.rank.cmp v.rank ≠ .gt) (h₂ : Below v w) : Below u w :=
  TransCmp.lt_of_isLE_of_lt (Ordering.isLE_iff_ne_gt.mpr h₁) h₂

theorem cmpBase_lt_of_not_gt (h₁ : cmpBase u v = .lt) (h₂ : cmpBase v w ≠ .gt) :
    cmpBase u w = .lt :=
  TransCmp.lt_of_lt_of_isLE h₁ (Ordering.isLE_iff_ne_gt.mpr h₂)

/-- Stable versions are ordered by their bases. -/
theorem cmp_rank_of_stable (hu : u.channel = none) (hv : v.channel = none) :
    u.rank.cmp v.rank = cmpBase u v := by
  rw [cmp_rank]
  have hw : cmpWithin u v = .eq := by simp [cmpWithin, rank, hu, hv]
  rw [hw]
  cases cmpBase u v <;> rfl

theorem not_gt_trans (h₁ : u.rank.cmp v.rank ≠ .gt) (h₂ : v.rank.cmp w.rank ≠ .gt) :
    u.rank.cmp w.rank ≠ .gt :=
  Ordering.isLE_iff_ne_gt.mp
    (TransCmp.isLE_trans (Ordering.isLE_iff_ne_gt.mpr h₁) (Ordering.isLE_iff_ne_gt.mpr h₂))

/-- What is as great as the greater of two versions is as great as both. -/
theorem not_gt_of_greater
    (h : (if w.rank.cmp v.rank = .gt then w else v).rank.cmp u.rank ≠ .gt) :
    v.rank.cmp u.rank ≠ .gt ∧ w.rank.cmp u.rank ≠ .gt := by
  split at h
  · next hgt =>
    have hvw : v.rank.cmp w.rank ≠ .gt := by
      rw [OrientedCmp.lt_of_gt hgt]
      simp
    exact ⟨not_gt_trans hvw h, h⟩
  · next hgt => exact ⟨h, not_gt_trans hgt h⟩

/-- A search that keeps the greater version keeps one of greatest rank. -/
theorem foldl_greatest (vs : List Version) (v : Version) :
    let r := vs.foldl (fun best w => if w.rank.cmp best.rank = .gt then w else best) v
    (r = v ∨ r ∈ vs) ∧ v.rank.cmp r.rank ≠ .gt ∧ ∀ u ∈ vs, u.rank.cmp r.rank ≠ .gt := by
  induction vs generalizing v with
  | nil =>
    have heq : v.rank.cmp v.rank = .eq := ReflCmp.compare_self
    simp [heq]
  | cons w vs ih =>
    intro r
    obtain ⟨hmem, hle, hall⟩ := ih (if w.rank.cmp v.rank = .gt then w else v)
    change r = _ ∨ r ∈ vs at hmem
    obtain ⟨hv, hw⟩ := not_gt_of_greater hle
    refine ⟨?_, hv, ?_⟩
    · rcases hmem with h | h
      · split at h
        · exact Or.inr (by rw [h]; exact List.mem_cons_self)
        · exact Or.inl h
      · exact Or.inr (List.mem_cons_of_mem _ h)
    · intro u hu
      rcases List.mem_cons.mp hu with rfl | hu
      · exact hw
      · exact hall u hu

theorem greatest?_eq_none_iff : greatest? vs = none ↔ vs = [] := by
  cases vs with
  | nil => simp [greatest?]
  | cons v vs => simp [greatest?]

/-- What `greatest?` finds is one of the versions and at least as great as each of them. -/
theorem greatest?_spec (h : greatest? vs = some v) :
    v ∈ vs ∧ ∀ u ∈ vs, u.rank.cmp v.rank ≠ .gt := by
  cases vs with
  | nil => cases h
  | cons w vs =>
    obtain rfl := Option.some.inj h
    obtain ⟨hmem, hle, hall⟩ := foldl_greatest vs w
    refine ⟨?_, ?_⟩
    · rcases hmem with h | h
      · rw [h]
        exact List.mem_cons_self
      · exact List.mem_cons_of_mem _ h
    · intro u hu
      rcases List.mem_cons.mp hu with rfl | hu
      · exact hle
      · exact hall u hu

end ReleasePipeline.Version
