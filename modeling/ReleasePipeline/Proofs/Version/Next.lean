import ReleasePipeline.Proofs.Version.Order
import ReleasePipeline.Proofs.Version.Reading
import ReleasePipeline.Version.Next

/-! The next version comes after every stable version and after every version of its channel. -/
namespace ReleasePipeline.Version

open Std

variable {v w : Version} {vs : List Version} {b : Bump} {kind : BumpKind} {name : String}
  {channel : Option String}

theorem compare_succ (n : ℤ) : compare n (n + 1) = .lt := Int.compare_eq_lt.mpr (by omega)

theorem cmpBase_bumped (v : Version) (b : Bump) : cmpBase v (v.bumped b) = .lt := by
  cases b <;> simp [cmpBase, bumped, compare_succ]

theorem lastRelease_none_spec (h : lastRelease vs none = some v) :
    (v ∈ vs ∧ v.channel = none) ∧
      ∀ u ∈ vs, u.channel = none → u.rank.cmp v.rank ≠ .gt := by
  obtain ⟨hv, hall⟩ := greatest?_spec h
  exact ⟨by simpa using hv, fun u hu hs => hall u (by simp [hu, hs])⟩

theorem mem_of_lastRelease (h : lastRelease vs channel = some v) : v ∈ vs :=
  (List.mem_filter.mp (greatest?_spec h).1).1

/-- The version after which nothing comes, stable or on the channel, is the last release. -/
theorem lastRelease_of_below (hv : v ∈ vs) (hc : v.channel = none ∨ v.channel = channel)
    (hall : ∀ u ∈ vs, u.channel = none ∨ u.channel = channel → u = v ∨ Below u v) :
    lastRelease vs channel = some v := by
  have hrelevant (u : Version) : (u.channel.isNone || (channel.isSome && u.channel = channel)) = true ↔
      u.channel = none ∨ u.channel = channel := by
    cases channel <;> simp
  have hmem : v ∈ vs.filter fun v => v.channel.isNone || (channel.isSome && v.channel = channel) :=
    List.mem_filter.mpr ⟨hv, (hrelevant v).mpr hc⟩
  cases hlast : lastRelease vs channel with
  | none =>
    rw [greatest?_eq_none_iff.mp hlast] at hmem
    exact absurd hmem List.not_mem_nil
  | some u =>
    obtain ⟨hu, hgreatest⟩ := greatest?_spec hlast
    obtain ⟨hu, hrel⟩ := List.mem_filter.mp hu
    rcases hall u hu ((hrelevant u).mp hrel) with rfl | hbelow
    · rfl
    · exact absurd (OrientedCmp.gt_of_lt hbelow) (hgreatest v hmem)

theorem lastRelease_ne_none (hv : v ∈ vs) (hs : v.channel = none) : lastRelease vs none ≠ none := by
  intro h
  have := List.filter_eq_nil_iff.mp (greatest?_eq_none_iff.mp h) v hv
  simp [hs] at this

theorem target_channel (vs : List Version) (b : Bump) : (target vs b).channel = none := by
  rw [target]
  split
  · rfl
  · cases b <;> rfl

/-- Every stable version comes before what stands on the base of the target or on a later one. -/
theorem below_of_target (hv : v ∈ vs) (hs : v.channel = none)
    (hw : cmpBase (target vs b) w ≠ .gt) : Below v w := by
  cases hl : lastRelease vs none with
  | none => exact absurd hl (lastRelease_ne_none hv hs)
  | some s =>
    obtain ⟨-, hall⟩ := lastRelease_none_spec hl
    have ht : target vs b = s.bumped b := by rw [target, hl]
    rw [ht] at hw
    exact below_of_not_gt (hall v hv hs)
      (below_of_cmpBase (cmpBase_lt_of_not_gt (cmpBase_bumped s b) hw))

theorem onChannel_channel (vs : List Version) (goal : Version) (name : String) :
    (onChannel vs goal name).channel = some name := by
  rw [onChannel]
  split
  · split <;> rfl
  · rfl

/-- The version on a channel leads to the goal or further. -/
theorem cmpBase_onChannel (hg : w.channel = none) : cmpBase w (onChannel vs w name) ≠ .gt := by
  have hself : cmpBase w w = .eq := ReflCmp.compare_self
  rw [onChannel]
  split
  · next latest _ =>
    split
    · next hlt =>
      intro hgt
      have hbase : cmpBase latest.base w = .lt := OrientedCmp.lt_of_gt hgt
      rw [cmp_rank_of_stable rfl hg] at hlt
      exact hlt hbase
    · intro hgt
      change cmpBase w w = .gt at hgt
      rw [hself] at hgt
      cases hgt
  · intro hgt
    change cmpBase w w = .gt at hgt
    rw [hself] at hgt
    cases hgt

/-- The version on a channel comes after all others there. -/
theorem below_onChannel (hv : v ∈ vs) (hc : v.channel = some name) (hg : w.channel = none) :
    Below v (onChannel vs w name) := by
  have hmem : v ∈ vs.filter fun v => v.channel = some name := by simp [hv, hc]
  rw [onChannel]
  split
  · next latest hl =>
    obtain ⟨hlatest, hall⟩ := greatest?_spec hl
    have hch : latest.channel = some name := by simpa using (List.mem_filter.mp hlatest).2
    apply below_of_not_gt (hall v hmem)
    split
    · next hle =>
      have hself : cmpBase latest latest = .eq := ReflCmp.compare_self
      rw [Below, cmp_rank]
      change (cmpBase latest latest).then _ = .lt
      simp [hself, cmpWithin, rank, hch, compare_succ]
    · next hlt =>
      rw [not_not, cmp_rank_of_stable rfl hg] at hlt
      exact below_of_cmpBase hlt
  · next hl =>
    rw [greatest?_eq_none_iff] at hl
    rw [hl] at hmem
    cases hmem

theorem below_next (hv : v ∈ vs) (hc : v.channel = none ∨ v.channel = channel) :
    Below v (next vs b channel) := by
  have hself : cmpBase (target vs b) (target vs b) = .eq := ReflCmp.compare_self
  cases channel with
  | none =>
    have hs : v.channel = none := by simpa using hc
    exact below_of_target hv hs (by rw [next, hself]; decide)
  | some name =>
    rcases hc with hs | hc
    · exact below_of_target hv hs (cmpBase_onChannel (target_channel vs b))
    · exact below_onChannel hv hc (target_channel vs b)

theorem next_channel : (next vs b channel).channel = channel := by
  cases channel with
  | none => exact target_channel vs b
  | some name => exact onChannel_channel vs (target vs b) name

/-- Whatever the kind of the bump is, the next version is one that some bump leads to. -/
theorem exists_next_of_nextFor (h : nextFor vs kind channel = .ok w) :
    ∃ b, w = next vs b channel := by
  rw [nextFor.eq_def] at h
  split at h
  · exact ⟨_, (Except.ok.inj h).symm⟩
  · exact ⟨_, (Except.ok.inj h).symm⟩
  · cases h

theorem channel_of_nextFor (h : nextFor vs kind channel = .ok w) : w.channel = channel := by
  obtain ⟨b, rfl⟩ := exists_next_of_nextFor h
  exact next_channel

theorem legible_target (hvs : ∀ v ∈ vs, v.Legible) :
    ∃ m n p : ℕ, target vs b = ⟨m, n, p, none, none⟩ := by
  rw [target]
  split
  · exact ⟨1, 0, 0, rfl⟩
  · next s hl =>
    have hs := hvs s (lastRelease_none_spec hl).1.1
    cases hs with
    | stable m n p | prerelease m n p =>
      cases b with
      | major => exact ⟨m + 1, 0, 0, rfl⟩
      | minor => exact ⟨m, n + 1, 0, rfl⟩
      | patch => exact ⟨m, n, p + 1, rfl⟩

/-- The next version after legible ones is legible. -/
theorem legible_next (hvs : ∀ v ∈ vs, v.Legible)
    (hc : ∀ name, channel = some name → IsChannelName name) :
    (next vs b channel).Legible := by
  obtain ⟨m, n, p, ht⟩ := legible_target (b := b) hvs
  cases channel with
  | none =>
    rw [next, ht]
    exact .stable m n p
  | some name =>
    rw [next, ht, onChannel]
    have hfirst : (⟨m, n, p, some name, some 1⟩ : Version).Legible :=
      .prerelease m n p name 1 (hc name rfl)
    split
    · next latest hl =>
      split
      · have hlatest := hvs latest (List.mem_filter.mp (greatest?_spec hl).1).1
        cases hlatest with
        | stable a b c => exact .prerelease a b c name 1 (hc name rfl)
        | prerelease a b c _ k _ => exact .prerelease a b c name (k + 1) (hc name rfl)
      · exact hfirst
    · exact hfirst

end ReleasePipeline.Version
