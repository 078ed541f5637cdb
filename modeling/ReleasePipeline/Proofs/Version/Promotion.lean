import Mathlib.Data.List.Induction
import ReleasePipeline.Proofs.Version.Next

/-! A line of prereleases leads to the stable version that the greatest of its bumps asks for. -/
namespace ReleasePipeline

namespace Bump

variable {a b m : Bump} {bumps : List Bump}

/-- The greatest of some bumps. -/
def greatestOf (bumps : List Bump) : Option Bump := greatest (bumps.map some)

theorem greatestOf_concat (bumps : List Bump) (b : Bump) :
    greatestOf (bumps ++ [b]) = join (greatestOf bumps) (some b) := by
  simp [greatestOf, greatest]

theorem join_of_lt (h : a.weight < b.weight) : join (some a) (some b) = some b := by
  rw [join, if_pos h]

theorem join_of_le (h : b.weight ≤ a.weight) : join (some a) (some b) = some a := by
  rw [join, if_neg (Nat.not_lt.mpr h)]

end Bump

namespace Version

open Std

variable {vs made : List Version} {u v s : Version} {a b m : Bump} {name : String}

/-- The prereleases on a channel for one bump after the other, each after all versions before it. -/
def prereleases (vs : List Version) (name : String) (bumps : List Bump) : List Version :=
  bumps.foldl (fun made b => made ++ [next (vs ++ made) b (some name)]) []

theorem prereleases_concat (vs : List Version) (name : String) (bumps : List Bump) (b : Bump) :
    prereleases vs name (bumps ++ [b]) = prereleases vs name bumps ++
      [next (vs ++ prereleases vs name bumps) b (some name)] := by
  rw [prereleases, List.foldl_append]
  rfl

theorem length_prereleases (vs : List Version) (name : String) (bumps : List Bump) :
    (prereleases vs name bumps).length = bumps.length := by
  induction bumps using List.reverseRecOn with
  | nil => rfl
  | append_singleton bumps b ih => simp [prereleases_concat, ih]

/-- The line for some bumps begins with the line for the first of them. -/
theorem take_prereleases (vs : List Version) (name : String) (bumps : List Bump) (n : ℕ) :
    (prereleases vs name bumps).take n = prereleases vs name (bumps.take n) := by
  induction bumps using List.reverseRecOn with
  | nil => simp [prereleases]
  | append_singleton bumps b ih =>
    have hlength := length_prereleases vs name bumps
    rcases Nat.lt_or_ge bumps.length n with hn | hn
    · rw [List.take_of_length_le, List.take_of_length_le]
      · rw [List.length_append]
        exact hn
      · rw [length_prereleases, List.length_append]
        exact hn
    · rw [prereleases_concat, List.take_append_of_le_length (hlength.symm ▸ hn), ih,
        List.take_append_of_le_length hn]

section Targets

theorem target_of_stable (h : lastRelease vs none = some s) (b : Bump) :
    target vs b = s.bumped b := by
  rw [target, h]

theorem target_of_none (h : lastRelease vs none = none) (b : Bump) : target vs b = first := by
  rw [target, h]

theorem target_eq (vs : List Version) (b : Bump) :
    target vs b = (lastRelease vs none).elim first fun s => s.bumped b := by
  rw [target]
  cases lastRelease vs none <;> rfl

theorem base_target (vs : List Version) (b : Bump) : (target vs b).base = target vs b := by
  rw [target_eq]
  cases lastRelease vs none with
  | none => rfl
  | some s => cases b <;> rfl

/-- Versions on channels do not change what a bump leads to. -/
theorem target_append (h : ∀ u ∈ made, u.channel ≠ none) (b : Bump) :
    target (vs ++ made) b = target vs b := by
  have hstable : lastRelease (vs ++ made) none = lastRelease vs none := by
    have hnone : ∀ u ∈ made, ¬ (u.channel.isNone || (none : Option String).isSome &&
        decide (u.channel = none)) = true := by
      intro u hu
      simpa using h u hu
    rw [lastRelease, List.filter_append, List.filter_eq_nil_iff.mpr hnone, List.append_nil]
    rfl
  rw [target_eq, target_eq, hstable]

theorem cmpBase_bumped_of_lt (s : Version) (h : a.weight < b.weight) :
    cmpBase (s.bumped a) (s.bumped b) = .lt := by
  cases a <;> cases b <;> first
    | (simp only [Bump.weight] at h; omega)
    | simp [cmpBase, bumped, compare_succ]

theorem cmpBase_self (v : Version) : cmpBase v v = .eq := ReflCmp.compare_self

/-- A greater bump leads at least as far. -/
theorem cmpBase_target_of_le (vs : List Version) (h : b.weight ≤ a.weight) :
    cmpBase (target vs a) (target vs b) ≠ .lt := by
  cases hs : lastRelease vs none with
  | none =>
    rw [target_of_none hs, target_of_none hs, cmpBase_self]
    decide
  | some s =>
    rw [target_of_stable hs, target_of_stable hs]
    rcases Nat.lt_or_eq_of_le h with hlt | heq
    · rw [OrientedCmp.gt_of_lt (cmpBase_bumped_of_lt s hlt)]
      decide
    · have hab : a = b := by cases a <;> cases b <;> simp_all [Bump.weight]
      rw [hab, cmpBase_self]
      decide

end Targets

/-- What a version that comes after all others is among them. -/
theorem greatest?_concat (h : ∀ u ∈ vs, u.Below v) : greatest? (vs ++ [v]) = some v := by
  cases hg : greatest? (vs ++ [v]) with
  | none => simp [greatest?_eq_none_iff] at hg
  | some w =>
    obtain ⟨hw, hall⟩ := greatest?_spec hg
    rcases List.mem_append.mp hw with hw | hw
    · have hgt : v.rank.cmp w.rank = .gt := OrientedCmp.gt_of_lt (h w hw)
      exact absurd hgt (hall v (by simp))
    · rw [List.mem_singleton.mp hw]

/-- The latest version of the channel once the next one is released is that one. -/
theorem latest_next (vs : List Version) (b : Bump) (name : String) :
    greatest? ((vs ++ [next vs b (some name)]).filter fun u => u.channel = some name) =
      some (next vs b (some name)) := by
  have hchannel : (next vs b (some name)).channel = some name := next_channel
  rw [List.filter_append, List.filter_cons_of_pos (by simp [hchannel]), List.filter_nil]
  refine greatest?_concat fun u hu => ?_
  obtain ⟨hmem, hu⟩ := List.mem_filter.mp hu
  exact below_next hmem (Or.inr (by simpa using hu))

section Line

/-- The prerelease with a counter that leads to a stable version. -/
def prereleaseOf (goal : Version) (name : String) (counter : ℤ) : Version :=
  ⟨goal.major, goal.minor, goal.patch, some name, some counter⟩

theorem onChannel_of_lt {goal : Version} (hgoal : goal.channel = none)
    (h : ∀ latest, greatest? (vs.filter fun u => u.channel = some name) = some latest →
      cmpBase latest goal = .lt) : onChannel vs goal name = prereleaseOf goal name 1 := by
  rw [onChannel]
  cases hlatest : greatest? (vs.filter fun u => u.channel = some name) with
  | none => rfl
  | some latest =>
    have hlt : latest.base.rank.cmp goal.rank = .lt :=
      (cmp_rank_of_stable (u := latest.base) rfl hgoal).trans (h latest hlatest)
    simp only [hlt, ne_eq, not_true_eq_false, if_false]
    rfl

theorem onChannel_of_not_lt {goal : Version} (hgoal : goal.channel = none)
    (hlatest : greatest? (vs.filter fun u => u.channel = some name) = some v)
    (h : cmpBase v goal ≠ .lt) :
    onChannel vs goal name = prereleaseOf v.base name (v.counter.getD 0 + 1) := by
  have hge : v.base.rank.cmp goal.rank ≠ .lt := by
    rwa [cmp_rank_of_stable (u := v.base) rfl hgoal]
  simp only [onChannel, hlatest, hge, ne_eq, not_false_eq_true, if_true]
  rfl

/-- How far a line of prereleases has got after bumps of which `m` is the greatest: its last
version `v` leads to the target of `m` and counts the versions that do. -/
structure Reached (vs : List Version) (name : String) (m : Bump) (made : List Version)
    (v : Version) : Prop where
  last : made.getLast? = some v
  latest : greatest? ((vs ++ made).filter fun u => u.channel = some name) = some v
  base : v.base = target vs m
  counter : v.counter = some (made.countP fun u => u.base = target vs m : ℕ)
  bases : ∀ u ∈ made, u.channel = some name ∧ ∃ a : Bump, a.weight ≤ m.weight ∧
    u.base = target vs a

theorem reached_first (h : ∀ u ∈ vs, u.channel = some name → cmpBase u (target vs b) = .lt) :
    Reached vs name b [next vs b (some name)] (next vs b (some name)) := by
  have hnext : next vs b (some name) = prereleaseOf (target vs b) name 1 := by
    refine onChannel_of_lt (target_channel vs b) fun latest hlatest => ?_
    obtain ⟨hmem, hchannel⟩ := List.mem_filter.mp (greatest?_spec hlatest).1
    exact h latest hmem (by simpa using hchannel)
  have hbase : (next vs b (some name)).base = target vs b := by
    rw [hnext]
    exact base_target vs b
  refine ⟨rfl, latest_next vs b name, hbase, ?_, fun u hu => ?_⟩
  · rw [List.countP_singleton, hbase, hnext]
    simp [prereleaseOf]
  · rw [List.mem_singleton.mp hu]
    exact ⟨next_channel, b, le_rfl, hbase⟩

/-- What the next prerelease leads to, and how it counts, carries the line on. -/
theorem reached_concat {m' : Bump} {n : ℕ} (h : Reached vs name m made v)
    (hweight : m.weight ≤ m'.weight)
    (hnext : next (vs ++ made) b (some name) = prereleaseOf (target vs m') name (n + 1))
    (hn : made.countP (fun u => u.base = target vs m') = n) :
    Reached vs name m' (made ++ [next (vs ++ made) b (some name)])
      (next (vs ++ made) b (some name)) := by
  have hbase : (next (vs ++ made) b (some name)).base = target vs m' := by
    rw [hnext]
    exact base_target vs m'
  refine ⟨by simp, ?_, hbase, ?_, fun u hu => ?_⟩
  · rw [← List.append_assoc]
    exact latest_next (vs ++ made) b name
  · rw [List.countP_append, List.countP_singleton, hbase, hn, hnext]
    simp [prereleaseOf]
  · rcases List.mem_append.mp hu with hu | hu
    · obtain ⟨hchannel, a, ha, hua⟩ := h.bases u hu
      exact ⟨hchannel, a, ha.trans hweight, hua⟩
    · rw [List.mem_singleton.mp hu]
      exact ⟨next_channel, m', le_rfl, hbase⟩

/-- One bump more: one that leads further starts a new count, any other goes on with the old one. -/
theorem reached_next (h : Reached vs name m made v) (b : Bump) :
    ∃ m', Bump.join (some m) (some b) = some m' ∧
      Reached vs name m' (made ++ [next (vs ++ made) b (some name)])
        (next (vs ++ made) b (some name)) := by
  have htarget : target (vs ++ made) b = target vs b :=
    target_append (fun u hu => by simp [(h.bases u hu).1]) b
  have hgoal := target_channel vs b
  have hnext : next (vs ++ made) b (some name) = onChannel (vs ++ made) (target vs b) name := by
    rw [next, htarget]
  have hv (goal : Version) : cmpBase v goal = cmpBase (target vs m) goal := by
    rw [← h.base]
    rfl
  by_cases hlt : cmpBase (target vs m) (target vs b) = .lt
  · have hweight : m.weight < b.weight := by
      by_contra hle
      exact cmpBase_target_of_le vs (Nat.not_lt.mp hle) hlt
    refine ⟨b, Bump.join_of_lt hweight, reached_concat (n := 0) h hweight.le ?_ ?_⟩
    · rw [hnext, onChannel_of_lt hgoal]
      · rfl
      · intro latest hlatest
        rw [Option.some.inj (hlatest.symm.trans h.latest), hv]
        exact hlt
    · -- no version of the line leads as far as the new target
      refine List.countP_eq_zero.mpr fun u hu heq => ?_
      obtain ⟨-, a, ha, hua⟩ := h.bases u hu
      have hsame : target vs a = target vs b := hua.symm.trans (by simpa using heq)
      exact cmpBase_target_of_le vs ha (hsame ▸ hlt)
  · have hcount : v.counter.getD 0 = (made.countP fun u => u.base = target vs m : ℕ) := by
      rw [h.counter]
      rfl
    have hgo : next (vs ++ made) b (some name) = prereleaseOf (target vs m) name
        ((made.countP fun u => u.base = target vs m : ℕ) + 1) := by
      rw [hnext, onChannel_of_not_lt hgoal h.latest (by rwa [hv]), h.base, hcount]
    rcases Nat.lt_or_ge m.weight b.weight with hweight | hweight
    · have hsame : target vs b = target vs m := by
        rw [target_eq, target_eq]
        cases hs : lastRelease vs none with
        | none => rfl
        | some s =>
          rw [target_of_stable hs, target_of_stable hs] at hlt
          exact absurd (cmpBase_bumped_of_lt s hweight) hlt
      refine ⟨b, Bump.join_of_lt hweight, reached_concat h hweight.le ?_ rfl⟩
      rw [hgo, hsame]
    · exact ⟨m, Bump.join_of_le hweight, reached_concat h le_rfl hgo rfl⟩

theorem reached_prereleases {bumps : List Bump} (hne : bumps ≠ [])
    (h : ∀ u ∈ vs, u.channel = some name → ∀ b, cmpBase u (target vs b) = .lt) :
    ∃ m v, Bump.greatestOf bumps = some m ∧
      Reached vs name m (prereleases vs name bumps) v := by
  induction bumps using List.reverseRecOn with
  | nil => exact absurd rfl hne
  | append_singleton bumps b ih =>
    rw [Bump.greatestOf_concat, prereleases_concat]
    rcases List.eq_nil_or_concat bumps with rfl | ⟨_, _, hbumps⟩
    · have hfirst := reached_first (b := b) fun u hu hc => h u hu hc b
      exact ⟨b, next vs b (some name), rfl, by simpa [prereleases] using hfirst⟩
    · obtain ⟨m, v, hm, hline⟩ := ih (by simp [hbumps])
      obtain ⟨m', hjoin, hnext⟩ := reached_next hline b
      exact ⟨m', _, hm ▸ hjoin, hnext⟩

end Line

/-- A version is not ahead of the greatest stable one or, where there is none, of the first one. -/
def Behind (stable : Option Version) (v : Version) : Prop :=
  match stable with
  | some s => v.base.rank.cmp s.rank ≠ .gt
  | none => v.base.rank.cmp first.rank = .lt

instance (stable : Option Version) (v : Version) : Decidable (Behind stable v) :=
  match stable with
  | some _ => inferInstanceAs (Decidable (_ ≠ _))
  | none => inferInstanceAs (Decidable (_ = _))

theorem cmpBase_target_of_behind (h : Behind (lastRelease vs none) u) (b : Bump) :
    cmpBase u (target vs b) = .lt := by
  cases hs : lastRelease vs none with
  | none =>
    rw [hs, Behind, cmp_rank_of_stable (u := u.base) rfl rfl] at h
    rw [target_of_none hs]
    exact h
  | some s =>
    rw [hs, Behind, cmp_rank_of_stable (u := u.base) rfl (lastRelease_none_spec hs).1.2] at h
    rw [target_of_stable hs]
    exact TransCmp.lt_of_isLE_of_lt (Ordering.isLE_iff_ne_gt.mpr h) (cmpBase_bumped s b)

/-- Prereleases on a channel that is not ahead of the stable versions lead to what the greatest of
their bumps leads to, and each counts those with its base. A stable release for that bump, before or
after them, is the base of the last one. -/
theorem promotion {bumps : List Bump} (hne : bumps ≠ [])
    (hbehind : ∀ u ∈ vs, u.channel = some name → Behind (lastRelease vs none) u) :
    let made := prereleases vs name bumps
    let goal (m : Bump) := (lastRelease vs none).elim first fun s => s.bumped m
    made.length = bumps.length ∧
    (∀ i v, made[i]? = some v → ∃ m, Bump.greatestOf (bumps.take (i + 1)) = some m ∧
      v.base = goal m ∧ v.channel = some name ∧
      v.counter = some (((made.take (i + 1)).countP fun u => u.base = v.base : ℕ) : ℤ)) ∧
    ∃ m last, Bump.greatestOf bumps = some m ∧ made.getLast? = some last ∧
      next vs m none = last.base ∧ next (vs ++ made) m none = last.base := by
  intro made goal
  have hahead : ∀ u ∈ vs, u.channel = some name → ∀ b, cmpBase u (target vs b) = .lt :=
    fun u hu hc b => cmpBase_target_of_behind (hbehind u hu hc) b
  refine ⟨length_prereleases vs name bumps, fun i v hv => ?_, ?_⟩
  · have hi : i < bumps.length := by
      rw [← length_prereleases vs name bumps]
      exact (List.getElem?_eq_some_iff.mp hv).1
    have htake : made.take (i + 1) = prereleases vs name (bumps.take (i + 1)) :=
      take_prereleases vs name bumps (i + 1)
    have hfirst : bumps.take (i + 1) ≠ [] := by
      rw [← List.length_pos_iff, List.length_take]
      omega
    obtain ⟨m, last, hm, hline⟩ := reached_prereleases hfirst hahead
    have hlast : last = v := by
      have hget := hline.last
      rw [← htake, List.getLast?_take, if_neg (by omega), Nat.add_sub_cancel, hv] at hget
      exact (Option.some.inj hget).symm
    subst hlast
    rw [htake, hline.base]
    exact ⟨m, hm, target_eq vs m, (hline.bases last (List.mem_of_getLast? hline.last)).1,
      hline.counter⟩
  · obtain ⟨m, last, hm, hline⟩ := reached_prereleases hne hahead
    refine ⟨m, last, hm, hline.last, hline.base.symm, ?_⟩
    rw [next, target_append fun u hu => by simp [(hline.bases u hu).1]]
    exact hline.base.symm

theorem promotion_of_patches_and_minor :
    let vs : List Version := [⟨1, 2, 0, none, none⟩, ⟨1, 2, 0, some "next", some 3⟩]
    let bumps : List Bump := [.patch, .patch, .minor, .patch]
    let made := prereleases vs "next" bumps
    made = [⟨1, 2, 1, some "next", some 1⟩, ⟨1, 2, 1, some "next", some 2⟩,
      ⟨1, 3, 0, some "next", some 1⟩, ⟨1, 3, 0, some "next", some 2⟩] ∧
    (∀ u ∈ vs, u.channel = some "next" → Behind (lastRelease vs none) u) ∧
    ∃ m last, Bump.greatestOf bumps = some m ∧ made.getLast? = some last ∧
      next vs m none = last.base ∧ next (vs ++ made) m none = last.base := by
  intro vs bumps made
  have hbumps : bumps ≠ [] := by decide
  have hbehind : ∀ u ∈ vs, u.channel = some "next" → Behind (lastRelease vs none) u := by decide
  exact ⟨by decide, hbehind, (promotion hbumps hbehind).2.2⟩

end Version

end ReleasePipeline
