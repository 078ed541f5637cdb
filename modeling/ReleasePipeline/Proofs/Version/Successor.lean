import ReleasePipeline.Proofs.Version.Promotion

/-! Which version comes next, told without a search: by the greatest stable version, the greatest base
on the channel and the greatest counter on that base. Only the stable versions and those of the channel
matter, and neither their order nor their number. -/
namespace ReleasePipeline.Version

open Std

variable {vs us : List Version} {u v w goal : Version} {b : Bump} {kind : BumpKind} {name : String}
  {channel : Option String} {P Q : Version → Prop} {n k : ℤ}

/-- A version in `P` after which no other one in `P` comes. -/
structure Greatest (P : Version → Prop) (v : Version) : Prop where
  mem : P v
  not_gt : ∀ u, P u → u.rank.cmp v.rank ≠ .gt

/-- What a bump leads to: the first version, or the greatest stable version bumped. -/
inductive LeadsTo (vs : List Version) (b : Bump) : Version → Prop
  | first (h : ∀ v ∈ vs, v.channel ≠ none) : LeadsTo vs b ⟨1, 0, 0, none, none⟩
  | bumped {s : Version} (h : Greatest (fun v => v ∈ vs ∧ v.channel = none) s) :
    LeadsTo vs b (s.bumped b)

/-- The bases that a version on a channel can get: the goal, and those of the versions there. -/
def Candidate (vs : List Version) (name : String) (goal u : Version) : Prop :=
  u = goal ∨ ∃ v ∈ vs, v.channel = some name ∧ u = v.base

/-- The count after the greatest one on a base of a channel. An absent counter counts as zero. -/
inductive CountsOn (vs : List Version) (name : String) (base : Version) : ℤ → Prop
  | first (h : ∀ v ∈ vs, v.channel = some name → v.base ≠ base) : CountsOn vs name base 1
  | after {v : Version} (hv : v ∈ vs) (hc : v.channel = some name) (hb : v.base = base)
    (h : ∀ u ∈ vs, u.channel = some name → u.base = base → u.counter.getD 0 ≤ v.counter.getD 0) :
    CountsOn vs name base (v.counter.getD 0 + 1)

/-- The version that comes next, stable or on a channel. -/
inductive Successor (vs : List Version) (b : Bump) : Option String → Version → Prop
  | stable {goal : Version} (h : LeadsTo vs b goal) : Successor vs b none goal
  | prerelease {goal base : Version} {name : String} {n : ℤ} (hgoal : LeadsTo vs b goal)
    (hbase : Greatest (Candidate vs name goal) base) (hn : CountsOn vs name base n) :
    Successor vs b (some name) (prereleaseOf base name n)

/-- The lists have the same stable versions and the same versions on the channel. -/
def SameReleases (channel : Option String) (vs us : List Version) : Prop :=
  ∀ v, v.channel = none ∨ v.channel = channel → (v ∈ vs ↔ v ∈ us)

theorem base_eq_of_cmpBase (h : cmpBase u v = .eq) : u.base = v.base := by
  simp only [cmpBase, Ordering.then_eq_eq, LawfulEqCmp.compare_eq_iff_eq] at h
  obtain ⟨hmajor, hminor, hpatch⟩ := h
  rw [base, base, hmajor, hminor, hpatch]

theorem bumped_base (v : Version) (b : Bump) : v.base.bumped b = v.bumped b := by cases b <;> rfl

theorem cmpBase_ne_gt (h : u.rank.cmp v.rank ≠ .gt) : cmpBase u v ≠ .gt := by
  intro hgt
  rw [cmp_rank, hgt] at h
  exact h rfl

theorem cmpBase_eq_of_base_eq (h : u.base = v.base) : cmpBase u v = .eq := by
  rw [← cmpBase_self v]
  change cmpBase u.base v.base = cmpBase v.base v.base
  rw [h]

namespace Greatest

/-- Two greatest versions have one base. -/
theorem base_eq (hu : Greatest P u) (hv : Greatest P v) : u.base = v.base := by
  have huv := cmpBase_ne_gt (hv.not_gt u hu.mem)
  have hvu := cmpBase_ne_gt (hu.not_gt v hv.mem)
  cases h : cmpBase u v with
  | lt => exact absurd (OrientedCmp.gt_of_lt h) hvu
  | eq => exact base_eq_of_cmpBase h
  | gt => exact absurd h huv

theorem congr (h : ∀ u, P u ↔ Q u) (hv : Greatest P v) : Greatest Q v :=
  ⟨(h v).mp hv.mem, fun u hu => hv.not_gt u ((h u).mpr hu)⟩

end Greatest

theorem greatest_of_greatest? {p : Version → Bool} (hp : ∀ u, p u = true ↔ P u)
    (h : greatest? (vs.filter p) = some v) : Greatest (fun u => u ∈ vs ∧ P u) v := by
  obtain ⟨hv, hall⟩ := greatest?_spec h
  obtain ⟨hv, hpv⟩ := List.mem_filter.mp hv
  exact ⟨⟨hv, (hp v).mp hpv⟩, fun u hu => hall u (List.mem_filter.mpr ⟨hu.1, (hp u).mpr hu.2⟩)⟩

theorem not_mem_of_greatest? {p : Version → Bool} (hp : ∀ u, p u = true ↔ P u)
    (h : greatest? (vs.filter p) = none) (hu : u ∈ vs) : ¬ P u := by
  intro hP
  exact List.filter_eq_nil_iff.mp (greatest?_eq_none_iff.mp h) u hu ((hp u).mpr hP)

section LastRelease

theorem relevant_iff : (u.channel.isNone || (channel.isSome && u.channel = channel)) = true ↔
    u.channel = none ∨ u.channel = channel := by
  cases channel <;> simp

theorem greatest_of_lastRelease (h : lastRelease vs channel = some v) :
    Greatest (fun u => u ∈ vs ∧ (u.channel = none ∨ u.channel = channel)) v :=
  greatest_of_greatest? (fun _ => relevant_iff) h

theorem lastRelease_eq_none_iff :
    lastRelease vs channel = none ↔ ∀ v ∈ vs, ¬ (v.channel = none ∨ v.channel = channel) := by
  rw [lastRelease, greatest?_eq_none_iff, List.filter_eq_nil_iff]
  exact forall₂_congr fun v _ => not_congr relevant_iff

end LastRelease

section LeadsTo

theorem leadsTo_target (vs : List Version) (b : Bump) : LeadsTo vs b (target vs b) := by
  cases hl : lastRelease vs none with
  | none =>
    rw [target_of_none hl]
    exact .first fun v hv hs => lastRelease_eq_none_iff.mp hl v hv (Or.inl hs)
  | some s =>
    rw [target_of_stable hl]
    exact .bumped ((greatest_of_lastRelease hl).congr fun u => and_congr_right' or_self_iff)

theorem LeadsTo.unique (hv : LeadsTo vs b v) (hw : LeadsTo vs b w) : v = w := by
  cases hv with
  | first hnone =>
    cases hw with
    | first => rfl
    | bumped hs => exact absurd hs.mem.2 (hnone _ hs.mem.1)
  | bumped hs =>
    cases hw with
    | first hnone => exact absurd hs.mem.2 (hnone _ hs.mem.1)
    | bumped ht => rw [← bumped_base, hs.base_eq ht, bumped_base]

theorem LeadsTo.base_eq (h : LeadsTo vs b v) : v.base = v := by
  rw [h.unique (leadsTo_target vs b), base_target]

theorem Candidate.base_eq (hgoal : LeadsTo vs b goal) (h : Candidate vs name goal u) :
    u.base = u := by
  obtain rfl | ⟨v, -, -, rfl⟩ := h
  · exact hgoal.base_eq
  · rfl

theorem LeadsTo.congr (h : ∀ v, v.channel = none → (v ∈ vs ↔ v ∈ us)) (hv : LeadsTo vs b v) :
    LeadsTo us b v := by
  cases hv with
  | first hnone => exact .first fun u hu hs => hnone u ((h u hs).mpr hu) hs
  | bumped hs =>
    exact .bumped (hs.congr fun u => and_congr_left fun hu => h u hu)

end LeadsTo

section CountsOn

variable {base : Version}

theorem CountsOn.unique (hn : CountsOn vs name base n) (hk : CountsOn vs name base k) : n = k := by
  cases hn with
  | first hnone =>
    cases hk with
    | first => rfl
    | after hv hc hb => exact absurd hb (hnone _ hv hc)
  | after hv hc hb hle =>
    cases hk with
    | first hnone => exact absurd hb (hnone _ hv hc)
    | after hv' hc' hb' hle' => rw [Int.le_antisymm (hle' _ hv hc hb) (hle _ hv' hc' hb')]

theorem CountsOn.congr (h : ∀ v, v.channel = some name → (v ∈ vs ↔ v ∈ us))
    (hn : CountsOn vs name base n) : CountsOn us name base n := by
  cases hn with
  | first hnone => exact .first fun u hu hc => hnone u ((h u hc).mpr hu) hc
  | after hv hc hb hle =>
    exact .after ((h _ hc).mp hv) hc hb fun u hu hc => hle u ((h u hc).mpr hu) hc

/-- On one base and one channel the greater version has the greater counter. -/
theorem counter_le_of_not_gt (hu : u.channel = some name) (hv : v.channel = some name)
    (hbase : u.base = v.base) (h : u.rank.cmp v.rank ≠ .gt) :
    u.counter.getD 0 ≤ v.counter.getD 0 := by
  rw [cmp_rank, cmpBase_eq_of_base_eq hbase] at h
  simpa [cmpWithin, rank, hu, hv, Int.compare_eq_gt] using h

end CountsOn

section Channel

/-- The bases are ordered like the versions that stand on them. -/
theorem base_not_gt (h : u.rank.cmp v.rank ≠ .gt) : u.base.rank.cmp v.base.rank ≠ .gt := by
  have hbase : cmpBase u.base v.base ≠ .gt := cmpBase_ne_gt (u := u) (v := v) h
  rwa [cmp_rank_of_stable rfl rfl]

theorem not_gt_self (v : Version) : v.rank.cmp v.rank ≠ .gt := by
  have heq : v.rank.cmp v.rank = .eq := ReflCmp.compare_self
  rw [heq]
  decide

variable {latest : Version}

/-- The channel leads as far as the goal or further, so its count goes on. -/
theorem successor_of_latest (hgoal : LeadsTo vs b goal) (hstable : goal.channel = none)
    (hlatest : Greatest (fun v => v ∈ vs ∧ v.channel = some name) latest)
    (hge : cmpBase latest goal ≠ .lt) :
    Successor vs b (some name) (prereleaseOf latest.base name (latest.counter.getD 0 + 1)) := by
  obtain ⟨hmem, hc⟩ := hlatest.mem
  refine .prerelease hgoal ⟨Or.inr ⟨latest, hmem, hc, rfl⟩, ?_⟩ (.after hmem hc rfl ?_)
  · rintro u (rfl | ⟨v, hv, hvc, rfl⟩)
    · rw [cmp_rank_of_stable hstable rfl]
      exact fun hgt => hge (OrientedCmp.lt_of_gt hgt)
    · exact base_not_gt (hlatest.not_gt v ⟨hv, hvc⟩)
  · intro u hu huc hub
    exact counter_le_of_not_gt huc hc hub (hlatest.not_gt u ⟨hu, huc⟩)

/-- No version of the channel leads as far as the goal, so a new count begins. -/
theorem successor_of_behind (hgoal : LeadsTo vs b goal) (hstable : goal.channel = none)
    (h : ∀ v ∈ vs, v.channel = some name → cmpBase v goal = .lt) :
    Successor vs b (some name) (prereleaseOf goal name 1) := by
  refine .prerelease hgoal ⟨Or.inl rfl, ?_⟩ (.first fun v hv hc hb => ?_)
  · rintro u (rfl | ⟨v, hv, hc, rfl⟩)
    · exact not_gt_self u
    · have hlt : cmpBase v.base goal = .lt := h v hv hc
      rw [cmp_rank_of_stable rfl hstable, hlt]
      decide
  · have hself : cmpBase v goal = .eq := hb ▸ cmpBase_self v.base
    rw [h v hv hc] at hself
    cases hself

theorem successor_onChannel (hgoal : LeadsTo vs b goal) (hstable : goal.channel = none) :
    Successor vs b (some name) (onChannel vs goal name) := by
  have hp : ∀ u : Version, decide (u.channel = some name) = true ↔ u.channel = some name := by simp
  cases hl : greatest? (vs.filter fun u => u.channel = some name) with
  | none =>
    rw [onChannel_of_lt hstable fun latest h => by rw [hl] at h; cases h]
    exact successor_of_behind hgoal hstable fun v hv hc => absurd hc (not_mem_of_greatest? hp hl hv)
  | some latest =>
    have hlatest := greatest_of_greatest? hp hl
    by_cases hlt : cmpBase latest goal = .lt
    · rw [onChannel_of_lt hstable fun u hu => by rw [hl] at hu; cases hu; exact hlt]
      refine successor_of_behind hgoal hstable fun v hv hc => ?_
      exact TransCmp.lt_of_isLE_of_lt
        (Ordering.isLE_iff_ne_gt.mpr (cmpBase_ne_gt (hlatest.not_gt v ⟨hv, hc⟩))) hlt
    · rw [onChannel_of_not_lt hstable hl hlt]
      exact successor_of_latest hgoal hstable hlatest hlt

end Channel

theorem successor_next (vs : List Version) (b : Bump) (channel : Option String) :
    Successor vs b channel (next vs b channel) := by
  cases channel with
  | none => exact .stable (leadsTo_target vs b)
  | some name => exact successor_onChannel (leadsTo_target vs b) (target_channel vs b)

theorem Successor.unique (hv : Successor vs b channel v) (hw : Successor vs b channel w) :
    v = w := by
  cases hv with
  | stable hv =>
    cases hw with
    | stable hw => exact hv.unique hw
  | prerelease hgoal hbase hn =>
    cases hw with
    | prerelease hgoal' hbase' hn' =>
      obtain rfl := hgoal.unique hgoal'
      have hbases := hbase.base_eq hbase'
      rw [hbase.mem.base_eq hgoal, hbase'.mem.base_eq hgoal] at hbases
      subst hbases
      rw [hn.unique hn']

/-- What comes next follows from the stable versions and those of the channel. -/
theorem Successor.congr (h : SameReleases channel vs us) (hv : Successor vs b channel v) :
    Successor us b channel v := by
  cases hv with
  | stable hgoal => exact .stable (hgoal.congr fun v hs => h v (Or.inl hs))
  | prerelease hgoal hbase hn =>
    refine .prerelease (hgoal.congr fun v hs => h v (Or.inl hs)) (hbase.congr fun u => ?_)
      (hn.congr fun v hc => h v (Or.inr hc))
    refine or_congr_right (exists_congr fun v => ?_)
    exact and_congr_left fun hc => h v (Or.inr hc.1)

theorem next_congr (h : SameReleases channel vs us) :
    next vs b channel = next us b channel :=
  ((successor_next vs b channel).congr h).unique (successor_next us b channel)

theorem nextFor_congr (h : SameReleases channel vs us) :
    nextFor vs kind channel = nextFor us kind channel := by
  cases kind with
  | known b => exact congrArg Except.ok (next_congr h)
  | unknown k =>
    have hnone : lastRelease vs none = none ↔ lastRelease us none = none := by
      rw [lastRelease_eq_none_iff, lastRelease_eq_none_iff]
      refine forall_congr' fun v => ⟨fun hv hu hs => ?_, fun hv hu hs => ?_⟩
      · exact hv ((h v (Or.inl (or_self_iff.mp hs))).mpr hu) hs
      · exact hv ((h v (Or.inl (or_self_iff.mp hs))).mp hu) hs
    cases hvs : lastRelease vs none with
    | none => simp only [nextFor, hvs, hnone.mp hvs, next_congr h]
    | some s =>
      cases hus : lastRelease us none with
      | none => rw [hnone.mpr hus] at hvs; cases hvs
      | some t => simp only [nextFor, hvs, hus]

/-- Versions that texts name are told apart by their ranks. -/
theorem eq_of_cmp_rank (hu : u.Legible) (hv : v.Legible) (h : u.rank.cmp v.rank = .eq) : u = v := by
  simp only [Rank.cmp, Ordering.then_eq_eq, LawfulEqCmp.compare_eq_iff_eq] at h
  cases hu <;> cases hv <;> simp_all [rank]

/-- The last release among versions that texts name follows from the stable ones and those of the
channel. -/
theorem lastRelease_congr (hvs : ∀ v ∈ vs, v.Legible) (h : SameReleases channel vs us) :
    lastRelease us channel = lastRelease vs channel := by
  cases hlast : lastRelease vs channel with
  | none =>
    rw [lastRelease_eq_none_iff] at hlast ⊢
    exact fun u hu hc => hlast u ((h u hc).mpr hu) hc
  | some v =>
    obtain ⟨⟨hv, hc⟩, hgreatest⟩ := greatest_of_lastRelease hlast
    refine lastRelease_of_below ((h v hc).mp hv) hc fun u hu huc => ?_
    have hmem := (h u huc).mpr hu
    have hle := hgreatest u ⟨hmem, huc⟩
    cases hcmp : u.rank.cmp v.rank with
    | lt => exact Or.inr hcmp
    | eq => exact Or.inl (eq_of_cmp_rank (hvs u hmem) (hvs v hv) hcmp)
    | gt => exact absurd hcmp hle

/-- The next version is the one that follows the greatest stable version, the greatest base and the
greatest count on its channel. It comes after every stable version and every version of the channel,
is none of the versions, and stays the same where they are listed otherwise. -/
theorem next_is_successor (vs : List Version) (b : Bump) (channel : Option String) :
    ∃ w, nextFor vs (.known b) channel = .ok w ∧ (∀ v, Successor vs b channel v ↔ v = w) ∧
      (∀ v ∈ vs, v.channel = none ∨ v.channel = channel → v.rank.cmp w.rank = .lt) ∧ w ∉ vs ∧
      ∀ us : List Version, (∀ v, v ∈ us ↔ v ∈ vs) → nextFor us (.known b) channel = .ok w := by
  have hnext := successor_next vs b channel
  have hbelow : ∀ v ∈ vs, v.channel = none ∨ v.channel = channel →
      v.Below (next vs b channel) := fun v hv hc => below_next hv hc
  refine ⟨next vs b channel, rfl, fun v => ⟨fun hv => hv.unique hnext, ?_⟩, hbelow, ?_, ?_⟩
  · rintro rfl
    exact hnext
  · intro hmem
    exact not_below_self (hbelow _ hmem (Or.inr next_channel))
  · intro us hus
    exact nextFor_congr fun v _ => hus v

end ReleasePipeline.Version
