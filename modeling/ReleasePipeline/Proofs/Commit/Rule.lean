import Mathlib.Data.List.Induction
import Mathlib.Data.List.Forall2
import ReleasePipeline.Commit.Rule
import ReleasePipeline.Proofs.Except
import ReleasePipeline.Proofs.Value.Basic

/-! Release rules: which rule decides on a commit, and the highest of the decisions. -/
namespace ReleasePipeline

namespace Bump

variable {a b : Option Bump} {bs bs' : List (Option Bump)}

/-- The place in the order none < patch < minor < major. -/
def level : Option Bump → Nat
  | none => 0
  | some .patch => 1
  | some .minor => 2
  | some .major => 3

/-- The one of higher level. -/
def higher (a b : Option Bump) : Option Bump := if level a < level b then b else a

/-- No bump of the list is above `b`, which is one of them, or none for the empty list. -/
structure Highest (bs : List (Option Bump)) (b : Option Bump) : Prop where
  mem : b ∈ bs ∨ bs = [] ∧ b = none
  le : ∀ a ∈ bs, level a ≤ level b

theorem level_injective (h : level a = level b) : a = b := by
  rcases a with _ | _ | _ | _ <;> rcases b with _ | _ | _ | _ <;> first | rfl | cases h

theorem level_higher (a b : Option Bump) : level (higher a b) = max (level a) (level b) := by
  rw [higher]
  split <;> omega

theorem higher_assoc (a b c : Option Bump) : higher (higher a b) c = higher a (higher b c) :=
  level_injective (by simp only [level_higher, Nat.max_assoc])

theorem join_eq_higher (a b : Option Bump) : join a b = higher a b := by
  rcases a with _ | _ | _ | _ <;> rcases b with _ | _ | _ | _ <;> rfl

theorem greatest_concat (bs : List (Option Bump)) (b : Option Bump) :
    greatest (bs ++ [b]) = higher (greatest bs) b := by
  rw [greatest, List.foldl_concat, join_eq_higher, greatest]

theorem greatest_append (bs bs' : List (Option Bump)) :
    greatest (bs ++ bs') = higher (greatest bs) (greatest bs') := by
  induction bs' using List.reverseRecOn with
  | nil =>
    rw [List.append_nil, higher, if_neg]
    exact Nat.not_lt_zero _
  | append_singleton bs' b ih =>
    rw [← List.append_assoc, greatest_concat, ih, higher_assoc, greatest_concat]

theorem Highest.unique (ha : Highest bs a) (hb : Highest bs b) : a = b := by
  rcases ha.mem with hmem | ⟨rfl, rfl⟩
  · rcases hb.mem with hmem' | ⟨rfl, -⟩
    · exact level_injective (Nat.le_antisymm (hb.le a hmem) (ha.le b hmem'))
    · cases hmem
  · rcases hb.mem with hmem' | ⟨-, rfl⟩
    · cases hmem'
    · rfl

theorem Highest.perm (h : Highest bs b) (hperm : bs.Perm bs') : Highest bs' b where
  mem := by
    rcases h.mem with hmem | ⟨rfl, hnone⟩
    · exact .inl (hperm.mem_iff.mp hmem)
    · exact .inr ⟨hperm.nil_eq.symm, hnone⟩
  le a ha := h.le a (hperm.mem_iff.mpr ha)

theorem highest_greatest (bs : List (Option Bump)) : Highest bs (greatest bs) := by
  induction bs using List.reverseRecOn with
  | nil => exact ⟨.inr ⟨rfl, rfl⟩, nofun⟩
  | append_singleton bs b ih =>
    have hlevel := level_higher (greatest bs) b
    rw [greatest_concat]
    refine ⟨.inl ?_, ?_⟩
    · rw [higher, List.mem_append, List.mem_singleton]
      split
      · exact .inr rfl
      · rename_i hle
        rcases ih.mem with hmem | ⟨-, hnone⟩
        · exact .inl hmem
        · -- Above none there is every bump but none itself.
          rw [hnone] at hle ⊢
          exact .inr (level_injective (by rw [level] at hle ⊢; omega))
    · intro a ha
      rcases List.mem_append.mp ha with ha | ha
      · have hle := ih.le a ha
        omega
      · rw [List.mem_singleton.mp ha]
        omega

theorem greatest_perm (h : bs.Perm bs') : greatest bs = greatest bs' :=
  ((highest_greatest bs).perm h).unique (highest_greatest bs')

/-- Bumps that are none do not count. -/
theorem greatest_filterMap (bs : List (Option Bump)) :
    greatest ((bs.filterMap id).map some) = greatest bs := by
  induction bs using List.reverseRecOn with
  | nil => rfl
  | append_singleton bs b ih =>
    rw [List.filterMap_append, List.map_append, greatest_append, greatest_append, ih]
    cases b <;> rfl

theorem ofName?_name (b : Bump) : ofName? b.name = some b := by
  cases b <;> rfl

theorem ofName?_eq_some_iff {s : String} {b : Bump} : ofName? s = some b ↔ s = b.name := by
  constructor
  · intro h
    have hname : decide (b.name = s) = true := by
      rw [ofName?] at h
      exact List.find?_some (p := fun b : Bump => decide (b.name = s)) h
    exact (of_decide_eq_true hname).symm
  · rintro rfl
    exact ofName?_name b

end Bump

theorem BumpKind.ofValue_name (b : Bump) : ofValue (.string b.name) = known b := by
  cases b <;> rfl

/-- Among bumps that are known the greatest kind is found without an error. -/
theorem BumpKind.greatest_known (bs : List (Option Bump)) :
    BumpKind.greatest (bs.map fun b => b.map known) = .ok ((Bump.greatest bs).map known) := by
  have hkinds : (bs.map fun b => b.map known).filterMap id = (bs.filterMap id).map known := by
    rw [List.filterMap_map, List.map_filterMap]
    rfl
  rw [← Bump.greatest_filterMap, BumpKind.greatest, hkinds]
  rcases bs.filterMap id with _ | ⟨a, _ | ⟨b, rest⟩⟩
  · rfl
  · rfl
  · have hknown : ((a :: b :: rest).map known).find? (fun k => k.bump?.isNone) = none := by
      rw [List.find?_eq_none]
      intro k hk
      obtain ⟨b, -, rfl⟩ := List.mem_map.mp hk
      exact Bool.false_ne_true
    have hbumps : ((a :: b :: rest).map known).map bump? = (a :: b :: rest).map some := by
      rw [List.map_map]
      rfl
    simp only [List.map_cons] at hknown hbumps ⊢
    rw [hknown, hbumps]

namespace Rule

variable {v w : Value} {t : Table} {ts : List Table} {c : Commit}

/-- The conditions that the table has on type, scope and breaking hold of the commit. The scope `*`
asks for any scope, and a truth value equals the number that it stands for. -/
structure Holds (t : Table) (c : Commit) : Prop where
  type : ∀ v, t.get? "type" = some v → v.bare = textValue c.type
  anyScope : t.get? "scope" = some (.string "*") → c.scope ≠ none
  scope : ∀ v, t.get? "scope" = some v → v ≠ .string "*" → v.bare = textValue c.scope
  breaking : ∀ v, t.get? "breaking" = some v → v.bare.numeric = .int c.breaking.toNat

/-- The release of the table is the name of the bump, or `false` for none. -/
def Releases (t : Table) (b : Option Bump) : Prop :=
  t.get? "release" = some (b.elim (.bool false) fun b => .string b.name)

theorem numeric_eq_iff (h : w = .null ∨ ∃ s, w = .string s) : v.numeric = w ↔ v = w := by
  cases v with
  | float x =>
    rw [Value.numeric]
    rcases h with rfl | ⟨s, rfl⟩ <;> cases Value.integerOf? x <;> simp
  | bool b => rcases h with rfl | ⟨s, rfl⟩ <;> simp [Value.numeric]
  | _ => rfl

theorem sameKey_textValue_iff {s : Option String} :
    v.sameKey (textValue s) = true ↔ v.bare = textValue s := by
  have hnumeric : v.bare.numeric = textValue s ↔ v.bare = textValue s :=
    numeric_eq_iff (by cases s with
      | none => exact .inl rfl
      | some s => exact .inr ⟨s, rfl⟩)
  rw [← hnumeric, Value.sameKey]
  cases s <;> split <;> simp_all [textValue, Value.bare, Value.numeric]

theorem sameKey_bool_iff {b : Bool} :
    v.sameKey (.bool b) = true ↔ v.bare.numeric = .int b.toNat := by
  rw [Value.sameKey]
  split <;> simp_all [Value.bare, Value.numeric]

theorem holds_iff {condition : Option Value} {actual : Value} :
    holds condition actual = true ↔ ∀ v, condition = some v → v.sameKey actual = true := by
  cases condition with
  | none => simp [holds]
  | some w => simp [holds]

theorem holdsScope_iff {condition : Option Value} {scope : Option String} :
    holdsScope condition scope = true ↔ (condition = some (.string "*") → scope ≠ none) ∧
      ∀ v, condition = some v → v ≠ .string "*" → v.bare = textValue scope := by
  have hstar : condition.bind Value.asString? = some "*" ↔ condition = some (.string "*") := by
    simp only [Option.bind_eq_some_iff, asString?_eq_some_iff, exists_eq_right]
  rw [holdsScope]
  split
  · rename_i h
    obtain rfl := hstar.mp h
    simp [Option.isSome_iff_ne_none]
  · rename_i h
    have hother : condition ≠ some (.string "*") := fun heq => h (hstar.mpr heq)
    simp only [holds_iff, sameKey_textValue_iff, hother, false_implies, true_and]
    constructor
    · exact fun hall v hv _ => hall v hv
    · rintro hall v hv
      exact hall v hv fun heq => hother (heq ▸ hv)

theorem applies_ofTable_iff : (ofTable t).applies c = true ↔ Holds t c := by
  simp only [applies, Bool.and_eq_true, holds_iff, holdsScope_iff, sameKey_textValue_iff,
    sameKey_bool_iff, ofTable]
  constructor
  · rintro ⟨⟨htype, hany, hscope⟩, hbreaking⟩
    exact ⟨htype, hany, hscope, hbreaking⟩
  · rintro ⟨htype, hany, hscope, hbreaking⟩
    exact ⟨⟨htype, hany, hscope⟩, hbreaking⟩

theorem isRelease_iff : isRelease v = true ↔ v = .bool false ∨ ∃ b : Bump, v = .string b.name := by
  cases v with
  | bool b => cases b <;> simp [isRelease]
  | string s =>
    simp only [isRelease, Value.asString?, Option.bind_some, Option.isSome_iff_exists,
      Bump.ofName?_eq_some_iff, reduceCtorEq, false_or, Value.string.injEq]
  | _ => simp [isRelease, Value.asString?]

theorem releases_of_isRelease (h : isRelease (t.getD "release") = true) :
    ∃ b, Releases t b ∧ kind t = b.map .known ∧ (ofTable t).release = b := by
  rcases isRelease_iff.mp h with hvalue | ⟨b, hvalue⟩
  · refine ⟨none, Table.get?_of_getD hvalue nofun, ?_, ?_⟩
    · rw [kind, hvalue]
      rfl
    · rw [ofTable, hvalue]
      rfl
  · refine ⟨some b, Table.get?_of_getD hvalue nofun, ?_, ?_⟩
    · rw [kind, hvalue]
      exact congrArg some (BumpKind.ofValue_name b)
    · rw [ofTable, hvalue]
      exact Bump.ofName?_name b

theorem applies_ofTable_eq_false_iff : (ofTable t).applies c = false ↔ ¬ Holds t c := by
  rw [← applies_ofTable_iff, Bool.not_eq_true]

/-- The table of an accepted rule has a release that is a bump or `false`. -/
theorem releases_of_tables (h : tables v = .ok ts) (ht : t ∈ ts) :
    ∃ b, Releases t b ∧ kind t = b.map .known ∧ (ofTable t).release = b := by
  rw [tables] at h
  split at h
  · cases h
    cases ht
  · split at h
    · cases h
    · split at h
      · cases h
      · rename_i hnone
        cases h
        have hvalid := List.findIdx?_eq_none_iff.mp hnone t ht
        exact releases_of_isRelease (by simpa using hvalid)

theorem Releases.unique {a b : Option Bump} (ha : Releases t a) (hb : Releases t b) : a = b := by
  have heq := Option.some.inj (ha.symm.trans hb)
  rcases a with _ | _ | _ | _ <;> rcases b with _ | _ | _ | _ <;>
    first | rfl | (simp [Bump.name] at heq)

end Rule

namespace Commit

variable {v : Value} {t : Table} {ts : List Table} {c : Commit} {a b : Option Bump}

/-- The bump of a commit on which no rule decides. -/
inductive Defaults (c : Commit) : Option Bump → Prop
  | major (breaks : c.breaking = true) : Defaults c (some .major)
  | minor (breaks : c.breaking = false) (type : c.type = some "feat" ∨ c.type = some "feature") :
      Defaults c (some .minor)
  | patch (breaks : c.breaking = false) (type : c.type = some "fix" ∨ c.type = some "perf") :
      Defaults c (some .patch)
  | none (breaks : c.breaking = false)
      (type : ∀ s ∈ ["feat", "feature", "fix", "perf"], c.type ≠ some s) : Defaults c none

/-- The first rule that holds of the commit decides, and the default decides if none holds. -/
inductive Decides (ts : List Table) (c : Commit) : Option Bump → Prop
  | rule {before after : List Table} {t : Table} {b : Option Bump}
      (split : ts = before ++ t :: after) (first : ∀ u ∈ before, ¬ Rule.Holds u c)
      (holds : Rule.Holds t c) (releases : Rule.Releases t b) : Decides ts c b
  | default {b : Option Bump} (unheld : ∀ t ∈ ts, ¬ Rule.Holds t c) (defaults : Defaults c b) :
      Decides ts c b

theorem defaults_iff : Defaults c b ↔ b = c.defaultBump := by
  constructor
  · rintro (hbreaks | ⟨hbreaks, htype | htype⟩ | ⟨hbreaks, htype | htype⟩ | ⟨hbreaks, htype⟩)
    · simp [defaultBump, hbreaks]
    · simp [defaultBump, hbreaks, htype]
    · simp [defaultBump, hbreaks, htype]
    · simp [defaultBump, hbreaks, htype]
    · simp [defaultBump, hbreaks, htype]
    · rw [defaultBump, hbreaks]
      split <;> simp_all
  · rintro rfl
    rw [defaultBump]
    split
    · exact .major ‹_›
    · rename_i hbreaks
      have hbreaks : c.breaking = false := by simpa using hbreaks
      split
      · exact .minor hbreaks (.inl ‹_›)
      · exact .minor hbreaks (.inr ‹_›)
      · exact .patch hbreaks (.inl ‹_›)
      · exact .patch hbreaks (.inr ‹_›)
      · exact .none hbreaks (by simp_all)

theorem find?_ofTable (ts : List Table) (c : Commit) :
    (ts.map Rule.ofTable).find? (fun r => r.applies c) =
      (ts.find? fun t => (Rule.ofTable t).applies c).map Rule.ofTable := by
  rw [List.find?_map]
  rfl

/-- Accepted rules name known bumps only. -/
theorem kind_of_tables (h : Rule.tables v = .ok ts) (c : Commit) :
    kind ts c = (bump (ts.map Rule.ofTable) c).map .known := by
  rw [kind, bump, find?_ofTable]
  cases hfind : ts.find? fun t => (Rule.ofTable t).applies c with
  | none => rfl
  | some t =>
    obtain ⟨b, -, hkind, hrelease⟩ := Rule.releases_of_tables h (List.mem_of_find?_eq_some hfind)
    exact hkind.trans (congrArg _ hrelease.symm)

theorem decides_iff (h : Rule.tables v = .ok ts) :
    Decides ts c b ↔ b = bump (ts.map Rule.ofTable) c := by
  rw [bump, find?_ofTable]
  constructor
  · rintro (⟨hsplit, hfirst, hholds, hreleases⟩ | ⟨hnone, hdefaults⟩)
    · rename_i before after t
      have hfind : ts.find? (fun t => (Rule.ofTable t).applies c) = some t := by
        refine List.find?_eq_some_iff_append.mpr ⟨Rule.applies_ofTable_iff.mpr hholds, before, after,
          hsplit, fun u hu => ?_⟩
        rw [Rule.applies_ofTable_eq_false_iff.mpr (hfirst u hu)]
        rfl
      obtain ⟨b', hreleases', -, hrelease⟩ :=
        Rule.releases_of_tables h (List.mem_of_find?_eq_some hfind)
      rw [hfind]
      exact (hreleases.unique hreleases').trans hrelease.symm
    · have hfind : ts.find? (fun t => (Rule.ofTable t).applies c) = none := by
        simpa [List.find?_eq_none, Rule.applies_ofTable_iff] using hnone
      rw [hfind, Option.map_none]
      exact defaults_iff.mp hdefaults
  · rintro rfl
    cases hfind : ts.find? fun t => (Rule.ofTable t).applies c with
    | none =>
      refine .default (fun t ht => ?_) (defaults_iff.mpr rfl)
      simpa [Rule.applies_ofTable_iff] using List.find?_eq_none.mp hfind t ht
    | some t =>
      obtain ⟨hholds, before, after, hsplit, hfirst⟩ := List.find?_eq_some_iff_append.mp hfind
      obtain ⟨b, hreleases, -, rfl⟩ :=
        Rule.releases_of_tables h (List.mem_of_find?_eq_some hfind)
      refine .rule hsplit (fun u hu => ?_) (Rule.applies_ofTable_iff.mp hholds) hreleases
      exact Rule.applies_ofTable_eq_false_iff.mp (by simpa using hfirst u hu)

/-- Under accepted rules the release of some commits is found without an error. It is the highest of
what is decided for each of them, in whatever order they come, and the release of two lists is the
higher of theirs. -/
theorem releaseKind_of_tables (h : Rule.tables v = .ok ts) :
    let release := releaseBump (ts.map Rule.ofTable)
    (∀ cs, releaseKind ts cs = .ok ((release cs).map .known)) ∧
    (∀ xs ys, release (xs ++ ys) = Bump.higher (release xs) (release ys)) ∧
    (∀ xs ys, xs.Perm ys → release xs = release ys) ∧
    (∀ c, ∃! b, Decides ts c b) ∧
    (∀ cs, ∃ bs, List.Forall₂ (Decides ts) cs bs ∧ Bump.Highest bs (release cs)) := by
  intro release
  refine ⟨fun cs => ?_, fun xs ys => ?_, fun xs ys hperm => ?_, fun c => ?_, fun cs => ?_⟩
  · have hkinds : kind ts = fun c => (bump (ts.map Rule.ofTable) c).map .known :=
      funext (kind_of_tables h)
    have hgreatest := BumpKind.greatest_known (cs.map (bump (ts.map Rule.ofTable)))
    rw [List.map_map] at hgreatest
    rw [releaseKind, hkinds]
    exact hgreatest
  · have happend := Bump.greatest_append (xs.map (bump (ts.map Rule.ofTable)))
      (ys.map (bump (ts.map Rule.ofTable)))
    rwa [← List.map_append] at happend
  · exact Bump.greatest_perm (hperm.map _)
  · exact ⟨_, (decides_iff h).mpr rfl, fun b hb => (decides_iff h).mp hb⟩
  · refine ⟨cs.map (bump (ts.map Rule.ofTable)), ?_, Bump.highest_greatest _⟩
    rw [List.forall₂_map_right_iff, List.forall₂_same]
    exact fun c _ => (decides_iff h).mpr rfl

/-- A feature with a scope releases nothing, a commit without a type a patch, and for the feature
without a scope the default decides. -/
theorem release_of_three_commits :
    let ts : List Table := [
      Table.ofNames [("type", .string "feat"), ("scope", .string "*"), ("release", .bool false)],
      Table.ofNames [("release", .string "patch"), ("type", .null), ("breaking", .int 0)]]
    let cs : List Commit := [
      { sha := "1", message := "feat(ui): a", type := some "feat", scope := some "ui",
        subject := "a", breaking := false, note := none },
      { sha := "2", message := "Merge b", type := none, scope := none,
        subject := "Merge b", breaking := false, note := none },
      { sha := "3", message := "feat: c", type := some "feat", scope := none,
        subject := "c", breaking := false, note := none }]
    Rule.tables (.list (ts.map .table)) = .ok ts ∧
    ∃ bs, List.Forall₂ (Decides ts) cs bs ∧ Bump.Highest bs (some .minor) := by
  intro ts cs
  have htables : Rule.tables (.list (ts.map .table)) = .ok ts := rfl
  have hrelease : releaseBump (ts.map Rule.ofTable) cs = some .minor := by decide
  refine ⟨htables, ?_⟩
  rw [← hrelease]
  exact (releaseKind_of_tables htables).2.2.2.2 cs

end Commit

end ReleasePipeline
