import Mathlib.Data.List.Nodup
import ReleasePipeline.Files.Environment
import ReleasePipeline.Proofs.Files.Directory

/-! What is found on a path: the names in a directory, names that are too long on the way, and how little
of it a single file decides. -/
namespace ReleasePipeline

section FirstOccurrences

variable {α : Type} [BEq α] [LawfulBEq α]

/-- Without their repetitions, items come in the order of their first occurrences. -/
theorem pairwise_eraseDups (xs : List α) :
    xs.eraseDups.Pairwise fun a b => xs.idxOf a < xs.idxOf b := by
  induction xs using List.reverseRecOn with
  | nil => simp
  | append_singleton xs x ih =>
    have hkept : xs.eraseDups.Pairwise fun a b => (xs ++ [x]).idxOf a < (xs ++ [x]).idxOf b := by
      refine ih.imp_of_mem fun ha hb hlt => ?_
      rwa [List.idxOf_append_of_mem (List.mem_eraseDups.mp ha),
        List.idxOf_append_of_mem (List.mem_eraseDups.mp hb)]
    rw [List.eraseDups_append]
    by_cases hx : x ∈ xs
    · have hnone : [x].removeAll xs = [] := by simp [List.removeAll, hx]
      rw [hnone, List.eraseDups_nil, List.append_nil]
      exact hkept
    · have hnew : ([x].removeAll xs).eraseDups = [x] := by
        simp [List.removeAll, hx, List.eraseDups_cons]
      rw [hnew, List.pairwise_append]
      refine ⟨hkept, by simp, fun a ha b hb => ?_⟩
      rw [List.mem_singleton.mp hb, List.idxOf_append_of_mem (List.mem_eraseDups.mp ha),
        List.idxOf_append_of_notMem hx]
      exact (List.idxOf_lt_length_iff.mpr (List.mem_eraseDups.mp ha)).trans_le (Nat.le_add_right _ _)

theorem nodup_eraseDups (xs : List α) : xs.eraseDups.Nodup :=
  (pairwise_eraseDups xs).imp fun hlt hsame => absurd hlt (by rw [hsame]; exact Nat.lt_irrefl _)

end FirstOccurrences

namespace FileTree

variable {t t' : FileTree} {here start place f : Place} {names front back : List String} {n : String}
  {p : Path} {e : Entry} {fault : FileFault}

/-- No place has two entries. -/
def Distinct (t : FileTree) : Prop := (t.entries.map (·.1)).Nodup

instance (t : FileTree) : Decidable t.Distinct :=
  inferInstanceAs (Decidable (t.entries.map (·.1)).Nodup)

theorem map_fst_replaced (place : Place) (e : Entry) (entries : List (Place × Entry)) :
    (replaced place e entries).map (·.1) = entries.map (·.1) := by
  induction entries with
  | nil => rfl
  | cons entry entries ih =>
    obtain ⟨q, old⟩ := entry
    rw [replaced_cons, List.map_cons, List.map_cons, ih]

/-- An entry replaces the one at its place. -/
theorem Distinct.insert (h : t.Distinct) (place : Place) (e : Entry) :
    (t.insert place e).Distinct := by
  rw [Distinct, FileTree.insert]
  split
  · exact (map_fst_replaced place e t.entries) ▸ h
  · rename_i hnone
    rw [Option.not_isSome_iff_eq_none, List.lookup_eq_none_iff] at hnone
    rw [List.map_append, List.nodup_append]
    refine ⟨h, List.nodup_singleton place, ?_⟩
    rintro q hq q' hq' rfl
    obtain ⟨entry, hentry, rfl⟩ := List.mem_map.mp hq
    obtain rfl : entry.1 = place := List.mem_singleton.mp hq'
    simpa using hnone entry hentry

theorem isSome_lookup_iff {entries : List (Place × Entry)} :
    (entries.lookup place).isSome ↔ place ∈ entries.map (·.1) := by
  rw [Option.isSome_iff_ne_none, ne_eq, List.lookup_eq_none_iff, List.mem_map]
  push Not
  refine exists_congr fun entry => and_congr_right fun _ => ?_
  simp [eq_comm (a := entry.1)]

theorem ite_getLast?_eq_some_iff {place q : Place} :
    (if q.dropLast = place then q.getLast? else none) = some n ↔ q = place ++ [n] := by
  constructor
  · intro h
    split at h
    · rename_i hplace
      obtain ⟨front, rfl⟩ := List.getLast?_eq_some_iff.mp h
      rw [← hplace, List.dropLast_concat]
    · cases h
  · rintro rfl
    rw [List.dropLast_concat, if_pos rfl, List.getLast?_concat]

theorem entry?_concat : t.entry? (place ++ [n]) = t.entries.lookup (place ++ [n]) := by
  unfold entry?
  exact if_neg (by simp)

/-- The names in a directory are those with an entry. -/
theorem mem_namesIn : n ∈ t.namesIn place ↔ (t.entry? (place ++ [n])).isSome := by
  rw [entry?_concat, isSome_lookup_iff, namesIn, List.mem_filterMap, List.mem_map]
  exact exists_congr fun entry => and_congr_right fun _ => ite_getLast?_eq_some_iff

theorem nodup_namesIn (h : t.Distinct) (place : Place) : (t.namesIn place).Nodup := by
  have hnames : t.namesIn place = (t.entries.map (·.1)).filterMap
      fun q => if q.dropLast = place then q.getLast? else none := by
    rw [List.filterMap_map]
    rfl
  rw [hnames]
  refine List.Nodup.filterMap (fun q q' n hn hn' => ?_) h
  rw [ite_getLast?_eq_some_iff.mp hn, ite_getLast?_eq_some_iff.mp hn']

/-- The path is too long, or a directory on the way along it would have to hold a name that is. -/
def Overlong (t : FileTree) (here : Place) (p : Path) : Prop :=
  (∀ n ∈ p.names, '\x00' ∉ n.toList) ∧ (maxPathSize < p.text.utf8ByteSize ∨
    ∃ front n back place, p.names = front ++ n :: back ∧ t.follow (p.start here) front = .ok place ∧
      t.entry? place = some .directory ∧ maxNameSize < n.utf8ByteSize)

theorem follow_eq_nameTooLong_iff : t.follow start names = .error .nameTooLong ↔
    ∃ front n back place, names = front ++ n :: back ∧ t.follow start front = .ok place ∧
      t.entry? place = some .directory ∧ maxNameSize < n.utf8ByteSize := by
  induction names generalizing start with
  | nil => simp [follow]
  | cons m names ih =>
    constructor
    · intro h
      rw [follow] at h
      cases hstart : t.entry? start with
      | none => simp [hstart] at h
      | some e =>
        cases e with
        | file content => simp [hstart] at h
        | directory =>
          simp only [hstart] at h
          split at h
          · rename_i hlong
            exact ⟨[], m, names, start, rfl, rfl, hstart, hlong⟩
          · rename_i hshort
            obtain ⟨front, n, back, place, rfl, hfollow, hlong⟩ := ih.mp h
            refine ⟨m :: front, n, back, place, rfl, ?_, hlong⟩
            rw [follow, hstart]
            simpa only [if_neg hshort] using hfollow
    · rintro ⟨front, n, back, place, hnames, hfollow, hdirectory, hlong⟩
      rw [hnames, follow_append, hfollow]
      show t.follow place (n :: back) = _
      rw [follow, hdirectory]
      exact if_pos hlong

theorem place_eq_nameTooLong_iff : t.place here p = .error .nameTooLong ↔ t.Overlong here p := by
  rw [Overlong, ← follow_eq_nameTooLong_iff]
  obtain ⟨⟨n, hn, hnull⟩, hplace⟩ | ⟨hplain, hlong, hplace⟩ | ⟨hadmissible, hplace⟩ :=
    t.place_cases here p
  · rw [hplace]
    exact iff_of_false (by rintro ⟨⟩) fun h => h.1 n hn hnull
  · rw [hplace]
    exact iff_of_true rfl ⟨hplain, .inl hlong⟩
  · rw [hplace, and_iff_right hadmissible.null,
      or_iff_right (Nat.not_lt.mpr hadmissible.size)]

theorem look_eq_nameTooLong_iff : t.look here p = .error .nameTooLong ↔ t.Overlong here p := by
  rw [look, bind_eq_error, place_eq_nameTooLong_iff, or_iff_left]
  rintro ⟨place, -, h⟩
  cases hentry : t.entry? place with
  | none => simp [hentry, throw, throwThe, MonadExceptOf.throw] at h
  | some e => simp [hentry, pure, Except.pure] at h

theorem look?_of_overlong (h : t.Overlong here p) : t.look? here p = .error .nameTooLong := by
  rw [look?, look_eq_nameTooLong_iff.mpr h]

/-- Where no name is too long, it can be told what a path leads to. -/
theorem look?_of_not_overlong (h : ¬ t.Overlong here p) :
    t.look? here p = .ok (t.look here p).toOption := by
  rw [look?]
  split
  · rename_i e hlook
    rw [hlook]
    rfl
  · rename_i hlong
    exact absurd (look_eq_nameTooLong_iff.mp hlong) h
  · rename_i fault _ hlook
    rw [hlook]
    rfl

theorem isDirectory_of_overlong (h : t.Overlong here p) :
    t.isDirectory here p = .error .nameTooLong := by
  rw [isDirectory, look?_of_overlong h]
  rfl

theorem isDirectory_of_not_overlong (h : ¬ t.Overlong here p) :
    t.isDirectory here p = .ok ((t.look here p).toOption = some .directory) := by
  rw [isDirectory, look?_of_not_overlong h]
  rfl

theorem exists?_of_not_overlong (h : ¬ t.Overlong here p) :
    t.exists? here p = .ok (t.look here p).toOption.isSome := by
  rw [exists?, look?_of_not_overlong h]
  rfl

theorem toOption_look_eq_some_iff : (t.look here p).toOption = some e ↔
    ∃ place, t.place here p = .ok place ∧ t.entry? place = some e := by
  rw [← look_eq_ok_iff]
  cases t.look here p with
  | error fault => exact iff_of_false nofun nofun
  | ok e' => simp [Except.toOption]

/-- Two trees that differ at most in a file at a place. -/
structure SameBut (f : Place) (t t' : FileTree) : Prop where
  entry : ∀ place ≠ f, t'.entry? place = t.entry? place
  noDirectory : t.entry? f ≠ some .directory
  noDirectory' : t'.entry? f ≠ some .directory

namespace SameBut

variable (h : SameBut f t t')

include h

theorem symm : SameBut f t' t where
  entry place hplace := (h.entry place hplace).symm
  noDirectory := h.noDirectory'
  noDirectory' := h.noDirectory

theorem directory_iff : t'.entry? place = some .directory ↔ t.entry? place = some .directory := by
  by_cases hplace : place = f
  · subst hplace
    exact iff_of_false h.noDirectory' h.noDirectory
  · rw [h.entry place hplace]

/-- Names that lead somewhere pass directories only, which both trees have. -/
theorem follow_of_ok (hfollow : t.follow start names = .ok place) :
    t'.follow start names = .ok place := by
  induction names using List.reverseRecOn generalizing place with
  | nil => exact hfollow
  | append_singleton names n ih =>
    obtain ⟨parent, hparent, hdirectory, hn⟩ := follow_append_singleton.mp hfollow
    exact follow_append_singleton.mpr ⟨parent, ih hparent, h.directory_iff.mpr hdirectory, hn⟩

theorem place_of_ok (hplace : t.place here p = .ok place) : t'.place here p = .ok place := by
  obtain ⟨hadmissible, hfollow⟩ := place_eq_ok_iff_follow.mp hplace
  exact place_eq_ok_iff_follow.mpr ⟨hadmissible, h.follow_of_ok hfollow⟩

theorem place_eq_ok_iff : t'.place here p = .ok place ↔ t.place here p = .ok place :=
  ⟨h.symm.place_of_ok, h.place_of_ok⟩

theorem overlong_of (hlong : t.Overlong here p) : t'.Overlong here p := by
  refine ⟨hlong.1, hlong.2.imp_right ?_⟩
  rintro ⟨front, n, back, place, hnames, hfollow, hdirectory, hsize⟩
  exact ⟨front, n, back, place, hnames, h.follow_of_ok hfollow, h.directory_iff.mpr hdirectory, hsize⟩

theorem overlong_iff : t'.Overlong here p ↔ t.Overlong here p := ⟨h.symm.overlong_of, h.overlong_of⟩

theorem isDirectory_eq : t'.isDirectory here p = t.isDirectory here p := by
  by_cases hlong : t.Overlong here p
  · rw [isDirectory_of_overlong hlong, isDirectory_of_overlong (h.overlong_iff.mpr hlong)]
  · rw [isDirectory_of_not_overlong hlong, isDirectory_of_not_overlong (mt h.overlong_iff.mp hlong)]
    refine congrArg Except.ok (decide_eq_decide.mpr ?_)
    rw [toOption_look_eq_some_iff, toOption_look_eq_some_iff]
    exact exists_congr fun place => and_congr h.place_eq_ok_iff h.directory_iff

end SameBut

/-- Names of which none leads upwards lead straight down. -/
theorem walk_eq_append (h : ".." ∉ names) : walk start names = start ++ names := by
  induction names generalizing start with
  | nil => exact (List.append_nil start).symm
  | cons n names ih =>
    obtain ⟨hn, hnames⟩ := not_or.mp (mt List.mem_cons.mpr h)
    show walk (enter start n) names = _
    rw [ih hnames, enter, if_neg (Ne.symm hn), List.append_assoc]
    rfl

end FileTree

namespace Path

open FileTree

variable {t : FileTree} {here place : Place} {p : Path}

/-- A resolved path leads nowhere but to the place that it spells. -/
theorem place_of_absolute {names : List String} (hup : ".." ∉ names)
    (h : t.place here ⟨"/", names⟩ = .ok place) : place = names := by
  rw [follow_eq_walk (place_eq_ok_iff_follow.mp h).2, walk_eq_append hup]
  rfl

end Path

end ReleasePipeline
