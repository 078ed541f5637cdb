import ReleasePipeline.Files.Tree
import ReleasePipeline.Proofs.Except

/-! A file that was written holds what was written into it. -/
namespace ReleasePipeline.FileTree

variable {t t' : FileTree} {here start place other : Place} {names : List String} {e : Entry}
  {p : Path} {content : ByteArray}

/-- The entries with another one at a place that has one. -/
def replaced (place : Place) (e : Entry) (entries : List (Place × Entry)) : List (Place × Entry) :=
  entries.map fun (q, old) => if q = place then (q, e) else (q, old)

theorem replaced_cons (q : Place) (old : Entry) (entries : List (Place × Entry)) :
    replaced place e ((q, old) :: entries) =
      (q, if q = place then e else old) :: replaced place e entries := by
  by_cases hq : q = place
  · simp [replaced, hq]
  · simp [replaced, hq]

theorem lookup_replaced_self {entries : List (Place × Entry)} (h : (entries.lookup place).isSome) :
    (replaced place e entries).lookup place = some e := by
  induction entries with
  | nil => cases h
  | cons entry entries ih =>
    obtain ⟨q, old⟩ := entry
    rw [replaced_cons]
    by_cases hq : place = q
    · simp [hq]
    · rw [List.lookup_cons, beq_false_of_ne hq] at h ⊢
      exact ih h

theorem lookup_replaced_of_ne (h : other ≠ place) (entries : List (Place × Entry)) :
    (replaced place e entries).lookup other = entries.lookup other := by
  induction entries with
  | nil => rfl
  | cons entry entries ih =>
    obtain ⟨q, old⟩ := entry
    rw [replaced_cons, List.lookup_cons, List.lookup_cons, ih]
    by_cases hq : other = q
    · subst hq
      simp [h]
    · rw [beq_false_of_ne hq]

theorem entry?_insert_self (hplace : place ≠ []) : entry? (t.insert place e) place = some e := by
  unfold entry?
  rw [if_neg (by simpa using hplace), insert]
  by_cases h : (t.entries.lookup place).isSome
  · rw [if_pos h]
    exact lookup_replaced_self h
  · rw [Option.not_isSome_iff_eq_none] at h
    simp [h, List.lookup_append]

theorem entry?_insert_of_ne (h : other ≠ place) :
    entry? (t.insert place e) other = t.entry? other := by
  unfold entry?
  rw [insert]
  split
  · rfl
  · split
    · exact lookup_replaced_of_ne h _
    · rw [List.lookup_append]
      simp [List.lookup_cons, beq_false_of_ne h]

/-- A new entry where no directory was is not in the way. -/
theorem follow_insert (hplace : t.entry? place ≠ some .directory)
    (h : t.follow start names = .ok other) : (t.insert place e).follow start names = .ok other := by
  induction names generalizing start with
  | nil => exact h
  | cons n names ih =>
    rw [follow] at h ⊢
    cases hstart : t.entry? start with
    | none =>
      rw [hstart] at h
      cases h
    | some entry =>
      rw [hstart] at h
      cases entry with
      | file content => cases h
      | directory =>
        have hne : start ≠ place := by
          rintro rfl
          exact hplace hstart
        rw [entry?_insert_of_ne hne, hstart]
        simp only at h ⊢
        split at h
        · cases h
        · rename_i hsize
          rw [if_neg hsize]
          exact ih h

theorem place_insert (hplace : t.entry? place ≠ some .directory)
    (h : t.place here p = .ok other) : (t.insert place e).place here p = .ok other := by
  rw [FileTree.place] at h ⊢
  split at h
  · cases h
  · rename_i hnull
    rw [if_neg hnull]
    split at h
    · cases h
    · rename_i hsize
      rw [if_neg hsize]
      exact follow_insert hplace h

/-- A file is written unless a directory stands at its place. -/
theorem write_eq_ok_iff : t.write here p content = .ok t' ↔ ∃ place, t.place here p = .ok place ∧
    t.entry? place ≠ some .directory ∧ t' = t.insert place (.file content) := by
  rw [write, bind_eq_ok]
  refine exists_congr fun place => and_congr_right fun _ => ?_
  cases t.entry? place with
  | none => simp [pure, Except.pure, eq_comm]
  | some e =>
    cases e with
    | file _ => simp [pure, Except.pure, eq_comm]
    | directory => simp [throw, throwThe, MonadExceptOf.throw]

/-- A path that was written leads to the file. -/
theorem look_of_write (h : t.write here p content = .ok t') : t'.look here p = .ok (.file content) := by
  obtain ⟨place, hplace, hroot, rfl⟩ := write_eq_ok_iff.mp h
  have hne : place ≠ [] := by
    rintro rfl
    exact hroot rfl
  rw [look, bind_eq_ok]
  refine ⟨place, place_insert hroot hplace, ?_⟩
  rw [entry?_insert_self hne]
  rfl

/-- A file that is written leaves the directories as they are. -/
theorem directory_of_write (h : t.write here p content = .ok t')
    (hother : t.entry? other = some .directory) : t'.entry? other = some .directory := by
  obtain ⟨place, -, hplace, rfl⟩ := write_eq_ok_iff.mp h
  rw [entry?_insert_of_ne, hother]
  rintro rfl
  exact hplace hother

theorem isFile_of_write (h : t.write here p content = .ok t') : t'.isFile here p = .ok true := by
  rw [isFile, look?, look_of_write h]
  rfl

theorem read_of_write (h : t.write here p content = .ok t') : t'.read here p = .ok content := by
  rw [read, look_of_write h]
  rfl

end ReleasePipeline.FileTree
