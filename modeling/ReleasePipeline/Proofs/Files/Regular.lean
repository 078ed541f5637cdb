import ReleasePipeline.Proofs.Files.Lookup

/-! Trees as the file system has them: one entry at a place, and names that are names of entries. Whatever
is written or made in such a tree, it stays one. -/
namespace ReleasePipeline

/-- A name that stands in a text between slashes and means something there. -/
def Path.Plain (n : String) : Prop := n ≠ "" ∧ n ≠ "." ∧ '/' ∉ n.toList

namespace FileTree

variable {t t' : FileTree} {here place : Place} {p : Path} {n : String} {e : Entry}
  {names : List String} {content : ByteArray} {fuel : ℕ}

/-- A name of an entry: neither that of the directory itself nor that of the one above it. -/
structure IsName (n : String) : Prop where
  ne_empty : n ≠ ""
  ne_here : n ≠ "."
  ne_up : n ≠ ".."
  slash : '/' ∉ n.toList
  null : '\x00' ∉ n.toList

theorem isName_iff :
    IsName n ↔ n ≠ "" ∧ n ≠ "." ∧ n ≠ ".." ∧ '/' ∉ n.toList ∧ '\x00' ∉ n.toList :=
  ⟨fun h => ⟨h.ne_empty, h.ne_here, h.ne_up, h.slash, h.null⟩,
    fun h => ⟨h.1, h.2.1, h.2.2.1, h.2.2.2.1, h.2.2.2.2⟩⟩

instance (n : String) : Decidable (IsName n) := decidable_of_iff _ isName_iff.symm

/-- No place has two entries, and all names are names of entries. -/
structure Regular (t : FileTree) : Prop where
  distinct : t.Distinct
  names : ∀ entry ∈ t.entries, ∀ n ∈ entry.1, IsName n

theorem mem_entries_of_eq_some (h : t.entry? (place ++ [n]) = some e) :
    (place ++ [n], e) ∈ t.entries := by
  rw [entry?_concat] at h
  obtain ⟨before, after, hentries, -⟩ := List.lookup_eq_some_iff.mp h
  exact hentries ▸ List.mem_append_right before List.mem_cons_self

theorem Regular.isName (h : t.Regular) (hentry : t.entry? (place ++ [n]) = some e) : IsName n :=
  h.names _ (mem_entries_of_eq_some hentry) n (by simp)

theorem IsName.plain (h : IsName n) : Path.Plain n := ⟨h.ne_empty, h.ne_here, h.slash⟩

theorem Regular.insert (h : t.Regular) (hplace : ∀ n ∈ place, IsName n) (e : Entry) :
    (t.insert place e).Regular where
  distinct := h.distinct.insert place e
  names entry hentry := by
    rw [FileTree.insert] at hentry
    split at hentry
    · obtain ⟨⟨q, old⟩, hold, rfl⟩ := List.mem_map.mp hentry
      have hplace : (if q = place then (q, e) else (q, old)).1 = q := by split <;> rfl
      rw [hplace]
      exact h.names (q, old) hold
    · obtain hentry | hentry := List.mem_append.mp hentry
      · exact h.names entry hentry
      · rw [List.mem_singleton.mp hentry]
        exact hplace

/-- Names lead to a place whose names are names of entries, since those that lead upwards are gone. -/
theorem isName_walk (hplace : ∀ n ∈ place, IsName n) (hnames : ∀ n ∈ names, Path.Plain n)
    (hnull : ∀ n ∈ names, '\x00' ∉ n.toList) : ∀ n ∈ walk place names, IsName n := by
  induction names generalizing place with
  | nil => exact hplace
  | cons m names ih =>
    obtain ⟨⟨hne, hhere, hslash⟩, hnames⟩ := List.forall_mem_cons.mp hnames
    obtain ⟨hm, hnull⟩ := List.forall_mem_cons.mp hnull
    refine ih (fun n hn => ?_) hnames hnull
    rw [enter] at hn
    split at hn
    · exact hplace n (List.dropLast_subset place hn)
    · rename_i hup
      obtain hn | hn := List.mem_append.mp hn
      · exact hplace n hn
      · rw [List.mem_singleton.mp hn]
        exact ⟨hne, hhere, hup, hslash, hm⟩

section Keeping

variable (h : t.Regular) (hhere : ∀ n ∈ here, IsName n) (hp : ∀ n ∈ p.names, Path.Plain n)

include hhere hp in
theorem isName_of_place (hplace : t.place here p = .ok place) : ∀ n ∈ place, IsName n := by
  obtain ⟨hadmissible, hfollow⟩ := place_eq_ok_iff_follow.mp hplace
  rw [follow_eq_walk hfollow]
  refine isName_walk ?_ hp hadmissible.null
  rw [Path.start]
  split
  · exact fun n hn => absurd hn List.not_mem_nil
  · exact hhere

include h hhere hp

theorem Regular.write (hwrite : t.write here p content = .ok t') : t'.Regular := by
  obtain ⟨place, hplace, -, rfl⟩ := write_eq_ok_iff.mp hwrite
  exact h.insert (isName_of_place hhere hp hplace) _

theorem Regular.ensureDirectory (hmake : t.ensureDirectory here p = .ok t') : t'.Regular := by
  rw [FileTree.ensureDirectory] at hmake
  split at hmake
  · rename_i made hmade
    cases hmake
    cases hplace : t.place here p with
    | error fault =>
      rw [makeDirectory, hplace] at hmade
      cases hmade
    | ok place =>
      rw [makeDirectory_of_place hplace] at hmade
      split at hmade
      · cases hmade
      · cases hmade
        exact h.insert (isName_of_place hhere hp hplace) _
  · split at hmake
    · cases hmake
      exact h
    · cases hmake

omit hp in
theorem Regular.makeDirectories (hp : ∀ n ∈ p.names, Path.Plain n) :
    (t.makeDirectories here fuel p).1.Regular := by
  induction fuel generalizing t p with
  | zero =>
    rw [makeDirectories.eq_def]
    split
    · rename_i made hmade
      exact h.ensureDirectory hhere hp hmade
    · exact h
    · exact h
  | succ fuel ih =>
    have hparent : ∀ n ∈ p.parent.names, Path.Plain n :=
      fun n hn => hp n (List.dropLast_subset p.names hn)
    have habove := ih h hparent
    rw [makeDirectories.eq_def]
    split
    · rename_i made hmade
      exact h.ensureDirectory hhere hp hmade
    · simp only
      split
      · exact h
      · split
        · rename_i made fault hmade
          rw [hmade] at habove
          exact habove
        · rename_i made hmade
          rw [hmade] at habove
          split
          · rename_i made' hmade'
            exact Regular.ensureDirectory habove hhere hp hmade'
          · exact habove
    · exact h

end Keeping

/-- Whatever files and directories are put into the tree, it stays as the file system has it. -/
theorem Regular.install {entries : List (Path × Entry)} (h : t.Regular) (hhere : ∀ n ∈ here, IsName n)
    (hentries : ∀ entry ∈ entries, ∀ n ∈ entry.1.names, Path.Plain n) :
    (t.install here entries).Regular := by
  induction entries generalizing t with
  | nil => exact h
  | cons entry entries ih =>
    obtain ⟨hp, hentries⟩ := List.forall_mem_cons.mp hentries
    refine ih ?_ hentries
    obtain ⟨p, e⟩ := entry
    cases e with
    | directory => exact h.makeDirectories hhere hp
    | file content =>
      have hparent : ∀ n ∈ p.parent.names, Path.Plain n :=
        fun n hn => hp n (List.dropLast_subset p.names hn)
      have hmade : (t.makeDirectories here p.names.length p.parent).1.Regular :=
        h.makeDirectories hhere hparent
      cases hwrite : (t.makeDirectories here p.names.length p.parent).1.write here p content with
      | error fault => simpa [hwrite, Except.toOption] using hmade
      | ok written => simpa [hwrite, Except.toOption] using hmade.write hhere hp hwrite

end FileTree

end ReleasePipeline
