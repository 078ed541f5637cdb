import ReleasePipeline.Proofs.Files.Glob
import ReleasePipeline.Proofs.Text.Search

/-! Paths and their texts: a path from the root is read back from its text. -/
namespace ReleasePipeline

open Text

theorem Text.notMem_of_mem_splitChars {sep : Char} {cs part : List Char}
    (h : part ∈ splitChars sep cs) : sep ∉ part := by
  induction cs generalizing part with
  | nil =>
    rw [List.mem_singleton.mp h]
    exact List.not_mem_nil
  | cons c cs ih =>
    rw [splitChars] at h
    split at h
    · obtain rfl | h := List.mem_cons.mp h
      · exact List.not_mem_nil
      · exact ih h
    · rename_i hc
      split at h
      · rw [List.mem_singleton.mp h, List.mem_singleton]
        exact Ne.symm hc
      · rename_i first rest hparts
        obtain rfl | h := List.mem_cons.mp h
        · rw [List.mem_cons, not_or]
          exact ⟨Ne.symm hc, ih (hparts ▸ List.mem_cons_self)⟩
        · exact ih (hparts ▸ List.mem_cons_of_mem first h)

namespace Path

variable {names : List String} {n written : String}

theorem plain_of_mem_namesOf (h : n ∈ namesOf written) : Plain n := by
  obtain ⟨hsplit, hkept⟩ := List.mem_filter.mp h
  obtain ⟨part, hpart, rfl⟩ := List.mem_map.mp hsplit
  obtain ⟨hne, hhere⟩ : String.ofList part ≠ "" ∧ String.ofList part ≠ "." := by simpa using hkept
  refine ⟨hne, hhere, ?_⟩
  rw [String.toList_ofList]
  exact notMem_of_mem_splitChars hpart

theorem toList_text (names : List String) :
    (text ⟨"/", names⟩).toList = '/' :: ['/'].intercalate (names.map String.toList) := by
  have hne : ("/" ++ String.intercalate "/" names).isEmpty = false := by
    rw [← Bool.not_eq_true, String.isEmpty_iff]
    exact fun h => by simpa using congrArg String.toList h
  rw [text]
  simp only [hne, Bool.false_eq_true, if_false]
  rw [String.toList_append, String.toList_intercalate]
  rfl

theorem takeWhile_slash_eq_nil (h : ∀ n ∈ names, Plain n) :
    (['/'].intercalate (names.map String.toList)).takeWhile (· = '/') = [] := by
  cases names with
  | nil => rfl
  | cons n names =>
    obtain ⟨hne, -, hslash⟩ := h n List.mem_cons_self
    obtain ⟨c, cs, hn⟩ := List.exists_cons_of_ne_nil (mt String.toList_eq_nil_iff.mp hne)
    have hc : c ≠ '/' := by
      rintro rfl
      exact hslash (hn ▸ List.mem_cons_self)
    cases names with
    | nil => simp [hn, hc]
    | cons m names => simp [hn, hc]

theorem namesOf_text (h : ∀ n ∈ names, Plain n) : namesOf (text ⟨"/", names⟩) = names := by
  have hparts : splitOn '/' (text ⟨"/", names⟩) = "" :: if names = [] then [""] else names := by
    rw [splitOn, toList_text, splitChars, if_pos rfl, List.map_cons]
    refine congrArg (List.cons "") ?_
    split
    · rename_i hnames
      rw [hnames]
      rfl
    · rename_i hnames
      rw [splitChars_eq_splitOn, List.splitOn_intercalate '/' ?_ (by simpa using hnames), List.map_map]
      · simp
      · rw [List.forall_mem_map]
        exact fun n hn => (h n hn).2.2
  have hkept : names.filter (fun n => n ≠ "" && n ≠ ".") = names := by
    rw [List.filter_eq_self]
    exact fun n hn => by simp [(h n hn).1, (h n hn).2.1]
  rw [namesOf, hparts]
  split
  · rename_i hnames
    rw [hnames]
    rfl
  · exact hkept

/-- A path from the root is read back from its text. -/
theorem ofText_text (h : ∀ n ∈ names, Plain n) : ofText (text ⟨"/", names⟩) = ⟨"/", names⟩ := by
  rw [ofText, namesOf_text h, rootOf, toList_text, List.takeWhile_cons_of_pos (by simp),
    takeWhile_slash_eq_nil h]
  rfl

end Path

namespace PathPattern

variable {n text : String} {pattern : PathPattern}

/-- A name in a pattern is one in its text. -/
theorem mem_namesOf_of_ofText (h : ofText text = .ok pattern) (hn : .name n ∈ pattern.parts) :
    n ∈ Path.namesOf text := by
  obtain ⟨parts, hparts, h⟩ := bind_eq_ok.mp h
  have hmem : .name n ∈ parts := by
    cases parts with
    | nil => cases h
    | cons first rest =>
      cases h
      exact hn
  obtain ⟨m, hm, hpart⟩ := exists_of_mapM_mem hparts hmem
  rw [part] at hpart
  split at hpart
  · cases hpart
  · split at hpart
    · cases hpart
    · split at hpart
      · cases hpart
      · cases hpart
        exact hm

end PathPattern

end ReleasePipeline
