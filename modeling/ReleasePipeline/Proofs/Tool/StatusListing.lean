import ReleasePipeline.Proofs.Files.Content
import ReleasePipeline.Proofs.Text.Search
import ReleasePipeline.Tool.Git

/-! A status listing shows the paths of its entries, whatever characters stand in them. Only carriage
returns are read as line feeds. -/
namespace ReleasePipeline.Git

/-- What became of a file that changed: a code for the index and one for the working tree, its path,
and its former path where one of the codes says that it was renamed or copied. -/
structure StatusEntry where
  index : Char
  tree : Char
  path : String
  former : Option String
  index_ne : index ≠ '\x00' := by decide
  tree_ne : tree ≠ '\x00' := by decide
  /-- The two codes are no line ending. -/
  codes_ne : ¬ (index = '\r' ∧ tree = '\n') := by decide
  path_ne : path ≠ "" := by decide
  path_plain : '\x00' ∉ path.toList := by decide
  former_plain : ∀ p ∈ former, '\x00' ∉ p.toList := by decide
  former_iff : former.isSome = true ↔ 'R' ∈ [index, tree] ∨ 'C' ∈ [index, tree] := by decide

/-- The former path in a listing, with a mark behind it. -/
def StatusEntry.formerWritten (e : StatusEntry) : List Char :=
  match e.former with
  | none => []
  | some p => p.toList ++ ['\x00']

/-- The entry in a listing: its codes, a blank and its path with a mark behind it, and then the former
path if there is one. -/
def StatusEntry.written (e : StatusEntry) : List Char :=
  e.index :: e.tree :: ' ' :: e.path.toList ++ '\x00' :: e.formerWritten

/-- The listing of entries. -/
def statusText (entries : List StatusEntry) : String :=
  String.ofList (entries.flatMap StatusEntry.written)

variable {e : StatusEntry}

namespace StatusEntry

theorem written_append (e : StatusEntry) (rest : List Char) : e.written ++ rest =
    (e.index :: e.tree :: ' ' :: e.path.toList) ++ '\x00' :: (e.formerWritten ++ rest) :=
  List.append_assoc _ ('\x00' :: e.formerWritten) rest

/-- The codes with the path are one part of the listing, and the former path is another one. -/
theorem splitChars_written (e : StatusEntry) (rest : List Char) :
    Text.splitChars '\x00' (e.written ++ rest) =
      (e.index :: e.tree :: ' ' :: e.path.toList) ::
        (e.former.toList.map String.toList ++ Text.splitChars '\x00' rest) := by
  have hfirst : '\x00' ∉ e.index :: e.tree :: ' ' :: e.path.toList := by
    simp [e.index_ne.symm, e.tree_ne.symm, e.path_plain]
  rw [written_append, Text.splitChars_append_cons hfirst, formerWritten]
  cases hformer : e.former with
  | none => rfl
  | some p =>
    rw [List.append_assoc, List.singleton_append, Text.splitChars_append_cons (e.former_plain p hformer)]
    rfl

/-- An entry is read as its path, and what follows is read after it. -/
theorem pathsOf_written (e : StatusEntry) (rest : List Char) :
    pathsOf (Text.splitChars '\x00' (e.written ++ rest)) =
      e.path :: pathsOf (Text.splitChars '\x00' rest) := by
  have hlength : ¬ (e.index :: e.tree :: ' ' :: e.path.toList).length < 4 := by
    have hpath : e.path.toList.length ≠ 0 := by simpa using e.path_ne
    simp only [List.length_cons]
    omega
  have hcode : ([e.index, e.tree].contains 'R' || [e.index, e.tree].contains 'C') =
      e.former.isSome := by
    rw [Bool.eq_iff_iff, e.former_iff]
    simp
  rw [splitChars_written, pathsOf, if_neg hlength]
  simp only [List.take_succ_cons, List.take_zero, List.drop_succ_cons, List.drop_zero, hcode,
    String.ofList_toList]
  cases e.former with
  | none => rfl
  | some p => rfl

/-- The entry as it is read: line endings are line feeds. -/
def unified (e : StatusEntry) : StatusEntry where
  index := if e.index = '\r' then '\n' else e.index
  tree := if e.tree = '\r' then '\n' else e.tree
  path := Text.unified e.path
  former := e.former.map Text.unified
  index_ne := by
    split
    · decide
    · exact e.index_ne
  tree_ne := by
    split
    · decide
    · exact e.tree_ne
  codes_ne := by
    rintro ⟨hindex, -⟩
    split at hindex
    · cases hindex
    · contradiction
  path_ne := Text.unified_ne_empty e.path_ne
  path_plain := fun h => e.path_plain (Text.mem_of_mem_unified (by decide) h)
  former_plain := by
    rintro p hp h
    obtain ⟨former, hformer, rfl⟩ := Option.map_eq_some_iff.mp hp
    exact e.former_plain former hformer (Text.mem_of_mem_unified (by decide) h)
  former_iff := by
    have hcode (c d : Char) (hd : d ≠ '\r' ∧ d ≠ '\n') : d = (if c = '\r' then '\n' else c) ↔ d = c := by
      split <;> grind
    rw [Option.isSome_map, e.former_iff]
    simp [hcode]

theorem unifyNewlines_codes (e : StatusEntry) (rest : List Char) :
    Text.unifyNewlines (e.index :: e.tree :: ' ' :: rest) =
      e.unified.index :: e.unified.tree :: ' ' :: Text.unifyNewlines rest := by
  have hcode (c : Char) (rest : List Char) (h : ¬ (c = '\r' ∧ rest.head? = some '\n')) :
      Text.unifyNewlines (c :: rest) =
        (if c = '\r' then '\n' else c) :: Text.unifyNewlines rest := by
    by_cases hc : c = '\r'
    · subst hc
      exact Text.unifyNewlines_return fun hhead => h ⟨rfl, hhead⟩
    · rw [if_neg hc]
      exact Text.unifyNewlines_cons hc rest
  rw [hcode e.index _ (by simpa using e.codes_ne), hcode e.tree _ (by simp),
    Text.unifyNewlines_cons (by decide)]
  rfl

/-- What is read of an entry is the entry as it is read. -/
theorem unifyNewlines_written (e : StatusEntry) (rest : List Char) :
    Text.unifyNewlines (e.written ++ rest) = e.unified.written ++ Text.unifyNewlines rest := by
  have hmark (cs rest : List Char) : Text.unifyNewlines (cs ++ '\x00' :: rest) =
      Text.unifyNewlines cs ++ '\x00' :: Text.unifyNewlines rest :=
    Text.unifyNewlines_append_mark (by decide) cs rest
  have hformer : Text.unifyNewlines (e.formerWritten ++ rest) =
      e.unified.formerWritten ++ Text.unifyNewlines rest := by
    have hunified : e.unified.former = e.former.map Text.unified := rfl
    rw [formerWritten, formerWritten, hunified]
    cases e.former with
    | none => rfl
    | some p => simp [hmark, Text.unified]
  rw [written_append, hmark, unifyNewlines_codes, hformer]
  simp [written, unified, Text.unified]

end StatusEntry

theorem unified_statusText (entries : List StatusEntry) :
    Text.unified (statusText entries) = statusText (entries.map StatusEntry.unified) := by
  rw [Text.unified, statusText, statusText, String.toList_ofList,
    Text.unifyNewlines_flatMap StatusEntry.unifyNewlines_written]

/-- A listing is read as the paths of its entries, in their order and without the former paths. -/
theorem pathsOf_statusText (entries : List StatusEntry) :
    pathsOf (Text.splitChars '\x00' (statusText entries).toList) =
      entries.map StatusEntry.path := by
  rw [statusText, String.toList_ofList]
  induction entries with
  | nil => simp [Text.splitChars, pathsOf]
  | cons e entries ih => rw [List.flatMap_cons, e.pathsOf_written, ih, List.map_cons]

end ReleasePipeline.Git
