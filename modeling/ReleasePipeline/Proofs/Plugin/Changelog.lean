import Mathlib.Data.List.Infix
import ReleasePipeline.Plugin.Preparation
import ReleasePipeline.Proofs.Files.Directory
import ReleasePipeline.Proofs.Run.Content
import ReleasePipeline.Proofs.Text.Trimmed

/-! The changelog over several releases: the notes of each are put in front of those before it. -/
namespace ReleasePipeline.Changelog

open ReleasePipeline.Action

variable {text file part : String} {parts rest : List String}
  {w : World} {s : Settings}

/-- The text of a changelog with the parts, one blank line between them. -/
def joined (parts : List String) : String := String.intercalate "\n\n" parts ++ "\n"

/-- What a text adds to the parts: all of it, but for the blanks around it. -/
def parted (text : String) : List String :=
  if Text.strip text = "" then [] else [Text.strip text]

theorem updated_none (notes current : String) :
    updated none notes current = joined (Text.strip notes :: parted current) := by
  rw [updated, parted]
  by_cases hblank : Text.strip current = ""
  · simp [hblank, joined]
  · simp [hblank, joined, String.isEmpty_iff, String.intercalate_cons_cons, String.append_assoc]

/-- A part that stays as it is when the changelog is read and stripped. -/
structure Part (part : String) : Prop where
  trimmed : Text.Trimmed part.toList
  noReturn : '\r' ∉ part.toList

theorem part_strip (hblank : Text.strip text ≠ "") (hreturn : '\r' ∉ text.toList) :
    Part (Text.strip text) where
  trimmed := by
    rw [Text.strip, String.toList_ofList]
    refine Text.trimmed_stripChars fun hnil => hblank ?_
    rw [Text.strip, hnil]
  noReturn := by
    rw [Text.strip, String.toList_ofList]
    exact fun hmem => hreturn (Text.mem_of_mem_stripChars hmem)

theorem part_of_mem_parted (hreturn : '\r' ∉ text.toList) (h : part ∈ parted text) : Part part := by
  rw [parted] at h
  split at h
  · cases h
  · rename_i hblank
    rw [List.mem_singleton.mp h]
    exact part_strip hblank hreturn

/-- Parts that are put together are a part. -/
theorem part_intercalate (hpart : Part part) (hrest : ∀ p ∈ rest, Part p) :
    Part (String.intercalate "\n\n" (part :: rest)) := by
  induction rest generalizing part with
  | nil => rwa [String.intercalate_singleton]
  | cons next rest ih =>
    obtain ⟨hnext, hrest⟩ := List.forall_mem_cons.mp hrest
    have hmore := ih hnext hrest
    rw [String.intercalate_cons_cons]
    refine ⟨?_, ?_⟩
    · rw [String.toList_append, String.toList_append]
      exact hpart.trimmed.append hmore.trimmed _
    · rw [String.toList_append, String.toList_append, List.mem_append, List.mem_append]
      exact not_or.mpr ⟨not_or.mpr ⟨hpart.noReturn, by decide⟩, hmore.noReturn⟩

theorem unified_joined (hparts : ∀ p ∈ parts, Part p) :
    Text.unified (joined parts) = joined parts := by
  refine Text.unified_eq_self ?_
  cases parts with
  | nil => decide
  | cons part rest =>
    obtain ⟨hpart, hrest⟩ := List.forall_mem_cons.mp hparts
    simpa [joined] using (part_intercalate hpart hrest).noReturn

/-- A changelog is read back as its parts. -/
theorem joined_parted_joined (notes : String) (hparts : ∀ p ∈ parts, Part p) :
    joined (notes :: parted (joined parts)) = joined (notes :: parts) := by
  cases parts with
  | nil => rfl
  | cons part rest =>
    obtain ⟨hpart, hrest⟩ := List.forall_mem_cons.mp hparts
    have hwhole := part_intercalate hpart hrest
    have hstrip : Text.strip (joined (part :: rest)) = String.intercalate "\n\n" (part :: rest) := by
      rw [Text.strip, joined, String.toList_append, hwhole.trimmed.stripChars_append (List.all_eq_true.mp rfl),
        String.ofList_toList]
    have hne : String.intercalate "\n\n" (part :: rest) ≠ "" := by
      intro hnil
      exact hwhole.trimmed.ne_nil (congrArg String.toList hnil)
    rw [parted, hstrip, if_neg hne, joined, joined, String.intercalate_cons_cons,
      String.intercalate_cons_cons, String.intercalate_singleton]

/-- The text of a changelog after the notes of several releases were put in front of it. -/
def kept (title : Option String) (text : String) (notes : List String) : String :=
  notes.foldl (fun text n => updated title n (Text.unified text)) text

theorem kept_cons (title : Option String) (text n : String) (notes : List String) :
    kept title text (n :: notes) = kept title (updated title n (Text.unified text)) notes := rfl

theorem kept_joined {notes : List String} (hparts : ∀ p ∈ parts, Part p)
    (hnotes : ∀ n ∈ notes, Text.strip n ≠ "" ∧ '\r' ∉ n.toList) :
    kept none (joined parts) notes = joined (notes.reverse.map Text.strip ++ parts) := by
  induction notes generalizing parts with
  | nil => rfl
  | cons n notes ih =>
    obtain ⟨⟨hblank, hreturn⟩, hnotes⟩ := List.forall_mem_cons.mp hnotes
    have hfirst := part_strip hblank hreturn
    have hupdated : updated none n (Text.unified (joined parts)) = joined (Text.strip n :: parts) := by
      rw [unified_joined hparts, updated_none, joined_parted_joined _ hparts]
    rw [kept_cons, hupdated, ih (List.forall_mem_cons.mpr ⟨hfirst, hparts⟩) hnotes]
    simp

/-- The changelog consists of the notes, those of the last release first, and of what it was before. -/
theorem kept_eq_joined {notes : List String} (hne : notes ≠ [])
    (hnotes : ∀ n ∈ notes, Text.strip n ≠ "" ∧ '\r' ∉ n.toList) :
    kept none text notes =
      joined (notes.reverse.map Text.strip ++ parted (Text.unified text)) := by
  obtain ⟨n, notes, rfl⟩ := List.exists_cons_of_ne_nil hne
  obtain ⟨⟨hblank, hreturn⟩, hnotes⟩ := List.forall_mem_cons.mp hnotes
  rw [kept_cons, updated_none, kept_joined (List.forall_mem_cons.mpr
    ⟨part_strip hblank hreturn, fun part => part_of_mem_parted (Text.return_not_mem_unified text)⟩)
    hnotes]
  simp

/-- The path of a changelog. -/
def path (s : Settings) (file : String) : Path := s.root.join (.ofText file)

theorem update_apply (title : Option String) (htext : w.files.TextAt w.here (path s file) text)
    (hstart : w.files.entry? ((path s file).start w.here) = some .directory)
    (current report : String) : ∃ files, (do
        let text := updated title (← Action.release).notes current
        makeDirectories (path s file).parent
        writeText (path s file) text
        return report) w = .ok report { w with files } ∧
      files.look w.here (path s file) = .ok (.file (updated title w.release.notes current).toUTF8) ∧
      files.entry? ((path s file).start w.here) = some .directory := by
  obtain ⟨made, place, hmake, hplace, hentry, hstart'⟩ := htext.exists_place hstart
  let content := (updated title w.release.notes current).toUTF8
  have hwrite : made.write w.here (path s file) content = .ok (made.insert place (.file content)) :=
    FileTree.write_eq_ok_iff.mpr ⟨place, hplace, hentry, rfl⟩
  refine ⟨_, bind_apply_eq_ok.mpr ⟨w.release, w, rfl, bind_apply_eq_ok.mpr ⟨(), _,
    makeDirectories_eq_ok hmake, bind_apply_eq_ok.mpr ⟨(), _, writeText_of_write hwrite, rfl⟩⟩⟩,
    FileTree.look_of_write hwrite, FileTree.directory_of_write hwrite hstart'⟩

/-- One release puts its notes in front of the text of the changelog. -/
theorem apply_updates (title : Option String) (phase : Phase) (hreal : s.dryRun = false)
    (hstart : w.files.entry? ((path s file).start w.here) = some .directory)
    (htext : w.files.TextAt w.here (path s file) text) :
    ∃ files, (step file title).apply s phase w = .ok s!"Updated {file}." { w with files } ∧
      files.look w.here (path s file) =
        .ok (.file (updated title w.release.notes (Text.unified text)).toUTF8) ∧
      files.entry? ((path s file).start w.here) = some .directory := by
  obtain ⟨files, hupdate, hlook, hstart'⟩ := update_apply title htext hstart
    (Text.unified text) s!"Updated {file}."
  refine ⟨files, ?_, hlook, hstart'⟩
  simp only [step, hreal, Bool.false_eq_true, if_false]
  cases htext with
  | file htext =>
    refine bind_apply_eq_ok.mpr ⟨true, w, pathExists_eq_ok (FileTree.exists?_of_look htext), ?_⟩
    exact bind_apply_eq_ok.mpr ⟨_, w, readText_of_look htext, hupdate⟩
  | vacant htext =>
    refine bind_apply_eq_ok.mpr ⟨false, w, pathExists_eq_ok htext.exists?, ?_⟩
    exact bind_apply_eq_ok.mpr ⟨"", w, rfl, hupdate⟩

/-- The step of a release with the given notes. -/
def keep (s : Settings) (file : String) (title : Option String) (notes : String) : Action Unit := do
  Action.changeRelease fun r => { r with notes }
  let _ ← (step file title).apply s .prepare

theorem keep_apply (title : Option String) (hreal : s.dryRun = false)
    (hstart : w.files.entry? ((path s file).start w.here) = some .directory)
    (htext : w.files.TextAt w.here (path s file) text) (notes : String) :
    ∃ files, keep s file title notes w =
        .ok () { w with files, release := { w.release with notes } } ∧
      files.look w.here (path s file) =
        .ok (.file (updated title notes (Text.unified text)).toUTF8) ∧
      files.entry? ((path s file).start w.here) = some .directory := by
  let noted := { w with release := { w.release with notes } }
  obtain ⟨files, happly, hlook, hstart'⟩ :=
    apply_updates (w := noted) title .prepare hreal hstart htext
  have hkeep : keep s file title notes w = .ok () { noted with files } :=
    bind_apply_eq_ok.mpr ⟨(), noted, rfl, bind_apply_eq_ok.mpr ⟨_, _, happly, rfl⟩⟩
  exact ⟨files, hkeep, hlook, hstart'⟩

/-- Releases one after the other leave a changelog with all of their notes behind. -/
theorem forM_keep_apply (title : Option String) (hreal : s.dryRun = false) {all : List String}
    (hne : all ≠ [])
    (hstart : w.files.entry? ((path s file).start w.here) = some .directory)
    (htext : w.files.TextAt w.here (path s file) text) :
    ∃ files release, all.forM (keep s file title) w = .ok () { w with files, release } ∧
      files.look w.here (path s file) = .ok (.file (kept title text all).toUTF8) := by
  induction all generalizing text w with
  | nil => exact absurd rfl hne
  | cons notes all ih =>
    obtain ⟨files, hkeep, hlook, hstart'⟩ := keep_apply title hreal hstart htext notes
    rw [kept_cons]
    cases all with
    | nil => exact ⟨files, _, bind_apply_eq_ok.mpr ⟨(), _, hkeep, rfl⟩, hlook⟩
    | cons next all =>
      let w₁ := { w with files, release := { w.release with notes } }
      obtain ⟨files', release, hrest, hlook'⟩ :=
        ih (w := w₁) (List.cons_ne_nil next all) hstart' (.file hlook)
      exact ⟨files', release, bind_apply_eq_ok.mpr ⟨(), w₁, hkeep, hrest⟩, hlook'⟩

/-- Whatever the changelog held, after several releases it holds the notes of all of them without the
blanks around them, those of the last release first, and then what it held before. -/
theorem changelog_keeps_all_notes (hreal : s.dryRun = false) {all : List String} (hne : all ≠ [])
    (hnotes : ∀ notes ∈ all, Text.strip notes ≠ "" ∧ '\r' ∉ notes.toList)
    (hstart : w.files.entry? ((path s file).start w.here) = some .directory)
    (htext : w.files.TextAt w.here (path s file) text) :
    ∃ files release, all.forM (keep s file none) w = .ok () { w with files, release } ∧
      files.look w.here (path s file) =
        .ok (.file (joined (all.reverse.map Text.strip ++ parted (Text.unified text))).toUTF8) := by
  obtain ⟨files, release, hkeep, hlook⟩ := forM_keep_apply none hreal hne hstart htext
  rw [kept_eq_joined hne hnotes] at hlook
  exact ⟨files, release, hkeep, hlook⟩

/-- A repository with the given entries besides its directory. -/
def changelogWorld (entries : List (Place × Entry)) : World where
  files := ⟨(["repo"], .directory) :: entries⟩
  here := ["repo"]
  release := { branch := "main", date := ⟨2024, 5, 1⟩ }

/-- There is room for a changelog, with a directory for it, in an empty repository. -/
theorem vacant_changelogWorld : (changelogWorld []).files.Vacant ["repo"]
    (path { root := .ofText "/repo" } "docs/CHANGELOG.md") := by
  have hpath : path { root := .ofText "/repo" } "docs/CHANGELOG.md" =
      ⟨"/", ["repo", "docs", "CHANGELOG.md"]⟩ := by decide +kernel
  have hinits : ∀ front ∈ ["repo", "docs", "CHANGELOG.md"].inits,
      (changelogWorld []).files.entry? (FileTree.walk [] front) ∈ [none, some .directory] ∧
      (front ≠ ["repo", "docs", "CHANGELOG.md"] →
        FileTree.walk [] front ≠ FileTree.walk [] ["repo", "docs", "CHANGELOG.md"]) := by
    decide +kernel
  rw [hpath]
  refine ⟨⟨⟨by decide +kernel, by decide +kernel⟩, by decide +kernel, fun front hfront content hfile => ?_⟩,
    FileTree.sound_of_entries (by decide +kernel), by decide +kernel, fun front hfront => ?_⟩
  · have hentry := (hinits front ((List.mem_inits front _).mpr hfront)).1
    rw [show FileTree.entry? _ (FileTree.walk [] front) = _ from hfile] at hentry
    simp at hentry
  · exact (hinits front ((List.mem_inits front _).mpr hfront)).2

theorem two_releases_of_changelogWorld :
    let s : Settings := { root := .ofText "/repo" }
    let all := ["\n# 1.0.0\n\n* first\n", "  # 1.1.0"]
    let old := changelogWorld [(["repo", "CHANGELOG.md"], .file "\r\nOld\r\nnotes\t".toUTF8)]
    (∃ files release, all.forM (keep s "docs/CHANGELOG.md" none) (changelogWorld []) =
        .ok () { changelogWorld [] with files, release } ∧
      files.look ["repo"] (path s "docs/CHANGELOG.md") =
        .ok (.file "# 1.1.0\n\n# 1.0.0\n\n* first\n".toUTF8)) ∧
    ∃ files release, all.forM (keep s "CHANGELOG.md" none) old = .ok () { old with files, release } ∧
      files.look ["repo"] (path s "CHANGELOG.md") =
        .ok (.file "# 1.1.0\n\n# 1.0.0\n\n* first\n\nOld\nnotes\n".toUTF8) := by
  intro s all old
  have hnotes : ∀ notes ∈ all, Text.strip notes ≠ "" ∧ '\r' ∉ notes.toList := by decide +kernel
  have hold : old.files.TextAt old.here (path s "CHANGELOG.md") "\r\nOld\r\nnotes\t" := .file rfl
  obtain ⟨files, release, hkeep, hlook⟩ := changelog_keeps_all_notes (w := changelogWorld []) (s := s)
    rfl (List.cons_ne_nil _ _) hnotes rfl (.vacant vacant_changelogWorld)
  obtain ⟨files', release', hkeep', hlook'⟩ := changelog_keeps_all_notes (w := old) (s := s)
    rfl (List.cons_ne_nil _ _) hnotes rfl hold
  refine ⟨⟨files, release, hkeep, hlook.trans ?_⟩, files', release', hkeep', hlook'.trans ?_⟩
  · refine congrArg (fun text : String => Except.ok (Entry.file text.toUTF8)) ?_
    decide +kernel
  · refine congrArg (fun text : String => Except.ok (Entry.file text.toUTF8)) ?_
    decide +kernel

end ReleasePipeline.Changelog
