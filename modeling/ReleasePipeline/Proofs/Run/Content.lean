import ReleasePipeline.Proofs.Files.Content
import ReleasePipeline.Proofs.Run.Agreement

/-! Actions on a file whose content is known. -/
namespace ReleasePipeline.Action

variable {w : World} {p : Path} {e : Entry} {text : String} {files : FileTree}

theorem pathExists_eq_ok {found : Bool} (h : w.files.exists? w.here p = .ok found) :
    pathExists p w = .ok found w :=
  ofExcept_eq_ok.mpr ⟨mapError_eq_ok.mpr h, rfl⟩

/-- A text is read with unified line endings. -/
theorem readText_of_look (h : w.files.look w.here p = .ok (.file text.toUTF8)) :
    readText p w = .ok (Text.unified text) w := by
  refine bind_apply_eq_ok.mpr ⟨w, w, rfl, bind_apply_eq_ok.mpr ⟨text.toUTF8, w, ?_, ?_⟩⟩
  · exact ofExcept_eq_ok.mpr ⟨mapError_eq_ok.mpr (FileTree.read_eq_ok_iff.mpr h), rfl⟩
  · exact ofExcept_eq_ok.mpr ⟨mapError_eq_ok.mpr (textOfBytes_eq_unified text), rfl⟩

theorem makeDirectories_eq_ok
    (h : w.files.makeDirectories w.here p.names.length p = (files, .ok ())) :
    makeDirectories p w = .ok () { w with files } := by
  rw [makeDirectories_apply, h]

theorem writeText_of_write (h : w.files.write w.here p text.toUTF8 = .ok files) :
    writeText p text w = .ok () { w with files } := by
  rw [writeText_apply, h]

end ReleasePipeline.Action
