import ReleasePipeline.Proofs.Plugin.Effects
import ReleasePipeline.Proofs.Run.Agreement

/-! No known step can tell worlds apart that differ in the tags of other channels. -/
namespace ReleasePipeline

open ReleasePipeline.Action

variable {first second : Answers} {channel : Option String} {s : Settings} {phase : Phase}

theorem blind_analysis (rules : List Rule) : Blind (Alike first second channel)
    ((CommitAnalyzer.step rules).apply s phase) := by
  refine blind_release_bind (fun _ _ => rfl) fun r => ?_
  refine blind_bind (blind_changeRelease (fun _ _ => rfl) fun _ => ⟨rfl, rfl⟩) fun _ => ?_
  exact blind_pure _

theorem blind_notes (types : List NoteType) (url : Option String) :
    Blind (Alike first second channel) ((NotesGenerator.step types url).apply s phase) := by
  refine blind_release_bind (fun _ _ => rfl) fun r => blind_bind blind_nextText fun version => ?_
  refine blind_bind (blind_changeRelease (fun _ _ => rfl) fun _ => ⟨rfl, rfl⟩) fun _ => ?_
  exact blind_pure _

theorem blind_changelog (file : String) (title : Option String) :
    Blind (Alike first second channel) ((Changelog.step file title).apply s phase) := by
  have hwritten (text report : String) : Blind (Alike first second channel) (do
      makeDirectories (s.root.join (.ofText file)).parent
      writeText (s.root.join (.ofText file)) text
      return report) := by
    refine blind_bind (blind_makeDirectories _) fun _ => ?_
    exact blind_bind (blind_writeText _ _) fun _ => blind_pure _
  simp only [Changelog.step]
  split
  · exact blind_pure _
  · refine blind_bind (blind_pathExists _) fun found => ?_
    split
    · refine blind_bind (blind_readText _) fun current => ?_
      exact blind_release_bind (fun _ _ => rfl) fun r => hwritten _ _
    · refine blind_bind (blind_pure _) fun current => ?_
      exact blind_release_bind (fun _ _ => rfl) fun r => hwritten _ _

theorem blind_setVersion (version : String) (path : Path) :
    Blind (Alike first second channel) (CargoVersion.setVersion version path) := by
  refine blind_bind (blind_pathExists _) fun found => ?_
  cases found with
  | false => exact blind_throw_bind _ _
  | true =>
    refine blind_bind (blind_readText _) fun text => ?_
    split
    rename_i updated changed _
    cases changed with
    | false => exact blind_throw_bind _ _
    | true => exact blind_writeText _ _

theorem blind_manifests (files : List String) : Blind (Alike first second channel)
    ((CargoVersion.step files).apply s phase) := by
  refine blind_bind blind_nextText fun version => ?_
  split
  · exact blind_pure _
  · exact blind_bind (blind_forM (fun file => blind_setVersion _ _) files) fun _ => blind_pure _

section Commands

variable (hother : OtherListing first second)

include hother

theorem blind_read {args : List String} (h : args ≠ Git.tagListing) :
    Blind (Alike first second channel) (Git.read s args) :=
  blind_bind (blind_run hother fun heq => h (List.tail_eq_of_cons_eq heq)) fun _ => blind_pure _

theorem blind_change {args : List String} (h : args ≠ Git.tagListing) :
    Blind (Alike first second channel) (Git.change s args) :=
  blind_bind (blind_run hother fun heq => h (List.tail_eq_of_cons_eq heq)) fun _ => blind_pure _

theorem blind_shell (command : String) (cwd : Option Path) :
    Blind (Alike first second channel) (Shell.run s command cwd) := by
  have houtput (name output : String) :
      Blind (Alike first second channel) (Shell.logOutput name output) := by
    rw [Shell.logOutput]
    split
    · exact blind_pure _
    · exact blind_log _ _
  refine blind_bind (blind_run hother (by simp)) fun result => ?_
  exact blind_bind (houtput _ _) fun _ => blind_bind (houtput _ _) fun _ => blind_pure _

theorem blind_exec (commands : List (Phase × String)) (cwd : Option String) :
    Blind (Alike first second channel) ((Exec.step commands cwd).apply s phase) := by
  simp only [Exec.step]
  split
  · exact blind_throw _
  · refine blind_bind (blind_fillIn _) fun command => ?_
    split
    · exact blind_pure _
    · refine blind_get_bind (fun _ _ => rfl) fun w => ?_
      exact blind_bind (blind_shell hother _ _) fun _ => blind_pure _

omit hother in
theorem blind_assetsOf (values : Value) (spec : GitHubRelease.AssetSpec) :
    Blind (Alike first second channel) (GitHubRelease.assetsOf s values spec) := by
  refine blind_get_bind (fun _ _ => rfl) fun w => blind_bind (blind_ofExcept _) fun pattern => ?_
  refine blind_bind (blind_ofExcept _) fun found => ?_
  split
  · exact blind_bind (blind_log _ _) fun _ => blind_pure _
  · refine blind_bind ?_ fun _ => blind_pure _
    cases spec.label with
    | none => exact blind_pure _
    | some text => exact blind_bind (blind_ofExcept _) fun _ => blind_pure _

theorem blind_verify : Blind (Alike first second channel) (GitHubRelease.verify s) := by
  rw [GitHubRelease.verify]
  split
  · exact blind_pure _
  · refine blind_bind (blind_bind (blind_run hother (by simp)) fun _ => blind_pure _) fun answer => ?_
    obtain ⟨ok, detail⟩ := answer
    cases ok with
    | false => exact blind_throw_bind _ _
    | true => exact blind_pure _

theorem blind_publish (specs : List GitHubRelease.AssetSpec) :
    Blind (Alike first second channel) (GitHubRelease.publish s specs) := by
  refine blind_release_bind (fun _ _ => rfl) fun r => ?_
  split
  · exact blind_throw _
  · split
    · exact blind_pure _
    · refine blind_release_bind (fun _ _ => rfl) fun r => ?_
      refine blind_bind (blind_ofExcept _) fun values => ?_
      refine blind_bind (blind_mapM (blind_assetsOf values) specs) fun assets => ?_
      refine blind_release_bind (fun _ _ => rfl) fun r => ?_
      refine blind_bind (blind_bind (blind_run hother (by simp)) fun _ => blind_pure _) fun _ => ?_
      exact blind_pure _

theorem blind_github (specs : List GitHubRelease.AssetSpec) :
    Blind (Alike first second channel) ((GitHubRelease.step specs).apply s phase) := by
  simp only [GitHubRelease.step]
  split
  · exact blind_verify hother
  · exact blind_publish hother specs

theorem blind_commit (assets : List String) (message : String) :
    Blind (Alike first second channel) ((GitCommit.step assets message).apply s phase) := by
  refine blind_bind (blind_bind (blind_read hother (by simp [Git.statusListing, Git.tagListing]))
    fun _ => blind_pure _) fun changed => ?_
  split
  · exact blind_pure _
  · split
    · exact blind_pure _
    · refine blind_bind (blind_fillIn _) fun message => ?_
      refine blind_bind (blind_change hother (by simp [Git.tagListing])) fun _ => ?_
      refine blind_bind (blind_change hother (by simp [Git.tagListing])) fun _ => ?_
      refine blind_release_bind (fun _ _ => rfl) fun r => ?_
      refine blind_bind (blind_change hother (by simp [Git.tagListing])) fun _ => ?_
      exact blind_pure _

/-- No known step looks at the tags in any phase. -/
theorem blind_apply {st : Step} (hst : st.Known) :
    Blind (Alike first second channel) (st.apply s phase) := by
  cases hst with
  | analysis rules => exact blind_analysis rules
  | notes types url => exact blind_notes types url
  | changelog file title => exact blind_changelog file title
  | exec commands cwd => exact blind_exec hother commands cwd
  | github specs => exact blind_github hother specs
  | commit assets message => exact blind_commit hother assets message
  | manifests files => exact blind_manifests files

end Commands

end ReleasePipeline
