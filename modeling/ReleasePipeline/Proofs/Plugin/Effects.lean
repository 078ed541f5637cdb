import ReleasePipeline.Proofs.Plugin.Steps

/-! What the known steps do: they decide on the bump, write the notes and execute a few commands. A
dry run leaves it at messages and at the status of the repository. -/
namespace ReleasePipeline

open ReleasePipeline.Action

/-- The commands of the known steps that a dry run leaves out, beside the push of a release commit. -/
inductive StepWork : List String → Prop
  | login : StepWork ["gh", "auth", "status"]
  | script (text : String) : StepWork ["bash", "-c", text]
  | add (rest : List String) : StepWork ("git" :: "add" :: rest)
  | commit (message : String) : StepWork ["git", "commit", "-m", message]
  | publish (rest : List String) : StepWork ("gh" :: "release" :: rest)

variable {R : World → World → Prop} [IsPreorder World R] {write : Prop} {may : List String → Prop}
  {s : Settings} {phase : Phase}

section Parts

/-! Each step needs leave for its files and commands in real runs only. -/

variable (h : Admits R write may) (hwrite : s.dryRun = false → write)
  (hmay : s.dryRun = false → ∀ argv, StepWork argv → may argv)

include h hwrite in
theorem keeps_changelog (file : String) (title : Option String) :
    Keeps R ((Changelog.step file title).apply s phase) := by
  simp only [Changelog.step]
  split
  · exact keeps_pure _
  · rename_i hreal
    have hw := hwrite (Bool.eq_false_iff.mpr hreal)
    refine keeps_bind (keeps_pathExists _) fun found => ?_
    have hwritten (text report : String) : Keeps R (do
        makeDirectories (s.root.join (.ofText file)).parent
        writeText (s.root.join (.ofText file)) text
        return report) := by
      refine keeps_bind (keeps_makeDirectories h hw _) fun _ => ?_
      exact keeps_bind (keeps_writeText h hw _ _) fun _ => keeps_pure _
    split
    · refine keeps_bind (keeps_readText _) fun current => ?_
      exact keeps_bind keeps_release fun r => hwritten _ _
    · refine keeps_bind (keeps_pure _) fun current => ?_
      exact keeps_bind keeps_release fun r => hwritten _ _

include h in
theorem keeps_runCommand {command : String} (hscript : may ["bash", "-c", Shell.script command])
    (report : String) (cwd : Option String) : Keeps R (do
    let environment := (← get).environment
    let path := match cwd with
      | none => s.root
      | some dir => s.root.join (environment.path dir)
    let _ ← Shell.run s command (some path)
    return report) := by
  refine keeps_bind keeps_get fun w => ?_
  exact keeps_bind (Shell.keeps_run h hscript) fun _ => keeps_pure _

include h in
theorem keeps_exec (hscript : s.dryRun = false → ∀ text, may ["bash", "-c", text]) (commands : List (Phase × String)) (cwd : Option String) :
    Keeps R ((Exec.step commands cwd).apply s phase) := by
  simp only [Exec.step]
  split
  · exact keeps_throw _
  · refine keeps_bind (keeps_fillIn _) fun command => ?_
    split
    · exact keeps_pure _
    · rename_i hreal
      exact keeps_runCommand h (hscript (Bool.eq_false_iff.mpr hreal) _) _ _

include h in
theorem keeps_assetsOf (values : Value) (spec : GitHubRelease.AssetSpec) :
    Keeps R (GitHubRelease.assetsOf s values spec) := by
  refine keeps_bind keeps_get fun w => keeps_bind (keeps_ofExcept _) fun pattern => ?_
  refine keeps_bind (keeps_ofExcept _) fun found => ?_
  split
  · exact keeps_bind (keeps_log h _ _) fun _ => keeps_pure _
  · refine keeps_bind ?_ fun _ => keeps_pure _
    cases spec.label with
    | none => exact keeps_pure _
    | some text => exact keeps_bind (keeps_ofExcept _) fun _ => keeps_pure _

include h in
theorem keeps_verify (hlogin : s.dryRun = false → may ["gh", "auth", "status"]) : Keeps R (GitHubRelease.verify s) := by
  rw [GitHubRelease.verify]
  split
  · exact keeps_pure _
  · rename_i hreal
    have hmay := hlogin (Bool.eq_false_iff.mpr hreal)
    refine keeps_bind (GitHub.keeps_authStatus h hmay) fun answer => ?_
    obtain ⟨ok, detail⟩ := answer
    cases ok with
    | false => exact keeps_throw_bind _ _
    | true => exact keeps_pure _

include h hmay in
theorem keeps_publishTag (hreal : s.dryRun = false) (specs : List GitHubRelease.AssetSpec)
    (tag : String) : Keeps R (GitHubRelease.publishTag s specs tag) := by
  refine keeps_bind keeps_release fun r => keeps_bind (keeps_ofExcept _) fun values => ?_
  refine keeps_bind (keeps_mapM (keeps_assetsOf h values) specs) fun assets => ?_
  refine keeps_bind keeps_release fun r => ?_
  exact keeps_bind (GitHub.keeps_createRelease h (hmay hreal _ (.publish _))) fun _ => keeps_pure _

include h hmay in
theorem keeps_github (specs : List GitHubRelease.AssetSpec) :
    Keeps R ((GitHubRelease.step specs).apply s phase) := by
  simp only [GitHubRelease.step]
  split
  · exact keeps_verify h fun hreal => hmay hreal _ .login
  · refine keeps_bind keeps_release fun r => ?_
    split
    · exact keeps_throw _
    · split
      · exact keeps_pure _
      · rename_i hreal
        exact keeps_publishTag h hmay (Bool.eq_false_iff.mpr hreal) _ _

section Commit

variable (hpush : Keeps R (do Git.push s s.remote (← Action.release).branch))

include h hpush

theorem keeps_commitMessage {changed : List String} {message : String}
    (hadd : s.dryRun = false → may ("git" :: "add" :: "--force" :: "--ignore-errors" :: "--" :: changed))
    (hcommit : s.dryRun = false → may ["git", "commit", "-m", message]) (report : String) :
    Keeps R (do
      Git.add s changed
      Git.commit s message
      Git.push s s.remote (← Action.release).branch
      return report) := by
  refine keeps_bind (Git.keeps_change h hadd) fun _ => ?_
  refine keeps_bind (Git.keeps_change h hcommit) fun _ => ?_
  rw [← bind_assoc]
  exact keeps_bind hpush fun _ => keeps_pure _

include hmay

theorem keeps_commitFiles (changed : List String) (message report : String) : Keeps R (do
    let message ← Options.fillIn message
    Git.add s changed
    Git.commit s message
    Git.push s s.remote (← Action.release).branch
    return report) :=
  keeps_bind (keeps_fillIn message) fun message =>
    keeps_commitMessage h hpush (fun hreal => hmay hreal _ (.add _))
      (fun hreal => hmay hreal _ (.commit message)) report

theorem keeps_commit {assets : List String} (hstatus : may ("git" :: Git.statusListing assets))
    (message : String) : Keeps R ((GitCommit.step assets message).apply s phase) := by
  refine keeps_bind (Git.keeps_changedFiles h hstatus) fun changed => ?_
  split
  · exact keeps_pure _
  · split
    · exact keeps_pure _
    · exact keeps_commitFiles h hmay hpush _ _ _

end Commit

include h hwrite in
theorem keeps_setVersion (hreal : s.dryRun = false) (version : String) (path : Path) :
    Keeps R (CargoVersion.setVersion version path) := by
  refine keeps_bind (keeps_pathExists _) fun found => ?_
  cases found with
  | false => exact keeps_throw_bind _ _
  | true =>
    refine keeps_bind (keeps_readText _) fun text => ?_
    split
    rename_i updated changed _
    cases changed with
    | false => exact keeps_throw_bind _ _
    | true => exact keeps_writeText h (hwrite hreal) _ _

include h hwrite in
theorem keeps_setVersions (hreal : s.dryRun = false) (version report : String)
    (files : List String) : Keeps R (do
    files.forM fun file => CargoVersion.setVersion version (s.root.join (.ofText file))
    return report) :=
  keeps_bind (keeps_forM fun _ _ => keeps_setVersion h hwrite hreal version _)
    fun _ => keeps_pure report

include h hwrite in
theorem keeps_manifests (files : List String) :
    Keeps R ((CargoVersion.step files).apply s phase) := by
  refine keeps_bind keeps_nextText fun version => ?_
  split
  · exact keeps_pure _
  · rename_i hreal
    exact keeps_setVersions h hwrite (Bool.eq_false_iff.mpr hreal) _ _ files

end Parts

/-- The commands of the known steps. -/
def StepCommand (dryRun : Bool) (argv : List String) : Prop :=
  (∃ paths, argv = "git" :: Git.statusListing paths) ∨ (dryRun = false ∧ StepWork argv)

/-- The relation allows all that the known steps do. -/
structure AdmitsSteps (R : World → World → Prop) (s : Settings) : Prop extends
    Admits R (s.dryRun = false) (StepCommand s.dryRun) where
  bump : ∀ w bump, R w { w with release := { w.release with bump } }
  notes : ∀ w notes, R w { w with release := { w.release with notes } }
  /-- The release commit goes to the branch of the release. -/
  push : s.dryRun = false → ∀ w c, c.argv = "git" :: Git.branchPush s.remote w.release.branch →
    R w (w.executed c)

/-- What the known steps do in any phase. -/
theorem keeps_apply {st : Step} (h : AdmitsSteps R s) (hst : st.Known) :
    Keeps R (st.apply s phase) := by
  have hwork : s.dryRun = false → ∀ argv, StepWork argv → StepCommand s.dryRun argv :=
    fun hreal argv hargv => Or.inr ⟨hreal, hargv⟩
  cases hst with
  | analysis rules =>
    refine keeps_bind keeps_release fun r => ?_
    exact keeps_bind (fun w => h.bump w _) fun _ => keeps_pure _
  | notes types url =>
    refine keeps_bind keeps_release fun r => keeps_bind keeps_nextText fun version => ?_
    exact keeps_bind (fun w => h.notes w _) fun _ => keeps_pure _
  | changelog file title => exact keeps_changelog h.toAdmits id file title
  | exec commands cwd =>
    exact keeps_exec h.toAdmits (fun hreal text => hwork hreal _ (.script text)) commands cwd
  | github specs => exact keeps_github h.toAdmits hwork specs
  | commit assets message =>
    exact keeps_commit h.toAdmits hwork (Git.keeps_push h.message h.push) (Or.inl ⟨assets, rfl⟩)
      message
  | manifests files => exact keeps_manifests h.toAdmits id files

end ReleasePipeline
