import Mathlib.Logic.Relation
import ReleasePipeline.Proofs.Commit.Notes
import ReleasePipeline.Proofs.Manifest.Site
import ReleasePipeline.Proofs.Plugin.Effects
import ReleasePipeline.Proofs.Template

/-! What the known steps do once the version of a release and its tag are decided on: every deed is
for that version and that tag. -/
namespace ReleasePipeline

open ReleasePipeline.Action

/-- The labels of assets are those of specifications, filled in for a release. -/
def GitHubRelease.Labelled (r : Release) (specs : List AssetSpec) (assets : List GitHub.Asset) :
    Prop :=
  ∀ a ∈ assets, ∀ label, a.label = some label → ∃ spec ∈ specs, ∃ text, spec.label = some text ∧
    Options.filled text r = .ok label

section Parts

/-! What a step does where the release is `r`, which only the notes change. -/

variable {R : World → World → Prop} [IsPreorder World R] {may : List String → Prop} {s : Settings}
  {phase : Phase} {r : Release}

theorem keeps_update {file report current : String} {title : Option String}
    (hdirectories : ∀ w p, R w { w with files := (w.files.makeDirectories w.here p.names.length p).1 })
    (hupdate : ∀ w current files, w.release = r → w.files.write w.here (s.root.join (.ofText file))
      (Changelog.updated title w.release.notes current).toUTF8 = .ok files → R w { w with files }) :
    Keeps (Under (· = r) R) (do
      let text := Changelog.updated title (← Action.release).notes current
      makeDirectories (s.root.join (.ofText file)).parent
      writeText (s.root.join (.ofText file)) text
      return report) := by
  refine keeps_release_bind fun r' hr' => ?_
  subst hr'
  refine keeps_bind (fun w => ?_) fun _ => ?_
  · rw [after_makeDirectories]
    exact fun hw => ⟨hw, hdirectories w _⟩
  · refine keeps_bind (fun w => after_writeText fun files hwrite hw => ?_) fun _ => keeps_pure report
    subst hw
    exact ⟨rfl, hupdate w current files rfl hwrite⟩

theorem keeps_changelog_at {file : String} {title : Option String}
    (hdirectories : ∀ w p, R w { w with files := (w.files.makeDirectories w.here p.names.length p).1 })
    (hupdate : ∀ w current files, w.release = r → w.files.write w.here (s.root.join (.ofText file))
      (Changelog.updated title w.release.notes current).toUTF8 = .ok files → R w { w with files }) :
    Keeps (Under (· = r) R) ((Changelog.step file title).apply s phase) := by
  simp only [Changelog.step]
  split
  · exact keeps_pure _
  · refine keeps_bind (keeps_pathExists _) fun found => ?_
    split
    · exact keeps_bind (keeps_readText _) fun _ => keeps_update hdirectories hupdate
    · exact keeps_bind (keeps_pure _) fun _ => keeps_update hdirectories hupdate

theorem keeps_manifests_at {files : List String}
    (hset : ∀ w file version text updated changed, file ∈ files → r.nextText = .ok version →
      Manifest.setVersion text version = (updated, true) →
      readText (s.root.join (.ofText file)) w = .ok text w →
      w.files.write w.here (s.root.join (.ofText file)) updated.toUTF8 = .ok changed →
      R w { w with files := changed }) :
    Keeps (Under (· = r) R) ((CargoVersion.step files).apply s phase) := by
  refine keeps_nextText_bind fun r' version hr' hversion => ?_
  subst hr'
  split
  · exact keeps_pure _
  · refine keeps_bind (keeps_forM fun file hfile => ?_) fun _ => keeps_pure _
    refine keeps_bind (keeps_pathExists _) fun found => ?_
    cases found with
    | false => exact keeps_throw_bind _ _
    | true =>
      refine keeps_readText_bind fun w text hread => ?_
      split
      rename_i updated changed hupdated
      cases changed with
      | false => exact refl_of (Under (· = r') R) w
      | true =>
        refine after_writeText fun written hwrite hw => ⟨hw, ?_⟩
        exact hset w file version text updated written hfile hversion hupdated hread hwrite

section Assets

variable {values : Value} (hvalues : r.values = .ok values)

include hvalues

/-- The labels are filled in while the assets are looked for. -/
theorem meets_assetsOf (spec : GitHubRelease.AssetSpec) :
    Meets (fun w => w.release = r) (GitHubRelease.assetsOf s values spec)
      (fun assets w => GitHubRelease.Labelled r [spec] assets ∧ w.release = r) fun _ => True := by
  refine meets_get_bind fun w _ => ?_
  refine meets_bind (meets_ofExcept fun _ _ => trivial) fun pattern => meets_of_fact fun _ => ?_
  refine meets_bind (meets_ofExcept fun _ _ => trivial) fun found => meets_of_fact fun _ => ?_
  split
  · refine meets_bind (Q := fun _ w => w.release = r) (fun _ h => h) fun _ => ?_
    exact meets_pure fun w hw => ⟨fun _ ha => absurd ha List.not_mem_nil, hw⟩
  · cases hlabel : spec.label with
    | none =>
      refine meets_pure fun w hw => ⟨fun a ha label h => ?_, hw⟩
      obtain ⟨path, -, rfl⟩ := List.mem_map.mp ha
      cases h
    | some text =>
      have hfilled : Meets (fun w => w.release = r) ((some text).mapM fun text =>
            Action.ofExcept ((Template.render text values).mapError Failure.template))
          (fun found w => (∀ label, found = some label → Options.filled text r = .ok label) ∧
            w.release = r) fun _ => True := by
        refine meets_bind (meets_ofExcept fun _ _ => trivial) fun out => ?_
        refine meets_of_fact fun hout => meets_pure fun w hw => ⟨?_, hw⟩
        rintro label ⟨⟩
        exact Template.filled_eq_ok_iff.mpr ⟨values, hvalues, mapError_eq_ok.mp hout⟩
      refine meets_bind hfilled fun found => meets_of_fact fun hfound => ?_
      refine meets_pure fun w hw => ⟨fun a ha label h => ?_, hw⟩
      obtain ⟨path, -, rfl⟩ := List.mem_map.mp ha
      exact ⟨spec, List.mem_cons_self, text, hlabel, hfound label h⟩

theorem meets_assets (specs : List GitHubRelease.AssetSpec) :
    Meets (fun w => w.release = r) (specs.mapM (GitHubRelease.assetsOf s values))
      (fun assets w => GitHubRelease.Labelled r specs assets.flatten ∧ w.release = r)
      fun _ => True := by
  induction specs with
  | nil => exact meets_pure fun w hw => ⟨fun _ ha => absurd ha List.not_mem_nil, hw⟩
  | cons spec specs ih =>
    rw [List.mapM_cons]
    refine meets_bind (meets_assetsOf hvalues spec) fun first => meets_of_fact fun hfirst => ?_
    refine meets_bind ih fun rest => meets_of_fact fun hrest => meets_pure fun w hw => ⟨?_, hw⟩
    intro a ha label hlabel
    rcases List.mem_append.mp ha with ha | ha
    · obtain ⟨spec', hspec', h⟩ := hfirst a ha label hlabel
      exact ⟨spec', List.mem_cons.mpr (.inl (List.mem_singleton.mp hspec')), h⟩
    · obtain ⟨spec', hspec', h⟩ := hrest a ha label hlabel
      exact ⟨spec', List.mem_cons_of_mem _ hspec', h⟩

end Assets

variable (h : Admits R False may)

include h

theorem keeps_exec_at {commands : List (Phase × String)} {cwd : Option String}
    (hscript : ∀ text command, commands.lookup phase = some text →
      Options.filled text r = .ok command → may ["bash", "-c", Shell.script command]) :
    Keeps (Under (· = r) R) ((Exec.step commands cwd).apply s phase) := by
  simp only [Exec.step]
  cases htext : commands.lookup phase with
  | none => exact keeps_throw _
  | some text =>
    refine keeps_fillIn_bind fun r' command hr' hrender => ?_
    subst hr'
    split
    · exact keeps_pure _
    · exact keeps_runCommand (admits_under h) (hscript text command htext hrender) _ _

theorem keeps_publish_at {specs : List GitHubRelease.AssetSpec} (hphase : phase ≠ .verify)
    (hpublish : ∀ tag assets, r.gitTag = some tag → GitHubRelease.Labelled r specs assets →
      may (GitHub.creation tag tag r.prerelease.isSome assets)) :
    Keeps (Under (· = r) R) ((GitHubRelease.step specs).apply s phase) := by
  have hunder := admits_under (k := (· = r)) h
  simp only [GitHubRelease.step, if_neg hphase]
  refine keeps_release_bind fun r' hr' => ?_
  subst hr'
  split
  · exact keeps_throw _
  · rename_i tag htag
    split
    · exact keeps_pure _
    · refine keeps_release_bind fun r₁ hr₁ => keeps_ofExcept_bind fun values hvalues => ?_
      subst hr₁
      refine keeps_bind_of_meets (keeps_mapM (keeps_assetsOf hunder values) specs)
        (meets_assets (mapError_eq_ok.mp hvalues) specs)
        fun assets hassets => keeps_release_bind fun r₂ hr₂ => ?_
      subst hr₂
      exact keeps_bind (GitHub.keeps_createRelease hunder (hpublish tag _ htag hassets)) fun _ =>
        keeps_pure _

theorem keeps_commit_at {assets : List String} {text : String}
    (hstatus : may ("git" :: Git.statusListing assets))
    (hadd : ∀ files, may ("git" :: (["add", "--force", "--ignore-errors", "--"] ++ files)))
    (hcommit : ∀ message, Options.filled text r = .ok message →
      may ["git", "commit", "-m", message])
    (hpush : may ("git" :: Git.branchPush s.remote r.branch)) :
    Keeps (Under (· = r) R) ((GitCommit.step assets text).apply s phase) := by
  have hunder := admits_under (k := (· = r)) h
  refine keeps_bind (Git.keeps_changedFiles hunder hstatus) fun changed => ?_
  split
  · exact keeps_pure _
  · split
    · exact keeps_pure _
    · refine keeps_fillIn_bind fun r' message hr' hrender => ?_
      subst hr'
      have hpushed : Keeps (Under (· = r') R) (do
          Git.push s s.remote (← Action.release).branch) := by
        refine keeps_release_bind fun r₁ hr₁ => ?_
        subst hr₁
        exact Git.keeps_change hunder fun _ => hpush
      exact keeps_commitMessage hunder hpushed (fun _ => hadd changed)
        (fun _ => hcommit message hrender) _

end Parts

/-- The version and the tag are decided on, for releases of the version's channel. -/
structure Release.Settled (v : Version) (tag : String) (r : Release) : Prop where
  version : r.nextVersion = some v
  tag : r.gitTag = some tag
  prerelease : r.prerelease = v.channel

/-- The commands that a step executes in a phase for a version with its tag. -/
inductive Order (v : Version) (tag : String) (s : Settings) (phase : Phase) :
    Step → List String → Prop
  | script {commands : List (Phase × String)} {cwd : Option String} {text command : String}
    (htext : commands.lookup phase = some text)
    (hcommand : Template.Filled v.text tag text command) :
    Order v tag s phase (Exec.step commands cwd) ["bash", "-c", Shell.script command]
  | publish {specs : List GitHubRelease.AssetSpec} {assets : List GitHub.Asset}
    (hlabels : ∀ a ∈ assets, ∀ label, a.label = some label → ∃ spec ∈ specs, ∃ text,
      spec.label = some text ∧ Template.Filled v.text tag text label) :
    Order v tag s phase (GitHubRelease.step specs) (GitHub.creation tag tag v.isPrerelease assets)
  | status (paths : List String) (message : String) :
    Order v tag s phase (GitCommit.step paths message) ("git" :: Git.statusListing paths)
  | add {paths : List String} {message : String} (files : List String) :
    Order v tag s phase (GitCommit.step paths message)
      ("git" :: (["add", "--force", "--ignore-errors", "--"] ++ files))
  | commit {paths : List String} {text message : String}
    (hmessage : Template.Filled v.text tag text message) :
    Order v tag s phase (GitCommit.step paths text) ["git", "commit", "-m", message]
  | push {paths : List String} {message : String} (branch : String) :
    Order v tag s phase (GitCommit.step paths message) ("git" :: Git.branchPush s.remote branch)

/-- What a step does to the world in a phase for a version with its tag. -/
inductive Deed (v : Version) (tag : String) (s : Settings) (phase : Phase) :
    Step → World → World → Prop
  | message (st : Step) (w : World) (level : Level) (text : String) :
    Deed v tag s phase st w (w.recorded (.message level text))
  | notes {types : List NoteType} {url : Option String} {notes : String} (w : World)
    (h : Notes.Headed v.text tag notes) :
    Deed v tag s phase (NotesGenerator.step types url) w
      { w with release := { w.release with notes } }
  | directories {file : String} {title : Option String} (w : World) (p : Path) :
    Deed v tag s phase (Changelog.step file title) w
      { w with files := (w.files.makeDirectories w.here p.names.length p).1 }
  | changelog {file current : String} {title : Option String} {w : World} {files : FileTree}
    (h : w.files.write w.here (s.root.join (.ofText file))
      (Changelog.updated title w.release.notes current).toUTF8 = .ok files) :
    Deed v tag s phase (Changelog.step file title) w { w with files }
  | manifest {manifests : List String} {file text updated : String} {w : World} {files : FileTree}
    (hfile : file ∈ manifests) (hread : readText (s.root.join (.ofText file)) w = .ok text w)
    (hset : Manifest.Sets v.text.toList text.toList updated.toList)
    (h : w.files.write w.here (s.root.join (.ofText file)) updated.toUTF8 = .ok files) :
    Deed v tag s phase (CargoVersion.step manifests) w { w with files }
  | run {st : Step} {c : Command} (w : World) (h : Order v tag s phase st c.argv) :
    Deed v tag s phase st w (w.executed c)

variable {v : Version} {tag : String} {s : Settings} {phase : Phase} {st : Step} {w w' : World}
  {r : Release}

theorem Release.Settled.eq_of_nextText (h : r.Settled v tag) {version : String}
    (hversion : r.nextText = .ok version) : version = v.text := by
  rw [Release.nextText, h.version] at hversion
  exact (Version.written_eq_ok_iff.mp hversion).2

theorem Release.Settled.isPrerelease_eq (h : r.Settled v tag) :
    r.prerelease.isSome = v.isPrerelease := by
  rw [h.prerelease]
  rfl

theorem Release.Settled.filled (h : r.Settled v tag) {text out : String}
    (hfilled : Options.filled text r = .ok out) : Template.Filled v.text tag text out := by
  obtain ⟨values, hvalues, hout⟩ := Template.filled_eq_ok_iff.mp hfilled
  exact Template.filled_of_render h.version h.tag hvalues hout

theorem settled_of_deed (h : Deed v tag s phase st w w') (hw : w.release.Settled v tag) :
    w'.release.Settled v tag := by
  cases h <;> exact ⟨hw.version, hw.tag, hw.prerelease⟩

/-- Deeds of a step, one after the other. -/
def Deeds (v : Version) (tag : String) (s : Settings) (phase : Phase) (st : Step) :
    World → World → Prop := Relation.ReflTransGen (Deed v tag s phase st)

instance : IsPreorder World (Deeds v tag s phase st) where
  refl _ := .refl
  trans _ _ _ := .trans

theorem settled_of_deeds (h : Deeds v tag s phase st w w') (hw : w.release.Settled v tag) :
    w'.release.Settled v tag := by
  induction h with
  | refl => exact hw
  | tail _ hdeed ih => exact settled_of_deed hdeed ih

theorem admits_deeds : Admits (Deeds v tag s phase st) False (Order v tag s phase st) where
  message w level text := .single (.message st w level text)
  files := False.elim
  run w _ h := .single (.run w h)

theorem deeds_of_known (hst : st.Known) (hphase : phase ∈ st.phases) (hverify : phase ≠ .verify)
    (hanalyze : phase ≠ .analyze) :
    Keeps (Under (Release.Settled v tag) (Deeds v tag s phase st)) (st.apply s phase) := by
  have hat (hkeeps : ∀ r, r.Settled v tag →
      Keeps (Under (· = r) (Deeds v tag s phase st)) (st.apply s phase)) :
      Keeps (Under (Release.Settled v tag) (Deeds v tag s phase st)) (st.apply s phase) := by
    intro w hw
    have hdeeds := (hkeeps w.release hw w rfl).2
    exact ⟨settled_of_deeds hdeeds hw, hdeeds⟩
  cases hst with
  | analysis rules => exact absurd (List.mem_singleton.mp hphase) hanalyze
  | notes types url =>
    refine keeps_release_bind fun r hr => keeps_nextText_bind fun r' version hr' hversion => ?_
    refine keeps_bind (fun w hw => ?_) fun _ => keeps_pure _
    let heading : Notes.Release :=
      { version, date := r.date, previousTag := r.lastTag, tag := r.gitTag, repositoryUrl := url }
    have hheaded : Notes.Headed v.text tag (Notes.render types r.commits heading) := by
      rw [← hr'.eq_of_nextText hversion]
      exact Notes.headed_render (r := heading) hr.tag
    have hdeed : Deed v tag s phase (NotesGenerator.step types url) w _ := .notes w hheaded
    exact ⟨settled_of_deed hdeed hw, .single hdeed⟩
  | changelog file title =>
    exact hat fun r hr => keeps_changelog_at (fun w p => .single (.directories w p))
      fun w current files _ hwrite => .single (.changelog hwrite)
  | exec commands cwd =>
    exact hat fun r hr => keeps_exec_at admits_deeds fun text command htext hrender =>
      .script htext (hr.filled hrender)
  | github specs =>
    refine hat fun r hr => keeps_publish_at admits_deeds hverify fun tag' assets htag hlabels => ?_
    obtain rfl : tag' = tag := Option.some.inj (htag.symm.trans hr.tag)
    rw [hr.isPrerelease_eq]
    refine .publish fun a ha label hlabel => ?_
    obtain ⟨spec, hspec, text, htext, hrender⟩ := hlabels a ha label hlabel
    exact ⟨spec, hspec, text, htext, hr.filled hrender⟩
  | commit assets message =>
    exact hat fun r hr => keeps_commit_at admits_deeds (.status assets message) .add
      (fun _ hrender => .commit (hr.filled hrender)) (.push _)
  | manifests files =>
    refine hat fun r hr => keeps_manifests_at ?_
    intro w file version text updated changed hfile hversion hupdated hread hwrite
    obtain rfl := hr.eq_of_nextText hversion
    exact .single (.manifest hfile hread (Manifest.sets_of_setVersion hupdated) hwrite)

end ReleasePipeline
