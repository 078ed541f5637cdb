import ReleasePipeline.Proofs.Files.Spelling
import ReleasePipeline.Proofs.Plugin.Staging

/-! Which files a release is published with: each argument of the command is the argument of a file that
a pattern stands for. They tell the files apart unless a path has a number sign or two patterns meet. -/
namespace ReleasePipeline

open ReleasePipeline.Action

namespace GitHub

variable {argument file label : String} {a : Asset}

/-- How an argument is read: the file in front of the first number sign, and the label behind it. -/
def readArgument (argument : String) : String × Option String :=
  match argument.toList.dropWhile (· ≠ '#') with
  | [] => (argument, none)
  | _ :: label =>
    (String.ofList (argument.toList.takeWhile (· ≠ '#')), some (String.ofList label))

theorem readArgument_of_notMem (h : '#' ∉ argument.toList) :
    readArgument argument = (argument, none) := by
  have hrest : argument.toList.dropWhile (· ≠ '#') = [] :=
    List.dropWhile_eq_nil_iff.mpr fun c hc => by simpa using ne_of_mem_of_not_mem hc h
  rw [readArgument, hrest]

theorem readArgument_append (h : '#' ∉ file.toList) (label : String) :
    readArgument s!"{file}#{label}" = (file, some label) := by
  have hplain : ∀ c ∈ file.toList, (c ≠ '#') = true := fun c hc => by
    simpa using ne_of_mem_of_not_mem hc h
  have hchars : (s!"{file}#{label}").toList = file.toList ++ '#' :: label.toList := by
    show (file ++ "#" ++ label).toList = _
    rw [String.toList_append, String.toList_append, List.append_assoc]
    rfl
  rw [readArgument, hchars, List.dropWhile_append_of_pos (by simpa using hplain),
    List.takeWhile_append_of_pos (by simpa using hplain)]
  simp

/-- No file is read that has a number sign. -/
theorem notMem_readArgument (argument : String) : '#' ∉ (readArgument argument).1.toList := by
  rw [readArgument]
  split
  · rename_i hrest
    intro hmem
    simpa using List.dropWhile_eq_nil_iff.mp hrest _ hmem
  · rw [String.toList_ofList]
    intro hmem
    simpa using List.mem_takeWhile_imp hmem

/-- The label of an asset, unless it is empty. -/
def Asset.shown (a : Asset) : Option String := a.label.bind Commit.nonEmpty?

/-- The argument of an asset is read back if the path has no number sign. -/
theorem readArgument_argument (h : '#' ∉ a.path.text.toList) :
    readArgument a.argument = (a.path.text, a.shown) := by
  rw [Asset.argument, Asset.shown]
  cases a.label.bind Commit.nonEmpty? with
  | none => exact readArgument_of_notMem h
  | some label => exact readArgument_append h label

end GitHub

namespace GitHubRelease

variable {s : Settings} {w w' : World} {spec : AssetSpec} {specs : List AssetSpec} {p q : Path}
  {pattern : PathPattern} {tag : String} {options : Table} {st : Step} {names : List String}
  {values : Value} {paths : List Path} {e : Failure}

/-- The label of a specification, filled in for a release. -/
def labelFor (r : Release) (spec : AssetSpec) : Option String :=
  spec.label.bind fun text => (Options.filled text r).toOption

/-- The pattern of a specification stands for the file. -/
def Matched (s : Settings) (w : World) (spec : AssetSpec) (p : Path) : Prop :=
  ∃ pattern, PathPattern.ofText spec.pattern = .ok pattern ∧
    w.files.look w.here s.root = .ok .directory ∧
    PathPattern.Leads w.files w.here pattern.onlyDirectories s.root pattern.parts p ∧
    w.files.isFile w.here p = .ok true

/-- Why the files of a specification are not found out: it is no pattern, or the search for them comes to
a path that is too long. -/
inductive Refused (s : Settings) (w : World) (spec : AssetSpec) : Failure → Prop
  | pattern (e : PatternError) (h : PathPattern.ofText spec.pattern = .error e) :
    Refused s w spec (.step (.pattern e))
  | overlong (pattern : PathPattern) (h : PathPattern.ofText spec.pattern = .ok pattern)
    (hfails : pattern.Fails w.files w.here s.root) : Refused s w spec (.file .nameTooLong)

/-- The search for the files of a specification. -/
def searchFor (s : Settings) (w : World) (spec : AssetSpec) : Except Failure (List Path) := do
  let pattern ← (PathPattern.ofText spec.pattern).mapError (.step ∘ .pattern)
  (pattern.files w.files w.here s.root).mapError .file

/-- The files of a specification in ascending order, none where the search for them fails. -/
def pathsFor (s : Settings) (w : World) (spec : AssetSpec) : List Path :=
  (searchFor s w spec).toOption.getD []

/-- The files of a specification with its label. -/
def assetsFor (s : Settings) (w : World) (spec : AssetSpec) : List GitHub.Asset :=
  (pathsFor s w spec).map (⟨·, labelFor w.release spec⟩)

theorem searchFor_eq_ok_iff : searchFor s w spec = .ok paths ↔ ∃ pattern,
    PathPattern.ofText spec.pattern = .ok pattern ∧
      pattern.files w.files w.here s.root = .ok paths := by
  rw [searchFor, bind_eq_ok]
  exact exists_congr fun pattern => and_congr mapError_eq_ok mapError_eq_ok

theorem searchFor_eq_error_iff (hregular : w.files.Regular) :
    searchFor s w spec = .error e ↔ Refused s w spec e := by
  have hfiles (pattern : PathPattern) {fault : FileFault} :
      pattern.files w.files w.here s.root = .error fault ↔
        pattern.Fails w.files w.here s.root ∧ fault = .nameTooLong :=
    (PathPattern.finds_files hregular pattern w.here s.root).eq_error_iff
  rw [searchFor, bind_eq_error]
  constructor
  · rintro (h | ⟨pattern, h, hsearch⟩)
    · obtain ⟨fault, hpattern, rfl⟩ := mapError_eq_error.mp h
      exact .pattern fault hpattern
    · obtain ⟨fault, hfault, rfl⟩ := mapError_eq_error.mp hsearch
      obtain ⟨hfails, rfl⟩ := (hfiles pattern).mp hfault
      exact .overlong pattern (mapError_eq_ok.mp h) hfails
  · rintro (⟨fault, h⟩ | ⟨pattern, h, hfails⟩)
    · exact .inl (mapError_eq_error.mpr ⟨fault, h, rfl⟩)
    · have hfault := (hfiles pattern).mpr ⟨hfails, rfl⟩
      exact .inr ⟨pattern, mapError_eq_ok.mpr h, mapError_eq_error.mpr ⟨_, hfault, rfl⟩⟩

theorem exists_searchFor (hregular : w.files.Regular) (h : ∀ e, ¬ Refused s w spec e) :
    ∃ paths, searchFor s w spec = .ok paths := by
  cases hfound : searchFor s w spec with
  | ok paths => exact ⟨paths, rfl⟩
  | error e => exact absurd ((searchFor_eq_error_iff hregular).mp hfound) (h e)

/-- Messages are all that the world has more. -/
def Told (w w' : World) : Prop :=
  ∃ es, commandsOf es = [] ∧ w' = { w with events := w.events ++ es }

theorem told_refl (w : World) : Told w w := ⟨[], rfl, by simp⟩

theorem Told.trans {w'' : World} (h : Told w w') (h' : Told w' w'') : Told w w'' := by
  obtain ⟨es, hes, rfl⟩ := h
  obtain ⟨fs, hfs, rfl⟩ := h'
  exact ⟨es ++ fs, by rw [commandsOf_append, hes, hfs]; rfl, by simp⟩

theorem Told.searchFor_eq (h : Told w w') : searchFor s w' = searchFor s w := by
  obtain ⟨es, -, rfl⟩ := h
  rfl

theorem Told.assetsFor_eq (h : Told w w') : assetsFor s w' = assetsFor s w := by
  obtain ⟨es, -, rfl⟩ := h
  rfl

theorem Told.release_eq (h : Told w w') : w'.release = w.release := by
  obtain ⟨es, -, rfl⟩ := h
  rfl

theorem Told.issued (h : Told w w') : Issued w [] w' := by
  obtain ⟨es, hes, rfl⟩ := h
  exact ⟨rfl, es, rfl, by rw [hes]; rfl⟩

theorem render_label (hvalues : w.release.values = .ok values)
    (hknown : ∀ text, spec.label = some text → Template.Known text) :
    (spec.label.mapM fun text => ofExcept ((Template.render text values).mapError .template)) w =
      .ok (labelFor w.release spec) w := by
  rw [labelFor]
  cases hlabel : spec.label with
  | none => rfl
  | some text =>
    obtain ⟨out, hout⟩ := Template.exists_render_of_values (hknown text hlabel) hvalues
    have hfilled : Options.filled text w.release = .ok out :=
      Template.filled_eq_ok_iff.mpr ⟨values, hvalues, hout⟩
    rw [Option.bind_some, hfilled]
    exact bind_apply_eq_ok.mpr ⟨out, w, by rw [hout]; rfl, rfl⟩

theorem assetsOf_of_ok (hvalues : w.release.values = .ok values)
    (hknown : ∀ text, spec.label = some text → Template.Known text)
    (hfound : searchFor s w spec = .ok paths) :
    ∃ w', assetsOf s values spec w = .ok (assetsFor s w spec) w' ∧ Told w w' := by
  obtain ⟨pattern, hpattern, hfiles⟩ := searchFor_eq_ok_iff.mp hfound
  have hread : ofExcept ((PathPattern.ofText spec.pattern).mapError (.step ∘ .pattern)) w =
      .ok pattern w := by
    rw [hpattern]
    rfl
  have hsearch : ofExcept ((pattern.files w.files w.here s.root).mapError .file) w = .ok paths w := by
    rw [hfiles]
    rfl
  have hassets : assetsFor s w spec = paths.map (⟨·, labelFor w.release spec⟩) := by
    rw [assetsFor, pathsFor, hfound]
    rfl
  rw [hassets]
  cases paths with
  | nil =>
    let skipped := s!"No file matches asset pattern {spec.pattern}; skipping it."
    refine ⟨{ w with events := w.events ++ [.message .warning skipped] }, ?_, _, ?_, rfl⟩
    · exact bind_apply_eq_ok.mpr ⟨w, w, rfl, bind_apply_eq_ok.mpr ⟨pattern, w, hread,
        bind_apply_eq_ok.mpr ⟨[], w, hsearch, rfl⟩⟩⟩
    · rfl
  | cons p paths =>
    refine ⟨w, bind_apply_eq_ok.mpr ⟨w, w, rfl, bind_apply_eq_ok.mpr ⟨pattern, w, hread,
      bind_apply_eq_ok.mpr ⟨p :: paths, w, hsearch, ?_⟩⟩⟩, told_refl w⟩
    exact bind_apply_eq_ok.mpr ⟨_, w, render_label hvalues hknown, rfl⟩

theorem assetsOf_of_error (hfound : searchFor s w spec = .error e) :
    assetsOf s values spec w = .error e w := by
  refine (bind_apply _ _ w).trans ?_
  show (ofExcept ((PathPattern.ofText spec.pattern).mapError _) >>= _) w = _
  rw [searchFor] at hfound
  rw [bind_apply]
  cases hpattern : PathPattern.ofText spec.pattern with
  | error fault =>
    rw [hpattern] at hfound
    cases hfound
    rfl
  | ok pattern =>
    rw [hpattern] at hfound
    change (pattern.files w.files w.here s.root).mapError Failure.file = .error e at hfound
    show (ofExcept ((pattern.files w.files w.here s.root).mapError .file) >>= _) w = _
    rw [hfound]
    rfl

/-- The specifications are looked at one after the other, and only messages are shown on the way. -/
theorem mapM_assetsOf (s : Settings)
    (hknown : ∀ spec ∈ specs, ∀ text, spec.label = some text → Template.Known text) {w : World}
    (hvalues : w.release.values = .ok values) :
    (∀ founds, specs.mapM (searchFor s w) = .ok founds →
      ∃ w', specs.mapM (assetsOf s values) w = .ok (specs.map (assetsFor s w)) w' ∧ Told w w') ∧
    (∀ e, specs.mapM (searchFor s w) = .error e →
      ∃ w', specs.mapM (assetsOf s values) w = .error e w' ∧ Told w w') := by
  induction specs generalizing w with
  | nil => exact ⟨fun _ _ => ⟨w, rfl, told_refl w⟩, by rintro _ ⟨⟩⟩
  | cons spec specs ih =>
    obtain ⟨hspec, hrest⟩ := List.forall_mem_cons.mp hknown
    rw [List.mapM_cons, List.mapM_cons, bind_apply]
    cases hfound : searchFor s w spec with
    | error e =>
      rw [assetsOf_of_error hfound]
      exact ⟨by rintro _ ⟨⟩, by rintro _ ⟨⟩; exact ⟨w, rfl, told_refl w⟩⟩
    | ok paths =>
      obtain ⟨w₁, hfirst, htold⟩ := assetsOf_of_ok hvalues hspec hfound
      obtain ⟨hok, herror⟩ := ih hrest (htold.release_eq ▸ hvalues)
      rw [htold.searchFor_eq] at hok herror
      rw [htold.assetsFor_eq] at hok
      rw [hfirst]
      constructor
      · intro founds h
        obtain ⟨_, _, h⟩ := bind_eq_ok.mp h
        obtain ⟨rest, hfounds, -⟩ := bind_eq_ok.mp h
        obtain ⟨w₂, hassets, htold'⟩ := hok rest hfounds
        exact ⟨w₂, bind_apply_eq_ok.mpr ⟨_, w₂, hassets, rfl⟩, htold.trans htold'⟩
      · intro e h
        obtain h | ⟨_, _, h⟩ := bind_eq_error.mp h
        · cases h
        obtain hfounds | ⟨_, _, h⟩ := bind_eq_error.mp h
        · obtain ⟨w₂, hfails, htold'⟩ := herror e hfounds
          exact ⟨w₂, bind_apply_eq_error.mpr (.inl hfails), htold.trans htold'⟩
        · cases h

theorem publish_apply (hreal : s.dryRun = false) (htag : w.release.gitTag = some tag) :
    (step specs).apply s .publish w = publishTag s specs tag w := by
  have hrelease : Action.release w = .ok w.release w := rfl
  simp only [step, reduceCtorEq, if_false, publish]
  rw [bind_apply, hrelease]
  simp only [htag, hreal, Bool.false_eq_true, if_false]

/-- Without values to fill in nothing is looked up. -/
theorem publish_of_unwritable (hreal : s.dryRun = false) (htag : w.release.gitTag = some tag)
    (h : ¬ w.release.IsWritable) :
    (step specs).apply s .publish w = .error (.numeral .writing) w := by
  have hrelease : Action.release w = .ok w.release w := rfl
  rw [publish_apply hreal htag, publishTag, bind_apply, hrelease]
  simp only [Release.values_eq_error_iff.mpr ⟨h, rfl⟩]
  rfl

theorem publishTag_of_values (hvalues : w.release.values = .ok values) :
    publishTag s specs tag w = (do
      let assets := (← specs.mapM (assetsOf s values)).flatten
      let r ← Action.release
      GitHub.createRelease s tag tag r.notes r.prerelease.isSome assets
      return s!"Published GitHub release {tag} with {assets.length} assets." : Action String) w := by
  have hrelease : Action.release w = .ok w.release w := rfl
  rw [publishTag, bind_apply, hrelease]
  simp only [hvalues]
  rfl

/-- A specification that is refused ends the publication before its command. -/
theorem publish_of_error (hreal : s.dryRun = false) (htag : w.release.gitTag = some tag)
    (hknown : ∀ spec ∈ specs, ∀ text, spec.label = some text → Template.Known text)
    (hvalues : w.release.values = .ok values) (herror : specs.mapM (searchFor s w) = .error e) :
    ∃ w', (step specs).apply s .publish w = .error e w' ∧ Told w w' := by
  obtain ⟨w', hfails, htold⟩ := (mapM_assetsOf s hknown hvalues).2 e herror
  refine ⟨w', ?_, htold⟩
  rw [publish_apply hreal htag, publishTag_of_values hvalues]
  exact bind_apply_eq_error.mpr (.inl hfails)

theorem meets_create (hreal : s.dryRun = false) (w : World) (tag : String)
    (assets : List GitHub.Asset) (report : String) :
    Meets (Issued w []) (do
        let r ← Action.release
        GitHub.createRelease s tag tag r.notes r.prerelease.isSome assets
        return report)
      (fun _ => Issued w [GitHub.creation tag tag w.release.prerelease.isSome assets])
      (Issued w [GitHub.creation tag tag w.release.prerelease.isSome assets]) := by
  intro w₁ h
  have hrelease : Action.release w₁ = .ok w.release w₁ := by
    rw [← h.release]
    rfl
  let issued := Issued w [GitHub.creation tag tag w.release.prerelease.isSome assets]
  have hcreated : Meets (Issued w [])
      (GitHub.createRelease s tag tag w.release.notes w.release.prerelease.isSome assets)
      (fun _ => issued) issued := by
    refine meets_bind (meets_run (.inl hreal) ?_ fun _ h => h) fun _ => meets_pure fun _ h => h
    intro w₂ text h₂
    exact issued_executed h₂ .debug text
      { argv := GitHub.creation tag tag w.release.prerelease.isSome assets
        cwd := some s.root
        input := some w.release.notes }
  have hreported : Meets (Issued w []) (do
      GitHub.createRelease s tag tag w.release.notes w.release.prerelease.isSome assets
      return report) (fun _ => issued) issued :=
    meets_bind hcreated fun _ => meets_pure fun _ h => h
  rw [bind_apply, hrelease]
  exact hreported w₁ h

/-- The one command of a publication has the arguments of all assets. -/
theorem publish_of_ok (hreal : s.dryRun = false) (htag : w.release.gitTag = some tag)
    (hknown : ∀ spec ∈ specs, ∀ text, spec.label = some text → Template.Known text)
    (hvalues : w.release.values = .ok values) {founds : List (List Path)}
    (hfound : specs.mapM (searchFor s w) = .ok founds) :
    Issued w [GitHub.creation tag tag w.release.prerelease.isSome (specs.flatMap (assetsFor s w))]
      (((step specs).apply s .publish).after w) := by
  obtain ⟨w₁, hassets, htold⟩ := (mapM_assetsOf s hknown hvalues).1 founds hfound
  let assets := specs.flatMap (assetsFor s w)
  have hcreated := after_of_meets (meets_create hreal w tag assets
    s!"Published GitHub release {tag} with {assets.length} assets.") htold.issued
  rw [after, publish_apply hreal htag, publishTag_of_values hvalues, bind_apply, hassets]
  exact hcreated

theorem mem_pathsFor (hregular : w.files.Regular) (hsearched : ∀ e, ¬ Refused s w spec e) :
    p ∈ pathsFor s w spec ↔ Matched s w spec p := by
  obtain ⟨paths, hfound⟩ := exists_searchFor hregular hsearched
  obtain ⟨pattern, hpattern, hfiles⟩ := searchFor_eq_ok_iff.mp hfound
  have hmem := PathPattern.finds_files hregular pattern w.here s.root
  rw [hfiles] at hmem
  rw [pathsFor, hfound, Matched]
  simp only [hpattern, Except.ok.injEq, exists_eq_left']
  exact hmem.2 p

theorem nodup_pathsFor (hregular : w.files.Regular) (s : Settings) (spec : AssetSpec) :
    (pathsFor s w spec).Nodup := by
  rw [pathsFor]
  cases hfound : searchFor s w spec with
  | error e => exact List.nodup_nil
  | ok paths =>
    obtain ⟨pattern, -, hfiles⟩ := searchFor_eq_ok_iff.mp hfound
    exact PathPattern.nodup_files hregular hfiles

theorem pairwise_pathsFor (s : Settings) (w : World) (spec : AssetSpec) :
    (pathsFor s w spec).Pairwise fun p q => PathPattern.precedes p q := by
  rw [pathsFor]
  cases hfound : searchFor s w spec with
  | error e => exact List.Pairwise.nil
  | ok paths =>
    obtain ⟨pattern, -, hfiles⟩ := searchFor_eq_ok_iff.mp hfound
    exact PathPattern.pairwise_files hfiles

/-- A file stands below the root, at names of entries and of the pattern. -/
theorem Matched.exists_names (hregular : w.files.Regular) (h : Matched s w spec p) :
    ∃ names, p = ⟨s.root.root, s.root.names ++ names⟩ ∧
      ∀ n ∈ names, FileTree.IsName n ∨ n ∈ Path.namesOf spec.pattern := by
  obtain ⟨pattern, hpattern, -, hleads, -⟩ := h
  obtain ⟨names, hp, hnames⟩ := hleads.exists_names hregular
  exact ⟨names, hp, fun n hn => (hnames n hn).imp_right (PathPattern.mem_namesOf_of_ofText hpattern)⟩

theorem Matched.exists_place (h : Matched s w spec p) : ∃ place, w.files.place w.here p = .ok place := by
  obtain ⟨pattern, -, -, -, hfile⟩ := h
  cases hplace : w.files.place w.here p with
  | ok place => exact ⟨place, rfl⟩
  | error fault =>
    have hlook : w.files.look w.here p = .error fault := by
      rw [FileTree.look, hplace]
      rfl
    rw [FileTree.isFile, FileTree.look?, hlook] at hfile
    cases fault <;> cases hfile

/-- The place of the file that was read from an argument. -/
def placeOf (w : World) (read : String × Option String) : Except FileFault Place :=
  w.files.place w.here (.ofText read.1)

/-- The arguments, as they are read, are the files of the patterns, each once and with the label of its
specification if that has one. -/
structure GivesBack (s : Settings) (w : World) (specs : List AssetSpec) (args : List String) :
    Prop where
  files : ∀ file label, (file, label) ∈ args.map GitHub.readArgument ↔
    ∃ spec ∈ specs, ∃ p, Matched s w spec p ∧ file = p.text ∧
      label = (labelFor w.release spec).bind Commit.nonEmpty?
  once : ((args.map GitHub.readArgument).map (placeOf w)).Nodup

/-- No file has a number sign in its path. -/
def Unmarked (s : Settings) (w : World) (specs : List AssetSpec) : Prop :=
  ∀ spec ∈ specs, ∀ p, Matched s w spec p → '#' ∉ p.text.toList

/-- The patterns stand for no file twice, each for itself and all together. -/
structure Apart (s : Settings) (w : World) (specs : List AssetSpec) : Prop where
  each : ∀ spec ∈ specs, ∀ p q, Matched s w spec p → Matched s w spec q →
    w.files.place w.here p = w.files.place w.here q → p = q
  all : specs.Pairwise fun spec spec' => ∀ p q, Matched s w spec p → Matched s w spec' q →
    w.files.place w.here p ≠ w.files.place w.here q

/-- No specification is refused. -/
def Searched (s : Settings) (w : World) (specs : List AssetSpec) : Prop :=
  ∀ spec ∈ specs, ∀ e, ¬ Refused s w spec e

/-- The arguments of the files of all specifications, in their order. -/
def argumentsFor (s : Settings) (w : World) (specs : List AssetSpec) : List String :=
  specs.flatMap fun spec =>
    (pathsFor s w spec).map fun p => GitHub.Asset.argument ⟨p, labelFor w.release spec⟩

theorem map_argument (s : Settings) (w : World) (specs : List AssetSpec) :
    (specs.flatMap (assetsFor s w)).map GitHub.Asset.argument = argumentsFor s w specs := by
  rw [List.map_flatMap, argumentsFor]
  simp only [assetsFor, List.map_map, Function.comp_def]

section Reading

variable (hregular : w.files.Regular) (hsearched : Searched s w specs)

include hregular hsearched

/-- Arguments of files without number signs are read back with their labels. -/
theorem map_readArgument (hunmarked : Unmarked s w specs) :
    (argumentsFor s w specs).map GitHub.readArgument = specs.flatMap fun spec =>
      (pathsFor s w spec).map fun p => (p.text, (labelFor w.release spec).bind Commit.nonEmpty?) := by
  rw [argumentsFor, List.map_flatMap]
  refine List.flatMap_congr fun spec hspec => ?_
  rw [List.map_map]
  refine List.map_congr_left fun p hp => ?_
  have hmatched := (mem_pathsFor hregular (hsearched spec hspec)).mp hp
  exact GitHub.readArgument_argument (hunmarked spec hspec p hmatched)

/-- The files are told apart by the places to which their paths lead. -/
theorem nodup_places_iff :
    (specs.flatMap fun spec => (pathsFor s w spec).map (w.files.place w.here)).Nodup ↔
      Apart s w specs := by
  have hmem {spec : AssetSpec} (hspec : spec ∈ specs) {p : Path} :
      p ∈ pathsFor s w spec ↔ Matched s w spec p := mem_pathsFor hregular (hsearched spec hspec)
  have heach (spec : AssetSpec) (hspec : spec ∈ specs) :
      ((pathsFor s w spec).map (w.files.place w.here)).Nodup ↔
      ∀ p q, Matched s w spec p → Matched s w spec q →
        w.files.place w.here p = w.files.place w.here q → p = q := by
    rw [List.nodup_map_iff_inj_on (nodup_pathsFor hregular s spec)]
    constructor
    · intro h p q hp hq
      exact h p ((hmem hspec).mpr hp) q ((hmem hspec).mpr hq)
    · intro h p hp q hq
      exact h p q ((hmem hspec).mp hp) ((hmem hspec).mp hq)
  have hall {spec spec' : AssetSpec} (hspec : spec ∈ specs) (hspec' : spec' ∈ specs) :
      ((pathsFor s w spec).map (w.files.place w.here)).Disjoint
      ((pathsFor s w spec').map (w.files.place w.here)) ↔
      ∀ p q, Matched s w spec p → Matched s w spec' q →
        w.files.place w.here p ≠ w.files.place w.here q := by
    rw [List.disjoint_left, List.forall_mem_map]
    constructor
    · intro h p q hp hq hsame
      exact h p ((hmem hspec).mpr hp) (List.mem_map.mpr ⟨q, (hmem hspec').mpr hq, hsame.symm⟩)
    · intro h p hp hplace
      obtain ⟨q, hq, hsame⟩ := List.mem_map.mp hplace
      exact h p q ((hmem hspec).mp hp) ((hmem hspec').mp hq) hsame.symm
  rw [List.nodup_flatMap]
  constructor
  · rintro ⟨hnodup, hdisjoint⟩
    exact ⟨fun spec hspec => (heach spec hspec).mp (hnodup spec hspec),
      (List.Pairwise.iff_of_mem hall).mp hdisjoint⟩
  · intro h
    exact ⟨fun spec hspec => (heach spec hspec).mpr (h.each spec hspec),
      (List.Pairwise.iff_of_mem hall).mpr h.all⟩

variable (hroot : s.root.root = "/") (hnames : ∀ n ∈ s.root.names, FileTree.IsName n)

include hroot hnames

omit hsearched in
theorem ofText_of_matched (h : Matched s w spec p) : Path.ofText p.text = p := by
  obtain ⟨names, rfl, hbelow⟩ := h.exists_names hregular
  rw [hroot]
  refine Path.ofText_text fun n hn => ?_
  obtain hn | hn := List.mem_append.mp hn
  · exact (hnames n hn).plain
  · exact (hbelow n hn).elim FileTree.IsName.plain Path.plain_of_mem_namesOf

omit hsearched in
/-- A pattern that does not lead upwards stands for no file twice. -/
theorem eq_of_place_eq (hup : ".." ∉ Path.namesOf spec.pattern) (hp : Matched s w spec p)
    (hq : Matched s w spec q) (h : w.files.place w.here p = w.files.place w.here q) : p = q := by
  have hspelled : ∀ {p}, Matched s w spec p →
      p = ⟨"/", p.names⟩ ∧ w.files.place w.here p = .ok p.names := by
    intro p hp
    obtain ⟨place, hplace⟩ := hp.exists_place
    obtain ⟨names, rfl, hbelow⟩ := hp.exists_names hregular
    have hdown : ".." ∉ s.root.names ++ names := by
      rw [List.mem_append]
      rintro (hn | hn)
      · exact (hnames _ hn).ne_up rfl
      · exact (hbelow _ hn).elim (fun h => h.ne_up rfl) hup
    rw [hroot] at hplace ⊢
    exact ⟨rfl, Path.place_of_absolute hdown hplace ▸ hplace⟩
  obtain ⟨hpath, hplace⟩ := hspelled hp
  obtain ⟨hpath', hplace'⟩ := hspelled hq
  rw [hplace, hplace'] at h
  rw [hpath, hpath', Except.ok.inj h]

theorem map_placeOf (hunmarked : Unmarked s w specs) :
    ((argumentsFor s w specs).map GitHub.readArgument).map (placeOf w) =
      specs.flatMap fun spec => (pathsFor s w spec).map (w.files.place w.here) := by
  rw [map_readArgument hregular hsearched hunmarked, List.map_flatMap]
  refine List.flatMap_congr fun spec hspec => ?_
  rw [List.map_map]
  refine List.map_congr_left fun p hp => ?_
  have hmatched := (mem_pathsFor hregular (hsearched spec hspec)).mp hp
  rw [Function.comp_apply, placeOf, ofText_of_matched hregular hroot hnames hmatched]

/-- The arguments give the files back where no path has a number sign and no file is matched twice, and
only there. -/
theorem givesBack_iff : GivesBack s w specs (argumentsFor s w specs) ↔
    Unmarked s w specs ∧ Apart s w specs := by
  constructor
  · intro h
    have hunmarked : Unmarked s w specs := by
      intro spec hspec p hp hmark
      obtain ⟨argument, -, hread⟩ :=
        List.mem_map.mp ((h.files p.text _).mpr ⟨spec, hspec, p, hp, rfl, rfl⟩)
      have hplain := GitHub.notMem_readArgument argument
      rw [hread] at hplain
      exact hplain hmark
    refine ⟨hunmarked, (nodup_places_iff hregular hsearched).mp ?_⟩
    exact map_placeOf hregular hsearched hroot hnames hunmarked ▸ h.once
  · rintro ⟨hunmarked, hapart⟩
    refine ⟨fun file label => ?_, ?_⟩
    · rw [map_readArgument hregular hsearched hunmarked, List.mem_flatMap]
      refine exists_congr fun spec => and_congr_right fun hspec => ?_
      simp only [List.mem_map, mem_pathsFor hregular (hsearched spec hspec), Prod.mk.injEq, eq_comm]
    · rw [map_placeOf hregular hsearched hroot hnames hunmarked]
      exact (nodup_places_iff hregular hsearched).mpr hapart

end Reading

/-- A release whose versions can be written is published by one command, unless a specification is
refused. The first one that is ends the publication before its command. The arguments of the command are
those of the files for which the patterns stand, with the labels filled in. Read back, they are these
files, each once, if no path has a number sign and no file is matched twice, and only then; a pattern that
does not lead upwards matches none twice. -/
theorem arguments_read_back (hbuild : plugin.build options = .ok st) (hreal : s.dryRun = false)
    (htag : w.release.gitTag = some tag) (hregular : w.files.Regular) (hroot : s.root.root = "/")
    (hnames : ∀ n ∈ s.root.names, FileTree.IsName n) :
    ∃ items specs, items? (Options.getOr options "assets" (.list [])) = some items ∧
      (items.zipIdx 1).mapM (fun (v, i) => specOf v i) = .ok specs ∧ st = step specs ∧
      (¬ w.release.IsWritable →
        (∃ w', st.apply s .publish w = .error (.numeral .writing) w') ∧
        commandsOf ((st.apply s .publish).shown w) = []) ∧
      (w.release.IsWritable → ∀ spec ∈ specs, ∀ text, spec.label = some text →
        ∃ label, Options.filled text w.release = .ok label ∧
          labelFor w.release spec = some label) ∧
      (w.release.IsWritable → ∀ before spec after e, specs = before ++ spec :: after →
        Searched s w before → Refused s w spec e →
        (∃ w', st.apply s .publish w = .error e w') ∧
        commandsOf ((st.apply s .publish).shown w) = []) ∧
      (w.release.IsWritable → Searched s w specs →
        ∃ paths : AssetSpec → List Path,
          (∀ spec ∈ specs, ∀ p, p ∈ paths spec ↔ Matched s w spec p) ∧
          (∀ spec ∈ specs, (paths spec).Nodup ∧
            (paths spec).Pairwise fun p q => PathPattern.precedes p q) ∧
          ∃ args, args = (specs.flatMap fun spec =>
              (paths spec).map fun p => GitHub.Asset.argument ⟨p, labelFor w.release spec⟩) ∧
            (commandsOf ((st.apply s .publish).shown w)).map (·.argv) =
              [GitHub.creation tag tag w.release.prerelease.isSome [] ++ args] ∧
            (GivesBack s w specs args ↔ Unmarked s w specs ∧ Apart s w specs)) ∧
      ∀ spec ∈ specs, ".." ∉ Path.namesOf spec.pattern → ∀ p q, Matched s w spec p →
        Matched s w spec q → w.files.place w.here p = w.files.place w.here q → p = q := by
  obtain ⟨items, specs, hitems, hspecs, rfl⟩ := github_of_build hbuild
  have hknown : ∀ spec ∈ specs, ∀ text, spec.label = some text → Template.Known text := by
    intro spec hspec text htext
    obtain ⟨⟨v, index⟩, -, hread⟩ := exists_of_mapM_mem hspecs hspec
    exact known_of_specOf hread htext
  have hvalues (h : w.release.IsWritable) := Release.values_eq_ok_iff.mpr ⟨h, rfl⟩
  have hended {e : Failure} (h : ∃ w', (step specs).apply s .publish w = .error e w' ∧ Told w w') :
      (∃ w', (step specs).apply s .publish w = .error e w') ∧
        commandsOf (((step specs).apply s .publish).shown w) = [] := by
    obtain ⟨w', hfails, htold⟩ := h
    refine ⟨⟨w', hfails⟩, List.map_eq_nil_iff.mp (Issued.argvs_eq ?_)⟩
    rw [after_of_error hfails]
    exact htold.issued
  refine ⟨items, specs, hitems, hspecs, rfl, fun hlong => ?_, fun hwritable spec hspec text htext => ?_,
    fun hwritable before spec after e hsplit hbefore hrefused => ?_, fun hwritable hsearched => ?_,
    fun spec _ hup p q hp hq => ?_⟩
  · exact hended ⟨w, publish_of_unwritable hreal htag hlong, told_refl w⟩
  · obtain ⟨label, hlabel⟩ := Template.exists_filled (hknown spec hspec text htext) hwritable
    refine ⟨label, hlabel, ?_⟩
    rw [labelFor, htext, Option.bind_some, hlabel]
    rfl
  · refine hended (publish_of_error hreal htag hknown (hvalues hwritable) ?_)
    refine mapM_eq_error.mpr ⟨before, spec, after, hsplit, fun spec' hspec' => ?_, ?_⟩
    · exact exists_searchFor hregular (hbefore spec' hspec')
    · exact (searchFor_eq_error_iff hregular).mpr hrefused
  · obtain ⟨founds, hfounds⟩ := exists_mapM_eq_ok fun spec hspec =>
      exists_searchFor hregular (hsearched spec hspec)
    refine ⟨pathsFor s w, fun spec hspec p => mem_pathsFor hregular (hsearched spec hspec),
      fun spec _ => ⟨nodup_pathsFor hregular s spec, pairwise_pathsFor s w spec⟩, _, rfl, ?_,
      givesBack_iff hregular hsearched hroot hnames⟩
    rw [Issued.argvs_eq (publish_of_ok hreal htag hknown (hvalues hwritable) hfounds)]
    have hwords : GitHub.creation tag tag w.release.prerelease.isSome (specs.flatMap (assetsFor s w)) =
        GitHub.creation tag tag w.release.prerelease.isSome [] ++ argumentsFor s w specs := by
      rw [GitHub.creation, map_argument, GitHub.creation, List.map_nil, List.append_nil]
    rw [hwords]
    rfl
  · exact eq_of_place_eq hregular hroot hnames hup hp hq

/-- A repository with a license and an archive. -/
def packedWorld : World where
  files := ⟨[(["repo"], .directory), (["repo", "LICENSE"], .file ByteArray.empty),
    (["repo", "dist"], .directory), (["repo", "dist", "tool.tgz"], .file ByteArray.empty)]⟩
  here := ["repo"]
  release := { branch := "main", date := ⟨2024, 5, 1⟩, gitTag := some "v1.0.0" }

def packedSettings : Settings := { root := ⟨"/", ["repo"]⟩ }

theorem regular_packedWorld : packedWorld.files.Regular := ⟨by decide, by decide⟩

def packedSpecs : List AssetSpec := [⟨"dist/*.tgz", some "Tool"⟩, ⟨"LICENSE", none⟩]

theorem searched_packedSpecs : Searched packedSettings packedWorld packedSpecs := by
  have hfound : ∀ spec ∈ packedSpecs,
      (searchFor packedSettings packedWorld spec).toOption.isSome = true := by decide +kernel
  intro spec hspec e hrefused
  have hspec := hfound spec hspec
  rw [(searchFor_eq_error_iff regular_packedWorld).mpr hrefused] at hspec
  cases hspec

theorem matched_archive {p : Path} :
    Matched packedSettings packedWorld ⟨"dist/*.tgz", some "Tool"⟩ p ↔
      p = ⟨"/", ["repo", "dist", "tool.tgz"]⟩ := by
  have hpaths : pathsFor packedSettings packedWorld ⟨"dist/*.tgz", some "Tool"⟩ =
      [⟨"/", ["repo", "dist", "tool.tgz"]⟩] := by decide +kernel
  rw [← mem_pathsFor regular_packedWorld (searched_packedSpecs _ List.mem_cons_self), hpaths,
    List.mem_singleton]

theorem matched_license {p : Path} : Matched packedSettings packedWorld ⟨"LICENSE", none⟩ p ↔
    p = ⟨"/", ["repo", "LICENSE"]⟩ := by
  have hpaths : pathsFor packedSettings packedWorld ⟨"LICENSE", none⟩ =
      [⟨"/", ["repo", "LICENSE"]⟩] := by decide +kernel
  rw [← mem_pathsFor regular_packedWorld (searched_packedSpecs _ (by simp [packedSpecs])), hpaths,
    List.mem_singleton]

/-- The archive is published with its label, and the license without one. -/
theorem packed_files_read_back : ∃ args,
    (commandsOf (((step packedSpecs).apply packedSettings .publish).shown packedWorld)).map (·.argv) =
      [GitHub.creation "v1.0.0" "v1.0.0" false [] ++ args] ∧
    GivesBack packedSettings packedWorld packedSpecs args := by
  have hbuild : plugin.build [(.string "assets", .list [
      .table [(.string "path", .string "dist/*.tgz"), (.string "label", .string "Tool")],
      .string "LICENSE"])] = .ok (step packedSpecs) := rfl
  have hwritable : packedWorld.release.IsWritable := ⟨by rintro _ ⟨⟩, by rintro _ ⟨⟩⟩
  obtain ⟨items, specs, hitems, hspecs, -, -, -, -, hpublished, -⟩ :=
    arguments_read_back (s := packedSettings) (w := packedWorld) hbuild rfl rfl regular_packedWorld rfl
      (by decide)
  cases hitems
  obtain rfl : packedSpecs = specs := Except.ok.inj hspecs
  obtain ⟨-, -, -, args, -, hargs, hreads⟩ := hpublished hwritable searched_packedSpecs
  refine ⟨args, hargs, hreads.mpr ⟨?_, ?_, ?_⟩⟩
  · intro spec hspec p hp
    obtain rfl | rfl := List.mem_pair.mp hspec
    · rw [matched_archive.mp hp]
      decide +kernel
    · rw [matched_license.mp hp]
      decide +kernel
  · intro spec hspec p q hp hq _
    obtain rfl | rfl := List.mem_pair.mp hspec
    · rw [matched_archive.mp hp, matched_archive.mp hq]
    · rw [matched_license.mp hp, matched_license.mp hq]
  · refine List.pairwise_pair.mpr fun p q hp hq => ?_
    rw [matched_archive.mp hp, matched_license.mp hq]
    decide

/-- Two patterns that meet in the license. -/
def meetingSpecs : List AssetSpec := [⟨"L*", none⟩, ⟨"LICENSE", none⟩]

/-- A file is published twice where two patterns stand for it. -/
theorem license_published_twice :
    plugin.build [(.string "assets", .list [.string "L*", .string "LICENSE"])] =
      .ok (step meetingSpecs) ∧
    (commandsOf (((step meetingSpecs).apply packedSettings .publish).shown packedWorld)).map (·.argv) =
      [GitHub.creation "v1.0.0" "v1.0.0" false [] ++ ["/repo/LICENSE", "/repo/LICENSE"]] ∧
    ¬ GivesBack packedSettings packedWorld meetingSpecs ["/repo/LICENSE", "/repo/LICENSE"] := by
  refine ⟨rfl, by decide +kernel, fun h => ?_⟩
  exact absurd h.once (by decide +kernel)

end GitHubRelease

end ReleasePipeline
