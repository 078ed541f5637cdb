import ReleasePipeline.Plugin.Preparation
import ReleasePipeline.Proofs.Manifest.Unified
import ReleasePipeline.Proofs.Run.Content

/-! What the step that sets the version makes of the files: each manifest keeps all but its version
and its carriage returns, and all other files stay as they are. -/
namespace ReleasePipeline.CargoVersion

open ReleasePipeline.Action

variable {version text : String} {site : Manifest.Site} {w : World} {here place : Place} {p : Path}
  {ps : List Path} {t t' t₁ : FileTree}

/-- An entry after the version was set in it. -/
def revised (version : String) : Entry → Entry
  | .file content =>
    match textOfBytes content with
    | .ok text => .file (Manifest.setVersion text version).1.toUTF8
    | .error _ => .file content
  | .directory => .directory

theorem revised_of_in (h : site.In none (Text.lines text.toList)) (version : String) :
    revised version (.file text.toUTF8) = .file (site.unified.textWith version).toUTF8 := by
  rw [revised, textOfBytes_eq_unified]
  simp only [Manifest.setVersion_of_in (Manifest.Site.in_unified h)]

/-- The entry is a file with a text that has a version in its package table. -/
def Versioned (e : Option Entry) : Prop :=
  ∃ text : String, e = some (.file text.toUTF8) ∧ Manifest.HasVersion text

/-- A version that was set stays when it is set once more. -/
theorem Versioned.revised_revised {e : Option Entry} (h : Versioned e)
    (hversion : Manifest.Quotable version) :
    Versioned (e.map (revised version)) ∧
      (e.map (revised version)).map (revised version) = e.map (revised version) := by
  obtain ⟨text, rfl, site, hsite⟩ := h
  have hset := Manifest.Site.in_textWith (Manifest.Site.in_unified hsite) hversion
  rw [Option.map_some, revised_of_in hsite, Option.map_some, revised, textOfBytes_eq_unified,
    Manifest.Site.unified_textWith hsite hversion]
  refine ⟨⟨_, rfl, _, hset⟩, ?_⟩
  simp only [Manifest.setVersion_of_in hset]
  rfl

/-- The tree `t'` is the tree `t` with the version set in the files to which the paths lead. -/
structure Revised (version : String) (here : Place) (ps : List Path) (t t' : FileTree) : Prop where
  place : ∀ p, t'.place here p = t.place here p
  entry : ∀ p ∈ ps, ∀ place, t.place here p = .ok place →
    t'.entry? place = (t.entry? place).map (revised version)
  other : ∀ place, (∀ p ∈ ps, t.place here p ≠ .ok place) → t'.entry? place = t.entry? place

theorem revised_insert (hplace : t.place here p = .ok place)
    (hentry : t.entry? place = some (.file text.toUTF8))
    (hsite : site.In none (Text.lines text.toList)) : Revised version here [p] t
      (t.insert place (.file (site.unified.textWith version).toUTF8)) where
  place q := FileTree.place_insert_file hentry
  entry := by
    intro q hq other hother
    obtain rfl := List.mem_singleton.mp hq
    obtain rfl := Except.ok.inj (hplace.symm.trans hother)
    rw [FileTree.entry?_insert_self (FileTree.ne_nil_of_file hentry), hentry, Option.map_some,
      revised_of_in hsite]
  other := by
    refine fun other hother => FileTree.entry?_insert_of_ne ?_
    rintro rfl
    exact hother p List.mem_cons_self hplace

/-- The version is set in the file to which the path leads. -/
theorem setVersion_apply (hplace : w.files.place w.here p = .ok place)
    (hfile : Versioned (w.files.entry? place)) (version : String) :
    ∃ files, setVersion version p w = .ok () { w with files } ∧
      Revised version w.here [p] w.files files := by
  obtain ⟨text, hentry, site, hsite⟩ := hfile
  have hlook := FileTree.look_eq_ok_iff.mpr ⟨place, hplace, hentry⟩
  refine ⟨_, ?_, revised_insert hplace hentry hsite⟩
  refine bind_apply_eq_ok.mpr ⟨true, w, pathExists_eq_ok (FileTree.exists?_of_look hlook), ?_⟩
  refine bind_apply_eq_ok.mpr ⟨Text.unified text, w, readText_of_look hlook, ?_⟩
  rw [Manifest.setVersion_of_in (Manifest.Site.in_unified hsite)]
  exact writeText_of_write (FileTree.write_eq_ok_iff.mpr ⟨place, hplace, by simp [hentry], rfl⟩)

/-- The paths lead to different files, or to a version that stays when it is set once more. -/
def Settable (version : String) (here : Place) (ps : List Path) (t : FileTree) : Prop :=
  Manifest.Quotable version ∨ ps.Pairwise fun p q => t.place here p ≠ t.place here q

/-- Setting the version behind the first path and then behind the others sets it behind all of them. -/
theorem Revised.cons (hfirst : Revised version here [p] t t₁) (hrest : Revised version here ps t₁ t')
    (hplace : t.place here p = .ok place) (hfile : Versioned (t.entry? place))
    (hversion : Settable version here (p :: ps) t) : Revised version here (p :: ps) t t' where
  place q := (hrest.place q).trans (hfirst.place q)
  entry := by
    intro q hq other hother
    have hsame : t.place here p = .ok other → t₁.entry? other = (t.entry? other).map (revised version) :=
      hfirst.entry p List.mem_cons_self other
    by_cases hlater : ∃ q' ∈ ps, t.place here q' = .ok other
    · obtain ⟨q', hq', hother'⟩ := hlater
      rw [hrest.entry q' hq' other ((hfirst.place q').trans hother')]
      by_cases hp : t.place here p = .ok other
      · obtain rfl := Except.ok.inj (hplace.symm.trans hp)
        obtain hquotable | hpairwise := hversion
        · rw [hsame hp, (hfile.revised_revised hquotable).2]
        · exact absurd (hp.trans hother'.symm) ((List.pairwise_cons.mp hpairwise).1 q' hq')
      · rw [hfirst.other other fun p' hp' => List.mem_singleton.mp hp' ▸ hp]
    · have hnone : ∀ q' ∈ ps, t₁.place here q' ≠ .ok other := fun q' hq' h =>
        hlater ⟨q', hq', (hfirst.place q').symm.trans h⟩
      rw [hrest.other other hnone]
      rcases List.mem_cons.mp hq with rfl | hq
      · exact hsame hother
      · exact absurd ⟨q, hq, hother⟩ hlater
  other := by
    intro other hother
    rw [List.forall_mem_cons] at hother
    rw [hrest.other other fun q hq => (hfirst.place q).symm ▸ hother.2 q hq,
      hfirst.other other fun q hq => List.mem_singleton.mp hq ▸ hother.1]

/-- The version is set behind all paths. -/
theorem forM_setVersion
    (hfiles : ∀ p ∈ ps, ∃ place, w.files.place w.here p = .ok place ∧ Versioned (w.files.entry? place))
    (hversion : Settable version w.here ps w.files) :
    ∃ files, ps.forM (setVersion version) w = .ok () { w with files } ∧
      Revised version w.here ps w.files files := by
  induction ps generalizing w with
  | nil => exact ⟨w.files, rfl, fun _ => rfl, List.forall_mem_nil _, fun _ _ => rfl⟩
  | cons p ps ih =>
    obtain ⟨⟨place, hplace, hfile⟩, hfiles⟩ := List.forall_mem_cons.mp hfiles
    obtain ⟨files, hset, hfirst⟩ := setVersion_apply hplace hfile version
    have hversion' : Settable version w.here ps files := by
      refine hversion.imp id fun hpairwise => (List.pairwise_cons.mp hpairwise).2.imp fun h => ?_
      rwa [hfirst.place, hfirst.place]
    have hfiles' : ∀ q ∈ ps, ∃ other, files.place w.here q = .ok other ∧
        Versioned (files.entry? other) := by
      intro q hq
      obtain ⟨other, hother, hq'⟩ := hfiles q hq
      refine ⟨other, (hfirst.place q).trans hother, ?_⟩
      by_cases hsame : other = place
      · subst hsame
        rw [hfirst.entry p List.mem_cons_self other hplace]
        obtain hquotable | hpairwise := hversion
        · exact (hfile.revised_revised hquotable).1
        · exact absurd (hplace.trans hother.symm) ((List.pairwise_cons.mp hpairwise).1 q hq)
      · rw [hfirst.other other fun p' hp' => ?_]
        · exact hq'
        · rw [List.mem_singleton.mp hp', hplace]
          exact fun h => hsame (Except.ok.inj h).symm
    obtain ⟨files', hset', hrest⟩ := ih (w := { w with files }) hfiles' hversion'
    exact ⟨files', bind_apply_eq_ok.mpr ⟨(), _, hset, hset'⟩, hfirst.cons hrest hplace hfile hversion⟩

/-- What is read behind a path after the version was set there. -/
theorem Revised.look (h : Revised version here ps t t') (hp : p ∈ ps)
    (hlook : t.look here p = .ok (.file text.toUTF8)) (hsite : site.In none (Text.lines text.toList)) :
    t'.look here p = .ok (.file (site.unified.textWith version).toUTF8) := by
  obtain ⟨place, hplace, hentry⟩ := FileTree.look_eq_ok_iff.mp hlook
  refine FileTree.look_eq_ok_iff.mpr ⟨place, (h.place p).trans hplace, ?_⟩
  rw [h.entry p hp place hplace, hentry, Option.map_some, revised_of_in hsite]

theorem Revised.look_of_ne (h : Revised version here ps t t')
    (hp : ∀ q ∈ ps, t.place here q ≠ t.place here p) : t'.look here p = t.look here p :=
  FileTree.look_congr (h.place p) fun place hplace =>
    h.other place fun q hq hq' => hp q hq (hq'.trans hplace.symm)

section Step

variable {s : Settings} {manifests : List String}

/-- The path of a manifest. -/
def manifestPath (s : Settings) (file : String) : Path := s.root.join (.ofText file)

/-- What the step reports. -/
def report (version : String) (manifests : List String) : String :=
  let files := s!"version {version} in " ++ String.intercalate ", " manifests
  s!"Set {files}."

/-- The step sets the version behind the paths of all manifests. -/
theorem apply_revises (phase : Phase) (hreal : s.dryRun = false)
    (hnext : w.release.nextText = .ok version)
    (hfiles : ∀ file ∈ manifests, ∃ text : String,
      w.files.look w.here (manifestPath s file) = .ok (.file text.toUTF8) ∧ Manifest.HasVersion text)
    (hversion : Settable version w.here (manifests.map (manifestPath s)) w.files) :
    ∃ files, (step manifests).apply s phase w = .ok (report version manifests) { w with files } ∧
      Revised version w.here (manifests.map (manifestPath s)) w.files files := by
  have hplaces : ∀ p ∈ manifests.map (manifestPath s), ∃ place, w.files.place w.here p = .ok place ∧
      Versioned (w.files.entry? place) := by
    refine List.forall_mem_map.mpr fun file hfile => ?_
    obtain ⟨text, hlook, htext⟩ := hfiles file hfile
    obtain ⟨place, hplace, hentry⟩ := FileTree.look_eq_ok_iff.mp hlook
    exact ⟨place, hplace, text, hentry, htext⟩
  obtain ⟨files, hset, hrevised⟩ := forM_setVersion hplaces hversion
  have htext : Options.nextText w = .ok version w :=
    bind_apply_eq_ok.mpr ⟨w.release, w, rfl, by rw [hnext]; rfl⟩
  refine ⟨files, bind_apply_eq_ok.mpr ⟨version, w, htext, ?_⟩, hrevised⟩
  simp only [hreal, Bool.false_eq_true, if_false]
  exact bind_apply_eq_ok.mpr ⟨(), _, (congrFun List.forM_map w).symm.trans hset, rfl⟩

/-- The step sets the version in all manifests and leaves the other files as they are. A manifest keeps
what stands around its version if it holds no carriage return, since its line endings are unified. -/
theorem manifests_kept_but_version (hreal : s.dryRun = false)
    (hnext : w.release.nextText = .ok version)
    (hfiles : ∀ file ∈ manifests, ∃ text : String,
      w.files.look w.here (manifestPath s file) = .ok (.file text.toUTF8) ∧ Manifest.HasVersion text)
    (hversion : Settable version w.here (manifests.map (manifestPath s)) w.files) :
    ∃ files, (step manifests).apply s .prepare w = .ok (report version manifests) { w with files } ∧
      (∀ file ∈ manifests, ∀ text : String, ∀ site : Manifest.Site,
        w.files.look w.here (manifestPath s file) = .ok (.file text.toUTF8) →
        site.In none (Text.lines text.toList) →
        text = site.textWith (String.ofList site.entry.version) ∧
        files.look w.here (manifestPath s file) =
          .ok (.file (site.unified.textWith version).toUTF8) ∧
        (files.look w.here (manifestPath s file) =
          .ok (.file (site.textWith version).toUTF8) ↔ '\r' ∉ text.toList)) ∧
      ∀ p, (∀ file ∈ manifests, w.files.place w.here (manifestPath s file) ≠ w.files.place w.here p) →
        files.look w.here p = w.files.look w.here p := by
  obtain ⟨files, happly, hrevised⟩ := apply_revises .prepare hreal hnext hfiles hversion
  refine ⟨files, happly, fun file hfile text site hlook hsite => ?_, fun p hp => ?_⟩
  · have hnew := hrevised.look (List.mem_map_of_mem hfile) hlook hsite
    refine ⟨Manifest.Site.eq_textWith hsite, hnew, ?_⟩
    rw [hnew, Except.ok.injEq, Entry.file.injEq, ← Manifest.Site.textWith_unified_iff hsite]
    exact ⟨Text.toUTF8_inj, congrArg String.toUTF8⟩
  · exact hrevised.look_of_ne (List.forall_mem_map.mpr hp)

/-- A next version that is too long to be written is set nowhere. -/
theorem apply_of_unwritten {e : Decimal.NumeralError} (phase : Phase)
    (hnext : w.release.nextText = .error e) :
    (step manifests).apply s phase w = .error (.numeral e) w := by
  have htext : Options.nextText w = .error (.numeral e) w :=
    bind_apply_eq_error.mpr (.inr ⟨w.release, w, rfl, by rw [hnext]; rfl⟩)
  exact bind_apply_eq_error.mpr (.inl htext)

end Step

/-- A repository with a manifest of the given text, and another one below it. -/
def manifestWorld (text : String) : World where
  files := ⟨[(["repo"], .directory), (["repo", "Cargo.toml"], .file text.toUTF8),
    (["repo", "demo"], .directory),
    (["repo", "demo", "Cargo.toml"], .file "[package]\nversion = \"0.1.0\" # first".toUTF8)]⟩
  here := ["repo"]
  release := { branch := "main", date := ⟨2024, 5, 1⟩, nextVersion := some ⟨1, 3, 0, none, none⟩ }

theorem nextText_manifestWorld (text : String) :
    (manifestWorld text).release.nextText = .ok "1.3.0" := by
  change Version.written ⟨1, 3, 0, none, none⟩ = .ok "1.3.0"
  decide +kernel

theorem version_set_in_manifestWorld :
    let w := manifestWorld Manifest.crowdedManifest
    let s : Settings := { root := .ofText "/repo" }
    ∃ files, (step ["Cargo.toml", "demo/Cargo.toml"]).apply s .prepare w =
        .ok "Set version 1.3.0 in Cargo.toml, demo/Cargo.toml." { w with files } ∧
      files.look w.here (manifestPath s "demo/Cargo.toml") =
        .ok (.file "[package]\nversion = \"1.3.0\" # first".toUTF8) ∧
      files.look w.here (manifestPath s "Cargo.toml") =
        .ok (.file ("[lib]\nversion = \"9\"\n [ package ]\t\nversion.workspace = true\u2028" ++
          "  version=\"1.3.0\" # was \"0.8.0\"\n[x]\nversion = \"1\"").toUTF8) := by
  intro w s
  have hcrowded : Manifest.HasVersion Manifest.crowdedManifest := by decide +kernel
  have hfirst : Manifest.HasVersion "[package]\nversion = \"0.1.0\" # first" := by decide +kernel
  have hfiles : ∀ file ∈ ["Cargo.toml", "demo/Cargo.toml"], ∃ text : String,
      w.files.look w.here (manifestPath s file) = .ok (.file text.toUTF8) ∧
        Manifest.HasVersion text :=
    List.forall_mem_cons.mpr ⟨⟨_, rfl, hcrowded⟩, List.forall_mem_singleton.mpr ⟨_, rfl, hfirst⟩⟩
  obtain ⟨files, happly, hkept, -⟩ :=
    manifests_kept_but_version (w := w) (s := s) rfl (nextText_manifestWorld _) hfiles (.inl (by decide +kernel))
  obtain ⟨crowded, hcrowded⟩ := hcrowded
  obtain ⟨first, hfirst⟩ := hfirst
  refine ⟨files, happly, ?_, ?_⟩
  · rw [(hkept "demo/Cargo.toml" (by simp) _ first rfl hfirst).2.1,
      Manifest.Site.textWith_eq (Manifest.Site.in_unified hfirst)]
    refine congrArg (fun text : String => Except.ok (Entry.file text.toUTF8)) ?_
    decide +kernel
  · rw [(hkept "Cargo.toml" (by simp) _ crowded rfl hcrowded).2.1,
      Manifest.Site.textWith_eq (Manifest.Site.in_unified hcrowded)]
    refine congrArg (fun text : String => Except.ok (Entry.file text.toUTF8)) ?_
    decide +kernel

/-- A manifest whose lines end with a carriage return and a line feed. -/
def returnManifest : String := "[package]\r\nversion = \"0.1.0\"\r\n"

/-- The version that is set takes the carriage returns away. -/
theorem returns_lost_from_manifest :
    let w := manifestWorld returnManifest
    let s : Settings := { root := .ofText "/repo" }
    ∃ files, ∃ site : Manifest.Site, (step ["Cargo.toml"]).apply s .prepare w =
        .ok "Set version 1.3.0 in Cargo.toml." { w with files } ∧
      site.In none (Text.lines returnManifest.toList) ∧
      site.textWith "1.3.0" = "[package]\r\nversion = \"1.3.0\"\r\n" ∧
      files.look w.here (manifestPath s "Cargo.toml") =
        .ok (.file "[package]\nversion = \"1.3.0\"\n".toUTF8) ∧
      files.look w.here (manifestPath s "Cargo.toml") ≠ .ok (.file (site.textWith "1.3.0").toUTF8) := by
  intro w s
  obtain ⟨site, hsite⟩ : Manifest.HasVersion returnManifest := by decide +kernel
  have hfiles : ∀ file ∈ ["Cargo.toml"], ∃ text : String,
      w.files.look w.here (manifestPath s file) = .ok (.file text.toUTF8) ∧
        Manifest.HasVersion text :=
    List.forall_mem_singleton.mpr ⟨_, rfl, site, hsite⟩
  obtain ⟨files, happly, hrevised⟩ :=
    apply_revises (w := w) (s := s) .prepare rfl (nextText_manifestWorld _) hfiles (.inl (by decide +kernel))
  have hlook := hrevised.look (p := manifestPath s "Cargo.toml") (by simp) rfl hsite
  rw [Manifest.Site.textWith_eq (Manifest.Site.in_unified hsite)] at hlook
  refine ⟨files, site, happly, hsite, ?_, ?_, ?_⟩
  · rw [Manifest.Site.textWith_eq hsite]
    decide +kernel
  · rw [hlook]
    refine congrArg (fun text : String => Except.ok (Entry.file text.toUTF8)) ?_
    decide +kernel
  · rw [hlook, Manifest.Site.textWith_eq hsite]
    decide +kernel

end ReleasePipeline.CargoVersion
