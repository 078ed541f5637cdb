import ReleasePipeline.Proofs.Plugin.Faults

/-! The check of a template when a step is made decides how the template does when the step runs. -/
namespace ReleasePipeline

open Template

/-- A failure other than that of a template or at a number that is too long to be written. -/
structure Failure.Elsewhere (e : Failure) : Prop where
  template : ∀ t, e ≠ .template t
  numeral : ∀ n, e ≠ .numeral n

theorem elsewhere_of_stepFault {e : Failure} (h : StepFault e) : e.Elsewhere := by
  cases h <;> exact ⟨by rintro _ ⟨⟩, by rintro _ ⟨⟩⟩

theorem elsewhere_of_breaks {c : Command} {a : Answer} {e : Failure} (h : c.Breaks a e) :
    e.Elsewhere := by
  cases h <;> exact ⟨by rintro _ ⟨⟩, by rintro _ ⟨⟩⟩

namespace World

/-- Versions that can be written stay so. -/
def StaysWritable (w w' : World) : Prop := w.release.IsWritable → w'.release.IsWritable

/-- No template fails, and a number only if it is one of a version of the release. -/
def FailsElsewhere (w : World) (e : Failure) (_ : World) : Prop :=
  e.Elsewhere ∨ e = .numeral .writing ∧ ¬ w.release.IsWritable

instance : IsPreorder World StaysWritable where
  refl _ h := h
  trans _ _ _ h h' hw := h' (h hw)

instance : Absorbs StaysWritable FailsElsewhere where
  absorb h h' := h'.imp_right fun hlong => ⟨hlong.1, mt h hlong.2⟩

theorem tolerates_failsElsewhere : Tolerates StaysWritable FailsElsewhere where
  message _ _ _ h := h
  files _ _ h := h
  bump _ _ h := ⟨h.last, h.next⟩
  notes _ _ h := ⟨h.last, h.next⟩
  served _ _ _ h := h
  broken _ _ _ h := .inl (elsewhere_of_breaks h)
  fault _ _ h := .inl (elsewhere_of_stepFault h)
  numeral _ h := .inr ⟨rfl, h⟩

end World

/-- No step that a known plugin made fails at a template, and none at a version that can be written. -/
theorem failsElsewhere_of_apply {p : Plugin} (hp : p ∈ knownPlugins) {options : Table} {st : Step}
    (hbuild : p.build options = .ok st) {s : Settings} {phase : Phase} {w w' : World} {e : Failure}
    (h : st.apply s phase w = .error e w') : w.FailsElsewhere e w' := by
  have hvetted := vetted_of_build hp hbuild
  exact Action.relates_of_error (relates_apply World.tolerates_failsElsewhere hvetted) h

/-- In each of its phases a step of commands has one. -/
theorem exists_command_of_mem_phases {commands : List (Phase × String)} {cwd : Option String}
    {phase : Phase} (h : phase ∈ (Exec.step commands cwd).phases) :
    ∃ text, commands.lookup phase = some text ∧ (phase, text) ∈ commands := by
  obtain ⟨command, hcommand, rfl⟩ := List.mem_map.mp h
  cases htext : commands.lookup command.1 with
  | none =>
    have hne := List.lookup_eq_none_iff.mp htext command hcommand
    simp at hne
  | some text =>
    obtain ⟨before, after, hcommands, -⟩ := List.lookup_eq_some_iff.mp htext
    exact ⟨text, rfl, by simp [hcommands]⟩

theorem template_eq_ok_iff_filled {name text : String} (htext : text ≠ "") :
    Options.template name (.string text) = .ok text ↔
      ∀ r : Release, r.IsWritable → ∃ out, Options.filled text r = .ok out := by
  rw [template_eq_ok_iff htext]
  constructor
  · exact fun h r hr => exists_filled h hr
  · intro hall
    obtain ⟨out, hout⟩ := hall { branch := "", date := ⟨0, 0, 0⟩ } ⟨by rintro _ ⟨⟩, by rintro _ ⟨⟩⟩
    exact known_of_filled hout

/-- The check of a template accepts just what every release fills in whose versions can be written,
and what it refuses no release fills in; a release with another version fills in nothing. So each
command, label and message of an accepted step is filled in, whatever the phase and the release, unless
a version of the release is too long, and none of the steps ever fails at a template. -/
theorem template_check_decides_rendering :
    (∀ name text : String, text ≠ "" →
      (Options.template name (.string text) = .ok text ↔
        ∀ r : Release, r.IsWritable → ∃ out, Options.filled text r = .ok out) ∧
      ((∃ e, Options.template name (.string text) = .error e) →
        ∀ r : Release, ∃ e, Options.filled text r = .error e)) ∧
    (∀ r : Release, ¬ r.IsWritable → ∀ text, Options.filled text r = .error (.numeral .writing)) ∧
    (∀ options st, Exec.plugin.build options = .ok st → ∃ commands cwd,
      Exec.commandsOf options = .ok commands ∧ st = Exec.step commands cwd ∧
      ∀ phase ∈ st.phases, ∃ text, commands.lookup phase = some text ∧
        ∀ r : Release, r.IsWritable → ∃ out, Options.filled text r = .ok out) ∧
    (∀ options st, GitHubRelease.plugin.build options = .ok st → ∃ items specs,
      GitHubRelease.items? (Options.getOr options "assets" (.list [])) = some items ∧
      (items.zipIdx 1).mapM (fun (v, i) => GitHubRelease.specOf v i) = .ok specs ∧
      st = GitHubRelease.step specs ∧
      ∀ spec ∈ specs, ∀ text, spec.label = some text →
        ∀ r : Release, r.IsWritable → ∃ out, Options.filled text r = .ok out) ∧
    (∀ options st, GitCommit.plugin.build options = .ok st → ∃ assets message,
      Options.template "message"
        (Options.getOr options "message" (.string GitCommit.defaultMessage)) = .ok message ∧
      st = GitCommit.step assets message ∧
      ∀ r : Release, r.IsWritable → ∃ out, Options.filled message r = .ok out) ∧
    (∀ p ∈ knownPlugins, ∀ options st, p.build options = .ok st →
      ∀ s phase w e w', st.apply s phase w = .error e w' →
        (∀ t, e ≠ .template t) ∧ ∀ n, e = .numeral n → ¬ w.release.IsWritable) := by
  refine ⟨fun name text htext => ⟨template_eq_ok_iff_filled htext, ?_⟩,
    fun r hr text => filled_of_not_isWritable hr text, ?_, ?_, ?_, ?_⟩
  · rintro ⟨e, he⟩ r
    refine filled_eq_error (fun hknown => ?_) r
    rw [(template_eq_ok_iff htext).mpr hknown] at he
    cases he
  · intro options st hbuild
    obtain ⟨commands, cwd, hcommands, rfl⟩ := exec_of_build hbuild
    refine ⟨commands, cwd, hcommands, rfl, fun phase hphase => ?_⟩
    obtain ⟨text, htext, hmem⟩ := exists_command_of_mem_phases hphase
    exact ⟨text, htext, fun r hr => exists_filled (known_of_commandsOf hcommands _ hmem) hr⟩
  · intro options st hbuild
    obtain ⟨items, specs, hitems, hspecs, rfl⟩ := github_of_build hbuild
    refine ⟨items, specs, hitems, hspecs, rfl, fun spec hspec text htext r hr => ?_⟩
    obtain ⟨⟨v, index⟩, -, hread⟩ := exists_of_mapM_mem hspecs hspec
    exact exists_filled (known_of_specOf hread htext) hr
  · intro options st hbuild
    obtain ⟨assets, message, hmessage, rfl⟩ := commit_of_build hbuild
    exact ⟨assets, message, hmessage, rfl, fun r hr => exists_filled (known_of_template hmessage) hr⟩
  · intro p hp options st hbuild s phase w e w' h
    obtain helse | ⟨rfl, hlong⟩ := failsElsewhere_of_apply hp hbuild h
    · exact ⟨helse.template, fun n hn => absurd hn (helse.numeral n)⟩
    · exact ⟨by rintro _ ⟨⟩, fun _ _ => hlong⟩

/-- A release of a first version. -/
def firstRelease : Release where
  branch := "main"
  date := ⟨2024, 5, 1⟩
  nextVersion := some ⟨1, 0, 0, none, none⟩

/-- A text with a known name is accepted and filled in, one with the name of a table never is. -/
theorem rendering_of_nextRelease :
    Options.template "message" (.string "v$\x7bnextRelease.version\x7d") =
      .ok "v$\x7bnextRelease.version\x7d" ∧
    (∃ out, Options.filled "v$\x7bnextRelease.version\x7d" firstRelease = .ok out) ∧
    (∀ r : Release, ∃ e, Options.filled "v$\x7bnextRelease\x7d" r = .error e) := by
  have hchecks := template_check_decides_rendering.1
  have haccepted := hchecks "message" "v$\x7bnextRelease.version\x7d" (by decide)
  have hrefused := hchecks "message" "v$\x7bnextRelease\x7d" (by decide)
  have hok : Options.template "message" (.string "v$\x7bnextRelease.version\x7d") =
      .ok "v$\x7bnextRelease.version\x7d" := by rfl
  refine ⟨hok, haccepted.1.mp hok _ ⟨by rintro _ ⟨⟩, ?_⟩, hrefused.2 ⟨_, rfl⟩⟩
  rintro _ ⟨⟩
  decide +kernel

/-- A release of a version with a digit more than is written. -/
def longRelease : Release where
  branch := "main"
  date := ⟨2024, 5, 1⟩
  nextVersion := some ⟨Nat.pow 10 Decimal.maxDigits, 0, 0, none, none⟩

/-- A text without any names is accepted, but not filled in where a version is too long. -/
theorem long_version_not_filled_in : Options.template "message" (.string "release") = .ok "release" ∧
    Options.filled "release" longRelease = .error (.numeral .writing) := by
  have hlong := Decimal.isWritable_of_le (Int.natAbs_natCast (Nat.pow 10 Decimal.maxDigits)).ge
  refine ⟨rfl, filled_of_not_isWritable (fun h => ?_) "release"⟩
  have hversion := h.next _ rfl
  rw [Version.isWritable, List.all_eq_true] at hversion
  rw [hversion _ List.mem_cons_self] at hlong
  cases hlong

end ReleasePipeline
