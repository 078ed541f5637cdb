import ReleasePipeline.Proofs.Plugin.Faults
import ReleasePipeline.Proofs.Run.Course
import ReleasePipeline.Proofs.Run.Tagging

/-! Which inputs a run takes for invalid only after its steps were made. -/
namespace ReleasePipeline

open ReleasePipeline.Action Procedure

namespace Failure

/-- Failures at inputs that nothing checks before the steps are applied: texts, the names of files,
patterns and the numbers in tags. -/
inductive Latent : Failure → Prop
  | text (e : Text.Utf8Error) : Latent (.utf8 e)
  | path : Latent (.file .nullCharacter)
  | pattern : Latent (.step (.pattern .doubleAsterisk))
  | tag (e : Decimal.NumeralError) : Latent (.tag (.numeral e))

/-- If an input is invalid, it is one that nothing checks before. -/
def Late (e : Failure) : Prop := e.isInvalid = true → e.Latent

theorem late_file (e : FileFault) : (file e).Late := by
  intro h
  by_cases he : e = .nullCharacter
  · rw [he]
    exact .path
  · simp [isInvalid, kind, FileFault.kind, he] at h

theorem late_utf8 (e : Text.Utf8Error) : (utf8 e).Late := fun _ => .text e

theorem late_pattern (e : PatternError) : (step (.pattern e)).Late := by
  intro h
  cases e with
  | doubleAsterisk => exact .pattern
  | noNames => cases h
  | onlySlash => cases h

theorem late_of_stepFault {e : Failure} (h : StepFault e) : e.Late := by
  cases h with
  | file e => exact late_file e
  | utf8 e => exact late_utf8 e
  | pattern e => exact late_pattern e
  | noCommand => exact fun h => nomatch h
  | noTag => exact fun h => nomatch h
  | noManifest path => exact fun h => nomatch h
  | noPackageVersion path => exact fun h => nomatch h

theorem late_of_breaks {c : Command} {a : Answer} {e : Failure} (h : c.Breaks a e) : e.Late := by
  cases h with
  | start e h => exact late_file e
  | output e h => exact late_utf8 e
  | empty h => exact fun h => nomatch h
  | code h hcode => exact fun h => nomatch h
  | login h hcode hlogin detail => exact fun h => nomatch h

end Failure

namespace World

/-- The bump, if the release has one, is of a known kind, and its versions can be written. -/
structure Orderly (w : World) : Prop where
  bump : ∀ bump, w.release.bump = some bump → ∃ b, bump = .known b
  writable : w.release.IsWritable

/-- Neither an unknown kind of bump nor a version that is too long comes up. -/
def StaysOrderly (w w' : World) : Prop := w.Orderly → w'.Orderly

/-- While the bump and the versions are in order, failures are late. -/
def FailsLate (w : World) (e : Failure) (_ : World) : Prop := w.Orderly → e.Late

instance : IsPreorder World StaysOrderly where
  refl _ h := h
  trans _ _ _ h h' hw := h' (h hw)

instance : Absorbs StaysOrderly FailsLate where
  absorb h h' hw := h' (h hw)

theorem tolerates_failsLate : Tolerates StaysOrderly FailsLate where
  message _ _ _ h := ⟨h.bump, h.writable⟩
  files _ _ h := ⟨h.bump, h.writable⟩
  bump w bump h := by
    refine ⟨fun b hb => ?_, h.writable.last, h.writable.next⟩
    obtain ⟨k, -, hk⟩ := Option.map_eq_some_iff.mp hb
    exact ⟨k, hk.symm⟩
  notes _ _ h := ⟨h.bump, h.writable.last, h.writable.next⟩
  served _ _ _ h := ⟨h.bump, h.writable⟩
  broken _ _ _ h _ := Failure.late_of_breaks h
  fault _ _ h _ := Failure.late_of_stepFault h
  numeral _ h hw := absurd hw.writable h

theorem relatesAt_of_not_orderly {α : Type} {x : Action α} {w : World} (h : ¬ w.Orderly) :
    RelatesAt StaysOrderly FailsLate x w := by
  rw [RelatesAt]
  split
  · exact fun hw => absurd hw h
  · exact fun hw => absurd hw h

/-- What is noted of the release leaves the bump alone and the versions in order. -/
theorem relates_learn {f : Release → Release} (hbump : ∀ r, (f r).bump = r.bump)
    (hwritable : ∀ r, Release.IsWritable r → (f r).IsWritable) :
    Relates StaysOrderly FailsLate (changeRelease f) := by
  intro w hw
  refine ⟨fun bump h => ?_, hwritable w.release hw.writable⟩
  exact hw.bump bump (by rw [← hbump w.release]; exact h)

end World

open World

namespace Lifecycle

variable {s : Settings} {steps : List NamedStep} {phase : Phase} {format : String}

section Tags

variable (hmark : Text.contains versionMark format = true)

include hmark

theorem late_of_version? {tag : String} {e : TagError} (h : Tag.version? format tag = .error e) :
    (Failure.tag e).Late := by
  simp only [Tag.version?, hmark, Bool.not_true, Bool.false_eq_true, if_false] at h
  split at h
  · cases h
  · obtain ⟨e', -, rfl⟩ := mapError_eq_error.mp h
    exact fun _ => .tag e'

theorem late_of_ofVersion {v : Version} {e : TagError} (h : Tag.ofVersion format v = .error e) :
    (Failure.tag e).Late := by
  simp only [Tag.ofVersion, hmark, Bool.not_true, Bool.false_eq_true, if_false, map_eq_error] at h
  obtain ⟨e', -, rfl⟩ := mapError_eq_error.mp h
  exact fun _ => .tag e'

theorem late_of_versionsOf {tags : List String} {e : TagError}
    (h : versionsOf format tags = .error e) : (Failure.tag e).Late := by
  obtain h | ⟨_, -, h⟩ := bind_eq_error.mp h
  · obtain ⟨tag, -, htag⟩ := exists_of_mapM_eq_error h
    exact late_of_version? hmark htag
  · cases h

theorem late_of_tagOf? {v : Option Version} {e : TagError} (h : tagOf? format v = .error e) :
    (Failure.tag e).Late := by
  cases v with
  | none => cases h
  | some v => exact late_of_ofVersion hmark (map_eq_error.mp h)

/-- A last release that was read from a tag can be written. -/
theorem relates_readHistory : Relates StaysOrderly FailsLate ((readHistory format).perform s) := by
  simp only [readHistory, perform_bind, perform_act, perform_ofExcept, perform_changeRelease,
    perform_world, perform_say]
  refine relates_bind (relates_gitRead tolerates_failsLate) fun listing => ?_
  refine relates_ofExcept_bind (fun e he w _ => ?_) fun versions hversions => ?_
  · obtain ⟨fault, hfault, rfl⟩ := mapError_eq_error.mp he
    exact late_of_versionsOf hmark hfault
  have hlast : ∀ channel v, Version.lastRelease versions channel = some v → v.isWritable = true := by
    intro channel v hv
    obtain ⟨tag, -, htag⟩ :=
      Version.exists_of_mem_versionsOf (mapError_eq_ok.mp hversions) (Version.mem_of_lastRelease hv)
    exact Tag.isWritable_of_version? htag
  refine relates_bind (relates_learn (fun _ => rfl) fun r hr => ⟨hlast r.prerelease, hr.next⟩)
    fun _ => relates_get_bind fun w => ?_
  refine relates_bind (relates_ofExcept fun e he w _ => ?_) fun since => ?_
  · obtain ⟨fault, hfault, rfl⟩ := mapError_eq_error.mp he
    exact late_of_tagOf? hmark hfault
  refine relates_bind (relates_learn (fun _ => rfl) fun r hr => ⟨hr.last, hr.next⟩) fun _ => ?_
  refine relates_bind (relates_gitRead tolerates_failsLate) fun commits => ?_
  refine relates_bind (relates_learn (fun _ => rfl) fun r hr => ⟨hr.last, hr.next⟩) fun _ => ?_
  exact relates_log tolerates_failsLate _ _

/-- A next version that has a tag can be written. -/
theorem relates_decideVersion (b : Bump) :
    Relates StaysOrderly FailsLate ((decideVersion format (.known b)).perform s) := by
  simp only [decideVersion, perform_bind, perform_ofExcept, perform_changeRelease, perform_world,
    perform_say, perform_pure]
  refine relates_get_bind fun w => ?_
  refine relates_bind (relates_ofExcept fun e he => ?_) fun v => ?_
  · -- a known kind of bump always leads to a version
    obtain ⟨fault, hfault, -⟩ := mapError_eq_error.mp he
    rw [Version.nextFor] at hfault
    cases hfault
  cases htag : Tag.ofVersion format v with
  | error e => exact fun w _ => late_of_ofVersion hmark htag
  | ok tag =>
    have hnext := (Tag.isWritable_of_ofVersion htag).1
    have hv : ∀ u, some v = some u → u.isWritable = true := by
      rintro u ⟨⟩
      exact hnext
    refine relates_bind (relates_learn (fun _ => rfl) fun r hr => ⟨hr.last, hv⟩) fun _ => ?_
    refine relates_bind (relates_pure tag) fun tag => ?_
    refine relates_bind (relates_learn (fun _ => rfl) fun r hr => ⟨hr.last, hr.next⟩) fun _ => ?_
    exact relates_bind (relates_log tolerates_failsLate _ _) fun _ => relates_pure _

end Tags

theorem relates_makeTag : Relates StaysOrderly FailsLate ((makeTag s).perform s) := by
  have hlog (level : Level) (text : String) : Relates StaysOrderly FailsLate (log level text) :=
    relates_log tolerates_failsLate level text
  have hchange (args : List String) :
      Relates StaysOrderly FailsLate ((Move.change args).perform s) :=
    relates_bind (relates_gitChange tolerates_failsLate) fun _ => relates_pure _
  simp only [makeTag, perform_bind, perform_world]
  refine relates_get_bind fun w => ?_
  split
  · exact hlog _ _
  · split
    · exact relates_throw fun w _ h => by cases h
    · simp only [perform_bind, perform_act, perform_say]
      exact relates_bind (hchange _) fun _ => relates_bind (hchange _) fun _ => hlog _ _

section Vetted

variable (hmark : Text.contains versionMark format = true)
  (hvetted : ∀ n ∈ steps, n.step.Vetted)

include hmark hvetted

theorem relates_release (b : Bump) :
    Relates StaysOrderly FailsLate ((release s format steps (.known b)).perform s) := by
  have hphase (phase : Phase) :
      Relates StaysOrderly FailsLate ((runPhase steps phase).perform s) :=
    relates_runPhase (relates_log tolerates_failsLate) fun n hn _ =>
      relates_apply tolerates_failsLate (hvetted n hn)
  simp only [release, perform_bind, perform_world, perform_pure]
  refine relates_bind (relates_decideVersion hmark b) fun v => ?_
  refine relates_bind (hphase .generateNotes) fun _ => relates_bind (hphase .prepare) fun _ => ?_
  refine relates_bind relates_makeTag fun _ => relates_bind (hphase .publish) fun _ => ?_
  exact relates_get_bind fun w => relates_pure _

/-- Once its steps are made, a run fails at an invalid input only where nothing could check it. -/
theorem relates_runSteps :
    Relates StaysOrderly FailsLate ((runSteps s format steps).perform s) := by
  have hphase (phase : Phase) :
      Relates StaysOrderly FailsLate ((runPhase steps phase).perform s) :=
    relates_runPhase (relates_log tolerates_failsLate) fun n hn _ =>
      relates_apply tolerates_failsLate (hvetted n hn)
  simp only [runSteps, analyze, perform_bind, perform_world, bind_assoc]
  refine relates_bind (hphase .verify) fun _ => relates_bind (relates_readHistory hmark) fun _ => ?_
  refine relates_bind (hphase .analyze) fun _ w => relatesAt_get_bind ?_
  by_cases hw : w.Orderly
  · cases hbump : w.release.bump with
    | none =>
      simp only [perform_bind, perform_world, perform_say, perform_pure]
      refine relatesAt_get_bind (relates_bind ?_ (fun _ => relates_pure _) w)
      exact relates_log tolerates_failsLate _ _
    | some bump =>
      obtain ⟨b, rfl⟩ := hw.bump bump hbump
      exact relates_release hmark hvetted b w
  · exact relatesAt_of_not_orderly hw

end Vetted

end Lifecycle

end ReleasePipeline
