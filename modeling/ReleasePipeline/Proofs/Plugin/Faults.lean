import ReleasePipeline.Proofs.Plugin.Steps
import ReleasePipeline.Proofs.Run.Relation

/-! How the known steps fail: by the answer to a command, or by a fault of their own. -/
namespace ReleasePipeline

open ReleasePipeline.Action

/-- What the next command is answered. -/
def World.answerTo (w : World) (c : Command) : Answer :=
  w.answers c.argv (w.recorded (.run c)).events

/-- The command is answered and exits with zero. -/
def Answer.Serves (a : Answer) : Prop := a.fault = none ∧ a.code = 0

/-- What the errors of a command are where they are kept. -/
def Command.errorsOf (c : Command) (a : Answer) : String := if c.captured then a.errors else ""

/-- The failures to which an answer of the command leads. -/
inductive Command.Breaks (c : Command) (a : Answer) : Failure → Prop
  | empty (h : a.fault = some .empty) : Breaks c a .emptyCommand
  | start (e : FileFault) (h : a.fault = some (.start e)) : Breaks c a (.file e)
  | output (e : Text.Utf8Error) (h : a.fault = some (.output e)) : Breaks c a (.utf8 e)
  | code (h : a.fault = none) (hcode : a.code ≠ 0) :
    Breaks c a (.command ⟨a.code, c.argv, c.errorsOf a⟩)
  | login (h : a.fault = none) (hcode : a.code ≠ 0) (hlogin : c.argv = ["gh", "auth", "status"])
    (detail : String) : Breaks c a (.step (.notAuthenticated detail))

/-- The failures of known steps that do not come from commands. -/
inductive StepFault : Failure → Prop
  | file (e : FileFault) : StepFault (.file e)
  | utf8 (e : Text.Utf8Error) : StepFault (.utf8 e)
  | noCommand : StepFault (.step .noCommand)
  | noTag : StepFault (.step .noTag)
  | pattern (e : PatternError) : StepFault (.step (.pattern e))
  | noManifest (path : Path) : StepFault (.step (.noManifest path))
  | noPackageVersion (path : Path) : StepFault (.step (.noPackageVersion path))

/-- The relations allow all that known steps do, and all the ways in which they fail. -/
structure Tolerates (R : World → World → Prop) (E : World → Failure → World → Prop) : Prop where
  message : ∀ w level text, R w (w.recorded (.message level text))
  files : ∀ w files, R w { w with files }
  bump : ∀ w (bump : Option Bump),
    R w { w with release := { w.release with bump := bump.map .known } }
  notes : ∀ w notes, R w { w with release := { w.release with notes } }
  served : ∀ w c, (w.answerTo c).Serves → R w (w.executed c)
  broken : ∀ w c e, c.Breaks (w.answerTo c) e → E w e (w.executed c)
  fault : ∀ w e, StepFault e → E w e w
  numeral : ∀ w, ¬ w.release.IsWritable → E w (.numeral .writing) w

theorem Action.execute_of_fault_none {c : Command} {w : World}
    (hfault : (w.answerTo c).fault = none) : execute c w = .ok (w.answerTo c) (w.executed c) := by
  rw [World.answerTo] at hfault ⊢
  rw [execute_apply, hfault]

/-- A command that gives no answer fails after it was executed. -/
theorem Action.execute_of_fault {c : Command} {w : World} {fault : AnswerFault}
    (hfault : (w.answerTo c).fault = some fault) :
    ∃ e, execute c w = .error e (w.executed c) ∧ c.Breaks (w.answerTo c) e := by
  have hrun := execute_apply c w
  rw [World.answerTo] at hfault ⊢
  rw [hfault] at hrun
  cases fault with
  | empty => exact ⟨_, hrun, .empty hfault⟩
  | start e => exact ⟨_, hrun, .start e hfault⟩
  | output e => exact ⟨_, hrun, .output e hfault⟩

variable {α : Type} {R : World → World → Prop} {E : World → Failure → World → Prop}
  [IsPreorder World R] [Absorbs R E] {s : Settings} {phase : Phase} (h : Tolerates R E)

include h

section Parts

omit [IsPreorder World R] [Absorbs R E] in
theorem relates_log (level : Level) (text : String) : Relates R E (log level text) :=
  fun w => h.message w level text

omit [Absorbs R E] in
theorem relates_file {r : Except FileFault α} : Relates R E (Action.ofExcept (r.mapError .file)) := by
  refine relates_ofExcept fun e he w => ?_
  obtain ⟨fault, -, rfl⟩ := mapError_eq_error.mp he
  exact h.fault w _ (.file fault)

theorem relates_readText (p : Path) : Relates R E (readText p) := by
  refine relates_get_bind fun w => relates_bind (relates_file h) fun bytes => ?_
  refine relates_ofExcept fun e he w => ?_
  obtain ⟨fault, -, rfl⟩ := mapError_eq_error.mp he
  exact h.fault w _ (.utf8 fault)

omit [Absorbs R E] in
theorem relates_pathExists (p : Path) : Relates R E (pathExists p) :=
  relates_get_bind fun _ => relates_file h

omit [IsPreorder World R] [Absorbs R E] in
theorem relates_writeText (p : Path) (text : String) : Relates R E (writeText p text) := by
  intro w
  refine relatesAt_get_bind ?_
  cases hfiles : (w.files.write w.here p text.toUTF8).mapError Failure.file with
  | ok files => exact h.files w files
  | error e =>
    obtain ⟨fault, -, rfl⟩ := mapError_eq_error.mp hfiles
    exact h.fault w _ (.file fault)

theorem relates_makeDirectories (p : Path) : Relates R E (makeDirectories p) := by
  intro w
  refine relatesAt_get_bind ?_
  have hset : RelatesAt R E
      (set { w with files := (w.files.makeDirectories w.here p.names.length p).1 } : Action PUnit) w :=
    h.files w _
  exact relatesAt_bind hset fun _ w' _ => relates_file h w'

omit [Absorbs R E] in
theorem relates_fillIn {text : String} (htext : Template.Known text) :
    Relates R E (Options.fillIn text) := by
  intro w
  have hrun : Options.fillIn text w = Action.ofExcept (Options.filled text w.release) w := rfl
  rw [RelatesAt, hrun]
  cases hfilled : Options.filled text w.release with
  | ok filled => exact refl_of R w
  | error e =>
    obtain ⟨hlong, rfl⟩ := Template.of_filled_eq_error htext hfilled
    exact h.numeral w hlong

omit [Absorbs R E] in
theorem relates_nextText : Relates R E Options.nextText := by
  intro w
  have hrun : Options.nextText w =
      Action.ofExcept (w.release.nextText.mapError Failure.numeral) w := rfl
  rw [RelatesAt, hrun]
  cases hnext : w.release.nextText with
  | ok version => exact refl_of R w
  | error e =>
    obtain ⟨-, rfl⟩ := Release.nextText_eq_error_iff.mp hnext
    exact h.numeral w (Release.not_isWritable_of_nextText hnext)

omit [IsPreorder World R] [Absorbs R E] in
theorem relates_values_bind {f : Value → Action α}
    (hf : ∀ r values, Release.values r = .ok values → Relates R E (f values)) :
    Relates R E (release >>= fun r => Action.ofExcept (r.values.mapError .numeral) >>= f) := by
  intro w
  have hrelease : RelatesAt R E
      (Action.ofExcept (w.release.values.mapError Failure.numeral) >>= f) w := by
    cases hvalues : w.release.values with
    | ok values => exact hf w.release values hvalues w
    | error e =>
      obtain ⟨hlong, rfl⟩ := Release.values_eq_error_iff.mp hvalues
      exact h.numeral w hlong
  exact hrelease

/-- After a command that serves the action goes on; after any other it breaks off. -/
theorem relates_execute_bind {c : Command} {f : Answer → Action α}
    (hserves : ∀ a : Answer, a.Serves → Relates R E (f a))
    (hbreaks : ∀ a : Answer, a.fault = none → a.code ≠ 0 →
      ∀ w, ∃ e, f a w = .error e w ∧ c.Breaks a e) : Relates R E (execute c >>= f) := by
  intro w
  cases hfault : (w.answerTo c).fault with
  | some fault =>
    obtain ⟨e, hrun, he⟩ := execute_of_fault hfault
    rw [RelatesAt, bind_apply, hrun]
    exact h.broken w c e he
  | none =>
    have hrun := execute_of_fault_none hfault
    by_cases hcode : (w.answerTo c).code = 0
    · have hserve : RelatesAt R E (execute c) w := by
        rw [RelatesAt, hrun]
        exact h.served w c ⟨hfault, hcode⟩
      refine relatesAt_bind hserve fun a w' ha => ?_
      rw [hrun] at ha
      cases ha
      exact hserves _ ⟨hfault, hcode⟩ _
    · obtain ⟨e, herror, he⟩ := hbreaks _ hfault hcode (w.executed c)
      rw [RelatesAt, bind_apply, hrun]
      simp only [herror]
      exact h.broken w c e he

theorem relates_run {effect : Effect} {c : Command} : Relates R E (run s effect true c) := by
  refine relates_bind (relates_log h _ _) fun _ => ?_
  split
  · exact relates_pure _
  · refine relates_execute_bind h (fun a ha => ?_) fun a hfault hcode w => ?_
    · simp only [ha.2, ne_eq, not_true_eq_false, decide_false, Bool.and_false, Bool.false_eq_true,
        if_false]
      exact relates_pure _
    · simp only [hcode, ne_eq, not_false_eq_true, decide_true, Bool.and_true, if_true]
      exact ⟨_, rfl, .code hfault hcode⟩

end Parts

section Tools

theorem relates_gitRead {args : List String} : Relates R E (Git.read s args) :=
  relates_bind (relates_run h) fun _ => relates_pure _

theorem relates_gitChange {args : List String} : Relates R E (Git.change s args) :=
  relates_bind (relates_run h) fun _ => relates_pure _

omit [Absorbs R E] in
theorem relates_logOutput (name output : String) : Relates R E (Shell.logOutput name output) := by
  rw [Shell.logOutput]
  split
  · exact relates_pure _
  · exact relates_log h _ _

theorem relates_shellRun {command : String} {cwd : Option Path} :
    Relates R E (Shell.run s command cwd) := by
  refine relates_bind (relates_run h) fun result => ?_
  exact relates_bind (relates_logOutput h _ _) fun _ =>
    relates_bind (relates_logOutput h _ _) fun _ => relates_pure _

theorem relates_createRelease {tag title notes : String} {prerelease : Bool}
    {assets : List GitHub.Asset} :
    Relates R E (GitHub.createRelease s tag title notes prerelease assets) :=
  relates_bind (relates_run h) fun _ => relates_pure _

/-- The question for the user asks for no success, but the step does. -/
theorem relates_verify : Relates R E (GitHubRelease.verify s) := by
  rw [GitHubRelease.verify]
  split
  · exact relates_pure _
  · simp only [GitHub.authStatus, run, bind_assoc, pure_bind]
    refine relates_bind (relates_log h _ _) fun _ => ?_
    simp only [reduceCtorEq, decide_false, Bool.and_false, Bool.false_and, Bool.false_eq_true,
      if_false, bind_assoc, pure_bind]
    refine relates_execute_bind h (fun a ha => ?_) fun a hfault hcode w => ?_
    · simp only [ha.2]
      exact relates_pure _
    · simp only [hcode]
      exact ⟨_, rfl, .login hfault hcode rfl _⟩

end Tools

section Steps

theorem relates_changelog (file : String) (title : Option String) :
    Relates R E ((Changelog.step file title).apply s phase) := by
  simp only [Changelog.step]
  split
  · exact relates_pure _
  · have hwritten (text report : String) : Relates R E (do
        makeDirectories (s.root.join (.ofText file)).parent
        writeText (s.root.join (.ofText file)) text
        return report) := by
      refine relates_bind (relates_makeDirectories h _) fun _ => ?_
      exact relates_bind (relates_writeText h _ _) fun _ => relates_pure _
    refine relates_bind (relates_pathExists h _) fun found => ?_
    split
    · refine relates_bind (relates_readText h _) fun current => ?_
      exact relates_bind relates_release fun r => hwritten _ _
    · refine relates_bind (relates_pure _) fun current => ?_
      exact relates_bind relates_release fun r => hwritten _ _

theorem relates_exec {commands : List (Phase × String)} (cwd : Option String)
    (hcommands : ∀ c ∈ commands, Template.Known c.2) :
    Relates R E ((Exec.step commands cwd).apply s phase) := by
  simp only [Exec.step]
  split
  · exact relates_throw fun w => h.fault w _ .noCommand
  · rename_i text htext
    obtain ⟨before, after, hmem, -⟩ := List.lookup_eq_some_iff.mp htext
    have hknown : Template.Known text := hcommands (phase, text) (by simp [hmem])
    refine relates_bind (relates_fillIn h hknown) fun command => ?_
    split
    · exact relates_pure _
    · refine relates_get_bind fun w => ?_
      exact relates_bind (relates_shellRun h) fun _ => relates_pure _

theorem relates_assetsOf {values : Value} {spec : GitHubRelease.AssetSpec}
    (hlabel : ∀ text, spec.label = some text → ∃ out, Template.render text values = .ok out) :
    Relates R E (GitHubRelease.assetsOf s values spec) := by
  refine relates_get_bind fun w => relates_bind (relates_ofExcept fun e he w => ?_) fun pattern => ?_
  · obtain ⟨fault, -, rfl⟩ := mapError_eq_error.mp he
    exact h.fault w _ (.pattern fault)
  · refine relates_bind (relates_file h) fun found => ?_
    split
    · exact relates_bind (relates_log h _ _) fun _ => relates_pure _
    · refine relates_bind ?_ fun _ => relates_pure _
      cases hspec : spec.label with
      | none => exact relates_pure _
      | some text =>
        obtain ⟨out, hout⟩ := hlabel text hspec
        simp only [Option.mapM_some, hout]
        exact relates_pure _

theorem relates_publish {specs : List GitHubRelease.AssetSpec}
    (hlabels : ∀ spec ∈ specs, ∀ text, spec.label = some text → Template.Known text) :
    Relates R E (GitHubRelease.publish s specs) := by
  refine relates_bind relates_release fun r => ?_
  split
  · exact relates_throw fun w => h.fault w _ .noTag
  · split
    · exact relates_pure _
    · refine relates_values_bind h fun r values hvalues => relates_bind ?_ fun assets => ?_
      · refine relates_mapM fun spec hspec => relates_assetsOf h fun text htext => ?_
        exact Template.exists_render_of_values (hlabels spec hspec text htext) hvalues
      · refine relates_bind relates_release fun r => ?_
        exact relates_bind (relates_createRelease h) fun _ => relates_pure _

theorem relates_github {specs : List GitHubRelease.AssetSpec}
    (hlabels : ∀ spec ∈ specs, ∀ text, spec.label = some text → Template.Known text) :
    Relates R E ((GitHubRelease.step specs).apply s phase) := by
  simp only [GitHubRelease.step]
  split
  · exact relates_verify h
  · exact relates_publish h hlabels

theorem relates_commit (assets : List String) {message : String} (hmessage : Template.Known message) :
    Relates R E ((GitCommit.step assets message).apply s phase) := by
  have hchanged : Relates R E (Git.changedFiles s assets) :=
    relates_bind (relates_gitRead h) fun _ => relates_pure _
  refine relates_bind hchanged fun changed => ?_
  split
  · exact relates_pure _
  · split
    · exact relates_pure _
    · refine relates_bind (relates_fillIn h hmessage) fun message => ?_
      refine relates_bind (relates_gitChange h) fun _ => ?_
      refine relates_bind (relates_gitChange h) fun _ => ?_
      refine relates_bind relates_release fun r => ?_
      exact relates_bind (relates_gitChange h) fun _ => relates_pure _

theorem relates_setVersion (version : String) (path : Path) :
    Relates R E (CargoVersion.setVersion version path) := by
  refine relates_bind (relates_pathExists h _) fun found => ?_
  cases found with
  | false => exact relates_throw_bind (fun w => h.fault w _ (.noManifest path)) _
  | true =>
    refine relates_bind (relates_readText h _) fun text => ?_
    split
    rename_i updated changed _
    cases changed with
    | false => exact relates_throw_bind (fun w => h.fault w _ (.noPackageVersion path)) _
    | true => exact relates_writeText h _ _

theorem relates_manifests (files : List String) :
    Relates R E ((CargoVersion.step files).apply s phase) := by
  refine relates_bind (relates_nextText h) fun version => ?_
  split
  · exact relates_pure _
  · exact relates_bind (relates_forM (fun _ => relates_setVersion h _ _) files) fun _ =>
      relates_pure _

/-- What the known steps do and how they fail, in any phase. -/
theorem relates_apply {st : Step} (hst : st.Vetted) : Relates R E (st.apply s phase) := by
  cases hst with
  | analysis rules =>
    refine relates_bind relates_release fun r => ?_
    exact relates_bind (fun w => h.bump w _) fun _ => relates_pure _
  | notes types url =>
    refine relates_bind relates_release fun r => relates_bind (relates_nextText h) fun _ => ?_
    exact relates_bind (fun w => h.notes w _) fun _ => relates_pure _
  | changelog file title => exact relates_changelog h file title
  | exec commands cwd hcommands => exact relates_exec h cwd hcommands
  | github specs hlabels => exact relates_github h hlabels
  | commit assets message hmessage => exact relates_commit h assets hmessage
  | manifests files => exact relates_manifests h files

end Steps

end ReleasePipeline
