import ReleasePipeline.Proofs.Except
import ReleasePipeline.Proofs.Run.Action
import ReleasePipeline.Plugin.Options
import ReleasePipeline.Tool.Git
import ReleasePipeline.Tool.GitHub
import ReleasePipeline.Tool.Shell

/-! What the messages, the files and the commands of an action amount to, for every relation between
worlds that allows them. -/
namespace ReleasePipeline

/-- The relation allows messages, the commands in `may` and, where `write`, changes of the files. -/
structure Admits (R : World → World → Prop) (write : Prop) (may : List String → Prop) : Prop where
  message : ∀ w level text, R w (w.recorded (.message level text))
  files : write → ∀ w files, R w { w with files }
  run : ∀ w c, may c.argv → R w (w.executed c)

theorem admits_under {R : World → World → Prop} {write : Prop} {may : List String → Prop}
    {k : Release → Prop} (h : Admits R write may) : Admits (Action.Under k R) write may where
  message w level text hw := ⟨hw, h.message w level text⟩
  files hwrite w files hw := ⟨hw, h.files hwrite w files⟩
  run w c hc hw := ⟨hw, h.run w c hc⟩

variable {R : World → World → Prop} [IsPreorder World R] {write : Prop} {may : List String → Prop}
  {s : Settings}

namespace Action

theorem keeps_readText (p : Path) : Keeps R (readText p) :=
  keeps_bind keeps_get fun _ => keeps_bind (keeps_ofExcept _) fun _ => keeps_ofExcept _

/-- Reading a text leaves the world as it is. -/
theorem keeps_readText_bind {α : Type} {p : Path} {f : String → Action α}
    (h : ∀ w text, readText p w = .ok text w → R w ((f text).after w)) :
    Keeps R (readText p >>= f) := by
  intro w
  have hsame : Keeps Eq (readText p) := keeps_readText p
  rw [after, bind_apply]
  cases hread : readText p w with
  | error e w' =>
    obtain rfl : w = w' := rel_of_error hsame hread
    exact refl_of R w
  | ok text w' =>
    obtain rfl : w = w' := rel_of_ok hsame hread
    exact h w text hread

theorem keeps_pathExists (p : Path) : Keeps R (pathExists p) :=
  keeps_bind keeps_get fun _ => keeps_ofExcept _

theorem keeps_fillIn (text : String) : Keeps R (Options.fillIn text) :=
  keeps_bind keeps_release fun _ => keeps_ofExcept _

theorem keeps_fillIn_bind {α : Type} {k : Release → Prop} {text : String} {f : String → Action α}
    (h : ∀ r out, k r → Options.filled text r = .ok out → Keeps (Under k R) (f out)) :
    Keeps (Under k R) (Options.fillIn text >>= f) := by
  rw [Options.fillIn, bind_assoc]
  exact keeps_release_bind fun r hr => keeps_ofExcept_bind fun out hout => h r out hr hout

theorem keeps_nextText : Keeps R Options.nextText :=
  keeps_bind keeps_release fun _ => keeps_ofExcept _

theorem keeps_nextText_bind {α : Type} {k : Release → Prop} {f : String → Action α}
    (h : ∀ r version, k r → r.nextText = .ok version → Keeps (Under k R) (f version)) :
    Keeps (Under k R) (Options.nextText >>= f) := by
  rw [Options.nextText, bind_assoc]
  refine keeps_release_bind fun r hr => keeps_ofExcept_bind fun version hversion => ?_
  exact h r version hr (mapError_eq_ok.mp hversion)

omit [IsPreorder World R] in
theorem keeps_log (h : Admits R write may) (level : Level) (text : String) :
    Keeps R (log level text) := fun w => h.message w level text

/-- A text is written, or nothing happens. -/
theorem after_writeText {p : Path} {text : String} {w : World}
    (h : ∀ files, w.files.write w.here p text.toUTF8 = .ok files → R w { w with files }) :
    R w ((writeText p text).after w) := by
  have hafter : (writeText p text).after w = (do
      let files ← ofExcept ((w.files.write w.here p text.toUTF8).mapError Failure.file)
      set { w with files } : Action Unit).after w := rfl
  rw [hafter]
  cases hwrite : w.files.write w.here p text.toUTF8 with
  | error e => exact refl_of R w
  | ok files => exact h files hwrite

theorem keeps_writeText (h : Admits R write may) (hw : write) (p : Path) (text : String) :
    Keeps R (writeText p text) := fun w => after_writeText fun files _ => h.files hw w files

omit [IsPreorder World R] in
theorem after_makeDirectories (p : Path) (w : World) : (makeDirectories p).after w =
    { w with files := (w.files.makeDirectories w.here p.names.length p).1 } := by
  let made := w.files.makeDirectories w.here p.names.length p
  have hsame : Keeps Eq (ofExcept (made.2.mapError Failure.file)) := keeps_ofExcept _
  exact (hsame { w with files := made.1 }).symm

omit [IsPreorder World R] in
theorem keeps_makeDirectories (h : Admits R write may) (hw : write) (p : Path) :
    Keeps R (makeDirectories p) := by
  intro w
  rw [after_makeDirectories]
  exact h.files hw w _

omit [IsPreorder World R] in
/-- A command leaves the same world behind where it gives an answer and where it gives none. -/
theorem execute_apply (c : Command) (w : World) : execute c w =
    match (w.answers c.argv (w.recorded (.run c)).events).fault with
    | none => .ok (w.answers c.argv (w.recorded (.run c)).events) (w.executed c)
    | some .empty => .error .emptyCommand (w.executed c)
    | some (.start e) => .error (.file e) (w.executed c)
    | some (.output e) => .error (.utf8 e) (w.executed c) := by
  let answer := w.answers c.argv (w.recorded (.run c)).events
  have h : execute c w = (match answer.fault with
      | none => pure answer
      | some .empty => throw .emptyCommand
      | some (.start e) => throw (.file e)
      | some (.output e) => throw (.utf8 e) : Action Answer) (w.executed c) := rfl
  rw [h]
  cases hfault : answer.fault with
  | none => rfl
  | some e => cases e <;> rfl

omit [IsPreorder World R] in
theorem after_execute (c : Command) (w : World) : (execute c).after w = w.executed c := by
  rw [after, execute_apply]
  cases (w.answers c.argv (w.recorded (.run c)).events).fault with
  | none => rfl
  | some e => cases e <;> rfl

/-- A dry run leaves out what may change something. -/
theorem keeps_run {effect : Effect} {check : Bool} {c : Command} (h : Admits R write may)
    (hc : (s.dryRun = true ∧ effect = .changing) ∨ may c.argv) :
    Keeps R (run s effect check c) := by
  refine keeps_bind (keeps_log h _ _) fun _ => ?_
  by_cases hskip : s.dryRun && effect = .changing
  · rw [if_pos hskip]
    exact keeps_pure _
  · rw [if_neg hskip]
    have hmay : may c.argv := by
      rcases hc with ⟨hdry, heffect⟩ | hmay
      · exact absurd (by simp [hdry, heffect]) hskip
      · exact hmay
    refine keeps_bind (fun w => ?_) fun answer => ?_
    · rw [after_execute]
      exact h.run w c hmay
    · by_cases hfail : (check && decide (answer.code ≠ 0)) = true
      · simp only [if_pos hfail]
        exact keeps_throw_bind _ _
      · simp only [if_neg hfail]
        exact keeps_pure _

omit [IsPreorder World R] in
/-- A command that is run leaves behind a message and itself, whatever it answers. -/
theorem meets_run {P Q E : World → Prop} {effect : Effect} {check : Bool} {c : Command}
    (hdone : s.dryRun = false ∨ effect = .reading)
    (h : ∀ w text, P w → Q ((w.recorded (.message .debug text)).executed c))
    (hE : ∀ w, Q w → E w) : Meets P (run s effect check c) (fun _ => Q) E := by
  let told := s!"RUN {Text.shellLine c.argv}"
  have hskip : ¬ (s.dryRun && decide (effect = .changing)) = true := by
    rcases hdone with hdone | hdone <;> simp [hdone]
  refine meets_bind (Q := fun _ w => ∃ w₁, P w₁ ∧ w = w₁.recorded (.message .debug told))
    (fun w hw => ⟨w, hw, rfl⟩) fun _ => ?_
  rw [if_neg hskip]
  refine meets_bind (meets_of_after (Q := Q) ?_ hE) fun answer => ?_
  · rintro w ⟨w₁, hw₁, rfl⟩
    rw [after_execute]
    exact h w₁ told hw₁
  · by_cases hfail : (check && decide (answer.code ≠ 0)) = true
    · simp only [if_pos hfail]
      exact hE
    · simp only [if_neg hfail]
      exact meets_pure fun _ hw => hw

omit [IsPreorder World R] in
theorem output_of_run {check : Bool} {c : Command} {w w' : World} {result : CommandResult}
    (hc : c.captured = true) (h : run s .reading check c w = .ok result w') :
    ∃ before, result.output = (w.answers c.argv before).output := by
  have hexecute : Meets (fun w' => w'.answers = w.answers) (execute c)
      (fun answer _ => ∃ before, answer = w.answers c.argv before) fun _ => True := by
    intro w' hw'
    rw [execute_apply, hw']
    cases (w.answers c.argv (w'.recorded (.run c)).events).fault with
    | none => exact ⟨_, rfl⟩
    | some e => cases e <;> trivial
  have hrun : Meets (fun w' => w'.answers = w.answers) (run s .reading check c)
      (fun result _ => ∃ before, result.output = (w.answers c.argv before).output)
      fun _ => True := by
    refine meets_bind (Q := fun _ w' => w'.answers = w.answers) (fun _ hw' => hw') fun _ => ?_
    simp only [reduceCtorEq, decide_false, Bool.and_false, Bool.false_eq_true, if_false]
    refine meets_bind hexecute fun answer => ?_
    by_cases hfail : (check && decide (answer.code ≠ 0)) = true
    · simp only [if_pos hfail]
      exact fun _ _ => trivial
    · simp only [if_neg hfail, hc]
      refine meets_pure ?_
      rintro w' ⟨before, rfl⟩
      exact ⟨before, rfl⟩
  have hw := hrun w rfl
  rwa [h] at hw

end Action

namespace Git

open ReleasePipeline.Action

theorem keeps_read {args : List String} (h : Admits R write may) (hmay : may ("git" :: args)) :
    Keeps R (read s args) :=
  keeps_bind (keeps_run h (.inr hmay)) fun _ => keeps_pure _

omit [IsPreorder World R] in
theorem output_of_read {args : List String} {output : String} {w w' : World}
    (h : read s args w = .ok output w') :
    ∃ before, output = (w.answers ("git" :: args) before).output := by
  obtain ⟨result, w₁, hrun, hresult⟩ := bind_apply_eq_ok.mp h
  cases hresult
  exact output_of_run rfl hrun

omit [IsPreorder World R] in
theorem meets_read {P Q E : World → Prop} {args : List String}
    (h : ∀ w text, P w → Q ((w.recorded (.message .debug text)).executed (command s args)))
    (hE : ∀ w, Q w → E w) : Meets P (read s args) (fun _ => Q) E :=
  meets_bind (meets_run (.inr rfl) h hE) fun _ => meets_pure fun _ hw => hw

omit [IsPreorder World R] in
theorem meets_change {P Q E : World → Prop} {args : List String} (hreal : s.dryRun = false)
    (h : ∀ w text, P w → Q ((w.recorded (.message .debug text)).executed (command s args)))
    (hE : ∀ w, Q w → E w) : Meets P (change s args) (fun _ => Q) E :=
  meets_bind (meets_run (.inl hreal) h hE) fun _ => meets_pure fun _ hw => hw

theorem keeps_change {args : List String} (h : Admits R write may)
    (hmay : s.dryRun = false → may ("git" :: args)) : Keeps R (change s args) := by
  refine keeps_bind (keeps_run h ?_) fun _ => keeps_pure _
  cases hdry : s.dryRun with
  | false => exact .inr (hmay hdry)
  | true => exact .inl ⟨rfl, rfl⟩

/-- The words that push the present commit to a branch. -/
def branchPush (remote branch : String) : List String :=
  ["push", remote, s!"HEAD:refs/heads/{branch}"]

/-- Where the relation allows to push to the branch of a release, it allows the release to do so. -/
theorem keeps_push (hmessage : ∀ w level text, R w (w.recorded (.message level text)))
    (hpush : s.dryRun = false → ∀ w c, c.argv = "git" :: branchPush s.remote w.release.branch →
      R w (w.executed c)) : Keeps R (do push s s.remote (← Action.release).branch) := by
  intro w
  let k := fun r : Release => r.branch = w.release.branch
  have hbranch : Admits (Under k R) False fun argv =>
      s.dryRun = false ∧ argv = "git" :: branchPush s.remote w.release.branch :=
    { message := fun w' level text hw' => ⟨hw', hmessage w' level text⟩
      files := False.elim
      run := fun w' c hc hw' => ⟨hw', hpush hc.1 w' c (hw' ▸ hc.2)⟩ }
  exact (keeps_change hbranch (fun hreal => ⟨hreal, rfl⟩) w rfl).2

theorem keeps_changedFiles {paths : List String} (h : Admits R write may)
    (hmay : may ("git" :: statusListing paths)) : Keeps R (changedFiles s paths) :=
  keeps_bind (keeps_read h hmay) fun _ => keeps_pure _

end Git

namespace GitHub

open ReleasePipeline.Action

theorem keeps_authStatus (h : Admits R write may) (hmay : may ["gh", "auth", "status"]) :
    Keeps R (authStatus s) :=
  keeps_bind (keeps_run h (.inr hmay)) fun _ => keeps_pure _

/-- The words that publish a release of a tag. -/
def creation (tag title : String) (prerelease : Bool) (assets : List Asset) : List String :=
  ["gh", "release", "create", tag, "--title", title, "--notes-file", "-", "--verify-tag"] ++
    (if prerelease then ["--prerelease"] else []) ++ assets.map Asset.argument

theorem keeps_createRelease {tag title notes : String} {prerelease : Bool} {assets : List Asset}
    (h : Admits R write may) (hmay : may (creation tag title prerelease assets)) :
    Keeps R (createRelease s tag title notes prerelease assets) :=
  keeps_bind (keeps_run h (.inr hmay)) fun _ => keeps_pure _

end GitHub

namespace Shell

open ReleasePipeline.Action

theorem keeps_logOutput (h : Admits R write may) (name output : String) :
    Keeps R (logOutput name output) := by
  rw [logOutput]
  split
  · exact keeps_pure _
  · exact keeps_log h _ _

theorem keeps_run {command : String} {cwd : Option Path} (h : Admits R write may)
    (hmay : may ["bash", "-c", script command]) : Keeps R (run s command cwd) := by
  refine keeps_bind (Action.keeps_run h (.inr hmay)) fun result => ?_
  exact keeps_bind (keeps_logOutput h _ _) fun _ =>
    keeps_bind (keeps_logOutput h _ _) fun _ => keeps_pure _

end Shell

end ReleasePipeline
