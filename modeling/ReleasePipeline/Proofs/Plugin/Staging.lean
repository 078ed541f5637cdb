import ReleasePipeline.Proofs.Tool.Reading
import ReleasePipeline.Proofs.Tool.StatusListing

/-! Which files a release commits: those that the status of the repository lists, with a line feed for
each line ending, and none where it lists none. -/
namespace ReleasePipeline

open ReleasePipeline.Action

/-- Since the world `w₀` commands of these words were executed, and the release stayed as it was. -/
structure Issued (w₀ : World) (argvs : List (List String)) (w : World) : Prop where
  release : w.release = w₀.release
  events : ∃ es, w.events = w₀.events ++ es ∧ (commandsOf es).map (·.argv) = argvs

variable {s : Settings} {phase : Phase} {w w₀ : World} {argvs : List (List String)}
  {args assets files : List String} {message text : String}

theorem issued_nothing (w : World) : Issued w [] w := ⟨rfl, [], (List.append_nil _).symm, rfl⟩

/-- A command that is announced and executed comes after those before it. -/
theorem issued_executed (h : Issued w₀ argvs w) (level : Level) (text : String) (c : Command) :
    Issued w₀ (argvs ++ [c.argv]) ((w.recorded (.message level text)).executed c) := by
  obtain ⟨es, hes, hargvs⟩ := h.events
  refine ⟨h.release, es ++ [.message level text, .run c], ?_, ?_⟩
  · simp [World.executed, World.recorded, hes]
  · rw [commandsOf_append, List.map_append, hargvs]
    rfl

theorem Issued.argvs_eq {α : Type} {x : Action α} (h : Issued w argvs (x.after w)) :
    (commandsOf (x.shown w)).map (·.argv) = argvs := by
  obtain ⟨es, hes, hargvs⟩ := h.events
  rw [shown_of_append hes, hargvs]

theorem meets_change_issued {E : World → Prop} (hreal : s.dryRun = false)
    (hE : ∀ w, Issued w₀ (argvs ++ ["git" :: args]) w → E w) :
    Meets (Issued w₀ argvs) (Git.change s args)
      (fun _ => Issued w₀ (argvs ++ ["git" :: args])) E := by
  apply Git.meets_change hreal
  · intro w text h
    exact issued_executed h .debug text (Git.command s args)
  · exact hE

namespace GitCommit

/-- The words of the commands that commit files and push the commit. -/
def work (s : Settings) (r : Release) (files : List String) (message : String) :
    List (List String) :=
  ["git" :: (["add", "--force", "--ignore-errors", "--"] ++ files),
   ["git", "commit", "-m", message], "git" :: Git.branchPush s.remote r.branch]

/-- The work, with a report of it at the end. -/
def carryOut (s : Settings) (files : List String) (message report : String) : Action String := do
  Git.add s files
  Git.commit s message
  Git.push s s.remote (← Action.release).branch
  return report

/-- After the status of the repository the files were added at least, and then the work went on. -/
def Begun (s : Settings) (assets files : List String) (message : String) (w₀ w : World) : Prop :=
  ∃ done, done ≠ [] ∧ done <+: work s w₀.release files message ∧
    Issued w₀ (("git" :: Git.statusListing assets) :: done) w

/-- The work goes on from command to command until one of them fails. -/
theorem meets_work (hreal : s.dryRun = false) (assets files : List String)
    (message report : String) :
    Meets (Issued w₀ ["git" :: Git.statusListing assets]) (carryOut s files message report)
      (fun result w => result = report ∧ Issued w₀ (("git" :: Git.statusListing assets) ::
        work s w₀.release files message) w)
      (Begun s assets files message w₀) := by
  have hbegun (first : List String) (rest more : List (List String))
      (hwork : first :: rest ++ more = work s w₀.release files message) (w : World)
      (h : Issued w₀ (("git" :: Git.statusListing assets) :: first :: rest) w) :
      Begun s assets files message w₀ w :=
    ⟨first :: rest, List.cons_ne_nil first rest, ⟨more, hwork⟩, h⟩
  refine meets_bind (meets_change_issued hreal (hbegun _ _ _ rfl)) fun _ => ?_
  refine meets_bind (meets_change_issued hreal (hbegun _ _ _ rfl)) fun _ => ?_
  intro w h
  have hbranch : Action.release w = .ok w₀.release w := by
    rw [← h.release]
    rfl
  have hpush : Meets
      (Issued w₀ (("git" :: Git.statusListing assets) :: (work s w₀.release files message).take 2))
      (Git.push s s.remote w₀.release.branch)
      (fun _ => Issued w₀ (("git" :: Git.statusListing assets) :: work s w₀.release files message))
      (Begun s assets files message w₀) :=
    meets_change_issued hreal (hbegun _ _ [] rfl)
  rw [bind_apply, hbranch]
  exact meets_bind hpush (fun _ => meets_pure fun _ h => ⟨rfl, h⟩) w h

/-- The commands of the work that were executed: one of them at least, all where the step returns. -/
theorem exists_done (hreal : s.dryRun = false) (assets files : List String) (message report : String)
    (h : Issued w₀ ["git" :: Git.statusListing assets] w) :
    ∃ done, Issued w₀ (("git" :: Git.statusListing assets) :: done)
        ((carryOut s files message report).after w) ∧
      done ≠ [] ∧ done <+: work s w₀.release files message ∧
      ∀ result w', carryOut s files message report w = .ok result w' →
        done = work s w₀.release files message := by
  have hwork := meets_work hreal assets files message report w h
  cases hx : carryOut s files message report w with
  | ok result w' =>
    rw [hx] at hwork
    refine ⟨_, ?_, List.cons_ne_nil _ _, List.prefix_rfl, fun _ _ _ => rfl⟩
    rw [after_of_ok hx]
    exact hwork.2
  | error e w' =>
    rw [hx] at hwork
    obtain ⟨done, hne, hstarted, hissued⟩ := hwork
    refine ⟨done, ?_, hne, hstarted, fun _ _ h => nomatch h⟩
    rwa [after_of_error hx]

section Status

variable {entries : List Git.StatusEntry}
  (hstatus : Git.Prints w (Git.statusListing assets) (Git.statusText entries))

include hstatus

/-- The files that changed are those of the listing. -/
theorem exists_changedFiles : ∃ w', Git.changedFiles s assets w =
    .ok (entries.map (Text.unified ·.path)) w' ∧
      Issued w ["git" :: Git.statusListing assets] w' := by
  have hread : Git.read s (Git.statusListing assets) w =
      .ok (Text.unified (Git.statusText entries)) _ :=
    Git.read_of_answers (Git.answers_of_prints hstatus)
  let line := Text.shellLine ("git" :: Git.statusListing assets)
  have hissued := issued_executed (issued_nothing w) .debug s!"RUN {line}"
    (Git.command s (Git.statusListing assets))
  refine ⟨_, bind_apply_eq_ok.mpr ⟨_, _, hread, ?_⟩, hissued⟩
  rw [Git.unified_statusText, Git.pathsOf_statusText, List.map_map]
  rfl

/-- Where no file changed, the step has nothing more to do. -/
theorem apply_of_nothing (phase : Phase) (hnone : entries.map (Text.unified ·.path) = []) :
    ∃ w', (step assets message).apply s phase w =
        .ok "No release assets changed; nothing to commit." w' ∧
      Issued w ["git" :: Git.statusListing assets] w' := by
  obtain ⟨w₁, hchanged, hissued⟩ := exists_changedFiles (s := s) hstatus
  refine ⟨w₁, bind_apply_eq_ok.mpr ⟨_, w₁, hchanged, ?_⟩, hissued⟩
  rw [hnone]
  rfl

/-- Where files changed, the step goes on to fill in the message and to commit them with it. -/
theorem apply_of_files (phase : Phase) (message : String) (hreal : s.dryRun = false)
    (hsome : entries.map (Text.unified ·.path) ≠ []) :
    ∃ report w₁, Issued w ["git" :: Git.statusListing assets] w₁ ∧
      (step assets message).apply s phase w =
        (ofExcept (Options.filled message w.release) >>= fun text =>
          carryOut s (entries.map (Text.unified ·.path)) text report) w₁ := by
  obtain ⟨w₁, hchanged, hissued⟩ := exists_changedFiles (s := s) hstatus
  have hnonempty : (entries.map (Text.unified ·.path)).isEmpty = false := by simpa using hsome
  let listed := s!"{(entries.map (Text.unified ·.path)).length} files: " ++
    String.intercalate ", " (entries.map (Text.unified ·.path))
  refine ⟨s!"Committed {listed}.", w₁, hissued, ?_⟩
  simp only [step]
  rw [bind_apply, hchanged, ← hissued.release]
  simp only [hnonempty, hreal, Bool.false_eq_true, if_false]
  rfl

/-- The step commits the listed files, or nothing if there are none. It fails before the first of its
commands that change something where the message is not filled in. -/
theorem listed_files_committed (phase : Phase) (hreal : s.dryRun = false)
    (hmessage : Template.Known message) :
    let files := entries.map (Text.unified ·.path)
    let x := (step assets message).apply s phase
    (∃ w', Git.changedFiles s assets w = .ok files w') ∧
    ∃ done, (commandsOf (x.shown w)).map (·.argv) = ("git" :: Git.statusListing assets) :: done ∧
      (files = [] → done = []) ∧
      (files ≠ [] → w.release.IsWritable → ∃ text, Options.filled message w.release = .ok text ∧
        done ≠ [] ∧ done <+: work s w.release files text ∧
        ∀ report w', x w = .ok report w' → done = work s w.release files text) ∧
      (files ≠ [] → ¬ w.release.IsWritable →
        done = [] ∧ ∃ w', x w = .error (.numeral .writing) w') := by
  intro files x
  obtain ⟨w₁, hchanged, -⟩ := exists_changedFiles (s := s) hstatus
  refine ⟨⟨w₁, hchanged⟩, ?_⟩
  by_cases hfiles : files = []
  · obtain ⟨w', hx, hissued⟩ := apply_of_nothing hstatus phase hfiles
    refine ⟨[], ?_, fun _ => rfl, fun h => absurd hfiles h, fun h => absurd hfiles h⟩
    apply Issued.argvs_eq
    rwa [after_of_ok hx]
  obtain ⟨report, w₂, hissued, hx⟩ := apply_of_files hstatus phase message hreal hfiles
  by_cases hwritable : w.release.IsWritable
  · obtain ⟨text, htext⟩ := Template.exists_filled hmessage hwritable
    rw [htext] at hx
    change x w = carryOut s files text report w₂ at hx
    obtain ⟨done, hafter, hdone⟩ := exists_done hreal assets files text report hissued
    rw [after, ← hx] at hafter
    rw [← hx] at hdone
    have hargvs := Issued.argvs_eq (x := x) hafter
    exact ⟨done, hargvs, fun h => absurd h hfiles, fun _ _ => ⟨text, htext, hdone⟩,
      fun _ h => absurd hwritable h⟩
  · rw [Template.filled_of_not_isWritable hwritable] at hx
    change x w = .error (.numeral .writing) w₂ at hx
    refine ⟨[], ?_, fun _ => rfl, fun _ h => absurd h hwritable, fun _ _ => ⟨rfl, w₂, hx⟩⟩
    apply Issued.argvs_eq
    rwa [after_of_error hx]

end Status

/-- A file that was renamed, a new one and one that was copied. Paths look like entries, hold blanks
and a line feed, or are short. -/
def movedEntries : List Git.StatusEntry :=
  [{ index := 'R', tree := ' ', path := "R  a", former := some "?? b" },
   { index := '?', tree := '?', path := "a b\nc", former := none },
   { index := ' ', tree := 'C', path := "x", former := some "" }]

/-- A repository in which these files changed. -/
def changedWorld (entries : List Git.StatusEntry) : World where
  answers argv _ :=
    if argv.take 2 = ["git", "status"] then
      ({ output := (Git.statusText entries).toUTF8 } : Printed).read
    else {}
  release := { branch := "main", date := ⟨2024, 5, 1⟩ }

theorem prints_changedWorld (entries : List Git.StatusEntry) (assets : List String) :
    Git.Prints (changedWorld entries) (Git.statusListing assets) (Git.statusText entries) := by
  have hnone : textOfBytes ByteArray.empty = .ok "" := textOfBytes_eq_unified ""
  intro before
  exact Printed.shows_read (p := { output := (Git.statusText entries).toUTF8 }) rfl rfl hnone

theorem moved_files_committed :
    let s : Settings := { root := .ofText "/repo" }
    let files := ["R  a", "a b\nc", "x"]
    let w := changedWorld movedEntries
    (∃ w', Git.changedFiles s ["."] w = .ok files w') ∧
    (commandsOf (((step ["."] "release").apply s .prepare).shown w)).map (·.argv) =
      ("git" :: Git.statusListing ["."]) :: work s w.release files "release" := by
  intro s files w
  have hmessage : Template.Known "release" := by
    have hnone : Template.placeholders "release" = [] := by decide +kernel
    intro p hp
    rw [hnone] at hp
    exact absurd hp List.not_mem_nil
  have hfiles : movedEntries.map (Text.unified ·.path) = files := by decide +kernel
  have hwritable : w.release.IsWritable := ⟨by rintro _ ⟨⟩, by rintro _ ⟨⟩⟩
  obtain ⟨hchanged, done, hcommands, -, hsome, -⟩ :=
    listed_files_committed (prints_changedWorld movedEntries ["."]) .prepare
      (rfl : s.dryRun = false) hmessage
  rw [hfiles] at hchanged hsome
  obtain ⟨text, htext, -, -, hreturned⟩ := hsome (List.cons_ne_nil _ _) hwritable
  have hfilled : (Options.filled "release" w.release).toOption = some "release" := by decide +kernel
  rw [htext] at hfilled
  obtain rfl : text = "release" := Option.some.inj hfilled
  have hreturns : (EStateM.run' ((step ["."] "release").apply s .prepare) w).isSome = true := by
    decide +kernel
  refine ⟨hchanged, ?_⟩
  cases hresult : (step ["."] "release").apply s .prepare w with
  | error e w' =>
    delta EStateM.run' EStateM.run at hreturns
    rw [hresult] at hreturns
    cases hreturns
  | ok report w' =>
    rw [hcommands, hreturned report w' hresult]

/-- A file with a carriage return in its name, which is not listed under this name. -/
def returnedEntry : Git.StatusEntry :=
  { index := '?', tree := '?', path := "a\rb", former := none }

theorem return_read_as_feed :
    let s : Settings := { root := .ofText "/repo" }
    (∃ w', Git.changedFiles s ["."] (changedWorld [returnedEntry]) = .ok ["a\nb"] w') ∧
    ¬ ∃ w', Git.changedFiles s ["."] (changedWorld [returnedEntry]) = .ok ["a\rb"] w' := by
  intro s
  obtain ⟨w₁, hchanged, -⟩ := exists_changedFiles (s := s) (prints_changedWorld [returnedEntry] ["."])
  have hfiles : [returnedEntry].map (Text.unified ·.path) = ["a\nb"] := by decide +kernel
  rw [hfiles] at hchanged
  refine ⟨⟨w₁, hchanged⟩, ?_⟩
  rintro ⟨w', h⟩
  rw [hchanged] at h
  injection h with hpaths
  revert hpaths
  decide

end GitCommit

end ReleasePipeline
