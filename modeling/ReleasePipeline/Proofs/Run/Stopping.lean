import ReleasePipeline.Proofs.Plugin.Effects
import ReleasePipeline.Proofs.Plugin.Faults
import ReleasePipeline.Proofs.Run.Agreement
import ReleasePipeline.Proofs.Run.Course
import ReleasePipeline.Proofs.Run.Replay

/-! A run ends with the first command that fails. -/
namespace ReleasePipeline

open Procedure ReleasePipeline.Action

variable {c : ReleaseConfig} {registry : Registry} {plugins : List Plugin} {s : Settings}
  {w w' : World} {phase : Phase}

namespace World

/-- What a command is answered after further events. -/
def answerAfter (w : World) (before : List Event) (c : Command) : Answer :=
  w.answers c.argv (w.events ++ before ++ [.run c])

theorem answerTo_eq (w : World) (c : Command) : w.answerTo c = w.answerAfter [] c := by
  rw [answerAfter, List.append_nil]
  rfl

theorem answerAfter_append {es : List Event} (hanswers : w'.answers = w.answers)
    (hevents : w'.events = w.events ++ es) (fs : List Event) (c : Command) :
    w'.answerAfter fs c = w.answerAfter (es ++ fs) c := by
  simp only [answerAfter, hanswers, hevents, List.append_assoc]

/-- Between the worlds every command is served. -/
def Served (w w' : World) : Prop := w'.answers = w.answers ∧ ∃ es, w'.events = w.events ++ es ∧
  ∀ before c after, es = before ++ .run c :: after → (w.answerAfter before c).Serves

instance : IsPreorder World Served where
  refl w := ⟨rfl, [], (List.append_nil _).symm, fun before c after h => by simp at h⟩
  trans w₁ w₂ w₃ := by
    rintro ⟨hanswers, es, hes, hserved⟩ ⟨hanswers', fs, hfs, hserved'⟩
    refine ⟨hanswers'.trans hanswers, es ++ fs, by rw [hfs, hes, List.append_assoc], ?_⟩
    intro before c after h
    rcases List.append_eq_append_iff.mp h with ⟨gs, rfl, hgs⟩ | ⟨gs, hbefore, hgs⟩
    · have hlater := hserved' gs c after hgs
      rwa [answerAfter_append hanswers hes] at hlater
    · cases gs with
      | nil =>
        have hlater := hserved' [] c after hgs.symm
        rwa [answerAfter_append hanswers hes, List.append_nil, hbefore, List.append_nil] at hlater
      | cons e gs =>
        obtain ⟨rfl, -⟩ := List.cons.inj hgs
        exact hserved before c gs hbefore

/-- After commands that are served one breaks off, with a failure to which its answer leads, or the
failure has nothing to do with commands. -/
def Breaks (w : World) (e : Failure) (w' : World) : Prop := Served w w' ∨
  ∃ u c, Served w u ∧ c.Breaks (u.answerTo c) e ∧ w'.events = (u.executed c).events

theorem Breaks.exists_events {e : Failure} (h : Breaks w e w') :
    ∃ es, w'.events = w.events ++ es := by
  rcases h with ⟨-, es, hes, -⟩ | ⟨u, c, ⟨-, es, hes, -⟩, -, hw'⟩
  · exact ⟨es, hes⟩
  · refine ⟨es ++ [.run c], ?_⟩
    rw [hw', ← List.append_assoc, ← hes]
    rfl

instance : Absorbs Served Breaks where
  absorb := by
    rintro w u e w' hu (hserved | ⟨v, c, hv, hc, hw'⟩)
    · exact .inl (trans_of Served hu hserved)
    · exact .inr ⟨v, c, trans_of Served hu hv, hc, hw'⟩

theorem served_of_release (w : World) (release : Release) : Served w { w with release } :=
  ⟨rfl, [], (List.append_nil _).symm, fun before c after h => by simp at h⟩

theorem served_message (w : World) (level : Level) (text : String) :
    Served w (w.recorded (.message level text)) := by
  refine ⟨rfl, [.message level text], rfl, fun before c after h => ?_⟩
  rcases List.singleton_eq_append_iff.mp h with ⟨-, h⟩ | ⟨-, h⟩ <;> simp at h

theorem served_executed {c : Command} (h : (w.answerTo c).Serves) : Served w (w.executed c) := by
  refine ⟨rfl, [.run c], rfl, fun before c' after hc => ?_⟩
  rcases List.singleton_eq_append_iff.mp hc with ⟨rfl, hc⟩ | ⟨-, hc⟩
  · cases hc
    rwa [answerTo_eq] at h
  · cases hc

theorem tolerates_breaks : Tolerates Served Breaks where
  message := served_message
  files w files := ⟨rfl, [], (List.append_nil _).symm, fun before c after h => by simp at h⟩
  bump w bump := served_of_release w _
  notes w notes := served_of_release w _
  served _ _ h := served_executed h
  broken w c _ h := .inr ⟨w, c, refl_of Served w, h, rfl⟩
  fault w _ _ := .inl (refl_of Served w)
  numeral w _ := .inl (refl_of Served w)

section Failing

variable {v : World} {command last : Command} {before after : List Event}

theorem not_served (hevents : w'.events = w.events ++ (before ++ .run command :: after))
    (hfails : ¬ (w.answerAfter before command).Serves) : ¬ Served w w' := by
  rintro ⟨-, es, hes, hserved⟩
  exact hfails (hserved before command after (List.append_cancel_left (hes.symm.trans hevents)))

/-- Where all commands but the last one are served, one that is not served is the last one. -/
theorem eq_last_of_served (hv : Served w v)
    (hevents : (v.executed last).events = w.events ++ (before ++ .run command :: after))
    (hfails : ¬ (w.answerAfter before command).Serves) :
    after = [] ∧ command = last ∧ v.events = w.events ++ before := by
  have hlast : v.events ++ [.run last] = w.events ++ (before ++ .run command :: after) := hevents
  rcases List.eq_nil_or_concat after with rfl | ⟨rest, e, rfl⟩
  · rw [← List.append_assoc] at hlast
    obtain ⟨hv', hcommand⟩ := List.append_inj' hlast rfl
    cases hcommand
    exact ⟨rfl, rfl, hv'⟩
  · have hsplit : w.events ++ (before ++ .run command :: (rest ++ [e])) =
        (w.events ++ (before ++ .run command :: rest)) ++ [e] := by simp
    rw [List.concat_eq_append, hsplit] at hlast
    exact absurd hv (not_served (List.append_inj' hlast rfl).1 hfails)

end Failing

end World

open World

/-- A known step executes no commands, or it leaves the files to the commands that it executes. -/
theorem alone_or_replays {st : Step} (hst : st.Known) :
    Keeps Alone (st.apply s phase) ∨ Keeps (Replays fun _ => True) (st.apply s phase) := by
  cases hst with
  | analysis rules =>
    refine .inl (keeps_bind keeps_release fun r => ?_)
    exact keeps_bind (fun w => alone_of_release w _) fun _ => keeps_pure _
  | notes types url =>
    refine .inl (keeps_bind keeps_release fun r => keeps_bind keeps_nextText fun version => ?_)
    exact keeps_bind (fun w => alone_of_release w _) fun _ => keeps_pure _
  | changelog file title => exact .inl (keeps_changelog admits_alone (fun _ => trivial) file title)
  | exec commands cwd =>
    exact .inr (keeps_exec admits_replays (fun _ _ => trivial) commands cwd)
  | github specs => exact .inr (keeps_github admits_replays (fun _ _ _ => trivial) specs)
  | commit assets message =>
    have hpush : Keeps (Replays fun _ => True) (do Git.push s s.remote (← Action.release).branch) :=
      Git.keeps_push admits_replays.message fun _ w c _ => admits_replays.run w c trivial
    exact .inr (keeps_commit admits_replays (fun _ _ _ => trivial) hpush trivial message)
  | manifests files => exact .inl (keeps_manifests admits_alone (fun _ => trivial) files)

section Moves

variable {since : Option String} {tag : String} {m : Move}

theorem relates_move {R : World → World → Prop} {E : World → Failure → World → Prop}
    [IsPreorder World R] [Absorbs R E] (h : Tolerates R E) (hover : registry.Over knownPlugins)
    (hm : m ∈ c.course registry s w since tag) : Relates R E (m.perform s) := by
  rcases ReleaseConfig.mem_course hm with ⟨_, steps, hsteps, n, hn, index, phase, rfl⟩ | rfl | rfl |
    ⟨-, rfl | rfl⟩
  · exact relates_apply h (vetted_of_buildSteps hover hsteps hn)
  · exact relates_gitRead h
  · exact relates_gitRead h
  · exact relates_bind (relates_gitChange h) fun _ => relates_pure _
  · exact relates_bind (relates_gitChange h) fun _ => relates_pure _

theorem alone_or_replays_move (hover : registry.Over knownPlugins)
    (hm : m ∈ c.course registry s w since tag) :
    Keeps Alone (m.perform s) ∨ Keeps (Replays fun _ => True) (m.perform s) := by
  have hread (args : List String) : Keeps (Replays fun _ => True) (Git.read s args) :=
    Git.keeps_read admits_replays trivial
  have hchange (args : List String) : Keeps (Replays fun _ => True) ((Move.change args).perform s) :=
    keeps_bind (Git.keeps_change admits_replays fun _ => trivial) fun _ => keeps_pure _
  rcases ReleaseConfig.mem_course hm with ⟨_, steps, hsteps, n, hn, index, phase, rfl⟩ | rfl | rfl |
    ⟨-, rfl | rfl⟩
  · exact alone_or_replays (known_of_buildSteps hover hsteps hn)
  · exact .inr (hread _)
  · exact .inr (hread _)
  · exact .inr (hchange _)
  · exact .inr (hchange _)

end Moves

/-- What moves that return do, and messages and the state of the release besides. -/
theorem Procedure.Passes.relates {R : World → World → Prop}
    {E : World → Failure → World → Prop} [IsPreorder World R] {ms : List (Move × Bool)}
    (hmessage : ∀ w level text, R w (w.recorded (.message level text)))
    (hupdate : ∀ w release, R w { w with release })
    (hmove : ∀ m ∈ ms, Relates R E (m.1.perform s)) (hreturned : ∀ m ∈ ms, m.2 = true)
    (h : Passes s w ms w') : R w w' := by
  induction h with
  | stop w => exact refl_of R w
  | message h ih => exact trans_of R (hmessage _ _ _) (ih hmove hreturned)
  | update h ih => exact trans_of R (hupdate _ _) (ih hmove hreturned)
  | failure hm => exact absurd (hreturned _ List.mem_cons_self) Bool.false_ne_true
  | @move w w₁ w' ms m x hm h ih =>
    obtain ⟨hfirst, hrest⟩ := List.forall_mem_cons.mp hmove
    exact trans_of R (relates_of_ok hfirst hm) (ih hrest (List.forall_mem_cons.mp hreturned).2)

/-- Where the outputs of a command are no texts, its failure is that of the reading. -/
theorem Command.Breaks.kind_of_output {command : Command} {a : Answer} {e : Failure}
    (h : command.Breaks a e) {fault : Text.Utf8Error} (hfault : a.fault = some (.output fault)) :
    e.kind = .undecodable := by
  cases h with
  | empty h => cases hfault.symm.trans h
  | start e h => cases hfault.symm.trans h
  | output e h => rfl
  | code h => cases hfault.symm.trans h
  | login h => cases hfault.symm.trans h

/-- Where a command answers, its failure is one of a step. -/
theorem Command.Breaks.kind_eq {command : Command} {a : Answer} {e : Failure}
    (h : command.Breaks a e) (hfault : a.fault = none) : e.kind = .failed := by
  cases h with
  | empty h => cases hfault.symm.trans h
  | start e h => cases hfault.symm.trans h
  | output e h => cases hfault.symm.trans h
  | code => rfl
  | login => rfl

section LastMove

variable {m : Move} {u : World} {e : Failure} {before after : List Event} {command : Command}

/-- A move that fails at a command fails by its answer, and with the last command of the run. -/
theorem breaks_of_move (hrelates : Relates Served Breaks (m.perform s)) (hu : Served w u)
    (hm : m.perform s u = .error e w')
    (hevents : w'.events = w.events ++ (before ++ .run command :: after))
    (hfails : ¬ (w.answerAfter before command).Serves) :
    after = [] ∧ u.events <+: w.events ++ before ∧ ¬ Alone u w' ∧
      command.Breaks (w.answerAfter before command) e := by
  rcases relates_of_error hrelates hm with hserved | ⟨v, last, hv, hbreaks, hw'⟩
  · exact absurd (trans_of Served hu hserved) (not_served hevents hfails)
  · obtain ⟨-, es, hes, -⟩ := id hv
    have hwv := trans_of Served hu hv
    obtain ⟨rfl, rfl, hbefore⟩ := eq_last_of_served hwv (hw'.symm.trans hevents) hfails
    have hafter : w'.events = u.events ++ (es ++ [.run command]) := by
      rw [hw', ← List.append_assoc, ← hes]
      rfl
    have hrun : Event.run command ∈ es ++ [.run command] :=
      List.mem_append_right _ List.mem_cons_self
    refine ⟨rfl, ⟨es, hes.symm.trans hbefore⟩, not_alone_of_run hafter hrun, ?_⟩
    rwa [answerTo_eq, answerAfter_append hwv.1 hbefore, List.append_nil] at hbreaks

end LastMove

/-- A run ends with the first of its commands that fails. The failure that its answer leads to ends
the last move, in which only commands change files, and the run with it. It is one of a step where the
outputs are texts, and that of the reading where they are not. -/
theorem run_stops_at_failure (hplugins : plugins ⊆ knownPlugins)
    (hregistry : Registry.ofPlugins plugins = .ok registry) (c : ReleaseConfig) (s : Settings)
    (w : World) {before after : List Event} {command : Command}
    (hshown : (c.run registry s).shown w = before ++ .run command :: after)
    (hfails : ¬ (w.answerAfter before command).Serves) :
    let final := (c.run registry s).after w
    after = [] ∧ ∃ ms m u e,
      (c.procedure registry s).moves s w = ms ++ [(m, false)] ∧ Passes s w ms u ∧
      u.events <+: w.events ++ before ∧ m.perform s u = .error e final ∧
      final.files = (u.replay ((m.perform s).shown u)).files ∧ c.run registry s w = .error e final ∧
      command.Breaks (w.answerAfter before command) e ∧
      ((w.answerAfter before command).fault = none → e.kind = .failed) ∧
      ∀ fault, (w.answerAfter before command).fault = some (.output fault) →
        e.kind = .undecodable := by
  intro final
  have hover := over_known hplugins hregistry
  obtain ⟨since, tag, hcourse⟩ := ReleaseConfig.carries_course c registry s w
  have hmade : ∀ m ∈ (c.procedure registry s).moves s w, m.1 ∈ c.course registry s w since tag :=
    fun m hm => (moves_of_carries hcourse).subset (List.mem_map_of_mem hm)
  have hrelates : ∀ m ∈ (c.procedure registry s).moves s w,
      Relates Served Breaks (m.1.perform s) :=
    fun m hm => relates_move tolerates_breaks hover (hmade m hm)
  rcases returned_or_failed (c.procedure registry s) w with
    hreturned | ⟨ms, m, u, e, w', hmoves, hms, hu, hm, hrun⟩
  · have hserved : Served w final := (passes_moves _ w).relates served_message served_of_release
      hrelates hreturned
    obtain ⟨-, es, hes, -⟩ := id hserved
    rw [shown_of_append hes] at hshown
    exact absurd hserved (not_served (hshown ▸ hes) hfails)
  · have hfinal : final = w' := after_of_error hrun
    rw [hmoves] at hrelates hmade
    have hserved : Served w u := hu.relates served_message served_of_release
      (fun m' hm' => hrelates m' (List.mem_append_left _ hm')) hms
    have hlast : (m, false) ∈ ms ++ [(m, false)] := List.mem_append_right _ List.mem_cons_self
    have htotal : Breaks w e final :=
      Absorbs.absorb hserved (hfinal ▸ relates_of_error (hrelates _ hlast) hm)
    obtain ⟨es, hevents⟩ := htotal.exists_events
    rw [shown_of_append hevents] at hshown
    rw [hshown, hfinal] at hevents
    rw [hfinal]
    obtain ⟨rfl, hprefix, hcommand, hbreaks⟩ :=
      breaks_of_move (hrelates _ hlast) hserved hm hevents hfails
    refine ⟨rfl, ms, m, u, e, hmoves, hu, hprefix, hm, ?_, hrun, hbreaks, hbreaks.kind_eq,
      fun _ => hbreaks.kind_of_output⟩
    rcases alone_or_replays_move hover (hmade _ hlast) with halone | hreplays
    · have h := halone u
      rw [after_of_error hm] at h
      exact absurd h hcommand
    · have h := (hreplays u).files
      rw [shown, ← after_of_error hm]
      exact h

/-- The command that publishes the releases of `mainConfig`. -/
def publishing : Command where
  argv := ["bash", "-c", Shell.script "make publish"]
  cwd := some (.ofText "/repo")

/-- A repository with a new feature, where nothing can be published. -/
def unpublishableWorld : World where
  __ := featureWorld []
  answers argv _ := if argv = publishing.argv then { code := 2 } else featureAnswer [] argv

theorem run_stops_at_publishing :
    let run := mainConfig.run knownRegistry { root := .ofText "/repo" }
    let final := run.after unpublishableWorld
    ∃ before e, run.shown unpublishableWorld = before ++ [.run publishing] ∧
      run unpublishableWorld = .error e final ∧ e.kind = .failed := by
  intro run final
  have hmem : .run publishing ∈ run.shown unpublishableWorld := by decide +kernel
  obtain ⟨before, after, hshown⟩ := List.append_of_mem hmem
  have hanswer : unpublishableWorld.answerAfter before publishing = { code := 2 } := rfl
  have hfails : ¬ (unpublishableWorld.answerAfter before publishing).Serves := by
    rw [hanswer]
    rintro ⟨-, hcode⟩
    cases hcode
  obtain ⟨rfl, ms, m, u, e, -, -, -, -, -, hrun, -, hkind, -⟩ :=
    run_stops_at_failure (fun _ h => h) ofPlugins_knownPlugins mainConfig { root := .ofText "/repo" }
      unpublishableWorld hshown hfails
  exact ⟨before, e, hshown, hrun, hkind rfl⟩

/-- What a command prints that fails with a byte that is no text. -/
def garbled : Printed where
  code := 3
  output := ⟨#[0xff]⟩

/-- A repository with a new feature, where the publication prints what is no text. -/
def garbledWorld : World where
  __ := featureWorld []
  answers argv _ := if argv = publishing.argv then garbled.read else featureAnswer [] argv

/-- A command that exits with a code other than zero ends the run, but not as a failed step. -/
theorem garbled_publishing_undecodable :
    let run := mainConfig.run knownRegistry { root := .ofText "/repo" }
    garbledWorld.answers publishing.argv [] = garbled.read ∧ garbled.code ≠ 0 ∧
      (run.shown garbledWorld).getLast? = some (.run publishing) ∧
      (run.ending garbledWorld).mapError Failure.kind = .error .undecodable := by
  intro run
  exact ⟨rfl, by decide, by decide +kernel, by decide +kernel⟩

end ReleasePipeline
