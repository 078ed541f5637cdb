import ReleasePipeline.Proofs.Run.Effects

/-! A real run and its rehearsal side by side: what the rehearsal asks, the real run asks as well,
and both note the same of the release. -/
namespace ReleasePipeline

/-- A run that only looks. -/
def Settings.rehearsal (s : Settings) : Settings := { s with dryRun := true }

@[simp]
theorem Settings.rehearsal_dryRun (s : Settings) : s.rehearsal.dryRun = true := rfl

/-- A command asks the repository for tags, commits or the status. -/
def Git.isReading : List String → Bool
  | "git" :: "tag" :: "--list" :: _ => true
  | "git" :: "log" :: _ => true
  | "git" :: "status" :: _ => true
  | _ => false

/-- The commands among events that ask the repository. -/
def readingsOf (es : List Event) : List Command :=
  (commandsOf es).filter fun c => Git.isReading c.argv

theorem readingsOf_append (es fs : List Event) :
    readingsOf (es ++ fs) = readingsOf es ++ readingsOf fs := by
  rw [readingsOf, commandsOf_append, List.filter_append]
  rfl

/-- What the real run does alone: it asks nothing and notes nothing of the release. -/
def Silent (w w' : World) : Prop := w'.release = w.release ∧ w'.answers = w.answers ∧
  ∃ es, w'.events = w.events ++ es ∧ readingsOf es = []

instance : IsPreorder World Silent where
  refl w := ⟨rfl, rfl, [], (List.append_nil _).symm, rfl⟩
  trans w₁ w₂ w₃ := by
    rintro ⟨hrelease, hanswers, hnone⟩ ⟨hrelease', hanswers', hnone'⟩
    exact ⟨hrelease'.trans hrelease, hanswers'.trans hanswers,
      World.exists_events_append readingsOf_append hnone hnone'⟩

theorem admits_silent : Admits Silent True fun argv => Git.isReading argv = false where
  message w level text := ⟨rfl, rfl, [.message level text], rfl, rfl⟩
  files _ w files := ⟨rfl, rfl, [], (List.append_nil _).symm, rfl⟩
  run w c hc := by
    refine ⟨rfl, rfl, [.run c], rfl, ?_⟩
    simp [readingsOf, commandsOf, hc]

/-- The world of a real run and that of its rehearsal, both of which began with some events.
Commands are answered by one table, and the tag of the release is known. -/
structure Mirrors (table : List String → Answer) (before : List Event) (tag : Option String)
    (w v : World) : Prop where
  release : v.release = w.release
  gitTag : w.release.gitTag = tag
  real : w.answers = fun argv _ => table argv
  rehearsed : v.answers = fun argv _ => table argv
  events : ∃ es fs, w.events = before ++ es ∧ v.events = before ++ fs ∧
    readingsOf es = commandsOf fs

namespace Action

variable {α β : Type} {table : List String → Answer} {before : List Event} {tag : Option String}
  {w w' v : World} {s : Settings}

theorem mirrors_of_silent (h : Mirrors table before tag w v) (hs : Silent w w') :
    Mirrors table before tag w' v := by
  obtain ⟨hrelease, hanswers, es, hes, hnone⟩ := hs
  obtain ⟨gs, fs, hgs, hfs, hasked⟩ := h.events
  refine ⟨h.release.trans hrelease.symm, ?_, hanswers.trans h.real, h.rehearsed, gs ++ es, fs, ?_,
    hfs, ?_⟩
  · rw [hrelease]
    exact h.gitTag
  · rw [hes, hgs, List.append_assoc]
  · rw [readingsOf_append, hnone, List.append_nil, hasked]

/-- The rehearsal reports what the real run does alone. -/
theorem follows_silent {x : Action α} (b : β) (hx : Keeps Silent x) :
    Follows (Mirrors table before tag) x (pure b) fun _ _ => Mirrors table before tag :=
  follows_of_keeps hx fun _ _ _ _ h hs => mirrors_of_silent h hs

theorem follows_log (level level' : Level) (text text' : String) :
    Follows (Mirrors table before tag) (log level text) (log level' text')
      fun _ _ => Mirrors table before tag := by
  intro w v a w' h hx
  cases hx
  obtain ⟨es, fs, hes, hfs, hasked⟩ := h.events
  refine ⟨(), v.recorded (.message level' text'), rfl, h.release, h.gitTag, h.real, h.rehearsed,
    es ++ [.message level text], fs ++ [.message level' text'], ?_, ?_, ?_⟩
  · simp [hes]
  · simp [World.recorded, hfs]
  · rw [readingsOf_append, commandsOf_append, hasked]
    rfl

theorem follows_release : Follows (Mirrors table before tag) release release
    fun r r' w v => r = r' ∧ Mirrors table before tag w v := by
  intro w v r w' h hx
  cases hx
  exact ⟨v.release, v, rfl, h.release.symm, h⟩

theorem follows_changeRelease {f : Release → Release} {t : Option String}
    (hf : ∀ r, r.gitTag = tag → (f r).gitTag = t) :
    Follows (Mirrors table before tag) (changeRelease f) (changeRelease f)
      fun _ _ => Mirrors table before t := by
  intro w v a w' h hx
  cases hx
  have hrelease : f v.release = f w.release := by rw [h.release]
  exact ⟨(), { v with release := f v.release }, rfl, hrelease, hf _ h.gitTag, h.real, h.rehearsed,
    h.events⟩

/-- What is computed from the release is the same in both runs. -/
theorem follows_release_ofExcept (f : Release → Except Failure α) :
    Follows (Mirrors table before tag) (release >>= fun r => Action.ofExcept (f r))
      (release >>= fun r => Action.ofExcept (f r))
      fun a b w v => a = b ∧ Mirrors table before tag w v := by
  refine follows_bind_same follows_release fun r => ?_
  intro w v a w' h hx
  obtain ⟨b, v', hy, hab, -, hv'⟩ := follows_ofExcept _ w v a w' h hx
  exact ⟨b, v', hy, hab, hv'⟩

theorem follows_fillIn (text : String) : Follows (Mirrors table before tag) (Options.fillIn text)
    (Options.fillIn text) fun a b w v => a = b ∧ Mirrors table before tag w v :=
  follows_release_ofExcept _

theorem follows_nextText : Follows (Mirrors table before tag) Options.nextText Options.nextText
    fun a b w v => a = b ∧ Mirrors table before tag w v := follows_release_ofExcept _

theorem mirrors_executed {c : Command} (hc : Git.isReading c.argv = true)
    (h : Mirrors table before tag w v) :
    Mirrors table before tag (w.executed c) (v.executed c) := by
  obtain ⟨es, fs, hes, hfs, hasked⟩ := h.events
  refine ⟨h.release, h.gitTag, h.real, h.rehearsed, es ++ [.run c], fs ++ [.run c], ?_, ?_, ?_⟩
  · simp [World.executed, World.recorded, hes]
  · simp [World.executed, World.recorded, hfs]
  · rw [readingsOf_append, commandsOf_append, hasked]
    simp [readingsOf, commandsOf, hc]

/-- Both runs are answered the same. -/
theorem follows_execute {c : Command} (hc : Git.isReading c.argv = true) :
    Follows (Mirrors table before tag) (execute c) (execute c)
      fun a b w v => a = b ∧ Mirrors table before tag w v := by
  intro w v a w' h hx
  rw [execute_apply, h.real] at hx
  simp only [execute_apply, h.rehearsed]
  cases hfault : (table c.argv).fault with
  | some e => cases e <;> simp [hfault] at hx
  | none =>
    simp only [hfault, EStateM.Result.ok.injEq] at hx
    obtain ⟨rfl, rfl⟩ := hx
    exact ⟨table c.argv, v.executed c, rfl, rfl, mirrors_executed hc h⟩

theorem follows_run {c : Command} {check : Bool} (hc : Git.isReading c.argv = true) :
    Follows (Mirrors table before tag) (run s .reading check c) (run s.rehearsal .reading check c)
      fun a b w v => a = b ∧ Mirrors table before tag w v := by
  refine follows_bind (follows_log _ _ _ _) fun _ _ => ?_
  simp only [reduceCtorEq, decide_false, Bool.and_false, Bool.false_eq_true, if_false]
  refine follows_bind_same (follows_execute hc) fun answer => ?_
  by_cases hfail : (check && decide (answer.code ≠ 0)) = true
  · simp only [if_pos hfail]
    exact follows_throw _
  · simp only [if_neg hfail]
    exact follows_pure fun w v h => ⟨rfl, h⟩

theorem follows_read {args : List String} (hargs : Git.isReading ("git" :: args) = true) :
    Follows (Mirrors table before tag) (Git.read s args) (Git.read s.rehearsal args)
      fun a b w v => a = b ∧ Mirrors table before tag w v := by
  refine follows_bind_same (follows_run hargs) fun result => ?_
  exact follows_pure fun w v h => ⟨rfl, h⟩

end Action

end ReleasePipeline
