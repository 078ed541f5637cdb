import ReleasePipeline.Proofs.Run.Effects

/-! Worlds between which only commands change the files, worlds between which there are none, and
worlds between which only certain ones are executed. -/
namespace ReleasePipeline.World

variable {w w' : World} {may may' : List String → Prop}

theorem replay_release (w : World) (release : Release) (es : List Event) :
    { w with release }.replay es = { w.replay es with release } := by
  induction es generalizing w with
  | nil => rfl
  | cons e es ih =>
    cases e with
    | message level text => exact ih (w.recorded (.message level text))
    | run c => exact ih (w.executed c)

theorem release_replay (w : World) (es : List Event) : (w.replay es).release = w.release := by
  induction es generalizing w with
  | nil => rfl
  | cons e es ih => cases e <;> exact ih _

theorem events_replay (w : World) (es : List Event) : (w.replay es).events = w.events ++ es := by
  induction es generalizing w with
  | nil => exact (List.append_nil _).symm
  | cons e es ih =>
    cases e with
    | message level text =>
      rw [replay, ih, recorded, List.append_assoc]
      rfl
    | run c =>
      rw [replay, ih, executed, recorded, List.append_assoc]
      rfl

/-- From one world to the other there are only messages, commands with certain words and what is
noted of the release. -/
def Replays (may : List String → Prop) (w w' : World) : Prop :=
  ∃ es, (∀ c, Event.run c ∈ es → may c.argv) ∧ w' = { w.replay es with release := w'.release }

instance : IsPreorder World (Replays may) where
  refl w := ⟨[], fun _ h => absurd h List.not_mem_nil, rfl⟩
  trans w₁ w₂ w₃ := by
    rintro ⟨es, hes, h₂⟩ ⟨fs, hfs, h₃⟩
    refine ⟨es ++ fs, fun c hc => ?_, ?_⟩
    · rcases List.mem_append.mp hc with hc | hc
      · exact hes c hc
      · exact hfs c hc
    · rw [h₃, h₂, replay_release, replay_append]

theorem replays_update (w : World) (release : Release) : Replays may w { w with release } :=
  ⟨[], fun _ h => absurd h List.not_mem_nil, rfl⟩

theorem admits_replays : Admits (Replays may) False may where
  message w level text := ⟨[.message level text], by simp, rfl⟩
  files h := h.elim
  run w c hc := ⟨[.run c], by simpa using hc, rfl⟩

/-- Nothing but the commands has changed the files. -/
theorem Replays.files (h : Replays may w w') :
    w'.files = (w.replay (w'.events.drop w.events.length)).files := by
  obtain ⟨es, -, hw'⟩ := h
  have hevents : w'.events = w.events ++ es := by
    rw [hw']
    exact events_replay w es
  rw [hevents, List.drop_left, hw']

/-- Between the worlds no command is executed. -/
def Alone (w w' : World) : Prop := ∃ es, w'.events = w.events ++ es ∧ commandsOf es = []

instance : IsPreorder World Alone where
  refl _ := ⟨[], (List.append_nil _).symm, rfl⟩
  trans _ _ _ h h' := exists_events_append commandsOf_append h h'

theorem admits_alone : Admits Alone True fun _ => False where
  message _ level text := ⟨[.message level text], rfl, rfl⟩
  files _ _ _ := ⟨[], (List.append_nil _).symm, rfl⟩
  run _ _ h := h.elim

theorem alone_of_release (w : World) (release : Release) : Alone w { w with release } :=
  ⟨[], (List.append_nil _).symm, rfl⟩

theorem not_alone_of_run {c : Command} {es : List Event} (hes : w'.events = w.events ++ es)
    (hc : .run c ∈ es) : ¬ Alone w w' := by
  rintro ⟨fs, hfs, hnone⟩
  obtain rfl : es = fs := List.append_cancel_left (hes.symm.trans hfs)
  have hmem : c ∈ commandsOf es := List.mem_filterMap.mpr ⟨.run c, hc, rfl⟩
  rw [hnone] at hmem
  exact absurd hmem List.not_mem_nil

/-- Between the worlds only commands with certain words are executed. -/
def Shows (may : List String → Prop) (w w' : World) : Prop :=
  ∃ es, w'.events = w.events ++ es ∧ ∀ c ∈ commandsOf es, may c.argv

instance : IsPreorder World (Shows may) where
  refl _ := ⟨[], (List.append_nil _).symm, fun _ h => absurd h List.not_mem_nil⟩
  trans _ _ _ := by
    rintro ⟨es, hes, hmay⟩ ⟨fs, hfs, hmay'⟩
    refine ⟨es ++ fs, by rw [hfs, hes, List.append_assoc], fun c hc => ?_⟩
    rw [commandsOf_append] at hc
    exact (List.mem_append.mp hc).elim (hmay c) (hmay' c)

theorem Shows.mono (h : Shows may w w') (hmay : ∀ argv, may argv → may' argv) :
    Shows may' w w' := by
  obtain ⟨es, hes, hall⟩ := h
  exact ⟨es, hes, fun c hc => hmay _ (hall c hc)⟩

theorem shows_message (w : World) (level : Level) (text : String) :
    Shows may w (w.recorded (.message level text)) :=
  ⟨[.message level text], rfl, fun _ h => absurd h List.not_mem_nil⟩

theorem shows_executed (w : World) {c : Command} (h : may c.argv) : Shows may w (w.executed c) := by
  refine ⟨[.run c], rfl, fun c' hc' => ?_⟩
  obtain rfl := List.mem_singleton.mp hc'
  exact h

end ReleasePipeline.World
