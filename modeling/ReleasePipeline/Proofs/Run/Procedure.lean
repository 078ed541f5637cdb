import ReleasePipeline.Proofs.Run.Action
import ReleasePipeline.Run.Procedure

/-! A procedure is carried out part by part, and so are the plans that its moves follow. -/
namespace ReleasePipeline.Procedure

variable {α β : Type} {s : Settings} {p : Procedure α} {k : α → Procedure β} {w w' : World} {a : α}
  {plan rest : List Move}

@[simp]
theorem perform_bind (p : Procedure α) (k : α → Procedure β) :
    (p >>= k).perform s = p.perform s >>= fun a => (k a).perform s := by
  change (p.bind k).perform s = _
  induction p with
  | done a => rfl
  | fail e => rfl
  | observe next ih =>
    funext w
    exact congrFun (ih w) w
  | log level text next ih =>
    funext w
    exact congrFun ih (w.recorded (.message level text))
  | update f next ih =>
    funext w
    exact congrFun ih { w with release := f w.release }
  | move m next ih =>
    funext w
    change (m.perform s >>= fun x => ((next x).bind k).perform s) w = _
    simp only [ih]
    change _ = ((m.perform s >>= fun x => (next x).perform s) >>= fun a => (k a).perform s) w
    rw [bind_assoc]

@[simp]
theorem perform_pure (a : α) : (pure a : Procedure α).perform s = pure a := rfl

@[simp]
theorem perform_fail (e : Failure) : (fail e : Procedure α).perform s = throw e := rfl

@[simp]
theorem perform_ofExcept (r : Except Failure α) : (ofExcept r).perform s = Action.ofExcept r := by
  cases r with
  | ok a => rfl
  | error e => rfl

@[simp]
theorem perform_world : world.perform s = get := rfl

@[simp]
theorem perform_say (level : Level) (text : String) :
    (say level text).perform s = Action.log level text := rfl

@[simp]
theorem perform_changeRelease (f : Release → Release) :
    (changeRelease f).perform s = Action.changeRelease f := rfl

@[simp]
theorem perform_act (m : Move) : (act m).perform s = m.perform s := bind_pure (m.perform s)

/-- The moves that a procedure makes, each with whether it gives a result. -/
def moves (s : Settings) : Procedure α → World → List (Move × Bool)
  | done _, _ => []
  | fail _, _ => []
  | observe next, w => (next w).moves s w
  | log level text next, w => next.moves s (w.recorded (.message level text))
  | update f next, w => next.moves s { w with release := f w.release }
  | move m next, w =>
    match m.perform s w with
    | .ok x w' => (m, true) :: (next x).moves s w'
    | .error _ _ => [(m, false)]

theorem moves_bind (p : Procedure α) (k : α → Procedure β) (w : World) :
    (p >>= k).moves s w = p.moves s w ++ match p.perform s w with
      | .ok a w' => (k a).moves s w'
      | .error _ _ => [] := by
  change (p.bind k).moves s w = _
  induction p generalizing w with
  | done a => rfl
  | fail e => rfl
  | observe next ih => exact ih w w
  | log level text next ih => exact ih (w.recorded (.message level text))
  | update f next ih => exact ih { w with release := f w.release }
  | move m next ih =>
    rw [bind, moves, moves, perform, Action.bind_apply]
    cases m.perform s w with
    | error e w' => rfl
    | ok x w' => exact congrArg _ (ih x w')

/-- A world becomes another one by moves. Between them only messages are recorded and the state of
the release changes; after a move that fails there is none. -/
inductive Passes (s : Settings) : World → List (Move × Bool) → World → Prop
  | stop (w : World) : Passes s w [] w
  | message {w w' : World} {ms : List (Move × Bool)} {level : Level} {text : String}
    (h : Passes s (w.recorded (.message level text)) ms w') : Passes s w ms w'
  | update {w w' : World} {ms : List (Move × Bool)} {release : Release}
    (h : Passes s { w with release } ms w') : Passes s w ms w'
  | move {w w₁ w' : World} {ms : List (Move × Bool)} {m : Move} {x : String}
    (hm : m.perform s w = .ok x w₁) (h : Passes s w₁ ms w') : Passes s w ((m, true) :: ms) w'
  | failure {w w' : World} {m : Move} {e : Failure} (hm : m.perform s w = .error e w') :
    Passes s w [(m, false)] w'

/-- A procedure does nothing to the world but by its moves. -/
theorem passes_moves (p : Procedure α) (w : World) :
    Passes s w (p.moves s w) ((p.perform s).after w) := by
  induction p generalizing w with
  | done a => exact .stop w
  | fail e => exact .stop w
  | observe next ih => exact ih w w
  | log level text next ih => exact .message (ih (w.recorded (.message level text)))
  | update f next ih => exact .update (ih { w with release := f w.release })
  | move m next ih =>
    rw [perform, moves, Action.after, Action.bind_apply]
    cases hm : m.perform s w with
    | error e w' => exact .failure hm
    | ok x w' => exact .move hm (ih x w')

/-- All moves of a procedure return, or the last one fails and with it the procedure. -/
theorem returned_or_failed (p : Procedure α) (w : World) : (∀ m ∈ p.moves s w, m.2 = true) ∨
    ∃ ms m u e w', p.moves s w = ms ++ [(m, false)] ∧ (∀ m ∈ ms, m.2 = true) ∧ Passes s w ms u ∧
      m.perform s u = .error e w' ∧ p.perform s w = .error e w' := by
  induction p generalizing w with
  | done a => exact .inl fun _ hm => absurd hm List.not_mem_nil
  | fail e => exact .inl fun _ hm => absurd hm List.not_mem_nil
  | observe next ih => exact ih w w
  | log level text next ih =>
    obtain hall | ⟨ms, m, u, e, w', hmoves, hms, hu, hm, hp⟩ := ih (w.recorded (.message level text))
    · exact .inl hall
    · exact .inr ⟨ms, m, u, e, w', hmoves, hms, .message hu, hm, hp⟩
  | update f next ih =>
    obtain hall | ⟨ms, m, u, e, w', hmoves, hms, hu, hm, hp⟩ := ih { w with release := f w.release }
    · exact .inl hall
    · exact .inr ⟨ms, m, u, e, w', hmoves, hms, .update hu, hm, hp⟩
  | move first next ih =>
    rw [moves, perform, Action.bind_apply]
    cases hfirst : first.perform s w with
    | error e w' =>
      exact .inr ⟨[], first, w, e, w', rfl, fun _ hm => absurd hm List.not_mem_nil, .stop w, hfirst,
        rfl⟩
    | ok x w₁ =>
      obtain hall | ⟨ms, m, u, e, w', hmoves, hms, hu, hm, hp⟩ := ih x w₁
      · exact .inl (List.forall_mem_cons.mpr ⟨rfl, hall⟩)
      · exact .inr ⟨(first, true) :: ms, m, u, e, w', congrArg _ hmoves,
          List.forall_mem_cons.mpr ⟨rfl, hms⟩, .move hfirst hu, hm, hp⟩

theorem Passes.returned {ms : List (Move × Bool)} (h : Passes s w ms w') :
    ∀ m ∈ ms.dropLast, m.2 = true := by
  induction h with
  | stop w => exact fun _ hm => absurd hm List.not_mem_nil
  | message h ih => exact ih
  | update h ih => exact ih
  | failure hm => exact fun _ hm => absurd hm List.not_mem_nil
  | @move w w₁ w' ms m x hm h ih =>
    intro m' hm'
    cases ms with
    | nil => exact absurd hm' List.not_mem_nil
    | cons first rest =>
      rw [List.dropLast_cons_cons] at hm'
      rcases List.mem_cons.mp hm' with rfl | hm'
      · rfl
      · exact ih m' hm'

/-- What messages, the state of the release and the moves keep is kept by all of them. -/
theorem Passes.related {R : World → World → Prop} [IsPreorder World R] {ms : List (Move × Bool)}
    (hmessage : ∀ w level text, R w (w.recorded (.message level text)))
    (hupdate : ∀ w release, R w { w with release })
    (hmove : ∀ m ∈ ms, Action.Keeps R (m.1.perform s)) (h : Passes s w ms w') : R w w' := by
  induction h with
  | stop w => exact refl_of R w
  | message h ih => exact trans_of R (hmessage _ _ _) (ih hmove)
  | update h ih => exact trans_of R (hupdate _ _) (ih hmove)
  | @move w w₁ w' ms m x hm h ih =>
    have hfirst := hmove (m, true) List.mem_cons_self w
    rw [Action.after_of_ok hm] at hfirst
    exact trans_of R hfirst (ih fun m' hm' => hmove m' (List.mem_cons_of_mem _ hm'))
  | @failure w w' m e hm =>
    have hlast := hmove (m, false) List.mem_cons_self w
    rwa [Action.after_of_error hm] at hlast

/-- The procedure makes the moves of a plan in order: all of them where it gives a result. -/
def Carries (s : Settings) (p : Procedure α) (w : World) (plan : List Move) : Prop :=
  match p.perform s w with
  | .ok _ _ => (p.moves s w).map Prod.fst = plan
  | .error _ _ => (p.moves s w).map Prod.fst <+: plan

theorem moves_of_carries (h : p.Carries s w plan) : (p.moves s w).map Prod.fst <+: plan := by
  rw [Carries] at h
  split at h
  · exact h ▸ List.prefix_refl _
  · exact h

theorem carries_of_ok (h : p.Carries s w plan) (hok : p.perform s w = .ok a w') :
    (p.moves s w).map Prod.fst = plan := by
  rw [Carries, hok] at h
  exact h

theorem carries_of_moves_eq_nil (h : p.moves s w = []) : p.Carries s w [] := by
  rw [Carries, h]
  split
  · rfl
  · exact List.prefix_refl _

theorem carries_ofExcept (r : Except Failure α) : (ofExcept r).Carries s w [] := by
  cases r with
  | ok a => exact carries_of_moves_eq_nil rfl
  | error e => exact carries_of_moves_eq_nil rfl

theorem carries_world_bind {k : World → Procedure α} (h : (k w).Carries s w plan) :
    (world >>= k).Carries s w plan := h

theorem carries_act (m : Move) : (act m).Carries s w [m] := by
  rw [Carries, act, perform, moves, Action.bind_apply]
  cases m.perform s w with
  | error e w' => exact List.prefix_refl _
  | ok x w' => rfl

theorem carries_bind (hp : p.Carries s w plan)
    (hk : ∀ a w', p.perform s w = .ok a w' → (k a).Carries s w' rest) :
    (p >>= k).Carries s w (plan ++ rest) := by
  rw [Carries, perform_bind, Action.bind_apply, moves_bind]
  rw [Carries] at hp
  cases h : p.perform s w with
  | error e w' =>
    simp only [h, List.append_nil] at hp ⊢
    exact hp.trans (List.prefix_append _ _)
  | ok a w' =>
    have hrest := hk a w' h
    rw [Carries] at hrest
    simp only [h, List.map_append] at hp ⊢
    rw [hp]
    cases hk' : (k a).perform s w' with
    | error e w₁ =>
      rw [hk'] at hrest
      exact List.prefix_append_right_inj _ |>.mpr hrest
    | ok b w₁ =>
      rw [hk'] at hrest
      exact congrArg _ hrest

theorem carries_bind_of_nil (hp : p.Carries s w [])
    (hk : ∀ a w', p.perform s w = .ok a w' → (k a).Carries s w' plan) :
    (p >>= k).Carries s w plan :=
  carries_bind hp hk

theorem carries_bind_nil (hp : p.Carries s w plan)
    (hk : ∀ a w', p.perform s w = .ok a w' → (k a).Carries s w' []) :
    (p >>= k).Carries s w plan :=
  List.append_nil plan ▸ carries_bind hp hk

theorem carries_act_bind {m : Move} {k : String → Procedure α}
    (hk : ∀ x w', m.perform s w = .ok x w' → (k x).Carries s w' plan) :
    (act m >>= k).Carries s w (m :: plan) :=
  carries_bind (carries_act m) fun x w' h => hk x w' (perform_act m ▸ h)

/-- The rest of the plan may depend on how far the procedure got. -/
theorem exists_carries_bind {ι : Type} [Inhabited ι] {q : ι → List Move}
    (hp : p.Carries s w plan)
    (hk : ∀ a w', p.perform s w = .ok a w' → ∃ i, (k a).Carries s w' (q i)) :
    ∃ i, (p >>= k).Carries s w (plan ++ q i) := by
  cases h : p.perform s w with
  | error e w' =>
    refine ⟨default, carries_bind hp fun a w₁ h₁ => ?_⟩
    rw [h] at h₁
    cases h₁
  | ok a w' =>
    obtain ⟨i, hi⟩ := hk a w' h
    refine ⟨i, carries_bind hp fun a₁ w₁ h₁ => ?_⟩
    rw [h] at h₁
    cases h₁
    exact hi

end ReleasePipeline.Procedure
