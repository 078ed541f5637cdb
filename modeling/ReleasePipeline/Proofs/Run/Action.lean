import Mathlib.Order.Defs.Unbundled
import ReleasePipeline.Run.Action

/-! What an action leaves behind, and three ways to compose what is known of it: relations that it
keeps, conditions before and after it, and another action that follows it. -/
namespace ReleasePipeline

variable {α β γ δ : Type}

/-- The commands among events. -/
def commandsOf (es : List Event) : List Command :=
  es.filterMap fun
    | .run c => some c
    | .message .. => none

theorem commandsOf_append (es fs : List Event) :
    commandsOf (es ++ fs) = commandsOf es ++ commandsOf fs := List.filterMap_append

namespace World

/-- The world with an event more. -/
def recorded (w : World) (e : Event) : World := { w with events := w.events ++ [e] }

/-- The world after a command. -/
def executed (w : World) (c : Command) : World :=
  let told := w.recorded (.run c)
  { told with files := w.files.install w.here (w.answers c.argv told.events).writes }

/-- The world after the events of a run. -/
def replay (w : World) : List Event → World
  | [] => w
  | .message level text :: es => (w.recorded (.message level text)).replay es
  | .run c :: es => (w.executed c).replay es

theorem replay_append (w : World) (es fs : List Event) :
    w.replay (es ++ fs) = (w.replay es).replay fs := by
  induction es generalizing w with
  | nil => rfl
  | cons e es ih => cases e <;> exact ih _

/-- What events hold adds up from world to world. -/
theorem exists_events_append {w₁ w₂ w₃ : World} {f : List Event → List α}
    (hf : ∀ es fs, f (es ++ fs) = f es ++ f fs) {held held' : List α}
    (h : ∃ es, w₂.events = w₁.events ++ es ∧ f es = held)
    (h' : ∃ es, w₃.events = w₂.events ++ es ∧ f es = held') :
    ∃ es, w₃.events = w₁.events ++ es ∧ f es = held ++ held' := by
  obtain ⟨es, hes, hheld⟩ := h
  obtain ⟨fs, hfs, hheld'⟩ := h'
  refine ⟨es ++ fs, ?_, ?_⟩
  · rw [hfs, hes, List.append_assoc]
  · rw [hf, hheld, hheld']

end World

namespace Action

variable {R : World → World → Prop} {x : Action α} {f : α → Action β} {w : World}

theorem bind_apply (x : Action α) (f : α → Action β) (w : World) : (x >>= f) w =
    match x w with
    | .ok a w' => f a w'
    | .error e w' => .error e w' := by
  change EStateM.bind x f w = _
  rw [EStateM.bind]
  cases x w <;> rfl

theorem bind_apply_eq_ok {b : β} {w' : World} :
    (x >>= f) w = .ok b w' ↔ ∃ a w₁, x w = .ok a w₁ ∧ f a w₁ = .ok b w' := by
  rw [bind_apply]
  cases x w with
  | error e w₁ => simp
  | ok a w₁ => simp [and_assoc]

theorem bind_apply_eq_error {e : Failure} {w' : World} :
    (x >>= f) w = .error e w' ↔
      x w = .error e w' ∨ ∃ a w₁, x w = .ok a w₁ ∧ f a w₁ = .error e w' := by
  rw [bind_apply]
  cases x w with
  | error e w₁ => simp
  | ok a w₁ => simp [and_assoc]

theorem ofExcept_eq_ok {r : Except Failure α} {a : α} {w' : World} :
    ofExcept r w = .ok a w' ↔ r = .ok a ∧ w' = w := by
  cases r with
  | error e => exact ⟨fun h => (nomatch h), fun h => (nomatch h.1)⟩
  | ok b =>
    constructor
    · intro h
      cases h
      exact ⟨rfl, rfl⟩
    · rintro ⟨h, rfl⟩
      cases h
      rfl

/-- The world that an action leaves behind, with a result or without one. -/
def after (x : Action α) (w : World) : World :=
  match x w with
  | .ok _ w' => w'
  | .error _ w' => w'

theorem after_of_ok {a : α} {w' : World} (h : x w = .ok a w') : x.after w = w' := by
  rw [after, h]

theorem after_of_error {e : Failure} {w' : World} (h : x w = .error e w') : x.after w = w' := by
  rw [after, h]

/-- The events of an action. -/
def shown (x : Action α) (w : World) : List Event := (x.after w).events.drop w.events.length

theorem shown_of_append {es : List Event} (h : (x.after w).events = w.events ++ es) :
    x.shown w = es := by
  rw [shown, h, List.drop_left]

/-- Whatever becomes of the action, the worlds before and after it are related. -/
def Keeps (R : World → World → Prop) (x : Action α) : Prop := ∀ w, R w (x.after w)

theorem rel_of_ok {a : α} {w' : World} (hx : Keeps R x) (h : x w = .ok a w') : R w w' :=
  after_of_ok h ▸ hx w

theorem rel_of_error {e : Failure} {w' : World} (hx : Keeps R x) (h : x w = .error e w') : R w w' :=
  after_of_error h ▸ hx w

section Keeps

variable [IsPreorder World R]

theorem keeps_pure (a : α) : Keeps R (pure a : Action α) := fun w => refl_of R w

theorem keeps_throw (e : Failure) : Keeps R (throw e : Action α) := fun w => refl_of R w

theorem keeps_throw_bind (e : Failure) (f : α → Action β) : Keeps R (throw e >>= f) :=
  fun w => refl_of R w

theorem keeps_get : Keeps R (get : Action World) := fun w => refl_of R w

theorem keeps_bind_of_ok (hx : Keeps R x) (hf : ∀ a w w', x w = .ok a w' → Keeps R (f a)) :
    Keeps R (x >>= f) := by
  intro w
  rw [after, bind_apply]
  cases h : x w with
  | error e w' => exact rel_of_error hx h
  | ok a w' => exact trans_of R (rel_of_ok hx h) (hf a w w' h w')

theorem keeps_bind (hx : Keeps R x) (hf : ∀ a, Keeps R (f a)) : Keeps R (x >>= f) :=
  keeps_bind_of_ok hx fun a _ _ _ => hf a

theorem keeps_ofExcept (r : Except Failure α) : Keeps R (ofExcept r) := by
  cases r with
  | ok a => exact keeps_pure a
  | error e => exact keeps_throw e

theorem keeps_ofExcept_bind {r : Except Failure α} (h : ∀ a, r = .ok a → Keeps R (f a)) :
    Keeps R (ofExcept r >>= f) := by
  cases r with
  | error e => exact keeps_throw_bind e f
  | ok a => exact h a rfl

theorem keeps_release : Keeps R release := keeps_bind keeps_get fun w => keeps_pure w.release

theorem keeps_mapM {g : γ → Action β} (h : ∀ c, Keeps R (g c)) (cs : List γ) :
    Keeps R (cs.mapM g) := by
  induction cs with
  | nil => exact keeps_pure []
  | cons c cs ih =>
    rw [List.mapM_cons]
    exact keeps_bind (h c) fun b => keeps_bind ih fun bs => keeps_pure (b :: bs)

theorem keeps_forM {g : γ → Action PUnit} {cs : List γ} (h : ∀ c ∈ cs, Keeps R (g c)) :
    Keeps R (cs.forM g) := by
  induction cs with
  | nil => exact keeps_pure _
  | cons c cs ih =>
    exact keeps_bind (h c List.mem_cons_self) fun _ => ih fun c' hc' => h c' (List.mem_cons_of_mem _ hc')

end Keeps

/-- Where the release is in `k`, it stays there, and the worlds are related. -/
def Under (k : Release → Prop) (R : World → World → Prop) (w w' : World) : Prop :=
  k w.release → k w'.release ∧ R w w'

instance [IsPreorder World R] {k : Release → Prop} : IsPreorder World (Under k R) where
  refl w hw := ⟨hw, refl_of R w⟩
  trans _ _ _ h h' hw := ⟨(h' (h hw).1).1, trans_of R (h hw).2 (h' (h hw).1).2⟩

theorem keeps_release_bind {k : Release → Prop} {f : Release → Action α}
    (h : ∀ r, k r → Keeps (Under k R) (f r)) : Keeps (Under k R) (release >>= f) :=
  fun w hw => h w.release hw w hw

/-- After the action the condition `Q` holds of its result, or `E` if it fails. -/
def Meets (P : World → Prop) (x : Action α) (Q : α → World → Prop) (E : World → Prop) : Prop :=
  ∀ w, P w → match x w with
    | .ok a w' => Q a w'
    | .error _ w' => E w'

section Meets

variable {P E : World → Prop} {Q : α → World → Prop} {T : β → World → Prop}

theorem post_of_ok {a : α} {w' : World} (hx : Meets P x Q E) (hw : P w) (h : x w = .ok a w') :
    Q a w' := by
  have hpost := hx w hw
  rwa [h] at hpost

theorem meets_bind (hx : Meets P x Q E) (hf : ∀ a, Meets (Q a) (f a) T E) :
    Meets P (x >>= f) T E := by
  intro w hw
  have h := hx w hw
  rw [bind_apply]
  cases hxw : x w with
  | error e w' =>
    rw [hxw] at h
    exact h
  | ok a w' =>
    rw [hxw] at h
    exact hf a w' h

theorem meets_of_keeps (hx : Keeps R x) (hQ : ∀ w a w', P w → x w = .ok a w' → R w w' → Q a w')
    (hE : ∀ w w', P w → R w w' → E w') : Meets P x Q E := by
  intro w hw
  cases hxw : x w with
  | error e w' => exact hE w w' hw (rel_of_error hx hxw)
  | ok a w' => exact hQ w a w' hw hxw (rel_of_ok hx hxw)

/-- A condition that the action keeps holds after its result, and leads to the one after a failure. -/
theorem meets_of_kept (hx : Keeps R x) (hP : ∀ w w', P w → R w w' → P w')
    (hE : ∀ w, P w → E w) : Meets P x (fun _ => P) E :=
  meets_of_keeps hx (fun w _ w' h _ hw => hP w w' h hw) fun w w' h hw => hE w' (hP w w' h hw)

theorem meets_weaken {Q' : α → World → Prop} (hx : Meets P x Q E) (hQ : ∀ a w, Q a w → Q' a w) :
    Meets P x Q' E := by
  intro w hw
  have h := hx w hw
  cases hxw : x w with
  | error e w' =>
    rw [hxw] at h
    exact h
  | ok a w' =>
    rw [hxw] at h
    exact hQ a w' h

theorem meets_pure {a : α} (h : ∀ w, P w → Q a w) : Meets P (pure a) Q E := h

theorem meets_ofExcept_of_error {r : Except Failure α}
    (h : ∀ e, r = .error e → ∀ w, P w → E w) :
    Meets P (ofExcept r) (fun a w => r = .ok a ∧ P w) E := by
  cases r with
  | error e => exact h e rfl
  | ok a => exact fun w hw => ⟨rfl, hw⟩

theorem meets_ofExcept {r : Except Failure α} (h : ∀ w, P w → E w) :
    Meets P (ofExcept r) (fun a w => r = .ok a ∧ P w) E :=
  meets_ofExcept_of_error fun _ _ => h

theorem meets_changeRelease {g : Release → Release} {Q : World → Prop}
    (h : ∀ w, P w → Q { w with release := g w.release }) :
    Meets P (changeRelease g) (fun _ => Q) E := h

theorem meets_get_bind {k : World → Action α} (h : ∀ w, P w → Meets P (k w) Q E) :
    Meets P (get >>= k) Q E := fun w hw => h w hw w hw

theorem meets_of_fact {p : Prop} (h : p → Meets P x Q E) : Meets (fun w => p ∧ P w) x Q E :=
  fun w hw => h hw.1 w hw.2

theorem meets_of_exists {ι : Type} {P : ι → World → Prop} (h : ∀ i, Meets (P i) x Q E) :
    Meets (fun w => ∃ i, P i w) x Q E := by
  rintro w ⟨i, hw⟩
  exact h i w hw

theorem meets_of_after {Q : World → Prop} (hQ : ∀ w, P w → Q (x.after w))
    (hE : ∀ w, Q w → E w) : Meets P x (fun _ => Q) E := by
  intro w hw
  have h := hQ w hw
  cases hxw : x w with
  | error e w' =>
    rw [after_of_error hxw] at h
    exact hE w' h
  | ok a w' =>
    rwa [after_of_ok hxw] at h

theorem after_of_meets {E : World → Prop} (hx : Meets P x (fun _ => E) E) (hw : P w) :
    E (x.after w) := by
  have h := hx w hw
  cases hxw : x w with
  | error e w' =>
    rw [hxw] at h
    rwa [after_of_error hxw]
  | ok a w' =>
    rw [hxw] at h
    rwa [after_of_ok hxw]

end Meets

/-- What is known of a result where the release is in `k` can be used for what follows. -/
theorem keeps_bind_of_meets [IsPreorder World R] {k : Release → Prop} {F : α → Prop}
    (hx : Keeps (Under k R) x)
    (hresult : Meets (fun w => k w.release) x (fun a w => F a ∧ k w.release) fun _ => True)
    (hf : ∀ a, F a → Keeps (Under k R) (f a)) : Keeps (Under k R) (x >>= f) := by
  intro w hw
  rw [after, bind_apply]
  cases hxw : x w with
  | error e w' => exact rel_of_error hx hxw hw
  | ok a w' =>
    have hkept := rel_of_ok hx hxw hw
    have hrest := hf a (post_of_ok hresult hw hxw).1 w' hkept.1
    exact ⟨hrest.1, trans_of R hkept.2 hrest.2⟩

/-- From worlds in `P`, where the one action gives a result the other one does as well, and the
results and the worlds are in `Q`. -/
def Follows (P : World → World → Prop) (x : Action α) (y : Action β)
    (Q : α → β → World → World → Prop) : Prop :=
  ∀ w v a w', P w v → x w = .ok a w' → ∃ b v', y v = .ok b v' ∧ Q a b w' v'

section Follows

variable {P : World → World → Prop} {Q : α → β → World → World → Prop} {y : Action β}

theorem follows_pure {a : α} {b : β} (h : ∀ w v, P w v → Q a b w v) :
    Follows P (pure a) (pure b) Q := by
  intro w v a' w' hw hx
  cases hx
  exact ⟨b, v, rfl, h w v hw⟩

theorem follows_bind {g : β → Action δ} {h : α → Action γ} {T : γ → δ → World → World → Prop}
    (hx : Follows P x y Q) (hf : ∀ a b, Follows (Q a b) (h a) (g b) T) :
    Follows P (x >>= h) (y >>= g) T := by
  intro w v c w' hw hxw
  obtain ⟨a, w₁, hxa, hrest⟩ := bind_apply_eq_ok.mp hxw
  obtain ⟨b, v₁, hyb, hQ⟩ := hx w v a w₁ hw hxa
  obtain ⟨d, v', hyd, hT⟩ := hf a b w₁ v₁ c w' hQ hrest
  exact ⟨d, v', bind_apply_eq_ok.mpr ⟨b, v₁, hyb, hyd⟩, hT⟩

theorem follows_bind_same {h g : α → Action γ} {y : Action α} {Q : α → World → World → Prop}
    {T : γ → γ → World → World → Prop} (hx : Follows P x y fun a b w v => a = b ∧ Q a w v)
    (hf : ∀ a, Follows (Q a) (h a) (g a) T) : Follows P (x >>= h) (y >>= g) T := by
  refine follows_bind hx fun a b w v c w' hQ hc => ?_
  obtain ⟨rfl, hQ⟩ := hQ
  exact hf a w v c w' hQ hc

theorem follows_weaken {P' : World → World → Prop} (hP : ∀ w v, P' w v → P w v)
    (h : Follows P x y Q) : Follows P' x y Q :=
  fun w v a w' hw hx => h w v a w' (hP w v hw) hx

theorem follows_throw (e : Failure) : Follows P (throw e) y Q := by
  intro w v a w' _ hx
  cases hx

theorem follows_get_bind {k : World → Action α} {j : World → Action β}
    (h : ∀ w v, P w v → Follows P (k w) (j v) Q) : Follows P (get >>= k) (get >>= j) Q :=
  fun w v a w' hP hx => h w v hP w v a w' hP hx

theorem follows_ofExcept (r : Except Failure α) : Follows P (ofExcept r) (ofExcept r)
    fun a b w v => a = b ∧ r = .ok a ∧ P w v := by
  cases r with
  | error e => exact follows_throw e
  | ok a => exact follows_pure fun w v hP => ⟨rfl, rfl, hP⟩

theorem follows_of_fact {p : Prop} (h : p → Follows P x y Q) :
    Follows (fun w v => p ∧ P w v) x y Q :=
  fun w v a w' hP hx => h hP.1 w v a w' hP.2 hx

theorem follows_of_exists {ι : Type} {P : ι → World → World → Prop}
    (h : ∀ i, Follows (P i) x y Q) : Follows (fun w v => ∃ i, P i w v) x y Q := by
  rintro w v a w' ⟨i, hP⟩ hx
  exact h i w v a w' hP hx

/-- What the one action does alone. -/
theorem follows_of_keeps {b : β} (hx : Keeps R x)
    (hQ : ∀ w v w' a, P w v → R w w' → Q a b w' v) : Follows P x (pure b) Q := by
  intro w v a w' hw hxw
  exact ⟨b, v, rfl, hQ w v w' a hw (rel_of_ok hx hxw)⟩

end Follows

end Action

end ReleasePipeline
