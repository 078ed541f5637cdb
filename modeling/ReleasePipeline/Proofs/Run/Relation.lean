import ReleasePipeline.Proofs.Run.Action

/-! What stands between the worlds around an action, told apart by whether it gives a result. -/
namespace ReleasePipeline

variable {α β γ : Type}

/-- What `R` relates before a failure does not change what `E` says of the failure. -/
class Absorbs (R : World → World → Prop) (E : World → Failure → World → Prop) : Prop where
  absorb : ∀ {w w₁ : World} {e : Failure} {w' : World}, R w w₁ → E w₁ e w' → E w e w'

namespace Action

variable {R : World → World → Prop} {E : World → Failure → World → Prop} {x : Action α}
  {f : α → Action β} {w : World}

/-- At a world, `R` relates it to the one after a result of the action, and `E` to the one after a
failure. -/
def RelatesAt (R : World → World → Prop) (E : World → Failure → World → Prop) (x : Action α)
    (w : World) : Prop :=
  match x w with
  | .ok _ w' => R w w'
  | .error e w' => E w e w'

/-- `R` relates the worlds around every result of the action, and `E` those around every failure. -/
def Relates (R : World → World → Prop) (E : World → Failure → World → Prop) (x : Action α) : Prop :=
  ∀ w, RelatesAt R E x w

theorem keeps_iff_relates : Keeps R x ↔ Relates R (fun w _ w' => R w w') x := by
  refine forall_congr' fun w => ?_
  rw [after, RelatesAt]
  cases x w with
  | ok a w' => exact Iff.rfl
  | error e w' => exact Iff.rfl

instance [IsPreorder World R] : Absorbs R fun w _ w' => R w w' where
  absorb := trans_of R

theorem relates_of_error {e : Failure} {w' : World} (hx : Relates R E x) (h : x w = .error e w') :
    E w e w' := by
  have hw := hx w
  rwa [RelatesAt, h] at hw

theorem relates_of_ok {a : α} {w' : World} (hx : Relates R E x) (h : x w = .ok a w') :
    R w w' := by
  have hw := hx w
  rwa [RelatesAt, h] at hw

theorem relatesAt_get_bind {f : World → Action α} (h : RelatesAt R E (f w) w) :
    RelatesAt R E (get >>= f) w := h

theorem relates_get_bind {f : World → Action α} (h : ∀ w, Relates R E (f w)) :
    Relates R E (get >>= f) := fun w => h w w

theorem relates_throw {e : Failure} (h : ∀ w, E w e w) : Relates R E (throw e : Action α) := h

theorem relates_throw_bind {e : Failure} (h : ∀ w, E w e w) (f : α → Action β) :
    Relates R E (throw e >>= f) := h

theorem relates_ofExcept_bind {r : Except Failure α} (herror : ∀ e, r = .error e → ∀ w, E w e w)
    (hok : ∀ a, r = .ok a → Relates R E (f a)) : Relates R E (ofExcept r >>= f) := by
  cases r with
  | error e => exact relates_throw_bind (herror e rfl) f
  | ok a => exact hok a rfl

section Preorder

variable [IsPreorder World R]

theorem relates_pure (a : α) : Relates R E (pure a : Action α) := fun w => refl_of R w

theorem relates_ofExcept {r : Except Failure α} (h : ∀ e, r = .error e → ∀ w, E w e w) :
    Relates R E (ofExcept r) := by
  cases r with
  | ok a => exact relates_pure a
  | error e => exact relates_throw (h e rfl)

theorem relates_release : Relates R E release := fun w => refl_of R w

variable [Absorbs R E]

theorem relatesAt_bind (hx : RelatesAt R E x w)
    (hf : ∀ a w', x w = .ok a w' → RelatesAt R E (f a) w') : RelatesAt R E (x >>= f) w := by
  rw [RelatesAt] at hx ⊢
  rw [bind_apply]
  cases h : x w with
  | error e w₁ =>
    rw [h] at hx
    exact hx
  | ok a w₁ =>
    rw [h] at hx
    have hrest := hf a w₁ h
    rw [RelatesAt] at hrest
    simp only
    cases hfa : f a w₁ with
    | error e w' =>
      rw [hfa] at hrest
      exact Absorbs.absorb hx hrest
    | ok b w' =>
      rw [hfa] at hrest
      exact trans_of R hx hrest

theorem relates_bind (hx : Relates R E x) (hf : ∀ a, Relates R E (f a)) :
    Relates R E (x >>= f) :=
  fun w => relatesAt_bind (hx w) fun a w' _ => hf a w'

theorem relates_mapM {g : γ → Action β} {cs : List γ} (h : ∀ c ∈ cs, Relates R E (g c)) :
    Relates R E (cs.mapM g) := by
  induction cs with
  | nil => exact relates_pure []
  | cons c cs ih =>
    have hrest := ih fun c' hc' => h c' (List.mem_cons_of_mem _ hc')
    rw [List.mapM_cons]
    exact relates_bind (h c List.mem_cons_self) fun b =>
      relates_bind hrest fun bs => relates_pure (b :: bs)

theorem relates_forM {g : γ → Action PUnit} (h : ∀ c, Relates R E (g c)) (cs : List γ) :
    Relates R E (cs.forM g) := by
  induction cs with
  | nil => exact relates_pure _
  | cons c cs ih => exact relates_bind (h c) fun _ => ih

end Preorder

end Action

end ReleasePipeline
