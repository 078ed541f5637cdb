import ReleasePipeline.Value.Basic

/-! What the readers of values accept. -/
namespace ReleasePipeline

variable {v w : Value} {s : String} {t : Table}

theorem asString?_eq_some_iff : v.asString? = some s ↔ v = .string s := by
  constructor
  · intro h
    cases v with
    | string => exact congrArg Value.string (Option.some.inj h)
    | _ => cases h
  · rintro rfl
    rfl

theorem asName?_eq_some_iff : v.asName? = some s ↔ v = .string s ∧ s ≠ "" := by
  constructor
  · intro h
    cases v with
    | string t =>
      rw [Value.asName?] at h
      split at h
      · cases h
      · rename_i ht
        cases h
        exact ⟨rfl, by simpa using ht⟩
    | _ => cases h
  · rintro ⟨rfl, hs⟩
    simp [Value.asName?, hs]

theorem asBool?_eq_some_iff {b : Bool} : v.asBool? = some b ↔ v = .bool b := by
  constructor
  · intro h
    cases v with
    | bool => exact congrArg Value.bool (Option.some.inj h)
    | _ => cases h
  · rintro rfl
    rfl

theorem isNull_iff : v.isNull = true ↔ v = .null := by
  constructor
  · intro h
    cases v with
    | null => rfl
    | _ => cases h
  · rintro rfl
    rfl

/-- A value other than null is there to be read. -/
theorem Table.get?_of_getD {key : String} (h : t.getD key = v) (hv : v ≠ .null) :
    t.get? key = some v := by
  cases hget : t.get? key with
  | none =>
    rw [Table.getD, hget] at h
    exact absurd h.symm hv
  | some w =>
    rw [Table.getD, hget] at h
    exact congrArg some h

end ReleasePipeline
