import Mathlib.Data.Nat.Notation
import ReleasePipeline.Decimal.Numeral

/-! The written form of natural numbers is read back. -/
namespace ReleasePipeline.Decimal

open Text

variable {c : Char} {n : ℕ}

theorem isWritable_iff {z : Int} : isWritable z = true ↔ z.natAbs < Nat.pow 10 maxDigits :=
  decide_eq_true_iff

theorem isWritable_of_le {z : Int} (h : Nat.pow 10 maxDigits ≤ z.natAbs) : isWritable z = false := by
  rw [Bool.eq_false_iff, ne_eq, isWritable_iff]
  exact Nat.not_lt.mpr h

theorem digitValue?_of_isDigit (h : c.isDigit = true) : digitValue? c = some (c.toNat - 48) := by
  have hc : 48 ≤ c.toNat ∧ c.toNat ≤ 57 := Char.isDigit_iff_toNat.mp h
  have hz : (decide (0x30 ≤ c.toNat) && decide (c.toNat < 0x30 + 10)) = true := by
    simp only [Bool.and_eq_true, decide_eq_true_eq]
    omega
  have hf : digitZeros.find? (fun z => decide (z ≤ c.toNat) && decide (c.toNat < z + 10)) =
      some 0x30 := List.find?_cons_of_pos hz
  rw [digitValue?, hf]
  rfl

theorem isDigit_of_isDigit (h : c.isDigit = true) : Text.isDigit c = true := by
  rw [Text.isDigit, digitValue?_of_isDigit h]
  rfl

theorem digitsValue_toDigits (n : ℕ) : digitsValue (Nat.toDigits 10 n) = n := by
  have hfold : ∀ (ds : List Char) (m : ℕ), (∀ d ∈ ds, d.isDigit = true) →
      ds.foldl (fun n c => 10 * n + (digitValue? c).getD 0) m = Nat.ofDigitChars 10 ds m := by
    intro ds
    induction ds with
    | nil => intro m _; simp
    | cons d ds ih =>
      intro m hd
      rw [List.foldl_cons, Nat.ofDigitChars_cons, digitValue?_of_isDigit (hd d List.mem_cons_self)]
      exact ih _ fun e he => hd e (List.mem_cons_of_mem _ he)
  rw [digitsValue, hfold _ _ fun d hd => Nat.isDigit_of_mem_toDigits (by decide) (by decide) hd]
  exact Nat.ofDigitChars_ten_toDigits

theorem readNatural_toDigits (h : isWritable n = true) :
    readNatural (Nat.toDigits 10 n) = .ok n := by
  have hle : ∀ k, 0 < k → n < Nat.pow 10 k → (Nat.toDigits 10 n).length ≤ k := fun k hk hn =>
    (Nat.length_toDigits_le_iff (by decide) hk).mpr hn
  have hn := hle maxDigits (by decide) (of_decide_eq_true h)
  rw [readNatural, if_neg (Nat.not_lt.mpr hn), digitsValue_toDigits]

theorem digitValue?_lt {k : ℕ} (h : digitValue? c = some k) : k < 10 := by
  obtain ⟨z, hz, rfl⟩ := Option.map_eq_some_iff.mp h
  have hrange := List.find?_some hz
  simp only [Bool.and_eq_true, decide_eq_true_eq] at hrange
  omega

/-- A row of digits names a number below the power of ten for its length. -/
theorem digitsValue_lt (ds : List Char) : digitsValue ds < Nat.pow 10 ds.length := by
  have hfold (ds : List Char) : ∀ m : ℕ,
      ds.foldl (fun n c => 10 * n + (digitValue? c).getD 0) m < (m + 1) * Nat.pow 10 ds.length := by
    induction ds with
    | nil => intro m; simp
    | cons d ds ih =>
      intro m
      have hdigit : (digitValue? d).getD 0 < 10 := by
        cases hd : digitValue? d with
        | none => exact Nat.succ_pos 9
        | some k => exact digitValue?_lt hd
      calc
        _ < (10 * m + (digitValue? d).getD 0 + 1) * Nat.pow 10 ds.length := ih _
        _ ≤ (10 * (m + 1)) * Nat.pow 10 ds.length := Nat.mul_le_mul_right _ (by omega)
        _ = (m + 1) * Nat.pow 10 (d :: ds).length := by
          have hpow : Nat.pow 10 (d :: ds).length = Nat.pow 10 ds.length * 10 := rfl
          rw [hpow]
          ac_rfl
  have hvalue := hfold ds 0
  rwa [Nat.zero_add, Nat.one_mul] at hvalue

/-- What was read can be written. -/
theorem isWritable_of_readNatural {ds : List Char} (h : readNatural ds = .ok n) :
    isWritable n = true := by
  rw [readNatural] at h
  split at h
  · cases h
  · rename_i hlength
    cases h
    have hpow (k : ℕ) (hk : ds.length ≤ k) : Nat.pow 10 ds.length ≤ Nat.pow 10 k :=
      Nat.pow_le_pow_right (by decide) hk
    have hvalue := Nat.lt_of_lt_of_le (digitsValue_lt ds) (hpow _ (Nat.not_lt.mp hlength))
    simpa only [isWritable_iff, Int.natAbs_natCast] using hvalue

/-- Only zero begins with a zero. -/
theorem toDigits_head (hn : 0 < n) :
    ∃ d ds, Nat.toDigits 10 n = d :: ds ∧ isLeadingDigit d = true := by
  induction n using Nat.strongRecOn with
  | ind n ih =>
    by_cases hlt : n < 10
    · refine ⟨n.digitChar, [], Nat.toDigits_of_lt_base hlt, ?_⟩
      match n, hn, hlt with
      | 1, _, _ | 2, _, _ | 3, _, _ | 4, _, _ | 5, _, _ | 6, _, _ | 7, _, _ | 8, _, _ | 9, _, _ =>
        rfl
    · obtain ⟨d, ds, hd, hl⟩ := ih (n / 10) (by omega) (by omega)
      refine ⟨d, ds ++ [(n % 10).digitChar], ?_, hl⟩
      rw [Nat.toDigits_of_base_le (by decide) (by omega), hd, List.cons_append]

end ReleasePipeline.Decimal
