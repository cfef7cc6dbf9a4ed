import Mathlib

/-! Rounding to a multiple of an alignment `a`: down, as `x / a * a`, the greatest multiple of
`a` not above `x`, and up, as `(x + a - 1) / a * a`, the least one not below `x`. For a power of
two `2 ^ k` the rounding down of a `w`-bit word is the mask `x & -2^k`, as machine code
computes it. -/
namespace Align

variable {a x y : ℕ}

theorem dvd_alignDown (x a : ℕ) : a ∣ x / a * a := Nat.dvd_mul_left a _

theorem le_alignDown (ha : a ∣ y) (hy : y ≤ x) : y ≤ x / a * a := by
  obtain ⟨c, rfl⟩ := ha
  rcases Nat.eq_zero_or_pos a with rfl | ha0
  · simp
  · rw [Nat.mul_comm a c]
    exact Nat.mul_le_mul_right a ((Nat.le_div_iff_mul_le ha0).mpr (by rwa [Nat.mul_comm]))

theorem le_alignUp (x : ℕ) (ha : 0 < a) : x ≤ (x + a - 1) / a * a := by
  have h := Nat.lt_div_mul_add (a := x + a - 1) ha
  omega

theorem alignUp_le (ha0 : 0 < a) (ha : a ∣ y) (hx : x ≤ y) : (x + a - 1) / a * a ≤ y := by
  obtain ⟨c, rfl⟩ := ha
  have hc : (x + a - 1) / a < c + 1 := by
    rw [Nat.div_lt_iff_lt_mul ha0, Nat.add_mul, Nat.one_mul, Nat.mul_comm c a]
    omega
  calc (x + a - 1) / a * a ≤ c * a := Nat.mul_le_mul_right a (by omega)
    _ = a * c := Nat.mul_comm c a

/-- The mask `-2^k` of a `w`-bit word rounds down to a multiple of `2 ^ k`. -/
theorem and_two_pow_sub_two_pow {w k : ℕ} (hx : x < 2 ^ w) (hk : k ≤ w) :
    x &&& (2 ^ w - 2 ^ k) = x / 2 ^ k * 2 ^ k := by
  have hmask : 2 ^ w - 2 ^ k = (2 ^ (w - k) - 1) * 2 ^ k := by
    rw [Nat.sub_mul, Nat.one_mul, ← Nat.pow_add, Nat.sub_add_cancel hk]
  apply Nat.eq_of_testBit_eq
  intro i
  rw [Nat.testBit_and, hmask, Nat.testBit_mul_two_pow, Nat.testBit_mul_two_pow,
    Nat.testBit_two_pow_sub_one, Nat.testBit_div_two_pow]
  by_cases hki : k ≤ i
  · rw [Nat.sub_add_cancel hki]
    by_cases hiw : i < w
    · simp [hki, show i - k < w - k by omega]
    · have hzero : x.testBit i = false :=
        Nat.testBit_lt_two_pow (lt_of_lt_of_le hx (Nat.pow_le_pow_right two_pos (by omega)))
      simp [hzero]
  · simp [hki]

end Align
