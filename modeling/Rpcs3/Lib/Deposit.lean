import Mathlib

/-! Bit deposit (`pdep`): the low bits of a number written in order to the 1 bits of a mask of
`w` bits. The idiom `(v - m) & m` of `w`-bit arithmetic steps through the values whose bits lie
within `m`, in increasing order: when `v` is the deposit of `j`, `(v - m) & m` is the deposit of
`j + 1` (`sub_and_deposit`, and `toNat_sub_and` at 32 bits). A loop that starts at `0` and
repeats the idiom therefore visits the deposits of `0, 1, 2, …`. -/
namespace Deposit

/-- The low bits of `j` written in order to the 1 bits of the `w`-bit mask `m`. -/
def deposit : ℕ → ℕ → ℕ → ℕ
  | 0, _, _ => 0
  | w + 1, m, j => if m % 2 = 1 then j % 2 + 2 * deposit w (m / 2) (j / 2) else 2 * deposit w (m / 2) j

variable {w m j : ℕ}

@[simp] theorem deposit_zero (m j : ℕ) : deposit 0 m j = 0 := rfl

theorem deposit_odd (h : m % 2 = 1) : deposit (w + 1) m j = j % 2 + 2 * deposit w (m / 2) (j / 2) := by
  simp [deposit, h]

theorem deposit_even (h : m % 2 = 0) : deposit (w + 1) m j = 2 * deposit w (m / 2) j := by
  simp [deposit, h]

@[simp] theorem deposit_zero_mask (w j : ℕ) : deposit w 0 j = 0 := by
  induction w with
  | zero => rfl
  | succ w ih => rw [deposit_even rfl, Nat.zero_div, ih]

@[simp] theorem deposit_zero_right (w m : ℕ) : deposit w m 0 = 0 := by
  induction w generalizing m with
  | zero => rfl
  | succ w ih =>
    rcases Nat.mod_two_eq_zero_or_one m with hb | hb
    · rw [deposit_even hb, ih]
    · rw [deposit_odd hb, Nat.zero_div, ih]

/-- All `w` bits set: the deposit is the low `w` bits. -/
theorem deposit_ones (w j : ℕ) : deposit w (2 ^ w - 1) j = j % 2 ^ w := by
  induction w generalizing j with
  | zero => simp [Nat.mod_one]
  | succ w ih =>
    have hpos := Nat.two_pow_pos w
    have hodd : (2 ^ (w + 1) - 1) % 2 = 1 := by rw [Nat.pow_succ]; omega
    have hhalf : (2 ^ (w + 1) - 1) / 2 = 2 ^ w - 1 := by rw [Nat.pow_succ]; omega
    rw [deposit_odd hodd, hhalf, ih, Nat.pow_succ', Nat.mod_mul]

/-- The two halves of a bitwise and, split at bit 0. -/
theorem land_add_two_mul {a c b d : ℕ} (hb : b < 2) (hd : d < 2) :
    (b + 2 * a) &&& (d + 2 * c) = b * d + 2 * (a &&& c) := by
  interval_cases b <;> interval_cases d
  · simpa [Nat.bit_false_apply] using Nat.land_bit false a false c
  · simpa [Nat.bit_false_apply, Nat.bit_true_apply, Nat.add_comm] using Nat.land_bit false a true c
  · simpa [Nat.bit_false_apply, Nat.bit_true_apply, Nat.add_comm] using Nat.land_bit true a false c
  · simpa [Nat.bit_true_apply, Nat.add_comm] using Nat.land_bit true a true c

/-- `land_add_two_mul` with the mask left whole. -/
theorem land_split {a c : ℕ} (hc : c < 2) (m : ℕ) : (c + 2 * a) &&& m = c * (m % 2) + 2 * (a &&& m / 2) := by
  conv_lhs => rw [← Nat.mod_add_div m 2]
  exact land_add_two_mul hc (Nat.mod_lt _ two_pos)

theorem add_two_mul_mod {a b : ℕ} (hb : b < 2) : (b + 2 * a) % 2 ^ (w + 1) = b + 2 * (a % 2 ^ w) := by
  rw [Nat.pow_succ, Nat.mul_comm (2 ^ w) 2]
  conv_lhs => rw [← Nat.div_add_mod a (2 ^ w)]
  have h : a % 2 ^ w < 2 ^ w := Nat.mod_lt _ (Nat.two_pow_pos w)
  rw [Nat.mul_add, ← Nat.add_assoc, Nat.add_comm b, Nat.add_assoc, ← Nat.mul_assoc, Nat.mul_add_mod,
    Nat.mod_eq_of_lt (by omega)]

/-- A deposit plus the complement of its mask sets no bit of the mask it did not have: the sum
has no carries. -/
theorem add_not_and_deposit (hm : m < 2 ^ w) :
    (deposit w m j + (2 ^ w - 1 - m)) % 2 ^ w &&& m = deposit w m j := by
  induction w generalizing m j with
  | zero =>
    have : m = 0 := by simpa using hm
    simp [this]
  | succ w ih =>
    have hm' : m / 2 < 2 ^ w := by rw [Nat.pow_succ] at hm; omega
    rcases Nat.mod_two_eq_zero_or_one m with hb | hb
    · -- bit 0 of the mask is clear: the complement sets it, the deposit does not
      have hnot : 2 ^ (w + 1) - 1 - m = 1 + 2 * (2 ^ w - 1 - m / 2) := by rw [Nat.pow_succ]; omega
      rw [deposit_even hb, hnot, show 2 * deposit w (m / 2) j + (1 + 2 * (2 ^ w - 1 - m / 2)) =
        1 + 2 * (deposit w (m / 2) j + (2 ^ w - 1 - m / 2)) by ring, add_two_mul_mod (by omega)]
      rw [land_split (by omega), ih hm', hb, Nat.mul_zero, Nat.zero_add]
    · -- bit 0 of the mask is set: the deposit holds bit 0 of `j` there, the complement nothing
      have hnot : 2 ^ (w + 1) - 1 - m = 0 + 2 * (2 ^ w - 1 - m / 2) := by rw [Nat.pow_succ]; omega
      rw [deposit_odd hb, hnot, show j % 2 + 2 * deposit w (m / 2) (j / 2) + (0 + 2 * (2 ^ w - 1 - m / 2)) =
        j % 2 + 2 * (deposit w (m / 2) (j / 2) + (2 ^ w - 1 - m / 2)) by ring,
        add_two_mul_mod (Nat.mod_lt _ (by omega))]
      rw [land_split (Nat.mod_lt _ (by omega)), ih hm', hb, Nat.mul_one]

/-- The masked increment: `(v - m) & m` in `w`-bit arithmetic takes the deposit of `j` to the
deposit of `j + 1`. -/
theorem sub_and_deposit (hm : m < 2 ^ w) :
    (deposit w m j + (2 ^ w - m)) % 2 ^ w &&& m = deposit w m (j + 1) := by
  induction w generalizing m j with
  | zero =>
    have : m = 0 := by simpa using hm
    simp [this]
  | succ w ih =>
    have hm' : m / 2 < 2 ^ w := by rw [Nat.pow_succ] at hm; omega
    rcases Nat.mod_two_eq_zero_or_one m with hb | hb
    · -- a clear bit 0 of the mask takes no part: the step is the step on the halves
      have hsub : 2 ^ (w + 1) - m = 2 * (2 ^ w - m / 2) := by rw [Nat.pow_succ]; omega
      rw [deposit_even hb, deposit_even hb, hsub, ← Nat.mul_add, ← Nat.zero_add (2 * (_ + _)),
        add_two_mul_mod (by omega)]
      rw [land_split (by omega), ih hm', hb, Nat.mul_zero, Nat.zero_add]
    · rcases Nat.mod_two_eq_zero_or_one j with hj | hj
      · -- bit 0 of `j` is clear: the step sets it and leaves the rest, with no carry
        have hsub : 2 ^ (w + 1) - m = 1 + 2 * (2 ^ w - 1 - m / 2) := by rw [Nat.pow_succ]; omega
        have hj' : (j + 1) / 2 = j / 2 := by omega
        rw [deposit_odd hb, deposit_odd hb, hj, hj', hsub, show 0 + 2 * deposit w (m / 2) (j / 2) +
          (1 + 2 * (2 ^ w - 1 - m / 2)) = 1 + 2 * (deposit w (m / 2) (j / 2) + (2 ^ w - 1 - m / 2)) by ring,
          add_two_mul_mod (by omega)]
        rw [land_split (by omega), add_not_and_deposit hm', hb]
        omega
      · -- bit 0 of `j` is set: the step clears it and carries into the halves
        have hsub : 2 ^ (w + 1) - m = 1 + 2 * (2 ^ w - 1 - m / 2) := by rw [Nat.pow_succ]; omega
        have hj' : (j + 1) / 2 = j / 2 + 1 := by omega
        have hrest : 1 + 2 * deposit w (m / 2) (j / 2) + (1 + 2 * (2 ^ w - 1 - m / 2)) =
            0 + 2 * (deposit w (m / 2) (j / 2) + (2 ^ w - m / 2)) := by omega
        rw [deposit_odd hb, deposit_odd hb, hj, hj', hsub, hrest, add_two_mul_mod (by omega)]
        rw [land_split (by omega), ih hm', hb]
        omega

/-- `sub_and_deposit` in 32-bit words: `(v - m) & m` steps `v` from the deposit of `j` to the
deposit of `j + 1` within the 1 bits of `m`. -/
theorem toNat_sub_and {v msk : UInt32} (hv : v.toNat = deposit 32 msk.toNat j) :
    ((v - msk) &&& msk).toNat = deposit 32 msk.toNat (j + 1) := by
  rw [UInt32.toNat_and, UInt32.toNat_sub, hv, Nat.add_comm, ← sub_and_deposit msk.toNat_lt]

end Deposit
