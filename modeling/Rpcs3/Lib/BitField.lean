import Mathlib

/-! Fields of a natural number. A value whose low `j` bits are clear and a value below `2 ^ j`
are joined by `|||` as by `+`, a mask `2 ^ n - 1` takes the value mod `2 ^ n`, and `^^^` with
one bit `b` at position `i` flips that bit. So a word that code assembles from shifted and
masked fields and then twiddles bit by bit is a sum of digits, on which `omega` decides
equality. -/
namespace BitField

theorem or_eq_add {a b j : ℕ} (ha : a % 2 ^ j = 0) (hb : b < 2 ^ j) : a ||| b = a + b := by
  have hdiv : a = (a / 2 ^ j) <<< j := by
    rw [Nat.shiftLeft_eq]
    exact (Nat.div_mul_cancel (Nat.dvd_of_mod_eq_zero ha)).symm
  rw [hdiv, ← Nat.shiftLeft_add_eq_or_of_lt hb]

/-- A field shifted to position `j` and the bits below it: `|||` is `+`. Stated with the shift
in the pattern, so that `simp` joins nested fields from the lowest up. -/
theorem mul_two_pow_or {a b j : ℕ} (hb : b < 2 ^ j) : a * 2 ^ j ||| b = a * 2 ^ j + b :=
  or_eq_add (Nat.mul_mod_left a _) hb

theorem and_eq_mod (x : ℕ) {m n : ℕ} (h : m + 1 = 2 ^ n) : x &&& m = x % 2 ^ n := by
  rw [← Nat.and_two_pow_sub_one_eq_mod, ← h, Nat.add_sub_cancel]

/-- `^^^` with a value below `2` acts on the lowest bit only. -/
theorem xor_lt_two (z : ℕ) {b : ℕ} (hb : b < 2) : z ^^^ b = 2 * (z / 2) + (z % 2 + b) % 2 := by
  have hdiv : (z ^^^ b) / 2 = z / 2 := by
    have h := @Nat.xor_div_two_pow z b 1
    rw [pow_one] at h
    rw [h, Nat.div_eq_of_lt hb, Nat.xor_zero]
  have hmod : (z ^^^ b) % 2 = (z % 2 + b) % 2 := by
    have h := @Nat.xor_mod_two_pow z b 1
    rw [pow_one] at h
    rw [h, Nat.mod_eq_of_lt hb]
    rcases Nat.mod_two_eq_zero_or_one z with hz | hz <;> interval_cases b <;> simp [hz]
  rw [← hdiv, ← hmod]
  exact (Nat.div_add_mod _ 2).symm

theorem xor_mod_two (m n : ℕ) : (m ^^^ n) % 2 = (m + n) % 2 := by
  have h := @Nat.xor_mod_two_pow m n 1
  rw [pow_one] at h
  rw [h]
  rcases Nat.mod_two_eq_zero_or_one m with hm | hm <;>
    rcases Nat.mod_two_eq_zero_or_one n with hn | hn <;> simp [hm, hn, Nat.add_mod]

theorem xor_add_mod_two (m n k : ℕ) : ((m ^^^ n) + k) % 2 = (m + n + k) % 2 := by
  rw [Nat.add_mod, xor_mod_two]
  omega

/-- `^^^` with the bit `b` at position `i` flips bit `i` when `b = 1`. -/
theorem xor_bit (x : ℕ) {b : ℕ} (hb : b < 2) (i : ℕ) :
    x ^^^ b * 2 ^ i = x / 2 ^ (i + 1) * 2 ^ (i + 1) + (x / 2 ^ i % 2 + b) % 2 * 2 ^ i + x % 2 ^ i := by
  have hmod : (x ^^^ b * 2 ^ i) % 2 ^ i = x % 2 ^ i := by
    rw [Nat.xor_mod_two_pow, Nat.mul_mod_left, Nat.xor_zero]
  have hdiv : (x ^^^ b * 2 ^ i) / 2 ^ i = x / 2 ^ i ^^^ b := by
    rw [Nat.xor_div_two_pow, Nat.mul_div_cancel _ (Nat.two_pow_pos i)]
  have hhigh : x / 2 ^ i / 2 = x / 2 ^ (i + 1) := by
    rw [Nat.div_div_eq_div_mul, pow_succ]
  calc x ^^^ b * 2 ^ i
      = (x ^^^ b * 2 ^ i) / 2 ^ i * 2 ^ i + (x ^^^ b * 2 ^ i) % 2 ^ i := (Nat.div_add_mod' _ _).symm
    _ = (2 * (x / 2 ^ i / 2) + (x / 2 ^ i % 2 + b) % 2) * 2 ^ i + x % 2 ^ i := by
      rw [hdiv, hmod, xor_lt_two _ hb]
    _ = x / 2 ^ (i + 1) * 2 ^ (i + 1) + (x / 2 ^ i % 2 + b) % 2 * 2 ^ i + x % 2 ^ i := by
      rw [hhigh, pow_succ]
      ring

/-- A bit at position `k` over a value below `2 ^ k` stays below `2 ^ (k + 1)`. -/
theorem bit_mul_two_pow_add_lt {b r k : ℕ} (hb : b < 2) (hr : r < 2 ^ k) :
    b * 2 ^ k + r < 2 ^ (k + 1) := by
  have h : b * 2 ^ k ≤ 1 * 2 ^ k := Nat.mul_le_mul_right _ (Nat.le_of_lt_succ hb)
  rw [pow_succ]
  omega

/-- A field below `2 ^ n` at position `k` over a value below `2 ^ k` stays below `2 ^ (n + k)`. -/
theorem field_add_lt {f r k n : ℕ} (hf : f < 2 ^ n) (hr : r < 2 ^ k) : f * 2 ^ k + r < 2 ^ (n + k) :=
  calc f * 2 ^ k + r < (f + 1) * 2 ^ k := by rw [Nat.add_mul, Nat.one_mul]; omega
    _ ≤ 2 ^ n * 2 ^ k := Nat.mul_le_mul_right _ hf
    _ = 2 ^ (n + k) := (pow_add _ _ _).symm

/-- The digits of `a * 2 ^ k + r` at and above `2 ^ k` are those of `a`, for `r` below `2 ^ k`. -/
theorem mul_two_pow_add_div {a r k : ℕ} (hr : r < 2 ^ k) : (a * 2 ^ k + r) / 2 ^ k = a := by
  rw [Nat.mul_comm, Nat.mul_add_div (Nat.two_pow_pos k), Nat.div_eq_of_lt hr, Nat.add_zero]

/-- The digits of `a * 2 ^ k + r` below `2 ^ k` are those of `r`. -/
theorem mul_two_pow_add_mod {a r k : ℕ} (hr : r < 2 ^ k) : (a * 2 ^ k + r) % 2 ^ k = r :=
  Nat.mul_add_mod_of_lt hr

/-- A number written as `a * 2 ^ k + r` with `r` below `2 ^ k` has digits `a` and `r`. -/
theorem digits_of_eq {x a r k : ℕ} (h : x = a * 2 ^ k + r) (hr : r < 2 ^ k) :
    x / 2 ^ k = a ∧ x % 2 ^ k = r := by
  subst h
  exact ⟨mul_two_pow_add_div hr, mul_two_pow_add_mod hr⟩

/-- The digits above `2 ^ (k + 1)` are the digits of the digits above `2 ^ k`. -/
theorem div_two_pow_succ (x k : ℕ) : x / 2 ^ (k + 1) = x / 2 ^ k / 2 := by
  rw [Nat.div_div_eq_div_mul, pow_succ]

/-- A field of a `u32`: `((x >> a) & m) << b`, for a mask `m = 2 ^ n - 1` that fits at `b`, is
the value of bits `a` to `a + n - 1` of `x` moved to position `b`. -/
theorem field_toNat (x a b m : UInt32) {n : ℕ} (hm : m.toNat + 1 = 2 ^ n)
    (hb : b.toNat < 32) (hnb : n + b.toNat ≤ 32) :
    (((x >>> a) &&& m) <<< b).toNat = x.toNat / 2 ^ (a.toNat % 32) % 2 ^ n * 2 ^ b.toNat := by
  have hf : x.toNat / 2 ^ (a.toNat % 32) % 2 ^ n < 2 ^ n := Nat.mod_lt _ (Nat.two_pow_pos n)
  have hfit : x.toNat / 2 ^ (a.toNat % 32) % 2 ^ n * 2 ^ b.toNat < 2 ^ 32 :=
    calc _ < 2 ^ n * 2 ^ b.toNat := Nat.mul_lt_mul_of_pos_right hf (Nat.two_pow_pos _)
      _ = 2 ^ (n + b.toNat) := (pow_add _ _ _).symm
      _ ≤ 2 ^ 32 := Nat.pow_le_pow_right (by norm_num) hnb
  rw [UInt32.toNat_shiftLeft, UInt32.toNat_and, UInt32.toNat_shiftRight, Nat.shiftRight_eq_div_pow,
    and_eq_mod _ hm, Nat.mod_eq_of_lt hb, Nat.shiftLeft_eq, Nat.mod_eq_of_lt hfit]

end BitField
