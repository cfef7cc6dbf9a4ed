import Mathlib

/-! Fixed-width words as a processor's integer unit reads them. A word of `w`
bits stands for a natural below `2 ^ w` and for a signed integer in
`[-2 ^ (w - 1), 2 ^ (w - 1))`; an arithmetic unit does not compute the exact
sum, product or quotient but reads flags off the bits of its operands and of
the truncated result. Each lemma below says which exact fact such a reading
decides: the carry of a sum with a one-bit carry in, signed overflow read
from three sign bits, the high word of a product compared with the sign fill
of its low word, and a 1 bit lost by an arithmetic right shift. -/
namespace Word

/-- A signed integer fits in a word of `w` bits. -/
def Fits (w : Nat) (v : Int) : Prop := -2 ^ (w - 1) ≤ v ∧ v < 2 ^ (w - 1)

instance (w : Nat) (v : Int) : Decidable (Fits w v) := inferInstanceAs (Decidable (_ ∧ _))

variable {w : Nat}

theorem fits_toInt (x : BitVec w) : Fits w x.toInt := ⟨x.le_toInt, x.toInt_lt⟩

theorem fits_neg_iff (x : BitVec w) : Fits w (-x.toInt) ↔ x.toInt ≠ -2 ^ (w - 1) := by
  have hlo := x.le_toInt
  have hhi := x.toInt_lt
  unfold Fits
  omega

theorem two_pow_eq_double (hw : 0 < w) : 2 ^ w = 2 * 2 ^ (w - 1) := by
  rw [← Nat.pow_succ']
  congr 1
  omega

theorem toInt_not (x : BitVec w) (hw : 0 < w) : (~~~x).toInt = -x.toInt - 1 := by
  have hx := x.isLt
  have hpow := two_pow_eq_double hw
  rw [BitVec.toInt_eq_msb_cond, BitVec.toInt_eq_msb_cond, BitVec.msb_eq_decide,
    BitVec.msb_eq_decide, BitVec.toNat_not]
  generalize 2 ^ w = N at *
  generalize 2 ^ (w - 1) = H at *
  by_cases h : H ≤ x.toNat
  · have h' : ¬ H ≤ N - 1 - x.toNat := by omega
    simp only [h, h', decide_true, decide_false, if_true, Bool.false_eq_true, if_false]
    omega
  · have h' : H ≤ N - 1 - x.toNat := by omega
    simp only [h, h', decide_true, decide_false, if_true, Bool.false_eq_true, if_false]
    omega

theorem sub_eq_not_add (x y : BitVec w) : y - x = ~~~x + y + 1#w := by
  rw [BitVec.sub_eq_add_neg, BitVec.neg_eq_not_add]
  ac_rfl

theorem toInt_eq_zero_iff (x : BitVec w) : x.toInt = 0 ↔ x = 0 := by
  rw [← BitVec.toInt_zero (w := w), BitVec.toInt_inj]
  exact Iff.rfl

theorem toInt_eq_neg_one_iff (x : BitVec w) (hw : 0 < w) : x.toInt = -1 ↔ x = -1 := by
  have h : (-1 : BitVec w).toInt = -1 := by
    rw [show (-1 : BitVec w) = BitVec.allOnes w from BitVec.neg_one_eq_allOnes,
      BitVec.toInt_allOnes, if_pos hw]
  rw [← h, BitVec.toInt_inj]

theorem toInt_eq_intMin_iff (x : BitVec w) (hw : 0 < w) :
    x.toInt = -2 ^ (w - 1) ↔ x = BitVec.intMin w := by
  rw [← BitVec.toInt_inj, BitVec.toInt_intMin_of_pos hw]

theorem mod_two_pow_of_lt_double {n : Nat} (h : n < 2 * 2 ^ w) :
    n % 2 ^ w = if 2 ^ w ≤ n then n - 2 ^ w else n := by
  split
  · rw [Nat.mod_eq_sub_mod ‹_›, Nat.mod_eq_of_lt (by omega)]
  · exact Nat.mod_eq_of_lt (by omega)

theorem toNat_add_add (x y c : BitVec w) :
    (x + y + c).toNat = (x.toNat + y.toNat + c.toNat) % 2 ^ w := by
  simp only [BitVec.toNat_add, Nat.mod_add_mod]

theorem add_lt_left_iff (x y : BitVec w) : x + y < x ↔ 2 ^ w ≤ x.toNat + y.toNat := by
  have hx := x.isLt
  have hy := y.isLt
  rw [BitVec.lt_def, BitVec.toNat_add, mod_two_pow_of_lt_double (by omega)]
  split <;> omega

theorem carry_add_add (x y c : BitVec w) (hc : c.toNat ≤ 1) :
    (x + y < x ∨ x + y + c < x + y) ↔ 2 ^ w ≤ x.toNat + y.toNat + c.toNat := by
  have hx := x.isLt
  have hy := y.isLt
  rw [add_lt_left_iff, add_lt_left_iff, BitVec.toNat_add, mod_two_pow_of_lt_double (by omega)]
  split <;> omega

theorem overflow_add_add (x y c : BitVec w) (hw : 0 < w) (hc : c.toNat ≤ 1) :
    (x.msb = y.msb ∧ x.msb ≠ (x + y + c).msb) ↔ ¬ Fits w (x.toInt + y.toInt + c.toNat) := by
  have hx := x.isLt
  have hy := y.isLt
  obtain ⟨H, hH⟩ : ∃ H, 2 ^ (w - 1) = H := ⟨_, rfl⟩
  have hpow : 2 ^ w = 2 * H := hH ▸ two_pow_eq_double hw
  have hpowi : ((2 ^ w : Nat) : Int) = 2 * (H : Int) := by rw [hpow]; push_cast; rfl
  have hHi : (2 : Int) ^ (w - 1) = (H : Int) := by rw [← hH]; push_cast; rfl
  rw [BitVec.toInt_eq_msb_cond, BitVec.toInt_eq_msb_cond, BitVec.msb_eq_decide,
    BitVec.msb_eq_decide, BitVec.msb_eq_decide, toNat_add_add,
    mod_two_pow_of_lt_double (by omega), Fits, hpowi, hHi, hH, hpow]
  rw [hpow] at hx hy
  split <;> by_cases h1 : H ≤ x.toNat <;> by_cases h2 : H ≤ y.toNat <;> simp [h1, h2] <;> omega

theorem ushiftRight_pred_toNat (x : BitVec w) :
    (x >>> (w - 1)).toNat = if x.msb then 1 else 0 := by
  have hx := x.isLt
  have hpow : 2 ^ w ≤ 2 * 2 ^ (w - 1) := by
    rcases Nat.eq_zero_or_pos w with rfl | hw
    · simp
    · exact (two_pow_eq_double hw).le
  have hpos : 0 < 2 ^ (w - 1) := Nat.two_pow_pos _
  rw [BitVec.toNat_ushiftRight, Nat.shiftRight_eq_div_pow, BitVec.msb_eq_decide]
  by_cases h : 2 ^ (w - 1) ≤ x.toNat
  · simp only [h, decide_true, if_true]
    exact Nat.div_eq_of_lt_le (by simpa using h) (by omega)
  · simp only [h, decide_false, Bool.false_eq_true, if_false]
    exact Nat.div_eq_of_lt (by omega)

theorem ushiftRight_pred_eq_iff (x y : BitVec w) :
    x >>> (w - 1) = y >>> (w - 1) ↔ x.msb = y.msb := by
  rw [← BitVec.toNat_inj, ushiftRight_pred_toNat, ushiftRight_pred_toNat]
  cases x.msb <;> cases y.msb <;> simp

/-- The overflow test of a processor: both operands have one sign and the
result has the other, each sign read as the top bit shifted down. -/
theorem signBits_overflow (x y c : BitVec w) (hw : 0 < w) (hc : c.toNat ≤ 1) :
    (x >>> (w - 1) == y >>> (w - 1) && x >>> (w - 1) != (x + y + c) >>> (w - 1)) =
      !decide (Fits w (x.toInt + y.toInt + c.toNat)) := by
  have h := overflow_add_add x y c hw hc
  rw [ne_eq, ← ushiftRight_pred_eq_iff x y, ← ushiftRight_pred_eq_iff x (x + y + c)] at h
  rw [Bool.eq_iff_iff]
  simpa only [Bool.and_eq_true, beq_iff_eq, bne_iff_ne, Bool.not_eq_true',
    decide_eq_false_iff_not] using h

theorem sshiftRight_shiftLeft (x : BitVec w) (n : Nat) :
    x.sshiftRight n <<< n = x >>> n <<< n := by
  ext i hi
  simp only [BitVec.getElem_shiftLeft, BitVec.getElem_sshiftRight, BitVec.getElem_ushiftRight]
  by_cases hin : i < n
  · simp [hin]
  · have : n + (i - n) < w := by omega
    simp [hin, this]

theorem ushiftRight_shiftLeft_eq_iff (x : BitVec w) (n : Nat) :
    x >>> n <<< n = x ↔ x.toNat % 2 ^ n = 0 := by
  have hx := x.isLt
  have hle : x.toNat / 2 ^ n * 2 ^ n ≤ x.toNat := Nat.div_mul_le_self _ _
  have hdm := Nat.div_mul_self_eq_mod_sub_self (x := x.toNat) (k := 2 ^ n)
  rw [← BitVec.toNat_inj, BitVec.toNat_shiftLeft, BitVec.toNat_ushiftRight,
    Nat.shiftLeft_eq, Nat.shiftRight_eq_div_pow, Nat.mod_eq_of_lt (by omega)]
  have hmod := Nat.mod_le x.toNat (2 ^ n)
  omega

theorem toInt_emod_two_pow (x : BitVec w) {n : Nat} (hn : n ≤ w) :
    x.toInt % 2 ^ n = (x.toNat : Int) % 2 ^ n := by
  have hdvd : (2 : Int) ^ n ∣ ((2 ^ w : Nat) : Int) := by
    push_cast
    exact pow_dvd_pow 2 hn
  rw [BitVec.toInt_eq_toNat_bmod, ← Int.emod_emod_of_dvd _ hdvd, Int.bmod_emod,
    Int.emod_emod_of_dvd _ hdvd]

theorem sshiftRight_shiftLeft_eq_iff (x : BitVec w) {n : Nat} (hn : n ≤ w) :
    x.sshiftRight n <<< n = x ↔ x.toInt % 2 ^ n = 0 := by
  rw [sshiftRight_shiftLeft, ushiftRight_shiftLeft_eq_iff, toInt_emod_two_pow x hn]
  norm_cast

/-- The lost-bit test of an arithmetic shift: shifting back does not restore the word. -/
theorem sshiftRight_shiftLeft_bne (x : BitVec w) {n : Nat} (hn : n ≤ w) :
    (x.sshiftRight n <<< n != x) = decide (x.toInt % 2 ^ n ≠ 0) := by
  rw [Bool.eq_iff_iff, bne_iff_ne, ne_eq, sshiftRight_shiftLeft_eq_iff x hn, decide_eq_true_eq]

theorem slt_zero (x : BitVec w) : x.slt 0 = decide (x.toInt < 0) := by
  rw [BitVec.slt_eq_decide, show (0 : BitVec w).toInt = 0 from BitVec.toInt_zero]

theorem signExtend_sshiftRight (x : BitVec w) {v : Nat} (hv : w ≤ v) (n : Nat) :
    (x.sshiftRight n).signExtend v = (x.signExtend v).sshiftRight n := by
  rw [← BitVec.toInt_inj, BitVec.toInt_sshiftRight, BitVec.toInt_signExtend_of_le hv,
    BitVec.toInt_signExtend_of_le hv, BitVec.toInt_sshiftRight]

theorem setWidth_shiftLeft_signExtend (x : BitVec w) {v : Nat} (hv : w ≤ v) (n : Nat) :
    ((x.signExtend v) <<< n).setWidth w = x <<< n := by
  ext i hi
  simp only [BitVec.getElem_setWidth, BitVec.getLsbD_shiftLeft, BitVec.getElem_shiftLeft]
  by_cases hin : i < n
  · simp [hin]
  · have : i - n < w := by omega
    simp only [hin, decide_false, Bool.not_false, Bool.true_and, decide_true, show i < v by omega,
      BitVec.getLsbD_eq_getElem (show i - n < v by omega), BitVec.getElem_signExtend, dif_pos this]

theorem toInt_shiftRight_of_le (x : BitVec w) {n : Nat} (hn : w - 1 ≤ n) :
    x.toInt >>> n = if x.toInt < 0 then -1 else 0 := by
  have hlo := x.le_toInt
  have hhi := x.toInt_lt
  have hle : (2 : Int) ^ (w - 1) ≤ 2 ^ n := pow_le_pow_right₀ (by norm_num) (by omega)
  rw [Int.shiftRight_eq_div_pow]
  push_cast
  split
  · rw [Int.ediv_eq_neg_one_of_neg_of_le] <;> linarith
  · exact Int.ediv_eq_zero_of_lt (by linarith) (by linarith)

theorem toInt_emod_ne_zero_of_neg (x : BitVec w) {n : Nat} (hn : w ≤ n) (h : x.toInt < 0) :
    x.toInt % 2 ^ n ≠ 0 := by
  have hlo := x.le_toInt
  have hw : 0 < w := by
    rcases Nat.eq_zero_or_pos w with rfl | hw
    · simp [BitVec.of_length_zero] at h
    · exact hw
  have hle : (2 : Int) ^ (w - 1) < 2 ^ n := pow_lt_pow_right₀ (by norm_num) (by omega)
  intro hz
  obtain ⟨k, hk⟩ := Int.dvd_of_emod_eq_zero hz
  rcases lt_trichotomy k 0 with hk0 | rfl | hk0
  · nlinarith
  · simp at hk
    omega
  · nlinarith

theorem abs_toInt_le (x : BitVec w) : |x.toInt| ≤ 2 ^ (w - 1) :=
  abs_le.mpr ⟨x.le_toInt, x.toInt_lt.le⟩

theorem toInt_mul_signExtend (x y : BitVec w) (hw : 0 < w) {v : Nat} (hv : 2 * w ≤ v) :
    (x.signExtend v * y.signExtend v).toInt = x.toInt * y.toInt := by
  rw [BitVec.toInt_mul, BitVec.toInt_signExtend_of_le (by omega),
    BitVec.toInt_signExtend_of_le (by omega)]
  have hxy : |x.toInt * y.toInt| ≤ 2 ^ (w - 1) * 2 ^ (w - 1) := by
    rw [abs_mul]
    exact mul_le_mul (abs_toInt_le x) (abs_toInt_le y) (abs_nonneg _) (by positivity)
  have hpow : (2 : Int) ^ (w - 1) * 2 ^ (w - 1) * 4 ≤ 2 ^ v := by
    rw [← pow_add, show (4 : Int) = 2 ^ 2 by norm_num, ← pow_add]
    exact pow_le_pow_right₀ (by norm_num) (by omega)
  have hN : (0 : Int) < 2 ^ v := by positivity
  rw [abs_le] at hxy
  apply Int.bmod_eq_of_le <;> push_cast <;> generalize (2 : Int) ^ v = N at * <;> omega

theorem mulHigh_eq_sign_iff (x y : BitVec w) (hw : 0 < w) :
    BitVec.ofInt w ((x.toInt * y.toInt) >>> w) = (x * y).sshiftRight (w - 1) ↔
      Fits w (x.toInt * y.toInt) := by
  have hP : |x.toInt * y.toInt| ≤ 2 ^ (w - 1) * 2 ^ (w - 1) := by
    rw [abs_mul]
    exact mul_le_mul (abs_toInt_le x) (abs_toInt_le y) (abs_nonneg _) (by positivity)
  have hpow : ((2 ^ w : Nat) : Int) = 2 * 2 ^ (w - 1) := by
    rw [two_pow_eq_double hw]
    push_cast
    rfl
  have hH : (0 : Int) < 2 ^ (w - 1) := by positivity
  rw [← BitVec.toInt_inj, BitVec.toInt_ofInt, BitVec.toInt_sshiftRight,
    toInt_shiftRight_of_le _ le_rfl, BitVec.toInt_mul, Int.shiftRight_eq_div_pow, Fits,
    Int.bmod_def (x.toInt * y.toInt), hpow]
  generalize x.toInt * y.toInt = P at *
  generalize (2 : Int) ^ (w - 1) = H at *
  rw [abs_le] at hP
  have hdecomp := Int.emod_add_mul_ediv P (2 * H)
  have hr0 := Int.emod_nonneg P (b := 2 * H) (by omega)
  have hr1 := Int.emod_lt_of_pos P (b := 2 * H) (by omega)
  generalize P % (2 * H) = r at *
  generalize P / (2 * H) = q at *
  have hqHi : q < H := by nlinarith
  have hqLo : -H ≤ q := by nlinarith
  rw [Int.bmod_eq_of_le (by rw [hpow]; omega) (by rw [hpow]; omega)]
  -- the high word is q; the product fits only for q = -1 or q = 0
  rcases (by omega : q ≤ -2 ∨ q = -1 ∨ q = 0 ∨ 1 ≤ q) with hq | hq | hq | hq
  · have hm : 2 * H * q ≤ -4 * H := by nlinarith
    split_ifs <;> constructor <;> intro <;> omega
  · have hm : 2 * H * q = -2 * H := by rw [hq]; ring
    split_ifs <;> constructor <;> intro <;> omega
  · have hm : 2 * H * q = 0 := by rw [hq]; ring
    split_ifs <;> constructor <;> intro <;> omega
  · have hm : 2 * H ≤ 2 * H * q := by nlinarith
    split_ifs <;> constructor <;> intro <;> omega

end Word
