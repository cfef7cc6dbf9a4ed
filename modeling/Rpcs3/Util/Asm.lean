import Mathlib

/-! The rotates of `util/asm.hpp`, `utils::rol32` and `utils::rol64`, in the portable form
the header uses in constant evaluation: two shifts by counts masked to the width. Each is
`BitVec.rotateLeft` by the count modulo the width; the count `0` is the case where both
shifts are by `0`. -/
namespace Rpcs3.Util.Asm

def rol32 (x n : UInt32) : UInt32 := (x <<< (n &&& 31)) ||| (x >>> ((0 - n) &&& 31))

def rol64 (x n : UInt64) : UInt64 := (x <<< (n &&& 63)) ||| (x >>> ((0 - n) &&& 63))

theorem shift_or_shift_eq_rotateLeft {w : ℕ} (x : BitVec w) {k : ℕ} (hk : k < w) :
    x <<< k ||| x >>> ((w - k) % w) = x.rotateLeft k := by
  rw [BitVec.rotateLeft_eq_rotateLeftAux_of_lt hk, BitVec.rotateLeftAux]
  rcases Nat.eq_zero_or_pos k with rfl | hpos
  · simp only [Nat.sub_zero, Nat.mod_self, BitVec.shiftLeft_zero, BitVec.ushiftRight_zero,
      BitVec.or_self, BitVec.ushiftRight_eq_zero (Nat.le_refl w), BitVec.or_zero]
  · rw [Nat.mod_eq_of_lt (by omega)]

theorem toBitVec_rol64 (x n : UInt64) :
    (rol64 x n).toBitVec = x.toBitVec.rotateLeft (n.toNat % 64) := by
  have hl : ((n &&& 63).toBitVec % 64).toNat = n.toNat % 64 := by
    simp only [BitVec.toNat_umod, UInt64.toNat_toBitVec, UInt64.toNat_and]
    rw [show (63 : UInt64).toNat = 2 ^ 6 - 1 from rfl, Nat.and_two_pow_sub_one_eq_mod]
    simp
  have hr : (((0 - n) &&& 63).toBitVec % 64).toNat = (64 - n.toNat % 64) % 64 := by
    simp only [BitVec.toNat_umod, UInt64.toNat_toBitVec, UInt64.toNat_and, UInt64.toNat_sub]
    rw [show (63 : UInt64).toNat = 2 ^ 6 - 1 from rfl, Nat.and_two_pow_sub_one_eq_mod]
    have := n.toNat_lt
    simp
    omega
  rw [rol64, UInt64.toBitVec_or, UInt64.toBitVec_shiftLeft, UInt64.toBitVec_shiftRight,
    BitVec.shiftLeft_eq', BitVec.ushiftRight_eq', hl, hr]
  exact shift_or_shift_eq_rotateLeft _ (Nat.mod_lt _ (by norm_num))

theorem toBitVec_rol32 (x n : UInt32) :
    (rol32 x n).toBitVec = x.toBitVec.rotateLeft (n.toNat % 32) := by
  have hl : ((n &&& 31).toBitVec % 32).toNat = n.toNat % 32 := by
    simp only [BitVec.toNat_umod, UInt32.toNat_toBitVec, UInt32.toNat_and]
    rw [show (31 : UInt32).toNat = 2 ^ 5 - 1 from rfl, Nat.and_two_pow_sub_one_eq_mod]
    simp
  have hr : (((0 - n) &&& 31).toBitVec % 32).toNat = (32 - n.toNat % 32) % 32 := by
    simp only [BitVec.toNat_umod, UInt32.toNat_toBitVec, UInt32.toNat_and, UInt32.toNat_sub]
    rw [show (31 : UInt32).toNat = 2 ^ 5 - 1 from rfl, Nat.and_two_pow_sub_one_eq_mod]
    have := n.toNat_lt
    simp
    omega
  rw [rol32, UInt32.toBitVec_or, UInt32.toBitVec_shiftLeft, UInt32.toBitVec_shiftRight,
    BitVec.shiftLeft_eq', BitVec.ushiftRight_eq', hl, hr]
  exact shift_or_shift_eq_rotateLeft _ (Nat.mod_lt _ (by norm_num))

end Rpcs3.Util.Asm
