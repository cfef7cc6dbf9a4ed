import Mathlib

/-! Unsigned base-128 varints (LEB128): seven payload bits a byte, the low group
first, and the top bit set on every byte but the last. `encode` writes the
shortest form of a natural and `decode` reads one varint off the front of a
byte string. The round trip holds whatever bytes follow the varint, and the
length is the number of 7-bit groups of the value's binary size, at least one. -/
namespace Leb128

/-- The varint of `n`. -/
def encode (n : Nat) : List UInt8 :=
  if n / 128 = 0 then [UInt8.ofNat n] else UInt8.ofNat (n % 128 + 128) :: encode (n / 128)
termination_by n
decreasing_by omega

/-- One varint off the front of a byte string, and the bytes after it. -/
def decode : List UInt8 → Option (Nat × List UInt8)
  | [] => none
  | b :: rest =>
    if b.toNat < 128 then some (b.toNat, rest)
    else (decode rest).map fun vr => (b.toNat - 128 + 128 * vr.1, vr.2)

theorem decode_encode (n : Nat) (rest : List UInt8) :
    decode (encode n ++ rest) = some (n, rest) := by
  induction n using Nat.strong_induction_on with
  | _ n ih =>
    rw [encode]
    by_cases h : n / 128 = 0
    · have hb : (UInt8.ofNat n).toNat = n := by rw [UInt8.toNat_ofNat']; omega
      rw [if_pos h, List.singleton_append, decode, hb, if_pos (by omega)]
    · have hb : (UInt8.ofNat (n % 128 + 128)).toNat = n % 128 + 128 := by
        rw [UInt8.toNat_ofNat']; omega
      rw [if_neg h, List.cons_append, decode, hb, if_neg (by omega), ih (n / 128) (by omega)]
      rw [Option.map_some, show n % 128 + 128 - 128 + 128 * (n / 128) = n by omega]

/-- The continuation bit is clear exactly on the bytes below 128. -/
theorem and_0x80_eq_zero : ∀ b : UInt8, (b &&& 0x80 = 0) ↔ b.toNat < 128 := by decide +kernel

/-- Dropping one 7-bit group takes 7 bits off the binary size. -/
theorem size_div_128 {n : Nat} (h : 128 ≤ n) : (n / 128).size + 7 = n.size := by
  have hpos : 0 < n / 128 := by omega
  apply le_antisymm
  · -- the top bit of `n / 128` is bit `size - 1`, so bit `size + 6` of `n` is set
    have hs : 0 < (n / 128).size := Nat.size_pos.mpr hpos
    have h1 : 2 ^ ((n / 128).size - 1) ≤ n / 128 := Nat.lt_size.mp (by omega)
    have h2 : (n / 128).size + 6 < n.size := by
      apply Nat.lt_size.mpr
      calc 2 ^ ((n / 128).size + 6) = 2 ^ ((n / 128).size - 1) * 128 := by
            rw [show (n / 128).size + 6 = (n / 128).size - 1 + 7 by omega, pow_add]; rfl
        _ ≤ n / 128 * 128 := Nat.mul_le_mul_right _ h1
        _ ≤ n := Nat.div_mul_le_self n 128
    omega
  · apply Nat.size_le.mpr
    have h1 : n / 128 < 2 ^ (n / 128).size := Nat.lt_size_self _
    calc n < (n / 128 + 1) * 128 := by omega
      _ ≤ 2 ^ (n / 128).size * 128 := Nat.mul_le_mul_right _ h1
      _ = 2 ^ ((n / 128).size + 7) := by rw [pow_add]; rfl

theorem length_encode (n : Nat) : (encode n).length = max 1 ((n.size + 6) / 7) := by
  induction n using Nat.strong_induction_on with
  | _ n ih =>
    rw [encode]
    by_cases h : n / 128 = 0
    · have : n.size ≤ 7 := Nat.size_le.mpr (by omega)
      rw [if_pos h]
      simp only [List.length_singleton]
      omega
    · rw [if_neg h, List.length_cons, ih (n / 128) (by omega)]
      have hs := size_div_128 (n := n) (by omega)
      have hpos : 0 < (n / 128).size := Nat.size_pos.mpr (by omega)
      omega

end Leb128
