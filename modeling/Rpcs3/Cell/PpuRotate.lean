import Mathlib
import Rpcs3.Util.Asm
import Rpcs3.Cell.PpuInterpreter

/-! The rotate-and-mask instructions of the PPU interpreter (`Emu/Cell/PPUInterpreter.cpp`,
RLWIMI, RLWINM, RLWNM, RLDICL, RLDICR, RLDIC, RLDIMI) with the opcode fields and
`ppu_rotate_mask` of `Emu/Cell/PPUOpcodes.h`. The fields are read from the instruction word
as `ppu_opcode_t` reads them, through `bf_t` and, for the split 6-bit fields `sh64` and
`mbe64`, through `cf_t`; the record forms' CR0 update is not modelled.

The Power ISA's meaning (`isa`) is stated in its own terms: fields by big-endian bit
numbers, `ROTL64`, `ROTL32` as `ROTL64` of the word doubled, and `MASK` by its bits. The
main theorem says the interpreter meets it for every register value and instruction word. -/
namespace Rpcs3.Cell.PpuRotate

open Rpcs3.Util.Asm (rol32 rol64 toBitVec_rol32 toBitVec_rol64)
open PpuInterpreter (Ppu Ppu.setGpr)

/-- `ppu_bf_t<u32, I, N>`: the `N` bits of the opcode from big-endian bit `I`, extracted as
`bf_t<u32, 32 - N - I, N>` does. -/
def ppuBf (I N : ℕ) (opcode : UInt32) : UInt32 :=
  (opcode >>> UInt32.ofNat (32 - N - I)) &&& ((0xFFFFFFFF : UInt32) >>> UInt32.ofNat (32 - N))

def rs (op : UInt32) : UInt32 := ppuBf 6 5 op
def ra (op : UInt32) : UInt32 := ppuBf 11 5 op
def rb (op : UInt32) : UInt32 := ppuBf 16 5 op
def sh32 (op : UInt32) : UInt32 := ppuBf 16 5 op
def mb32 (op : UInt32) : UInt32 := ppuBf 21 5 op
def me32 (op : UInt32) : UInt32 := ppuBf 26 5 op

/-- `cf_t<ppu_bf_t<u32, 30, 1>, ppu_bf_t<u32, 16, 5>>`: bit 30 above bits 16..20. -/
def sh64 (op : UInt32) : UInt32 := ppuBf 30 1 op <<< 5 ||| ppuBf 16 5 op

/-- `cf_t<ppu_bf_t<u32, 26, 1>, ppu_bf_t<u32, 21, 5>>`: bit 26 above bits 21..25. -/
def mbe64 (op : UInt32) : UInt32 := ppuBf 26 1 op <<< 5 ||| ppuBf 21 5 op

/-- `ppu.gpr[r]` for a register field. -/
def gpr (ppu : Ppu) (r : UInt32) : UInt64 := UInt64.ofBitVec (ppu.gpr (Fin.ofNat 32 r.toNat))

/-- `ppu.gpr[r] = v`. -/
def setGpr (ppu : Ppu) (r : UInt32) (v : UInt64) : Ppu := ppu.setGpr (Fin.ofNat 32 r.toNat) v.toBitVec

/-- `ppu_rotate_mask(mb, me)`. -/
def ppuRotateMask (mb me : UInt32) : UInt64 :=
  let mask : UInt64 := ~~~0 <<< (~~~(me - mb) &&& 63).toUInt64
  (mask >>> (mb &&& 63).toUInt64) ||| (mask <<< ((64 - mb) &&& 63).toUInt64)

/-- `dup32`: the word in both halves. -/
def dup32 (x : UInt32) : UInt64 := x.toUInt64 ||| x.toUInt64 <<< 32

def RLWIMI (ppu : Ppu) (op : UInt32) : Ppu :=
  let mask := ppuRotateMask (32 + mb32 op) (32 + me32 op)
  setGpr ppu (ra op) ((gpr ppu (ra op) &&& ~~~mask) |||
    (dup32 (rol32 (gpr ppu (rs op)).toUInt32 (sh32 op)) &&& mask))

def RLWINM (ppu : Ppu) (op : UInt32) : Ppu :=
  setGpr ppu (ra op) (dup32 (rol32 (gpr ppu (rs op)).toUInt32 (sh32 op)) &&&
    ppuRotateMask (32 + mb32 op) (32 + me32 op))

def RLWNM (ppu : Ppu) (op : UInt32) : Ppu :=
  setGpr ppu (ra op) (dup32 (rol32 (gpr ppu (rs op)).toUInt32 (gpr ppu (rb op) &&& 0x1f).toUInt32) &&&
    ppuRotateMask (32 + mb32 op) (32 + me32 op))

def RLDICL (ppu : Ppu) (op : UInt32) : Ppu :=
  setGpr ppu (ra op) (rol64 (gpr ppu (rs op)) (sh64 op).toUInt64 &&& (~~~0 >>> (mbe64 op).toUInt64))

def RLDICR (ppu : Ppu) (op : UInt32) : Ppu :=
  setGpr ppu (ra op) (rol64 (gpr ppu (rs op)) (sh64 op).toUInt64 &&&
    (~~~0 <<< (mbe64 op ^^^ 63).toUInt64))

def RLDIC (ppu : Ppu) (op : UInt32) : Ppu :=
  setGpr ppu (ra op) (rol64 (gpr ppu (rs op)) (sh64 op).toUInt64 &&&
    ppuRotateMask (mbe64 op) (sh64 op ^^^ 63))

def RLDIMI (ppu : Ppu) (op : UInt32) : Ppu :=
  let mask := ppuRotateMask (mbe64 op) (sh64 op ^^^ 63)
  setGpr ppu (ra op) ((gpr ppu (ra op) &&& ~~~mask) |||
    (rol64 (gpr ppu (rs op)) (sh64 op).toUInt64 &&& mask))

/-- The rotate instructions, as the decoder dispatches them. -/
inductive Rotate
  | rlwimi | rlwinm | rlwnm | rldicl | rldicr | rldic | rldimi
  deriving DecidableEq, Repr

def exec : Rotate → Ppu → UInt32 → Ppu
  | .rlwimi => RLWIMI
  | .rlwinm => RLWINM
  | .rlwnm => RLWNM
  | .rldicl => RLDICL
  | .rldicr => RLDICR
  | .rldic => RLDIC
  | .rldimi => RLDIMI

/-! ## The Power ISA -/

/-- Big-endian bits `i` through `j` of an instruction word. -/
def field (op : UInt32) (i j : ℕ) : ℕ := op.toNat / 2 ^ (31 - j) % 2 ^ (j + 1 - i)

/-- The register a 5-bit field names. -/
def reg (op : UInt32) (i : ℕ) : Fin 32 := Fin.ofNat 32 (field op i (i + 4))

def ROTL64 (x : BitVec 64) (n : ℕ) : BitVec 64 := x.rotateLeft n

/-- `ROTL32(x, n)` rotates the doubled word `x || x`. -/
def ROTL32 (x : BitVec 32) (n : ℕ) : BitVec 64 := ROTL64 (x ++ x) n

/-- Big-endian bit `i` of `MASK(mb, me)`: the ones run from `mb` through `me`, past bit 63
and round to bit 0 when `mb > me`. -/
def InMask (mb me i : ℕ) : Bool := if mb ≤ me then mb ≤ i && i ≤ me else mb ≤ i || i ≤ me

def MASK (mb me : ℕ) : BitVec 64 :=
  (BitVec.ofBoolListBE ((List.range 64).map (InMask mb me))).cast (by simp)

/-- The Power ISA's definitions: M-form `n ← SH`, `m ← MASK(MB + 32, ME + 32)`; MD-form
`n ← sh5 || sh0:4` and `b ← mb5 || mb0:4`, with `MASK(b, 63)`, `MASK(0, e)` and
`MASK(b, ¬n)`; the insert forms keep `RA` outside the mask. -/
def isa : Rotate → Ppu → UInt32 → Ppu
  | .rlwimi, ppu, op =>
    let m := MASK (field op 21 25 + 32) (field op 26 30 + 32)
    let r := ROTL32 ((ppu.gpr (reg op 6)).setWidth 32) (field op 16 20)
    ppu.setGpr (reg op 11) (r &&& m ||| ppu.gpr (reg op 11) &&& ~~~m)
  | .rlwinm, ppu, op =>
    let m := MASK (field op 21 25 + 32) (field op 26 30 + 32)
    ppu.setGpr (reg op 11) (ROTL32 ((ppu.gpr (reg op 6)).setWidth 32) (field op 16 20) &&& m)
  | .rlwnm, ppu, op =>
    let m := MASK (field op 21 25 + 32) (field op 26 30 + 32)
    let n := (ppu.gpr (reg op 16)).toNat % 32
    ppu.setGpr (reg op 11) (ROTL32 ((ppu.gpr (reg op 6)).setWidth 32) n &&& m)
  | .rldicl, ppu, op =>
    let n := field op 30 30 * 32 + field op 16 20
    let b := field op 26 26 * 32 + field op 21 25
    ppu.setGpr (reg op 11) (ROTL64 (ppu.gpr (reg op 6)) n &&& MASK b 63)
  | .rldicr, ppu, op =>
    let n := field op 30 30 * 32 + field op 16 20
    let e := field op 26 26 * 32 + field op 21 25
    ppu.setGpr (reg op 11) (ROTL64 (ppu.gpr (reg op 6)) n &&& MASK 0 e)
  | .rldic, ppu, op =>
    let n := field op 30 30 * 32 + field op 16 20
    let b := field op 26 26 * 32 + field op 21 25
    ppu.setGpr (reg op 11) (ROTL64 (ppu.gpr (reg op 6)) n &&& MASK b (63 - n))
  | .rldimi, ppu, op =>
    let n := field op 30 30 * 32 + field op 16 20
    let b := field op 26 26 * 32 + field op 21 25
    let m := MASK b (63 - n)
    ppu.setGpr (reg op 11) (ROTL64 (ppu.gpr (reg op 6)) n &&& m ||| ppu.gpr (reg op 11) &&& ~~~m)

/-! ## Fields -/

theorem toNat_ppuBf (op : UInt32) {I N : ℕ} (hN : 0 < N) (h : I + N ≤ 32) :
    (ppuBf I N op).toNat = field op I (I + N - 1) := by
  have hmask : (0xFFFFFFFF : ℕ) >>> (32 - N) = 2 ^ N - 1 := by
    apply Nat.eq_of_testBit_eq
    intro i
    rw [Nat.testBit_shiftRight, show (0xFFFFFFFF : ℕ) = 2 ^ 32 - 1 from rfl,
      Nat.testBit_two_pow_sub_one, Nat.testBit_two_pow_sub_one]
    simp only [decide_eq_decide]
    omega
  rw [ppuBf, UInt32.toNat_and, UInt32.toNat_shiftRight, UInt32.toNat_shiftRight,
    UInt32.toNat_ofNat', UInt32.toNat_ofNat', Nat.mod_eq_of_lt (show 32 - N - I < 2 ^ 32 by omega),
    Nat.mod_eq_of_lt (show 32 - N < 2 ^ 32 by omega),
    Nat.mod_eq_of_lt (show 32 - N - I < 32 by omega), Nat.mod_eq_of_lt (show 32 - N < 32 by omega)]
  simp only [UInt32.reduceToNat]
  rw [hmask, Nat.and_two_pow_sub_one_eq_mod, Nat.shiftRight_eq_div_pow, field]
  congr 3 <;> omega

theorem field_lt (op : UInt32) (i j : ℕ) : field op i j < 2 ^ (j + 1 - i) :=
  Nat.mod_lt _ (Nat.two_pow_pos _)

theorem reg_ppuBf (op : UInt32) {I : ℕ} (h : I + 5 ≤ 32) :
    Fin.ofNat 32 (ppuBf I 5 op).toNat = reg op I := by
  rw [toNat_ppuBf op (by norm_num) h, reg]
  rfl

/-- A field pair of `cf_t`: the high bit above five low bits. -/
theorem toNat_cf (x y : UInt32) (hy : y.toNat < 32) (hx : x.toNat < 2) :
    (x <<< 5 ||| y).toNat = x.toNat * 32 + y.toNat := by
  have h5 : (5 : UInt32).toNat % 32 = 5 := rfl
  rw [UInt32.toNat_or, UInt32.toNat_shiftLeft, h5, Nat.shiftLeft_eq,
    Nat.mod_eq_of_lt (show x.toNat * 2 ^ 5 < 2 ^ 32 by omega), ← Nat.shiftLeft_eq,
    ← Nat.shiftLeft_add_eq_or_of_lt (show y.toNat < 2 ^ 5 by omega), Nat.shiftLeft_eq]

theorem toNat_sh64 (op : UInt32) : (sh64 op).toNat = field op 30 30 * 32 + field op 16 20 := by
  have h1 := field_lt op 30 30
  have h5 := field_lt op 16 20
  rw [sh64, toNat_cf _ _ (by rw [toNat_ppuBf op (by norm_num) (by norm_num)]; simpa using h5)
    (by rw [toNat_ppuBf op (by norm_num) (by norm_num)]; simpa using h1),
    toNat_ppuBf op (by norm_num) (by norm_num), toNat_ppuBf op (by norm_num) (by norm_num)]

theorem toNat_mbe64 (op : UInt32) : (mbe64 op).toNat = field op 26 26 * 32 + field op 21 25 := by
  have h1 := field_lt op 26 26
  have h5 := field_lt op 21 25
  rw [mbe64, toNat_cf _ _ (by rw [toNat_ppuBf op (by norm_num) (by norm_num)]; simpa using h5)
    (by rw [toNat_ppuBf op (by norm_num) (by norm_num)]; simpa using h1),
    toNat_ppuBf op (by norm_num) (by norm_num), toNat_ppuBf op (by norm_num) (by norm_num)]

theorem xor_63 : ∀ x : Fin 64, x.val ^^^ 63 = 63 - x.val := by decide

/-- `x ^ 63` is `63 - x` on six bits. -/
theorem toNat_xor_63 (x : UInt32) (hx : x.toNat < 64) : (x ^^^ 63).toNat = 63 - x.toNat := by
  rw [UInt32.toNat_xor]
  exact xor_63 ⟨x.toNat, hx⟩

/-! ## Masks and rotates -/

@[simp] theorem getMsbD_MASK (mb me i : ℕ) :
    (MASK mb me).getMsbD i = (decide (i < 64) && InMask mb me i) := by
  rw [MASK, BitVec.getMsbD_cast, BitVec.getMsbD_ofBoolListBE]
  by_cases hi : i < 64
  · simp [hi]
  · simp [hi]

theorem toNat_and_63 (x : UInt32) : (x &&& 63).toNat = x.toNat % 64 := by
  rw [UInt32.toNat_and, show (63 : UInt32).toNat = 2 ^ 6 - 1 from rfl,
    Nat.and_two_pow_sub_one_eq_mod]

theorem toNat_shift (x : UInt32) : (x.toUInt64.toBitVec % 64).toNat = x.toNat % 64 := by
  simp [BitVec.toNat_umod]

/-- `ppu_rotate_mask(mb, me)` is `MASK(mb, me)`: `~0 << (63 - (me - mb))` is the run of
ones at the top, and the two shifts by `mb` rotate it right to start at `mb`. -/
theorem toBitVec_ppuRotateMask (mb me : UInt32) :
    (ppuRotateMask mb me).toBitVec = MASK (mb.toNat % 64) (me.toNat % 64) := by
  have hs : ((~~~(me - mb) &&& 63).toUInt64.toBitVec % 64).toNat =
      63 - (me.toNat % 64 + 64 - mb.toNat % 64) % 64 := by
    rw [toNat_shift, toNat_and_63, UInt32.toNat_not, UInt32.toNat_sub]
    have := mb.toNat_lt
    have := me.toNat_lt
    simp only [UInt32.size, Nat.reducePow] at *
    omega
  have ha : ((mb &&& 63).toUInt64.toBitVec % 64).toNat = mb.toNat % 64 := by
    rw [toNat_shift, toNat_and_63, Nat.mod_mod]
  have ht : (((64 - mb) &&& 63).toUInt64.toBitVec % 64).toNat = (64 - mb.toNat % 64) % 64 := by
    rw [toNat_shift, toNat_and_63, UInt32.toNat_sub]
    have := mb.toNat_lt
    simp
    omega
  apply BitVec.eq_of_getMsbD_eq
  intro i hi
  simp only [ppuRotateMask, UInt64.toBitVec_or, UInt64.toBitVec_shiftLeft,
    UInt64.toBitVec_shiftRight, BitVec.shiftLeft_eq', BitVec.ushiftRight_eq', hs, ha, ht,
    BitVec.getMsbD_or, BitVec.getMsbD_ushiftRight, BitVec.getMsbD_shiftLeft, getMsbD_MASK,
    UInt64.toBitVec_not, UInt64.toBitVec_zero, BitVec.getMsbD_not, BitVec.getMsbD_zero, hi,
    decide_true, Bool.true_and, Bool.not_false]
  have ha := Nat.mod_lt mb.toNat (show 0 < 64 by norm_num)
  have he := Nat.mod_lt me.toNat (show 0 < 64 by norm_num)
  generalize mb.toNat % 64 = a at *
  generalize me.toNat % 64 = e at *
  unfold InMask
  rw [Bool.eq_iff_iff]
  split_ifs with hae <;>
    simp only [Bool.and_true, Bool.or_eq_true, Bool.and_eq_true, Bool.not_eq_true',
      decide_eq_false_iff_not, decide_eq_true_eq] <;> omega

/-- RLDICL's `~0ull >> mb` is `MASK(mb, 63)`. -/
theorem toBitVec_ones_shiftRight (b : UInt32) (hb : b.toNat < 64) :
    ((~~~0 : UInt64) >>> b.toUInt64).toBitVec = MASK b.toNat 63 := by
  apply BitVec.eq_of_getMsbD_eq
  intro i hi
  simp only [UInt64.toBitVec_shiftRight, BitVec.ushiftRight_eq', toNat_shift,
    Nat.mod_eq_of_lt hb, BitVec.getMsbD_ushiftRight, getMsbD_MASK, UInt64.toBitVec_not,
    UInt64.toBitVec_zero, BitVec.getMsbD_not, BitVec.getMsbD_zero, hi, decide_true,
    Bool.true_and, Bool.not_false, InMask, if_pos (show b.toNat ≤ 63 by omega)]
  rw [Bool.eq_iff_iff]
  simp only [Bool.and_true, Bool.and_eq_true, Bool.not_eq_true', decide_eq_false_iff_not,
    decide_eq_true_eq]
  omega

/-- RLDICR's `~0ull << (me ^ 63)` is `MASK(0, me)`. -/
theorem toBitVec_ones_shiftLeft (e : UInt32) (he : e.toNat < 64) :
    ((~~~0 : UInt64) <<< (e ^^^ 63).toUInt64).toBitVec = MASK 0 e.toNat := by
  have hs : ((e ^^^ 63).toUInt64.toBitVec % 64).toNat = 63 - e.toNat := by
    rw [toNat_shift, toNat_xor_63 e he, Nat.mod_eq_of_lt (by omega)]
  apply BitVec.eq_of_getMsbD_eq
  intro i hi
  simp only [UInt64.toBitVec_shiftLeft, BitVec.shiftLeft_eq', hs, BitVec.getMsbD_shiftLeft,
    getMsbD_MASK, UInt64.toBitVec_not, UInt64.toBitVec_zero, BitVec.getMsbD_not,
    BitVec.getMsbD_zero, hi, decide_true, Bool.true_and, InMask, if_pos (Nat.zero_le _)]
  rw [Bool.eq_iff_iff]
  simp only [Bool.and_eq_true, Bool.not_false, decide_eq_true_eq, and_true]
  omega

theorem toBitVec_dup32 (y : UInt32) : (dup32 y).toBitVec = y.toBitVec ++ y.toBitVec := by
  rw [dup32, UInt64.toBitVec_or, UInt64.toBitVec_shiftLeft, BitVec.append_def, BitVec.or_comm,
    BitVec.shiftLeftZeroExtend_eq]
  simp

/-- Rotating the doubled word rotates each half: the doubled word has period 32. -/
theorem rotateLeft_append_self (x : BitVec 32) (k : ℕ) :
    (x ++ x).rotateLeft k = x.rotateLeft k ++ x.rotateLeft k := by
  apply BitVec.eq_of_getMsbD_eq
  intro i hi
  simp only [BitVec.getMsbD_rotateLeft, BitVec.getMsbD_append, decide_eq_true hi, Bool.true_and]
  by_cases h32 : 32 ≤ i
  · rw [if_pos h32, decide_eq_true (show i - 32 < 32 by omega), Bool.true_and]
    split_ifs <;> congr 1 <;> omega
  · rw [if_neg h32, decide_eq_true (show i < 32 by omega), Bool.true_and]
    split_ifs <;> congr 1 <;> omega

/-- `dup32(rol32(u32(x), n))` is `ROTL32` of the low word of `x`. -/
theorem toBitVec_dup32_rol32 (x : UInt64) (n : UInt32) :
    (dup32 (rol32 x.toUInt32 n)).toBitVec = ROTL32 (x.toBitVec.setWidth 32) (n.toNat % 32) := by
  rw [toBitVec_dup32, toBitVec_rol32, ROTL32, ROTL64, rotateLeft_append_self,
    UInt64.toBitVec_toUInt32]

/-! ## The interpreter meets the ISA -/

section Instr

variable (ppu : Ppu) (op : UInt32)

theorem setGpr_ra (v : UInt64) : setGpr ppu (ra op) v = ppu.setGpr (reg op 11) v.toBitVec := by
  rw [setGpr, ra, reg_ppuBf op (by norm_num)]

theorem toBitVec_gpr {I : ℕ} (h : I + 5 ≤ 32) :
    (gpr ppu (ppuBf I 5 op)).toBitVec = ppu.gpr (reg op I) := by
  rw [gpr, reg_ppuBf op h]

/-- The M-form mask `ppu_rotate_mask(32 + mb, 32 + me)`. -/
theorem toBitVec_mMask :
    (ppuRotateMask (32 + mb32 op) (32 + me32 op)).toBitVec =
      MASK (field op 21 25 + 32) (field op 26 30 + 32) := by
  have hmb := field_lt op 21 25
  have hme := field_lt op 26 30
  rw [toBitVec_ppuRotateMask, UInt32.toNat_add, UInt32.toNat_add, mb32, me32,
    toNat_ppuBf op (by norm_num) (by norm_num), toNat_ppuBf op (by norm_num) (by norm_num)]
  simp only [UInt32.reduceToNat, Nat.reduceAdd, Nat.reduceSub, Nat.reducePow] at hmb hme ⊢
  congr 1 <;> omega

/-- The MD-form shift `sh64` as a rotate count. -/
theorem toNat_sh64_mod : (sh64 op).toUInt64.toNat % 64 = field op 30 30 * 32 + field op 16 20 := by
  have h1 := field_lt op 30 30
  have h5 := field_lt op 16 20
  rw [UInt32.toNat_toUInt64, toNat_sh64]
  simp only [Nat.reduceAdd, Nat.reduceSub, Nat.reducePow] at h1 h5
  omega

theorem toNat_sh64_lt : (sh64 op).toNat < 64 := by
  have h1 := field_lt op 30 30
  have h5 := field_lt op 16 20
  rw [toNat_sh64]
  simp only [Nat.reduceAdd, Nat.reduceSub, Nat.reducePow] at h1 h5
  omega

theorem toNat_mbe64_lt : (mbe64 op).toNat < 64 := by
  have h1 := field_lt op 26 26
  have h5 := field_lt op 21 25
  rw [toNat_mbe64]
  simp only [Nat.reduceAdd, Nat.reduceSub, Nat.reducePow] at h1 h5
  omega

/-- `rol64(rs, sh64)` is `ROTL64(RS, n)`. -/
theorem toBitVec_rol64_rs :
    (rol64 (gpr ppu (rs op)) (sh64 op).toUInt64).toBitVec =
      ROTL64 (ppu.gpr (reg op 6)) (field op 30 30 * 32 + field op 16 20) := by
  rw [toBitVec_rol64, toNat_sh64_mod, rs, toBitVec_gpr ppu op (by norm_num), ROTL64]

/-- The MD-form mask `ppu_rotate_mask(mbe64, sh64 ^ 63)`. -/
theorem toBitVec_mdMask :
    (ppuRotateMask (mbe64 op) (sh64 op ^^^ 63)).toBitVec =
      MASK (field op 26 26 * 32 + field op 21 25)
        (63 - (field op 30 30 * 32 + field op 16 20)) := by
  have hb := toNat_mbe64_lt op
  have hn := toNat_sh64_lt op
  rw [toBitVec_ppuRotateMask, toNat_xor_63 _ hn, Nat.mod_eq_of_lt hb,
    Nat.mod_eq_of_lt (by omega), toNat_mbe64, toNat_sh64]

/-- The M-form shift `sh32` as a rotate count. -/
theorem toNat_sh32_mod : (sh32 op).toNat % 32 = field op 16 20 := by
  rw [sh32, toNat_ppuBf op (by norm_num) (by norm_num)]
  exact Nat.mod_eq_of_lt (field_lt op 16 20)

theorem rlwinm_eq : RLWINM ppu op = isa .rlwinm ppu op := by
  rw [RLWINM, isa, setGpr_ra, UInt64.toBitVec_and, toBitVec_dup32_rol32, toBitVec_mMask, rs,
    toBitVec_gpr ppu op (by norm_num), toNat_sh32_mod]

theorem rlwimi_eq : RLWIMI ppu op = isa .rlwimi ppu op := by
  rw [RLWIMI, isa]
  rw [setGpr_ra, UInt64.toBitVec_or, UInt64.toBitVec_and, UInt64.toBitVec_and, UInt64.toBitVec_not,
    toBitVec_dup32_rol32, toBitVec_mMask, rs, ra, toBitVec_gpr ppu op (by norm_num),
    toBitVec_gpr ppu op (by norm_num), toNat_sh32_mod, BitVec.or_comm]

theorem rlwnm_eq : RLWNM ppu op = isa .rlwnm ppu op := by
  have hn : ((gpr ppu (rb op) &&& 0x1f).toUInt32).toNat % 32 = (ppu.gpr (reg op 16)).toNat % 32 := by
    rw [UInt64.toNat_toUInt32, UInt64.toNat_and, ← UInt64.toNat_toBitVec (gpr ppu (rb op)), rb,
      toBitVec_gpr ppu op (by norm_num), show (0x1f : UInt64).toNat = 2 ^ 5 - 1 from rfl,
      Nat.and_two_pow_sub_one_eq_mod]
    omega
  rw [RLWNM, isa]
  rw [setGpr_ra, UInt64.toBitVec_and, toBitVec_dup32_rol32, toBitVec_mMask, hn, rs,
    toBitVec_gpr ppu op (by norm_num)]

theorem rldicl_eq : RLDICL ppu op = isa .rldicl ppu op := by
  rw [RLDICL, isa]
  rw [setGpr_ra, UInt64.toBitVec_and, toBitVec_rol64_rs,
    toBitVec_ones_shiftRight _ (toNat_mbe64_lt op), toNat_mbe64]

theorem rldicr_eq : RLDICR ppu op = isa .rldicr ppu op := by
  rw [RLDICR, isa]
  rw [setGpr_ra, UInt64.toBitVec_and, toBitVec_rol64_rs,
    toBitVec_ones_shiftLeft _ (toNat_mbe64_lt op), toNat_mbe64]

theorem rldic_eq : RLDIC ppu op = isa .rldic ppu op := by
  rw [RLDIC, isa]
  rw [setGpr_ra, UInt64.toBitVec_and, toBitVec_rol64_rs, toBitVec_mdMask]

theorem rldimi_eq : RLDIMI ppu op = isa .rldimi ppu op := by
  rw [RLDIMI, isa]
  rw [setGpr_ra, UInt64.toBitVec_or, UInt64.toBitVec_and, UInt64.toBitVec_and,
    UInt64.toBitVec_not, toBitVec_rol64_rs, toBitVec_mdMask, ra, toBitVec_gpr ppu op (by norm_num),
    BitVec.or_comm]

end Instr

/-- Every rotate instruction, on every register file and instruction word, computes what the
Power ISA defines. -/
theorem rotate_meets_isa (ins : Rotate) (ppu : Ppu) (op : UInt32) :
    exec ins ppu op = isa ins ppu op := by
  cases ins with
  | rlwimi => exact rlwimi_eq ppu op
  | rlwinm => exact rlwinm_eq ppu op
  | rlwnm => exact rlwnm_eq ppu op
  | rldicl => exact rldicl_eq ppu op
  | rldicr => exact rldicr_eq ppu op
  | rldic => exact rldic_eq ppu op
  | rldimi => exact rldimi_eq ppu op

end Rpcs3.Cell.PpuRotate
