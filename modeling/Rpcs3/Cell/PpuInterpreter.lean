import Rpcs3.Lib.Word
import Mathlib

/-! The fixed-point instructions of the PPU interpreter (Emu/Cell/PPUInterpreter.cpp)
that write XER: the carrying adds and subtracts built on `add64_flags`, ADD, SUBF and
NEG with OE, the multiplies and divides, and the algebraic shifts. Each instruction is
a function of the thread's registers and of the opcode fields, as the source's `exec`
lambda computes it; the OE forms are the `has_oe` template flag, except MULLD which
reads the opcode's own OE bit. A division by the host's `/` is partial: the source
reaches it only under a guard, and the model returns `none` where the host operation
would be undefined, so that "the instruction never divides by zero" is the statement
that it always returns a state.

The Power ISA's meaning of the same instructions is stated separately (`isa`): the
target value as an exact sum, product, quotient or shift, CA as the carry of the
unsigned sum or as a lost 1 bit, OV as a signed result that does not fit. The main
theorem says the interpreter meets it on every input. -/
namespace Rpcs3.Cell.PpuInterpreter

open Word

/-- `ppu_thread::xer`: summary overflow, overflow and carry. -/
@[ext] structure Xer where
  so : Bool
  ov : Bool
  ca : Bool
  deriving DecidableEq, Repr

/-- The registers these instructions read and write. -/
structure Ppu where
  gpr : Fin 32 → BitVec 64
  xer : Xer

/-- The fields of `ppu_opcode_t` the instructions read; `rs` is the `rd` field. -/
structure PpuOpcode where
  rd : Fin 32
  ra : Fin 32
  rb : Fin 32
  oe : Bool
  simm16 : BitVec 16
  sh32 : Fin 32
  sh64 : Fin 64
  deriving DecidableEq, Repr

def PpuOpcode.rs (op : PpuOpcode) : Fin 32 := op.rd

/-- `ppu.gpr[r] = v`. -/
def Ppu.setGpr (ppu : Ppu) (r : Fin 32) (v : BitVec 64) : Ppu :=
  { ppu with gpr := Function.update ppu.gpr r v }

/-- `ppu.xer.ca = ca`. -/
def Ppu.setCa (ppu : Ppu) (ca : Bool) : Ppu :=
  { ppu with xer := { ppu.xer with ca := ca } }

/-- `ppu_ov_set`: OV takes the bit and SO keeps it. -/
def ppuOvSet (ppu : Ppu) (bit : Bool) : Ppu :=
  { ppu with xer := { ppu.xer with ov := bit, so := ppu.xer.so || bit } }

@[simp] theorem setGpr_gpr (ppu : Ppu) (r : Fin 32) (v : BitVec 64) :
    (ppu.setGpr r v).gpr = Function.update ppu.gpr r v := rfl

@[simp] theorem setGpr_xer (ppu : Ppu) (r : Fin 32) (v : BitVec 64) :
    (ppu.setGpr r v).xer = ppu.xer := rfl

@[simp] theorem setCa_gpr (ppu : Ppu) (ca : Bool) : (ppu.setCa ca).gpr = ppu.gpr := rfl

@[simp] theorem setCa_xer (ppu : Ppu) (ca : Bool) :
    (ppu.setCa ca).xer = { ppu.xer with ca := ca } := rfl

@[simp] theorem ppuOvSet_gpr (ppu : Ppu) (bit : Bool) : (ppuOvSet ppu bit).gpr = ppu.gpr := rfl

@[simp] theorem ppuOvSet_xer (ppu : Ppu) (bit : Bool) :
    (ppuOvSet ppu bit).xer = { ppu.xer with ov := bit, so := ppu.xer.so || bit } := rfl

/-! ## The interpreter -/

/-- `add_flags_result_t<u64>`. -/
structure AddFlagsResult where
  result : BitVec 64
  carry : Bool

/-- `add64_flags(a, b)`: the sum, and a carry when it wrapped below `a`. -/
def add64Flags (a b : BitVec 64) : AddFlagsResult :=
  ⟨a + b, decide (a + b < a)⟩

/-- `add64_flags(a, b, c)`: the carry in is added to `a + b` in a second flagged add,
and a carry of either add is the carry. -/
def add64FlagsC (a b : BitVec 64) (c : Bool) : AddFlagsResult :=
  let r := add64Flags a b
  let r2 := add64Flags r.result ((BitVec.ofBool c).setWidth 64)
  ⟨r2.result, r.carry || r2.carry⟩

/-- The body the carrying adds share: the flagged sum `r` of `x` and `y` goes to `rd`,
its carry to CA, and with OE the overflow is read off the sign bits of `x`, `y` and
the register just written. -/
def addCarrying (oe : Bool) (x y : BitVec 64) (r : AddFlagsResult) (ppu : Ppu)
    (rd : Fin 32) : Ppu :=
  let ppu := (ppu.setGpr rd r.result).setCa r.carry
  if oe then ppuOvSet ppu (x >>> 63 == y >>> 63 && x >>> 63 != ppu.gpr rd >>> 63) else ppu

def ADDC (oe : Bool) (ppu : Ppu) (op : PpuOpcode) : Ppu :=
  let RA := ppu.gpr op.ra
  let RB := ppu.gpr op.rb
  addCarrying oe RA RB (add64Flags RA RB) ppu op.rd

def ADDE (oe : Bool) (ppu : Ppu) (op : PpuOpcode) : Ppu :=
  let RA := ppu.gpr op.ra
  let RB := ppu.gpr op.rb
  addCarrying oe RA RB (add64FlagsC RA RB ppu.xer.ca) ppu op.rd

/-- The source tests `RA >> 63 == 0`, which is the shared test with `y = 0`. -/
def ADDZE (oe : Bool) (ppu : Ppu) (op : PpuOpcode) : Ppu :=
  let RA := ppu.gpr op.ra
  addCarrying oe RA 0 (add64FlagsC RA 0 ppu.xer.ca) ppu op.rd

/-- The source tests `u64(RA) >> 63 == 1`, the shared test with `y = ~0`. -/
def ADDME (oe : Bool) (ppu : Ppu) (op : PpuOpcode) : Ppu :=
  let RA := ppu.gpr op.ra
  addCarrying oe RA (~~~0) (add64FlagsC RA (~~~0) ppu.xer.ca) ppu op.rd

def SUBFC (oe : Bool) (ppu : Ppu) (op : PpuOpcode) : Ppu :=
  let RA := ppu.gpr op.ra
  let RB := ppu.gpr op.rb
  addCarrying oe (~~~RA) RB (add64FlagsC (~~~RA) RB true) ppu op.rd

def SUBFE (oe : Bool) (ppu : Ppu) (op : PpuOpcode) : Ppu :=
  let RA := ppu.gpr op.ra
  let RB := ppu.gpr op.rb
  addCarrying oe (~~~RA) RB (add64FlagsC (~~~RA) RB ppu.xer.ca) ppu op.rd

def SUBFZE (oe : Bool) (ppu : Ppu) (op : PpuOpcode) : Ppu :=
  let RA := ppu.gpr op.ra
  addCarrying oe (~~~RA) 0 (add64FlagsC (~~~RA) 0 ppu.xer.ca) ppu op.rd

def SUBFME (oe : Bool) (ppu : Ppu) (op : PpuOpcode) : Ppu :=
  let RA := ppu.gpr op.ra
  addCarrying oe (~~~RA) (~~~0) (add64FlagsC (~~~RA) (~~~0) ppu.xer.ca) ppu op.rd

/-- ADDIC and ADDIC. (the record form also sets CR0, not modelled); no OE form. -/
def ADDIC (ppu : Ppu) (op : PpuOpcode) : Ppu :=
  let a := ppu.gpr op.ra
  let i := op.simm16.signExtend 64
  addCarrying false a i (add64Flags a i) ppu op.rd

def SUBFIC (ppu : Ppu) (op : PpuOpcode) : Ppu :=
  let a := ppu.gpr op.ra
  let i := op.simm16.signExtend 64
  addCarrying false (~~~a) i (add64FlagsC (~~~a) i true) ppu op.rd

def ADD (oe : Bool) (ppu : Ppu) (op : PpuOpcode) : Ppu :=
  let RA := ppu.gpr op.ra
  let RB := ppu.gpr op.rb
  let ppu := ppu.setGpr op.rd (RA + RB)
  if oe then ppuOvSet ppu (RA >>> 63 == RB >>> 63 && RA >>> 63 != ppu.gpr op.rd >>> 63)
  else ppu

def SUBF (oe : Bool) (ppu : Ppu) (op : PpuOpcode) : Ppu :=
  let RA := ppu.gpr op.ra
  let RB := ppu.gpr op.rb
  let ppu := ppu.setGpr op.rd (RB - RA)
  if oe then ppuOvSet ppu (~~~RA >>> 63 == RB >>> 63 && ~~~RA >>> 63 != ppu.gpr op.rd >>> 63)
  else ppu

def NEG (oe : Bool) (ppu : Ppu) (op : PpuOpcode) : Ppu :=
  let RA := ppu.gpr op.ra
  let ppu := ppu.setGpr op.rd (0 - RA)
  if oe then ppuOvSet ppu (RA == 1#64 <<< 63) else ppu

/-- `s64{static_cast<s32>(RA)} * static_cast<s32>(RB)`, compared with `INT32_MIN`
and `INT32_MAX` as a signed 64-bit value. -/
def MULLW (oe : Bool) (ppu : Ppu) (op : PpuOpcode) : Ppu :=
  let ppu := ppu.setGpr op.rd
    (((ppu.gpr op.ra).setWidth 32).signExtend 64 * ((ppu.gpr op.rb).setWidth 32).signExtend 64)
  if oe then
    ppuOvSet ppu (decide ((ppu.gpr op.rd).toInt < -2147483648) ||
      decide ((ppu.gpr op.rd).toInt > 2147483647))
  else ppu

/-- `utils::mulh64`: the high half of the signed 128-bit product. -/
def mulh64 (x y : BitVec 64) : BitVec 64 :=
  BitVec.ofInt 64 ((x.toInt * y.toInt) >>> (64 : Nat))

/-- `RA * RB` is a signed 64-bit product; the model takes its low 64 bits, which is
what the compiled multiply leaves. OE is the opcode's bit, tested at run time. -/
def MULLD (ppu : Ppu) (op : PpuOpcode) : Ppu :=
  let RA := ppu.gpr op.ra
  let RB := ppu.gpr op.rb
  let ppu := ppu.setGpr op.rd (RA * RB)
  if op.oe then ppuOvSet ppu (mulh64 RA RB != (ppu.gpr op.rd).sshiftRight 63) else ppu

/-- The host's signed `a / b`: undefined on a zero divisor and on the most negative
value divided by -1, truncating otherwise. -/
def hostSdiv {w : Nat} (a b : BitVec w) : Option (BitVec w) :=
  if b = 0 ∨ (a = BitVec.intMin w ∧ b = -1) then none else some (a.sdiv b)

/-- The host's unsigned `a / b`: undefined on a zero divisor. -/
def hostUdiv {w : Nat} (a b : BitVec w) : Option (BitVec w) :=
  if b = 0 then none else some (a / b)

def DIVD (oe : Bool) (ppu : Ppu) (op : PpuOpcode) : Option Ppu := do
  let RA := ppu.gpr op.ra
  let RB := ppu.gpr op.rb
  let o := RB == 0 || (RA == BitVec.intMin 64 && RB == -1)
  let q ← if o then some 0 else hostSdiv RA RB
  let ppu := ppu.setGpr op.rd q
  pure (if oe then ppuOvSet ppu o else ppu)

/-- The quotient is cast to `u32`, so the register is zero-extended. -/
def DIVW (oe : Bool) (ppu : Ppu) (op : PpuOpcode) : Option Ppu := do
  let RA := (ppu.gpr op.ra).setWidth 32
  let RB := (ppu.gpr op.rb).setWidth 32
  let o := RB == 0 || (RA == BitVec.intMin 32 && RB == -1)
  let q ← if o then some 0 else hostSdiv RA RB
  let ppu := ppu.setGpr op.rd (q.setWidth 64)
  pure (if oe then ppuOvSet ppu o else ppu)

def DIVDU (oe : Bool) (ppu : Ppu) (op : PpuOpcode) : Option Ppu := do
  let RA := ppu.gpr op.ra
  let RB := ppu.gpr op.rb
  let q ← if RB == 0 then some 0 else hostUdiv RA RB
  let ppu := ppu.setGpr op.rd q
  pure (if oe then ppuOvSet ppu (RB == 0) else ppu)

def DIVWU (oe : Bool) (ppu : Ppu) (op : PpuOpcode) : Option Ppu := do
  let RA := (ppu.gpr op.ra).setWidth 32
  let RB := (ppu.gpr op.rb).setWidth 32
  let q ← if RB == 0 then some 0 else hostUdiv RA RB
  let ppu := ppu.setGpr op.rd (q.setWidth 64)
  pure (if oe then ppuOvSet ppu (RB == 0) else ppu)

/-- The body SRAW and SRAD share, for a source `RS` of `w` bits: the shift is
`RB & mask`; past `w - 1` the target gets `0 - (RS < 0)` and CA the sign, otherwise
the sign-extended shifted source, with CA when `RS` is negative and shifting the
result back does not give `RS`. -/
def algebraicShift (w : Nat) (mask : BitVec 64) (RS : BitVec w) (ppu : Ppu)
    (op : PpuOpcode) : Ppu :=
  let shift := (ppu.gpr op.rb &&& mask).toNat
  if shift > w - 1 then
    (ppu.setGpr op.ra (0 - (BitVec.ofBool (RS.slt 0)).setWidth 64)).setCa (RS.slt 0)
  else
    let ppu := ppu.setGpr op.ra ((RS.sshiftRight shift).signExtend 64)
    ppu.setCa (RS.slt 0 && ppu.gpr op.ra <<< shift != RS.signExtend 64)

def SRAW (ppu : Ppu) (op : PpuOpcode) : Ppu :=
  algebraicShift 32 63 ((ppu.gpr op.rs).setWidth 32) ppu op

def SRAD (ppu : Ppu) (op : PpuOpcode) : Ppu :=
  algebraicShift 64 127 (ppu.gpr op.rs) ppu op

/-- Unlike SRAW, the carry test compares 32-bit values. -/
def SRAWI (ppu : Ppu) (op : PpuOpcode) : Ppu :=
  let RS := (ppu.gpr op.rs).setWidth 32
  let ppu := ppu.setGpr op.ra ((RS.sshiftRight op.sh32.val).signExtend 64)
  ppu.setCa (RS.slt 0 && (ppu.gpr op.ra <<< op.sh32.val).setWidth 32 != RS)

def SRADI (ppu : Ppu) (op : PpuOpcode) : Ppu :=
  let sh := op.sh64.val
  let RS := ppu.gpr op.rs
  let ppu := ppu.setGpr op.ra (RS.sshiftRight sh)
  ppu.setCa (RS.slt 0 && ppu.gpr op.ra <<< sh != RS)

/-- The instructions of this module, with the OE flag where the source instantiates
the function with and without `has_oe`. -/
inductive XerOp
  | addc (oe : Bool)
  | adde (oe : Bool)
  | addze (oe : Bool)
  | addme (oe : Bool)
  | subfc (oe : Bool)
  | subfe (oe : Bool)
  | subfze (oe : Bool)
  | subfme (oe : Bool)
  | addic
  | subfic
  | add (oe : Bool)
  | subf (oe : Bool)
  | neg (oe : Bool)
  | mullw (oe : Bool)
  | mulld
  | divd (oe : Bool)
  | divw (oe : Bool)
  | divdu (oe : Bool)
  | divwu (oe : Bool)
  | sraw
  | srad
  | srawi
  | sradi
  deriving DecidableEq, Repr

def exec : XerOp → Ppu → PpuOpcode → Option Ppu
  | .addc oe, ppu, op => some (ADDC oe ppu op)
  | .adde oe, ppu, op => some (ADDE oe ppu op)
  | .addze oe, ppu, op => some (ADDZE oe ppu op)
  | .addme oe, ppu, op => some (ADDME oe ppu op)
  | .subfc oe, ppu, op => some (SUBFC oe ppu op)
  | .subfe oe, ppu, op => some (SUBFE oe ppu op)
  | .subfze oe, ppu, op => some (SUBFZE oe ppu op)
  | .subfme oe, ppu, op => some (SUBFME oe ppu op)
  | .addic, ppu, op => some (ADDIC ppu op)
  | .subfic, ppu, op => some (SUBFIC ppu op)
  | .add oe, ppu, op => some (ADD oe ppu op)
  | .subf oe, ppu, op => some (SUBF oe ppu op)
  | .neg oe, ppu, op => some (NEG oe ppu op)
  | .mullw oe, ppu, op => some (MULLW oe ppu op)
  | .mulld, ppu, op => some (MULLD ppu op)
  | .divd oe, ppu, op => DIVD oe ppu op
  | .divw oe, ppu, op => DIVW oe ppu op
  | .divdu oe, ppu, op => DIVDU oe ppu op
  | .divwu oe, ppu, op => DIVWU oe ppu op
  | .sraw, ppu, op => some (SRAW ppu op)
  | .srad, ppu, op => some (SRAD ppu op)
  | .srawi, ppu, op => some (SRAWI ppu op)
  | .sradi, ppu, op => some (SRADI ppu op)

/-- The register an instruction writes: `rd`, or `ra` for the shifts. -/
def XerOp.target : XerOp → PpuOpcode → Fin 32
  | .sraw, op | .srad, op | .srawi, op | .sradi, op => op.ra
  | _, op => op.rd

/-! ## What the Power ISA defines -/

/-- The ISA's meaning of one instruction: the values the target register may take,
the carry it computes (`none`: CA is not written) and the overflow it computes
(`none`: OE is off, and OV and SO are not written). -/
structure Meaning where
  dest : BitVec 64 → Prop
  ca : Option Bool
  ov : Option Bool

/-- XER after the instruction: a computed overflow is written to OV and kept in SO. -/
def Meaning.xer (m : Meaning) (xer : Xer) : Xer :=
  { so := xer.so || m.ov.getD false, ov := m.ov.getD xer.ov, ca := m.ca.getD xer.ca }

/-- A state after the instruction meets the meaning: the target holds an allowed
value, no other register changed, and XER is as the ISA sets it. -/
structure Meaning.Sat (m : Meaning) (t : Fin 32) (ppu ppu' : Ppu) : Prop where
  dest : m.dest (ppu'.gpr t)
  frame : ∀ r, r ≠ t → ppu'.gpr r = ppu.gpr r
  xer : ppu'.xer = m.xer ppu.xer

/-- `x + y + c` as the ISA writes the adds and subtracts (a subtract adds the
complement of RA): the low 64 bits of the sum, CA its unsigned carry out, and OV
when the signed sum is not a 64-bit value. -/
def sumMeaning (setsCa oe : Bool) (x y : BitVec 64) (c : Nat) : Meaning where
  dest d := d.toNat = (x.toNat + y.toNat + c) % 2 ^ 64
  ca := if setsCa then some (decide (2 ^ 64 ≤ x.toNat + y.toNat + c)) else none
  ov := if oe then some (!decide (Fits 64 (x.toInt + y.toInt + c))) else none

/-- The two operands for which the ISA leaves a signed quotient undefined. -/
def DivUndefined (w : Nat) (a b : Int) : Prop := b = 0 ∨ (a = -2 ^ (w - 1) ∧ b = -1)

instance (w : Nat) (a b : Int) : Decidable (DivUndefined w a b) :=
  inferInstanceAs (Decidable (_ ∨ _))

/-- An algebraic shift right of `s` by `n`: the sign-extended quotient rounded down,
and CA when `s` is negative and a 1 bit is shifted out. -/
def shiftMeaning {w : Nat} (s : BitVec w) (n : Nat) : Meaning where
  dest d := d.toInt = s.toInt >>> n
  ca := some (decide (s.toInt < 0 ∧ s.toInt % 2 ^ n ≠ 0))
  ov := none

def isa (k : XerOp) (ppu : Ppu) (op : PpuOpcode) : Meaning :=
  let RA := ppu.gpr op.ra
  let RB := ppu.gpr op.rb
  let RS := ppu.gpr op.rs
  let ca := ppu.xer.ca.toNat
  let imm := op.simm16.signExtend 64
  let a := RA.setWidth 32
  let b := RB.setWidth 32
  match k with
  | .addc oe => sumMeaning true oe RA RB 0
  | .adde oe => sumMeaning true oe RA RB ca
  | .addze oe => sumMeaning true oe RA 0 ca
  | .addme oe => sumMeaning true oe RA (BitVec.allOnes 64) ca
  | .subfc oe => sumMeaning true oe (~~~RA) RB 1
  | .subfe oe => sumMeaning true oe (~~~RA) RB ca
  | .subfze oe => sumMeaning true oe (~~~RA) 0 ca
  | .subfme oe => sumMeaning true oe (~~~RA) (BitVec.allOnes 64) ca
  | .addic => sumMeaning true false RA imm 0
  | .subfic => sumMeaning true false (~~~RA) imm 1
  | .add oe => sumMeaning false oe RA RB 0
  | .subf oe => sumMeaning false oe (~~~RA) RB 1
  | .neg oe => sumMeaning false oe (~~~RA) 0 1
  | .mullw oe =>
    { dest := fun d => d.toInt = a.toInt * b.toInt, ca := none,
      ov := if oe then some (!decide (Fits 32 (a.toInt * b.toInt))) else none }
  | .mulld =>
    { dest := fun d => d.toInt = (RA.toInt * RB.toInt).bmod (2 ^ 64), ca := none,
      ov := if op.oe then some (!decide (Fits 64 (RA.toInt * RB.toInt))) else none }
  | .divd oe =>
    { dest := fun d => ¬ DivUndefined 64 RA.toInt RB.toInt → d.toInt = RA.toInt.tdiv RB.toInt,
      ca := none, ov := if oe then some (decide (DivUndefined 64 RA.toInt RB.toInt)) else none }
  | .divw oe =>
    { dest := fun d => ¬ DivUndefined 32 a.toInt b.toInt →
        (d.setWidth 32).toInt = a.toInt.tdiv b.toInt,
      ca := none, ov := if oe then some (decide (DivUndefined 32 a.toInt b.toInt)) else none }
  | .divdu oe =>
    { dest := fun d => RB.toNat ≠ 0 → d.toNat = RA.toNat / RB.toNat,
      ca := none, ov := if oe then some (decide (RB.toNat = 0)) else none }
  | .divwu oe =>
    { dest := fun d => b.toNat ≠ 0 → (d.setWidth 32).toNat = a.toNat / b.toNat,
      ca := none, ov := if oe then some (decide (b.toNat = 0)) else none }
  | .sraw => shiftMeaning (RS.setWidth 32) (RB.toNat % 64)
  | .srad => shiftMeaning RS (RB.toNat % 128)
  | .srawi => shiftMeaning (RS.setWidth 32) op.sh32.val
  | .sradi => shiftMeaning RS op.sh64.val

/-! ## The interpreter meets the ISA -/

theorem Meaning.sat_of_write {m : Meaning} {t : Fin 32} {ppu ppu' : Ppu} {v : BitVec 64}
    (hg : ppu'.gpr = Function.update ppu.gpr t v) (hd : m.dest v)
    (hx : ppu'.xer = m.xer ppu.xer) : m.Sat t ppu ppu' where
  dest := by rw [hg, Function.update_self]; exact hd
  frame r hr := by rw [hg, Function.update_of_ne hr]
  xer := hx

theorem add64FlagsC_result (a b : BitVec 64) (c : Bool) :
    (add64FlagsC a b c).result = a + b + (BitVec.ofBool c).setWidth 64 := rfl

theorem toNat_ofBool_setWidth (c : Bool) : ((BitVec.ofBool c).setWidth 64).toNat = c.toNat := by
  cases c <;> rfl

theorem add64FlagsC_toNat (a b : BitVec 64) (c : Bool) :
    (add64FlagsC a b c).result.toNat = (a.toNat + b.toNat + c.toNat) % 2 ^ 64 := by
  rw [add64FlagsC_result, toNat_add_add, toNat_ofBool_setWidth]

theorem add64FlagsC_carry (a b : BitVec 64) (c : Bool) :
    (add64FlagsC a b c).carry = decide (2 ^ 64 ≤ a.toNat + b.toNat + c.toNat) := by
  have h := carry_add_add a b ((BitVec.ofBool c).setWidth 64)
    (by rw [toNat_ofBool_setWidth]; cases c <;> decide)
  rw [toNat_ofBool_setWidth] at h
  have hc : (add64FlagsC a b c).carry =
      (decide (a + b < a) || decide (a + b + (BitVec.ofBool c).setWidth 64 < a + b)) := rfl
  rw [hc, Bool.eq_iff_iff]
  simpa using h

theorem add64FlagsC_overflow (x y : BitVec 64) (c : Bool) :
    (x >>> 63 == y >>> 63 && x >>> 63 != (add64FlagsC x y c).result >>> 63) =
      !decide (Fits 64 (x.toInt + y.toInt + c.toNat)) := by
  have h := signBits_overflow x y ((BitVec.ofBool c).setWidth 64) (by decide)
    (by rw [toNat_ofBool_setWidth]; cases c <;> decide)
  rw [toNat_ofBool_setWidth] at h
  exact h

/-- A flagged add without carry in is the one with carry in `false`. -/
theorem add64Flags_eq (a b : BitVec 64) : add64Flags a b = add64FlagsC a b false := by
  simp [add64FlagsC, add64Flags]

theorem addCarrying_sat (oe : Bool) (x y : BitVec 64) (c : Bool) (ppu : Ppu) (rd : Fin 32) :
    (sumMeaning true oe x y c.toNat).Sat rd ppu (addCarrying oe x y (add64FlagsC x y c) ppu rd) := by
  apply Meaning.sat_of_write (v := (add64FlagsC x y c).result)
  · cases oe <;> rfl
  · exact add64FlagsC_toNat x y c
  · cases oe <;> simp [addCarrying, Meaning.xer, sumMeaning, add64FlagsC_carry,
      add64FlagsC_overflow]

theorem ADD_sat (oe : Bool) (ppu : Ppu) (op : PpuOpcode) :
    (isa (.add oe) ppu op).Sat op.rd ppu (ADD oe ppu op) := by
  have hov := signBits_overflow (ppu.gpr op.ra) (ppu.gpr op.rb) 0 (by decide) (by decide)
  apply Meaning.sat_of_write (v := ppu.gpr op.ra + ppu.gpr op.rb)
  · cases oe <;> rfl
  · exact BitVec.toNat_add _ _
  · cases oe <;> simp_all [ADD, isa, Meaning.xer, sumMeaning]

theorem SUBF_sat (oe : Bool) (ppu : Ppu) (op : PpuOpcode) :
    (isa (.subf oe) ppu op).Sat op.rd ppu (SUBF oe ppu op) := by
  have hsub := sub_eq_not_add (ppu.gpr op.ra) (ppu.gpr op.rb)
  have hov := signBits_overflow (~~~ppu.gpr op.ra) (ppu.gpr op.rb) 1#64 (by decide) (by decide)
  rw [← hsub] at hov
  apply Meaning.sat_of_write (v := ppu.gpr op.rb - ppu.gpr op.ra)
  · cases oe <;> rfl
  · show (ppu.gpr op.rb - ppu.gpr op.ra).toNat =
      ((~~~ppu.gpr op.ra).toNat + (ppu.gpr op.rb).toNat + 1) % 2 ^ 64
    rw [hsub, toNat_add_add]
    rfl
  · cases oe <;> simp_all [SUBF, isa, Meaning.xer, sumMeaning]

/-- NEG's test against `1 << 63` is the ISA's overflow of `~RA + 1`, that is of `-RA`. -/
theorem neg_overflow (x : BitVec 64) :
    (x == 1#64 <<< 63) = !decide (Fits 64 ((~~~x).toInt + (0 : BitVec 64).toInt + 1)) := by
  have hs : (~~~x).toInt + (0 : BitVec 64).toInt + 1 = -x.toInt := by
    rw [toInt_not x (by decide), show (0 : BitVec 64).toInt = 0 from rfl]
    ring
  have hmin : (1#64 <<< 63 : BitVec 64) = BitVec.intMin 64 := by decide
  rw [hs, hmin, Bool.eq_iff_iff, beq_iff_eq, Bool.not_eq_true', decide_eq_false_iff_not,
    fits_neg_iff, not_not, toInt_eq_intMin_iff x (by decide)]

theorem NEG_sat (oe : Bool) (ppu : Ppu) (op : PpuOpcode) :
    (isa (.neg oe) ppu op).Sat op.rd ppu (NEG oe ppu op) := by
  have hsub := sub_eq_not_add (ppu.gpr op.ra) 0
  have hov := neg_overflow (ppu.gpr op.ra)
  apply Meaning.sat_of_write (v := 0 - ppu.gpr op.ra)
  · cases oe <;> rfl
  · show (0 - ppu.gpr op.ra).toNat =
      ((~~~ppu.gpr op.ra).toNat + (0 : BitVec 64).toNat + 1) % 2 ^ 64
    rw [hsub, toNat_add_add]
    rfl
  · cases oe <;> simp_all [NEG, isa, Meaning.xer, sumMeaning]

/-- MULLW's two comparisons with `INT32_MIN` and `INT32_MAX` say the product is not a
32-bit value. -/
theorem mullw_overflow (p : Int) :
    (decide (p < -2147483648) || decide (p > 2147483647)) = !decide (Fits 32 p) := by
  have hpow : (2 : Int) ^ (32 - 1) = 2147483648 := by norm_num
  rw [Bool.eq_iff_iff]
  simp only [Fits, hpow, Bool.or_eq_true, decide_eq_true_eq, Bool.not_eq_true',
    decide_eq_false_iff_not]
  omega

theorem MULLW_sat (oe : Bool) (ppu : Ppu) (op : PpuOpcode) :
    (isa (.mullw oe) ppu op).Sat op.rd ppu (MULLW oe ppu op) := by
  have hv := toInt_mul_signExtend ((ppu.gpr op.ra).setWidth 32) ((ppu.gpr op.rb).setWidth 32)
    (by decide) (v := 64) (by decide)
  apply Meaning.sat_of_write (v := ((ppu.gpr op.ra).setWidth 32).signExtend 64 *
    ((ppu.gpr op.rb).setWidth 32).signExtend 64)
  · cases oe <;> rfl
  · exact hv
  · cases oe
    · simp [MULLW, isa, Meaning.xer]
    · simp only [MULLW, isa, Meaning.xer, if_true, ppuOvSet_xer, setGpr_gpr, setGpr_xer,
        Function.update_self, hv, mullw_overflow, Option.getD_some, Option.getD_none]

/-- MULLD's test of the high word against the sign fill of the low word says the
exact product is not a 64-bit value. -/
theorem mulld_overflow (x y : BitVec 64) :
    (mulh64 x y != (x * y).sshiftRight 63) = !decide (Fits 64 (x.toInt * y.toInt)) := by
  have h := mulHigh_eq_sign_iff x y (by decide)
  rw [Bool.eq_iff_iff]
  simpa [bne_iff_ne, mulh64] using not_congr h

theorem MULLD_sat (ppu : Ppu) (op : PpuOpcode) :
    (isa .mulld ppu op).Sat op.rd ppu (MULLD ppu op) := by
  apply Meaning.sat_of_write (v := ppu.gpr op.ra * ppu.gpr op.rb)
  · simp only [MULLD]
    split <;> rfl
  · exact BitVec.toInt_mul _ _
  · simp only [MULLD, isa, Meaning.xer]
    split <;> simp_all [mulld_overflow]

/-- The guard the signed divisions test before the host's `/` is the ISA's pair of
undefined operands. -/
theorem sdivGuard_eq {w : Nat} (a b : BitVec w) (hw : 0 < w) :
    (b == 0 || (a == BitVec.intMin w && b == -1)) = decide (DivUndefined w a.toInt b.toInt) := by
  rw [Bool.eq_iff_iff]
  simp only [Bool.or_eq_true, Bool.and_eq_true, beq_iff_eq, decide_eq_true_eq, DivUndefined,
    toInt_eq_zero_iff, toInt_eq_intMin_iff a hw, toInt_eq_neg_one_iff b hw]

/-- Off the guard the host's signed division is defined. -/
theorem hostSdiv_of_guard {w : Nat} (a b : BitVec w)
    (h : (b == 0 || (a == BitVec.intMin w && b == -1)) = false) :
    hostSdiv a b = some (a.sdiv b) := by
  simp only [Bool.or_eq_false_iff, beq_eq_false_iff_ne, Bool.and_eq_false_iff] at h
  rw [hostSdiv, if_neg]
  rintro (h0 | ⟨hmin, hneg⟩)
  · exact h.1 h0
  · rcases h.2 with h2 | h2 <;> simp_all

/-- A division leaves the quotient, or 0 under its guard, in the target, and with OE
the guard in OV; that meets a meaning whose target is free on the undefined operands
and whose overflow is the undefined case. -/
theorem sat_of_guarded (oe o : Bool) (U : Prop) [Decidable U] (P : BitVec 64 → Prop)
    (v : BitVec 64) (ppu : Ppu) (rd : Fin 32) (ho : o = decide U) (hv : ¬U → P v) :
    ({ dest := fun d => ¬U → P d, ca := none,
       ov := if oe then some (decide U) else none } : Meaning).Sat rd ppu
      (if oe then ppuOvSet (ppu.setGpr rd v) o else ppu.setGpr rd v) := by
  apply Meaning.sat_of_write (v := v)
  · cases oe <;> rfl
  · exact hv
  · cases oe <;> simp [Meaning.xer, ho]

theorem DIVD_sat (oe : Bool) (ppu : Ppu) (op : PpuOpcode) :
    ∃ ppu', DIVD oe ppu op = some ppu' ∧ (isa (.divd oe) ppu op).Sat op.rd ppu ppu' := by
  have hg := sdivGuard_eq (ppu.gpr op.ra) (ppu.gpr op.rb) (by decide)
  cases ho : (ppu.gpr op.rb == 0 || (ppu.gpr op.ra == BitVec.intMin 64 && ppu.gpr op.rb == -1))
  · -- off the guard the host divides, and the quotient truncates toward zero
    have hq := hostSdiv_of_guard _ _ ho
    refine ⟨_, by simp only [DIVD, ho, hq]; rfl, sat_of_guarded oe false _ _ _ ppu op.rd
      (ho.symm.trans hg) fun _ => BitVec.toInt_sdiv_of_ne_or_ne _ _ ?_⟩
    simp only [Bool.or_eq_false_iff, Bool.and_eq_false_iff, beq_eq_false_iff_ne] at ho
    rcases ho.2 with h | h
    · exact .inl h
    · exact .inr h
  · exact ⟨_, by simp only [DIVD, ho]; rfl, sat_of_guarded oe true _ _ _ ppu op.rd
      (ho.symm.trans hg) fun hu => absurd (of_decide_eq_true (hg.symm.trans ho)) hu⟩

theorem setWidth_zeroExtend (q : BitVec 32) : (q.setWidth 64).setWidth 32 = q := by
  rw [BitVec.setWidth_setWidth_of_le _ (by decide), BitVec.setWidth_eq]

theorem DIVW_sat (oe : Bool) (ppu : Ppu) (op : PpuOpcode) :
    ∃ ppu', DIVW oe ppu op = some ppu' ∧ (isa (.divw oe) ppu op).Sat op.rd ppu ppu' := by
  have hg := sdivGuard_eq ((ppu.gpr op.ra).setWidth 32) ((ppu.gpr op.rb).setWidth 32) (by decide)
  cases ho : ((ppu.gpr op.rb).setWidth 32 == 0 ||
      ((ppu.gpr op.ra).setWidth 32 == BitVec.intMin 32 && (ppu.gpr op.rb).setWidth 32 == -1))
  · have hq := hostSdiv_of_guard _ _ ho
    refine ⟨_, by simp only [DIVW, ho, hq]; rfl, sat_of_guarded oe false _ _ _ ppu op.rd
      (ho.symm.trans hg) fun _ => ?_⟩
    rw [setWidth_zeroExtend]
    apply BitVec.toInt_sdiv_of_ne_or_ne
    simp only [Bool.or_eq_false_iff, Bool.and_eq_false_iff, beq_eq_false_iff_ne] at ho
    rcases ho.2 with h | h
    · exact .inl h
    · exact .inr h
  · exact ⟨_, by simp only [DIVW, ho]; rfl, sat_of_guarded oe true _ _ _ ppu op.rd
      (ho.symm.trans hg) fun hu => absurd (of_decide_eq_true (hg.symm.trans ho)) hu⟩

/-- The unsigned divisions guard the host's `/` by a zero test of the divisor. -/
theorem udivGuard_eq {w : Nat} (b : BitVec w) : (b == 0) = decide (b.toNat = 0) := by
  rw [Bool.eq_iff_iff, beq_iff_eq, decide_eq_true_eq, ← BitVec.toNat_inj]
  rfl

theorem hostUdiv_of_guard {w : Nat} (a b : BitVec w) (h : (b == 0) = false) :
    hostUdiv a b = some (a / b) := by
  rw [hostUdiv, if_neg (by simpa using h)]

theorem DIVDU_sat (oe : Bool) (ppu : Ppu) (op : PpuOpcode) :
    ∃ ppu', DIVDU oe ppu op = some ppu' ∧ (isa (.divdu oe) ppu op).Sat op.rd ppu ppu' := by
  have hg := udivGuard_eq (ppu.gpr op.rb)
  cases ho : (ppu.gpr op.rb == 0)
  · have hq := hostUdiv_of_guard (ppu.gpr op.ra) _ ho
    exact ⟨_, by simp only [DIVDU, ho, hq]; rfl, sat_of_guarded oe false _ _ _ ppu op.rd
      (ho.symm.trans hg) fun _ => BitVec.toNat_udiv⟩
  · exact ⟨_, by simp only [DIVDU, ho]; rfl, sat_of_guarded oe true _ _ _ ppu op.rd
      (ho.symm.trans hg) fun hu => absurd (of_decide_eq_true (hg.symm.trans ho)) hu⟩

theorem DIVWU_sat (oe : Bool) (ppu : Ppu) (op : PpuOpcode) :
    ∃ ppu', DIVWU oe ppu op = some ppu' ∧ (isa (.divwu oe) ppu op).Sat op.rd ppu ppu' := by
  have hg := udivGuard_eq ((ppu.gpr op.rb).setWidth 32)
  cases ho : ((ppu.gpr op.rb).setWidth 32 == 0)
  · have hq := hostUdiv_of_guard ((ppu.gpr op.ra).setWidth 32) _ ho
    refine ⟨_, by simp only [DIVWU, ho, hq]; rfl, sat_of_guarded oe false _ _ _ ppu op.rd
      (ho.symm.trans hg) fun _ => ?_⟩
    rw [setWidth_zeroExtend]
    exact BitVec.toNat_udiv
  · exact ⟨_, by simp only [DIVWU, ho]; rfl, sat_of_guarded oe true _ _ _ ppu op.rd
      (ho.symm.trans hg) fun hu => absurd (of_decide_eq_true (hg.symm.trans ho)) hu⟩

/-- SRAW and SRAD meet the ISA's shift for every shift amount: past the width the sign
fill is the rounded-down quotient and the sign is the lost-bit test. -/
theorem algebraicShift_sat (w : Nat) (hw64 : w ≤ 64) (mask : BitVec 64) (RS : BitVec w)
    (ppu : Ppu) (op : PpuOpcode) :
    (shiftMeaning RS (ppu.gpr op.rb &&& mask).toNat).Sat op.ra ppu
      (algebraicShift w mask RS ppu op) := by
  unfold algebraicShift
  generalize (ppu.gpr op.rb &&& mask).toNat = n
  by_cases hbig : n > w - 1
  · have hfill : (0 - (BitVec.ofBool (RS.slt 0)).setWidth 64).toInt =
        if RS.toInt < 0 then -1 else 0 := by
      rw [slt_zero]
      by_cases h : RS.toInt < 0
      · rw [decide_eq_true h, if_pos h]
        decide
      · rw [decide_eq_false h, if_neg h]
        decide
    have hca : RS.slt 0 = decide (RS.toInt < 0 ∧ RS.toInt % 2 ^ n ≠ 0) := by
      rw [slt_zero, decide_eq_decide]
      exact ⟨fun h => ⟨h, toInt_emod_ne_zero_of_neg RS (by omega) h⟩, fun h => h.1⟩
    rw [if_pos hbig]
    apply Meaning.sat_of_write (v := 0 - (BitVec.ofBool (RS.slt 0)).setWidth 64)
    · rfl
    · show _ = RS.toInt >>> n
      rw [hfill, toInt_shiftRight_of_le RS (by omega)]
    · simp only [setCa_xer, setGpr_xer, Meaning.xer, shiftMeaning, Option.getD_some,
        Option.getD_none, Bool.or_false, hca]
  · have hca := sshiftRight_shiftLeft_bne (RS.signExtend 64) (n := n) (by omega)
    rw [← signExtend_sshiftRight RS hw64, BitVec.toInt_signExtend_of_le hw64] at hca
    rw [if_neg hbig]
    apply Meaning.sat_of_write (v := (RS.sshiftRight n).signExtend 64)
    · rfl
    · show _ = RS.toInt >>> n
      rw [BitVec.toInt_signExtend_of_le hw64, BitVec.toInt_sshiftRight]
    · simp only [setCa_xer, setGpr_xer, setGpr_gpr, Function.update_self, Meaning.xer,
        shiftMeaning, Option.getD_some, Option.getD_none, Bool.or_false, hca, slt_zero,
        Bool.decide_and]

theorem toNat_and_mask (x : BitVec 64) {k : Nat} (hk : k < 64) :
    (x &&& BitVec.ofNat 64 (2 ^ k - 1)).toNat = x.toNat % 2 ^ k := by
  have hlt : 2 ^ k - 1 < 2 ^ 64 := by
    have := Nat.pow_lt_pow_right (by decide : 1 < 2) hk
    omega
  rw [BitVec.toNat_and, BitVec.toNat_ofNat, Nat.mod_eq_of_lt hlt, Nat.and_two_pow_sub_one_eq_mod]

theorem SRAW_sat (ppu : Ppu) (op : PpuOpcode) : (isa .sraw ppu op).Sat op.ra ppu (SRAW ppu op) := by
  have h := algebraicShift_sat 32 (by decide) (BitVec.ofNat 64 (2 ^ 6 - 1))
    ((ppu.gpr op.rs).setWidth 32) ppu op
  rw [toNat_and_mask _ (by decide)] at h
  exact h

theorem SRAD_sat (ppu : Ppu) (op : PpuOpcode) : (isa .srad ppu op).Sat op.ra ppu (SRAD ppu op) := by
  have h := algebraicShift_sat 64 le_rfl (BitVec.ofNat 64 (2 ^ 7 - 1)) (ppu.gpr op.rs) ppu op
  rw [toNat_and_mask _ (by decide)] at h
  exact h

theorem SRAWI_sat (ppu : Ppu) (op : PpuOpcode) :
    (isa .srawi ppu op).Sat op.ra ppu (SRAWI ppu op) := by
  have hca := sshiftRight_shiftLeft_bne ((ppu.gpr op.rs).setWidth 32) op.sh32.isLt.le
  -- the source compares the low 32 bits of the sign-extended result
  rw [← setWidth_shiftLeft_signExtend _ (v := 64) (by decide)] at hca
  apply Meaning.sat_of_write
    (v := (((ppu.gpr op.rs).setWidth 32).sshiftRight op.sh32.val).signExtend 64)
  · rfl
  · simp only [isa, shiftMeaning]
    rw [BitVec.toInt_signExtend_of_le (by decide), BitVec.toInt_sshiftRight]
  · simp only [SRAWI, setCa_xer, setGpr_xer, setGpr_gpr, Function.update_self, Meaning.xer,
      isa, shiftMeaning, Option.getD_some, Option.getD_none, Bool.or_false, hca, slt_zero,
      Bool.decide_and]

theorem SRADI_sat (ppu : Ppu) (op : PpuOpcode) :
    (isa .sradi ppu op).Sat op.ra ppu (SRADI ppu op) := by
  have hca := sshiftRight_shiftLeft_bne (ppu.gpr op.rs) op.sh64.isLt.le
  apply Meaning.sat_of_write (v := (ppu.gpr op.rs).sshiftRight op.sh64.val)
  · rfl
  · exact BitVec.toInt_sshiftRight
  · simp only [SRADI, setCa_xer, setGpr_xer, setGpr_gpr, Function.update_self, Meaning.xer,
      isa, shiftMeaning, Option.getD_some, Option.getD_none, Bool.or_false, hca, slt_zero,
      Bool.decide_and]

/-- Every XER-writing instruction of the interpreter does what the Power ISA defines,
for every register file, every XER and every opcode: it returns a state (no host
division is undefined), the target register holds the ISA's value, no other register
changes, CA and OV are the ISA's and SO keeps every overflow. -/
theorem exec_meets_isa (k : XerOp) (ppu : Ppu) (op : PpuOpcode) :
    ∃ ppu', exec k ppu op = some ppu' ∧ (isa k ppu op).Sat (k.target op) ppu ppu' := by
  -- ADDME and SUBFME add `~0`, which the ISA writes as all ones
  have hallOnes : (~~~0 : BitVec 64) = BitVec.allOnes 64 := BitVec.not_zero
  cases k with
  | addc oe =>
    -- the two-operand flagged add is the family's carry-in-false case
    refine ⟨_, rfl, ?_⟩
    simp only [XerOp.target, ADDC, add64Flags_eq]
    exact addCarrying_sat oe _ _ false ppu op.rd
  | adde oe => exact ⟨_, rfl, addCarrying_sat oe _ _ ppu.xer.ca ppu op.rd⟩
  | addze oe => exact ⟨_, rfl, addCarrying_sat oe _ _ ppu.xer.ca ppu op.rd⟩
  | addme oe =>
    refine ⟨_, rfl, ?_⟩
    have hm : isa (.addme oe) ppu op =
        sumMeaning true oe (ppu.gpr op.ra) (~~~0) ppu.xer.ca.toNat := by
      simp only [isa, hallOnes]
    rw [hm]
    exact addCarrying_sat oe _ _ ppu.xer.ca ppu op.rd
  | subfc oe => exact ⟨_, rfl, addCarrying_sat oe _ _ true ppu op.rd⟩
  | subfe oe => exact ⟨_, rfl, addCarrying_sat oe _ _ ppu.xer.ca ppu op.rd⟩
  | subfze oe => exact ⟨_, rfl, addCarrying_sat oe _ _ ppu.xer.ca ppu op.rd⟩
  | subfme oe =>
    refine ⟨_, rfl, ?_⟩
    have hm : isa (.subfme oe) ppu op =
        sumMeaning true oe (~~~ppu.gpr op.ra) (~~~0) ppu.xer.ca.toNat := by
      simp only [isa, hallOnes]
    rw [hm]
    exact addCarrying_sat oe _ _ ppu.xer.ca ppu op.rd
  | addic =>
    refine ⟨_, rfl, ?_⟩
    simp only [XerOp.target, ADDIC, add64Flags_eq]
    exact addCarrying_sat false _ _ false ppu op.rd
  | subfic => exact ⟨_, rfl, addCarrying_sat false _ _ true ppu op.rd⟩
  | add oe => exact ⟨_, rfl, ADD_sat oe ppu op⟩
  | subf oe => exact ⟨_, rfl, SUBF_sat oe ppu op⟩
  | neg oe => exact ⟨_, rfl, NEG_sat oe ppu op⟩
  | mullw oe => exact ⟨_, rfl, MULLW_sat oe ppu op⟩
  | mulld => exact ⟨_, rfl, MULLD_sat ppu op⟩
  | divd oe => exact DIVD_sat oe ppu op
  | divw oe => exact DIVW_sat oe ppu op
  | divdu oe => exact DIVDU_sat oe ppu op
  | divwu oe => exact DIVWU_sat oe ppu op
  | sraw => exact ⟨_, rfl, SRAW_sat ppu op⟩
  | srad => exact ⟨_, rfl, SRAD_sat ppu op⟩
  | srawi => exact ⟨_, rfl, SRAWI_sat ppu op⟩
  | sradi => exact ⟨_, rfl, SRADI_sat ppu op⟩

end Rpcs3.Cell.PpuInterpreter
