import Mathlib.Logic.Function.Basic

/-! PPU load-reserve and store-conditional (Emu/Cell/PPUThread.cpp,
`ppu_load_acquire_reservation` and `ppu_store_reservation`, with
`vm::reservation_acquire` of vm_reservation.h). Every 128-byte line has a
reservation word in `g_reservations`, shared with the lines 64 KiB apart. Its
bits above 127 are a time stamp that every successful store advances by 128;
bit 64 (`rsrv_unique_lock`) is held by a store while it writes. A `lwarx` or
`ldarx` remembers the time and the 8-byte word (for an accurate 128-byte
reservation, the whole line) in `ppu.rtime` and `ppu.rdata`, and the paired
`stwcx` or `stdcx` succeeds only if both still match.

Each function below is one atomic access of the two source functions, taken
as a function of the thread's registers and of the value the access reads,
on the path without transactional memory (`g_use_rtm` false). Addresses are
the guest's `u32` addresses as naturals: the source only masks them, and a
mask `& -N` is a division by `N`. A reservation word is a natural: its 64-bit
counter wraps only after 2^57 successful stores on one word. -/
namespace Rpcs3.Cell.PpuReservation

/-- The access width: `u32` (`lwarx`, `stwcx`) or `u64` (`ldarx`, `stdcx`). -/
inductive Width
  | word
  | dword
  deriving DecidableEq, Repr

/-- `sizeof(T)`. -/
def Width.bytes : Width → Nat
  | .word => 4
  | .dword => 8

/-- `vm::rsrv_unique_lock`. -/
def rsrvUniqueLock : Nat := 64

/-- The 128-byte line of an address: `addr & -128`, divided by 128. -/
def lineOf (addr : Nat) : Nat := addr / 128

/-- The aligned 8-byte word an access loads and stores: `addr & -8`, divided by 8. -/
def wordOf (addr : Nat) : Nat := addr / 8

/-- The 8-byte slot of `ppu.rdata` that mirrors the word: `(addr & 0x78) / 8`. -/
def slotOf (addr : Nat) : Nat := addr % 128 / 8

/-- The entry of `g_reservations` for an address: `vm::reservation_acquire`
takes the byte offset `(addr & 0xff80) / 2`, one 64-byte entry for each line
of a 64 KiB window. -/
def resIdx (addr : Nat) : Nat := addr % 0x10000 / 128

/-- The time stamp of a reservation word, `res & -128`. -/
def timeOf (r : Nat) : Nat := r / 128 * 128

/-- The lock bits of a reservation word, `res & 127` (`rsrv_lock_mask`). -/
def lockBits (r : Nat) : Nat := r % 128

/-- Guest memory as aligned 8-byte words, each read as a big-endian `u64`. -/
abbrev Mem := Nat → UInt64

/-- What a load returns from the big-endian word `data`:
`static_cast<T>(rdata << data_off >> size_off)`. For a `u32` the shift
already leaves 32 bits, so the cast changes nothing. -/
def loadValue (w : Width) (addr : Nat) (data : UInt64) : UInt64 :=
  data <<< UInt64.ofNat (addr % 8 * 8) >>> UInt64.ofNat (w.bytes * 8 % 64)

/-- The word a conditional store writes (`new_data`): the register for a
`u64`; for a `u32`, the old word with the register's low 32 bits copied over
the half at byte offset `addr & 4`, the upper half of the big-endian word
when that offset is 0. -/
def storeData (w : Width) (addr : Nat) (old reg : UInt64) : UInt64 :=
  match w with
  | .dword => reg
  | .word =>
    if addr &&& 4 = 0 then (old &&& (0xFFFFFFFF : UInt64)) ||| (reg <<< (32 : UInt64))
    else (old &&& (0xFFFFFFFF00000000 : UInt64)) ||| (reg &&& (0xFFFFFFFF : UInt64))

/-- The reservation registers of a `ppu_thread` (PPUThread.h), with the
initial values of their member initializers. The counters `last_fail` and
`last_succ`, the time stamp `last_ftsc` and the notification registers
`res_notify*` decide nothing about memory and are left out. -/
structure Ppu where
  raddr : Nat := 0
  rtime : Nat := 0
  rdata : Nat → UInt64 := fun _ => 0
  useFullRdata : Bool := false
  resCached : Nat := 0
  lastFtime : Nat := 0
  lastFaddr : Nat := 0

/-- `use_full_rdata` as the load sets it from the setting
`ppu_128_reservations_loop_max_length`: off when the setting is 0, on when
it is negative, and otherwise `accurate`, which stands for the HLE test
`ppu.current_function` and the scan of the next instructions for a
conditional store (code memory is not modelled). -/
def useFull (loopMax : Int) (accurate : Bool) : Bool :=
  decide (loopMax ≠ 0) && (decide (loopMax < 0) || accurate)

/-- What the reservation remembers of its load for the proofs: the width,
the address and the value returned. -/
structure Loaded where
  width : Width
  addr : Nat
  value : UInt64

/-- The locals of `ppu_store_reservation`: the call's width, address and
register, and the words `old_data` and `new_data`. -/
structure Stcx where
  width : Width
  addr : Nat
  reg : UInt64
  oldData : UInt64
  newData : UInt64

/-- Where a thread is: outside both functions, or before one atomic access
of a load or a store. `reserved` is the time between a load's return and the
paired store. -/
inductive Pc
  | idle
  /-- the retry test passed; next the load of the word -/
  | larxFast (w : Width) (addr : Nat)
  /-- next the load of the reservation time -/
  | larxTime (w : Width) (addr : Nat)
  /-- next the load of the 8-byte word -/
  | larxData (w : Width) (addr : Nat)
  /-- next the copy of the line's word `i` -/
  | larxCopy (w : Width) (addr i : Nat)
  | reserved (ld : Loaded)
  /-- next the comparison of the time -/
  | stcxTime (ld : Loaded) (c : Stcx)
  /-- next the `fetch_op` that takes the lock bit -/
  | stcxLock (ld : Loaded) (c : Stcx)
  /-- next the CAS on the time alone, for an unchanged value -/
  | stcxTimeCas (ld : Loaded) (c : Stcx)
  /-- holding the lock bit; next the `vm::writer_lock` section -/
  | stcxSection (ld : Loaded) (c : Stcx)
  /-- holding the lock bit; next the data CAS -/
  | stcxDataCas (ld : Loaded) (c : Stcx)
  /-- holding the lock bit after the data CAS wrote; next `res += 128 - lock_bits` -/
  | stcxRelease (ld : Loaded) (c : Stcx)
  /-- holding the lock bit after the data CAS found `cur`; next `fetch_sub` -/
  | stcxUnlock (ld : Loaded) (c : Stcx) (cur : UInt64)

/-- The value a load returns, once it has reached `reserved`. -/
def Pc.returned : Pc → Option UInt64
  | .reserved ld => some ld.value
  | _ => none

/-- The reservation word whose lock bit a thread holds. -/
def Pc.lockedRes : Pc → Option Nat
  | .stcxSection _ c | .stcxDataCas _ c | .stcxRelease _ c | .stcxUnlock _ c _ =>
    some (resIdx c.addr)
  | _ => none

/-- The reservation word of a store that has written memory and not yet
released its lock bit. -/
def Pc.releaseRes : Pc → Option Nat
  | .stcxRelease _ c => some (resIdx c.addr)
  | _ => none

theorem Pc.lockedRes_of_releaseRes {pc : Pc} {ri : Nat} (h : pc.releaseRes = some ri) :
    pc.lockedRes = some ri := by
  cases pc <;> simp_all [Pc.releaseRes, Pc.lockedRes]

/-! ### The load -/

/-- After the time: the 8-byte load, or the copy of the whole line. -/
def afterTime (p : Ppu) (w : Width) (addr : Nat) : Pc :=
  if p.useFullRdata then .larxCopy w addr 0 else .larxData w addr

/-- The "cached" reservation: on the line of the last successful store the
time is not reloaded. -/
def reload (p : Ppu) (w : Width) (addr : Nat) : Pc :=
  if lineOf addr = lineOf p.resCached then afterTime p w addr else .larxTime w addr

/-- `(addr & addr_mask) == (ppu.last_faddr & addr_mask)`: the same line for
a 128-byte reservation, the same address otherwise. -/
def sameFaddr (full : Bool) (a b : Nat) : Bool :=
  if full then lineOf a == lineOf b else a == b

/-- The load up to its first atomic access, which reads the reservation word
`r` for the retry test of the last failed store; `recent` is the test
`perf0.get() - ppu.last_ftsc < 600` on the time stamp counter. -/
def larxEnter (loopMax : Int) (w : Width) (addr : Nat) (accurate recent : Bool) (p : Ppu)
    (r : Nat) : Ppu × Pc :=
  let p := { p with raddr := addr, useFullRdata := useFull loopMax accurate }
  if sameFaddr p.useFullRdata addr p.lastFaddr && recent && timeOf r == p.lastFtime then
    (p, .larxFast w addr)
  else
    let p := { p with lastFaddr := 0 }
    (p, reload p w addr)

/-- The retry test's load of the word: when it still holds the value the
failed store found, the load takes that store's time and address. -/
def larxFastData (w : Width) (addr : Nat) (p : Ppu) (d : UInt64) : Ppu × Pc :=
  if p.rdata (slotOf addr) = d then
    ({ p with rtime := p.lastFtime, raddr := p.lastFaddr, lastFtime := 0 },
      .reserved ⟨w, addr, loadValue w addr d⟩)
  else
    let p := { p with lastFaddr := 0 }
    (p, reload p w addr)

/-- `ppu.rtime = vm::reservation_acquire(addr) & -128`. -/
def larxTime (w : Width) (addr : Nat) (p : Ppu) (r : Nat) : Ppu × Pc :=
  let p := { p with rtime := timeOf r }
  (p, afterTime p w addr)

/-- The 8-byte load, kept in its slot of `ppu.rdata`. -/
def larxData (w : Width) (addr : Nat) (p : Ppu) (d : UInt64) : Ppu × Pc :=
  ({ p with rdata := Function.update p.rdata (slotOf addr) d },
    .reserved ⟨w, addr, loadValue w addr d⟩)

/-- One word of `mov_rdata`, the copy of the line into `ppu.rdata`; after the
sixteenth the load returns the word's slot. -/
def larxCopy (w : Width) (addr i : Nat) (p : Ppu) (d : UInt64) : Ppu × Pc :=
  let p := { p with rdata := Function.update p.rdata i d }
  if i + 1 < 16 then (p, .larxCopy w addr (i + 1))
  else (p, .reserved ⟨w, addr, loadValue w addr (p.rdata (slotOf addr))⟩)

/-! ### The conditional store -/

/-- The locals the store computes before its first access. -/
def Stcx.make (p : Ppu) (w : Width) (addr : Nat) (reg : UInt64) : Stcx :=
  let old := p.rdata (slotOf addr)
  ⟨w, addr, reg, old, storeData w addr old reg⟩

/-- The address test: the store hits the reserved 8-byte word, or its line
when the reservation is a 128-byte one. -/
def addrOk (p : Ppu) (addr : Nat) : Bool :=
  wordOf p.raddr == wordOf addr || (lineOf p.raddr == lineOf addr && p.useFullRdata)

/-- Where the store goes once both checks pass: the lock for a 128-byte
reservation or a changed value, the CAS on the time for an unchanged one. -/
def afterCheck (p : Ppu) (ld : Loaded) (c : Stcx) : Pc :=
  if p.useFullRdata then .stcxLock ld c
  else if c.newData = c.oldData then .stcxTimeCas ld c
  else .stcxLock ld c

/-- The `fetch_op` that takes the lock bit: it gives up when the time moved
or a lock bit is set. -/
def lockOp (rtime r : Nat) : Option Nat :=
  if timeOf r ≠ rtime ∨ lockBits r ≠ 0 then none else some (r + rsrvUniqueLock)

/-- The registers after a lock that gave up: the 8-byte path clears
`last_faddr`, the 128-byte path returns at once. -/
def Ppu.lockFailed (p : Ppu) : Ppu :=
  if p.useFullRdata then p else { p with lastFaddr := 0 }

/-- `cmp_rdata`: the reservation's copy of the line equals memory. -/
def lineMatches (rdata : Nat → UInt64) (mem : Mem) (line : Nat) : Bool :=
  (List.range 16).all fun i => rdata i == mem (line * 16 + i)

/-- The registers after the data CAS found `cur` and `fetch_sub` released
the word `r`: with the loop setting 0 the retry fast path remembers the
word's address, the time and the value found. -/
def Ppu.casFailed (loopMax : Int) (p : Ppu) (c : Stcx) (r : Nat) (cur : UInt64) : Ppu :=
  if loopMax = 0 then
    { p with
      lastFaddr := wordOf c.addr * 8
      lastFtime := timeOf r
      rdata := Function.update p.rdata (slotOf c.addr) cur }
  else p

/-- The registers after a successful store. -/
def Ppu.succeed (p : Ppu) : Ppu :=
  { p with lastFaddr := 0, resCached := p.raddr, raddr := 0 }

/-- The registers after a failed store. -/
def Ppu.fail (p : Ppu) : Ppu :=
  { p with raddr := 0, resCached := 0 }

/-! ### Addresses and reservation words -/

theorem lineOf_eq_of_wordOf_eq {a b : Nat} (h : wordOf a = wordOf b) : lineOf a = lineOf b := by
  unfold wordOf at h
  unfold lineOf
  omega

theorem resIdx_eq_of_lineOf_eq {a b : Nat} (h : lineOf a = lineOf b) : resIdx a = resIdx b := by
  unfold lineOf at h
  unfold resIdx
  omega

theorem slotOf_eq_of_wordOf_eq {a b : Nat} (h : wordOf a = wordOf b) : slotOf a = slotOf b := by
  unfold wordOf at h
  unfold slotOf
  omega

theorem wordOf_eq_line_slot (a : Nat) : wordOf a = lineOf a * 16 + slotOf a := by
  unfold wordOf lineOf slotOf
  omega

theorem slotOf_lt (a : Nat) : slotOf a < 16 := by
  unfold slotOf
  omega

/-- A word outside the reservation word's lines is another word. -/
theorem wordOf_ne_of_resIdx_ne {a b : Nat} (h : resIdx a ≠ resIdx b) : wordOf a ≠ wordOf b :=
  fun hw => h (resIdx_eq_of_lineOf_eq (lineOf_eq_of_wordOf_eq hw))

theorem timeOf_le_timeOf {a b : Nat} (h : a ≤ b) : timeOf a ≤ timeOf b := by
  unfold timeOf
  have := Nat.div_le_div_right (c := 128) h
  omega

/-- Taking the lock bit keeps the time. -/
theorem lock_add {r : Nat} (h : lockBits r = 0) :
    timeOf (r + rsrvUniqueLock) = timeOf r ∧ lockBits (r + rsrvUniqueLock) = rsrvUniqueLock ∧
      (r + rsrvUniqueLock) / 128 = r / 128 := by
  unfold timeOf lockBits rsrvUniqueLock at *
  omega

/-- Adding the lock bit a second time clears it and advances the time. -/
theorem release_add {r : Nat} (h : lockBits r = rsrvUniqueLock) :
    timeOf (r + rsrvUniqueLock) = timeOf r + 128 ∧ lockBits (r + rsrvUniqueLock) = 0 ∧
      (r + rsrvUniqueLock) / 128 = r / 128 + 1 := by
  unfold timeOf lockBits rsrvUniqueLock at *
  omega

/-- Subtracting the lock bit clears it and keeps the time. -/
theorem unlock_sub {r : Nat} (h : lockBits r = rsrvUniqueLock) :
    timeOf (r - rsrvUniqueLock) = timeOf r ∧ lockBits (r - rsrvUniqueLock) = 0 ∧
      (r - rsrvUniqueLock) / 128 = r / 128 := by
  unfold timeOf lockBits rsrvUniqueLock at *
  omega

/-- The CAS on the time from a word with no lock bit. -/
theorem time_add {r : Nat} (h : r % 128 = 0) :
    timeOf r = r ∧ timeOf (r + 128) = r + 128 ∧ lockBits r = 0 ∧ lockBits (r + 128) = 0 ∧
      (r + 128) / 128 = r / 128 + 1 := by
  unfold timeOf lockBits
  omega

theorem timeOf_mod (r : Nat) : timeOf r % 128 = 0 := by
  unfold timeOf
  omega

/-! ### The store's steps -/

theorem lockOp_eq_some {rtime r r' : Nat} :
    lockOp rtime r = some r' ↔ timeOf r = rtime ∧ lockBits r = 0 ∧ r' = r + rsrvUniqueLock := by
  unfold lockOp
  split <;> grind

theorem lockOp_eq_none {rtime r : Nat} :
    lockOp rtime r = none ↔ timeOf r ≠ rtime ∨ lockBits r ≠ 0 := by
  unfold lockOp
  split <;> grind

theorem lineMatches_iff {rdata : Nat → UInt64} {mem : Mem} {line : Nat} :
    lineMatches rdata mem line = true ↔ ∀ i < 16, rdata i = mem (line * 16 + i) := by
  simp [lineMatches]

/-- A line that matches holds the reservation's copy of each of its words. -/
theorem lineMatches_word {p : Ppu} {mem : Mem} {a b : Nat} (h : lineOf a = lineOf b)
    (hm : lineMatches p.rdata mem (lineOf b) = true) : mem (wordOf a) = p.rdata (slotOf a) := by
  rw [wordOf_eq_line_slot, h]
  exact ((lineMatches_iff.mp hm) _ (slotOf_lt a)).symm

theorem addrOk_line {p : Ppu} {addr : Nat} (h : addrOk p addr = true) :
    lineOf p.raddr = lineOf addr := by
  simp only [addrOk, Bool.or_eq_true, beq_iff_eq, Bool.and_eq_true] at h
  rcases h with h | ⟨h, -⟩
  · exact lineOf_eq_of_wordOf_eq h
  · exact h

theorem addrOk_word {p : Ppu} {addr : Nat} (h : addrOk p addr = true)
    (hf : p.useFullRdata = false) : wordOf p.raddr = wordOf addr := by
  simpa [addrOk, hf] using h

@[simp] theorem Ppu.fail_resCached (p : Ppu) : p.fail.resCached = 0 := rfl
@[simp] theorem Ppu.fail_rtime (p : Ppu) : p.fail.rtime = p.rtime := rfl
@[simp] theorem Ppu.fail_lastFtime (p : Ppu) : p.fail.lastFtime = p.lastFtime := rfl
@[simp] theorem Ppu.succeed_resCached (p : Ppu) : p.succeed.resCached = p.raddr := rfl
@[simp] theorem Ppu.succeed_rtime (p : Ppu) : p.succeed.rtime = p.rtime := rfl
@[simp] theorem Ppu.succeed_lastFtime (p : Ppu) : p.succeed.lastFtime = p.lastFtime := rfl
@[simp] theorem Ppu.lockFailed_rtime (p : Ppu) : p.lockFailed.rtime = p.rtime := by
  unfold Ppu.lockFailed; split <;> rfl
@[simp] theorem Ppu.lockFailed_lastFtime (p : Ppu) : p.lockFailed.lastFtime = p.lastFtime := by
  unfold Ppu.lockFailed; split <;> rfl

theorem Ppu.casFailed_rtime (loopMax : Int) (p : Ppu) (c : Stcx) (r : Nat) (cur : UInt64) :
    (p.casFailed loopMax c r cur).rtime = p.rtime := by
  unfold Ppu.casFailed; split <;> rfl

/-- The failed CAS leaves a time stamp in `last_ftime`, or leaves it alone. -/
theorem Ppu.casFailed_lastFtime (loopMax : Int) (p : Ppu) (c : Stcx) (r : Nat) (cur : UInt64) :
    (p.casFailed loopMax c r cur).lastFtime = timeOf r ∨
      (p.casFailed loopMax c r cur).lastFtime = p.lastFtime := by
  unfold Ppu.casFailed; split
  · exact .inl rfl
  · exact .inr rfl

/-! ### What the steps do to a thread's registers and program counter -/

section Steps
variable {loopMax : Int} {w : Width} {addr i r : Nat} {accurate recent : Bool} {p : Ppu}
  {d : UInt64} {ld : Loaded} {c : Stcx}

@[simp] theorem afterTime_lockedRes : (afterTime p w addr).lockedRes = none := by
  unfold afterTime; split <;> rfl

@[simp] theorem reload_lockedRes : (reload p w addr).lockedRes = none := by
  unfold reload; split
  · simp
  · rfl

@[simp] theorem larxEnter_lockedRes :
    (larxEnter loopMax w addr accurate recent p r).2.lockedRes = none := by
  unfold larxEnter; dsimp only; split
  · rfl
  · simp

@[simp] theorem larxFastData_lockedRes : (larxFastData w addr p d).2.lockedRes = none := by
  unfold larxFastData; dsimp only; split
  · rfl
  · simp

@[simp] theorem larxTime_lockedRes : (larxTime w addr p r).2.lockedRes = none := by
  simp [larxTime]

@[simp] theorem larxData_lockedRes : (larxData w addr p d).2.lockedRes = none := rfl

@[simp] theorem larxCopy_lockedRes : (larxCopy w addr i p d).2.lockedRes = none := by
  unfold larxCopy; dsimp only; split <;> rfl

@[simp] theorem afterCheck_lockedRes : (afterCheck p ld c).lockedRes = none := by
  unfold afterCheck; split
  · rfl
  · split <;> rfl

/-- The times a thread keeps are time stamps, multiples of 128. -/
def Ppu.Aligned (p : Ppu) : Prop := p.rtime % 128 = 0 ∧ p.lastFtime % 128 = 0

theorem Ppu.Aligned.larxEnter (h : p.Aligned) :
    (larxEnter loopMax w addr accurate recent p r).1.Aligned := by
  unfold PpuReservation.larxEnter; dsimp only; split <;> exact h

theorem Ppu.Aligned.larxFastData (h : p.Aligned) : (larxFastData w addr p d).1.Aligned := by
  unfold PpuReservation.larxFastData; dsimp only; split
  · exact ⟨h.2, rfl⟩
  · exact h

theorem Ppu.Aligned.larxTime (h : p.Aligned) : (larxTime w addr p r).1.Aligned :=
  ⟨timeOf_mod r, h.2⟩

theorem Ppu.Aligned.larxData (h : p.Aligned) : (larxData w addr p d).1.Aligned := h

theorem Ppu.Aligned.larxCopy (h : p.Aligned) : (larxCopy w addr i p d).1.Aligned := by
  unfold PpuReservation.larxCopy; dsimp only; split <;> exact h

theorem Ppu.Aligned.fail (h : p.Aligned) : p.fail.Aligned := h

theorem Ppu.Aligned.succeed (h : p.Aligned) : p.succeed.Aligned := h

theorem Ppu.Aligned.lockFailed (h : p.Aligned) : p.lockFailed.Aligned := by
  unfold Ppu.lockFailed; split <;> exact h

theorem Ppu.Aligned.casFailed (h : p.Aligned) : (p.casFailed loopMax c r d).Aligned := by
  unfold Ppu.casFailed; split
  · exact ⟨h.1, timeOf_mod r⟩
  · exact h

end Steps

end Rpcs3.Cell.PpuReservation
