import Mathlib

/-! `ppu_feed_data<T>` (`Emu/Cell/PPUInterpreter.cpp`): with `use_full_rdata` set, a load
compares the bytes it reads with the thread's copy `rdata` of the reserved 128-byte line,
and a byte of that line that differs drops the reservation. The code has three ways to
line the two up: an access within one line, an access that starts in the reserved line and
runs past it, and one that starts in the line before and ends in the reserved one. The
first two compare exactly the bytes in the line; the third takes its length as
`(addr + sizeof(T)) % 127`, which is the byte count in the line only where it agrees with
`% 128`. -/
namespace Rpcs3.Cell.PpuFeedData

/-- The reservation state of `ppu_thread` that a load reads and writes. -/
structure Ppu where
  raddr : ℕ
  resCached : ℕ
  rdata : ℕ → UInt8
  useFullRdata : Bool

/-- How a load fails: `vm::cast` of an address past 32 bits (`narrow` throws), or a `memcmp`
that reads past the end of `buffer`. -/
inductive Fault
  | narrow
  | overread
  deriving DecidableEq, Repr

/-- `std::memcmp(a, b, size) != 0`. -/
def memcmp (a b : ℕ → UInt8) (size : ℕ) : Bool :=
  (List.range size).any fun i => a i != b i

/-- `ppu.raddr = 0; ppu.res_cached = 0;` where the comparison found a difference. -/
def dropIf (ppu : Ppu) (differs : Bool) : Ppu :=
  if differs then { ppu with raddr := 0, resCached := 0 } else ppu

/-- The comparison of an access that straddles two lines: `memcmp(buffer + offs, src, size)`
with `buffer` the `n` loaded bytes and `src` at `rdata[src]`. -/
def compareStraddle (value : ℕ → UInt8) (ppu : Ppu) (n src size offs : ℕ) : Except Fault Ppu :=
  if n < offs + size then .error .overread
  else .ok (dropIf ppu (memcmp (fun i => value (offs + i)) (fun i => ppu.rdata (src + i)) size))

/-- What `ppu_feed_data` does to the reservation after loading `value`, the `n` bytes at
`addr`. -/
def checkReservation (value : ℕ → UInt8) (ppu : Ppu) (n addr : ℕ) : Except Fault Ppu :=
  if !ppu.useFullRdata then .ok ppu
  else
    let raddr := ppu.raddr
    -- out of range, or no reservation
    if addr / 128 > raddr / 128 ∨ (addr + n - 1) / 128 < raddr / 128 then .ok ppu
    else if n = 1 ∨ addr / 128 = (addr + n - 1) / 128 then
      .ok (dropIf ppu (memcmp value (fun i => ppu.rdata ((addr &&& 127) + i)) n))
    else if raddr / 128 = addr / 128 then
      compareStraddle value ppu n (addr &&& 127) (min (128 - addr % 128) n) 0
    else
      -- `offs = sizeof(T) - size` is a `u32` and wraps when `size` exceeds the access
      compareStraddle value ppu n 0 ((addr + n) % 127)
        ((0x100000000 + n - (addr + n) % 127) % 0x100000000)

/-- `ppu_feed_data<T>(ppu, addr)` for `sizeof(T) = n`: the bytes of memory at `addr`, and
the thread's reservation after the comparison. -/
def feedData (mem : ℕ → UInt8) (ppu : Ppu) (n addr : ℕ) : Except Fault (List UInt8 × Ppu) :=
  if 0x100000000 ≤ addr then .error .narrow
  else (checkReservation (fun i => mem (addr + i)) ppu n addr).map
    fun ppu' => ((List.range n).map fun i => mem (addr + i), ppu')

/-! ## What the comparison is for -/

/-- `raddr & ~127`, the first byte of the reserved line. -/
def lineStart (ppu : Ppu) : ℕ := ppu.raddr / 128 * 128

/-- Some byte of `[addr, addr + n)` inside the reserved line differs from its copy in
`rdata`. -/
def differs (mem : ℕ → UInt8) (ppu : Ppu) (n addr : ℕ) : Bool :=
  (List.range n).any fun i =>
    decide (lineStart ppu ≤ addr + i ∧ addr + i < lineStart ppu + 128) &&
      mem (addr + i) != ppu.rdata (addr + i - lineStart ppu)

/-- The access starts in a line before the reserved one and ends in it: the case whose
length the code takes modulo 127. -/
def EndsInLine (ppu : Ppu) (n addr : ℕ) : Prop :=
  addr / 128 < ppu.raddr / 128 ∧ ppu.raddr / 128 = (addr + n - 1) / 128

theorem memcmp_eq_true {a b : ℕ → UInt8} {size : ℕ} :
    memcmp a b size = true ↔ ∃ i < size, a i ≠ b i := by
  simp [memcmp]

theorem differs_eq_true {mem : ℕ → UInt8} {ppu : Ppu} {n addr : ℕ} :
    differs mem ppu n addr = true ↔ ∃ i < n, (lineStart ppu ≤ addr + i ∧
      addr + i < lineStart ppu + 128) ∧ mem (addr + i) ≠ ppu.rdata (addr + i - lineStart ppu) := by
  simp [differs]

section Window

variable {mem : ℕ → UInt8} {ppu : Ppu} {n addr : ℕ}

/-- No byte of the access lies in the reserved line. -/
theorem differs_of_outside
    (hout : ∀ i < n, ¬(lineStart ppu ≤ addr + i ∧ addr + i < lineStart ppu + 128)) :
    differs mem ppu n addr = false := by
  rw [Bool.eq_false_iff]
  intro h
  obtain ⟨i, hi, hin, -⟩ := differs_eq_true.mp h
  exact hout i hi hin

/-- The bytes of the access in the reserved line are the window `[a, a + s)` of it, and the
window starts at `rdata[src]`: the comparison is one `memcmp` of the window. -/
theorem differs_eq_memcmp (a s src : ℕ) (hs : a + s ≤ n) (hsrc : addr + a = lineStart ppu + src)
    (hin : ∀ i < n, (lineStart ppu ≤ addr + i ∧ addr + i < lineStart ppu + 128) ↔
      a ≤ i ∧ i < a + s) :
    differs mem ppu n addr = memcmp (fun i => mem (addr + (a + i))) (fun i => ppu.rdata (src + i)) s := by
  rw [Bool.eq_iff_iff, differs_eq_true, memcmp_eq_true]
  constructor
  · rintro ⟨i, hi, hline, hne⟩
    have hw := (hin i hi).mp hline
    refine ⟨i - a, by omega, ?_⟩
    rwa [show a + (i - a) = i by omega, show src + (i - a) = addr + i - lineStart ppu by omega]
  · rintro ⟨i, hi, hne⟩
    refine ⟨a + i, by omega, (hin (a + i) (by omega)).mpr ⟨by omega, by omega⟩, ?_⟩
    rwa [show addr + (a + i) - lineStart ppu = src + i by omega]

end Window

theorem and_127 (addr : ℕ) : addr &&& 127 = addr % 128 :=
  Nat.and_two_pow_sub_one_eq_mod addr 7

section Full

variable {mem : ℕ → UInt8} {ppu : Ppu} {n addr : ℕ}

/-- Outside the case that ends in the reserved line, and in that case where `% 127` and
`% 128` agree, a load drops the reservation exactly when a byte of the reserved line that
it reads differs from `rdata`. -/
theorem checkReservation_eq (hn : 0 < n) (hn' : n ≤ 128) (hfull : ppu.useFullRdata = true)
    (hcase : ¬EndsInLine ppu n addr ∨ (addr + n) % 127 = (addr + n) % 128) :
    checkReservation (fun i => mem (addr + i)) ppu n addr =
      .ok (dropIf ppu (differs mem ppu n addr)) := by
  unfold checkReservation
  simp only [hfull, Bool.not_true, Bool.false_eq_true, if_false, gt_iff_lt]
  split_ifs with hout hone hfirst
  · -- the access misses the reserved line
    rw [differs_of_outside (by intro i hi; unfold lineStart; omega)]
    rfl
  · -- the access lies in one line, which is the reserved one
    rw [differs_eq_memcmp 0 n (addr % 128) (by omega)
      (by unfold lineStart; omega) (by intro i hi; unfold lineStart; omega), and_127]
    simp only [Nat.zero_add]
  · -- the access starts in the reserved line and runs past it
    have hsize : min (128 - addr % 128) n = 128 - addr % 128 := by omega
    rw [compareStraddle, hsize, if_neg (by omega), differs_eq_memcmp 0
      (128 - addr % 128) (addr % 128) (by omega) (by unfold lineStart; omega)
      (by intro i hi; unfold lineStart; omega), and_127]
  · -- the access ends in the reserved line, whose bytes are its last `(addr + n) % 128`
    have hend : EndsInLine ppu n addr := by unfold EndsInLine; omega
    have hmod : (addr + n) % 127 = (addr + n) % 128 := hcase.resolve_left (not_not.mpr hend)
    have hoffs : (0x100000000 + n - (addr + n) % 127) % 0x100000000 = n - (addr + n) % 128 := by
      omega
    rw [compareStraddle, hoffs, hmod, if_neg (by omega), differs_eq_memcmp
      (n - (addr + n) % 128) ((addr + n) % 128) 0 (by omega)
      (by unfold lineStart; omega) (by intro i hi; unfold lineStart; omega)]

/-- In the case that ends in the reserved line, where `(addr + n) % 127` exceeds the access
the `u32` offset wraps and `memcmp` reads past the end of `buffer`. -/
theorem checkReservation_overread {value : ℕ → UInt8} (hn' : n ≤ 128)
    (hfull : ppu.useFullRdata = true) (hend : EndsInLine ppu n addr)
    (hover : n < (addr + n) % 127) :
    checkReservation value ppu n addr = .error .overread := by
  unfold EndsInLine at hend
  unfold checkReservation
  simp only [hfull, Bool.not_true, Bool.false_eq_true, if_false, gt_iff_lt]
  rw [if_neg (by omega), if_neg (by omega), if_neg (by omega), compareStraddle, if_pos (by omega)]

theorem feedData_of_lt (haddr : addr < 0x100000000) :
    feedData mem ppu n addr = (checkReservation (fun i => mem (addr + i)) ppu n addr).map
      fun ppu' => ((List.range n).map fun i => mem (addr + i), ppu') := by
  rw [feedData, if_neg (by omega)]

/-- Whatever the reservation, a load that returns returns the `n` bytes of memory at
`addr`. -/
theorem feedData_value {v : List UInt8} {ppu' : Ppu} (h : feedData mem ppu n addr = .ok (v, ppu')) :
    v = (List.range n).map fun i => mem (addr + i) := by
  unfold feedData at h
  split at h
  · cases h
  · cases hc : checkReservation (fun i => mem (addr + i)) ppu n addr with
    | error e => rw [hc] at h; cases h
    | ok p =>
      rw [hc] at h
      cases h
      rfl

/-- A load of `n` bytes, `0 < n ≤ 128`, at a 32-bit address returns the bytes there and drops
the reservation exactly when one of them in the reserved line differs from `rdata`, except
where the access ends in the reserved line and `(addr + n) % 127` is not its byte count in
that line. -/
theorem feedData_eq (haddr : addr < 0x100000000) (hn : 0 < n) (hn' : n ≤ 128)
    (hfull : ppu.useFullRdata = true)
    (hcase : ¬EndsInLine ppu n addr ∨ (addr + n) % 127 = (addr + n) % 128) :
    feedData mem ppu n addr =
      .ok ((List.range n).map fun i => mem (addr + i), dropIf ppu (differs mem ppu n addr)) := by
  rw [feedData_of_lt haddr, checkReservation_eq hn hn' hfull hcase]
  rfl

/-- A four-byte load inside the reserved line at `0x80`, over a byte that differs from its copy
in `rdata`: the load returns the bytes and drops the reservation. -/
theorem feedData_eq_in_line :
    let ppu : Ppu := ⟨0x80, 0x80, fun _ => 0, true⟩
    let mem : ℕ → UInt8 := Function.update (fun _ => 0) 0x84 7
    differs mem ppu 4 0x82 = true ∧
      feedData mem ppu 4 0x82 = .ok ([0, 0, 7, 0], { ppu with raddr := 0, resCached := 0 }) := by
  intro ppu mem
  have hd : differs mem ppu 4 0x82 = true := by decide
  have h : feedData mem ppu 4 0x82 =
      .ok ((List.range 4).map fun i => mem (0x82 + i), dropIf ppu (differs mem ppu 4 0x82)) :=
    feedData_eq (by decide) (by decide) (by decide) rfl (.inl (by simp [EndsInLine, ppu]))
  refine ⟨hd, ?_⟩
  rw [h, hd]
  rfl

end Full

/-- A two-byte load at `0x7F` with the reservation on the line at `0x80`: the code compares
the byte at `0x7F`, which is outside the line, with `rdata[0]` and drops a reservation whose
line is intact. -/
theorem feed_data_drops_intact_line (mem : ℕ → UInt8) (ppu : Ppu) (hfull : ppu.useFullRdata = true)
    (hr : ppu.raddr / 128 = 1) (hline : mem 0x80 = ppu.rdata 0) (hbefore : mem 0x7F ≠ ppu.rdata 0) :
    differs mem ppu 2 0x7F = false ∧
      feedData mem ppu 2 0x7F = .ok ([mem 0x7F, mem 0x80], { ppu with raddr := 0, resCached := 0 }) := by
  have hstart : lineStart ppu = 0x80 := by unfold lineStart; omega
  constructor
  · rw [Bool.eq_false_iff]
    intro h
    obtain ⟨i, hi, hin, hne⟩ := differs_eq_true.mp h
    obtain rfl : i = 1 := by omega
    rw [hstart] at hne
    exact hne hline
  · have hdiff : memcmp (fun i => mem (0x7F + (0 + i))) (fun i => ppu.rdata (0 + i)) 2 = true :=
      memcmp_eq_true.mpr ⟨0, by omega, hbefore⟩
    rw [feedData_of_lt (by omega)]
    unfold checkReservation
    rw [if_neg (by simp [hfull]), if_neg (by omega), if_neg (by omega), if_neg (by omega), compareStraddle,
      if_neg (by omega), show (0x100000000 + 2 - (0x7F + 2) % 127) % 0x100000000 = 0 by rfl,
      show (0x7F + 2) % 127 = 2 by rfl, hdiff]
    rfl

theorem feed_data_drops_intact_line_at_0x80 :
    let ppu : Ppu := ⟨0x80, 0x80, fun _ => 0, true⟩
    let mem : ℕ → UInt8 := Function.update (fun _ => 0) 0x7F 1
    (ppu.useFullRdata = true ∧ ppu.raddr / 128 = 1 ∧ mem 0x80 = ppu.rdata 0 ∧
      mem 0x7F ≠ ppu.rdata 0) ∧
    differs mem ppu 2 0x7F = false ∧
      feedData mem ppu 2 0x7F = .ok ([mem 0x7F, mem 0x80], { ppu with raddr := 0, resCached := 0 }) :=
  ⟨⟨rfl, rfl, by decide, by decide⟩, feed_data_drops_intact_line _ _ rfl rfl (by decide) (by decide)⟩

end Rpcs3.Cell.PpuFeedData
