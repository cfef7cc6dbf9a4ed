import Mathlib.Data.List.Basic

/-! Memory range locks (Emu/Memory/vm.cpp, vm_locking.h). Each locking thread
owns one of 64 slots of `g_range_lock_set`; a reader publishes
`begin | size << 32` in its slot, a writer publishes its address with the
`range_locked` flag, sets its bit in `g_range_lock_bits[1]` and then scans the
readers' slots with `for_all_range_locks`. Two predicates decide who waits for
whom: the one `writer_lock` passes to the scan, which splits every reader
range at 64 KiB boundaries and compares 128-byte line numbers, and the one
`range_lock_internal` uses against the writers. `g_shmem` is all zero here, so
no address is redirected to a shared mirror. All arithmetic is the source's
`u64`/`u32`. -/
namespace Rpcs3.Memory.RangeLock

/-- `range_locked`: the flag a writer stores above its address and size. -/
def rangeLocked : UInt64 := (4 : UInt64) <<< 61

/-- `range_full_mask`: the three flag bits above the size. -/
def rangeFullMask : UInt64 := (7 : UInt64) <<< 61

/-- `range_bits`: the number of flag bits. -/
def rangeBits : UInt64 := 3

/-- `utils::align` on `u64`. -/
def alignUp (value align : UInt64) : UInt64 :=
  (value + (align - 1)) &&& (0 - align)

/-- The slot `alloc_range_lock` takes: the lowest clear bit of
`g_range_lock_bits[0]`, set by `bits |= bits + 1`. The allocation throws when
it would leave no clear bit below the reserved MSB. -/
def allocRangeLock (bits : UInt64) : Option (UInt64 × Nat) :=
  if (~~~(bits ||| (bits + 1))) <<< 1 ≠ 0 then
    some (bits ||| (bits + 1), ((List.range 64).takeWhile fun i => bits.toNat.testBit i).length)
  else none

/-- Whether the reader range `[addr2, addr2 + size2)` shares a byte with the
128-byte line number `point`. -/
def intersectsLine (point : Nat) (addr2 size2 : Nat) : Prop :=
  addr2 < 128 * point + 128 ∧ 128 * point < addr2 + size2

instance (point addr2 size2 : Nat) : Decidable (intersectsLine point addr2 size2) :=
  inferInstanceAs (Decidable (_ ∧ _))

/-- The 64 KiB pieces of a reader range `[addr2, addr2 + size2)`, as the loop
of `writer_lock` walks them: the piece starts at `addr2` and ends at the next
64 KiB boundary, then the range advances past it. `count` is the number of
pages left, `max - hi + 1`. -/
def writerPieces : Nat → UInt64 → UInt64 → List (UInt64 × UInt64)
  | 0, _, _ => []
  | count + 1, addr2, size2 =>
    let size3 := min (addr2 + size2) (alignUp addr2 0x10000) - addr2
    (addr2, size3) :: writerPieces count (addr2 + size3) (size2 - size3)

/-- The predicate `writer_lock` passes to `for_all_range_locks` for a reader
slot holding `(addr2, size2)`: 1 when some piece covers the writer's line
`point`, tested as `point - first <= last - first` on line numbers. -/
def writerLockBusy (point : UInt64) (addr2 : UInt64) (size2 : UInt32) : Bool :=
  let pages := ((addr2 + size2.toUInt64 - 1) >>> 16) - (addr2 >>> 16) + 1
  (writerPieces pages.toNat addr2 size2.toUInt64).any fun (addr3, size3) =>
    decide (point - addr3 / 128 ≤ (addr3 + size3 - 1) / 128 - addr3 / 128)

/-- A reader range that starts on a 64 KiB boundary gives a first piece of
size 0; its last line number `(addr3 - 1) / 128` is one below its first, the
unsigned difference wraps to `u64` max and the test passes for every line. The
writer on line `0x20000 / 128` therefore waits for a reader of
`[0x10000, 0x10080)`, which shares no byte with that line. -/
theorem writerLockBusy_disjoint_reader :
    writerLockBusy (0x20000 / 128) 0x10000 0x80 = true ∧
      ¬ intersectsLine (0x20000 / 128) 0x10000 0x80 := by
  decide

/-- The predicate of `range_lock_internal` for a writer slot holding
`(addr_exec, size_exec)` against the reader range `[begin, begin + size)`:
a `range_locked` writer stands for 128 bytes from its address. -/
def rangeLockBusy (begin : UInt32) (size : UInt32) (addrExec : UInt64) (sizeExec : UInt32) :
    Bool :=
  let sizeExec : UInt32 :=
    if sizeExec &&& (rangeFullMask >>> 32).toUInt32 = (rangeLocked >>> 32).toUInt32 then 128
    else sizeExec
  let sizeExec := (sizeExec <<< rangeBits.toUInt32) >>> rangeBits.toUInt32
  let addr := begin.toUInt64
  decide (addr ≤ addrExec + sizeExec.toUInt64 - 1) && decide (addrExec ≤ addr + size.toUInt64 - 1)

end Rpcs3.Memory.RangeLock
