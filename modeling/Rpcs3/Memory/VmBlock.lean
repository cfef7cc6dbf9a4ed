import Mathlib.Data.List.Basic

/-! A memory location `vm::block_t` (Emu/Memory/vm.cpp) and the global page
table `g_pages` it writes. The page table holds one flag byte per 4 KiB page;
the block's map records each allocation's start address and its size (guard
pages included). `alloc` rounds the request to the block's page size, adds the
two guard pages of a stack-guarded block and searches the aligned candidate
addresses up to `max` with `try_alloc`; `falloc` maps a given address after
forcing it down to the page size; `dealloc` clears the guards and unmaps the
pages of one recorded allocation.

Sizes and addresses are `u32` in the source and stay `UInt32` here, so the
wrap-around of `utils::align` and of `addr + size` for blocks that end at
4 GiB is the source's. A thrown exception (`fmt::throw_exception`, a failed
`ensure`) is `none`. Shared memory objects, RSX notifications and host page
protection do not change `g_pages` or the map and are left out. -/
namespace Rpcs3.Memory.VmBlock

/-! ### Flag words -/

/-- `vm::page_info_t` bits of a `g_pages` entry. -/
def pageReadable : UInt8 := 0x01
def pageWritable : UInt8 := 0x02
def pageExecutable : UInt8 := 0x04
def page64kSize : UInt8 := 0x20
def page1mSize : UInt8 := 0x40
def pageAllocated : UInt8 := 0x80

/-- `vm::block_flags_3` and `vm::alloc_flags` bits of a block's flags. -/
def pageSize4k : UInt64 := 0x100
def pageSize64k : UInt64 := 0x200
def pageSize1m : UInt64 := 0x400
def pageSizeMask : UInt64 := 0xF00
def stackGuarded : UInt64 := 0x10
def preallocated : UInt64 := 0x20
def allocHidden : UInt64 := 0x1000
def allocUnwritable : UInt64 := 0x2000
def allocExecutable : UInt64 := 0x4000
def allocProtMask : UInt64 := allocHidden ||| allocUnwritable ||| allocExecutable

/-- `process_block_flags`: a block without a page size gets 1 MiB pages, a
4 KiB block is preallocated, and only 4 KiB blocks keep `stack_guarded`. -/
def processBlockFlags (flags : UInt64) : UInt64 :=
  let flags := if flags &&& pageSizeMask = 0 then flags ||| pageSize1m else flags
  if flags &&& pageSize4k ≠ 0 then flags ||| preallocated else flags &&& ~~~stackGuarded

/-- `utils::align` on `u32`: round up to a power of two, wrapping at 2^32. -/
def alignUp (value align : UInt32) : UInt32 :=
  (value + (align - 1)) &&& (0 - align)

/-- `std::countl_zero` on `u32`. -/
def countlZero (x : UInt32) : UInt32 :=
  UInt32.ofBitVec (BitVec.clz x.toBitVec)

/-- A memory location: its base, its size and its processed flags. -/
structure Block where
  addr : UInt32
  size : UInt32
  flags : UInt64
  deriving DecidableEq, Repr

/-- The `block_t` constructor: the flags go through `process_block_flags`. -/
def Block.create (addr size : UInt32) (flags : UInt64) : Block :=
  ⟨addr, size, processBlockFlags flags⟩

/-- Whether the block carries guard pages around each allocation. -/
def Block.guarded (b : Block) : Bool :=
  b.flags &&& stackGuarded ≠ 0

/-- The page table and the block's allocation map (address ↦ size with guards). -/
structure VmState where
  pages : Nat → UInt8
  map : List (UInt32 × UInt32)

/-! ### The block's map: `std::map<u32, pair<u32, shm>>` -/

/-- `m_map.find(addr)`: the size recorded at `addr`. -/
def mapFind (map : List (UInt32 × UInt32)) (addr : UInt32) : Option UInt32 :=
  (map.find? (·.1 == addr)).map (·.2)

/-- `m_map.erase(addr)`. -/
def mapErase (map : List (UInt32 × UInt32)) (addr : UInt32) : List (UInt32 × UInt32) :=
  map.filter (·.1 != addr)

/-- `m_map[addr] = size`: insert, or replace the size already there. -/
def mapAssign (map : List (UInt32 × UInt32)) (addr size : UInt32) : List (UInt32 × UInt32) :=
  (addr, size) :: mapErase map addr

/-! ### Page table edits -/

/-- Every page `first, first + 1, …` of `count` pages has a zero entry. -/
def pagesClear (pages : Nat → UInt8) (first count : Nat) : Bool :=
  (List.range' first count).all fun i => pages i == 0

/-- Store `value` into `count` pages from `first`. -/
def setPages (pages : Nat → UInt8) (first count : Nat) (value : UInt8) : Nat → UInt8 :=
  fun i => if first ≤ i ∧ i < first + count then value else pages i

/-- The page flags `try_alloc` derives from the allocation flags. -/
def pageFlags (bflags : UInt64) : UInt8 :=
  let flags : UInt8 := if ~~~bflags &&& allocHidden ≠ 0 then
      pageReadable ||| (if ~~~bflags &&& allocUnwritable ≠ 0 then pageWritable else 0)
    else 0
  let flags := if bflags &&& allocExecutable ≠ 0 then flags ||| pageExecutable else flags
  if bflags &&& pageSizeMask = pageSize64k then flags ||| page64kSize
  else if bflags &&& (pageSizeMask &&& ~~~pageSize1m) = 0 then flags ||| page1mSize
  else flags

/-- `_page_map`: argument checks, a check that every page is unmapped, then
each page of `[addr, addr + size)` gets `flags | page_allocated`. -/
def pageMap (pages : Nat → UInt8) (addr : UInt32) (flags : UInt8) (size : UInt32) :
    Option (Nat → UInt8) :=
  if size = 0 ∨ (size ||| addr) % 4096 ≠ 0 ∨ flags &&& pageAllocated ≠ 0 then none
  else if !pagesClear pages (addr.toNat / 4096) (size.toNat / 4096) then none
  else some (setPages pages (addr.toNat / 4096) (size.toNat / 4096) (flags ||| pageAllocated))

/-- The number of allocated pages `_page_unmap` counts from `first`, stopping
at the first unallocated page or after `count` pages. -/
def allocatedRun (pages : Nat → UInt8) : Nat → Nat → Nat
  | _, 0 => 0
  | first, count + 1 =>
    if pages first &&& pageAllocated = 0 then 0 else allocatedRun pages (first + 1) count + 1

/-- `_page_unmap`: the deallocation size is the run of allocated pages from
`addr` (at most `max_size`), whose executable bits must agree; those pages
are cleared and the size is returned. -/
def pageUnmap (pages : Nat → UInt8) (addr maxSize : UInt32) : Option (UInt32 × (Nat → UInt8)) :=
  if maxSize = 0 ∨ (maxSize ||| addr) % 4096 ≠ 0 then none
  else
    let first := addr.toNat / 4096
    let run := allocatedRun pages first (maxSize.toNat / 4096)
    let exec := pages first &&& pageExecutable ≠ 0
    if (List.range' first run).all (fun i => (pages i &&& pageExecutable ≠ 0) == exec) then
      some (UInt32.ofNat (run * 4096), setPages pages first run 0)
    else none

/-! ### The block operations -/

/-- `block_t::try_alloc`: fails without a change when some page of
`[addr, addr + size)` is in use; otherwise marks the guard pages of a guarded
block, maps the pages between them and records the allocation. -/
def tryAlloc (b : Block) (s : VmState) (addr : UInt32) (bflags : UInt64) (size : UInt32) :
    Option (Bool × VmState) :=
  let first := addr.toNat / 4096
  let last := (addr + size - 1).toNat / 4096
  if !pagesClear s.pages first (last + 1 - first) then some (false, s)
  else
    let pageAddr := addr + (if b.guarded then 0x1000 else 0)
    let pageSize := size - (if b.guarded then 0x2000 else 0)
    let guards : Option (Nat → UInt8) :=
      if b.guarded then
        -- ensure(!g_pages[..].exchange(page_allocated)) on both guard pages
        let lastGuard := first + size.toNat / 4096 - 1
        if s.pages first ≠ 0 then none
        else
          let pages := Function.update s.pages first pageAllocated
          if pages lastGuard ≠ 0 then none
          else some (Function.update pages lastGuard pageAllocated)
      else some s.pages
    match guards with
    | none => none
    | some pages =>
      match pageMap pages pageAddr (pageFlags bflags) pageSize with
      | none => none
      | some pages => some (true, { pages := pages, map := mapAssign s.map addr size })

/-- The candidate loop of `block_t::alloc`: try `addr`, stop after `max`.
`fuel` bounds the candidates tried, and `alloc` gives one for each multiple of
`align` up to `max`; a loop that has not ended by then is unfinished, `none`. -/
def allocSearch (b : Block) (bflags : UInt64) (size align max : UInt32) (s : VmState) :
    Nat → UInt32 → Option (UInt32 × VmState)
  | 0, _ => none
  | fuel + 1, addr =>
    match tryAlloc b s addr bflags size with
    | none => none
    | some (true, s') => some (addr + (if bflags &&& stackGuarded ≠ 0 then 0x1000 else 0), s')
    | some (false, _) =>
      if addr = max then some (0, s) else allocSearch b bflags size align max s fuel (addr + align)

/-- `block_t::alloc(orig_size, nullptr, align)`: the address of the new
allocation (past the lower guard page), or 0. -/
def alloc (b : Block) (s : VmState) (origSize align : UInt32) : Option (UInt32 × VmState) :=
  let flags := b.flags &&& ~~~allocProtMask
  let minPageSize : UInt32 := if flags &&& pageSize4k ≠ 0 then 0x1000 else 0x10000
  let size := alignUp origSize minPageSize + (if flags &&& stackGuarded ≠ 0 then 0x2000 else 0)
  if align < minPageSize ∨ align ≠ (0x80000000 : UInt32) >>> countlZero align then none
  else if origSize = 0 ∨ size = 0 ∨ origSize > size ∨ size > b.size then some (0, s)
  else
    let max := (b.addr + b.size - size) &&& (0 - align)
    let addr := alignUp b.addr align
    if b.addr > max ∨ addr > max then some (0, s)
    else allocSearch b flags size align max s ((max - addr).toNat / align.toNat + 1) addr

/-- `block_t::falloc(addr, orig_size)`: map exactly the page-aligned window
around `[addr, addr + orig_size)`, or fail. -/
def falloc (b : Block) (s : VmState) (addr origSize : UInt32) : Option (Bool × VmState) :=
  let flags := b.flags &&& ~~~allocProtMask
  let minPageSize : UInt32 := if flags &&& pageSize4k ≠ 0 then 0x1000 else 0x10000
  let size0 := origSize + addr % minPageSize
  let size := alignUp size0 minPageSize
  if size = 0 ∨ addr < b.addr ∨ origSize > size0 ∨ origSize > size ∨
      (addr - addr % minPageSize).toNat + size.toNat > b.addr.toNat + b.size.toNat ∨
      flags &&& stackGuarded ≠ 0 then some (false, s)
  else tryAlloc b s (addr - addr % minPageSize) flags size

/-- `vm::map` accepts any 4 KiB-aligned base, so a block of 64 KiB pages may
start at `0x10001000`. `falloc` compares the unaligned address with the base
and only then forces it down to the page size: the allocation it records at
`0x10000000` starts below the block, and the page table marks page `0x10000`,
which lies outside it. -/
theorem falloc_records_below_base :
    ∃ s', falloc (Block.create 0x10001000 0x20000 pageSize64k) ⟨fun _ => 0, []⟩
        0x10001000 0x1000 = some (true, s') ∧
      mapFind s'.map 0x10000000 = some 0x10000 ∧
      (0x10000000 : UInt32) < (Block.create 0x10001000 0x20000 pageSize64k).addr ∧
      s'.pages 0x10000 &&& pageAllocated ≠ 0 := by
  refine ⟨_, rfl, ?_, ?_, ?_⟩
  · decide
  · decide
  · decide

/-- `block_t::dealloc(addr)`: the size of the allocation at `addr` without its
guards, after clearing its guard and real pages, or 0 when `addr` starts no
allocation. -/
def dealloc (b : Block) (s : VmState) (addr : UInt32) : Option (UInt32 × VmState) :=
  let key := addr - (if b.guarded then 0x1000 else 0)
  match mapFind s.map key with
  | none => some (0, s)
  | some found =>
    let size := found - (if b.guarded then 0x2000 else 0)
    let guards : Option (Nat → UInt8) :=
      if b.guarded then
        let lower := (addr / 4096 - 1).toNat
        let upper := (addr / 4096 + size / 4096).toNat
        if s.pages lower ≠ pageAllocated then none
        else
          let pages := Function.update s.pages lower 0
          if pages upper ≠ pageAllocated then none
          else some (Function.update pages upper 0)
      else some s.pages
    match guards with
    | none => none
    | some pages =>
      match pageUnmap pages addr size with
      | none => none
      | some (unmapped, pages) =>
        if unmapped ≠ size then none
        else some (size, { pages := pages, map := mapErase s.map key })

/-- `block_t::used`: the recorded sizes without their guard pages. -/
def used (b : Block) (s : VmState) : UInt32 :=
  s.map.foldl (fun acc e => acc + (e.2 - if b.guarded then 0x2000 else 0)) 0

end Rpcs3.Memory.VmBlock
