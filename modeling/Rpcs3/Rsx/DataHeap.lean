import Mathlib
import Rpcs3.Lib.Transition

/-! `data_heap` (`rpcs3/Emu/RSX/Common/ring_buffer_helper.h`): a ring of `m_size` bytes that
hands out aligned blocks from the put position and must not pass the get position, which the
renderer moves up to a put position it recorded earlier. Positions stay far below `2 ^ 64`,
so the `usz` sums do not wrap, and `grow` is the base class's stub, which fails.

The free space runs from the put position to the get position inclusive, around the end of
the ring (`InFree`). Every block fits in the heap (`alloc_fits`) and lies in the free space
when the put position is past the get position or its aligned value is below it
(`alloc_inFree`). In the two remaining cases `can_alloc_impl` accepts blocks in use: a full
heap, where the put position has reached the get position, restarts at offset 0
(`alloc_full_overlaps`), and an alignment can carry the put position over the get position
(`alloc_aligned_overlaps`). -/
namespace Rpcs3.Rsx.DataHeap

open Transition

/-- `utils::align` for a power of two: `value` rounded up to a multiple of `alignment`. -/
def align (value alignment : ℕ) : ℕ := (value + (alignment - 1)) / alignment * alignment

structure Heap where
  size : ℕ
  putPos : ℕ
  getPos : ℕ
  deriving DecidableEq

/-- `init(heap_size)`, for a heap of at least one byte. -/
def init (heapSize : ℕ) : Heap := ⟨heapSize, 0, heapSize - 1⟩

/-- `can_alloc_impl`: whether a block at the aligned put position stays clear of the get
position. -/
def canAllocImpl (h : Heap) (alignedPutPos alignedAllocSize : ℕ) : Bool :=
  let allocEnd := alignedPutPos + alignedAllocSize
  if allocEnd < h.size then
    if allocEnd < h.getPos then true
    else if alignedPutPos > h.getPos then true
    else false
  -- a block that would run past the end starts at 0 instead
  else if alignedPutPos < h.getPos then false
  else if alignedAllocSize > h.getPos then false
  else true

def canAlloc (h : Heap) (alignment size : ℕ) : Bool :=
  canAllocImpl h (align h.putPos alignment) (align size alignment)

/-- `alloc<Alignment>(size)`: the offset of the block and the heap after it, or `none` where
it throws. -/
def alloc (h : Heap) (alignment size : ℕ) : Option (ℕ × Heap) :=
  let allocSize := align size alignment
  let alignedPutPos := align h.putPos alignment
  if !canAlloc h alignment size then none
  else
    let allocEnd := alignedPutPos + allocSize
    if allocEnd < h.size then some (alignedPutPos, { h with putPos := allocEnd })
    else some (0, { h with putPos := allocSize })

/-- `static_alloc<Alignment, Size>()`, whose `ensure` throws on an unaligned put position. -/
def staticAlloc (h : Heap) (alignment size : ℕ) : Option (ℕ × Heap) :=
  if h.putPos % alignment ≠ 0 then none
  else if !canAllocImpl h h.putPos size then none
  else
    let allocEnd := h.putPos + size
    if allocEnd < h.size then some (h.putPos, { h with putPos := allocEnd })
    else some (0, { h with putPos := size })

def getCurrentPutPosMinusOne (h : Heap) : ℕ :=
  if h.putPos > 0 then h.putPos - 1 else h.size - 1

def setGetPos (h : Heap) (value : ℕ) : Heap := { h with getPos := value }

def resetAllocationStats (h : Heap) : Heap := { h with getPos := getCurrentPutPosMinusOne h }

/-! ### Blocks -/

/-- The free space: from the put position to the get position inclusive, around the end of
the ring. -/
def InFree (h : Heap) (x : ℕ) : Prop :=
  x < h.size ∧ if h.putPos ≤ h.getPos then h.putPos ≤ x ∧ x ≤ h.getPos
    else h.putPos ≤ x ∨ x ≤ h.getPos

instance (h : Heap) (x : ℕ) : Decidable (InFree h x) :=
  inferInstanceAs (Decidable (x < h.size ∧ if h.putPos ≤ h.getPos then
    h.putPos ≤ x ∧ x ≤ h.getPos else h.putPos ≤ x ∨ x ≤ h.getPos))

theorem le_align (value : ℕ) {alignment : ℕ} (ha : 0 < alignment) :
    value ≤ align value alignment := by
  have := Nat.lt_div_mul_add (a := value + (alignment - 1)) ha
  unfold align
  omega

theorem align_of_dvd {value alignment : ℕ} (ha : 0 < alignment) (h : value % alignment = 0) :
    align value alignment = value := by
  unfold align
  rw [Nat.add_div_of_dvd_right (Nat.dvd_of_mod_eq_zero h),
    Nat.div_eq_of_lt (by omega : alignment - 1 < alignment), Nat.add_zero,
    Nat.div_mul_cancel (Nat.dvd_of_mod_eq_zero h)]

/-- What `can_alloc_impl` accepts: a block before the end of the ring that ends before the
get position or starts after it, or a block from 0 that ends at the get position, where the
put position is not below it. -/
theorem canAllocImpl_cases {h : Heap} {pos size : ℕ} (hc : canAllocImpl h pos size = true) :
    (pos + size < h.size ∧ (pos + size < h.getPos ∨ h.getPos < pos)) ∨
      (h.size ≤ pos + size ∧ h.getPos ≤ pos ∧ size ≤ h.getPos) := by
  unfold canAllocImpl at hc
  dsimp only at hc
  split_ifs at hc <;> simp only at hc <;> omega

/-- A block `can_alloc_impl` accepts, at `pos` or from 0, lies in the free space when the put
position is past the get position or `pos` is below it. -/
theorem block_inFree {h : Heap} {pos size x : ℕ} (hc : canAllocImpl h pos size = true)
    (hput : h.putPos ≤ pos) (hget : h.getPos < h.size)
    (hsafe : h.getPos < h.putPos ∨ pos < h.getPos)
    (hx : (if pos + size < h.size then pos else 0) ≤ x ∧
      x < (if pos + size < h.size then pos else 0) + size) : InFree h x := by
  unfold InFree
  rcases canAllocImpl_cases hc with ⟨hend, hfit⟩ | ⟨hend, hpos, hsize⟩
  · rw [if_pos hend] at hx
    split_ifs <;> omega
  · rw [if_neg (by omega)] at hx
    split_ifs <;> omega

theorem alloc_eq_some {h : Heap} {alignment size r : ℕ} {h' : Heap}
    (e : alloc h alignment size = some (r, h')) :
    canAllocImpl h (align h.putPos alignment) (align size alignment) = true ∧
      r = (if align h.putPos alignment + align size alignment < h.size
        then align h.putPos alignment else 0) ∧
      h'.size = h.size ∧ h'.getPos = h.getPos ∧ h'.putPos = r + align size alignment := by
  unfold alloc canAlloc at e
  dsimp only at e
  split_ifs at e with hc hend
  · obtain ⟨rfl, rfl⟩ := Prod.mk.inj (Option.some.inj e)
    exact ⟨by simpa using hc, by rw [if_pos hend], rfl, rfl, rfl⟩
  · obtain ⟨rfl, rfl⟩ := Prod.mk.inj (Option.some.inj e)
    exact ⟨by simpa using hc, by rw [if_neg hend], rfl, rfl, (Nat.zero_add _).symm⟩

/-- `static_alloc` is `alloc` at an aligned put position, for a size the alignment divides. -/
theorem staticAlloc_eq {h : Heap} {alignment size : ℕ} (ha : 0 < alignment)
    (hs : size % alignment = 0) :
    staticAlloc h alignment size =
      if h.putPos % alignment ≠ 0 then none else alloc h alignment size := by
  unfold staticAlloc alloc canAlloc
  split_ifs with hp <;> simp_all [align_of_dvd ha]

theorem getCurrentPutPosMinusOne_lt {h : Heap} (hput : h.putPos < h.size) :
    getCurrentPutPosMinusOne h < h.size := by
  unfold getCurrentPutPosMinusOne
  split_ifs <;> omega

/-- Every block `alloc` returns ends before the end of the heap. -/
theorem alloc_lt_size {h : Heap} {alignment size r : ℕ} {h' : Heap} (hget : h.getPos < h.size)
    (e : alloc h alignment size = some (r, h')) : r + align size alignment < h.size := by
  obtain ⟨hc, rfl, -⟩ := alloc_eq_some e
  rcases canAllocImpl_cases hc with ⟨hend, -⟩ | ⟨hend, -, hsize⟩
  · rw [if_pos hend]
    exact hend
  · rw [if_neg (by omega)]
    omega

/-! ### Runs -/

/-- The calls on a `data_heap` after `init`. -/
inductive Op where
  | alloc (alignment size : ℕ)
  | staticAlloc (alignment size : ℕ)
  | getCurrentPutPosMinusOne
  | setGetPos (value : ℕ)
  | resetAllocationStats

/-- The heap and the values `get_current_put_pos_minus_one` has returned, the only ones a
caller passes to `set_get_pos`. -/
structure Sys where
  heap : Heap
  returned : List ℕ

def Init (s : Sys) : Prop := 0 < s.heap.size ∧ s.heap = init s.heap.size ∧ s.returned = []

/-- One call, with a power-of-two alignment, which for `static_alloc` divides the size. -/
inductive Step : Sys → Op → Sys → Prop where
  | alloc {s : Sys} {a n r : ℕ} {h : Heap} (ha : a.isPowerOfTwo)
      (e : alloc s.heap a n = some (r, h)) : Step s (.alloc a n) ⟨h, s.returned⟩
  | staticAlloc {s : Sys} {a n r : ℕ} {h : Heap} (ha : a.isPowerOfTwo) (hn : n % a = 0)
      (e : staticAlloc s.heap a n = some (r, h)) : Step s (.staticAlloc a n) ⟨h, s.returned⟩
  | getCurrentPutPosMinusOne {s : Sys} :
      Step s .getCurrentPutPosMinusOne
        ⟨s.heap, getCurrentPutPosMinusOne s.heap :: s.returned⟩
  | setGetPos {s : Sys} {g : ℕ} (hg : g ∈ s.returned) :
      Step s (.setGetPos g) ⟨setGetPos s.heap g, s.returned⟩
  | resetAllocationStats {s : Sys} :
      Step s .resetAllocationStats ⟨resetAllocationStats s.heap, s.returned⟩

/-- Both positions, and every position a caller may pass to `set_get_pos`, lie in the heap. -/
structure Inv (s : Sys) : Prop where
  put_lt : s.heap.putPos < s.heap.size
  get_lt : s.heap.getPos < s.heap.size
  returned_lt : ∀ g ∈ s.returned, g < s.heap.size

theorem inv_init {s : Sys} (h : Init s) : Inv s := by
  obtain ⟨hpos, hheap, hret⟩ := h
  refine ⟨?_, ?_, ?_⟩
  · rw [hheap]
    exact hpos
  · rw [hheap]
    exact Nat.sub_lt hpos Nat.one_pos
  · simp [hret]

theorem Inv.alloc {s : Sys} {a n r : ℕ} {h : Heap} (hs : Inv s)
    (e : alloc s.heap a n = some (r, h)) : Inv ⟨h, s.returned⟩ := by
  obtain ⟨-, -, hsize, hget, hput⟩ := alloc_eq_some e
  have hfit := alloc_lt_size hs.get_lt e
  have hget' := hs.get_lt
  refine ⟨?_, ?_, ?_⟩
  · change h.putPos < h.size
    omega
  · change h.getPos < h.size
    omega
  · intro g hg
    change g < h.size
    rw [hsize]
    exact hs.returned_lt g hg

theorem inv_step {s t : Sys} {o : Op} (hs : Inv s) (hst : Step s o t) : Inv t := by
  cases hst with
  | alloc _ e => exact hs.alloc e
  | staticAlloc ha hn e =>
    rw [staticAlloc_eq (Nat.pos_of_isPowerOfTwo ha) hn] at e
    split_ifs at e
    exact hs.alloc e
  | getCurrentPutPosMinusOne =>
    refine ⟨hs.put_lt, hs.get_lt, ?_⟩
    intro g hg
    rcases List.mem_cons.1 hg with rfl | hg
    · exact getCurrentPutPosMinusOne_lt hs.put_lt
    · exact hs.returned_lt g hg
  | setGetPos hg => exact ⟨hs.put_lt, hs.returned_lt _ hg, hs.returned_lt⟩
  | resetAllocationStats =>
    exact ⟨hs.put_lt, getCurrentPutPosMinusOne_lt hs.put_lt, hs.returned_lt⟩

theorem Inv.of_reachable {s : Sys} (h : Reachable Init Step s) : Inv s :=
  h.invariant (fun _ => inv_init) (fun _ _ _ hs hst => inv_step hs hst)

/-- On every run, a block ends inside the heap. -/
theorem alloc_fits {s : Sys} {a n r : ℕ} {h : Heap} (hs : Reachable Init Step s)
    (e : alloc s.heap a n = some (r, h)) : r + align n a ≤ s.heap.size :=
  (alloc_lt_size (Inv.of_reachable hs).get_lt e).le

/-- On every run, a block lies in the free space when the put position is past the get
position or its aligned value is below it. -/
theorem alloc_inFree {s : Sys} {a n r : ℕ} {h : Heap} (hs : Reachable Init Step s)
    (ha : a.isPowerOfTwo) (e : alloc s.heap a n = some (r, h))
    (hsafe : s.heap.getPos < s.heap.putPos ∨ align s.heap.putPos a < s.heap.getPos) :
    ∀ x, r ≤ x → x < r + align n a → InFree s.heap x := by
  intro x hlo hhi
  obtain ⟨hc, hr, -⟩ := alloc_eq_some e
  subst hr
  exact block_inFree hc (le_align _ (Nat.pos_of_isPowerOfTwo ha))
    (Inv.of_reachable hs).get_lt hsafe ⟨hlo, hhi⟩

/-- A full heap: after `alloc<1>(0x18)`, `reset_allocation_stats()` and `alloc<1>(7)`, the
call `alloc<1>(0x17)` wraps to offset 0 and leaves the put position on the get position, and
the next `alloc<1>(0x10)` returns offset 0 again, over the block still in use. -/
theorem alloc_full_overlaps :
    Reachable Init Step ⟨⟨0x20, 0x1F, 0x17⟩, []⟩ ∧
      alloc ⟨0x20, 0x1F, 0x17⟩ 1 0x17 = some (0, ⟨0x20, 0x17, 0x17⟩) ∧
      alloc ⟨0x20, 0x17, 0x17⟩ 1 0x10 = some (0, ⟨0x20, 0x10, 0x17⟩) ∧
      ¬ InFree ⟨0x20, 0x17, 0x17⟩ 0 := by
  refine ⟨?_, rfl, rfl, by decide⟩
  have h₀ : Reachable Init Step ⟨init 0x20, []⟩ := Reachable.of_init ⟨by decide, rfl, rfl⟩
  exact ((h₀.next (Step.alloc Nat.isPowerOfTwo_one (n := 0x18) rfl)).next
    Step.resetAllocationStats).next (Step.alloc Nat.isPowerOfTwo_one (n := 7) rfl)

/-- An alignment over the get position: the put position `0x16` is recorded, `0xE0` bytes
are allocated after it, the get position is set to the recorded `0x15`, and a wrapped block
brings the put position back to `0x11`, below it. Then `alloc<0x10>(1)` aligns the put
position to `0x20`, past the get position, and returns the block at `0x20` inside the
`0xE0` bytes still in use. -/
theorem alloc_aligned_overlaps :
    Reachable Init Step ⟨⟨0x100, 0x11, 0x15⟩, [0x15]⟩ ∧
      alloc ⟨0x100, 0x11, 0x15⟩ 0x10 1 = some (0x20, ⟨0x100, 0x30, 0x15⟩) ∧
      ¬ InFree ⟨0x100, 0x11, 0x15⟩ 0x20 := by
  refine ⟨?_, rfl, by decide⟩
  have h₀ : Reachable Init Step ⟨init 0x100, []⟩ := Reachable.of_init ⟨by decide, rfl, rfl⟩
  have h₁ := (h₀.next (Step.alloc Nat.isPowerOfTwo_one (n := 0x16) rfl)).next
    Step.getCurrentPutPosMinusOne
  exact ((h₁.next (Step.alloc Nat.isPowerOfTwo_one (n := 0xE0) rfl)).next
    (Step.setGetPos (g := 0x15) (by decide))).next (Step.alloc Nat.isPowerOfTwo_one (n := 0x11) rfl)

end Rpcs3.Rsx.DataHeap
