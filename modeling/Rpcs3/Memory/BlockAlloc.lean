import Mathlib
import Rpcs3.Lib.Align
import Rpcs3.Memory.VmBlock

/-! The candidate search of `vm::block_t::alloc` (`Emu/Memory/vm.cpp`). The request's size is
rounded up to the block's minimal page size and grows by two guard pages in a stack-guarded
block; the candidates are the multiples of `align` from `utils::align(addr, align)` to
`max = (addr + size - rounded) & -align`, all computed on `u32`, and `try_alloc` takes the first
one whose pages all have zero entries in `g_pages`.

For a block that ends at most at 2^32, a request of a non-zero size and an alignment that is a
power of two not below the minimal page size, `alloc` returns: the loop ends through its own
exits, a mapped candidate or `addr == max`, within one turn per candidate. It maps the lowest
aligned address whose range lies in the block with free pages and returns it, past the lower
guard page of a stack-guarded block, and returns 0 with nothing changed when there is none
(`alloc_first_fit`). A request of size 0 returns 0 although an empty range fits
(`alloc_zero_size`). -/
namespace Rpcs3.Memory.VmBlock

/-! ### `u32` arithmetic -/

section Word

variable {x y : UInt32} {k : ℕ}

theorem lt_32_of_toNat (hy : y.toNat = 2 ^ k) : k < 32 := by
  have h := y.toNat_lt
  rw [hy] at h
  exact (Nat.pow_lt_pow_iff_right (by norm_num)).mp h

/-- `x & (0 - y)` rounds down to a multiple of the power of two `y`. -/
theorem toNat_and_neg (hy : y.toNat = 2 ^ k) :
    (x &&& (0 - y)).toNat = x.toNat / y.toNat * y.toNat := by
  have hk := lt_32_of_toNat hy
  have hpos : 0 < 2 ^ k := Nat.two_pow_pos k
  have hneg : (0 - y).toNat = 2 ^ 32 - 2 ^ k := by
    rw [UInt32.toNat_sub, UInt32.toNat_zero, hy, Nat.add_zero]
    exact Nat.mod_eq_of_lt (by omega)
  rw [UInt32.toNat_and, hneg, hy]
  exact Align.and_two_pow_sub_two_pow x.toNat_lt hk.le

/-- `utils::align(x, y)` rounds up to a multiple of the power of two `y`, unless `x + y - 1`
wraps. -/
theorem toNat_alignUp (hy : y.toNat = 2 ^ k) :
    (alignUp x y).toNat = (x.toNat + y.toNat - 1) % 2 ^ 32 / y.toNat * y.toNat := by
  have hpos : 0 < 2 ^ k := Nat.two_pow_pos k
  unfold alignUp
  rw [toNat_and_neg hy, UInt32.toNat_add, UInt32.toNat_sub, UInt32.toNat_one]
  congr 3
  have hlt := y.toNat_lt
  omega

/-- `0x80000000 >> countl_zero(align)` is `align` for a power of two. -/
theorem shift_countlZero (hy : y.toNat = 2 ^ k) : (0x80000000 : UInt32) >>> countlZero y = y := by
  have hk := lt_32_of_toNat hy
  have hpow : y = UInt32.ofNat (2 ^ k) := by
    apply UInt32.toNat_inj.mp
    rw [hy, UInt32.toNat_ofNat']
    exact (Nat.mod_eq_of_lt (Nat.pow_lt_pow_right (by norm_num) hk)).symm
  have hall : ∀ j : Fin 32,
      (0x80000000 : UInt32) >>> countlZero (UInt32.ofNat (2 ^ j.val)) = UInt32.ofNat (2 ^ j.val) := by
    decide
  rw [hpow]
  exact hall ⟨k, hk⟩

theorem or_mod_4096 (hx : x.toNat % 4096 = 0) (hy : y.toNat % 4096 = 0) : (x ||| y) % 4096 = 0 := by
  apply UInt32.toNat_inj.mp
  have h := Nat.or_mod_two_pow (a := x.toNat) (b := y.toNat) (n := 12)
  norm_num at h
  rw [UInt32.toNat_mod, UInt32.toNat_or, show UInt32.toNat 4096 = 4096 from rfl, h, hx, hy]
  rfl

theorem toNat_add_of_lt (h : x.toNat + y.toNat < 2 ^ 32) : (x + y).toNat = x.toNat + y.toNat := by
  rw [UInt32.toNat_add]
  exact Nat.mod_eq_of_lt h

theorem toNat_sub_of_le (h : y.toNat ≤ x.toNat) : (x - y).toNat = x.toNat - y.toNat := by
  rw [UInt32.toNat_sub]
  have := x.toNat_lt
  omega

/-- The last byte of a non-empty range that ends at most at 2^32. -/
theorem toNat_add_sub_one (h0 : 0 < y.toNat) (h : x.toNat + y.toNat ≤ 2 ^ 32) :
    (x + y - 1).toNat = x.toNat + y.toNat - 1 := by
  rw [UInt32.toNat_sub, UInt32.toNat_add, UInt32.toNat_one]
  have := x.toNat_lt
  omega

end Word

/-! ### `try_alloc` -/

/-- The pages `[x / 4096, (x + size) / 4096)` all have zero entries. -/
def PagesFree (pages : ℕ → UInt8) (x size : ℕ) : Prop :=
  ∀ i, x / 4096 ≤ i → i < (x + size) / 4096 → pages i = 0

theorem pagesClear_iff {pages : ℕ → UInt8} {first count : ℕ} :
    pagesClear pages first count = true ↔ ∀ i, first ≤ i → i < first + count → pages i = 0 := by
  simp only [pagesClear, List.all_eq_true, List.mem_range', beq_iff_eq]
  constructor
  · intro h i hi hic
    exact h i ⟨i - first, by omega, by omega⟩
  · rintro h _ ⟨j, hj, rfl⟩
    exact h _ (by omega) (by omega)

theorem pageFlags_allocated (bflags : UInt64) : pageFlags bflags &&& pageAllocated = 0 := by
  unfold pageFlags
  split_ifs <;> decide

/-- A page entry with `page_allocated` or-ed in reads as allocated. -/
theorem or_pageAllocated (f : UInt8) : (f ||| pageAllocated) &&& pageAllocated = pageAllocated := by
  apply UInt8.toBitVec_inj.mp
  ext i hi
  simp only [UInt8.toBitVec_and, UInt8.toBitVec_or, BitVec.getElem_and, BitVec.getElem_or]
  cases pageAllocated.toBitVec[i] <;> simp

theorem pageMap_of_free {pages : ℕ → UInt8} {addr size : UInt32} {flags : UInt8} (hsize : size ≠ 0)
    (halign : (size ||| addr) % 4096 = 0) (hflags : flags &&& pageAllocated = 0)
    (hfree : ∀ i, addr.toNat / 4096 ≤ i → i < addr.toNat / 4096 + size.toNat / 4096 → pages i = 0) :
    pageMap pages addr flags size =
      some (setPages pages (addr.toNat / 4096) (size.toNat / 4096) (flags ||| pageAllocated)) := by
  unfold pageMap
  rw [if_neg (by simp [hsize, halign, hflags]), if_neg (by simpa using pagesClear_iff.mpr hfree)]

/-- What `try_alloc` needs of a candidate: it is page-aligned and its range ends at most at 2^32,
the size is a non-zero number of pages, with room for the two guard pages in a guarded block. -/
structure Candidate (b : Block) (x size : ℕ) : Prop where
  addr_mod : x % 4096 = 0
  size_mod : size % 4096 = 0
  size_pos : 0 < size
  guard_le : b.guarded = true → 0x3000 ≤ size
  end_le : x + size ≤ 2 ^ 32

/-- `s'` is `s` with the `size` bytes at `x` allocated: the map records them at `x`, each of
their pages has `page_allocated` set, and every other page keeps its entry. -/
structure Allocated (s s' : VmState) (x size : ℕ) : Prop where
  map_eq : s'.map = mapAssign s.map (UInt32.ofNat x) (UInt32.ofNat size)
  inside : ∀ i, x / 4096 ≤ i → i < (x + size) / 4096 → s'.pages i &&& pageAllocated ≠ 0
  outside : ∀ i, i < x / 4096 ∨ (x + size) / 4096 ≤ i → s'.pages i = s.pages i

theorem tryAlloc_of_not_free {b : Block} {s : VmState} {addr size : UInt32} {bflags : UInt64}
    (hc : Candidate b addr.toNat size.toNat) (hused : ¬PagesFree s.pages addr.toNat size.toNat) :
    tryAlloc b s addr bflags size = some (false, s) := by
  have hlast := toNat_add_sub_one hc.size_pos hc.end_le
  have hmod := hc.addr_mod
  have hsmod := hc.size_mod
  unfold tryAlloc
  rw [if_pos]
  rw [Bool.not_eq_true', Bool.eq_false_iff]
  intro hclear
  apply hused
  intro i hi hie
  exact pagesClear_iff.mp hclear i hi (by rw [hlast]; omega)

theorem tryAlloc_of_free (bflags : UInt64) {b : Block} {s : VmState} {addr size : UInt32}
    (hc : Candidate b addr.toNat size.toNat) (hfree : PagesFree s.pages addr.toNat size.toNat) :
    ∃ s', tryAlloc b s addr bflags size = some (true, s') ∧
      Allocated s s' addr.toNat size.toNat := by
  have hset := or_pageAllocated (pageFlags bflags)
  have hlast := toNat_add_sub_one hc.size_pos hc.end_le
  have hmod := hc.addr_mod
  have hsmod := hc.size_mod
  have hpos := hc.size_pos
  have hend := hc.end_le
  unfold tryAlloc
  rw [if_neg (by
    simpa using pagesClear_iff.mpr fun i hi hie => hfree i hi (by rw [hlast] at hie; omega))]
  dsimp only
  by_cases hg : b.guarded = true
  · -- the guard pages at both ends, then the pages between them
    have hsz := hc.guard_le hg
    have hfirst : s.pages (addr.toNat / 4096) = 0 := hfree _ le_rfl (by omega)
    have hlastg : s.pages (addr.toNat / 4096 + size.toNat / 4096 - 1) = 0 :=
      hfree _ (by omega) (by omega)
    simp only [hg, if_true, hfirst, ne_eq, not_true_eq_false, if_false,
      Function.update_of_ne (show addr.toNat / 4096 + size.toNat / 4096 - 1 ≠ addr.toNat / 4096 by
        omega), hlastg]
    have hpa : (addr + 0x1000).toNat = addr.toNat + 0x1000 := toNat_add_of_lt (by simp; omega)
    have hps : (size - 0x2000).toNat = size.toNat - 0x2000 := toNat_sub_of_le (by simp; omega)
    rw [pageMap_of_free (by intro h; rw [← UInt32.toNat_inj, hps] at h; simp at h; omega)
      (or_mod_4096 (by rw [hps]; omega) (by rw [hpa]; omega)) (pageFlags_allocated bflags)]
    · -- the two guard pages hold `page_allocated`, the pages between them the page flags too
      refine ⟨_, rfl, ⟨by simp, fun i hi hie => ?_, fun i hi => ?_⟩⟩ <;>
        simp only [setPages, Function.update_apply, hpa, hps]
      · split_ifs <;> first | decide | (rw [hset]; decide) | omega
      · split_ifs <;> first | rfl | omega
    · intro i hi hie
      rw [hpa] at hi
      rw [hpa, hps] at hie
      rw [Function.update_of_ne (by omega), Function.update_of_ne (by omega)]
      exact hfree i (by omega) (by omega)
  · simp only [hg, Bool.false_eq_true, if_false]
    rw [pageMap_of_free (by intro h; rw [← UInt32.toNat_inj] at h; simp at h; omega)
      (or_mod_4096 (by simpa using hsmod) (by simpa using hmod)) (pageFlags_allocated bflags)]
    · refine ⟨_, rfl, ⟨by simp, fun i hi hie => ?_, fun i hi => ?_⟩⟩ <;>
        simp only [setPages, UInt32.add_zero, UInt32.sub_zero]
      · rw [if_pos (by omega), hset]
        decide
      · rw [if_neg (by omega)]
    · intro i hi hie
      exact hfree i (by simpa using hi) (by simp at hie; omega)

/-! ### The candidate loop -/

/-- What the loop needs of its size, alignment and last candidate `max`: the size is a non-zero
number of pages with room for the guards of a guarded block, the alignment a non-zero number of
pages, and the range at `max` ends at most at 2^32. -/
structure SearchOk (b : Block) (size align max : UInt32) : Prop where
  size_mod : size.toNat % 4096 = 0
  size_pos : 0 < size.toNat
  guard_le : b.guarded = true → 0x3000 ≤ size.toNat
  align_mod : align.toNat % 4096 = 0
  align_pos : 0 < align.toNat
  end_le : max.toNat + size.toNat ≤ 2 ^ 32

section Search

variable {b : Block} {bflags : UInt64} {size align max : UInt32} {s : VmState}

theorem SearchOk.candidate (h : SearchOk b size align max) {x : ℕ} (hx : x % 4096 = 0)
    (hxm : x ≤ max.toNat) : Candidate b x size.toNat :=
  ⟨hx, h.size_mod, h.size_pos, h.guard_le, by have := h.end_le; omega⟩

/-- A candidate in use: the loop stops at `max` or goes on to the next candidate. -/
theorem allocSearch_used {fuel : ℕ} {addr : UInt32} (hc : Candidate b addr.toNat size.toNat)
    (hused : ¬PagesFree s.pages addr.toNat size.toNat) :
    allocSearch b bflags size align max s (fuel + 1) addr =
      if addr = max then some (0, s) else allocSearch b bflags size align max s fuel (addr + align) := by
  simp only [allocSearch, tryAlloc_of_not_free hc hused]

/-- A candidate `try_alloc` maps: the loop returns it, past the lower guard page. -/
theorem allocSearch_free {fuel : ℕ} {addr : UInt32} {s' : VmState}
    (ht : tryAlloc b s addr bflags size = some (true, s')) :
    allocSearch b bflags size align max s (fuel + 1) addr =
      some (addr + (if bflags &&& stackGuarded ≠ 0 then 0x1000 else 0), s') := by
  simp only [allocSearch, ht]

theorem shift_mul (x a j : ℕ) : x + a + j * a = x + (j + 1) * a := by
  rw [Nat.succ_mul]
  omega

theorem toNat_add_align (h : SearchOk b size align max) {addr : UInt32} {n : ℕ}
    (hmax : addr.toNat + (n + 1) * align.toNat = max.toNat) :
    (addr + align).toNat = addr.toNat + align.toNat := by
  apply toNat_add_of_lt
  have := h.end_le
  have := h.size_pos
  rw [Nat.add_mul, Nat.one_mul] at hmax
  omega

theorem ne_max_of_lt (h : SearchOk b size align max) {addr : UInt32} {n : ℕ}
    (hmax : addr.toNat + (n + 1) * align.toNat = max.toNat) : addr ≠ max := by
  intro hm
  have := h.align_pos
  rw [hm, Nat.add_mul, Nat.one_mul] at hmax
  omega

/-- With no free candidate among `addr + j * align` up to `max = addr + n * align`, the loop
returns 0 and changes nothing, with any fuel beyond the `n + 1` candidates. -/
theorem allocSearch_none (h : SearchOk b size align max) (n : ℕ) {addr : UInt32}
    (hmod : addr.toNat % 4096 = 0) (hmax : addr.toNat + n * align.toNat = max.toNat)
    (hnone : ∀ j ≤ n, ¬PagesFree s.pages (addr.toNat + j * align.toNat) size.toNat) (k : ℕ) :
    allocSearch b bflags size align max s (n + 1 + k) addr = some (0, s) := by
  induction n generalizing addr with
  | zero =>
    have hc := h.candidate hmod (by omega)
    rw [show 0 + 1 + k = k + 1 by omega, allocSearch_used hc (by simpa using hnone 0 le_rfl),
      if_pos (UInt32.toNat_inj.mp (by simpa using hmax))]
  | succ n ih =>
    have hc := h.candidate hmod (by rw [← hmax]; exact Nat.le_add_right _ _)
    have hnext := toNat_add_align h hmax
    rw [show n + 1 + 1 + k = n + 1 + k + 1 by omega, allocSearch_used hc (by simpa using hnone 0 (by omega)),
      if_neg (ne_max_of_lt h hmax)]
    apply ih (by rw [hnext]; have := h.align_mod; omega) (by rw [hnext, ← hmax, Nat.add_mul]; omega)
    intro j hj
    rw [hnext, shift_mul]
    exact hnone (j + 1) (by omega)

/-- The loop maps the first free candidate `addr + j * align` and returns it, with any fuel
beyond the `n + 1` candidates. -/
theorem allocSearch_first (bflags : UInt64) (h : SearchOk b size align max) (n : ℕ) {addr : UInt32}
    (hmod : addr.toNat % 4096 = 0) (hmax : addr.toNat + n * align.toNat = max.toNat) {j : ℕ}
    (hj : j ≤ n) (hfree : PagesFree s.pages (addr.toNat + j * align.toNat) size.toNat)
    (hfirst : ∀ j' < j, ¬PagesFree s.pages (addr.toNat + j' * align.toNat) size.toNat) (k : ℕ) :
    ∃ c s', c.toNat = addr.toNat + j * align.toNat ∧
      allocSearch b bflags size align max s (n + 1 + k) addr =
        some (c + (if bflags &&& stackGuarded ≠ 0 then 0x1000 else 0), s') ∧
      Allocated s s' c.toNat size.toNat := by
  induction n generalizing addr j with
  | zero =>
    obtain rfl : j = 0 := by omega
    have hc := h.candidate hmod (by omega)
    obtain ⟨s', ht, hs'⟩ := tryAlloc_of_free bflags hc (by simpa using hfree)
    exact ⟨addr, s', by simp, by rw [show 0 + 1 + k = k + 1 by omega]; exact allocSearch_free ht,
      hs'⟩
  | succ n ih =>
    have hc := h.candidate hmod (by rw [← hmax]; exact Nat.le_add_right _ _)
    rcases j with _ | j
    · obtain ⟨s', ht, hs'⟩ := tryAlloc_of_free bflags hc (by simpa using hfree)
      rw [show n + 1 + 1 + k = n + 1 + k + 1 by omega]
      exact ⟨addr, s', by simp, allocSearch_free ht, hs'⟩
    · have hnext := toNat_add_align h hmax
      rw [show n + 1 + 1 + k = n + 1 + k + 1 by omega,
        allocSearch_used hc (by simpa using hfirst 0 (by omega)), if_neg (ne_max_of_lt h hmax)]
      have hshift : ∀ i, (addr + align).toNat + i * align.toNat = addr.toNat + (i + 1) * align.toNat := by
        intro i
        rw [hnext, shift_mul]
      obtain ⟨c, s', hc', hs', hal⟩ := ih
        (show (addr + align).toNat % 4096 = 0 by rw [hnext]; have := h.align_mod; omega)
        (show (addr + align).toNat + n * align.toNat = max.toNat by rw [hshift, ← hmax])
        (show j ≤ n by omega) (by rw [hshift]; exact hfree)
        (fun j' hj' => by rw [hshift]; exact hfirst (j' + 1) (by omega))
      exact ⟨c, s', by rw [hc', hshift], hs', hal⟩

end Search

/-! ### `alloc` -/

/-- The flags `alloc` works with: the block's, less the protection bits. -/
def allocFlags (b : Block) : UInt64 := b.flags &&& ~~~allocProtMask

def minPageSize (b : Block) : UInt32 := if allocFlags b &&& pageSize4k ≠ 0 then 0x1000 else 0x10000

def guardSize (b : Block) : UInt32 := if allocFlags b &&& stackGuarded ≠ 0 then 0x2000 else 0

/-- The size `alloc` reserves for `orig_size` bytes, in exact arithmetic. -/
def roundedSize (b : Block) (origSize : ℕ) : ℕ :=
  (origSize + (minPageSize b).toNat - 1) / (minPageSize b).toNat * (minPageSize b).toNat +
    (guardSize b).toNat

/-- An address where `alloc` can place `size` bytes: a multiple of `align` whose range lies in
the block and whose pages are free. -/
def IsFit (b : Block) (pages : ℕ → UInt8) (align size a : ℕ) : Prop :=
  a % align = 0 ∧ b.addr.toNat ≤ a ∧ a + size ≤ b.addr.toNat + b.size.toNat ∧ PagesFree pages a size

/-- A fit lies on the grid of `align`, in the block, and at most at the last multiple of
`align` where `size` bytes still end in the block. -/
theorem IsFit.le_last {b : Block} {pages : ℕ → UInt8} {align size a : ℕ}
    (ha : IsFit b pages align size a) :
    align ∣ a ∧ b.addr.toNat ≤ a ∧ a ≤ (b.addr.toNat + b.size.toNat - size) / align * align := by
  obtain ⟨hmod, hA, hend, -⟩ := ha
  have hdvd := Nat.dvd_of_mod_eq_zero hmod
  exact ⟨hdvd, hA, Align.le_alignDown hdvd (by omega)⟩

theorem alloc_def (b : Block) (s : VmState) (origSize align : UInt32) :
    alloc b s origSize align =
      if align < minPageSize b ∨ align ≠ (0x80000000 : UInt32) >>> countlZero align then none
      else if origSize = 0 ∨ alignUp origSize (minPageSize b) + guardSize b = 0 ∨
          origSize > alignUp origSize (minPageSize b) + guardSize b ∨
          alignUp origSize (minPageSize b) + guardSize b > b.size then some (0, s)
      else
        let max := (b.addr + b.size - (alignUp origSize (minPageSize b) + guardSize b)) &&& (0 - align)
        if b.addr > max ∨ alignUp b.addr align > max then some (0, s)
        else allocSearch b (allocFlags b) (alignUp origSize (minPageSize b) + guardSize b) align max s
          ((max - alignUp b.addr align).toNat / align.toNat + 1) (alignUp b.addr align) :=
  rfl

theorem stackGuarded_allocFlags (b : Block) :
    allocFlags b &&& stackGuarded = b.flags &&& stackGuarded := by
  rw [allocFlags, UInt64.and_assoc, show ~~~allocProtMask &&& stackGuarded = stackGuarded by decide]

theorem allocFlags_guarded (b : Block) : allocFlags b &&& stackGuarded ≠ 0 ↔ b.guarded = true := by
  rw [stackGuarded_allocFlags]
  simp [Block.guarded]

theorem minPageSize_toNat (b : Block) :
    (minPageSize b).toNat = 2 ^ 12 ∨ (minPageSize b).toNat = 2 ^ 16 := by
  unfold minPageSize
  split
  · exact .inl rfl
  · exact .inr rfl

theorem guardSize_toNat (b : Block) : (guardSize b).toNat = if b.guarded then 0x2000 else 0 := by
  unfold guardSize
  by_cases hg : b.guarded = true
  · rw [if_pos ((allocFlags_guarded b).mpr hg), if_pos hg]
    rfl
  · rw [if_neg (mt (allocFlags_guarded b).mp hg), if_neg hg]
    rfl

/-- The size `alloc` computes on `u32` is the exact one, or the exact one is at least 2^32 and
the computed one is 0 or below `orig_size`. -/
theorem allocSize_cases (b : Block) {origSize : UInt32} (horig : origSize ≠ 0) :
    ((alignUp origSize (minPageSize b) + guardSize b).toNat = roundedSize b origSize.toNat ∧
        roundedSize b origSize.toNat < 2 ^ 32) ∨
      (2 ^ 32 ≤ roundedSize b origSize.toNat ∧
        (alignUp origSize (minPageSize b) + guardSize b = 0 ∨
          origSize > alignUp origSize (minPageSize b) + guardSize b)) := by
  have ho : 0 < origSize.toNat := by
    rcases Nat.eq_zero_or_pos origSize.toNat with h | h
    · exact absurd (UInt32.toNat_inj.mp (by simpa using h)) horig
    · exact h
  have hlt := origSize.toNat_lt
  have hg := guardSize_toNat b
  unfold roundedSize
  simp only [UInt32.lt_iff_toNat_lt, ← UInt32.toNat_inj, UInt32.toNat_add, UInt32.toNat_zero]
  rcases minPageSize_toNat b with hm | hm <;>
    rw [toNat_alignUp hm, hm] <;> split_ifs at hg <;> rw [hg] <;> omega

/-- What `alloc` is to return for a request of `size` bytes: 0 with nothing changed when no
address fits, and when one does, the lowest fit, past the lower guard page of a guarded block,
with its pages mapped. -/
def FirstFit (b : Block) (s : VmState) (align size : ℕ) (res : Option (UInt32 × VmState)) : Prop :=
  ((∀ a, ¬IsFit b s.pages align size a) → res = some (0, s)) ∧
    ∀ a, IsFit b s.pages align size a → (∀ a', IsFit b s.pages align size a' → a ≤ a') →
      ∃ r s', res = some (r, s') ∧ r.toNat = a + (if b.guarded then 0x1000 else 0) ∧
        Allocated s s' a size

theorem FirstFit.of_none {b : Block} {s : VmState} {align size : ℕ}
    (h : ∀ a, ¬IsFit b s.pages align size a) : FirstFit b s align size (some (0, s)) :=
  ⟨fun _ => rfl, fun a ha _ => absurd ha (h a)⟩

/-- A first-fit answer is an answer: the call returns, whether or not an address fits. -/
theorem FirstFit.isSome {b : Block} {s : VmState} {align size : ℕ}
    {res : Option (UInt32 × VmState)} (h : FirstFit b s align size res) : res.isSome := by
  classical
  by_cases hex : ∃ a, IsFit b s.pages align size a
  · -- the least fit
    obtain ⟨r, s', hres, -⟩ := h.2 (Nat.find hex) (Nat.find_spec hex) fun a ha => Nat.find_min' hex ha
    rw [hres]
    rfl
  · rw [h.1 (not_exists.mp hex)]
    rfl

theorem not_isFit_of_lt {b : Block} {pages : ℕ → UInt8} {align size : ℕ}
    (h : b.size.toNat < size) (a : ℕ) : ¬IsFit b pages align size a := by
  rintro ⟨-, hA, hend, -⟩
  omega

/-! The candidates `utils::align(addr, align) + j * align` up to `max` are the multiples of
`align` where `size` bytes fit in the block. -/

section Index

variable {al A T a : ℕ}

theorem exists_index (hal : 0 < al) (ha : al ∣ a) (hA : A ≤ a) (hT : a ≤ T) :
    ∃ j, j ≤ (T / al * al - (A + al - 1) / al * al) / al ∧
      a = (A + al - 1) / al * al + j * al := by
  have hs := Align.alignUp_le hal ha hA
  have hm := Align.le_alignDown ha hT
  obtain ⟨j, hj⟩ := Nat.dvd_sub ha (Align.dvd_alignDown (A + al - 1) al)
  refine ⟨j, ?_, by rw [Nat.mul_comm j al, ← hj]; omega⟩
  rw [Nat.le_div_iff_mul_le hal, Nat.mul_comm j al, ← hj]
  omega

theorem mul_le_of_le_div {j d : ℕ} (hj : j ≤ d / al) : j * al ≤ d :=
  le_trans (Nat.mul_le_mul_right al hj) (Nat.div_mul_le_self d al)

/-- A multiple of `al` below `N`, itself a multiple, is at most `N - al`. -/
theorem le_sub_of_dvd {N : ℕ} (ha : al ∣ a) (hN : al ∣ N) (hlt : a < N) : a ≤ N - al := by
  obtain ⟨c, rfl⟩ := ha
  obtain ⟨d, rfl⟩ := hN
  have hcd : c < d := Nat.lt_of_mul_lt_mul_left hlt
  calc al * c ≤ al * (d - 1) := Nat.mul_le_mul_left al (by omega)
    _ = al * d - al := by rw [Nat.mul_sub_one]

/-- A multiple `x` of `al` below `N`, itself a multiple of `al`, leaves room for rounding any
`A ≤ x` up to `al` below `N`. -/
theorem add_sub_one_lt {N : ℕ} (hx : al ∣ a) (hN : al ∣ N) (hxN : a < N) (hA : A ≤ a) :
    A + al - 1 < N := by
  have := le_sub_of_dvd hx hN hxN
  have := Nat.le_of_dvd (by omega) hN
  omega

end Index

theorem firstFit_search {b : Block} {s : VmState} {size align : UInt32} {k : ℕ}
    (hblock : b.addr.toNat + b.size.toNat ≤ 2 ^ 32) (halign : align.toNat = 2 ^ k)
    (hal4k : align.toNat % 4096 = 0) (hpos : 0 < size.toNat) (hS : size.toNat ≤ b.size.toNat)
    (hmod : size.toNat % 4096 = 0) (hguard : b.guarded = true → 0x3000 ≤ size.toNat) :
    FirstFit b s align.toNat size.toNat
      (let max := (b.addr + b.size - size) &&& (0 - align)
      if b.addr > max ∨ alignUp b.addr align > max then some (0, s)
      else allocSearch b (allocFlags b) size align max s
        ((max - alignUp b.addr align).toNat / align.toNat + 1) (alignUp b.addr align)) := by
  have hk := lt_32_of_toNat halign
  have hal : 0 < align.toNat := by rw [halign]; exact Nat.two_pow_pos k
  have hal32 : align.toNat ∣ 2 ^ 32 := by rw [halign]; exact Nat.pow_dvd_pow 2 hk.le
  have hAlt := b.addr.toNat_lt
  -- `max` and the first candidate as naturals
  have hmax : ((b.addr + b.size - size) &&& (0 - align)).toNat =
      (b.addr.toNat + b.size.toNat - size.toNat) / align.toNat * align.toNat := by
    rw [toNat_and_neg halign, UInt32.toNat_sub, UInt32.toNat_add]
    congr 2
    omega
  have hstart := toNat_alignUp (x := b.addr) halign
  generalize hM : (b.addr + b.size - size) &&& (0 - align) = max at hmax
  generalize hC : alignUp b.addr align = start at hstart
  dsimp only
  -- every fit lies between the first candidate and `max`
  have hfit_le : ∀ a, IsFit b s.pages align.toNat size.toNat a →
      align.toNat ∣ a ∧ b.addr.toNat ≤ a ∧ a ≤ max.toNat := fun a ha => by
    rw [hmax]
    exact ha.le_last
  have hmax_dvd : align.toNat ∣ max.toNat := by rw [hmax]; exact Align.dvd_alignDown _ _
  have hmax_lt : max.toNat + size.toNat ≤ b.addr.toNat + b.size.toNat := by
    rw [hmax]
    have := Nat.div_mul_le_self (b.addr.toNat + b.size.toNat - size.toNat) align.toNat
    omega
  by_cases hempty : b.addr > max ∨ start > max
  · -- no candidate: no fit either
    rw [if_pos hempty]
    apply FirstFit.of_none
    intro a ha
    obtain ⟨hdvd, hA, hamax⟩ := hfit_le a ha
    simp only [gt_iff_lt, UInt32.lt_iff_toNat_lt] at hempty
    rcases hempty with hempty | hempty
    · omega
    · have hwrap := add_sub_one_lt hdvd hal32 (lt_of_le_of_lt hamax max.toNat_lt) hA
      rw [hstart, Nat.mod_eq_of_lt hwrap] at hempty
      have := Align.alignUp_le hal hdvd hA
      omega
  · rw [if_neg hempty]
    simp only [gt_iff_lt, UInt32.lt_iff_toNat_lt] at hempty
    -- the first candidate does not wrap: `max` is a multiple of `align` below 2^32
    have hwrap : b.addr.toNat + align.toNat - 1 < 2 ^ 32 :=
      add_sub_one_lt hmax_dvd hal32 max.toNat_lt (by omega)
    rw [Nat.mod_eq_of_lt hwrap] at hstart
    have hstart_dvd : align.toNat ∣ start.toNat := by rw [hstart]; exact Align.dvd_alignDown _ _
    have hA := Align.le_alignUp b.addr.toNat hal
    obtain ⟨n, hn⟩ : align.toNat ∣ max.toNat - start.toNat := Nat.dvd_sub hmax_dvd hstart_dvd
    have hsub : (max - start).toNat = max.toNat - start.toNat := toNat_sub_of_le (by omega)
    have hfuel : (max - start).toNat / align.toNat = n := by
      rw [hsub, hn, Nat.mul_div_cancel_left n hal]
    have hprog : start.toNat + n * align.toNat = max.toNat := by
      rw [Nat.mul_comm, ← hn]
      omega
    have hsearch : SearchOk b size align max :=
      ⟨hmod, hpos, hguard, hal4k, hal, by omega⟩
    have hsmod : start.toNat % 4096 = 0 := by
      obtain ⟨c, hc⟩ := hstart_dvd
      rw [hc, Nat.mul_mod, hal4k, Nat.zero_mul, Nat.zero_mod]
    -- the candidates are exactly the fits
    have hcand : ∀ j ≤ n, PagesFree s.pages (start.toNat + j * align.toNat) size.toNat →
        IsFit b s.pages align.toNat size.toNat (start.toNat + j * align.toNat) := by
      intro j hj hfree
      have hjle : j * align.toNat ≤ n * align.toNat := Nat.mul_le_mul_right _ hj
      refine ⟨?_, by rw [hstart] at *; omega, by omega, hfree⟩
      exact Nat.mod_eq_zero_of_dvd (Nat.dvd_add hstart_dvd (Nat.dvd_mul_left _ _))
    have hindex : ∀ a, IsFit b s.pages align.toNat size.toNat a →
        ∃ j ≤ n, a = start.toNat + j * align.toNat := by
      intro a ha
      obtain ⟨hdvd, hAa, -⟩ := hfit_le a ha
      obtain ⟨j, hj, rfl⟩ := exists_index hal hdvd hAa
        (show _ ≤ b.addr.toNat + b.size.toNat - size.toNat by have := ha.2.2.1; omega)
      refine ⟨j, ?_, by rw [hstart]⟩
      rw [← hfuel, hsub, hstart, hmax]
      exact hj
    rw [hfuel]
    refine ⟨fun hnone => ?_, fun a ha hleast => ?_⟩
    · exact allocSearch_none hsearch n hsmod hprog
        (fun j hj hfree => hnone _ (hcand j hj hfree)) 0
    · obtain ⟨j, hj, rfl⟩ := hindex a ha
      obtain ⟨c, s', hc, hres, hmapped⟩ := allocSearch_first (allocFlags b) hsearch n hsmod hprog
        hj ha.2.2.2 (fun j' hj' hfree => by
          have := hleast _ (hcand j' (by omega) hfree)
          have := Nat.mul_lt_mul_of_pos_right hj' hal
          omega) 0
      refine ⟨_, s', hres, ?_, hc ▸ hmapped⟩
      by_cases hg : b.guarded = true
      · rw [if_pos ((allocFlags_guarded b).mpr hg), if_pos hg, toNat_add_of_lt] <;>
          simp only [hc, UInt32.reduceToNat]
        have := hguard hg
        have := ha.2.2.1
        omega
      · rw [if_neg (mt (allocFlags_guarded b).mp hg), if_neg hg, UInt32.add_zero, hc, Nat.add_zero]

theorem le_roundedSize (b : Block) (origSize : ℕ) : origSize ≤ roundedSize b origSize := by
  have hm : 0 < (minPageSize b).toNat := by rcases minPageSize_toNat b with h | h <;> rw [h] <;> norm_num
  have := Align.le_alignUp origSize hm
  unfold roundedSize
  omega

theorem roundedSize_mod (b : Block) (origSize : ℕ) : roundedSize b origSize % 4096 = 0 := by
  unfold roundedSize
  rw [guardSize_toNat]
  rcases minPageSize_toNat b with hm | hm <;> rw [hm] <;> split <;> omega

theorem guard_le_roundedSize (b : Block) {origSize : ℕ} (ho : 0 < origSize) (hg : b.guarded = true) :
    0x3000 ≤ roundedSize b origSize := by
  have hm : 0 < (minPageSize b).toNat := by rcases minPageSize_toNat b with h | h <;> rw [h] <;> norm_num
  have := Align.le_alignUp origSize hm
  unfold roundedSize
  rw [guardSize_toNat, if_pos hg]
  rcases minPageSize_toNat b with h | h <;> rw [h] at this ⊢ <;> omega

/-- Pages `0x10000` to `0x1000f`, the first 64 KiB of the main block, in use. -/
def usedFirst : VmState :=
  ⟨fun i => if 0x10000 ≤ i ∧ i < 0x10010 then pageAllocated else 0, []⟩

theorem firstFit_alloc {b : Block} {s : VmState} {origSize align : UInt32}
    (hblock : b.addr.toNat + b.size.toNat ≤ 2 ^ 32) {k : ℕ} (halign : align.toNat = 2 ^ k)
    (hmin : (minPageSize b).toNat ≤ align.toNat) (horig : origSize ≠ 0) :
    FirstFit b s align.toNat (roundedSize b origSize.toNat) (alloc b s origSize align) := by
  have hcheck : ¬(align < minPageSize b ∨ align ≠ (0x80000000 : UInt32) >>> countlZero align) := by
    rw [shift_countlZero halign, UInt32.lt_iff_toNat_lt]
    simp only [ne_eq, not_true_eq_false, or_false, not_lt]
    exact hmin
  have ho : 0 < origSize.toNat := by
    rcases Nat.eq_zero_or_pos origSize.toNat with h | h
    · exact absurd (UInt32.toNat_inj.mp (by simpa using h)) horig
    · exact h
  have hR := le_roundedSize b origSize.toNat
  rw [alloc_def, if_neg hcheck]
  rcases allocSize_cases b horig with ⟨hsz, hlt⟩ | ⟨hge, hbad⟩
  · by_cases hvalid : origSize = 0 ∨ alignUp origSize (minPageSize b) + guardSize b = 0 ∨
        origSize > alignUp origSize (minPageSize b) + guardSize b ∨
        alignUp origSize (minPageSize b) + guardSize b > b.size
    · -- the size is valid on `u32` unless it exceeds the block
      rw [if_pos hvalid]
      apply FirstFit.of_none
      apply not_isFit_of_lt
      simp only [gt_iff_lt, UInt32.lt_iff_toNat_lt, ← UInt32.toNat_inj, hsz,
        UInt32.toNat_zero] at hvalid
      omega
    · rw [if_neg hvalid]
      simp only [gt_iff_lt, UInt32.lt_iff_toNat_lt, not_or, not_lt] at hvalid
      have hmin4k : 2 ^ 12 ≤ align.toNat := by
        rcases minPageSize_toNat b with h | h <;> rw [h] at hmin <;> omega
      have hal4k : align.toNat % 4096 = 0 := by
        rw [halign] at hmin4k ⊢
        exact Nat.mod_eq_zero_of_dvd
          (Nat.pow_dvd_pow 2 ((Nat.pow_le_pow_iff_right (by norm_num)).mp hmin4k))
      rw [← hsz]
      exact firstFit_search hblock halign hal4k (by omega) (by omega)
        (by rw [hsz]; exact roundedSize_mod b _) (fun hg => by rw [hsz]; exact guard_le_roundedSize b ho hg)
  · -- the size wraps on `u32`: no range of that size fits below 2^32
    rw [if_pos (by tauto)]
    apply FirstFit.of_none
    apply not_isFit_of_lt
    have := b.size.toNat_lt
    omega

/-- For a block ending at most at 2^32, an alignment that is a power of two not below the minimal
page size and a non-zero request, `alloc` returns: 0 with nothing changed when no aligned range
of the rounded size fits on free pages, and otherwise the lowest fit, past the lower guard page
of a guarded block, with its pages mapped. -/
theorem alloc_first_fit {b : Block} {s : VmState} {origSize align : UInt32}
    (hblock : b.addr.toNat + b.size.toNat ≤ 2 ^ 32) {k : ℕ} (halign : align.toNat = 2 ^ k)
    (hmin : (minPageSize b).toNat ≤ align.toNat) (horig : origSize ≠ 0) :
    (alloc b s origSize align).isSome ∧
      FirstFit b s align.toNat (roundedSize b origSize.toNat) (alloc b s origSize align) := by
  have hfit := firstFit_alloc (s := s) hblock halign hmin horig
  exact ⟨hfit.isSome, hfit⟩

/-- The main block with its first 64 KiB page in use: a 4 KiB request meets the hypotheses, and
`alloc` places it on the next 64 KiB page. -/
theorem alloc_first_fit_main :
    (0x10000000 : UInt32).toNat + (0x10000000 : UInt32).toNat ≤ 2 ^ 32 ∧
      (0x10000 : UInt32).toNat = 2 ^ 16 ∧
      (minPageSize (Block.create 0x10000000 0x10000000 pageSize64k)).toNat ≤ (0x10000 : UInt32).toNat ∧
      (0x1000 : UInt32) ≠ 0 ∧
      ((alloc (Block.create 0x10000000 0x10000000 pageSize64k) usedFirst 0x1000 0x10000).isSome ∧
        FirstFit (Block.create 0x10000000 0x10000000 pageSize64k) usedFirst (0x10000 : UInt32).toNat
          (roundedSize (Block.create 0x10000000 0x10000000 pageSize64k) (0x1000 : UInt32).toNat)
          (alloc (Block.create 0x10000000 0x10000000 pageSize64k) usedFirst 0x1000 0x10000)) ∧
      (alloc (Block.create 0x10000000 0x10000000 pageSize64k) usedFirst 0x1000 0x10000).map
        Prod.fst = some 0x10010000 :=
  ⟨by decide, by decide, by decide, by decide,
    alloc_first_fit (k := 16) (by decide) (by decide) (by decide) (by decide), rfl⟩

/-- A request of size 0 returns 0, although the empty range fits at the block's base. -/
theorem alloc_zero_size :
    alloc (Block.create 0x10000000 0x10000000 pageSize64k) ⟨fun _ => 0, []⟩ 0 0x10000 =
        some (0, ⟨fun _ => 0, []⟩) ∧
      IsFit (Block.create 0x10000000 0x10000000 pageSize64k) (fun _ => 0) 0x10000
        (roundedSize (Block.create 0x10000000 0x10000000 pageSize64k) 0) 0x10000000 := by
  refine ⟨rfl, by decide, by decide, by decide, ?_⟩
  intro i _ _
  rfl

end Rpcs3.Memory.VmBlock
