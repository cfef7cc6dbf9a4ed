import Mathlib
import Rpcs3.Lib.Transition
import Rpcs3.Lib.Count

/-! The memory containers of `sys_memory` (`Emu/Cell/lv2/sys_memory.h`, `sys_memory.cpp`):
`sys_memory_allocate`, `sys_memory_allocate_from_container`, `sys_memory_free`,
`sys_memory_container_create` and `sys_memory_container_destroy`, with threads interleaving
between the atomic steps of their calls.

A container's `used` moves only through `take`, which refuses more than is left, `free`,
whose `ensure` fails on an underflow, and the CAS of `destroy`, so `used ≤ size` holds of
every container as it is built. The casts to `u32` in `take` never cut: it succeeds only for
an amount of at most `size - used`. Each call that takes memory holds it for a while before
it is recorded anywhere else: an allocation between `take` and the table's `exchange`,
`create` between `take` and `idm::make`; likewise `free` holds the amount it exchanged out of
the table until `ct->free`, and `destroy` the size it withdrew until `dct.free`.

The IDM holds at most 16 containers (`id_count`) and the table has one entry per 64 KiB;
containers are named by their IDM slot. `vm` places a block at a 64 KiB-aligned address whose
entry is empty (an entry is cleared before `vm::dealloc`), and the size `vm::dealloc` gives
back is the size the block was mapped with: the sizes are multiples of 64 KiB, which
`block_t::alloc` keeps. `create` and `destroy` also take `s_memstats_mtx`; the steps below
allow every interleaving without it, so what holds of them holds with it. -/
namespace Rpcs3.Lv2.Memory

open Transition Count

/-- The error codes of the calls. -/
inductive Err
  | ealign | einval | enomem | esrch | efault | ebusy | eagain
  deriving DecidableEq, Repr

def sysMemoryPageSize64k : UInt64 := 0x200
def sysMemoryPageSize1m : UInt64 := 0x400

/-- `lv2_memory_container`: its `size` and the amount `used`. -/
structure Container where
  size : ℕ
  used : ℕ
  used_le : used ≤ size

/-- `lv2_memory_container::take`. -/
def Container.take (c : Container) (amount : ℕ) : Option Container :=
  if h : c.size - c.used ≥ amount then
    some ⟨c.size, c.used + amount, by have := c.used_le; omega⟩
  else none

/-- `lv2_memory_container::free`; `none` where its `ensure` fails. -/
def Container.free (c : Container) (amount : ℕ) : Option Container :=
  if h : c.used ≥ amount then
    some ⟨c.size, c.used - amount, by have := c.used_le; omega⟩
  else none

/-- A container as `idm::make` builds it. -/
def Container.fresh (size : ℕ) : Container := ⟨size, 0, Nat.zero_le _⟩

@[simp] theorem Container.fresh_size (size : ℕ) : (Container.fresh size).size = size := rfl

@[simp] theorem Container.fresh_used (size : ℕ) : (Container.fresh size).used = 0 := rfl

/-- Where memory came from: the default container, or the container in IDM slot `i`. -/
inductive Owner
  | dflt
  | ctr (i : Fin 16)
  deriving DecidableEq

/-- Where a thread is in a call. -/
inductive Pc
  | idle
  /-- an allocation took `size` from `o` and has yet to map it; `out` says `alloc_addr` is
  set -/
  | allocating (o : Owner) (size : ℕ) (out : Bool)
  /-- an allocation with `alloc_addr` null recorded its block at `slot`, and frees it -/
  | faulted (slot : Fin 65536)
  /-- `sys_memory_free` exchanged an entry of `size` from `o` out of the table -/
  | freeing (o : Owner) (size : ℕ)
  /-- `sys_memory_container_create` took `size` from the default container -/
  | creating (size : ℕ)
  /-- `sys_memory_container_destroy` withdrew a container of `size` -/
  | destroying (size : ℕ)
  deriving DecidableEq

structure State (τ : Type) where
  dct : Container
  ctrs : Fin 16 → Option Container
  /-- `sys_memory_address_table::addrs`, with the size the block there was mapped with -/
  addrs : Fin 65536 → Option (Owner × ℕ)
  pc : τ → Pc

variable {τ : Type}

def State.container (s : State τ) : Owner → Option Container
  | .dflt => some s.dct
  | .ctr i => s.ctrs i

def State.setContainer (s : State τ) : Owner → Container → State τ
  | .dflt, c => { s with dct := c }
  | .ctr i, c => { s with ctrs := Function.update s.ctrs i (some c) }

/-- `free(amount)` on the container `o` names; `none` where it is gone or the `ensure`
fails. -/
def State.giveBack (s : State τ) (o : Owner) (amount : ℕ) : Option (State τ) :=
  match s.container o with
  | none => none
  | some c => (c.free amount).map (s.setContainer o)

/-- The checks both allocation calls make first: the alignment `flags` asks for. -/
def allocAlign (size flags : UInt64) : Except Err ℕ :=
  if size = 0 then .error .ealign
  else
    let align : ℕ :=
      if flags = sysMemoryPageSize1m then 0x100000
      else if flags = sysMemoryPageSize64k then 0x10000
      else if flags = 0 then 0x100000 else 0
    if align = 0 then .error .einval
    else if size.toNat % align ≠ 0 then .error .ealign
    else .ok align

/-- `sys_memory_allocate` (`o = dflt`) or `sys_memory_allocate_from_container` (`o = ctr i`)
up to taking the memory. -/
def allocateTake (s : State τ) (o : Owner) (size flags : UInt64) : Except Err (State τ) :=
  match allocAlign size flags with
  | .error e => .error e
  | .ok _ =>
    match s.container o with
    | none => .error .esrch
    | some c =>
      match c.take size.toNat with
      | none => .error .enomem
      | some c' => .ok (s.setContainer o c')

/-- `sys_memory_free(addr)` up to `vm::dealloc`: the entry at `addr >> 16` is exchanged for
null, and the block's owner and size come back. -/
def memoryFreeExchange (s : State τ) (addr : UInt32) : Except Err (Owner × ℕ × State τ) :=
  if addr % 0x10000 ≠ 0 then .error .einval
  else
    let k : Fin 65536 := Fin.ofNat 65536 (addr.toNat / 0x10000)
    match s.addrs k with
    | none => .error .einval
    | some (o, size) => .ok (o, size, { s with addrs := Function.update s.addrs k none })

/-- The whole of `sys_memory_free(addr)`; `none` where an `ensure` fails. -/
def memoryFree (s : State τ) (addr : UInt32) : Option (Except Err Unit × State τ) :=
  match memoryFreeExchange s addr with
  | .error e => some (.error e, s)
  | .ok (o, size, s') => (s'.giveBack o size).map fun s'' => (.ok (), s'')

/-- `sys_memory_container_create` up to `idm::make`: the size rounded down to 1 MiB, taken
from the default container. -/
def containerCreateTake (s : State τ) (size : UInt64) : Except Err (ℕ × State τ) :=
  let size := (size &&& ~~~0xfffff).toNat
  if size = 0 then .error .enomem
  else
    match s.dct.take size with
    | none => .error .enomem
    | some d => .ok (size, { s with dct := d })

/-- `sys_memory_container_destroy(cid)` up to `dct.free`: `idm::withdraw` with the CAS of
`used` from `0` to `size`, which leaves a busy container in place. -/
def containerWithdraw (s : State τ) (i : Fin 16) : Except Err (ℕ × State τ) :=
  match s.ctrs i with
  | none => .error .esrch
  | some c =>
    if c.used ≠ 0 then .error .ebusy
    else .ok (c.size, { s with ctrs := Function.update s.ctrs i none })

/-- The whole of `sys_memory_container_destroy(cid)`; `none` where the `ensure` fails. -/
def containerDestroy (s : State τ) (i : Fin 16) : Option (Except Err Unit × State τ) :=
  match containerWithdraw s i with
  | .error e => some (.error e, s)
  | .ok (size, s') => (s'.giveBack .dflt size).map fun s'' => (.ok (), s'')

/-! ### Containers -/

theorem Container.take_eq_some {c c' : Container} {n : ℕ} (h : c.take n = some c') :
    c'.size = c.size ∧ c'.used = c.used + n := by
  unfold Container.take at h
  split at h
  · cases h
    exact ⟨rfl, rfl⟩
  · cases h

theorem Container.free_eq_some {c c' : Container} {n : ℕ} (h : c.free n = some c') :
    c'.size = c.size ∧ c'.used + n = c.used := by
  unfold Container.free at h
  split at h
  · cases h
    exact ⟨rfl, by dsimp only; omega⟩
  · cases h

theorem Container.free_isSome {c : Container} {n : ℕ} (h : n ≤ c.used) :
    ∃ c', c.free n = some c' :=
  ⟨_, dif_pos h⟩

/-! ### What each part of a call does -/

theorem allocAlign_size_pos {size flags : UInt64} {a : ℕ} (h : allocAlign size flags = .ok a) :
    0 < size.toNat := by
  unfold allocAlign at h
  by_cases h0 : size = 0
  · simp [h0] at h
  · have : size.toNat ≠ 0 := fun h' => h0 (UInt64.toNat_inj.mp h')
    omega

theorem allocateTake_eq_ok {s s' : State τ} {o : Owner} {size flags : UInt64}
    (h : allocateTake s o size flags = .ok s') :
    0 < size.toNat ∧ ∃ c c', s.container o = some c ∧ c.take size.toNat = some c' ∧
      s' = s.setContainer o c' := by
  unfold allocateTake at h
  split at h
  · cases h
  · rename_i a ha
    split at h
    · cases h
    · rename_i c hc
      split at h
      · cases h
      · rename_i c' hc'
        cases h
        exact ⟨allocAlign_size_pos ha, c, c', hc, hc', rfl⟩

/-- The slot of `addr` in the table, for an address on a 64 KiB boundary. -/
theorem slot_iff (addr : UInt32) (k : Fin 65536) :
    addr % 0x10000 = 0 ∧ Fin.ofNat 65536 (addr.toNat / 0x10000) = k ↔
      addr.toNat = k.val * 0x10000 := by
  have hlt := addr.toNat_lt
  have hmod : addr % 0x10000 = 0 ↔ addr.toNat % 0x10000 = 0 := by
    rw [← UInt32.toNat_inj]
    simp
  rw [hmod, Fin.ext_iff, Fin.val_ofNat]
  omega

theorem memoryFreeExchange_eq_ok {s s' : State τ} {addr : UInt32} {o : Owner} {n : ℕ} :
    memoryFreeExchange s addr = .ok (o, n, s') ↔
      ∃ k : Fin 65536, addr.toNat = k.val * 0x10000 ∧ s.addrs k = some (o, n) ∧
        s' = { s with addrs := Function.update s.addrs k none } := by
  unfold memoryFreeExchange
  constructor
  · intro h
    split_ifs at h with hm
    dsimp only at h
    split at h
    · cases h
    · rename_i o' n' hk
      cases h
      refine ⟨_, (slot_iff addr _).mp ⟨of_not_not hm, rfl⟩, hk, rfl⟩
  · rintro ⟨k, hk, he, rfl⟩
    obtain ⟨hm, hslot⟩ := (slot_iff addr k).mpr hk
    simp only [hm, ne_eq, not_true_eq_false, if_false, hslot, he]

theorem containerCreateTake_eq_ok {s s' : State τ} {size : UInt64} {n : ℕ}
    (h : containerCreateTake s size = .ok (n, s')) :
    ∃ d, s.dct.take n = some d ∧ s' = s.setContainer .dflt d := by
  unfold containerCreateTake at h
  dsimp only at h
  split_ifs at h
  split at h
  · cases h
  · rename_i d hd
    cases h
    exact ⟨d, hd, rfl⟩

theorem containerWithdraw_eq_ok {s s' : State τ} {i : Fin 16} {n : ℕ} :
    containerWithdraw s i = .ok (n, s') ↔
      ∃ c, s.ctrs i = some c ∧ c.used = 0 ∧ n = c.size ∧
        s' = { s with ctrs := Function.update s.ctrs i none } := by
  unfold containerWithdraw
  split
  · rename_i hi
    simp [hi]
  · rename_i c hi
    by_cases hc : c.used = 0
    · simp [hi, hc, eq_comm]
    · simp [hi, hc]

/-! ### The state's containers -/

/-- The amount the container `o` has in use; `0` for a slot with none. -/
def State.usedOf (s : State τ) (o : Owner) : ℕ := ((s.container o).map Container.used).getD 0

@[simp] theorem State.container_dflt (s : State τ) : s.container .dflt = some s.dct := rfl

@[simp] theorem State.container_ctr (s : State τ) (i : Fin 16) : s.container (.ctr i) = s.ctrs i :=
  rfl

@[simp] theorem State.container_addrs (s : State τ) (a : Fin 65536 → Option (Owner × ℕ)) (o : Owner) :
    ({ s with addrs := a } : State τ).container o = s.container o := by
  cases o <;> rfl

theorem State.container_setContainer (s : State τ) (o : Owner) (c : Container) (o' : Owner) :
    (s.setContainer o c).container o' = if o' = o then some c else s.container o' := by
  cases o <;> cases o' <;> simp [State.setContainer, State.container, Function.update_apply]

@[simp] theorem State.setContainer_addrs (s : State τ) (o : Owner) (c : Container) :
    (s.setContainer o c).addrs = s.addrs := by
  cases o <;> rfl

@[simp] theorem State.setContainer_pc (s : State τ) (o : Owner) (c : Container) :
    (s.setContainer o c).pc = s.pc := by
  cases o <;> rfl

theorem State.usedOf_setContainer (s : State τ) (o : Owner) (c : Container) (o' : Owner) :
    (s.setContainer o c).usedOf o' = if o' = o then c.used else s.usedOf o' := by
  simp only [State.usedOf, State.container_setContainer]
  split_ifs <;> rfl

@[simp] theorem State.usedOf_addrs (s : State τ) (a : Fin 65536 → Option (Owner × ℕ)) (o : Owner) :
    ({ s with addrs := a } : State τ).usedOf o = s.usedOf o := by
  cases o <;> rfl

theorem State.usedOf_setCtrs (s : State τ) (i : Fin 16) (e : Option Container) (o : Owner) :
    ({ s with ctrs := Function.update s.ctrs i e } : State τ).usedOf o =
      if o = .ctr i then (e.map Container.used).getD 0 else s.usedOf o := by
  cases o with
  | dflt => rfl
  | ctr j =>
    by_cases hj : j = i
    · subst hj
      simp [State.usedOf]
    · simp [State.usedOf, hj]

theorem State.pos_of_usedOf {s : State τ} {o : Owner} (h : 0 < s.usedOf o) :
    ∃ c, s.container o = some c ∧ c.used = s.usedOf o := by
  unfold State.usedOf at *
  cases hc : s.container o with
  | none => simp [hc] at h
  | some c => exact ⟨c, rfl, rfl⟩

/-! ### The ledger -/

/-- What a table entry holds of `o`'s memory. -/
def share (o : Owner) : Option (Owner × ℕ) → ℕ
  | some (o', n) => if o = o' then n else 0
  | none => 0

/-- What a thread holds of `o`'s memory between the steps of a call. -/
def held (o : Owner) : Pc → ℕ
  | .allocating o' n _ | .freeing o' n => if o = o' then n else 0
  | .creating n | .destroying n => if o = .dflt then n else 0
  | .idle | .faulted _ => 0

/-- A live container holds its size of the default container's memory. -/
def made (o : Owner) : Option Container → ℕ
  | some c => if o = .dflt then c.size else 0
  | none => 0

theorem made_dflt (e : Option Container) : made .dflt e = (e.map Container.size).getD 0 := by
  cases e <;> rfl

theorem total_made_ctr (s : State τ) (i : Fin 16) : total (made (.ctr i)) s.ctrs = 0 :=
  total_eq_zero_iff.mpr fun j => by cases s.ctrs j <;> simp [made]

theorem giveBack_isSome {s : State τ} {o : Owner} {c : Container} {n : ℕ}
    (hc : s.container o = some c) (h : n ≤ c.used) : ∃ s', s.giveBack o n = some s' := by
  obtain ⟨c', hc'⟩ := Container.free_isSome h
  exact ⟨s.setContainer o c', by simp [State.giveBack, hc, hc']⟩

/-- The start: a default container of `size` with nothing used, no containers, an empty
table, every thread idle. -/
def init (size : UInt32) : State τ :=
  ⟨Container.fresh size.toNat, fun _ => none, fun _ => none, fun _ => .idle⟩

section Ledger

variable [Fintype τ]

/-- All of `o`'s memory that is out: in blocks, held by calls in progress, and, for the
default container, in the containers made from it. -/
def State.out (s : State τ) (o : Owner) : ℕ :=
  total (share o) s.addrs + total (held o) s.pc + total (made o) s.ctrs

theorem out_setAddrs (s : State τ) (k : Fin 65536) (e : Option (Owner × ℕ)) (o : Owner) :
    ({ s with addrs := Function.update s.addrs k e } : State τ).out o + share o (s.addrs k) =
      s.out o + share o e := by
  have := total_update (share o) s.addrs k e
  simp only [State.out]
  omega

theorem out_setCtrs (s : State τ) (i : Fin 16) (e : Option Container) (o : Owner) :
    ({ s with ctrs := Function.update s.ctrs i e } : State τ).out o + made o (s.ctrs i) =
      s.out o + made o e := by
  have := total_update (made o) s.ctrs i e
  simp only [State.out]
  omega

/-- Changing what a container has in use, not its size, leaves the ledger alone. -/
theorem out_setContainer {s : State τ} {o : Owner} {c c' : Container} (hc : s.container o = some c)
    (hsize : c'.size = c.size) (o' : Owner) : (s.setContainer o c').out o' = s.out o' := by
  cases o with
  | dflt => rfl
  | ctr i =>
    have h := out_setCtrs s i (some c') o'
    simp only [State.container_ctr] at hc
    simp only [hc, made, hsize] at h
    exact Nat.add_right_cancel h

/-! ### Giving memory back -/

/-- `s'` is `s` with `n` of `o`'s memory given back, and nothing else changed. -/
structure GaveBack (s s' : State τ) (o : Owner) (n : ℕ) : Prop where
  addrs : s'.addrs = s.addrs
  pc : s'.pc = s.pc
  used : ∀ o', s'.usedOf o' + (if o' = o then n else 0) = s.usedOf o'
  out : ∀ o', s'.out o' = s.out o'

theorem giveBack_spec {s s' : State τ} {o : Owner} {n : ℕ} (h : s.giveBack o n = some s') :
    GaveBack s s' o n := by
  unfold State.giveBack at h
  split at h
  · cases h
  · rename_i c hc
    obtain ⟨c', hfree, rfl⟩ := Option.map_eq_some_iff.mp h
    obtain ⟨hsize, hused⟩ := Container.free_eq_some hfree
    refine ⟨by simp, by simp, fun o' => ?_, out_setContainer hc hsize⟩
    rw [State.usedOf_setContainer]
    split_ifs with ho
    · subst ho
      simp only [State.usedOf, hc, Option.map_some, Option.getD_some]
      omega
    · simp

/-! ### The invariant -/

/-- A thread amid an allocation or a free holds a positive amount. -/
def Pc.Pos : Pc → Prop
  | .allocating _ n _ | .freeing _ n => 0 < n
  | _ => True

/-- The ledger balances: each container has in use exactly the memory of its that is out.
Blocks, and the amounts allocations and frees hold, are not empty. -/
structure Inv (s : State τ) : Prop where
  balance : ∀ o, s.usedOf o = s.out o
  entry_pos : ∀ k o n, s.addrs k = some (o, n) → 0 < n
  pc_pos : ∀ t, (s.pc t).Pos

theorem Inv.held_le {s : State τ} (hs : Inv s) (t : τ) (o : Owner) : held o (s.pc t) ≤ s.usedOf o := by
  have := le_total (held o) s.pc t
  rw [hs.balance, State.out]
  omega

theorem Inv.share_le {s : State τ} (hs : Inv s) (k : Fin 65536) (o : Owner) :
    share o (s.addrs k) ≤ s.usedOf o := by
  have := le_total (share o) s.addrs k
  rw [hs.balance, State.out]
  omega

/-- What a call in progress holds, it can give back: no `ensure` of `free` fails. -/
theorem Inv.giveBack_held {s : State τ} (hs : Inv s) (t : τ) (o : Owner) (h : 0 < held o (s.pc t)) :
    ∃ s', s.giveBack o (held o (s.pc t)) = some s' := by
  have hle := hs.held_le t o
  obtain ⟨c, hc, hused⟩ := State.pos_of_usedOf (Nat.lt_of_lt_of_le h hle)
  exact giveBack_isSome hc (hused ▸ hle)

theorem Inv.made_le {s : State τ} (hs : Inv s) (i : Fin 16) : made .dflt (s.ctrs i) ≤ s.dct.used := by
  have := le_total (made .dflt) s.ctrs i
  have h := hs.balance .dflt
  rw [State.out] at h
  simp only [State.usedOf, State.container_dflt, Option.map_some, Option.getD_some] at h
  omega

/-- A container has nothing in use exactly when no block in the table and no call in progress
has memory of it. -/
theorem Inv.used_eq_zero_iff {s : State τ} (hs : Inv s) {i : Fin 16} {c : Container}
    (hi : s.ctrs i = some c) :
    c.used = 0 ↔ (∀ k n, s.addrs k ≠ some (.ctr i, n)) ∧ ∀ t, held (.ctr i) (s.pc t) = 0 := by
  have h := hs.balance (.ctr i)
  simp only [State.usedOf, State.container_ctr, hi, Option.map_some, Option.getD_some, State.out,
    total_made_ctr, add_zero] at h
  rw [h, Nat.add_eq_zero_iff, total_eq_zero_iff, total_eq_zero_iff]
  refine and_congr (forall_congr' fun k => ?_) Iff.rfl
  -- an entry of `ctr i` has a positive size, so it weighs
  constructor
  · intro h0 n hk
    rw [hk] at h0
    simp only [share, if_true] at h0
    exact (hs.entry_pos k _ n hk).ne' h0
  · intro hne
    cases hk : s.addrs k with
    | none => rfl
    | some e =>
      obtain ⟨o, n⟩ := e
      simp only [share]
      split_ifs with ho
      · subst ho
        exact absurd hk (hne n)
      · rfl

/-- With no call in progress, the ledger is the accounting the calls keep between them. -/
theorem Inv.quiescent {s : State τ} (hs : Inv s) (hidle : ∀ t, s.pc t = .idle) :
    s.dct.used = ∑ i, ((s.ctrs i).map Container.size).getD 0 + ∑ k, share .dflt (s.addrs k) ∧
      ∀ i c, s.ctrs i = some c → c.used = ∑ k, share (.ctr i) (s.addrs k) := by
  have hheld : ∀ o, total (held o) s.pc = 0 := fun o =>
    total_eq_zero_iff.mpr fun t => by rw [hidle t]; rfl
  constructor
  · have h := hs.balance .dflt
    simp only [State.usedOf, State.container_dflt, Option.map_some, Option.getD_some, State.out,
      hheld, add_zero] at h
    rw [h, add_comm]
    simp only [total, made_dflt]
  · intro i c hi
    have h := hs.balance (.ctr i)
    simp only [State.usedOf, State.container_ctr, hi, Option.map_some, Option.getD_some, State.out,
      hheld, total_made_ctr, add_zero] at h
    exact h

/-- `sys_memory_free(addr)` from a state of the invariant: no `ensure` fails; it succeeds
exactly at the address of a block in the table, gives that block's size back to the container
it came from, and a failed call changes nothing. -/
theorem Inv.memoryFree_spec {s : State τ} (hs : Inv s) (addr : UInt32) :
    ∃ r s', memoryFree s addr = some (r, s') ∧
      (r = .ok () ↔ ∃ k o n, s.addrs k = some (o, n) ∧ addr.toNat = k.val * 0x10000) ∧
      (∀ k o n, s.addrs k = some (o, n) → addr.toNat = k.val * 0x10000 →
        GaveBack { s with addrs := Function.update s.addrs k none } s' o n) ∧
      (r ≠ .ok () → s' = s) := by
  cases he : memoryFreeExchange s addr with
  | error e =>
    have hnone : ∀ k o n, s.addrs k = some (o, n) → addr.toNat ≠ k.val * 0x10000 := by
      intro k o n hk ha
      have := memoryFreeExchange_eq_ok.mpr ⟨k, ha, hk, rfl⟩
      rw [he] at this
      cases this
    refine ⟨.error e, s, by simp [memoryFree, he], ?_, fun k o n hk ha => absurd ha (hnone k o n hk),
      fun _ => rfl⟩
    constructor
    · intro h
      cases h
    · rintro ⟨k, o, n, hk, ha⟩
      exact absurd ha (hnone k o n hk)
  | ok v =>
    obtain ⟨o, n, s₁⟩ := v
    obtain ⟨k, ha, hk, rfl⟩ := memoryFreeExchange_eq_ok.mp he
    -- the block's size is out of its container, so `free` finds that much in use
    have hle : n ≤ s.usedOf o := by simpa [share, hk] using hs.share_le k o
    obtain ⟨c, hc, hused⟩ := State.pos_of_usedOf (Nat.lt_of_lt_of_le (hs.entry_pos k o n hk) hle)
    obtain ⟨s', hg⟩ := giveBack_isSome (s := { s with addrs := Function.update s.addrs k none })
      (by simpa using hc) (hused ▸ hle)
    refine ⟨.ok (), s', by simp [memoryFree, he, hg], iff_of_true rfl ⟨k, o, n, hk, ha⟩, ?_,
      fun h => absurd rfl h⟩
    intro k' o' n' hk' ha'
    obtain rfl : k' = k := Fin.ext (by omega)
    rw [hk] at hk'
    cases hk'
    exact giveBack_spec hg

/-- `sys_memory_container_destroy(cid)` from a state of the invariant: no `ensure` fails; it
succeeds exactly for a live container of which no block and no call in progress has memory,
gives its whole size back to the default container, and a failed call changes nothing. -/
theorem Inv.containerDestroy_spec {s : State τ} (hs : Inv s) (i : Fin 16) :
    ∃ r s', containerDestroy s i = some (r, s') ∧
      (r = .ok () ↔ ∃ c, s.ctrs i = some c ∧ (∀ k n, s.addrs k ≠ some (.ctr i, n)) ∧
        ∀ t, held (.ctr i) (s.pc t) = 0) ∧
      (∀ c, s.ctrs i = some c → r = .ok () →
        GaveBack { s with ctrs := Function.update s.ctrs i none } s' .dflt c.size) ∧
      (r ≠ .ok () → s' = s) := by
  cases hw : containerWithdraw s i with
  | error e =>
    refine ⟨.error e, s, by simp [containerDestroy, hw], ⟨fun h => (by cases h), ?_⟩,
      fun _ _ h => (by cases h), fun _ => rfl⟩
    rintro ⟨c, hi, hfree⟩
    have := containerWithdraw_eq_ok.mpr ⟨c, hi, (hs.used_eq_zero_iff hi).mpr hfree, rfl, rfl⟩
    rw [hw] at this
    cases this
  | ok v =>
    obtain ⟨n, s₁⟩ := v
    obtain ⟨c, hi, hc, rfl, rfl⟩ := containerWithdraw_eq_ok.mp hw
    -- the container's size is out of the default container
    have hle : c.size ≤ s.dct.used := by simpa [made, hi] using hs.made_le i
    obtain ⟨s', hg⟩ := giveBack_isSome (s := { s with ctrs := Function.update s.ctrs i none })
      (o := .dflt) rfl hle
    refine ⟨.ok (), s', by simp [containerDestroy, hw, hg],
      iff_of_true rfl ⟨c, hi, (hs.used_eq_zero_iff hi).mp hc⟩, ?_, fun h => absurd rfl h⟩
    intro c' hi' _
    rw [hi] at hi'
    cases hi'
    exact giveBack_spec hg

theorem inv_init (size : UInt32) : Inv (init size : State τ) where
  balance o := by
    have hs : total (share o) (fun _ : Fin 65536 => none) = 0 := total_eq_zero_iff.mpr fun _ => rfl
    have hh : total (held o) (fun _ : τ => Pc.idle) = 0 := total_eq_zero_iff.mpr fun _ => rfl
    have hm : total (made o) (fun _ : Fin 16 => none) = 0 := total_eq_zero_iff.mpr fun _ => rfl
    cases o <;> simp [State.usedOf, State.out, init, Container.fresh, hs, hh, hm]
  entry_pos := by simp [init]
  pc_pos _ := trivial

end Ledger

variable [DecidableEq τ]

def State.setPc (s : State τ) (t : τ) (p : Pc) : State τ :=
  { s with pc := Function.update s.pc t p }

@[simp] theorem State.setPc_addrs (s : State τ) (t : τ) (p : Pc) : (s.setPc t p).addrs = s.addrs :=
  rfl

@[simp] theorem State.usedOf_setPc (s : State τ) (t : τ) (p : Pc) (o : Owner) :
    (s.setPc t p).usedOf o = s.usedOf o := by
  cases o <;> rfl

theorem pc_pos_setPc {s : State τ} (h : ∀ t, (s.pc t).Pos) {t : τ} {p : Pc} (hp : p.Pos) (t' : τ) :
    ((s.setPc t p).pc t').Pos := by
  by_cases ht : t' = t
  · subst ht
    simpa [State.setPc] using hp
  · simpa [State.setPc, Function.update_of_ne ht] using h t'

/-- The atomic steps of the calls, taken by thread `t`. A call that returns an error before
changing anything takes no step. -/
inductive Step : State τ → τ → State τ → Prop
  | allocTake {s s' : State τ} {t : τ} (o : Owner) (size flags : UInt64) (out : Bool) :
      s.pc t = .idle → allocateTake s o size flags = .ok s' →
      Step s t (s'.setPc t (.allocating o size.toNat out))
  /-- `reserve_map` and `area->alloc` give a block at slot `k`, and the table records it -/
  | allocMap {s : State τ} {t : τ} (o : Owner) (size : ℕ) (out : Bool) (k : Fin 65536) :
      s.pc t = .allocating o size out → s.addrs k = none →
      Step s t ({ s with addrs := Function.update s.addrs k (some (o, size)) }.setPc t
        (if out then .idle else .faulted k))
  /-- no block: the amount goes back, and the call returns `CELL_ENOMEM` -/
  | allocNoMap {s s' : State τ} {t : τ} (o : Owner) (size : ℕ) (out : Bool) :
      s.pc t = .allocating o size out → s.giveBack o size = some s' → Step s t (s'.setPc t .idle)
  | freeExchange {s s' : State τ} {t : τ} (addr : UInt32) (o : Owner) (size : ℕ) :
      s.pc t = .idle → memoryFreeExchange s addr = .ok (o, size, s') →
      Step s t (s'.setPc t (.freeing o size))
  /-- the `sys_memory_free` of an allocation whose `alloc_addr` is null -/
  | faultExchange {s s' : State τ} {t : τ} (k : Fin 65536) (o : Owner) (size : ℕ) :
      s.pc t = .faulted k → memoryFreeExchange s (UInt32.ofNat (k.val * 0x10000)) = .ok (o, size, s') →
      Step s t (s'.setPc t (.freeing o size))
  /-- another thread freed the block first: `CELL_EFAULT` all the same -/
  | faultLost {s : State τ} {t : τ} (k : Fin 65536) (e : Err) :
      s.pc t = .faulted k → memoryFreeExchange s (UInt32.ofNat (k.val * 0x10000)) = .error e →
      Step s t (s.setPc t .idle)
  | freeGiveBack {s s' : State τ} {t : τ} (o : Owner) (size : ℕ) :
      s.pc t = .freeing o size → s.giveBack o size = some s' → Step s t (s'.setPc t .idle)
  | createTake {s s' : State τ} {t : τ} (size : UInt64) (n : ℕ) :
      s.pc t = .idle → containerCreateTake s size = .ok (n, s') → Step s t (s'.setPc t (.creating n))
  /-- `idm::make` places the container in a free slot -/
  | createMake {s : State τ} {t : τ} (size : ℕ) (i : Fin 16) :
      s.pc t = .creating size → s.ctrs i = none →
      Step s t ({ s with ctrs := Function.update s.ctrs i (some (Container.fresh size)) }.setPc t .idle)
  /-- `idm::make` finds no free slot: the amount goes back, and the call returns
  `CELL_EAGAIN` -/
  | createFail {s s' : State τ} {t : τ} (size : ℕ) :
      s.pc t = .creating size → (∀ i, s.ctrs i ≠ none) → s.giveBack .dflt size = some s' →
      Step s t (s'.setPc t .idle)
  | destroyWithdraw {s s' : State τ} {t : τ} (i : Fin 16) (size : ℕ) :
      s.pc t = .idle → containerWithdraw s i = .ok (size, s') → Step s t (s'.setPc t (.destroying size))
  | destroyGiveBack {s s' : State τ} {t : τ} (size : ℕ) :
      s.pc t = .destroying size → s.giveBack .dflt size = some s' → Step s t (s'.setPc t .idle)

variable [Fintype τ]

theorem out_setPc (s : State τ) (t : τ) (p : Pc) (o : Owner) :
    (s.setPc t p).out o + held o (s.pc t) = s.out o + held o p := by
  have := total_update (held o) s.pc t p
  simp only [State.out, State.setPc]
  omega


section Steps

variable {s : State τ} {t : τ} {o : Owner} {n : ℕ}

/-- `take` from `o`, with the amount then held by `t`. -/
theorem Inv.take {c c' : Container} {p : Pc} (hs : Inv s) (hp : s.pc t = .idle)
    (hc : s.container o = some c) (ht : c.take n = some c')
    (hheld : ∀ o', held o' p = if o' = o then n else 0) (hpos : p.Pos) :
    Inv ((s.setContainer o c').setPc t p) where
  balance o' := by
    obtain ⟨hsize, hused⟩ := Container.take_eq_some ht
    have hout := out_setPc (s.setContainer o c') t p o'
    rw [State.setContainer_pc, hp, hheld, out_setContainer hc hsize, ← hs.balance] at hout
    rw [State.usedOf_setPc, State.usedOf_setContainer]
    split_ifs at hout ⊢ with ho
    · subst ho
      simp only [State.usedOf, hc, Option.map_some, Option.getD_some, held] at hout
      omega
    · simp only [held] at hout
      omega
  entry_pos := by simpa using hs.entry_pos
  pc_pos := pc_pos_setPc (by simpa using hs.pc_pos) hpos

/-- The table records the block an allocation holds. -/
theorem Inv.allocMap {b : Bool} {k : Fin 65536} (hs : Inv s) (hp : s.pc t = .allocating o n b)
    (hk : s.addrs k = none) :
    Inv ({ s with addrs := Function.update s.addrs k (some (o, n)) }.setPc t
      (if b then .idle else .faulted k)) where
  balance o' := by
    have h₁ := out_setPc { s with addrs := Function.update s.addrs k (some (o, n)) } t
      (if b then .idle else .faulted k) o'
    have h₂ := out_setAddrs s k (some (o, n)) o'
    have hb : held o' (if b then .idle else .faulted k) = 0 := by cases b <;> rfl
    simp only [hp, hb, hk] at h₁ h₂
    simp only [State.usedOf_setPc, State.usedOf_addrs, hs.balance]
    simp only [held, share] at h₁ h₂
    omega
  entry_pos k' o' n' := by
    by_cases hk' : k' = k
    · subst hk'
      have := hs.pc_pos t
      simp only [hp, Pc.Pos] at this
      simp only [State.setPc_addrs, Function.update_self, Option.some.injEq, Prod.mk.injEq]
      rintro ⟨-, rfl⟩
      exact this
    · simpa [Function.update_of_ne hk'] using hs.entry_pos k' o' n'
  pc_pos := pc_pos_setPc hs.pc_pos (by cases b <;> trivial)

/-- A call gives back all it holds and returns. -/
theorem Inv.giveBack {s' : State τ} (hs : Inv s) (hg : s.giveBack o n = some s')
    (hheld : ∀ o', held o' (s.pc t) = if o' = o then n else 0) : Inv (s'.setPc t .idle) where
  balance o' := by
    have hg' := giveBack_spec hg
    have hout := out_setPc s' t .idle o'
    have hused := hg'.used o'
    rw [hg'.pc, hheld, hg'.out, ← hs.balance] at hout
    rw [State.usedOf_setPc]
    simp only [held] at hout
    split_ifs at hout hused <;> omega
  entry_pos := by
    rw [State.setPc_addrs, (giveBack_spec hg).addrs]
    exact hs.entry_pos
  pc_pos := pc_pos_setPc (by rw [(giveBack_spec hg).pc]; exact hs.pc_pos) trivial

/-- `sys_memory_free` takes the entry out of the table and holds its amount. -/
theorem Inv.exchange {k : Fin 65536} (hs : Inv s) (hp : ∀ o', held o' (s.pc t) = 0)
    (hk : s.addrs k = some (o, n)) :
    Inv ({ s with addrs := Function.update s.addrs k none }.setPc t (.freeing o n)) where
  balance o' := by
    have h₁ := out_setPc { s with addrs := Function.update s.addrs k none } t (.freeing o n) o'
    have h₂ := out_setAddrs s k none o'
    simp only [hp, hk] at h₁ h₂
    simp only [State.usedOf_setPc, State.usedOf_addrs, hs.balance]
    simp only [held, share] at h₁ h₂
    omega
  entry_pos k' o' n' := by
    by_cases hk' : k' = k
    · subst hk'
      simp
    · simpa [Function.update_of_ne hk'] using hs.entry_pos k' o' n'
  pc_pos := pc_pos_setPc hs.pc_pos (hs.entry_pos k o n hk)

/-- A thread that holds nothing returns. -/
theorem Inv.setIdle (hs : Inv s) (hp : ∀ o', held o' (s.pc t) = 0) : Inv (s.setPc t .idle) where
  balance o' := by
    have h := out_setPc s t .idle o'
    rw [hp] at h
    simp only [held] at h
    rw [State.usedOf_setPc, hs.balance]
    omega
  entry_pos := hs.entry_pos
  pc_pos := pc_pos_setPc hs.pc_pos trivial

/-- `idm::make` turns the amount `create` holds into a live container. -/
theorem Inv.createMake {i : Fin 16} (hs : Inv s) (hp : s.pc t = .creating n) (hi : s.ctrs i = none) :
    Inv ({ s with ctrs := Function.update s.ctrs i (some (Container.fresh n)) }.setPc t .idle) where
  balance o' := by
    have h₁ := out_setPc { s with ctrs := Function.update s.ctrs i (some (Container.fresh n)) } t
      .idle o'
    have h₂ := out_setCtrs s i (some (Container.fresh n)) o'
    rw [hp] at h₁
    rw [hi] at h₂
    rw [State.usedOf_setPc, State.usedOf_setCtrs]
    cases o' with
    | dflt =>
      simp only [held, made, if_true, Container.fresh_size] at h₁ h₂
      simp only [reduceCtorEq, if_false, hs.balance]
      omega
    | ctr j =>
      simp only [held, made, reduceCtorEq, if_false] at h₁ h₂
      split_ifs with hj
      · -- the new container: none of it is out yet
        obtain rfl := Owner.ctr.inj hj
        have h₃ := hs.balance (.ctr j)
        simp only [State.usedOf, State.container_ctr, hi, Option.map_none, Option.getD_none] at h₃
        simp only [Option.map_some, Option.getD_some, Container.fresh_used]
        omega
      · rw [hs.balance]
        omega
  entry_pos := hs.entry_pos
  pc_pos := pc_pos_setPc hs.pc_pos trivial

/-- `idm::withdraw` of an idle container: `destroy` holds its size. -/
theorem Inv.withdraw {i : Fin 16} {c : Container} (hs : Inv s) (hp : s.pc t = .idle)
    (hi : s.ctrs i = some c) (hc : c.used = 0) :
    Inv ({ s with ctrs := Function.update s.ctrs i none }.setPc t (.destroying c.size)) where
  balance o' := by
    have h₁ := out_setPc { s with ctrs := Function.update s.ctrs i none } t (.destroying c.size) o'
    have h₂ := out_setCtrs s i none o'
    rw [hp] at h₁
    rw [hi] at h₂
    rw [State.usedOf_setPc, State.usedOf_setCtrs]
    cases o' with
    | dflt =>
      simp only [held, made, if_true] at h₁ h₂
      simp only [reduceCtorEq, if_false, hs.balance]
      omega
    | ctr j =>
      simp only [held, made, reduceCtorEq, if_false] at h₁ h₂
      split_ifs with hj
      · obtain rfl := Owner.ctr.inj hj
        have h₃ := hs.balance (.ctr j)
        simp only [State.usedOf, State.container_ctr, hi, Option.map_some, Option.getD_some, hc] at h₃
        simp only [Option.map_none, Option.getD_none]
        omega
      · rw [hs.balance]
        omega
  entry_pos := hs.entry_pos
  pc_pos := pc_pos_setPc hs.pc_pos trivial

end Steps

theorem Inv.step {s s' : State τ} {t : τ} (hs : Inv s) (h : Step s t s') : Inv s' := by
  cases h with
  | allocTake o size flags out hp ha =>
    obtain ⟨hpos, c, c', hc, ht, rfl⟩ := allocateTake_eq_ok ha
    exact hs.take hp hc ht (fun o' => rfl) hpos
  | allocMap o size out k hp hk => exact hs.allocMap hp hk
  | allocNoMap o size out hp hg => exact hs.giveBack hg (fun o' => by rw [hp]; rfl)
  | freeExchange addr o size hp he =>
    obtain ⟨k, -, hk, rfl⟩ := memoryFreeExchange_eq_ok.mp he
    exact hs.exchange (fun o' => by rw [hp]; rfl) hk
  | faultExchange k o size hp he =>
    obtain ⟨k', -, hk, rfl⟩ := memoryFreeExchange_eq_ok.mp he
    exact hs.exchange (fun o' => by rw [hp]; rfl) hk
  | faultLost k e hp he => exact hs.setIdle (fun o' => by rw [hp]; rfl)
  | freeGiveBack o size hp hg => exact hs.giveBack hg (fun o' => by rw [hp]; rfl)
  | createTake size n hp hc =>
    obtain ⟨d, hd, rfl⟩ := containerCreateTake_eq_ok hc
    exact hs.take hp rfl hd (fun o' => rfl) trivial
  | createMake size i hp hi => exact hs.createMake hp hi
  | createFail size hp hfull hg => exact hs.giveBack hg (fun o' => by rw [hp]; rfl)
  | destroyWithdraw i size hp hw =>
    obtain ⟨c, hi, hc, rfl, rfl⟩ := containerWithdraw_eq_ok.mp hw
    exact hs.withdraw hp hi hc
  | destroyGiveBack size hp hg => exact hs.giveBack hg (fun o' => by rw [hp]; rfl)

theorem Inv.of_reachable {size : UInt32} {s : State τ} (h : Reachable (· = init size) Step s) :
    Inv s :=
  h.invariant (fun _ h₀ => h₀ ▸ inv_init size) (fun _ _ _ hs hst => hs.step hst)

/-- Every interleaving of the calls keeps the accounting of physical memory. At every point,
each container has in use exactly its memory that is out, in blocks or held by calls in
progress; between calls that is the sum of the live containers and blocks. `used ≤ size`
holds, no `ensure` of `free` fails, `sys_memory_free` succeeds exactly at the address of a
block and gives its size back to the container it came from, and
`sys_memory_container_destroy` succeeds exactly for a container of which nothing is out and
gives its whole size back to the default container. -/
theorem memory_accounting {size : UInt32} {s : State τ} (hs : Reachable (· = init size) Step s) :
    (∀ o, s.usedOf o = s.out o) ∧
    ((∀ t, s.pc t = .idle) →
      s.dct.used = ∑ i, ((s.ctrs i).map Container.size).getD 0 + ∑ k, share .dflt (s.addrs k) ∧
      ∀ i c, s.ctrs i = some c → c.used = ∑ k, share (.ctr i) (s.addrs k)) ∧
    (∀ o c, s.container o = some c → c.used ≤ c.size) ∧
    (∀ t o, 0 < held o (s.pc t) → ∃ s', s.giveBack o (held o (s.pc t)) = some s') ∧
    (∀ addr, ∃ r s', memoryFree s addr = some (r, s') ∧
      (r = .ok () ↔ ∃ k o n, s.addrs k = some (o, n) ∧ addr.toNat = k.val * 0x10000) ∧
      (∀ k o n, s.addrs k = some (o, n) → addr.toNat = k.val * 0x10000 →
        GaveBack { s with addrs := Function.update s.addrs k none } s' o n) ∧
      (r ≠ .ok () → s' = s)) ∧
    ∀ i, ∃ r s', containerDestroy s i = some (r, s') ∧
      (r = .ok () ↔ ∃ c, s.ctrs i = some c ∧ (∀ k n, s.addrs k ≠ some (.ctr i, n)) ∧
        ∀ t, held (.ctr i) (s.pc t) = 0) ∧
      (∀ c, s.ctrs i = some c → r = .ok () →
        GaveBack { s with ctrs := Function.update s.ctrs i none } s' .dflt c.size) ∧
      (r ≠ .ok () → s' = s) := by
  have hi := Inv.of_reachable hs
  exact ⟨hi.balance, hi.quiescent, fun _ c _ => c.used_le, hi.giveBack_held, hi.memoryFree_spec,
    hi.containerDestroy_spec⟩

theorem memory_accounting_one_block :
    let s : State Unit :=
      { ((init 0x1000000 : State Unit).setContainer .dflt ⟨0x1000000, 0x100000, by decide⟩).setPc ()
          (.allocating .dflt 0x100000 true) with
        addrs := Function.update (fun _ => none) 0x10 (some (.dflt, 0x100000)) }.setPc () .idle
    Reachable (· = init 0x1000000) Step s ∧
      (∀ o, s.usedOf o = s.out o) ∧
      ((∀ t, s.pc t = .idle) →
        s.dct.used = ∑ i, ((s.ctrs i).map Container.size).getD 0 + ∑ k, share .dflt (s.addrs k) ∧
        ∀ i c, s.ctrs i = some c → c.used = ∑ k, share (.ctr i) (s.addrs k)) ∧
      (∀ o c, s.container o = some c → c.used ≤ c.size) ∧
      (∀ t o, 0 < held o (s.pc t) → ∃ s', s.giveBack o (held o (s.pc t)) = some s') ∧
      (∀ addr, ∃ r s', memoryFree s addr = some (r, s') ∧
        (r = .ok () ↔ ∃ k o n, s.addrs k = some (o, n) ∧ addr.toNat = k.val * 0x10000) ∧
        (∀ k o n, s.addrs k = some (o, n) → addr.toNat = k.val * 0x10000 →
          GaveBack { s with addrs := Function.update s.addrs k none } s' o n) ∧
        (r ≠ .ok () → s' = s)) ∧
      ∀ i, ∃ r s', containerDestroy s i = some (r, s') ∧
        (r = .ok () ↔ ∃ c, s.ctrs i = some c ∧ (∀ k n, s.addrs k ≠ some (.ctr i, n)) ∧
          ∀ t, held (.ctr i) (s.pc t) = 0) ∧
        (∀ c, s.ctrs i = some c → r = .ok () →
          GaveBack { s with ctrs := Function.update s.ctrs i none } s' .dflt c.size) ∧
        (r ≠ .ok () → s' = s) := by
  intro s
  have h₀ : Reachable (· = init 0x1000000) Step (init 0x1000000 : State Unit) := Reachable.of_init rfl
  have h₁ : Reachable (· = init 0x1000000) Step
      (((init 0x1000000 : State Unit).setContainer .dflt ⟨0x1000000, 0x100000, by decide⟩).setPc ()
        (.allocating .dflt 0x100000 true)) :=
    h₀.next (Step.allocTake .dflt 0x100000 0x400 true rfl rfl)
  have h₂ : Reachable (· = init 0x1000000) Step s :=
    h₁.next (Step.allocMap .dflt 0x100000 true 0x10 rfl rfl)
  exact ⟨h₂, memory_accounting h₂⟩

/-- A container with no block can still be busy: between its `take` and giving the amount back,
an allocation that fails holds memory of it, and `sys_memory_container_destroy` returns
`CELL_EBUSY`. -/
theorem destroy_busy_without_block :
    let s₁ : State Unit :=
      { (init 0x1000000 : State Unit) with dct := ⟨0x1000000, 0x100000, by decide⟩ }.setPc ()
        (.creating 0x100000)
    let s₂ : State Unit :=
      { s₁ with ctrs := Function.update s₁.ctrs 0 (some (Container.fresh 0x100000)) }.setPc () .idle
    let s : State Unit := (s₂.setContainer (.ctr 0) ⟨0x100000, 0x100000, le_refl _⟩).setPc ()
      (.allocating (.ctr 0) 0x100000 true)
    Reachable (· = init 0x1000000) Step s ∧ s.addrs = (fun _ => none) ∧
      containerDestroy s 0 = some (.error .ebusy, s) ∧
      ∃ s', Step s () s' ∧ s'.pc () = .idle ∧ s'.addrs = (fun _ => none) := by
  intro s₁ s₂ s
  have h₀ : Reachable (· = init 0x1000000) Step (init 0x1000000 : State Unit) := Reachable.of_init rfl
  have h₁ : Reachable (· = init 0x1000000) Step s₁ :=
    h₀.next (Step.createTake 0x100000 0x100000 rfl rfl)
  have h₂ : Reachable (· = init 0x1000000) Step s₂ := h₁.next (Step.createMake 0x100000 0 rfl rfl)
  have h₃ : Reachable (· = init 0x1000000) Step s :=
    h₂.next (Step.allocTake (.ctr 0) 0x100000 0x400 true rfl rfl)
  exact ⟨h₃, rfl, rfl, _, Step.allocNoMap (.ctr 0) 0x100000 true rfl rfl, rfl, rfl⟩

end Rpcs3.Lv2.Memory
