import Rpcs3.Lib.Select
import Mathlib

/-! The part of `lv2_obj` (sys_sync.h) that every lv2 synchronisation object
shares: its sleep queues and the order in which `schedule` takes threads out
of them. A sleep queue is a singly linked list of PPU threads linked through
`next_cpu`, newest first; here it is the list of their ids. `emplace` pushes
at the head and stamps the thread with a fresh order tag, `unqueue` removes a
given thread, and `schedule` removes the thread the protocol picks: the oldest
for `SYS_SYNC_FIFO`, otherwise the lowest priority value with ties to the
oldest. Savestates (`cpu_flag::again`, `preserve_bit`) are outside the model. -/
namespace Rpcs3.Lv2.Sync

/-- `lv2_protocol`, the waiting policy of an object. -/
inductive Lv2Protocol where
  | fifo
  | priority
  | priorityInherit
  | retry
  deriving DecidableEq, Repr

/-- The `CellError` codes the synchronisation calls return; `ok` is `CELL_OK`. -/
inductive CellError where
  | ok
  | eagain
  | einval
  | esrch
  | edeadlk
  | eperm
  | ebusy
  | etimedout
  | efault
  | ekresource
  | ecanceled
  | enotconn
  deriving DecidableEq, Repr

/-- A PPU thread id. Ids are never zero, which lets an owner word use 0 for
"nobody". -/
structure PpuId where
  id : Nat
  pos : 0 < id
  deriving DecidableEq

theorem PpuId.id_ne_zero (t : PpuId) : t.id ≠ 0 := Nat.pos_iff_ne_zero.mp t.pos

/-- Small thread ids are positive. Each fact is a named theorem, so that the definitions of
threads with these ids hold no proof of their own. -/
theorem PpuId.pos_three : 0 < 3 := by decide
theorem PpuId.pos_four : 0 < 4 := by decide
theorem PpuId.pos_five : 0 < 5 := by decide

theorem PpuId.ext_id {t u : PpuId} (h : t.id = u.id) : t = u := by
  cases t
  cases u
  cases h
  rfl

/-- `ppu_thread::ppu_prio_t`: the scheduling priority and the enqueue order. -/
structure PpuPrio where
  prio : Int
  order : Nat
  deriving DecidableEq, Repr

/-- The comparison of the priority scan in `lv2_obj::schedule`: a lower
priority value wins, and between equal values the earlier enqueue wins. -/
def PpuPrio.before (a b : PpuPrio) : Bool :=
  decide (a.prio < b.prio) || (decide (a.prio = b.prio) && decide (a.order < b.order))

/-- The `(prio, order)` pair, in the lexicographic order that `before` compares by. -/
def PpuPrio.key (a : PpuPrio) : Lex (Int × Nat) := toLex (a.prio, a.order)

theorem PpuPrio.before_iff (a b : PpuPrio) : a.before b = true ↔ a.key < b.key := by
  simp [PpuPrio.before, PpuPrio.key, Prod.Lex.toLex_lt_toLex]

/-- The scheduler data the sleep queues read: `g_priority_order_tag` and each
thread's `prio`. -/
structure PrioTable where
  tag : Nat
  prio : PpuId → PpuPrio

/-- The order stamp `emplace` (and `lv2_mutex::try_own`) gives a thread:
`prio.order = ++g_priority_order_tag`. -/
def PrioTable.stamp (p : PrioTable) (t : PpuId) : PrioTable where
  tag := p.tag + 1
  prio := Function.update p.prio t { p.prio t with order := p.tag + 1 }

/-- A stamp changes the order tag only, never a priority. -/
@[simp] theorem PrioTable.stamp_prio_prio (p : PrioTable) (t u : PpuId) :
    ((p.stamp t).prio u).prio = (p.prio u).prio := by
  by_cases h : u = t
  · subst h
    simp [PrioTable.stamp]
  · simp [PrioTable.stamp, h]

/-- `lv2_obj::emplace`: the thread becomes the head of the queue. -/
def emplace (first : List PpuId) (object : PpuId) : List PpuId :=
  object :: first

/-- `lv2_obj::unqueue`: the queue without `object`, or `none` when the thread
is not in it. -/
def unqueue (first : List PpuId) (object : PpuId) : Option (List PpuId) :=
  if object ∈ first then some (first.erase object) else none

/-- `lv2_obj::schedule`: the thread the protocol takes out of the queue. FIFO
walks to the tail (the oldest node); every other protocol keeps the first
node that no later node beats in `PpuPrio.before`. -/
def schedule (protocol : Lv2Protocol) (prio : PpuId → PpuPrio) (first : List PpuId) :
    Option PpuId :=
  if protocol = .fifo then first.getLast?
  else Select.scanBest (fun a b => (prio a).before (prio b)) first

@[simp] theorem schedule_nil (protocol : Lv2Protocol) (prio : PpuId → PpuPrio) :
    schedule protocol prio [] = none := by
  unfold schedule
  split <;> rfl

theorem schedule_mem {protocol : Lv2Protocol} {prio : PpuId → PpuPrio}
    {first : List PpuId} {t : PpuId} (h : schedule protocol prio first = some t) :
    t ∈ first := by
  unfold schedule at h
  split at h
  · exact List.mem_of_getLast? h
  · exact Select.scanBest_mem h

theorem schedule_isSome (protocol : Lv2Protocol) (prio : PpuId → PpuPrio)
    {first : List PpuId} (h : first ≠ []) : ∃ t, schedule protocol prio first = some t := by
  unfold schedule
  split
  · cases hl : first.getLast? with
    | none => exact absurd (List.getLast?_eq_none_iff.mp hl) h
    | some t => exact ⟨t, rfl⟩
  · exact Select.scanBest_isSome _ h

theorem schedule_eq_none {protocol : Lv2Protocol} {prio : PpuId → PpuPrio}
    {first : List PpuId} (h : schedule protocol prio first = none) : first = [] := by
  by_contra hne
  obtain ⟨t, ht⟩ := schedule_isSome protocol prio hne
  rw [h] at ht
  cases ht

theorem unqueue_of_mem {first : List PpuId} {object : PpuId} (h : object ∈ first) :
    unqueue first object = some (first.erase object) := by
  simp [unqueue, h]

theorem unqueue_of_not_mem {first : List PpuId} {object : PpuId} (h : object ∉ first) :
    unqueue first object = none := by
  simp [unqueue, h]

/-! Removing a thread from a duplicate-free queue keeps every other thread in
it; these are the facts the object invariants use about queue edits. -/

theorem mem_erase_iff {q : List PpuId} (hq : q.Nodup) {t u : PpuId} :
    t ∈ q.erase u ↔ t ≠ u ∧ t ∈ q :=
  hq.mem_erase_iff

theorem not_mem_erase_self {q : List PpuId} (hq : q.Nodup) (u : PpuId) : u ∉ q.erase u := by
  rw [mem_erase_iff hq]
  exact fun h => h.1 rfl

end Rpcs3.Lv2.Sync
