import Rpcs3.Lv2.Sync

/-! `lv2_mutex` (sys_mutex.h) and the calls `sys_mutex_lock`,
`sys_mutex_trylock` and `sys_mutex_unlock` (sys_mutex.cpp).

The mutex is one atomic control word (`owner`, the sleep queue `sq`) beside
the recursion counter `lock_count`. Ownership moves in four places:
`try_lock`'s CAS fast path, `try_own` (take the mutex, or join `sq`),
`try_unlock` (release when nobody waits), and `reown`, which runs under
`mutex.mutex` and hands the mutex to the thread the protocol picks from `sq`.

The functions below are those four members and the timeout path of
`sys_mutex_lock`, each with the lemma that says everything it can do. The
calls built from them, and the threads that interleave them, are in
`MutexSystem`. -/
namespace Rpcs3.Lv2.Mutex

open Rpcs3.Lv2.Sync

/-- `SYS_SYNC_RECURSIVE`, the `recursive` attribute of a recursive mutex. -/
def sysSyncRecursive : Nat := 0x10

/-- The attributes of an `lv2_mutex` that the calls read. -/
structure MutexAttr where
  protocol : Lv2Protocol
  recursive : Nat

/-- `control_data_t` (owner id, `sq`) together with `lock_count`. -/
structure Control where
  owner : Nat
  sq : List PpuId
  lockCount : Nat

/-- `lv2_mutex::try_lock`: take a free mutex, count a recursive lock, or fail. -/
def tryLock (attr : MutexAttr) (c : Control) (t : PpuId) : CellError × Control :=
  if c.owner = 0 then (.ok, { c with owner := t.id })
  else if c.owner = t.id then
    if attr.recursive = sysSyncRecursive then
      if c.lockCount = 0xffffffff then (.ekresource, c)
      else (.ok, { c with lockCount := c.lockCount + 1 })
    else (.edeadlk, c)
  else (.ebusy, c)

/-- `lv2_mutex::try_own`: take a free mutex, or push the thread on `sq` with a
fresh order tag. -/
def tryOwn (c : Control) (p : PrioTable) (t : PpuId) : Bool × Control × PrioTable :=
  if c.owner ≠ 0 then (false, { c with sq := emplace c.sq t }, p.stamp t)
  else (true, { c with owner := t.id }, p)

/-- `lv2_mutex::try_unlock`: refuse a non-owner, count down a recursive lock,
release when nobody waits, or report `CELL_EBUSY` for `reown`. -/
def tryUnlock (c : Control) (t : PpuId) : CellError × Control :=
  if c.owner ≠ t.id then (.eperm, c)
  else if c.lockCount ≠ 0 then (.ok, { c with lockCount := c.lockCount - 1 })
  else if c.sq = [] then (.ok, { c with owner := 0 })
  else (.ebusy, c)

/-- `lv2_mutex::reown`: the thread `schedule` takes out of `sq` becomes the
owner; with an empty queue the mutex is released. -/
def reown (attr : MutexAttr) (c : Control) (prio : PpuId → PpuPrio) : Option PpuId × Control :=
  match schedule attr.protocol prio c.sq with
  | none => (none, { c with owner := 0 })
  | some w => (some w, { c with owner := w.id, sq := c.sq.erase w })

/-- The timeout path of `sys_mutex_lock` under `mutex.mutex`: an empty queue
means the thread was woken; otherwise it leaves the queue with
`CELL_ETIMEDOUT` if it is still there. -/
def lockTimeout (c : Control) (t : PpuId) : CellError × Control :=
  if c.sq = [] then (.ok, c)
  else
    match unqueue c.sq t with
    | some sq => (.etimedout, { c with sq := sq })
    | none => (.ok, c)

/-! ### What each member can do -/

theorem tryLock_ok {attr : MutexAttr} {c c' : Control} {t : PpuId}
    (h : tryLock attr c t = (.ok, c')) :
    (c.owner = 0 ∧ c' = { c with owner := t.id }) ∨
      (c.owner = t.id ∧ c' = { c with lockCount := c.lockCount + 1 }) := by
  unfold tryLock at h
  split at h
  · exact .inl ⟨‹_›, (Prod.mk.inj h).2.symm⟩
  · split at h
    · split at h
      · split at h
        · cases h
        · exact .inr ⟨‹_›, (Prod.mk.inj h).2.symm⟩
      · cases h
    · cases h

theorem tryLock_ebusy {attr : MutexAttr} {c : Control} {t : PpuId} :
    (tryLock attr c t).1 = .ebusy ↔ c.owner ≠ 0 ∧ c.owner ≠ t.id := by
  unfold tryLock
  split
  · simp_all
  · split
    · split
      · split <;> simp_all
      · simp_all
    · simp_all

theorem tryLock_fail {attr : MutexAttr} {c c' : Control} {t : PpuId} {r : CellError}
    (h : tryLock attr c t = (r, c')) (hr : r ≠ .ok) : c' = c := by
  unfold tryLock at h
  split at h
  · exact absurd (Prod.mk.inj h).1.symm hr
  · split at h
    · split at h
      · split at h
        · exact (Prod.mk.inj h).2.symm
        · exact absurd (Prod.mk.inj h).1.symm hr
      · exact (Prod.mk.inj h).2.symm
    · exact (Prod.mk.inj h).2.symm

theorem tryOwn_true {c c' : Control} {p p' : PrioTable} {t : PpuId}
    (h : tryOwn c p t = (true, c', p')) : c.owner = 0 ∧ c' = { c with owner := t.id } := by
  unfold tryOwn at h
  split at h
  · cases h
  · simp only [Prod.mk.injEq, true_and] at h
    exact ⟨by simpa using ‹¬c.owner ≠ 0›, h.1.symm⟩

theorem tryOwn_false {c c' : Control} {p p' : PrioTable} {t : PpuId}
    (h : tryOwn c p t = (false, c', p')) :
    c.owner ≠ 0 ∧ c' = { c with sq := t :: c.sq } ∧ p' = p.stamp t := by
  unfold tryOwn at h
  split at h
  · simp only [Prod.mk.injEq, true_and] at h
    exact ⟨‹_›, h.1.symm, h.2.symm⟩
  · cases h

theorem tryUnlock_ebusy {c : Control} {t : PpuId} (h : (tryUnlock c t).1 = .ebusy) :
    c.owner = t.id ∧ c.lockCount = 0 ∧ c.sq ≠ [] := by
  unfold tryUnlock at h
  split at h
  · cases h
  · split at h
    · cases h
    · split at h
      · cases h
      · exact ⟨by simpa using ‹¬c.owner ≠ t.id›, by simpa using ‹¬c.lockCount ≠ 0›, ‹_›⟩

/-- The three ways `try_unlock` finishes without `CELL_EBUSY`. -/
theorem tryUnlock_done {c c' : Control} {t : PpuId} {r : CellError}
    (h : tryUnlock c t = (r, c')) (hr : r ≠ .ebusy) :
    (r = .eperm ∧ c.owner ≠ t.id ∧ c' = c) ∨
      (r = .ok ∧ c.owner = t.id ∧ c.lockCount ≠ 0 ∧
        c' = { c with lockCount := c.lockCount - 1 }) ∨
      (r = .ok ∧ c.owner = t.id ∧ c.lockCount = 0 ∧ c.sq = [] ∧ c' = { c with owner := 0 }) := by
  unfold tryUnlock at h
  split at h
  · exact .inl ⟨(Prod.mk.inj h).1.symm, ‹_›, (Prod.mk.inj h).2.symm⟩
  · have ho : c.owner = t.id := by simpa using ‹¬c.owner ≠ t.id›
    split at h
    · exact .inr (.inl ⟨(Prod.mk.inj h).1.symm, ho, ‹_›, (Prod.mk.inj h).2.symm⟩)
    · split at h
      · exact .inr (.inr ⟨(Prod.mk.inj h).1.symm, ho, by simpa using ‹¬c.lockCount ≠ 0›, ‹_›,
          (Prod.mk.inj h).2.symm⟩)
      · exact absurd (Prod.mk.inj h).1.symm hr

theorem reown_none {attr : MutexAttr} {c c' : Control} {prio : PpuId → PpuPrio}
    (h : reown attr c prio = (none, c')) : c.sq = [] ∧ c' = { c with owner := 0 } := by
  unfold reown at h
  split at h
  · exact ⟨schedule_eq_none ‹_›, (Prod.mk.inj h).2.symm⟩
  · cases h

theorem reown_some {attr : MutexAttr} {c c' : Control} {prio : PpuId → PpuPrio} {w : PpuId}
    (h : reown attr c prio = (some w, c')) :
    schedule attr.protocol prio c.sq = some w ∧
      c' = { c with owner := w.id, sq := c.sq.erase w } := by
  unfold reown at h
  split at h
  · cases h
  · simp only [Prod.mk.injEq, Option.some.injEq] at h
    obtain ⟨rfl, rfl⟩ := h
    exact ⟨‹_›, rfl⟩

theorem lockTimeout_of_mem {c : Control} {t : PpuId} (h : t ∈ c.sq) :
    lockTimeout c t = (.etimedout, { c with sq := c.sq.erase t }) := by
  have hne : c.sq ≠ [] := List.ne_nil_of_mem h
  simp [lockTimeout, hne, unqueue_of_mem h]

end Rpcs3.Lv2.Mutex
