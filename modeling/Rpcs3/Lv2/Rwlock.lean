import Rpcs3.Lv2.Sync
import Rpcs3.Lib.Transition

/-! `lv2_rwlock` (sys_rwlock.h) and the calls `sys_rwlock_rlock`,
`sys_rwlock_tryrlock`, `sys_rwlock_runlock`, `sys_rwlock_wlock`,
`sys_rwlock_trywlock` and `sys_rwlock_wunlock` (sys_rwlock.cpp), as an
interleaving of atomic steps: each CAS, `fetch_op` and atomic store on
`owner` is a step, and so is each section under the lock's `mutex`.

The lock is the `s64` word `owner`: a writer's id shifted left by one, or
minus twice the number of read locks, with bit 0 set while threads wait in
`rq` or `wq`. Here `owner` is an `Int`, and the source's bit operations are
the two's-complement ones: `val & 1` is `val % 2`, `val & -2` and `val | 1`
clear and set that bit, and `val >> 1` is `val / 2` rounded down. The word
stays far from the `s64` bounds.

The code does not record which threads hold a read lock: `runlock` gives
back one read lock, whoever calls it. The model keeps the number of read
locks taken and not given back (`readers`) and the writer (`writer`) as
ghost state, updated where the calls take and give back the lock; the
invariant says that `owner` encodes them. -/
namespace Rpcs3.Lv2.Rwlock

open Rpcs3.Lv2.Sync

/-! ### The owner word -/

/-- `val & 1`: the wait bit. -/
def waitBit (v : Int) : Int := v % 2

/-- `val | 1`. -/
def setWaitBit (v : Int) : Int := v - v % 2 + 1

/-- `val & -2`. -/
def clearWaitBit (v : Int) : Int := v - v % 2

/-- `val >> 1`: the writer's id when `val > 0`. -/
def ownerId (v : Int) : Int := v / 2

/-- `val <= 0 && !(val & 1)`: no writer and nobody waiting, so a reader
may enter. -/
def readable (v : Int) : Bool := decide (v ≤ 0) && waitBit v == 0

/-- `cpu->id << 1 | !!wq | !!rq`: the word a hand-off to the writer `w`
stores. -/
def handOff (w : PpuId) (wq rq : List PpuId) : Int :=
  2 * w.id + if wq ≠ [] ∨ rq ≠ [] then 1 else 0

theorem readable_iff (v : Int) : readable v = true ↔ v ≤ 0 ∧ v % 2 = 0 := by
  simp [readable, waitBit]

/-! ### The sections under the mutex -/

/-- The word and the two sleep queues. -/
structure Control where
  owner : Int
  rq : List PpuId
  wq : List PpuId

/-- The `fetch_op` of `sys_rwlock_rlock` under the mutex: take a read lock,
or set the wait bit. The flag says whether the thread got the lock. -/
def rlockFetch (v : Int) : Int × Bool :=
  if readable v then (v - 2, true) else (setWaitBit v, false)

/-- The section of `sys_rwlock_runlock` under the mutex: give back one read
lock; the last reader, with waiters, hands the lock to the writer that
`schedule` picks from `wq`, or releases it. Returns the code, the new word
and queues, and the writer it woke. -/
def runlockSlow (protocol : Lv2Protocol) (prio : PpuId → PpuPrio) (c : Control) :
    CellError × Control × Option PpuId :=
  if 0 ≤ c.owner then (.eperm, c, none)
  else if c.owner < -1 then (.ok, { c with owner := c.owner + 2 }, none)
  else
    match schedule protocol prio c.wq with
    | some w =>
      (.ok, { c with owner := handOff w (c.wq.erase w) c.rq, wq := c.wq.erase w }, some w)
    | none => (.ok, { c with owner := 0 }, none)

/-- The `fetch_op` of `sys_rwlock_wlock` under the mutex: take a free lock,
or set the wait bit. The flag says whether the thread got the lock. -/
def wlockFetch (v : Int) (t : PpuId) : Int × Bool :=
  if v = 0 then (2 * t.id, true) else (setWaitBit v, false)

/-- The timeout of a writer under the mutex, when it is still in `wq`: it
leaves `wq`; if it was the last writer waiting while readers hold the lock,
every reader in `rq` wakes up and joins them; with both queues empty the
wait bit is cleared. Returns the new word and queues and the readers woken,
or `none` when the thread is no longer in `wq` (it was woken). -/
def wlockTimeout (c : Control) (t : PpuId) : Option (Control × List PpuId) :=
  match unqueue c.wq t with
  | none => none
  | some wq =>
    if c.rq ≠ [] ∧ wq = [] ∧ c.owner < 0 then
      some (⟨clearWaitBit (c.owner - 2 * c.rq.length), [], wq⟩, c.rq)
    else if c.rq = [] ∧ wq = [] then some (⟨clearWaitBit c.owner, c.rq, wq⟩, [])
    else some ({ c with wq := wq }, [])

/-- The section of `sys_rwlock_wunlock` under the mutex, after the writer
found the wait bit: hand the lock to the writer `schedule` picks, or else
wake every reader in `rq` at once, or else release it. Returns the new word
and queues, the writer woken and the readers woken. -/
def wunlockSlow (protocol : Lv2Protocol) (prio : PpuId → PpuPrio) (c : Control) :
    Control × Option PpuId × List PpuId :=
  match schedule protocol prio c.wq with
  | some w => ({ c with owner := handOff w (c.wq.erase w) c.rq, wq := c.wq.erase w }, some w, [])
  | none =>
    if c.rq ≠ [] then (⟨-2 * c.rq.length, [], c.wq⟩, none, c.rq)
    else ({ c with owner := 0 }, none, [])

/-! ### What each section can do -/

theorem rlockFetch_false {v v' : Int} (h : rlockFetch v = (v', false)) :
    readable v = false ∧ v' = setWaitBit v := by
  unfold rlockFetch at h
  split at h
  · cases h
  · rename_i hr
    exact ⟨by simpa using hr, (Prod.mk.inj h).1.symm⟩

theorem runlockSlow_eperm {protocol : Lv2Protocol} {prio : PpuId → PpuPrio} {c c' : Control}
    {w : Option PpuId} (h : runlockSlow protocol prio c = (.eperm, c', w)) :
    0 ≤ c.owner ∧ c' = c ∧ w = none := by
  unfold runlockSlow at h
  by_cases h1 : 0 ≤ c.owner
  · rw [if_pos h1] at h
    simp only [Prod.mk.injEq] at h
    exact ⟨h1, h.2.1.symm, h.2.2.symm⟩
  · rw [if_neg h1] at h
    by_cases h2 : c.owner < -1
    · rw [if_pos h2] at h
      cases h
    · rw [if_neg h2] at h
      cases hv : schedule protocol prio c.wq <;> rw [hv] at h <;> cases h

/-- The three ways the section gives back a read lock. -/
theorem runlockSlow_ok {protocol : Lv2Protocol} {prio : PpuId → PpuPrio} {c c' : Control}
    {w : Option PpuId} (h : runlockSlow protocol prio c = (.ok, c', w)) :
    (c.owner < -1 ∧ c' = { c with owner := c.owner + 2 } ∧ w = none) ∨
      (c.owner = -1 ∧ ∃ v, schedule protocol prio c.wq = some v ∧ w = some v ∧
        c' = { c with owner := handOff v (c.wq.erase v) c.rq, wq := c.wq.erase v }) ∨
      (c.owner = -1 ∧ schedule protocol prio c.wq = none ∧ c' = { c with owner := 0 } ∧
        w = none) := by
  unfold runlockSlow at h
  by_cases h1 : 0 ≤ c.owner
  · rw [if_pos h1] at h
    cases h
  · rw [if_neg h1] at h
    by_cases h2 : c.owner < -1
    · rw [if_pos h2] at h
      simp only [Prod.mk.injEq] at h
      exact .inl ⟨h2, h.2.1.symm, h.2.2.symm⟩
    · rw [if_neg h2] at h
      have hm : c.owner = -1 := by omega
      cases hv : schedule protocol prio c.wq with
      | some v =>
        rw [hv] at h
        simp only [Prod.mk.injEq] at h
        exact .inr (.inl ⟨hm, v, rfl, h.2.2.symm, h.2.1.symm⟩)
      | none =>
        rw [hv] at h
        simp only [Prod.mk.injEq] at h
        exact .inr (.inr ⟨hm, rfl, h.2.1.symm, h.2.2.symm⟩)

/-- `runlockSlow` returns `CELL_EPERM` or `CELL_OK`. -/
theorem runlockSlow_ret (protocol : Lv2Protocol) (prio : PpuId → PpuPrio) (c : Control) :
    (runlockSlow protocol prio c).1 = .eperm ∨ (runlockSlow protocol prio c).1 = .ok := by
  unfold runlockSlow
  by_cases h1 : 0 ≤ c.owner
  · rw [if_pos h1]
    exact .inl rfl
  · rw [if_neg h1]
    by_cases h2 : c.owner < -1
    · rw [if_pos h2]
      exact .inr rfl
    · rw [if_neg h2]
      cases schedule protocol prio c.wq <;> exact .inr rfl

theorem wlockFetch_false {v v' : Int} {t : PpuId} (h : wlockFetch v t = (v', false)) :
    v ≠ 0 ∧ v' = setWaitBit v := by
  unfold wlockFetch at h
  split at h
  · cases h
  · exact ⟨‹_›, (Prod.mk.inj h).1.symm⟩

/-- The three outcomes of a writer's timeout. -/
theorem wlockTimeout_some {c c' : Control} {t : PpuId} {rs : List PpuId}
    (h : wlockTimeout c t = some (c', rs)) : t ∈ c.wq ∧
      ((c.rq ≠ [] ∧ c.wq.erase t = [] ∧ c.owner < 0 ∧
          c' = ⟨clearWaitBit (c.owner - 2 * c.rq.length), [], []⟩ ∧ rs = c.rq) ∨
        (c.rq = [] ∧ c.wq.erase t = [] ∧ c' = ⟨clearWaitBit c.owner, [], []⟩ ∧ rs = []) ∨
        (¬(c.rq ≠ [] ∧ c.wq.erase t = [] ∧ c.owner < 0) ∧ ¬(c.rq = [] ∧ c.wq.erase t = []) ∧
          c' = { c with wq := c.wq.erase t } ∧ rs = [])) := by
  unfold wlockTimeout at h
  by_cases ht : t ∈ c.wq
  · rw [unqueue_of_mem ht] at h
    refine ⟨ht, ?_⟩
    simp only at h
    split at h
    · rename_i hc
      obtain ⟨h1, h2, h3⟩ := hc
      simp only [Option.some.injEq, Prod.mk.injEq] at h
      exact .inl ⟨h1, h2, h3, by rw [← h.1, h2], h.2.symm⟩
    · split at h
      · rename_i hc
        simp only [Option.some.injEq, Prod.mk.injEq] at h
        exact .inr (.inl ⟨hc.1, hc.2, by rw [← h.1, hc.1, hc.2], h.2.symm⟩)
      · simp only [Option.some.injEq, Prod.mk.injEq] at h
        exact .inr (.inr ⟨‹_›, ‹_›, h.1.symm, h.2.symm⟩)
  · rw [unqueue_of_not_mem ht] at h
    cases h

/-- The three outcomes of the section of `wunlock`. -/
theorem wunlockSlow_eq {protocol : Lv2Protocol} {prio : PpuId → PpuPrio} {c c' : Control}
    {w : Option PpuId} {rs : List PpuId} (h : wunlockSlow protocol prio c = (c', w, rs)) :
    (∃ v, schedule protocol prio c.wq = some v ∧ w = some v ∧ rs = [] ∧
        c' = { c with owner := handOff v (c.wq.erase v) c.rq, wq := c.wq.erase v }) ∨
      (c.wq = [] ∧ c.rq ≠ [] ∧ c' = ⟨-2 * c.rq.length, [], []⟩ ∧ w = none ∧ rs = c.rq) ∨
      (c.wq = [] ∧ c.rq = [] ∧ c' = ⟨0, [], []⟩ ∧ w = none ∧ rs = []) := by
  unfold wunlockSlow at h
  split at h
  · rename_i v hv
    simp only [Prod.mk.injEq] at h
    exact .inl ⟨v, hv, h.2.1.symm, h.2.2.symm, h.1.symm⟩
  · rename_i hv
    have hwq := schedule_eq_none hv
    split at h
    · simp only [Prod.mk.injEq] at h
      exact .inr (.inl ⟨hwq, ‹_›, by rw [← h.1, hwq], h.2.1.symm, h.2.2.symm⟩)
    · rename_i hrq
      simp only [ne_eq, not_not] at hrq
      simp only [Prod.mk.injEq] at h
      exact .inr (.inr ⟨hwq, hrq, by rw [← h.1, hwq, hrq], h.2.1.symm, h.2.2.symm⟩)

/-! How the sections edit the queues: a writer they wake leaves `wq`, and
readers leave `rq` all at once. -/

theorem runlockSlow_queues {protocol : Lv2Protocol} {prio : PpuId → PpuPrio} {c c' : Control}
    {r : CellError} {w : Option PpuId} (h : runlockSlow protocol prio c = (r, c', w)) :
    c'.rq = c.rq ∧ ((∃ v, w = some v ∧ v ∈ c.wq ∧ c'.wq = c.wq.erase v) ∨
      (w = none ∧ c'.wq = c.wq)) := by
  rcases runlockSlow_ret protocol prio c with hr | hr <;> rw [h] at hr <;> subst hr
  · obtain ⟨-, rfl, rfl⟩ := runlockSlow_eperm h
    exact ⟨rfl, .inr ⟨rfl, rfl⟩⟩
  · rcases runlockSlow_ok h with ⟨-, rfl, rfl⟩ | ⟨-, v, hv, rfl, rfl⟩ | ⟨-, -, rfl, rfl⟩
    · exact ⟨rfl, .inr ⟨rfl, rfl⟩⟩
    · exact ⟨rfl, .inl ⟨v, rfl, schedule_mem hv, rfl⟩⟩
    · exact ⟨rfl, .inr ⟨rfl, rfl⟩⟩

theorem wlockTimeout_queues {c c' : Control} {t : PpuId} {rs : List PpuId}
    (h : wlockTimeout c t = some (c', rs)) :
    t ∈ c.wq ∧ c'.wq = c.wq.erase t ∧ ((rs = c.rq ∧ c'.rq = []) ∨ (rs = [] ∧ c'.rq = c.rq)) := by
  obtain ⟨ht, hcase⟩ := wlockTimeout_some h
  refine ⟨ht, ?_⟩
  rcases hcase with ⟨-, hwq, -, rfl, rfl⟩ | ⟨hrq, hwq, rfl, rfl⟩ | ⟨-, -, rfl, rfl⟩
  · exact ⟨hwq.symm, .inl ⟨rfl, rfl⟩⟩
  · exact ⟨hwq.symm, .inr ⟨rfl, hrq.symm⟩⟩
  · exact ⟨rfl, .inr ⟨rfl, rfl⟩⟩

theorem wunlockSlow_queues {protocol : Lv2Protocol} {prio : PpuId → PpuPrio} {c c' : Control}
    {w : Option PpuId} {rs : List PpuId} (h : wunlockSlow protocol prio c = (c', w, rs)) :
    (∃ v, w = some v ∧ v ∈ c.wq ∧ c'.wq = c.wq.erase v ∧ rs = [] ∧ c'.rq = c.rq) ∨
      (w = none ∧ c.wq = [] ∧ c'.wq = [] ∧ rs = c.rq ∧ c'.rq = []) := by
  rcases wunlockSlow_eq h with ⟨v, hv, rfl, rfl, rfl⟩ | ⟨hwq, -, rfl, rfl, rfl⟩ |
    ⟨hwq, hrq, rfl, rfl, rfl⟩
  · exact .inl ⟨v, rfl, schedule_mem hv, rfl, rfl, rfl⟩
  · exact .inr ⟨rfl, hwq, rfl, rfl, rfl⟩
  · exact .inr ⟨rfl, hwq, rfl, hrq.symm, rfl⟩

end Rpcs3.Lv2.Rwlock
