import Rpcs3.Lv2.Cond
import Rpcs3.Lib.Transition

/-! The PPU threads around one `lv2_mutex` and one `lv2_cond` bound to it,
interleaving `sys_mutex_lock`, `sys_mutex_trylock`, `sys_mutex_unlock`
(sys_mutex.cpp), `sys_cond_wait`, `sys_cond_signal`, `sys_cond_signal_all`
and `sys_cond_signal_to` (sys_cond.cpp).

Each call is split into the atomic steps of the source: each atomic op on
the control word and each section under `mutex.mutex` is one step, and
threads interleave freely. A CAS that fails because the control word moved
since it was loaded makes the call take its `CELL_EBUSY` path; the model lets
a CAS fail whenever such a change could have preceded it, which allows every
run of the source and more. The scheduler's `sleep`/`awake` pair is a thread
state: a sleeping thread returns only after `reown` or a signal's `try_own`
has made it the owner. The owner check of `sys_cond_wait` and its section
under `mutex.mutex` are one step: only the owner itself can move the owner
word away from its id, so nothing another thread does in between changes
what the section does. -/
namespace Rpcs3.Lv2.MutexSystem

open Rpcs3.Lv2.Sync Rpcs3.Lv2.Mutex Rpcs3.Lv2.Cond

/-- Where a thread is inside a call. -/
inductive Pc where
  | idle
  /-- `sys_mutex_lock`: `try_lock` returned `CELL_EBUSY`; busy-waiting, then `try_own`. -/
  | lockBusy (timeout : Bool)
  /-- `sys_mutex_lock`: `try_own` queued the thread on the mutex; it sleeps. -/
  | lockQueued (timeout : Bool)
  /-- `sys_mutex_lock`: `reown` made the thread the owner and woke it. -/
  | lockWoken
  /-- `sys_mutex_unlock`: `try_unlock` returned `CELL_EBUSY`; `reown` next. -/
  | unlockSlow
  /-- `sys_cond_wait`: asleep in the condition queue with the saved `lock_count`. -/
  | condQueued (timeout : Bool) (count : Nat)
  /-- `sys_cond_wait`: moved to the mutex queue; `ret` is the code it will return. -/
  | condRequeued (count : Nat) (ret : CellError)
  /-- `sys_cond_wait`: the owner again; it restores `lock_count` and returns `ret`. -/
  | condWoken (count : Nat) (ret : CellError)
  deriving DecidableEq

namespace Pc

/-- The thread sleeps in the mutex queue. -/
def inMutexQueue : Pc → Bool
  | .lockQueued _ | .condRequeued _ _ => true
  | .idle | .lockBusy _ | .lockWoken | .unlockSlow | .condQueued _ _ | .condWoken _ _ => false

/-- The thread sleeps in the condition queue. -/
def inCondQueue : Pc → Bool
  | .condQueued _ _ => true
  | .idle | .lockBusy _ | .lockQueued _ | .lockWoken | .unlockSlow | .condRequeued _ _
  | .condWoken _ _ => false

/-- The thread was made the owner while it slept and has not returned. -/
def woken : Pc → Bool
  | .lockWoken | .condWoken _ _ => true
  | .idle | .lockBusy _ | .lockQueued _ | .unlockSlow | .condQueued _ _ | .condRequeued _ _ =>
    false

/-- What `awake` makes of a thread that `reown` took out of the mutex queue. -/
def wake : Pc → Pc
  | .lockQueued _ => .lockWoken
  | .condRequeued count ret => .condWoken count ret
  | .idle => .idle
  | .lockBusy b => .lockBusy b
  | .lockWoken => .lockWoken
  | .unlockSlow => .unlockSlow
  | .condQueued b count => .condQueued b count
  | .condWoken count ret => .condWoken count ret

/-- What a signal, or the waiter's own timeout, makes of a thread it took out
of the condition queue: the owner if `try_own` took the mutex, a waiter of
the mutex otherwise. -/
def signaled (owned : Bool) (ret : CellError) : Pc → Pc
  | .condQueued _ count => if owned then .condWoken count ret else .condRequeued count ret
  | .idle => .idle
  | .lockBusy b => .lockBusy b
  | .lockQueued b => .lockQueued b
  | .lockWoken => .lockWoken
  | .unlockSlow => .unlockSlow
  | .condRequeued count r => .condRequeued count r
  | .condWoken count r => .condWoken count r

/-- The `lock_count` a thread inside `sys_cond_wait` saved at its call. -/
def savedCount : Pc → Option Nat
  | .condQueued _ count | .condRequeued count _ | .condWoken count _ => some count
  | .idle | .lockBusy _ | .lockQueued _ | .lockWoken | .unlockSlow => none

end Pc

/-! Each of the functions above is evaluated on constructors by `simp`. -/

attribute [simp] Pc.inMutexQueue.eq_1 Pc.inMutexQueue.eq_2 Pc.inMutexQueue.eq_3 Pc.inMutexQueue.eq_4
  Pc.inMutexQueue.eq_5 Pc.inMutexQueue.eq_6 Pc.inMutexQueue.eq_7 Pc.inMutexQueue.eq_8
attribute [simp] Pc.inCondQueue.eq_1 Pc.inCondQueue.eq_2 Pc.inCondQueue.eq_3 Pc.inCondQueue.eq_4
  Pc.inCondQueue.eq_5 Pc.inCondQueue.eq_6 Pc.inCondQueue.eq_7 Pc.inCondQueue.eq_8
attribute [simp] Pc.woken.eq_1 Pc.woken.eq_2 Pc.woken.eq_3 Pc.woken.eq_4 Pc.woken.eq_5 Pc.woken.eq_6
  Pc.woken.eq_7 Pc.woken.eq_8
attribute [simp] Pc.wake.eq_1 Pc.wake.eq_2 Pc.wake.eq_3 Pc.wake.eq_4 Pc.wake.eq_5 Pc.wake.eq_6
  Pc.wake.eq_7 Pc.wake.eq_8
attribute [simp] Pc.signaled.eq_1 Pc.signaled.eq_2 Pc.signaled.eq_3 Pc.signaled.eq_4
  Pc.signaled.eq_5 Pc.signaled.eq_6 Pc.signaled.eq_7 Pc.signaled.eq_8
attribute [simp] Pc.savedCount.eq_1 Pc.savedCount.eq_2 Pc.savedCount.eq_3 Pc.savedCount.eq_4
  Pc.savedCount.eq_5 Pc.savedCount.eq_6 Pc.savedCount.eq_7 Pc.savedCount.eq_8

namespace Pc

theorem woken_wake {p : Pc} (h : p.inMutexQueue) : p.wake.woken := by
  cases p <;> first | rfl | cases h

theorem not_inMutexQueue_of_woken {p : Pc} (h : p.woken) : p.inMutexQueue = false := by
  cases p <;> first | rfl | cases h

theorem not_inCondQueue_of_woken {p : Pc} (h : p.woken) : p.inCondQueue = false := by
  cases p <;> first | rfl | cases h

theorem not_inCondQueue_of_inMutexQueue {p : Pc} (h : p.inMutexQueue) :
    p.inCondQueue = false := by
  cases p <;> first | rfl | cases h

theorem savedCount_wake (p : Pc) : p.wake.savedCount = p.savedCount := by
  cases p <;> rfl

theorem savedCount_signaled (owned : Bool) (ret : CellError) (p : Pc) :
    (p.signaled owned ret).savedCount = p.savedCount := by
  cases p <;> cases owned <;> rfl

end Pc

/-- The calls, to tag each step with the call it belongs to. -/
inductive Call where
  | lock
  | trylock
  | unlock
  | wait
  | signal
  | signalAll
  | signalTo (threadId : Nat)
  deriving DecidableEq

/-- A step: the thread that takes it, its call, and the code the call
returns in this step, if it returns. -/
structure Label where
  thread : PpuId
  call : Call
  ret : Option CellError

/-- The fixed data of a run: the mutex's attributes and the PPU threads the
IDM holds, which `sys_cond_signal_to` looks its argument up in. -/
structure Setup where
  attr : MutexAttr
  live : PpuId → Prop

/-- The mutex, the condition queue, the scheduler's priority table and every
thread's position. `depth` counts each thread's successful locks not yet
undone by a successful unlock (a `sys_cond_wait` puts them aside and gives
them back); it is a history variable and never read by a step. -/
structure State where
  control : Control
  condSq : List PpuId
  prio : PrioTable
  pc : PpuId → Pc
  depth : PpuId → Nat

/-- A fresh mutex and condition: free, nobody queued, nobody inside a call. -/
def State.Init (s : State) : Prop :=
  s.control = ⟨0, [], 0⟩ ∧ s.condSq = [] ∧ (∀ t, s.pc t = .idle) ∧ ∀ t, s.depth t = 0

/-- The thread's position and lock count after a step of `t`. -/
def State.move (s : State) (t : PpuId) (p : Pc) (d : Nat) : State :=
  { s with pc := Function.update s.pc t p, depth := Function.update s.depth t d }

/-- `awake` of the thread `reown` picked, if it picked one. -/
def State.wake (s : State) : Option PpuId → State
  | none => s
  | some w => { s with pc := Function.update s.pc w (s.pc w).wake }

/-- The position of a thread a signal took out of the condition queue. -/
def State.signaled (s : State) (w : PpuId) (owned : Bool) (ret : CellError) : State :=
  { s with pc := Function.update s.pc w ((s.pc w).signaled owned ret) }

/-- The positions of the threads a signal took out, in the order taken. -/
def State.signaledAll : State → List (PpuId × Bool) → State
  | s, [] => s
  | s, (w, owned) :: rest => (s.signaled w owned .ok).signaledAll rest

/-- The atomic steps of the seven calls. -/
inductive Step (S : Setup) : State → Label → State → Prop where
  /-- `sys_mutex_lock`/`sys_mutex_trylock`: `try_lock` takes the mutex or
  counts a recursive lock. -/
  | lockOk {s t c} (call : Call) (hcall : call = .lock ∨ call = .trylock) :
      s.pc t = .idle → tryLock S.attr s.control t = (.ok, c) →
      Step S s ⟨t, call, some .ok⟩ ({ s with control := c }.move t .idle (s.depth t + 1))
  /-- `try_lock` refuses with `CELL_EDEADLK` or `CELL_EKRESOURCE`. -/
  | lockError {s t c} {r : CellError} (call : Call) (hcall : call = .lock ∨ call = .trylock) :
      s.pc t = .idle → tryLock S.attr s.control t = (r, c) → r ≠ .ok → r ≠ .ebusy →
      Step S s ⟨t, call, some r⟩ s
  /-- `try_lock` returns `CELL_EBUSY` (the mutex is held, or its CAS lost a
  race); `sys_mutex_trylock` returns it. -/
  | trylockBusy {s t} :
      s.pc t = .idle → (tryLock S.attr s.control t).1 = .ebusy ∨ s.control.owner = 0 →
      Step S s ⟨t, .trylock, some .ebusy⟩ s
  /-- `sys_mutex_lock` goes on to busy-wait. -/
  | lockBusy {s t} (timeout : Bool) :
      s.pc t = .idle → (tryLock S.attr s.control t).1 = .ebusy ∨ s.control.owner = 0 →
      Step S s ⟨t, .lock, none⟩ (s.move t (.lockBusy timeout) (s.depth t))
  /-- A busy-wait `try_lock` takes the mutex. -/
  | lockSpin {s t c timeout} :
      s.pc t = .lockBusy timeout → tryLock S.attr s.control t = (.ok, c) →
      Step S s ⟨t, .lock, some .ok⟩ ({ s with control := c }.move t .idle (s.depth t + 1))
  /-- `try_own` takes the free mutex. -/
  | lockOwn {s t c p timeout} :
      s.pc t = .lockBusy timeout → tryOwn s.control s.prio t = (true, c, p) →
      Step S s ⟨t, .lock, some .ok⟩
        ({ s with control := c, prio := p }.move t .idle (s.depth t + 1))
  /-- `try_own` queues the thread and it goes to sleep. -/
  | lockSleep {s t c p timeout} :
      s.pc t = .lockBusy timeout → tryOwn s.control s.prio t = (false, c, p) →
      Step S s ⟨t, .lock, none⟩
        ({ s with control := c, prio := p }.move t (.lockQueued timeout) (s.depth t))
  /-- The woken owner returns `CELL_OK` (its signal, or a timeout that finds
  it already out of the queue). -/
  | lockWake {s t} :
      s.pc t = .lockWoken →
      Step S s ⟨t, .lock, some .ok⟩ (s.move t .idle (s.depth t + 1))
  /-- The timeout of a thread asleep in `sys_mutex_lock`. -/
  | lockTimeout {s t c} {r : CellError} :
      s.pc t = .lockQueued true → lockTimeout s.control t = (r, c) →
      Step S s ⟨t, .lock, some r⟩
        ({ s with control := c }.move t .idle
          (if r = CellError.ok then s.depth t + 1 else s.depth t))
  /-- `sys_mutex_unlock`: `try_unlock` refuses or releases. -/
  | unlockFast {s t c} {r : CellError} :
      s.pc t = .idle → tryUnlock s.control t = (r, c) → r ≠ .ebusy →
      Step S s ⟨t, .unlock, some r⟩
        ({ s with control := c }.move t .idle
          (if r = CellError.ok then s.depth t - 1 else s.depth t))
  /-- `try_unlock` returns `CELL_EBUSY` (waiters, or its CAS lost a race). -/
  | unlockBusy {s t} :
      s.pc t = .idle →
        (tryUnlock s.control t).1 = .ebusy ∨
          (s.control.owner = t.id ∧ s.control.lockCount = 0) →
      Step S s ⟨t, .unlock, none⟩ (s.move t .unlockSlow (s.depth t))
  /-- `reown` under `mutex.mutex`: the picked waiter owns the mutex and is
  woken, and the unlock returns `CELL_OK`. -/
  | unlockReown {s t w c} :
      s.pc t = .unlockSlow → reown S.attr s.control s.prio.prio = (w, c) →
      Step S s ⟨t, .unlock, some .ok⟩
        (({ s with control := c }.move t .idle (s.depth t - 1)).wake w)
  /-- `sys_cond_wait` by a thread that does not own the mutex. -/
  | waitPerm {s t} :
      s.pc t = .idle → s.control.owner ≠ t.id → Step S s ⟨t, .wait, some .eperm⟩ s
  /-- `sys_cond_wait` by the owner: it joins the condition queue, puts its
  recursive count aside, hands the mutex on and sleeps. -/
  | waitSleep {s t count w c cq p} (timeout : Bool) :
      s.pc t = .idle → s.control.owner = t.id → S.live t →
      waitEnter S.attr s.control s.condSq s.prio t = (count, w, c, cq, p) →
      Step S s ⟨t, .wait, none⟩
        (({ s with control := c, condSq := cq, prio := p }.move t
          (.condQueued timeout count) 0).wake w)
  /-- The timeout of a thread asleep in the condition queue. -/
  | waitTimedOut {s t count r owned c cq p} :
      s.pc t = .condQueued true count →
      waitTimeout s.control s.condSq s.prio t = (r, owned, c, cq, p) →
      Step S s ⟨t, .wait, none⟩
        ({ s with control := c, condSq := cq, prio := p }.signaled t owned r)
  /-- The woken waiter checks it owns the mutex, restores `lock_count` and
  returns. -/
  | waitReturn {s t count r} :
      s.pc t = .condWoken count r →
      Step S s ⟨t, .wait, some r⟩
        ({ s with control := { s.control with lockCount := count } }.move t .idle (count + 1))
  | condSignal {s t res c cq p} :
      s.pc t = .idle → signal S.attr s.control s.condSq s.prio = (res, c, cq, p) →
      Step S s ⟨t, .signal, some .ok⟩
        ({ s with control := c, condSq := cq, prio := p }.signaledAll res.toList)
  | condSignalAll {s t picks c p} :
      s.pc t = .idle → signalAll s.control s.condSq s.prio = (picks, c, p) →
      Step S s ⟨t, .signalAll, some .ok⟩
        ({ s with control := c, condSq := [], prio := p }.signaledAll picks)
  /-- `sys_cond_signal_to` of an existing thread that waits on the condition. -/
  | condSignalTo {s t u owned c cq p} :
      s.pc t = .idle → S.live u → signalTo s.control s.condSq s.prio u = some (owned, c, cq, p) →
      Step S s ⟨t, .signalTo u.id, some .ok⟩
        ({ s with control := c, condSq := cq, prio := p }.signaled u owned .ok)
  /-- `sys_cond_signal_to` of an existing thread that does not wait on it. -/
  | condSignalToPerm {s t u} :
      s.pc t = .idle → S.live u → signalTo s.control s.condSq s.prio u = none →
      Step S s ⟨t, .signalTo u.id, some .eperm⟩ s
  /-- `sys_cond_signal_to` of an id that is no PPU thread. -/
  | condSignalToSrch {s t n} :
      s.pc t = .idle → (∀ u, S.live u → u.id ≠ n) →
      Step S s ⟨t, .signalTo n, some .esrch⟩ s

/-- The states some interleaving reaches from a fresh mutex and condition. -/
def Reachable (S : Setup) : State → Prop :=
  Transition.Reachable State.Init (Step S)

@[simp] theorem State.move_pc_self (s : State) (t : PpuId) (p : Pc) (d : Nat) :
    (s.move t p d).pc t = p := by
  simp [State.move]

@[simp] theorem State.move_depth_self (s : State) (t : PpuId) (p : Pc) (d : Nat) :
    (s.move t p d).depth t = d := by
  simp [State.move]

theorem State.move_pc_other (s : State) {t u : PpuId} (p : Pc) (d : Nat) (h : u ≠ t) :
    (s.move t p d).pc u = s.pc u := by
  simp [State.move, h]

theorem State.move_depth_other (s : State) {t u : PpuId} (p : Pc) (d : Nat) (h : u ≠ t) :
    (s.move t p d).depth u = s.depth u := by
  simp [State.move, h]

@[simp] theorem State.move_control (s : State) (t : PpuId) (p : Pc) (d : Nat) :
    (s.move t p d).control = s.control := rfl

@[simp] theorem State.move_condSq (s : State) (t : PpuId) (p : Pc) (d : Nat) :
    (s.move t p d).condSq = s.condSq := rfl

@[simp] theorem State.wake_control (s : State) (w : Option PpuId) :
    (s.wake w).control = s.control := by
  cases w <;> rfl

@[simp] theorem State.wake_condSq (s : State) (w : Option PpuId) :
    (s.wake w).condSq = s.condSq := by
  cases w <;> rfl

@[simp] theorem State.wake_depth (s : State) (w : Option PpuId) :
    (s.wake w).depth = s.depth := by
  cases w <;> rfl

@[simp] theorem State.signaled_control (s : State) (w : PpuId) (owned : Bool) (ret : CellError) :
    (s.signaled w owned ret).control = s.control := rfl

@[simp] theorem State.signaled_condSq (s : State) (w : PpuId) (owned : Bool) (ret : CellError) :
    (s.signaled w owned ret).condSq = s.condSq := rfl

@[simp] theorem State.signaled_depth (s : State) (w : PpuId) (owned : Bool) (ret : CellError) :
    (s.signaled w owned ret).depth = s.depth := rfl

/-! ### The invariant -/

/-- What the mutex and the condition queue say about one thread `t` at
position `p` with `d` locks held. -/
structure ThreadInv (c : Control) (cq : List PpuId) (t : PpuId) (p : Pc) (d : Nat) : Prop where
  /-- Exactly the threads asleep for the mutex are in its queue. -/
  queued : t ∈ c.sq ↔ p.inMutexQueue
  /-- Exactly the threads asleep in `sys_cond_wait` are in the condition queue. -/
  waiting : t ∈ cq ↔ p.inCondQueue
  /-- The owner is the thread holding locks, or the one made owner in its sleep. -/
  owner : c.owner = t.id ↔ 0 < d ∨ p.woken
  /-- A holder's count is one more than `lock_count`. -/
  depth : 0 < d → d = c.lockCount + 1
  /-- A holder is outside every call but `sys_mutex_unlock`. -/
  holds : 0 < d → p = .idle ∨ p = .unlockSlow
  woken : p.woken → c.lockCount = 0
  slow : p = .unlockSlow → d = 1 ∧ c.lockCount = 0

/-- The invariant of every reachable state. -/
structure Inv (S : Setup) (s : State) : Prop where
  free : s.control.owner = 0 → s.control.sq = [] ∧ s.control.lockCount = 0
  nodup : s.control.sq.Nodup
  condNodup : s.condSq.Nodup
  live : ∀ t ∈ s.condSq, S.live t
  thread : ∀ t, ThreadInv s.control s.condSq t (s.pc t) (s.depth t)

section ThreadInv

variable {c c' : Control} {cq cq' : List PpuId} {t : PpuId} {p : Pc} {d : Nat}

/-- A thread that holds nothing, does not own, and is neither woken nor
unlocking. -/
theorem ThreadInv.of_free (hsq : t ∈ c.sq ↔ p.inMutexQueue) (hcq : t ∈ cq ↔ p.inCondQueue)
    (ho : c.owner ≠ t.id) (hw : p.woken = false) (hs : p ≠ .unlockSlow) :
    ThreadInv c cq t p 0 where
  queued := hsq
  waiting := hcq
  owner := by simp [ho, hw]
  depth := by simp
  holds := by simp
  woken := by simp [hw]
  slow := fun h => absurd h hs

/-- An idle thread that holds `lock_count + 1` locks of the mutex it owns. -/
theorem ThreadInv.of_holder (hsq : t ∉ c.sq) (hcq : t ∉ cq) (ho : c.owner = t.id)
    (hd : d = c.lockCount + 1) : ThreadInv c cq t .idle d where
  queued := by simp [hsq]
  waiting := by simp [hcq]
  owner := by simp [ho, hd]
  depth := fun _ => hd
  holds := fun _ => .inl rfl
  woken := by simp
  slow := by simp

/-- A thread made the owner in its sleep, with `lock_count` zero. -/
theorem ThreadInv.of_woken (hsq : t ∉ c.sq) (hcq : t ∉ cq) (ho : c.owner = t.id)
    (hw : p.woken) (hc : c.lockCount = 0) : ThreadInv c cq t p 0 where
  queued := by simp [hsq, Pc.not_inMutexQueue_of_woken hw]
  waiting := by simp [hcq, Pc.not_inCondQueue_of_woken hw]
  owner := by simp [ho, hw]
  depth := by simp
  holds := by simp
  woken := fun _ => hc
  slow := by
    rintro rfl
    cases hw

/-- A thread unaffected by a change of the words: its queue memberships and
whether it owns are the same, and if it owns, `lock_count` is the same. -/
theorem ThreadInv.frame (h : ThreadInv c cq t p d) (hsq : t ∈ c'.sq ↔ t ∈ c.sq)
    (hcq : t ∈ cq' ↔ t ∈ cq) (ho : c'.owner = t.id ↔ c.owner = t.id)
    (hc : c.owner = t.id → c'.lockCount = c.lockCount) : ThreadInv c' cq' t p d where
  queued := hsq.trans h.queued
  waiting := hcq.trans h.waiting
  owner := ho.trans h.owner
  depth hd := by
    rw [hc (h.owner.mpr (.inl hd))]
    exact h.depth hd
  holds := h.holds
  woken hp := by
    rw [hc (h.owner.mpr (.inr hp))]
    exact h.woken hp
  slow hp := by
    have hd := (h.slow hp).1
    rw [hc (h.owner.mpr (.inl (by omega)))]
    exact h.slow hp

/-- A thread outside every call but `sys_mutex_unlock`, or one that has not
been woken, holds no lock unless it owns. -/
theorem ThreadInv.depth_zero (h : ThreadInv c cq t p d) (ho : c.owner ≠ t.id) : d = 0 := by
  by_contra hd
  exact ho (h.owner.mpr (.inl (Nat.pos_of_ne_zero hd)))

/-- A thread inside a call other than `sys_mutex_unlock` holds no lock. -/
theorem ThreadInv.depth_zero_of_busy (h : ThreadInv c cq t p d) (hi : p ≠ .idle)
    (hs : p ≠ .unlockSlow) : d = 0 := by
  by_contra hd
  rcases h.holds (Nat.pos_of_ne_zero hd) with hp | hp
  · exact hi hp
  · exact hs hp

theorem ThreadInv.holder (h : ThreadInv c cq t .idle d) (ho : c.owner = t.id) :
    0 < d ∧ d = c.lockCount + 1 := by
  have hd : 0 < d := (h.owner.mp ho).resolve_right (by simp)
  exact ⟨hd, h.depth hd⟩

/-- A thread asleep or spinning does not own the mutex. -/
theorem ThreadInv.not_owner (h : ThreadInv c cq t p d) (hi : p ≠ .idle) (hs : p ≠ .unlockSlow)
    (hw : p.woken = false) : c.owner ≠ t.id := by
  intro ho
  rcases h.owner.mp ho with hd | hp
  · rw [h.depth_zero_of_busy hi hs] at hd
    exact Nat.lt_irrefl 0 hd
  · rw [hw] at hp
    cases hp

end ThreadInv

/-- The invariant after a step that changes the words and moves one thread,
given the new facts about that thread and the frame of the others. -/
theorem Inv.move {S : Setup} {s : State} {c : Control} {cq : List PpuId} {prio : PrioTable}
    {t : PpuId} {p : Pc} {d : Nat}
    (h : Inv S s) (hfree : c.owner = 0 → c.sq = [] ∧ c.lockCount = 0) (hnodup : c.sq.Nodup)
    (hcnodup : cq.Nodup) (hlive : ∀ e ∈ cq, S.live e) (hself : ThreadInv c cq t p d)
    (hsq : ∀ e, e ≠ t → (e ∈ c.sq ↔ e ∈ s.control.sq))
    (hcq : ∀ e, e ≠ t → (e ∈ cq ↔ e ∈ s.condSq))
    (hown : ∀ e, e ≠ t → (c.owner = e.id ↔ s.control.owner = e.id))
    (hcount : ∀ e, e ≠ t → s.control.owner = e.id → c.lockCount = s.control.lockCount) :
    Inv S ({ s with control := c, condSq := cq, prio := prio }.move t p d) where
  free := hfree
  nodup := hnodup
  condNodup := hcnodup
  live := hlive
  thread e := by
    by_cases he : e = t
    · subst he
      simpa using hself
    · rw [State.move_pc_other _ _ _ he, State.move_depth_other _ _ _ he]
      exact (h.thread e).frame (hsq e he) (hcq e he) (hown e he) (hcount e he)

/-- `Inv.move` for a step that leaves the condition queue alone. -/
theorem Inv.moveMutex {S : Setup} {s : State} {c : Control} {prio : PrioTable}
    {t : PpuId} {p : Pc} {d : Nat}
    (h : Inv S s) (hfree : c.owner = 0 → c.sq = [] ∧ c.lockCount = 0) (hnodup : c.sq.Nodup)
    (hself : ThreadInv c s.condSq t p d)
    (hsq : ∀ e, e ≠ t → (e ∈ c.sq ↔ e ∈ s.control.sq))
    (hown : ∀ e, e ≠ t → (c.owner = e.id ↔ s.control.owner = e.id))
    (hcount : ∀ e, e ≠ t → s.control.owner = e.id → c.lockCount = s.control.lockCount) :
    Inv S ({ s with control := c, prio := prio }.move t p d) :=
  h.move hfree hnodup h.condNodup h.live hself hsq (fun _ _ => Iff.rfl) hown hcount

/-- `Inv.move` for a step that only moves one thread. -/
theorem Inv.moveThread {S : Setup} {s : State} {t : PpuId} {p : Pc} {d : Nat} (h : Inv S s)
    (hself : ThreadInv s.control s.condSq t p d) : Inv S (s.move t p d) where
  free := h.free
  nodup := h.nodup
  condNodup := h.condNodup
  live := h.live
  thread e := by
    by_cases he : e = t
    · subst he
      simpa using hself
    · rw [State.move_pc_other _ _ _ he, State.move_depth_other _ _ _ he]
      exact h.thread e

theorem inv_init {S : Setup} {s : State} (h : s.Init) : Inv S s := by
  obtain ⟨hc, hcq, hpc, hd⟩ := h
  refine ⟨by simp [hc], by simp [hc], by simp [hcq], by simp [hcq], fun t => ?_⟩
  rw [hpc t, hd t, hc, hcq]
  exact ThreadInv.of_free (by simp) (by simp) (by simpa using (PpuId.id_ne_zero t).symm)
    rfl (by simp)

/-! ### One lemma per kind of step -/

theorem State.signaled_eq_move (s : State) (w : PpuId) (owned : Bool) (ret : CellError) :
    s.signaled w owned ret = s.move w ((s.pc w).signaled owned ret) (s.depth w) := by
  simp [State.signaled, State.move]

theorem Control.with_lockCount_eq {c : Control} (h : c.lockCount = 0) :
    { c with lockCount := 0 } = c := by
  cases c
  subst h
  rfl

section Steps

variable {S : Setup} {s : State} {t : PpuId}

theorem Inv.depth_zero (h : Inv S s) (ho : s.control.owner ≠ t.id) : s.depth t = 0 :=
  (h.thread t).depth_zero ho

theorem Inv.not_mem_sq (h : Inv S s) (hp : (s.pc t).inMutexQueue = false) :
    t ∉ s.control.sq := by
  rw [(h.thread t).queued, hp]
  simp

theorem Inv.not_mem_condSq (h : Inv S s) (hp : (s.pc t).inCondQueue = false) :
    t ∉ s.condSq := by
  rw [(h.thread t).waiting, hp]
  simp

/-- `try_lock` or `try_own` takes the free mutex for `t`. -/
theorem Inv.take (h : Inv S s) (ho : s.control.owner = 0) (hq : (s.pc t).inCondQueue = false)
    (prio : PrioTable) :
    Inv S ({ s with control := { s.control with owner := t.id }, prio := prio }.move t .idle
      (s.depth t + 1)) := by
  obtain ⟨hsq, hcount⟩ := h.free ho
  have hd : s.depth t = 0 := h.depth_zero (by rw [ho]; exact (PpuId.id_ne_zero t).symm)
  refine h.moveMutex (by simp [PpuId.id_ne_zero]) (by simp [hsq]) ?_ (fun _ _ => Iff.rfl) ?_ ?_
  · exact ThreadInv.of_holder (by simp [hsq]) (h.not_mem_condSq hq) rfl (by simp [hd, hcount])
  · intro e he
    simp only [ho]
    exact ⟨fun h' => absurd (PpuId.ext_id h'.symm) he,
      fun h' => absurd h'.symm (PpuId.id_ne_zero e)⟩
  · intro e _ h'
    exact absurd (ho ▸ h').symm (PpuId.id_ne_zero e)

/-- `try_lock` counts one more recursive lock of the owner `t`. -/
theorem Inv.recurse (h : Inv S s) (hpc : s.pc t = .idle) (ho : s.control.owner = t.id) :
    Inv S ({ s with control := { s.control with lockCount := s.control.lockCount + 1 } }.move t
      .idle (s.depth t + 1)) := by
  have ht := h.thread t
  rw [hpc] at ht
  obtain ⟨hd, hdc⟩ := ht.holder ho
  refine h.moveMutex (fun h' => absurd (ho ▸ h') (PpuId.id_ne_zero t)) h.nodup ?_
    (fun _ _ => Iff.rfl) (fun _ _ => Iff.rfl) ?_
  · exact ThreadInv.of_holder (h.not_mem_sq (by simp [hpc])) (h.not_mem_condSq (by simp [hpc]))
      ho (by simp [hdc])
  · intro e he h'
    exact absurd (PpuId.ext_id (ho ▸ h').symm) he

theorem inv_lockOk {c : Control} (h : Inv S s) (hpc : s.pc t = .idle)
    (hl : tryLock S.attr s.control t = (.ok, c)) :
    Inv S ({ s with control := c }.move t .idle (s.depth t + 1)) := by
  rcases tryLock_ok hl with ⟨ho, rfl⟩ | ⟨ho, rfl⟩
  · exact h.take ho (by simp [hpc]) s.prio
  · exact h.recurse hpc ho

theorem inv_lockBusy (h : Inv S s) (hpc : s.pc t = .idle)
    (hb : (tryLock S.attr s.control t).1 = .ebusy ∨ s.control.owner = 0) (timeout : Bool) :
    Inv S (s.move t (.lockBusy timeout) (s.depth t)) := by
  have ho : s.control.owner ≠ t.id := by
    rcases hb with hb | hb
    · exact (tryLock_ebusy.mp hb).2
    · rw [hb]
      exact (PpuId.id_ne_zero t).symm
  rw [h.depth_zero ho]
  refine h.moveThread ?_
  exact ThreadInv.of_free (by simpa using h.not_mem_sq (by simp [hpc]))
    (by simpa using h.not_mem_condSq (by simp [hpc])) ho rfl (by simp)

theorem inv_lockSpin {c : Control} {timeout : Bool} (h : Inv S s)
    (hpc : s.pc t = .lockBusy timeout) (hl : tryLock S.attr s.control t = (.ok, c)) :
    Inv S ({ s with control := c }.move t .idle (s.depth t + 1)) := by
  rcases tryLock_ok hl with ⟨ho, rfl⟩ | ⟨ho, _⟩
  · exact h.take ho (by simp [hpc]) s.prio
  · exact absurd ho ((h.thread t).not_owner (by simp [hpc]) (by simp [hpc]) (by simp [hpc]))

theorem inv_lockOwn {c : Control} {p : PrioTable} {timeout : Bool} (h : Inv S s)
    (hpc : s.pc t = .lockBusy timeout) (hl : tryOwn s.control s.prio t = (true, c, p)) :
    Inv S ({ s with control := c, prio := p }.move t .idle (s.depth t + 1)) := by
  obtain ⟨ho, rfl⟩ := tryOwn_true hl
  exact h.take ho (by simp [hpc]) p

theorem inv_lockSleep {c : Control} {p : PrioTable} {timeout : Bool} (h : Inv S s)
    (hpc : s.pc t = .lockBusy timeout) (hl : tryOwn s.control s.prio t = (false, c, p)) :
    Inv S ({ s with control := c, prio := p }.move t (.lockQueued timeout) (s.depth t)) := by
  obtain ⟨ho, rfl, -⟩ := tryOwn_false hl
  have hown : s.control.owner ≠ t.id :=
    (h.thread t).not_owner (by simp [hpc]) (by simp [hpc]) (by simp [hpc])
  rw [h.depth_zero hown]
  refine h.moveMutex (fun h' => absurd h' ho)
    (List.nodup_cons.mpr ⟨h.not_mem_sq (by simp [hpc]), h.nodup⟩) ?_ ?_
    (fun _ _ => Iff.rfl) (fun _ _ _ => rfl)
  · exact ThreadInv.of_free (by simp) (by simpa using h.not_mem_condSq (by simp [hpc])) hown rfl
      (by simp)
  · intro e he
    simp [he]

theorem inv_lockWake (h : Inv S s) (hpc : s.pc t = .lockWoken) :
    Inv S (s.move t .idle (s.depth t + 1)) := by
  have hw := (h.thread t).woken (by simp [hpc])
  have ho : s.control.owner = t.id := (h.thread t).owner.mpr (.inr (by simp [hpc]))
  have hd : s.depth t = 0 := (h.thread t).depth_zero_of_busy (by simp [hpc]) (by simp [hpc])
  refine h.moveThread ?_
  exact ThreadInv.of_holder (h.not_mem_sq (by simp [hpc])) (h.not_mem_condSq (by simp [hpc])) ho
    (by simp [hd, hw])

theorem inv_lockTimeout {c : Control} {r : CellError} (h : Inv S s)
    (hpc : s.pc t = .lockQueued true) (hl : lockTimeout s.control t = (r, c)) :
    r = .etimedout ∧ Inv S ({ s with control := c }.move t .idle (s.depth t)) := by
  have hmem : t ∈ s.control.sq := (h.thread t).queued.mpr (by simp [hpc])
  rw [lockTimeout_of_mem hmem] at hl
  obtain ⟨rfl, rfl⟩ := Prod.mk.inj hl
  have hown : s.control.owner ≠ t.id :=
    (h.thread t).not_owner (by simp [hpc]) (by simp [hpc]) (by simp [hpc])
  rw [h.depth_zero hown]
  refine ⟨rfl, h.moveMutex (fun h' => absurd (h.free h').1 (List.ne_nil_of_mem hmem))
    (h.nodup.erase t) ?_ ?_ (fun _ _ => Iff.rfl) (fun _ _ _ => rfl)⟩
  · exact ThreadInv.of_free (by simp [not_mem_erase_self h.nodup])
      (by simpa using h.not_mem_condSq (by simp [hpc])) hown rfl (by simp)
  · intro e he
    exact mem_erase_iff h.nodup |>.trans (and_iff_right he)

theorem inv_unlockFast {c : Control} {r : CellError} (h : Inv S s) (hpc : s.pc t = .idle)
    (hl : tryUnlock s.control t = (r, c)) (hr : r ≠ .ebusy) :
    Inv S ({ s with control := c }.move t .idle
      (if r = CellError.ok then s.depth t - 1 else s.depth t)) := by
  have ht := h.thread t
  rw [hpc] at ht
  have hsq : t ∉ s.control.sq := h.not_mem_sq (by simp [hpc])
  have hcq : t ∉ s.condSq := h.not_mem_condSq (by simp [hpc])
  rcases tryUnlock_done hl hr with ⟨rfl, ho, rfl⟩ | ⟨rfl, ho, hc, rfl⟩ | ⟨rfl, ho, hc, hsq', rfl⟩
  · -- `CELL_EPERM`: nothing moves
    refine h.moveThread ?_
    simpa using ht
  · -- one recursive lock undone
    obtain ⟨hd, hdc⟩ := ht.holder ho
    refine h.moveMutex (fun h' => absurd (ho ▸ h') (PpuId.id_ne_zero t)) h.nodup ?_
      (fun _ _ => Iff.rfl) (fun _ _ => Iff.rfl) (fun e he h' => ?_)
    · exact ThreadInv.of_holder hsq hcq ho (by simp; omega)
    · exact absurd (PpuId.ext_id (ho ▸ h').symm) he
  · -- the last lock released with nobody waiting
    obtain ⟨hd, hdc⟩ := ht.holder ho
    have hd1 : s.depth t - 1 = 0 := by omega
    refine h.moveMutex (fun _ => ⟨hsq', hc⟩) (by simp [hsq']) ?_ (fun _ _ => Iff.rfl) ?_
      (fun e _ h' => rfl)
    · simp only [if_true, hd1]
      exact ThreadInv.of_free (by simp [hsq']) (by simpa using hcq)
        (by simpa using (PpuId.id_ne_zero t).symm) rfl (by simp)
    · intro e he
      simp only [ho]
      exact ⟨fun h' => absurd h'.symm (PpuId.id_ne_zero e),
        fun h' => absurd (PpuId.ext_id h'.symm) he⟩

theorem inv_unlockBusy (h : Inv S s) (hpc : s.pc t = .idle)
    (hb : (tryUnlock s.control t).1 = .ebusy ∨
      (s.control.owner = t.id ∧ s.control.lockCount = 0)) :
    Inv S (s.move t .unlockSlow (s.depth t)) := by
  have ho : s.control.owner = t.id ∧ s.control.lockCount = 0 := by
    rcases hb with hb | hb
    · exact ⟨(tryUnlock_ebusy hb).1, (tryUnlock_ebusy hb).2.1⟩
    · exact hb
  have ht := h.thread t
  rw [hpc] at ht
  obtain ⟨hd, hdc⟩ := ht.holder ho.1
  refine h.moveThread ?_
  exact ⟨by simpa using ht.queued, by simpa using ht.waiting, by simp [ho.1, hd], ht.depth,
    fun _ => .inr rfl, by simp, fun _ => ⟨by omega, ho.2⟩⟩

/-- The owner `t` gives the mutex away: `reown`, on the control word with
`lock_count` cleared, makes the waiter `schedule` picks the owner and wakes
it, or frees the mutex. `t` goes to a position `p` outside the mutex holding
nothing, and the condition queue becomes `cq`. Both `sys_mutex_unlock` and
`sys_cond_wait` end their section under `mutex.mutex` so. -/
theorem Inv.handOver {w : Option PpuId} {c : Control} {cq : List PpuId} {prio : PrioTable}
    {f : PpuId → PpuPrio} {p : Pc} (h : Inv S s) (ho : s.control.owner = t.id)
    (ht : (s.pc t).inMutexQueue = false)
    (hl : reown S.attr { s.control with lockCount := 0 } f = (w, c))
    (hp : t ∈ cq ↔ p.inCondQueue) (hpq : p.inMutexQueue = false) (hpw : p.woken = false)
    (hps : p ≠ .unlockSlow) (hcq : ∀ e, e ≠ t → (e ∈ cq ↔ e ∈ s.condSq)) (hcn : cq.Nodup)
    (hlive : ∀ e ∈ cq, S.live e) :
    Inv S (({ s with control := c, condSq := cq, prio := prio }.move t p 0).wake w) := by
  have hts : t ∉ s.control.sq := h.not_mem_sq ht
  have hne : ∀ e : PpuId, e ≠ t → s.control.owner ≠ e.id := fun e he h' =>
    he (PpuId.ext_id (ho ▸ h').symm)
  cases w with
  | none =>
    obtain ⟨hsq, rfl⟩ := reown_none hl
    replace hsq : s.control.sq = [] := hsq
    refine h.move (fun _ => ⟨hsq, rfl⟩) (by simp [hsq]) hcn hlive ?_ (fun e _ => by simp [hsq])
      hcq ?_ (fun e he h' => absurd h' (hne e he))
    · exact ThreadInv.of_free (by simp [hsq, hpq]) hp (by simpa using (PpuId.id_ne_zero t).symm)
        hpw hps
    · intro e he
      exact ⟨fun h' => absurd h'.symm (PpuId.id_ne_zero e), fun h' => absurd h' (hne e he)⟩
  | some w =>
    obtain ⟨hw, rfl⟩ := reown_some hl
    have hwq : w ∈ s.control.sq := schedule_mem hw
    have hwm : (s.pc w).inMutexQueue := (h.thread w).queued.mp hwq
    have hwt : w ≠ t := by
      rintro rfl
      exact hts hwq
    have hwd : s.depth w = 0 :=
      (h.thread w).depth_zero (hne w hwt)
    refine ⟨fun h' => absurd h' (PpuId.id_ne_zero w), h.nodup.erase w, hcn, hlive, fun e => ?_⟩
    simp only [State.wake, State.move]
    by_cases hew : e = w
    · -- the new owner, woken
      subst hew
      simp only [Function.update_self, Function.update_of_ne hwt, hwd]
      refine ThreadInv.of_woken (not_mem_erase_self h.nodup e) ?_ rfl (Pc.woken_wake hwm) rfl
      rw [hcq e hwt, (h.thread e).waiting, Pc.not_inCondQueue_of_inMutexQueue hwm]
      simp
    · simp only [Function.update_of_ne hew]
      by_cases het : e = t
      · -- the thread that gave the mutex away
        subst het
        simp only [Function.update_self]
        refine ThreadInv.of_free ?_ hp (fun h' => hwt (PpuId.ext_id h')) hpw hps
        simp [mem_erase_iff h.nodup, hts, hpq]
      · simp only [Function.update_of_ne het]
        refine (h.thread e).frame ((mem_erase_iff h.nodup).trans (and_iff_right hew))
          (hcq e het) ?_ (fun h' => absurd h' (hne e het))
        exact ⟨fun h' => absurd (PpuId.ext_id h').symm hew, fun h' => absurd h' (hne e het)⟩

theorem inv_unlockReown {w : Option PpuId} {c : Control} (h : Inv S s)
    (hpc : s.pc t = .unlockSlow) (hl : reown S.attr s.control s.prio.prio = (w, c)) :
    Inv S (({ s with control := c }.move t .idle (s.depth t - 1)).wake w) := by
  obtain ⟨hd, hc⟩ := (h.thread t).slow hpc
  have ho : s.control.owner = t.id := (h.thread t).owner.mpr (.inl (by omega))
  rw [← Control.with_lockCount_eq hc] at hl
  rw [hd]
  exact h.handOver ho (by simp [hpc]) hl
    (by simpa using h.not_mem_condSq (by simp [hpc])) rfl rfl (by simp)
    (fun _ _ => Iff.rfl) h.condNodup h.live

theorem inv_waitSleep {count : Nat} {w : Option PpuId} {c : Control} {cq : List PpuId}
    {p : PrioTable} (h : Inv S s) (hpc : s.pc t = .idle) (ho : s.control.owner = t.id)
    (hlive : S.live t) (hl : waitEnter S.attr s.control s.condSq s.prio t = (count, w, c, cq, p))
    (timeout : Bool) :
    Inv S (({ s with control := c, condSq := cq, prio := p }.move t
      (.condQueued timeout count) 0).wake w) := by
  obtain ⟨-, hr, rfl, rfl⟩ := waitEnter_eq hl
  have hcq : t ∉ s.condSq := h.not_mem_condSq (by simp [hpc])
  refine h.handOver ho (by simp [hpc]) hr (by simp) rfl rfl (by simp) ?_
    (List.nodup_cons.mpr ⟨hcq, h.condNodup⟩) ?_
  · intro e he
    simp [he]
  · intro e he
    rcases List.mem_cons.mp he with rfl | he
    · exact hlive
    · exact h.live e he

theorem inv_waitReturn {count : Nat} {r : CellError} (h : Inv S s)
    (hpc : s.pc t = .condWoken count r) :
    Inv S ({ s with control := { s.control with lockCount := count } }.move t .idle
      (count + 1)) := by
  have ho : s.control.owner = t.id := (h.thread t).owner.mpr (.inr (by simp [hpc]))
  refine h.moveMutex (fun h' => absurd (ho ▸ h') (PpuId.id_ne_zero t)) h.nodup ?_
    (fun _ _ => Iff.rfl) (fun _ _ => Iff.rfl) ?_
  · exact ThreadInv.of_holder (h.not_mem_sq (by simp [hpc])) (h.not_mem_condSq (by simp [hpc]))
      ho rfl
  · intro e he h'
    exact absurd (PpuId.ext_id (ho ▸ h').symm) he

/-- A signal, or the waiter's own timeout, takes the waiter `w` out of the
condition queue and `try_own`s the mutex for it. -/
theorem Inv.signalOne {w : PpuId} {owned : Bool} {c : Control} {p : PrioTable}
    (ret : CellError) (h : Inv S s) (hw : w ∈ s.condSq)
    (ho : tryOwn s.control s.prio w = (owned, c, p)) :
    Inv S ({ s with control := c, condSq := s.condSq.erase w, prio := p }.signaled w owned
      ret) := by
  have hwc : (s.pc w).inCondQueue := (h.thread w).waiting.mp hw
  obtain ⟨b, n, hpc⟩ : ∃ b n, s.pc w = .condQueued b n := by
    cases hp : s.pc w <;> simp_all
  have hown : s.control.owner ≠ w.id :=
    (h.thread w).not_owner (by simp [hpc]) (by simp [hpc]) (by simp [hpc])
  have hwq : w ∉ s.control.sq := h.not_mem_sq (by simp [hpc])
  rw [State.signaled_eq_move]
  simp only [hpc, h.depth_zero hown]
  have hcq : ∀ e, e ≠ w → (e ∈ s.condSq.erase w ↔ e ∈ s.condSq) := fun e he =>
    (mem_erase_iff h.condNodup).trans (and_iff_right he)
  have hlive : ∀ e ∈ s.condSq.erase w, S.live e := fun e he =>
    h.live e (List.mem_of_mem_erase he)
  cases owned with
  | true =>
    -- the mutex was free: the waiter owns it and is woken
    obtain ⟨hfree, rfl⟩ := tryOwn_true ho
    obtain ⟨hsq, hc⟩ := h.free hfree
    refine h.move (fun h' => absurd h' (PpuId.id_ne_zero w)) (by simp [hsq])
      (h.condNodup.erase w) hlive ?_ (fun _ _ => Iff.rfl) hcq ?_ ?_
    · exact ThreadInv.of_woken (by simp [hsq]) (not_mem_erase_self h.condNodup w) rfl
        (by simp) hc
    · intro e he
      simp only [hfree]
      exact ⟨fun h' => absurd (PpuId.ext_id h').symm he,
        fun h' => absurd h'.symm (PpuId.id_ne_zero e)⟩
    · intro e _ h'
      exact absurd (hfree ▸ h').symm (PpuId.id_ne_zero e)
  | false =>
    -- the mutex was held: the waiter moves to the mutex queue
    obtain ⟨hheld, rfl, -⟩ := tryOwn_false ho
    refine h.move (fun h' => absurd h' hheld) (List.nodup_cons.mpr ⟨hwq, h.nodup⟩)
      (h.condNodup.erase w) hlive ?_ (fun e he => by simp [he]) hcq (fun _ _ => Iff.rfl)
      (fun _ _ _ => rfl)
    exact ThreadInv.of_free (by simp) (by simp [not_mem_erase_self h.condNodup w]) hown rfl
      (by simp)

theorem inv_waitTimedOut {count : Nat} {r : CellError} {owned : Bool} {c : Control}
    {cq : List PpuId} {p : PrioTable} (h : Inv S s) (hpc : s.pc t = .condQueued true count)
    (hl : waitTimeout s.control s.condSq s.prio t = (r, owned, c, cq, p)) :
    Inv S ({ s with control := c, condSq := cq, prio := p }.signaled t owned r) := by
  have ht : t ∈ s.condSq := (h.thread t).waiting.mpr (by simp [hpc])
  obtain ⟨-, ho, rfl⟩ := waitTimeout_of_mem ht hl
  exact h.signalOne r ht ho

/-- The drain loop of `sys_cond_signal_all` keeps the invariant: each turn is
one `Inv.signalOne`, and the loop stops when the queue is empty. The
induction is on the fuel, which is the length of the queue. -/
theorem Inv.drain (n : Nat) {q : State} {picks : List (PpuId × Bool)} {c : Control}
    {p : PrioTable} (h : Inv S q) (hn : q.condSq.length = n)
    (hl : signalAllLoop n q.condSq q.control q.prio = (picks, c, p)) :
    Inv S ({ q with control := c, condSq := [], prio := p }.signaledAll picks) := by
  induction n generalizing q picks c p with
  | zero =>
    have hnil : q.condSq = [] := List.eq_nil_of_length_eq_zero hn
    obtain ⟨rfl, rfl, rfl⟩ : picks = [] ∧ c = q.control ∧ p = q.prio := by
      simp only [signalAllLoop, Prod.mk.injEq] at hl
      exact ⟨hl.1.symm, hl.2.1.symm, hl.2.2.symm⟩
    rw [← hnil]
    exact h
  | succ n ih =>
    have hne : q.condSq ≠ [] := List.ne_nil_of_length_eq_add_one hn
    obtain ⟨w, hw⟩ := schedule_isSome .priority q.prio.prio hne
    have hwm : w ∈ q.condSq := schedule_mem hw
    rw [signalAllLoop_some hw] at hl
    generalize hr : signalAllLoop n (q.condSq.erase w) (tryOwn q.control q.prio w).2.1
      (tryOwn q.control q.prio w).2.2 = rest at hl
    obtain ⟨rest, c', p'⟩ := rest
    simp only [Prod.mk.injEq] at hl
    obtain ⟨rfl, rfl, rfl⟩ := hl
    -- one turn: `w` signalled, then the rest of the loop from there
    have ho : tryOwn q.control q.prio w = ((tryOwn q.control q.prio w).1,
        (tryOwn q.control q.prio w).2.1, (tryOwn q.control q.prio w).2.2) := rfl
    have hn1 : (q.condSq.erase w).length = n := by
      rw [List.length_erase_of_mem hwm, hn]
      rfl
    -- the loop goes on from the state after the turn, which the goal unfolds to
    have hrest := ih (h.signalOne .ok hwm ho) hn1 hr
    exact hrest

theorem inv_condSignal {res : Option (PpuId × Bool)} {c : Control} {cq : List PpuId}
    {p : PrioTable} (h : Inv S s) (hl : signal S.attr s.control s.condSq s.prio = (res, c, cq, p)) :
    Inv S ({ s with control := c, condSq := cq, prio := p }.signaledAll res.toList) := by
  cases res with
  | none =>
    obtain ⟨-, rfl, rfl, rfl⟩ := signal_none hl
    exact h
  | some x =>
    obtain ⟨hw, ho, rfl⟩ := signal_some hl
    exact h.signalOne .ok (schedule_mem hw) ho

theorem inv_condSignalTo {u : PpuId} {owned : Bool} {c : Control} {cq : List PpuId}
    {p : PrioTable} (h : Inv S s)
    (hl : signalTo s.control s.condSq s.prio u = some (owned, c, cq, p)) :
    Inv S ({ s with control := c, condSq := cq, prio := p }.signaled u owned .ok) := by
  obtain ⟨hu, ho, rfl⟩ := signalTo_some hl
  exact h.signalOne .ok hu ho

/-- Every step keeps the invariant. -/
theorem inv_step : Transition.Preserved (Step S) (Inv S) := by
  intro s l s' h hs
  cases hs with
  | lockOk _ _ hpc hl => exact inv_lockOk h hpc hl
  | lockError => exact h
  | trylockBusy => exact h
  | lockBusy timeout hpc hb => exact inv_lockBusy h hpc hb timeout
  | lockSpin hpc hl => exact inv_lockSpin h hpc hl
  | lockOwn hpc hl => exact inv_lockOwn h hpc hl
  | lockSleep hpc hl => exact inv_lockSleep h hpc hl
  | lockWake hpc => exact inv_lockWake h hpc
  | lockTimeout hpc hl =>
    obtain ⟨rfl, hi⟩ := inv_lockTimeout h hpc hl
    exact hi
  | unlockFast hpc hl hr => exact inv_unlockFast h hpc hl hr
  | unlockBusy hpc hb => exact inv_unlockBusy h hpc hb
  | unlockReown hpc hl => exact inv_unlockReown h hpc hl
  | waitPerm => exact h
  | waitSleep timeout hpc ho hlive hl => exact inv_waitSleep h hpc ho hlive hl timeout
  | waitTimedOut hpc hl => exact inv_waitTimedOut h hpc hl
  | waitReturn hpc => exact inv_waitReturn h hpc
  | condSignal _ hl => exact inv_condSignal h hl
  | condSignalAll _ hl => exact Inv.drain _ h rfl hl
  | condSignalTo _ _ hl => exact inv_condSignalTo h hl
  | condSignalToPerm => exact h
  | condSignalToSrch => exact h

theorem inv_reachable {s : State} (h : Reachable S s) : Inv S s :=
  Transition.Reachable.invariant (fun _ => inv_init) inv_step h

end Steps

/-! ### What the invariant gives -/

/-- The thread holds the mutex: it has returned `CELL_OK` from more lock calls
than unlock calls, not counting the locks a `sys_cond_wait` put aside. -/
def Owns (s : State) (t : PpuId) : Prop := 0 < s.depth t

/-- Owning is the same as being `control.owner` outside a call other than
`sys_mutex_unlock`, and the count of held locks is `lock_count + 1`. -/
theorem Inv.owns {S : Setup} {s : State} {t : PpuId} (h : Inv S s) (ht : Owns s t) :
    s.control.owner = t.id ∧ s.depth t = s.control.lockCount + 1 :=
  ⟨(h.thread t).owner.mpr (.inl ht), (h.thread t).depth ht⟩

/-- A thread asleep in either queue does not own the mutex. -/
theorem ThreadInv.not_owner_of_asleep {c : Control} {cq : List PpuId} {t : PpuId} {p : Pc}
    {d : Nat} (h : ThreadInv c cq t p d) (hp : p.inMutexQueue ∨ p.inCondQueue) :
    c.owner ≠ t.id := by
  have hne : p ≠ .idle ∧ p ≠ .unlockSlow ∧ p.woken = false := by
    cases p <;> simp_all
  exact h.not_owner hne.1 hne.2.1 hne.2.2

section Returns

variable {S : Setup} {s s' : State} {t : PpuId}

/-- A lock call that returns `CELL_OK` leaves its thread the owner. -/
theorem lock_ok_owner {call : Call} (h : Inv S s) (hs : Step S s ⟨t, call, some .ok⟩ s')
    (hcall : call = .lock ∨ call = .trylock) : s'.control.owner = t.id := by
  cases hs with
  | lockOk _ _ _ hl =>
    rcases tryLock_ok hl with ⟨_, rfl⟩ | ⟨ho, rfl⟩
    · rfl
    · exact ho
  | lockSpin _ hl =>
    rcases tryLock_ok hl with ⟨_, rfl⟩ | ⟨ho, rfl⟩
    · rfl
    · exact ho
  | lockOwn _ hl =>
    obtain ⟨_, rfl⟩ := tryOwn_true hl
    rfl
  | lockWake hpc => exact (h.thread t).owner.mpr (.inr (by simp [hpc]))
  | lockTimeout hpc hl => cases (inv_lockTimeout h hpc hl).1
  | lockError _ _ _ _ hr => exact absurd rfl hr
  | unlockFast | unlockReown | waitReturn | condSignal | condSignalAll | condSignalTo =>
    simp at hcall

/-- An unlock by a thread that does not own the mutex is refused and
changes nothing. -/
theorem unlock_not_owner {r : CellError} (h : Inv S s) (hs : Step S s ⟨t, .unlock, some r⟩ s')
    (ho : s.control.owner ≠ t.id) : r = .eperm ∧ s' = s := by
  cases hs with
  | lockOk call hcall => simp at hcall
  | lockError call hcall => simp at hcall
  | unlockFast hpc hl hr =>
    rcases tryUnlock_done hl hr with ⟨rfl, _, rfl⟩ | ⟨_, ho', _⟩ | ⟨_, ho', _⟩
    · refine ⟨rfl, ?_⟩
      simp only [State.move, reduceCtorEq, if_false]
      rw [← hpc, Function.update_eq_self, Function.update_eq_self]
    · exact absurd ho' ho
    · exact absurd ho' ho
  | unlockReown hpc =>
    obtain ⟨hd, _⟩ := (h.thread t).slow hpc
    exact absurd ((h.thread t).owner.mpr (.inl (by omega))) ho

/-- An unlock that returns `CELL_OK` with `lock_count == 0` and waiters queued
hands the mutex to the waiter `schedule` picks, takes it out of `sq` and
wakes it. -/
theorem unlock_hands_over (h : Inv S s) (hs : Step S s ⟨t, .unlock, some .ok⟩ s')
    (hc : s.control.lockCount = 0) (hq : s.control.sq ≠ []) :
    ∃ w, schedule S.attr.protocol s.prio.prio s.control.sq = some w ∧ s'.control.owner = w.id ∧
      s'.control.sq = s.control.sq.erase w ∧ s'.pc w = (s.pc w).wake := by
  cases hs with
  | lockOk call hcall => simp at hcall
  | lockError call hcall => simp at hcall
  | unlockFast hpc hl hr =>
    rcases tryUnlock_done hl hr with ⟨hr', _⟩ | ⟨_, _, hc', _⟩ | ⟨_, _, _, hsq, _⟩
    · cases hr'
    · exact absurd hc hc'
    · exact absurd hsq hq
  | @unlockReown _ w c hpc hl =>
    cases w with
    | none => exact absurd (reown_none hl).1 hq
    | some w =>
      obtain ⟨hw, rfl⟩ := reown_some hl
      have hwt : w ≠ t := by
        rintro rfl
        have hq := (h.thread w).queued.mp (schedule_mem hw)
        rw [hpc] at hq
        cases hq
      refine ⟨w, hw, rfl, rfl, ?_⟩
      simp [State.wake, State.move, Function.update_of_ne hwt]

/-- An unlock that returns `CELL_OK` undoes one lock, and its thread stays the
owner exactly when it held more than one. -/
theorem unlock_ok_depth (h : Inv S s) (hs : Step S s ⟨t, .unlock, some .ok⟩ s') :
    s'.depth t = s.depth t - 1 ∧ (s'.control.owner = t.id ↔ 1 < s.depth t) := by
  cases hs with
  | lockOk call hcall => simp at hcall
  | lockError call hcall => simp at hcall
  | unlockFast hpc hl hr =>
    have ht := h.thread t
    rw [hpc] at ht
    rcases tryUnlock_done hl hr with ⟨hr', _⟩ | ⟨_, ho, hc, rfl⟩ | ⟨_, ho, hc, _, rfl⟩
    · cases hr'
    · obtain ⟨hd, hdc⟩ := ht.holder ho
      refine ⟨by simp, ?_⟩
      show s.control.owner = t.id ↔ 1 < s.depth t
      simp only [ho, true_iff]
      omega
    · obtain ⟨hd, hdc⟩ := ht.holder ho
      refine ⟨by simp, ?_⟩
      simp only [State.move_control]
      constructor
      · intro h'
        exact absurd h'.symm (PpuId.id_ne_zero t)
      · intro _
        omega
  | @unlockReown _ w c hpc hl =>
    obtain ⟨hd, _⟩ := (h.thread t).slow hpc
    cases w with
    | none =>
      obtain ⟨_, rfl⟩ := reown_none hl
      exact ⟨by simp, by simp [hd, (PpuId.id_ne_zero t).symm]⟩
    | some w =>
      obtain ⟨hw, rfl⟩ := reown_some hl
      have hwt : w ≠ t := by
        rintro rfl
        have hq := (h.thread w).queued.mp (schedule_mem hw)
        rw [hpc] at hq
        cases hq
      refine ⟨by simp, ?_⟩
      show w.id = t.id ↔ 1 < s.depth t
      simp only [hd, Nat.lt_irrefl, iff_false]
      exact fun h' => hwt (PpuId.ext_id h')

end Returns

/-- What the lv2 mutex guarantees in a state of any interleaving of
`sys_mutex_lock` (busy-wait, `try_own` and sleep, timeout),
`sys_mutex_trylock` and `sys_mutex_unlock`, also with `sys_cond_*` calls on a
condition bound to it. -/
structure MutexOwnership (S : Setup) (s : State) : Prop where
  /-- At most one thread owns the mutex. -/
  unique : ∀ t u, Owns s t → Owns s u → t = u
  /-- The owner is `control.owner`, and it holds `lock_count + 1` locks. -/
  owner : ∀ t, Owns s t → s.control.owner = t.id ∧ s.depth t = s.control.lockCount + 1
  /-- A thread in `sq` is not the owner. -/
  queued : ∀ t ∈ s.control.sq, s.control.owner ≠ t.id
  /-- A free mutex has an empty queue and a zero `lock_count`. -/
  free : s.control.owner = 0 → s.control.sq = [] ∧ s.control.lockCount = 0
  /-- A lock call returns `CELL_OK` only to the thread that became owner. -/
  lock_ok : ∀ t call s', (call = .lock ∨ call = .trylock) → Step S s ⟨t, call, some .ok⟩ s' →
    s'.control.owner = t.id
  /-- An unlock by a non-owner returns `CELL_EPERM` and changes nothing. -/
  unlock_perm : ∀ t r s', Step S s ⟨t, .unlock, some r⟩ s' → s.control.owner ≠ t.id →
    r = .eperm ∧ s' = s
  /-- An unlock that releases the last lock while threads wait hands the mutex
  to the waiter `schedule` picks, removes it from `sq` and wakes it. -/
  hand_over : ∀ t s', Step S s ⟨t, .unlock, some .ok⟩ s' → s.control.lockCount = 0 →
    s.control.sq ≠ [] →
    ∃ w, schedule S.attr.protocol s.prio.prio s.control.sq = some w ∧
      s'.control.owner = w.id ∧ s'.control.sq = s.control.sq.erase w ∧ s'.pc w = (s.pc w).wake
  /-- A successful unlock undoes one lock, and the owner stays exactly while
  more than one was held: `n` nested locks after the first need `n + 1`
  unlocks before the owner changes. -/
  unlock_depth : ∀ t s', Step S s ⟨t, .unlock, some .ok⟩ s' →
    s'.depth t = s.depth t - 1 ∧ (s'.control.owner = t.id ↔ 1 < s.depth t)

/-- Every reachable state of the mutex keeps its contract. -/
theorem mutex_ownership {S : Setup} {s : State} (hs : Reachable S s) : MutexOwnership S s := by
  have h := inv_reachable hs
  exact {
    unique := fun t u ht hu => PpuId.ext_id ((h.owns ht).1.symm.trans (h.owns hu).1)
    owner := fun t ht => h.owns ht
    queued := fun t ht => (h.thread t).not_owner_of_asleep (.inl ((h.thread t).queued.mp ht))
    free := h.free
    lock_ok := fun t call s' hc hstep => lock_ok_owner h hstep hc
    unlock_perm := fun t r s' hstep ho => unlock_not_owner h hstep ho
    hand_over := fun t s' hstep hl hq => unlock_hands_over h hstep hl hq
    unlock_depth := fun t s' hstep => unlock_ok_depth h hstep }

/-- A fresh mutex and condition, with nobody inside a call. -/
def State.fresh : State where
  control := ⟨0, [], 0⟩
  condSq := []
  prio := ⟨0, fun _ => ⟨0, 0⟩⟩
  pc := fun _ => .idle
  depth := fun _ => 0

theorem State.fresh_init : State.fresh.Init :=
  ⟨rfl, rfl, fun _ => rfl, fun _ => rfl⟩

/-- The thread with id 3. -/
def lockerThree : PpuId := ⟨3, PpuId.pos_three⟩

/-- The thread with id 4. -/
def lockerFour : PpuId := ⟨4, PpuId.pos_four⟩

/-- A recursive priority mutex: thread 3 locks it, then thread 4 calls `sys_mutex_lock`, finds
it held and goes to sleep on its queue. -/
theorem mutex_ownership_contended :
    ∃ s, Reachable ⟨⟨.priority, sysSyncRecursive⟩, fun _ => True⟩ s ∧
      s.control.owner = 3 ∧ s.control.sq = [lockerFour] ∧
      MutexOwnership ⟨⟨.priority, sysSyncRecursive⟩, fun _ => True⟩ s := by
  have h₁ := (Transition.Reachable.of_init State.fresh_init).next
    (Step.lockOk (S := ⟨⟨.priority, sysSyncRecursive⟩, fun _ => True⟩) (t := lockerThree) .lock
      (.inl rfl) rfl rfl)
  have h₂ := h₁.next (Step.lockBusy (t := lockerFour) false rfl (.inl rfl))
  have h₃ := h₂.next (Step.lockSleep (t := lockerFour) rfl rfl)
  exact ⟨_, h₃, rfl, rfl, mutex_ownership h₃⟩

/-! ### Condition waits -/

/-- `t` is inside `sys_cond_wait` with the count `n` put aside, and the code
it will return is `CELL_OK` or `CELL_ETIMEDOUT`. -/
def Pc.WaitsWith (n : Nat) : Pc → Prop
  | .condQueued _ m => m = n
  | .condRequeued m r | .condWoken m r => m = n ∧ (r = .ok ∨ r = .etimedout)
  | .idle | .lockBusy _ | .lockQueued _ | .lockWoken | .unlockSlow => False

theorem Pc.WaitsWith.wake {n : Nat} {p : Pc} (h : p.WaitsWith n) : p.wake.WaitsWith n := by
  cases p <;> exact h

theorem Pc.WaitsWith.signaled {n : Nat} {p : Pc} (owned : Bool) {r : CellError}
    (hr : r = .ok ∨ r = .etimedout) (h : p.WaitsWith n) : (p.signaled owned r).WaitsWith n := by
  cases p <;> cases owned <;> simp_all [Pc.WaitsWith]

@[simp] theorem State.signaledAll_control (s : State) (picks : List (PpuId × Bool)) :
    (s.signaledAll picks).control = s.control := by
  induction picks generalizing s with
  | nil => rfl
  | cons x rest ih => exact ih _

@[simp] theorem State.signaledAll_condSq (s : State) (picks : List (PpuId × Bool)) :
    (s.signaledAll picks).condSq = s.condSq := by
  induction picks generalizing s with
  | nil => rfl
  | cons x rest ih => exact ih _

section WaitsWith

variable {s : State} {t : PpuId} {n : Nat}

theorem State.waitsWith_move {u : PpuId} (p : Pc) (d : Nat) (hu : t ≠ u)
    (h : (s.pc t).WaitsWith n) : ((s.move u p d).pc t).WaitsWith n := by
  rwa [State.move_pc_other _ _ _ hu]

theorem State.waitsWith_wake (w : Option PpuId) (h : (s.pc t).WaitsWith n) :
    ((s.wake w).pc t).WaitsWith n := by
  cases w with
  | none => exact h
  | some w =>
    simp only [State.wake]
    by_cases htw : t = w
    · subst htw
      rw [Function.update_self]
      exact h.wake
    · rwa [Function.update_of_ne htw]

theorem State.waitsWith_signaled (w : PpuId) (owned : Bool) {r : CellError}
    (hr : t = w → r = .ok ∨ r = .etimedout) (h : (s.pc t).WaitsWith n) :
    ((s.signaled w owned r).pc t).WaitsWith n := by
  simp only [State.signaled]
  by_cases htw : t = w
  · subst htw
    rw [Function.update_self]
    exact h.signaled owned (hr rfl)
  · rwa [Function.update_of_ne htw]

theorem State.waitsWith_signaledAll (picks : List (PpuId × Bool)) (h : (s.pc t).WaitsWith n) :
    ((s.signaledAll picks).pc t).WaitsWith n := by
  induction picks generalizing s with
  | nil => exact h
  | cons x rest ih => exact ih (State.waitsWith_signaled x.1 x.2 (fun _ => .inl rfl) h)

end WaitsWith

/-- A step that is not a return of `t` keeps `t` inside its `sys_cond_wait`
with the same count put aside: the steps of other threads only wake or
signal it, and its own step can only be its timeout. -/
theorem waitsWith_step {S : Setup} {s s' : State} {l : Label} {t : PpuId} {n : Nat}
    (hs : Step S s l s') (hl : l.thread = t → l.ret = none) (h : (s.pc t).WaitsWith n) :
    (s'.pc t).WaitsWith n := by
  obtain ⟨u, call, ret⟩ := l
  by_cases hut : u = t
  · -- the waiter's own step
    subst hut
    obtain rfl : ret = none := hl rfl
    cases hs with
    | lockBusy _ hpc _ =>
      rw [hpc] at h
      exact h.elim
    | lockSleep hpc _ =>
      rw [hpc] at h
      exact h.elim
    | unlockBusy hpc _ =>
      rw [hpc] at h
      exact h.elim
    | waitSleep _ hpc _ _ _ =>
      rw [hpc] at h
      exact h.elim
    | waitTimedOut _ hl' =>
      have hr := waitTimeout_ret s.control s.condSq s.prio u
      rw [hl'] at hr
      exact State.waitsWith_signaled _ _ (fun _ => hr.symm) h
  · -- another thread's step
    have hne : t ≠ u := fun h' => hut h'.symm
    cases hs with
    | lockOk | lockSpin | lockOwn | lockSleep | lockWake | lockTimeout | unlockFast
      | waitReturn | lockBusy | unlockBusy =>
      exact State.waitsWith_move _ _ hne h
    | lockError | trylockBusy | waitPerm | condSignalToPerm | condSignalToSrch => exact h
    | unlockReown | waitSleep => exact State.waitsWith_wake _ (State.waitsWith_move _ _ hne h)
    | waitTimedOut => exact State.waitsWith_signaled _ _ (fun h' => absurd h' hne) h
    | condSignal | condSignalAll => exact State.waitsWith_signaledAll _ h
    | condSignalTo => exact State.waitsWith_signaled _ _ (fun _ => .inl rfl) h

section CondReturns

variable {S : Setup} {s s' : State} {t : PpuId}

/-- A thread is in at most one of the condition queue, the mutex queue and
the owner word. -/
theorem Inv.one_place (h : Inv S s) (t : PpuId) :
    (t ∈ s.condSq → t ∉ s.control.sq ∧ s.control.owner ≠ t.id) ∧
      (t ∈ s.control.sq → s.control.owner ≠ t.id) := by
  refine ⟨fun hc => ⟨fun hq => ?_, ?_⟩, fun hq => ?_⟩
  · have hw := (h.thread t).waiting.mp hc
    rw [Pc.not_inCondQueue_of_inMutexQueue ((h.thread t).queued.mp hq)] at hw
    cases hw
  · exact (h.thread t).not_owner_of_asleep (.inr ((h.thread t).waiting.mp hc))
  · exact (h.thread t).not_owner_of_asleep (.inl ((h.thread t).queued.mp hq))

/-- A thread inside `sys_cond_wait` is asleep in the condition queue, asleep
in the mutex queue, or the owner about to return. -/
theorem Inv.waiter_placed {n : Nat} (h : Inv S s) (hw : (s.pc t).WaitsWith n) :
    t ∈ s.condSq ∨ t ∈ s.control.sq ∨ s.control.owner = t.id := by
  have ht := h.thread t
  cases hp : s.pc t with
  | condQueued b m => exact .inl (ht.waiting.mpr (by simp [hp]))
  | condRequeued m r => exact .inr (.inl (ht.queued.mpr (by simp [hp])))
  | condWoken m r => exact .inr (.inr (ht.owner.mpr (.inr (by simp [hp]))))
  | idle | lockBusy | lockQueued | lockWoken | unlockSlow =>
    rw [hp] at hw
    exact hw.elim

/-- `sys_cond_wait` by a thread that does not own the mutex returns
`CELL_EPERM` and changes nothing. -/
theorem wait_not_owner {r : Option CellError} (hs : Step S s ⟨t, .wait, r⟩ s')
    (hpc : s.pc t = .idle) (ho : s.control.owner ≠ t.id) : r = some .eperm ∧ s' = s := by
  cases hs with
  | lockOk call hcall => simp at hcall
  | lockError call hcall => simp at hcall
  | waitPerm => exact ⟨rfl, rfl⟩
  | waitSleep _ _ ho' => exact absurd ho' ho
  | waitTimedOut hpc' => simp [hpc] at hpc'
  | waitReturn hpc' => simp [hpc] at hpc'

/-- A `sys_cond_wait` that passed the owner check leaves its thread waiting
with the `lock_count` of the call put aside. -/
theorem wait_enter_waits {r : Option CellError} (h : Inv S s)
    (hs : Step S s ⟨t, .wait, r⟩ s') (hpc : s.pc t = .idle) (hr : r = none) :
    (s'.pc t).WaitsWith s.control.lockCount ∧ s.depth t = s.control.lockCount + 1 := by
  subst hr
  cases hs with
  | waitSleep timeout _ ho _ hl =>
    obtain ⟨rfl, -, -, -⟩ := waitEnter_eq hl
    have ht := h.thread t
    rw [hpc] at ht
    refine ⟨State.waitsWith_wake _ ?_, (ht.holder ho).2⟩
    simp [Pc.WaitsWith]
  | waitTimedOut hpc' => simp [hpc] at hpc'

/-- The return of a waiting thread: it owns the mutex, and `lock_count` and
its held locks are the count it put aside, plus one for the held locks. -/
theorem wait_return_owner {n : Nat} {r : CellError} (h : Inv S s)
    (hs : Step S s ⟨t, .wait, some r⟩ s') (hw : (s.pc t).WaitsWith n) :
    (r = .ok ∨ r = .etimedout) ∧ s'.control.owner = t.id ∧ s'.control.lockCount = n ∧
      s'.depth t = n + 1 := by
  cases hs with
  | lockOk call hcall => simp at hcall
  | lockError call hcall => simp at hcall
  | waitPerm hpc =>
    rw [hpc] at hw
    exact hw.elim
  | @waitReturn _ count _ hpc =>
    rw [hpc] at hw
    obtain ⟨rfl, hr⟩ := hw
    exact ⟨hr, (h.thread t).owner.mpr (.inr (by simp [hpc])), rfl, by simp⟩

/-- Every `sys_cond_wait` that passed the owner check, followed by any run
in which the waiter itself returns nothing, returns `CELL_OK` or
`CELL_ETIMEDOUT` with its thread the owner, `lock_count` as it was at the
call and the thread's held locks as they were at the call. -/
theorem wait_restores {s₁ s₂ s₃ : State} {as : List Label} {r : CellError}
    (hs : Reachable S s) (hpc : s.pc t = .idle) (h₁ : Step S s ⟨t, .wait, none⟩ s₁)
    (hrun : Transition.Run (Step S) s₁ as s₂) (hl : ∀ l ∈ as, l.thread = t → l.ret = none)
    (h₃ : Step S s₂ ⟨t, .wait, some r⟩ s₃) :
    (r = .ok ∨ r = .etimedout) ∧ s₃.control.owner = t.id ∧
      s₃.control.lockCount = s.control.lockCount ∧ s₃.depth t = s.depth t := by
  obtain ⟨hw₁, hd⟩ := wait_enter_waits (inv_reachable hs) h₁ hpc rfl
  -- the waiter keeps its count along the run
  have hstep : ∀ q l q', (l.thread = t → l.ret = none) →
      (q.pc t).WaitsWith s.control.lockCount → Step S q l q' →
      (q'.pc t).WaitsWith s.control.lockCount :=
    fun _ _ _ hg hw hst => waitsWith_step hst hg hw
  have hw₂ : (s₂.pc t).WaitsWith s.control.lockCount := hrun.preserves hstep hl hw₁
  have hreach : Reachable S s₂ := (hs.next h₁).run hrun
  obtain ⟨hok, ho, hc, hd₃⟩ := wait_return_owner (inv_reachable hreach) h₃ hw₂
  exact ⟨hok, ho, hc, hd₃.trans hd.symm⟩

/-- `sys_cond_signal`: with an empty condition queue nothing changes;
otherwise the waiter `schedule` picks with the mutex's protocol leaves the
queue and owns the mutex if it was free, or joins the mutex queue behind a
held mutex. -/
theorem signal_moves_one {r : Option CellError} (hs : Step S s ⟨t, .signal, r⟩ s') :
    (s.condSq = [] → s' = s) ∧
      (s.condSq ≠ [] → ∃ w, schedule S.attr.protocol s.prio.prio s.condSq = some w ∧
        s'.condSq = s.condSq.erase w ∧ (s.control.owner = 0 → s'.control.owner = w.id) ∧
        (s.control.owner ≠ 0 → s'.control.owner = s.control.owner ∧ w ∈ s'.control.sq)) := by
  cases hs with
  | lockOk call hcall => simp at hcall
  | lockError call hcall => simp at hcall
  | @condSignal _ res c cq p _ hl =>
    cases res with
    | none =>
      obtain ⟨hnil, rfl, rfl, rfl⟩ := signal_none hl
      exact ⟨fun _ => rfl, fun hne => absurd hnil hne⟩
    | some x =>
      obtain ⟨w, owned⟩ := x
      obtain ⟨hw, ho, rfl⟩ := signal_some hl
      refine ⟨fun hnil => absurd (schedule_mem hw) (by simp [hnil]), fun _ => ⟨w, hw, rfl, ?_⟩⟩
      cases owned with
      | true =>
        obtain ⟨hfree, rfl⟩ := tryOwn_true ho
        exact ⟨fun _ => rfl, fun h' => absurd hfree h'⟩
      | false =>
        obtain ⟨hheld, rfl, -⟩ := tryOwn_false ho
        exact ⟨fun h' => absurd h' hheld, fun _ => ⟨rfl, List.mem_cons_self⟩⟩

/-- `sys_cond_signal_all`: the condition queue is emptied, every waiter that
was in it owns the mutex or sleeps in the mutex queue, and a held mutex keeps
its owner. -/
theorem signalAll_moves_all {r : Option CellError} (hs : Step S s ⟨t, .signalAll, r⟩ s') :
    s'.condSq = [] ∧ (∀ w ∈ s.condSq, s'.control.owner = w.id ∨ w ∈ s'.control.sq) ∧
      (s.control.owner ≠ 0 → s'.control.owner = s.control.owner) := by
  cases hs with
  | lockOk call hcall => simp at hcall
  | lockError call hcall => simp at hcall
  | condSignalAll _ hl =>
    obtain ⟨hw, -, hown⟩ := signalAllLoop_moves _ rfl hl
    exact ⟨by simp, by simpa using hw, by simpa using hown⟩

/-- `sys_cond_signal_to` returns `CELL_ESRCH` exactly for an id that is no
PPU thread, and for a PPU thread `CELL_EPERM` exactly when it does not wait
on the condition. -/
theorem signalTo_result {n : Nat} {r : Option CellError}
    (hs : Step S s ⟨t, .signalTo n, r⟩ s') :
    (r = some .esrch ↔ ∀ u, S.live u → u.id ≠ n) ∧
      ∀ u, S.live u → u.id = n → (r = some .eperm ↔ u ∉ s.condSq) := by
  cases hs with
  | lockOk call hcall => simp at hcall
  | lockError call hcall => simp at hcall
  | @condSignalTo _ u _ _ _ _ _ hu hl =>
    have hmem := (signalTo_some hl).1
    refine ⟨⟨fun h' => ?_, fun h' => absurd rfl (h' u hu)⟩, fun u' _ hid => ?_⟩
    · cases h'
    · rw [PpuId.ext_id hid]
      exact ⟨fun h' => (by cases h'), fun h' => absurd hmem h'⟩
  | @condSignalToPerm _ u _ hu hl =>
    refine ⟨⟨fun h' => ?_, fun h' => absurd rfl (h' u hu)⟩, fun u' _ hid => ?_⟩
    · cases h'
    · rw [PpuId.ext_id hid]
      exact ⟨fun _ => signalTo_none.mp hl, fun _ => rfl⟩
  | condSignalToSrch _ hn =>
    exact ⟨⟨fun _ => hn, fun _ => rfl⟩, fun u hu hid => absurd hid (hn u hu)⟩

end CondReturns

/-- What the condition bound to the mutex guarantees in a state of any
interleaving of `sys_cond_wait` (with timeouts), `sys_cond_signal`,
`sys_cond_signal_all`, `sys_cond_signal_to` and the mutex calls. -/
structure CondContract (S : Setup) (s : State) : Prop where
  /-- A thread is in at most one of the condition queue, the mutex queue and
  the owner word. -/
  one_place : ∀ t, (t ∈ s.condSq → t ∉ s.control.sq ∧ s.control.owner ≠ t.id) ∧
    (t ∈ s.control.sq → s.control.owner ≠ t.id)
  /-- No waiter is lost: a thread inside `sys_cond_wait` is in the condition
  queue, in the mutex queue, or the owner. -/
  placed : ∀ t n, (s.pc t).WaitsWith n →
    t ∈ s.condSq ∨ t ∈ s.control.sq ∨ s.control.owner = t.id
  /-- `sys_cond_wait` by a thread that does not own the mutex returns
  `CELL_EPERM` and changes nothing. -/
  wait_perm : ∀ t r s', Step S s ⟨t, .wait, r⟩ s' → s.pc t = .idle →
    s.control.owner ≠ t.id → r = some .eperm ∧ s' = s
  /-- A `sys_cond_wait` that went to sleep returns, whenever it returns,
  `CELL_OK` or `CELL_ETIMEDOUT` to the owner of the mutex, with `lock_count`
  and the thread's held locks as at the call. -/
  wait_return : ∀ t s₁ as s₂ r s₃, s.pc t = .idle → Step S s ⟨t, .wait, none⟩ s₁ →
    Transition.Run (Step S) s₁ as s₂ → (∀ l ∈ as, l.thread = t → l.ret = none) →
    Step S s₂ ⟨t, .wait, some r⟩ s₃ →
    (r = .ok ∨ r = .etimedout) ∧ s₃.control.owner = t.id ∧
      s₃.control.lockCount = s.control.lockCount ∧ s₃.depth t = s.depth t
  /-- `sys_cond_signal` moves the waiter the mutex's protocol picks out of a
  non-empty condition queue, to the owner word if the mutex is free and to
  the mutex queue otherwise, and changes nothing on an empty one. -/
  signal : ∀ t r s', Step S s ⟨t, .signal, r⟩ s' → (s.condSq = [] → s' = s) ∧
    (s.condSq ≠ [] → ∃ w, schedule S.attr.protocol s.prio.prio s.condSq = some w ∧
      s'.condSq = s.condSq.erase w ∧ (s.control.owner = 0 → s'.control.owner = w.id) ∧
      (s.control.owner ≠ 0 → s'.control.owner = s.control.owner ∧ w ∈ s'.control.sq))
  /-- `sys_cond_signal_all` moves every waiter to the owner word or the mutex
  queue, and only a free mutex gets a new owner. -/
  signal_all : ∀ t r s', Step S s ⟨t, .signalAll, r⟩ s' → s'.condSq = [] ∧
    (∀ w ∈ s.condSq, s'.control.owner = w.id ∨ w ∈ s'.control.sq) ∧
    (s.control.owner ≠ 0 → s'.control.owner = s.control.owner)
  /-- `sys_cond_signal_to` of a PPU thread returns `CELL_EPERM` exactly when
  the thread does not wait on the condition; an id that is no PPU thread
  gets `CELL_ESRCH`. -/
  signal_to : ∀ t n r s', Step S s ⟨t, .signalTo n, r⟩ s' →
    (r = some .esrch ↔ ∀ u, S.live u → u.id ≠ n) ∧
      ∀ u, S.live u → u.id = n → (r = some .eperm ↔ u ∉ s.condSq)

/-- Every reachable state of the mutex and its condition keeps the
condition's contract. -/
theorem cond_wait_signal {S : Setup} {s : State} (hs : Reachable S s) : CondContract S s := by
  have h := inv_reachable hs
  exact {
    one_place := h.one_place
    placed := fun t n hw => h.waiter_placed hw
    wait_perm := fun t r s' hstep hpc ho => wait_not_owner hstep hpc ho
    wait_return := fun t s₁ as s₂ r s₃ hpc h₁ hrun hl h₃ => wait_restores hs hpc h₁ hrun hl h₃
    signal := fun t r s' hstep => signal_moves_one hstep
    signal_all := fun t r s' hstep => signalAll_moves_all hstep
    signal_to := fun t n r s' hstep => signalTo_result hstep }

/-- A FIFO mutex and condition: thread 3 locks and waits on the condition, which hands the
mutex on; thread 4 then locks the free mutex and signals, which takes thread 3 out of the
condition queue. -/
theorem cond_wait_signal_signaled :
    ∃ s, Reachable ⟨⟨.fifo, 0x20⟩, fun _ => True⟩ s ∧ s.condSq = [] ∧ s.control.owner = 4 ∧
      CondContract ⟨⟨.fifo, 0x20⟩, fun _ => True⟩ s := by
  have h₁ := (Transition.Reachable.of_init State.fresh_init).next
    (Step.lockOk (S := ⟨⟨.fifo, 0x20⟩, fun _ => True⟩) (t := lockerThree) .lock (.inl rfl) rfl rfl)
  have h₂ := h₁.next (Step.waitSleep (t := lockerThree) false rfl rfl trivial rfl)
  have h₃ := h₂.next (Step.lockOk (t := lockerFour) .lock (.inl rfl) rfl rfl)
  have h₄ := h₃.next (Step.condSignal (t := lockerFour) rfl rfl)
  exact ⟨_, h₄, rfl, rfl, cond_wait_signal h₄⟩

end Rpcs3.Lv2.MutexSystem
