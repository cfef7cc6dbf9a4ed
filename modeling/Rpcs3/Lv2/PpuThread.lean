import Rpcs3.Lv2.Sync
import Rpcs3.Lib.Transition

/-! The join protocol of a PPU thread (`ppu_join_status`, PPUThread.h) and
the calls `_sys_ppu_thread_exit`, `sys_ppu_thread_join` and
`sys_ppu_thread_detach` (sys_ppu_thread.cpp), around one thread `target`.

The target's `joiner` word says whether it is joinable, detached, exited and
waiting for a joiner (zombie), exited, or joined by a waiting thread, whose
id is then the word's value. Each `fetch_op` or `atomic_op` on it is one
step, together with the IDM-locked section around it (the IDM lookup of
`join`, the withdrawal of `detach`, the section of `exit`). A join that wins
waits for the target's thread to finish (`(*thread.ptr)()`) and then reads
its `gpr[3]`, the code the target passed to exit; the joiner holds the thread
object, so the registers outlive the id. Emulation stop (`cpu_flag::again`
and the zombie's abort) is outside the model.

`removedBy`, `joinDone` and `detachOk` are ghost state: the threads that
withdrew the target's id, whether the winning join has returned, and whether
a detach has succeeded. -/
namespace Rpcs3.Lv2.PpuThread

open Rpcs3.Lv2.Sync

/-- `ppu_join_status`; a value above `max` is the id of the joining thread. -/
inductive JoinStatus where
  | joinable
  | detached
  | zombie
  | exited
  | joiner (id : PpuId)
  deriving DecidableEq

/-- The `fetch_op` of `_sys_ppu_thread_exit`. -/
def exitOp : JoinStatus → JoinStatus
  | .joinable => .zombie
  | _ => .exited

/-- The `atomic_op` of `sys_ppu_thread_join` by the thread `j`. -/
def joinOp (j : PpuId) : JoinStatus → JoinStatus × CellError
  | .joinable => (.joiner j, .ok)
  | .zombie => (.exited, .eagain)
  | .exited => (.exited, .esrch)
  | .detached => (.detached, .einval)
  | .joiner k => (.joiner k, .einval)

/-- The `atomic_op` of `sys_ppu_thread_detach`. -/
def detachOp : JoinStatus → JoinStatus × CellError
  | .joinable => (.detached, .ok)
  | .detached => (.detached, .einval)
  | .zombie => (.exited, .eagain)
  | .exited => (.exited, .esrch)
  | .joiner k => (.joiner k, .ebusy)

/-- The end of `sys_ppu_thread_join`: `CELL_EFAULT` for a null `vptr`,
else `CELL_OK` with the target's `gpr[3]` stored to `*vptr`. -/
def joinResult (vptr : UInt32) (code : Option UInt64) : CellError × Option UInt64 :=
  if vptr = 0 then (.efault, none) else (.ok, code)

theorem joinOp_fail {j : PpuId} {js w : JoinStatus} {r : CellError} (h : joinOp j js = (w, r))
    (hok : r ≠ .ok) (hag : r ≠ .eagain) : w = js ∧ (r = .einval ∨ r = .esrch) := by
  cases js <;> simp only [joinOp, Prod.mk.injEq] at h <;> obtain ⟨rfl, rfl⟩ := h <;>
    simp_all

theorem joinOp_ok {j : PpuId} {js w : JoinStatus} (h : joinOp j js = (w, .ok)) :
    js = .joinable ∧ w = .joiner j := by
  cases js <;> simp only [joinOp, Prod.mk.injEq, reduceCtorEq, and_false] at h
  exact ⟨rfl, h.1.symm⟩

theorem joinOp_eagain {j : PpuId} {js w : JoinStatus} (h : joinOp j js = (w, .eagain)) :
    js = .zombie ∧ w = .exited := by
  cases js <;> simp only [joinOp, Prod.mk.injEq, reduceCtorEq, and_false] at h
  exact ⟨rfl, h.1.symm⟩

/-- The outcomes of a detach: it marks a joinable thread detached, takes a
zombie's cleanup with `CELL_EAGAIN`, or fails without changing the word. -/
theorem detachOp_eq {js w : JoinStatus} {r : CellError} (h : detachOp js = (w, r)) :
    (js = .joinable ∧ w = .detached ∧ r = .ok) ∨ (js = .zombie ∧ w = .exited ∧ r = .eagain) ∨
      (w = js ∧ r ≠ .ok ∧ r ≠ .eagain) := by
  cases js <;> simp only [detachOp, Prod.mk.injEq] at h <;> obtain ⟨rfl, rfl⟩ := h <;> simp

/-! ### The threads -/

/-- Where a thread is. -/
inductive Pc where
  | idle
  /-- `sys_ppu_thread_join` made itself the joiner and sleeps. -/
  | joinAsleep (vptr : UInt32)
  /-- `sys_ppu_thread_join` won and waits for the target's thread to finish;
  `eagain` when it found a zombie, and then it withdraws the id. -/
  | joinCleanup (eagain : Bool) (vptr : UInt32)
  /-- The target, past the IDM section of `_sys_ppu_thread_exit`, in the
  loop while `joiner == zombie`. -/
  | exiting
  /-- The target's thread has finished. -/
  | gone
  deriving DecidableEq

/-- Inside a join that won. -/
def Pc.waiting : Pc → Bool
  | .idle => false
  | .joinAsleep _ => true
  | .joinCleanup _ _ => true
  | .exiting => false
  | .gone => false

/-- `lv2_obj::append` of the sleeping joiner by the exiting target. -/
def Pc.wake : Pc → Pc
  | .idle => .idle
  | .joinAsleep vptr => .joinCleanup false vptr
  | .joinCleanup e vptr => .joinCleanup e vptr
  | .exiting => .exiting
  | .gone => .gone

attribute [simp] Pc.waiting.eq_1 Pc.waiting.eq_2 Pc.waiting.eq_3 Pc.waiting.eq_4 Pc.waiting.eq_5

theorem Pc.ne_joinAsleep {p : Pc} (hp : p.waiting = false) (vptr : UInt32) :
    p ≠ .joinAsleep vptr := fun he => by
  rw [he] at hp
  cases hp

theorem Pc.ne_joinCleanup {p : Pc} (hp : p.waiting = false) (e : Bool) (vptr : UInt32) :
    p ≠ .joinCleanup e vptr := fun he => by
  rw [he] at hp
  cases hp

inductive Call where
  | exit (code : UInt64)
  | join (vptr : UInt32)
  | detach

/-- A step: the thread that takes it, its call, and the code and the value
stored to `*vptr` that the call returns in this step, if it returns. -/
structure Label where
  thread : PpuId
  call : Call
  ret : Option (CellError × Option UInt64)

/-- The thread whose join protocol is modelled. -/
structure Setup where
  target : PpuId

/-- The target's `joiner` word, whether its id is in the IDM, its `gpr[3]`
once it called exit, every thread's position, and the ghost state. -/
structure State where
  joiner : JoinStatus
  inIdm : Bool
  exitCode : Option UInt64
  pc : PpuId → Pc
  removedBy : List PpuId
  joinDone : Bool
  detachOk : Bool

/-- A freshly created joinable thread, nobody inside a call. -/
def State.Init (s : State) : Prop :=
  s.joiner = .joinable ∧ s.inIdm = true ∧ s.exitCode = none ∧ (∀ t, s.pc t = .idle) ∧
    s.removedBy = [] ∧ s.joinDone = false ∧ s.detachOk = false

def State.move (s : State) (t : PpuId) (p : Pc) : State :=
  { s with pc := Function.update s.pc t p }

/-- `t` withdraws the target's id from the IDM. -/
def State.withdraw (s : State) (t : PpuId) : State :=
  { s with inIdm := false, removedBy := s.removedBy ++ [t] }

/-- The exiting target wakes the thread its old word names, if any. -/
def State.wakeJoiner (s : State) : JoinStatus → State
  | .joiner j => { s with pc := Function.update s.pc j (s.pc j).wake }
  | _ => s

inductive Step (S : Setup) : State → Label → State → Prop where
  /-- The IDM section of `_sys_ppu_thread_exit`: a joinable thread becomes a
  zombie; otherwise the word becomes `exited`, a waiting joiner is woken and
  the thread withdraws its own id. -/
  | exit {s v} :
      s.pc S.target = .idle →
      Step S s ⟨S.target, .exit v, none⟩
        (((if s.joiner = JoinStatus.joinable then
              { s with joiner := exitOp s.joiner, exitCode := some v }
            else { s with joiner := exitOp s.joiner, exitCode := some v }.withdraw S.target).wakeJoiner
          s.joiner).move S.target .exiting)
  /-- The loop ends once the word is no longer `zombie`; the thread finishes. -/
  | exitFinish {s v} :
      s.pc S.target = .exiting → s.joiner ≠ .zombie → s.exitCode = some v →
      Step S s ⟨S.target, .exit v, none⟩ (s.move S.target .gone)
  | joinDeadlk {s t vptr} :
      s.pc t = .idle → t = S.target → Step S s ⟨t, .join vptr, some (.edeadlk, none)⟩ s
  | joinSrch {s t vptr} :
      s.pc t = .idle → t ≠ S.target → s.inIdm = false →
      Step S s ⟨t, .join vptr, some (.esrch, none)⟩ s
  | joinFail {s t vptr w r} :
      s.pc t = .idle → t ≠ S.target → s.inIdm = true → joinOp t s.joiner = (w, r) →
      r ≠ .ok → r ≠ .eagain → Step S s ⟨t, .join vptr, some (r, none)⟩ { s with joiner := w }
  | joinSleep {s t vptr w} :
      s.pc t = .idle → t ≠ S.target → s.inIdm = true → joinOp t s.joiner = (w, .ok) →
      Step S s ⟨t, .join vptr, none⟩ ({ s with joiner := w }.move t (.joinAsleep vptr))
  | joinZombie {s t vptr w} :
      s.pc t = .idle → t ≠ S.target → s.inIdm = true → joinOp t s.joiner = (w, .eagain) →
      Step S s ⟨t, .join vptr, none⟩ ({ s with joiner := w }.move t (.joinCleanup true vptr))
  /-- The target's thread finished: read `gpr[3]`, withdraw the id after a
  zombie, and return. -/
  | joinReturn {s t eagain vptr} :
      s.pc t = .joinCleanup eagain vptr → s.pc S.target = .gone →
      Step S s ⟨t, .join vptr, some (joinResult vptr s.exitCode)⟩
        ({ (if eagain then s.withdraw t else s) with joinDone := true }.move t .idle)
  | detachSrch {s t} :
      s.pc t = .idle → s.inIdm = false → Step S s ⟨t, .detach, some (.esrch, none)⟩ s
  /-- `idm::withdraw` keeps the id unless the `atomic_op` found a zombie. -/
  | detach {s t w r} :
      s.pc t = .idle → s.inIdm = true → detachOp s.joiner = (w, r) →
      Step S s ⟨t, .detach, some (r, none)⟩
        (if r = .eagain then { s with joiner := w }.withdraw t
         else { s with joiner := w, detachOk := s.detachOk || decide (r = .ok) })

def Reachable (S : Setup) : State → Prop :=
  Transition.Reachable State.Init (Step S)

/-! ### The state updates -/

section Updates

variable (s : State) (t u : PpuId) (p : Pc)

@[simp] theorem State.move_pc_self : (s.move t p).pc t = p := by
  simp [State.move]

theorem State.move_pc_other {t u : PpuId} (p : Pc) (h : u ≠ t) : (s.move t p).pc u = s.pc u := by
  simp [State.move, h]

@[simp] theorem State.move_joiner : (s.move t p).joiner = s.joiner := rfl
@[simp] theorem State.move_inIdm : (s.move t p).inIdm = s.inIdm := rfl
@[simp] theorem State.move_exitCode : (s.move t p).exitCode = s.exitCode := rfl
@[simp] theorem State.move_removedBy : (s.move t p).removedBy = s.removedBy := rfl
@[simp] theorem State.move_joinDone : (s.move t p).joinDone = s.joinDone := rfl
@[simp] theorem State.move_detachOk : (s.move t p).detachOk = s.detachOk := rfl

@[simp] theorem State.withdraw_pc : (s.withdraw t).pc = s.pc := rfl
@[simp] theorem State.withdraw_joiner : (s.withdraw t).joiner = s.joiner := rfl
@[simp] theorem State.withdraw_inIdm : (s.withdraw t).inIdm = false := rfl
@[simp] theorem State.withdraw_exitCode : (s.withdraw t).exitCode = s.exitCode := rfl
@[simp] theorem State.withdraw_removedBy : (s.withdraw t).removedBy = s.removedBy ++ [t] := rfl
@[simp] theorem State.withdraw_joinDone : (s.withdraw t).joinDone = s.joinDone := rfl
@[simp] theorem State.withdraw_detachOk : (s.withdraw t).detachOk = s.detachOk := rfl

@[simp] theorem State.wakeJoiner_pc (js : JoinStatus) :
    (s.wakeJoiner js).pc u = if js = .joiner u then (s.pc u).wake else s.pc u := by
  cases js with
  | joiner j => by_cases h : u = j <;> simp [State.wakeJoiner, Function.update, h, eq_comm]
  | _ => simp [State.wakeJoiner]

@[simp] theorem State.wakeJoiner_joiner (js : JoinStatus) :
    (s.wakeJoiner js).joiner = s.joiner := by
  cases js <;> rfl
@[simp] theorem State.wakeJoiner_inIdm (js : JoinStatus) : (s.wakeJoiner js).inIdm = s.inIdm := by
  cases js <;> rfl
@[simp] theorem State.wakeJoiner_exitCode (js : JoinStatus) :
    (s.wakeJoiner js).exitCode = s.exitCode := by
  cases js <;> rfl
@[simp] theorem State.wakeJoiner_removedBy (js : JoinStatus) :
    (s.wakeJoiner js).removedBy = s.removedBy := by
  cases js <;> rfl
@[simp] theorem State.wakeJoiner_joinDone (js : JoinStatus) :
    (s.wakeJoiner js).joinDone = s.joinDone := by
  cases js <;> rfl
@[simp] theorem State.wakeJoiner_detachOk (js : JoinStatus) :
    (s.wakeJoiner js).detachOk = s.detachOk := by
  cases js <;> rfl

end Updates

/-! ### The invariant -/

/-- The invariant of every reachable state. The id is withdrawn at most
once; at most one thread, never the target, is inside a join that won: asleep
while the word names it, or waiting for the cleanup once the word is
`exited`, holding the withdrawal when it found a zombie. Before its exit the
target runs and its word is neither `zombie` nor `exited`; a zombie waits
with its id in the IDM; after a successful detach no join wins. -/
structure Inv (S : Setup) (s : State) : Prop where
  removed : s.inIdm = false ↔ s.removedBy ≠ []
  removed_le : s.removedBy.length ≤ 1
  one_waiter : ∀ u w, (s.pc u).waiting = true → (s.pc w).waiting = true → u = w
  waiter_ne : ∀ u, (s.pc u).waiting = true → u ≠ S.target
  asleep : ∀ u vptr, s.pc u = .joinAsleep vptr → s.joiner = .joiner u
  named : ∀ j, s.joiner = .joiner j → ∃ vptr, s.pc j = .joinAsleep vptr
  cleanup : ∀ u e vptr, s.pc u = .joinCleanup e vptr →
    s.joiner = .exited ∧ s.exitCode ≠ none ∧ s.inIdm = e ∧ s.joinDone = false
  done : s.joinDone = true → s.joiner = .exited
  running : s.pc S.target = .idle ↔ s.exitCode = none
  alive : s.exitCode = none → s.joiner ≠ .zombie ∧ s.joiner ≠ .exited ∧ s.inIdm = true
  dead : s.exitCode ≠ none → s.joiner = .zombie ∨ s.joiner = .exited
  zombie : s.joiner = .zombie → s.pc S.target = .exiting ∧ s.inIdm = true ∧ s.joinDone = false
  gone : s.pc S.target = .gone → s.joiner = .exited
  detach_ok : s.detachOk = true → s.joinDone = false ∧ (∀ u, (s.pc u).waiting = false) ∧
    (s.joiner = .detached ∨ (s.joiner = .exited ∧ s.inIdm = false))

section Inv

variable {S : Setup} {s : State}

/-- A thread inside a winning join is named by the word or waits on an
exited target. -/
theorem Inv.waiting_word (h : Inv S s) {u : PpuId} (hu : (s.pc u).waiting = true) :
    s.joiner = .joiner u ∨ s.joiner = .exited := by
  cases hp : s.pc u with
  | joinAsleep vptr => exact .inl (h.asleep u vptr hp)
  | joinCleanup e vptr => exact .inr (h.cleanup u e vptr hp).1
  | _ => simp [hp] at hu

/-- While the word is neither `exited` nor a joiner's id, no join is inside. -/
theorem Inv.no_waiter (h : Inv S s) (hx : s.joiner ≠ .exited) (hj : ∀ j, s.joiner ≠ .joiner j)
    (u : PpuId) : (s.pc u).waiting = false := by
  cases hw : (s.pc u).waiting
  · rfl
  · rcases h.waiting_word hw with h' | h'
    · exact absurd h' (hj u)
    · exact absurd h' hx

theorem Inv.target_not_waiting (h : Inv S s) : (s.pc S.target).waiting = false := by
  cases hw : (s.pc S.target).waiting
  · rfl
  · exact absurd rfl (h.waiter_ne _ hw)

theorem Inv.removedBy_nil (h : Inv S s) (hi : s.inIdm = true) : s.removedBy = [] := by
  by_contra hne
  have := h.removed.mpr hne
  rw [hi] at this
  cases this

/-- The winning join has not returned while the word is not `exited`. -/
theorem Inv.joinDone_false (h : Inv S s) (hx : s.joiner ≠ .exited) : s.joinDone = false := by
  cases hd : s.joinDone
  · rfl
  · exact absurd (h.done hd) hx

/-- No detach has succeeded while the word is neither `detached` nor
`exited`. -/
theorem Inv.detachOk_false (h : Inv S s) (hd : s.joiner ≠ .detached) (hx : s.joiner ≠ .exited) :
    s.detachOk = false := by
  cases hdo : s.detachOk
  · rfl
  · rcases (h.detach_ok hdo).2.2 with h' | ⟨h', -⟩
    · exact absurd h' hd
    · exact absurd h' hx

/-- The target has not exited while its word is neither `zombie` nor
`exited`. -/
theorem Inv.exitCode_none (h : Inv S s) (hz : s.joiner ≠ .zombie) (hx : s.joiner ≠ .exited) :
    s.exitCode = none := by
  by_contra hne
  rcases h.dead hne with h' | h'
  · exact hz h'
  · exact hx h'

theorem Inv.exitCode_of_pc (h : Inv S s) (hp : s.pc S.target ≠ .idle) : s.exitCode ≠ none :=
  fun hn => hp (h.running.mpr hn)

end Inv

section Steps

variable {S : Setup} {s : State} {t : PpuId}

theorem inv_init (h : State.Init s) : Inv S s := by
  obtain ⟨hj, hi, he, hpc, hr, hd, hdo⟩ := h
  refine ⟨by simp [hi, hr], by simp [hr], fun u _ hu => by simp [hpc u] at hu,
    fun u hu => by simp [hpc u] at hu, fun u _ hu => by simp [hpc u] at hu,
    fun j hj' => by simp [hj] at hj', fun u _ _ hu => by simp [hpc u] at hu,
    fun hd' => by simp [hd] at hd', by simp [hpc, he], fun _ => by simp [hj, hi],
    fun hn => absurd he hn, fun hz => by simp [hj] at hz, fun hg => by simp [hpc] at hg,
    fun hd' => by simp [hdo] at hd'⟩

/-- Facts about a target that has not exited yet. -/
theorem Inv.before_exit (h : Inv S s) (hpc : s.pc S.target = .idle) :
    s.exitCode = none ∧ s.inIdm = true ∧ s.removedBy = [] ∧ s.joinDone = false ∧
      s.joiner ≠ .zombie ∧ s.joiner ≠ .exited := by
  have he := h.running.mp hpc
  obtain ⟨hnz, hnx, hidm⟩ := h.alive he
  exact ⟨he, hidm, h.removedBy_nil hidm, h.joinDone_false hnx, hnz, hnx⟩

/-- `exit` of a joinable target: it becomes a zombie and waits. -/
theorem inv_exitJoinable {v : UInt64} (h : Inv S s) (hpc : s.pc S.target = .idle)
    (hj : s.joiner = .joinable) :
    Inv S ({ s with joiner := .zombie, exitCode := some v }.move S.target .exiting) := by
  obtain ⟨-, hidm, -, hd, -, -⟩ := h.before_exit hpc
  have hnw := h.no_waiter (by simp [hj]) (by simp [hj])
  generalize hs' : { s with joiner := .zombie, exitCode := some v }.move S.target .exiting = s'
  have hpT : s'.pc S.target = .exiting := by rw [← hs']; simp
  -- nobody waits before, and the target moves outside a join
  have hnw' : ∀ u, (s'.pc u).waiting = false := fun u => by
    by_cases hut : u = S.target
    · rw [hut, hpT]
      rfl
    · rw [← hs', State.move_pc_other _ _ hut]
      exact hnw u
  have hdo := h.detachOk_false (by simp [hj]) (by simp [hj])
  subst hs'
  refine ⟨h.removed, h.removed_le, fun u _ hu => by simp [hnw' u] at hu,
    fun u hu => by simp [hnw' u] at hu, fun u vptr hu => absurd hu (Pc.ne_joinAsleep (hnw' u) vptr),
    (fun j hj' => by cases hj'), fun u e vptr hu => absurd hu (Pc.ne_joinCleanup (hnw' u) e vptr),
    fun hd' => by simp [hd] at hd', by simp, (fun hn => by cases hn), fun _ => .inl rfl,
    fun _ => ⟨hpT, hidm, hd⟩, fun hg => by simp at hg, fun hdo' => by simp [hdo] at hdo'⟩

/-- `exit` of a detached target: the word becomes `exited` and the target
withdraws its own id. -/
theorem inv_exitDetached {v : UInt64} (h : Inv S s) (hpc : s.pc S.target = .idle)
    (hj : s.joiner = .detached) :
    Inv S (({ s with joiner := .exited, exitCode := some v }.withdraw S.target).move S.target
      .exiting) := by
  obtain ⟨-, -, hr, hd, -, -⟩ := h.before_exit hpc
  have hnw := h.no_waiter (by simp [hj]) (by simp [hj])
  generalize hs' : ({ s with joiner := .exited, exitCode := some v }.withdraw S.target).move
    S.target .exiting = s'
  have hpT : s'.pc S.target = .exiting := by rw [← hs']; simp
  have hnw' : ∀ u, (s'.pc u).waiting = false := fun u => by
    by_cases hut : u = S.target
    · rw [hut, hpT]
      rfl
    · rw [← hs', State.move_pc_other _ _ hut]
      exact hnw u
  subst hs'
  refine ⟨by simp, by simp [hr], fun u _ hu => by simp [hnw' u] at hu,
    fun u hu => by simp [hnw' u] at hu, fun u vptr hu => absurd hu (Pc.ne_joinAsleep (hnw' u) vptr),
    (fun j hj' => by cases hj'), fun u e vptr hu => absurd hu (Pc.ne_joinCleanup (hnw' u) e vptr),
    fun _ => rfl, by simp, (fun hn => by cases hn), fun _ => .inr rfl, (fun hz => by cases hz),
    fun hg => by simp at hg, fun _ => ⟨hd, hnw', .inr ⟨rfl, rfl⟩⟩⟩

/-- `exit` of a joined target: the word becomes `exited`, the joiner wakes
to wait for the cleanup, and the target withdraws its own id. -/
theorem inv_exitJoined {v : UInt64} {j : PpuId} (h : Inv S s) (hpc : s.pc S.target = .idle)
    (hj : s.joiner = .joiner j) :
    Inv S ((({ s with joiner := .exited, exitCode := some v }.withdraw S.target).wakeJoiner
      (.joiner j)).move S.target .exiting) := by
  obtain ⟨-, -, hr, hd, -, -⟩ := h.before_exit hpc
  obtain ⟨vptr, hjp⟩ := h.named j hj
  have hjw : (s.pc j).waiting = true := by simp [hjp]
  have hjt : j ≠ S.target := h.waiter_ne j hjw
  have hdo := h.detachOk_false (by simp [hj]) (by simp [hj])
  have hother : ∀ u, u ≠ j → (s.pc u).waiting = false := fun u huj => by
    cases hw : (s.pc u).waiting
    · rfl
    · exact absurd (h.one_waiter u j hw hjw) huj
  generalize hs' : (({ s with joiner := .exited, exitCode := some v }.withdraw S.target).wakeJoiner
    (.joiner j)).move S.target .exiting = s'
  have hpT : s'.pc S.target = .exiting := by rw [← hs']; simp
  have hpj : s'.pc j = .joinCleanup false vptr := by
    rw [← hs']
    simp [State.move_pc_other _ _ hjt, hjp, Pc.wake]
  -- the joiner waits for the cleanup; nobody else is inside a join
  have honly : ∀ u, u = j ∨ (s'.pc u).waiting = false := fun u => by
    by_cases huj : u = j
    · exact .inl huj
    · by_cases hut : u = S.target
      · rw [hut, hpT]
        exact .inr rfl
      · rw [← hs']
        simp only [State.move_pc_other _ _ hut, State.wakeJoiner_pc, State.withdraw_pc,
          JoinStatus.joiner.injEq, Ne.symm huj, if_false]
        exact .inr (hother u huj)
  subst hs'
  refine ⟨by simp, by simp [hr], fun u w hu hw => ?_, fun u hu => ?_, fun u vptr' hu => ?_,
    (fun j' hj' => by cases hj'), fun u e vptr' hu => ?_, fun _ => rfl, by simp,
    (fun hn => by cases hn), fun _ => .inr rfl, (fun hz => by cases hz),
    fun hg => by simp at hg, fun hdo' => by simp [hdo] at hdo'⟩
  · rcases honly u with rfl | hu' <;> rcases honly w with rfl | hw' <;> simp_all
  · rcases honly u with rfl | hu'
    · exact hjt
    · simp [hu'] at hu
  · rcases honly u with rfl | hu'
    · rw [hpj] at hu
      cases hu
    · simp [hu] at hu'
  · rcases honly u with rfl | hu'
    · rw [hpj] at hu
      cases hu
      exact ⟨rfl, by simp, rfl, hd⟩
    · simp [hu] at hu'

theorem inv_exit {v : UInt64} (h : Inv S s) (hpc : s.pc S.target = .idle) :
    Inv S (((if s.joiner = JoinStatus.joinable then
              { s with joiner := exitOp s.joiner, exitCode := some v }
            else { s with joiner := exitOp s.joiner, exitCode := some v }.withdraw S.target).wakeJoiner
          s.joiner).move S.target .exiting) := by
  obtain ⟨-, -, -, -, hnz, hnx⟩ := h.before_exit hpc
  cases hj : s.joiner with
  | joinable => exact inv_exitJoinable h hpc hj
  | detached => exact inv_exitDetached h hpc hj
  | zombie => exact absurd hj hnz
  | exited => exact absurd hj hnx
  | joiner j => exact inv_exitJoined h hpc hj

/-- The target's thread finishes once the word is no longer `zombie`. -/
theorem inv_exitFinish {v : UInt64} (h : Inv S s) (hz : s.joiner ≠ .zombie)
    (he : s.exitCode = some v) : Inv S (s.move S.target .gone) := by
  have hx : s.joiner = .exited := (h.dead (by simp [he])).resolve_left hz
  -- every thread but the target keeps its position
  have hpo : ∀ u, u ≠ S.target → (s.move S.target .gone).pc u = s.pc u := fun u hut =>
    State.move_pc_other _ _ hut
  have hwait : ∀ u, ((s.move S.target .gone).pc u).waiting = true →
      u ≠ S.target ∧ (s.pc u).waiting = true := fun u hu => by
    by_cases hut : u = S.target
    · subst hut
      simp at hu
    · exact ⟨hut, by rwa [hpo u hut] at hu⟩
  refine ⟨h.removed, h.removed_le, fun u w hu hw => h.one_waiter u w (hwait u hu).2 (hwait w hw).2,
    fun u hu => (hwait u hu).1, fun u vptr hu => ?_, fun j hj => ?_, fun u e vptr hu => ?_,
    h.done, by simp [he], fun hn => by simp [he] at hn, fun _ => .inr hx,
    fun hz' => absurd hz' hz, fun _ => hx, fun hdo => ?_⟩
  · have hut : u ≠ S.target := (hwait u (by simp [hu])).1
    exact h.asleep u vptr (by rwa [hpo u hut] at hu)
  · simp only [State.move_joiner, hx] at hj
    cases hj
  · have hut : u ≠ S.target := (hwait u (by simp [hu])).1
    exact h.cleanup u e vptr (by rwa [hpo u hut] at hu)
  · obtain ⟨hd, hnw, hw⟩ := h.detach_ok hdo
    refine ⟨hd, fun u => ?_, hw⟩
    by_cases hut : u = S.target
    · subst hut
      simp
    · rw [hpo u hut]
      exact hnw u

/-- A join that finds a joinable target makes itself the joiner and sleeps. -/
theorem inv_joinSleep {vptr : UInt32} (h : Inv S s) (hpc : s.pc t = .idle) (ht : t ≠ S.target)
    (hj : s.joiner = .joinable) :
    Inv S ({ s with joiner := .joiner t }.move t (.joinAsleep vptr)) := by
  have hnw := h.no_waiter (by simp [hj]) (by simp [hj])
  have hd := h.joinDone_false (by simp [hj])
  have hnd := h.exitCode_none (by simp [hj]) (by simp [hj])
  generalize hs' : { s with joiner := .joiner t }.move t (.joinAsleep vptr) = s'
  have hpt : s'.pc t = .joinAsleep vptr := by rw [← hs']; simp
  have hpo : ∀ u, u ≠ t → s'.pc u = s.pc u := fun u hut => by
    rw [← hs', State.move_pc_other _ _ hut]
  -- only `t` is inside a join
  have honly : ∀ u, (s'.pc u).waiting = true → u = t := fun u hu => by
    by_contra hut
    rw [hpo u hut, hnw u] at hu
    cases hu
  have hT := hpo S.target (Ne.symm ht)
  subst hs'
  refine ⟨h.removed, h.removed_le, fun u w hu hw => (honly u hu).trans (honly w hw).symm,
    fun u hu => (honly u hu) ▸ ht, fun u vptr' hu => ?_, fun j hj' => ?_, fun u e vptr' hu => ?_,
    fun hd' => by simp [hd] at hd', by rw [hT]; exact h.running, fun _ => ⟨by simp, by simp,
      (h.alive hnd).2.2⟩, fun hn => absurd hnd hn, (fun hz => by cases hz), fun hg => ?_,
    fun hdo => ?_⟩
  · have hut := honly u (by simp [hu])
    subst hut
    rfl
  · cases hj'
    exact ⟨vptr, hpt⟩
  · have hut := honly u (by simp [hu])
    subst hut
    rw [hpt] at hu
    cases hu
  · rw [hT] at hg
    simpa [hj] using h.gone hg
  · rcases (h.detach_ok hdo).2.2 with hd' | ⟨hd', -⟩ <;> simp [hj] at hd'

/-- A join that finds a zombie takes its cleanup: the word becomes
`exited` and the joiner waits for the target's thread to finish. -/
theorem inv_joinZombie {vptr : UInt32} (h : Inv S s) (ht : t ≠ S.target)
    (hj : s.joiner = .zombie) :
    Inv S ({ s with joiner := .exited }.move t (.joinCleanup true vptr)) := by
  have hnw := h.no_waiter (by simp [hj]) (by simp [hj])
  obtain ⟨hpT, hidm, hd⟩ := h.zombie hj
  have hne := h.exitCode_of_pc (by simp [hpT])
  generalize hs' : { s with joiner := .exited }.move t (.joinCleanup true vptr) = s'
  have hpt : s'.pc t = .joinCleanup true vptr := by rw [← hs']; simp
  have hpo : ∀ u, u ≠ t → s'.pc u = s.pc u := fun u hut => by
    rw [← hs', State.move_pc_other _ _ hut]
  have honly : ∀ u, (s'.pc u).waiting = true → u = t := fun u hu => by
    by_contra hut
    rw [hpo u hut, hnw u] at hu
    cases hu
  have hT := hpo S.target (Ne.symm ht)
  subst hs'
  refine ⟨h.removed, h.removed_le, fun u w hu hw => (honly u hu).trans (honly w hw).symm,
    fun u hu => (honly u hu) ▸ ht, fun u vptr' hu => ?_, (fun j hj' => by cases hj'),
    fun u e vptr' hu => ?_, fun _ => rfl, by rw [hT]; exact h.running,
    fun hn => absurd hn hne, fun _ => .inr rfl, (fun hz => by cases hz), fun _ => rfl,
    fun hdo => ?_⟩
  · have hut := honly u (by simp [hu])
    subst hut
    rw [hpt] at hu
    cases hu
  · have hut := honly u (by simp [hu])
    subst hut
    rw [hpt] at hu
    cases hu
    exact ⟨rfl, hne, hidm, hd⟩
  · rcases (h.detach_ok hdo).2.2 with hd' | ⟨hd', -⟩ <;> simp [hj] at hd'

/-- The winning join returns once the target's thread has finished, and
withdraws the id when it found a zombie. -/
theorem inv_joinReturn {e : Bool} {vptr : UInt32} (h : Inv S s)
    (hpc : s.pc t = .joinCleanup e vptr) :
    Inv S ({ (if e then s.withdraw t else s) with joinDone := true }.move t .idle) := by
  have hw : (s.pc t).waiting = true := by simp [hpc]
  have ht := h.waiter_ne t hw
  obtain ⟨hx, hne, hidm, -⟩ := h.cleanup t e vptr hpc
  have hother : ∀ u, u ≠ t → (s.pc u).waiting = false := fun u hut => by
    cases hu : (s.pc u).waiting
    · rfl
    · exact absurd (h.one_waiter u t hu hw) hut
  -- a successful detach leaves nobody inside a join, and `t` is inside one
  have hdo : s.detachOk = false := by
    cases hdo : s.detachOk
    · rfl
    · simpa [hw] using (h.detach_ok hdo).2.1 t
  -- the withdrawal: only when the joiner found a zombie, with the id still in
  have hrem : ({ (if e then s.withdraw t else s) with joinDone := true }.move t .idle).inIdm =
        false ∧
      ({ (if e then s.withdraw t else s) with joinDone := true }.move t .idle).removedBy ≠ [] ∧
      ({ (if e then s.withdraw t else s) with joinDone := true }.move t .idle).removedBy.length
        ≤ 1 := by
    cases e with
    | true => simp [h.removedBy_nil hidm]
    | false => simpa using ⟨hidm, h.removed.mp hidm, h.removed_le⟩
  generalize hs' : { (if e then s.withdraw t else s) with joinDone := true }.move t .idle = s' at hrem
  have hpo : ∀ u, u ≠ t → s'.pc u = s.pc u := fun u hut => by
    rw [← hs', State.move_pc_other _ _ hut]
    cases e <;> rfl
  have hnw : ∀ u, (s'.pc u).waiting = false := fun u => by
    by_cases hut : u = t
    · rw [← hs', hut]
      simp
    · rw [hpo u hut]
      exact hother u hut
  have hjx : s'.joiner = .exited := by rw [← hs']; cases e <;> exact hx
  have hex : s'.exitCode = s.exitCode := by rw [← hs']; cases e <;> rfl
  have hT := hpo S.target (Ne.symm ht)
  have hdo' : s'.detachOk = false := by rw [← hs']; cases e <;> exact hdo
  refine ⟨⟨fun _ => hrem.2.1, fun _ => hrem.1⟩, hrem.2.2, fun u _ hu => by simp [hnw u] at hu,
    fun u hu => by simp [hnw u] at hu, fun u vptr' hu => absurd hu (Pc.ne_joinAsleep (hnw u) vptr'),
    fun j hj => by simp [hjx] at hj, fun u e' vptr' hu => absurd hu (Pc.ne_joinCleanup (hnw u) e' vptr'),
    fun _ => hjx, by rw [hT, hex]; exact h.running, fun hn => absurd (hex ▸ hn) hne,
    fun _ => .inr hjx, fun hz => by simp [hjx] at hz, fun _ => hjx, fun hd => by simp [hdo'] at hd⟩

/-- A detach of a joinable target marks it detached; a detach of a zombie
takes its cleanup and withdraws the id; any other detach changes nothing. -/
theorem inv_detach {w : JoinStatus} {r : CellError} (h : Inv S s) (hidm : s.inIdm = true)
    (hd : detachOp s.joiner = (w, r)) :
    Inv S (if r = .eagain then { s with joiner := w }.withdraw t
      else { s with joiner := w, detachOk := s.detachOk || decide (r = .ok) }) := by
  rcases detachOp_eq hd with ⟨hj, rfl, rfl⟩ | ⟨hj, rfl, rfl⟩ | ⟨rfl, hok, hag⟩
  · -- joinable: nobody is inside a join and the target runs
    have hnw := h.no_waiter (by simp [hj]) (by simp [hj])
    have hnd := h.exitCode_none (by simp [hj]) (by simp [hj])
    have hdn := h.joinDone_false (by simp [hj])
    rw [if_neg (by decide)]
    refine ⟨h.removed, h.removed_le, fun u _ hu => by simp [hnw u] at hu,
      fun u hu => by simp [hnw u] at hu, fun u vptr hu => absurd hu (Pc.ne_joinAsleep (hnw u) vptr),
      (fun j hj' => by cases hj'), fun u e vptr hu => absurd hu (Pc.ne_joinCleanup (hnw u) e vptr),
      fun hd' => by simp [hdn] at hd', h.running, fun _ => ⟨by simp, by simp, hidm⟩,
      fun hn => absurd hnd hn, (fun hz => by cases hz), fun hg => ?_, fun _ => ⟨hdn, hnw, .inl rfl⟩⟩
    simpa [hj] using h.gone hg
  · -- a zombie: the detach withdraws the id
    have hnw := h.no_waiter (by simp [hj]) (by simp [hj])
    obtain ⟨hpT, -, hdn⟩ := h.zombie hj
    have hne := h.exitCode_of_pc (by simp [hpT])
    have hdo := h.detachOk_false (by simp [hj]) (by simp [hj])
    rw [if_pos rfl]
    refine ⟨by simp, by simp [h.removedBy_nil hidm], fun u _ hu => by simp [hnw u] at hu,
      fun u hu => by simp [hnw u] at hu, fun u vptr hu => absurd hu (Pc.ne_joinAsleep (hnw u) vptr),
      (fun j hj' => by cases hj'), fun u e vptr hu => absurd hu (Pc.ne_joinCleanup (hnw u) e vptr),
      fun hd' => by simp [hdn] at hd', h.running, fun hn => absurd hn hne, fun _ => .inr rfl,
      (fun hz => by cases hz), fun _ => rfl, fun hdo' => by simp [hdo] at hdo'⟩
  · -- the word stays and the call fails
    have hdec : decide (r = .ok) = false := by simpa using hok
    rw [if_neg hag, hdec, Bool.or_false]
    exact h

theorem inv_step : Transition.Preserved (Step S) (Inv S) := by
  intro s l s' h hs
  cases hs with
  | exit hpc => exact inv_exit h hpc
  | exitFinish _ hz he => exact inv_exitFinish h hz he
  | joinDeadlk => exact h
  | joinSrch => exact h
  | joinFail _ _ _ hj hok hag =>
    obtain ⟨rfl, -⟩ := joinOp_fail hj hok hag
    exact h
  | joinSleep hpc ht _ hj =>
    obtain ⟨hj', rfl⟩ := joinOp_ok hj
    exact inv_joinSleep h hpc ht hj'
  | joinZombie _ ht _ hj =>
    obtain ⟨hj', rfl⟩ := joinOp_eagain hj
    exact inv_joinZombie h ht hj'
  | joinReturn hpc _ => exact inv_joinReturn h hpc
  | detachSrch => exact h
  | detach _ hidm hd => exact inv_detach h hidm hd

theorem inv_reachable {s : State} (hs : Reachable S s) : Inv S s :=
  Transition.Reachable.invariant (fun _ => inv_init) inv_step hs

end Steps

/-! ### The calls -/

/-- A join returning `CELL_OK` or `CELL_EFAULT`: the return of the join
that won. -/
def Label.wins (l : Label) : Bool :=
  match l.call, l.ret with
  | .join _, some (.ok, _) => true
  | .join _, some (.efault, _) => true
  | _, _ => false

theorem Label.wins_iff {l : Label} : l.wins = true ↔
    ∃ vptr r x, l.call = .join vptr ∧ l.ret = some (r, x) ∧ (r = .ok ∨ r = .efault) := by
  rcases l with ⟨t, c, _ | ⟨r, x⟩⟩
  · cases c <;> simp [Label.wins]
  · cases c <;> cases r <;> simp [Label.wins]

theorem joinResult_cases (vptr : UInt32) (code : Option UInt64) :
    (joinResult vptr code).1 = .ok ∨ (joinResult vptr code).1 = .efault := by
  unfold joinResult
  split
  · exact .inr rfl
  · exact .inl rfl

section Calls

variable {S : Setup} {s s' : State} {l : Label}

/-- A join step that returns either fails in the step the call starts,
changing nothing, or is the return of the join that won, once the target's
thread has finished. -/
theorem join_returns {vptr : UInt32} {r : CellError} {x : Option UInt64} (h : Inv S s)
    (hs : Step S s l s') (hc : l.call = .join vptr) (hr : l.ret = some (r, x)) :
    ((r = .einval ∨ r = .esrch ∨ r = .edeadlk) ∧ x = none ∧ s' = s ∧ s.pc l.thread = .idle) ∨
      (∃ e, s.pc l.thread = .joinCleanup e vptr ∧ s.pc S.target = .gone ∧ s.exitCode ≠ none ∧
        s.joinDone = false ∧ s'.joinDone = true ∧ (r, x) = joinResult vptr s.exitCode) := by
  cases hs with
  | exit => cases hc
  | exitFinish => cases hc
  | joinDeadlk hpc =>
    cases hr
    exact .inl ⟨.inr (.inr rfl), rfl, rfl, hpc⟩
  | joinSrch hpc =>
    cases hr
    exact .inl ⟨.inr (.inl rfl), rfl, rfl, hpc⟩
  | joinFail hpc _ _ hj hok hag =>
    cases hr
    obtain ⟨rfl, hr'⟩ := joinOp_fail hj hok hag
    rcases hr' with rfl | rfl
    · exact .inl ⟨.inl rfl, rfl, rfl, hpc⟩
    · exact .inl ⟨.inr (.inl rfl), rfl, rfl, hpc⟩
  | joinSleep => cases hr
  | joinZombie => cases hr
  | @joinReturn t e vptr' hpc hg =>
    cases hc
    obtain ⟨-, hne, -, hd⟩ := h.cleanup t e vptr hpc
    refine .inr ⟨e, hpc, hg, hne, hd, by cases e <;> rfl, ?_⟩
    simpa using hr.symm
  | detachSrch => cases hc
  | detach => cases hc

/-- The winning join's flag is never lowered. -/
theorem joinDone_keep (hs : Step S s l s') (hd : s.joinDone = true) : s'.joinDone = true := by
  cases hs with
  | exit =>
    simp only [State.move_joinDone, State.wakeJoiner_joinDone]
    split <;> simpa using hd
  | joinReturn => simp
  | detach =>
    split <;> simpa using hd
  | _ => simpa using hd

/-- The returns of winning joins: at most one along any run. -/
theorem wins_fire (h : Inv S s) (hs : Step S s l s') (hw : l.wins = true) :
    s.joinDone = false ∧ s'.joinDone = true := by
  obtain ⟨vptr, r, x, hc, hr, hok⟩ := Label.wins_iff.mp hw
  rcases join_returns h hs hc hr with ⟨hf, -⟩ | ⟨e, -, -, -, hd, hd', -⟩
  · rcases hok with rfl | rfl <;> rcases hf with h' | h' | h' <;> cases h'
  · exact ⟨hd, hd'⟩

/-- After a successful detach every join fails in the step it starts. -/
theorem join_after_detach {vptr : UInt32} (h : Inv S s) (hdo : s.detachOk = true)
    (hs : Step S s l s') (hc : l.call = .join vptr) :
    ∃ r, l.ret = some (r, none) ∧ (r = .einval ∨ r = .esrch ∨ r = .edeadlk) := by
  obtain ⟨-, hnw, hj⟩ := h.detach_ok hdo
  cases hs with
  | exit => cases hc
  | exitFinish => cases hc
  | joinDeadlk => exact ⟨_, rfl, .inr (.inr rfl)⟩
  | joinSrch => exact ⟨_, rfl, .inr (.inl rfl)⟩
  | joinFail _ _ _ hj' hok hag =>
    obtain ⟨-, hr⟩ := joinOp_fail hj' hok hag
    exact ⟨_, rfl, hr.elim .inl (fun h => .inr (.inl h))⟩
  | joinSleep _ _ _ hj' =>
    rcases hj with hj | ⟨hj, -⟩ <;> simp [(joinOp_ok hj').1] at hj
  | joinZombie _ _ _ hj' =>
    rcases hj with hj | ⟨hj, -⟩ <;> simp [(joinOp_eagain hj').1] at hj
  | @joinReturn t e vptr' hpc => exact absurd hpc (Pc.ne_joinCleanup (hnw t) e vptr')
  | detachSrch => cases hc
  | detach => cases hc

/-- Who withdraws the target's id: the target when it exits detached or
joined, the winning joiner when it found a zombie, or a detach that found a
zombie, which returns `CELL_EAGAIN`. -/
theorem withdraw_by (h : Inv S s) (hs : Step S s l s') (hi : s.inIdm = true)
    (hi' : s'.inIdm = false) :
    (l.thread = S.target ∧ (s.joiner = .detached ∨ ∃ j, s.joiner = .joiner j)) ∨
      (∃ vptr, l.call = .join vptr ∧ s.pc l.thread = .joinCleanup true vptr) ∨
      (l.call = .detach ∧ s.joiner = .zombie ∧ l.ret = some (.eagain, none)) := by
  cases hs with
  | @exit v hpc =>
    obtain ⟨-, -, -, -, hnz, hnx⟩ := h.before_exit hpc
    cases hj : s.joiner with
    | joinable => simp [hj, hi] at hi'
    | detached => exact .inl ⟨rfl, .inl rfl⟩
    | zombie => exact absurd hj hnz
    | exited => exact absurd hj hnx
    | joiner j => exact .inl ⟨rfl, .inr ⟨j, rfl⟩⟩
  | @joinReturn t e vptr hpc =>
    cases e with
    | true => exact .inr (.inl ⟨vptr, rfl, hpc⟩)
    | false =>
      rw [(h.cleanup t false vptr hpc).2.2.1] at hi
      cases hi
  | detach _ _ hd =>
    split at hi'
    · rename_i hag
      subst hag
      rcases detachOp_eq hd with ⟨-, -, h'⟩ | ⟨hj, -, -⟩ | ⟨-, -, h'⟩
      · cases h'
      · exact .inr (.inr ⟨rfl, hj, rfl⟩)
      · exact absurd rfl h'
    · simp [hi] at hi'
  | _ => simp_all

/-- A zombie stops being one only through a join or a detach. -/
theorem zombie_left (h : Inv S s) (hs : Step S s l s') (hz : s.joiner = .zombie)
    (hz' : s'.joiner ≠ .zombie) : (∃ vptr, l.call = .join vptr) ∨ l.call = .detach := by
  cases hs with
  | exit hpc => exact absurd hz (h.before_exit hpc).2.2.2.2.1
  | exitFinish => exact absurd hz hz'
  | joinDeadlk => exact .inl ⟨_, rfl⟩
  | joinSrch => exact .inl ⟨_, rfl⟩
  | joinFail => exact .inl ⟨_, rfl⟩
  | joinSleep => exact .inl ⟨_, rfl⟩
  | joinZombie => exact .inl ⟨_, rfl⟩
  | joinReturn => exact .inl ⟨_, rfl⟩
  | detachSrch => exact .inr rfl
  | detach => exact .inr rfl

end Calls

/-! ### The contract -/

/-- What the join protocol guarantees in a state of any interleaving of the
target's `_sys_ppu_thread_exit(v)` with `sys_ppu_thread_join` and
`sys_ppu_thread_detach` calls on it. -/
structure JoinContract (S : Setup) (s : State) : Prop where
  /-- From here on, at most one join returns `CELL_OK` or `CELL_EFAULT`, and
  none once the winning join has returned. -/
  wins_once : ∀ ls s', Transition.Run (Step S) s ls s' →
    (ls.filter Label.wins).length + (if s.joinDone then 1 else 0) ≤ 1
  /-- That join returns once the target's thread has finished, with
  `CELL_OK` and the exit code, or `CELL_EFAULT` for a null `vptr`. -/
  win : ∀ t vptr r x s', Step S s ⟨t, .join vptr, some (r, x)⟩ s' → (r = .ok ∨ r = .efault) →
    s.pc S.target = .gone ∧ s.exitCode ≠ none ∧ (r = .ok ↔ vptr ≠ 0) ∧
      (r = .ok → x = s.exitCode)
  /-- Every other join returns `CELL_EINVAL`, `CELL_ESRCH` or
  `CELL_EDEADLK` in the step it starts and changes nothing. -/
  fail : ∀ t vptr r x s', Step S s ⟨t, .join vptr, some (r, x)⟩ s' → r ≠ .ok → r ≠ .efault →
    (r = .einval ∨ r = .esrch ∨ r = .edeadlk) ∧ s.pc t = .idle ∧ s' = s
  /-- After a successful detach every join fails. -/
  after_detach : s.detachOk = true → ∀ t vptr ret s', Step S s ⟨t, .join vptr, ret⟩ s' →
    ∃ r, ret = some (r, none) ∧ (r = .einval ∨ r = .esrch ∨ r = .edeadlk)
  /-- The id is withdrawn at most once. -/
  removed_once : s.removedBy.length ≤ 1
  /-- It is withdrawn by the target when it exits detached or joined, by the
  winning joiner when it found a zombie, or by a detach that found a zombie,
  which returns `CELL_EAGAIN`. -/
  withdraw : ∀ l s', Step S s l s' → s.inIdm = true → s'.inIdm = false →
    (l.thread = S.target ∧ (s.joiner = .detached ∨ ∃ j, s.joiner = .joiner j)) ∨
      (∃ vptr, l.call = .join vptr ∧ s.pc l.thread = .joinCleanup true vptr) ∨
      (l.call = .detach ∧ s.joiner = .zombie ∧ l.ret = some (.eagain, none))
  /-- A zombie stops being one only through a join or a detach. -/
  zombie : ∀ l s', Step S s l s' → s.joiner = .zombie → s'.joiner ≠ .zombie →
    (∃ vptr, l.call = .join vptr) ∨ l.call = .detach

/-- Every reachable state of the join protocol keeps its contract. -/
theorem ppu_join_contract {S : Setup} {s : State} (hs : Reachable S s) : JoinContract S s := by
  have h := inv_reachable hs
  refine {
    wins_once := fun ls s' hr => ?_
    win := fun t vptr r x s' hstep hok => ?_
    fail := fun t vptr r x s' hstep hok hef => ?_
    after_detach := fun hdo t vptr ret s' hstep => join_after_detach h hdo hstep rfl
    removed_once := h.removed_le
    withdraw := fun l s' hstep hi hi' => withdraw_by h hstep hi hi'
    zombie := fun l s' hstep hz hz' => zombie_left h hstep hz hz' }
  · -- the winning join's flag goes up once and stays up
    have := hr.count_add_flag_le inv_step (fun _ _ _ _ hst hd => joinDone_keep hst hd)
      (fun _ _ _ hinv hst hw => wins_fire hinv hst hw) h
    have hle : (if s'.joinDone then 1 else 0) ≤ 1 := by split <;> omega
    omega
  · rcases join_returns h hstep rfl rfl with ⟨hf, -⟩ | ⟨e, -, hg, hne, -, -, hres⟩
    · rcases hok with rfl | rfl <;> rcases hf with h' | h' | h' <;> cases h'
    · unfold joinResult at hres
      split at hres
      · rename_i hv
        simp only [Prod.mk.injEq] at hres
        obtain ⟨rfl, rfl⟩ := hres
        exact ⟨hg, hne, by simp [hv], fun h' => by cases h'⟩
      · rename_i hv
        simp only [Prod.mk.injEq] at hres
        obtain ⟨rfl, rfl⟩ := hres
        exact ⟨hg, hne, by simp [hv], fun _ => rfl⟩
  · rcases join_returns h hstep rfl rfl with ⟨hf, -, rfl, hpc⟩ | ⟨e, -, -, -, -, -, hres⟩
    · exact ⟨hf, hpc, rfl⟩
    · have hc := joinResult_cases vptr s.exitCode
      rw [← hres] at hc
      rcases hc with hc | hc
      · exact absurd hc hok
      · exact absurd hc hef

/-- The target and the other threads of the runs below. -/
def targetThread : PpuId := ⟨1, Nat.one_pos⟩
def joinerThread : PpuId := ⟨2, Nat.two_pos⟩
def detacher : PpuId := ⟨3, PpuId.pos_three⟩

def threadSetup : Setup := ⟨targetThread⟩

/-- A freshly created joinable thread, nobody inside a call. -/
def State.fresh : State := ⟨.joinable, true, none, fun _ => .idle, [], false, false⟩

theorem State.fresh_init : State.Init State.fresh :=
  ⟨rfl, rfl, rfl, fun _ => rfl, rfl, rfl, rfl⟩

/-- The join that wins returns `CELL_EFAULT` for a null `vptr`, and a
detach withdraws a zombie's id. `joinerThread` joins the joinable target with
`vptr = 0` and sleeps; the target exits with 7 and finishes; the join returns
`CELL_EFAULT`, neither `CELL_OK` nor a failure code. In a second run the
target exits first and waits as a zombie; a detach takes its cleanup,
withdraws its id and returns `CELL_EAGAIN`. -/
theorem null_vptr_join_and_zombie_detach :
    State.Init State.fresh ∧
      (∃ s₁ s₂ s₃ s₄, Step threadSetup State.fresh ⟨joinerThread, .join 0, none⟩ s₁ ∧
        Step threadSetup s₁ ⟨targetThread, .exit 7, none⟩ s₂ ∧
        Step threadSetup s₂ ⟨targetThread, .exit 7, none⟩ s₃ ∧
        Step threadSetup s₃ ⟨joinerThread, .join 0, some (.efault, none)⟩ s₄) ∧
      (∃ s₁ s₂, Step threadSetup State.fresh ⟨targetThread, .exit 7, none⟩ s₁ ∧
        Step threadSetup s₁ ⟨detacher, .detach, some (.eagain, none)⟩ s₂ ∧
        s₂.removedBy = [detacher] ∧ s₂.inIdm = false) :=
  -- each step's state is the one the previous step produced
  ⟨State.fresh_init,
    ⟨_, _, _, _, Step.joinSleep rfl (by decide) rfl rfl, Step.exit rfl,
      Step.exitFinish rfl (by decide) rfl, Step.joinReturn rfl rfl⟩,
    ⟨_, _, Step.exit rfl, Step.detach rfl rfl rfl, rfl, rfl⟩⟩

/-- A join that sleeps and wins: `joinerThread` joins the joinable target with a buffer and
sleeps; the target exits with 7, withdraws its own id, wakes the joiner and finishes; the join
returns `CELL_OK` with the exit code. -/
theorem ppu_join_contract_joined :
    ∃ s, Reachable threadSetup s ∧ s.joinDone = true ∧ s.exitCode = some 7 ∧
      s.removedBy = [targetThread] ∧ JoinContract threadSetup s := by
  have h₀ : Transition.Reachable State.Init (Step threadSetup) State.fresh :=
    Transition.Reachable.of_init State.fresh_init
  have h₁ := h₀.next (@Step.joinSleep _ _ joinerThread 0x1000 _ rfl (by decide) rfl rfl)
  have h₂ := h₁.next (Step.exit (v := 7) rfl)
  have h₃ := h₂.next (Step.exitFinish rfl (by decide) rfl)
  have h₄ := h₃.next (Step.joinReturn (t := joinerThread) rfl rfl)
  exact ⟨_, h₄, rfl, rfl, rfl, ppu_join_contract h₄⟩

end Rpcs3.Lv2.PpuThread
