import Rpcs3.Lib.Count
import Rpcs3.Lib.Transition
import Mathlib

/-! `shared_mutex` (Utilities/mutex.h and mutex.cpp): one `u32` holds the number
of readers in its low 14 bits, from bit 14 on a fixed-point count of writers,
one each for the writer that holds the lock and for every thread that waits or
is about to wait in `imp_wait` (readers that fall back to the writer path
included), and `c_sig` in bit 30, set by `imp_signal` and taken by the one thread
it lets through. Every thread runs `lock`, `try_lock`, `unlock`, `lock_shared`,
`try_lock_shared`, `unlock_shared`, `lock_upgrade`, `try_lock_upgrade`,
`lock_downgrade` and `lock_unlock` (the `_hle` variants are the same operations),
and each load, CAS, `fetch_add`, `fetch_sub` and `fetch_op` on `m_value` is a
step. The spin loops keep their iteration counts. `imp_wait` blocks until its
`fetch_op` finds `c_sig`, which is the one step it takes.

With fewer than 65536 threads the word always decomposes as above, the writer
that holds the lock holds it alone, `c_sig` is only ever set while nobody holds
the lock, and a thread blocked with nobody holding the lock has `c_sig` set or a
thread on its way to set it (`shared_mutex_contract`). With 65536 threads the
writer count carries into `c_sig`, and `lock_unlock`, whose `fetch_add` has no
overflow check, lets a second thread take the lock
(`shared_mutex_two_writers`). -/
namespace Rpcs3.Util.SharedMutex

open Transition Count

/-- `c_one = 1u << 14`. -/
def cOne : ℕ := 16384
/-- `c_sig = 1u << 30`. -/
def cSig : ℕ := 1073741824
/-- `c_err = 1u << 31`. -/
def cErr : ℕ := 2147483648

/-- Arithmetic on `u32`. -/
def wrap (x : ℕ) : ℕ := x % 4294967296

/-- `x - c` on `u32`. -/
def wrapSub (x c : ℕ) : ℕ := wrap (x + 4294967296 - c)

theorem wrapSub_of_le {x c : ℕ} (h : c ≤ x) (hx : x < cErr) : wrapSub x c = x - c := by
  unfold wrapSub wrap
  unfold cErr at hx
  omega

/-- `val & c_sig`. -/
def sigSet (val : ℕ) : Bool := val &&& cSig != 0

/-- What a thread does once `imp_wait` lets it through. -/
inductive Goal where
  /-- `imp_lock_shared`: `lock_downgrade` to a reader. -/
  | reader
  /-- `imp_lock` and `imp_lock_upgrade`: hold the writer lock. -/
  | writer
  /-- `imp_lock_unlock`: `unlock()` at once. -/
  | lockUnlock
  deriving DecidableEq, Repr

/-- Where a thread is. The snapshots are the values its loads and failed CASes
returned; the counters are the iterations of the spin loops done. -/
inductive Pc where
  | idle
  /-- Holds a reader lock. -/
  | reader
  /-- Holds the writer lock. -/
  | writer
  /-- `try_lock_shared` loaded `v`; the CAS is next. -/
  | trySharedLoaded (v : ℕ)
  /-- `lock_shared` loaded `v`; the CAS is next. -/
  | lockSharedLoaded (v : ℕ)
  /-- `imp_lock_shared(val)`: the check of `val` and the steal of `c_sig`. -/
  | sharedSteal (val : ℕ)
  /-- `imp_lock_shared`, iteration `i`: the load of `try_lock_shared`. -/
  | sharedSpin (i : ℕ)
  /-- Its CAS on the loaded `v`. -/
  | sharedSpinLoaded (i v : ℕ)
  /-- The load of `old` for the steal. -/
  | sharedSigLoad (i : ℕ)
  /-- The steal CAS on `old`. -/
  | sharedSigLoaded (i old : ℕ)
  /-- `imp_lock_shared`: `fetch_add(c_one)`. -/
  | sharedFetchAdd
  /-- Holds the writer lock of `imp_lock_shared`; `lock_downgrade` is next. -/
  | downgrading
  /-- Blocked in `imp_wait`. -/
  | waiting (goal : Goal)
  /-- `imp_lock(val)`: the check of `val` and the steal of `c_sig`. -/
  | lockSteal (val : ℕ)
  /-- `imp_lock`, iteration `i`: the load of `old`. -/
  | lockSpin (i : ℕ)
  /-- `try_lock` if `old` is 0, else the steal CAS on `old`. -/
  | lockSpinLoaded (i old : ℕ)
  /-- `imp_lock`: `fetch_add(c_one)`. -/
  | lockFetchAdd
  /-- `imp_signal`: `m_value += c_sig` is next. -/
  | signaling
  /-- `lock_upgrade`, attempt `i` of `try_lock_upgrade`: the load. -/
  | upgradeLoad (i : ℕ)
  /-- Its CAS on the loaded `v`. -/
  | upgradeLoaded (i v : ℕ)
  /-- `imp_lock_upgrade`: `fetch_add(c_one - 1)`. -/
  | upgradeFetchAdd
  /-- `try_lock_upgrade` loaded `v`; the CAS is next. -/
  | tryUpgradeLoaded (v : ℕ)
  /-- `imp_lock_unlock`, iteration `i` with `_max = max`: the load. -/
  | lockUnlockSpin (i max : ℕ)
  /-- `imp_lock_unlock`: `fetch_add(c_one)`. -/
  | lockUnlockFetchAdd
  /-- Holds the writer lock of `imp_lock_unlock`; `unlock()` is next. -/
  | lockUnlockHeld
  /-- An `ensure` failed. -/
  | aborted
  deriving DecidableEq, Repr

/-- Where `imp_wait` hands a thread on to. -/
def Goal.next : Goal → Pc
  | .reader => .downgrading
  | .writer => .writer
  | .lockUnlock => .lockUnlockHeld

structure State (ι : Type) where
  m : ℕ
  pc : ι → Pc

variable {ι : Type}

def State.init : State ι := ⟨0, fun _ => .idle⟩

variable [DecidableEq ι]

/-- Thread `t` moves to `p` and `m_value` becomes `m`. -/
def State.set (s : State ι) (t : ι) (p : Pc) (m : ℕ) : State ι :=
  ⟨m, Function.update s.pc t p⟩

@[simp] theorem State.set_m (s : State ι) (t : ι) (p : Pc) (m : ℕ) : (s.set t p m).m = m := rfl

@[simp] theorem State.set_pc_self (s : State ι) (t : ι) (p : Pc) (m : ℕ) :
    (s.set t p m).pc t = p := by
  simp [State.set]

@[simp] theorem State.set_set (s : State ι) (t : ι) (p q : Pc) (m m' : ℕ) :
    (s.set t p m).set t q m' = s.set t q m' := by
  simp [State.set]

/-- The steps of thread `t`, by function of the source and branch. -/
inductive Step : State ι → ι → State ι → Prop where
  -- `try_lock_shared`
  | tryLockSharedLoad {s : State ι} {t : ι} : s.pc t = .idle →
      Step s t (s.set t (.trySharedLoaded s.m) s.m)
  | tryLockSharedCas {s : State ι} {t : ι} {v : ℕ} : s.pc t = .trySharedLoaded v →
      v < cOne - 1 → s.m = v → Step s t (s.set t .reader (wrap (v + 1)))
  | tryLockSharedFail {s : State ι} {t : ι} {v : ℕ} : s.pc t = .trySharedLoaded v →
      ¬(v < cOne - 1 ∧ s.m = v) → Step s t (s.set t .idle s.m)
  -- `lock_shared`, then `imp_lock_shared(value)` with the loaded value
  | lockSharedLoad {s : State ι} {t : ι} : s.pc t = .idle →
      Step s t (s.set t (.lockSharedLoaded s.m) s.m)
  | lockSharedCas {s : State ι} {t : ι} {v : ℕ} : s.pc t = .lockSharedLoaded v →
      v < cOne - 1 → s.m = v → Step s t (s.set t .reader (wrap (v + 1)))
  | lockSharedSlow {s : State ι} {t : ι} {v : ℕ} : s.pc t = .lockSharedLoaded v →
      ¬(v < cOne - 1 ∧ s.m = v) → Step s t (s.set t (.sharedSteal v) s.m)
  | sharedStealAbort {s : State ι} {t : ι} {val : ℕ} : s.pc t = .sharedSteal val →
      cErr ≤ val → Step s t (s.set t .aborted s.m)
  | sharedStealCas {s : State ι} {t : ι} {val : ℕ} : s.pc t = .sharedSteal val →
      val < cErr → sigSet val = true → s.m = val →
      Step s t (s.set t .reader (wrap (val - cSig + 1)))
  | sharedStealSkip {s : State ι} {t : ι} {val : ℕ} : s.pc t = .sharedSteal val →
      val < cErr → ¬(sigSet val = true ∧ s.m = val) → Step s t (s.set t (.sharedSpin 0) s.m)
  | sharedSpinLoad {s : State ι} {t : ι} {i : ℕ} : s.pc t = .sharedSpin i →
      Step s t (s.set t (.sharedSpinLoaded i s.m) s.m)
  | sharedSpinCas {s : State ι} {t : ι} {i v : ℕ} : s.pc t = .sharedSpinLoaded i v →
      v < cOne - 1 → s.m = v → Step s t (s.set t .reader (wrap (v + 1)))
  | sharedSpinFail {s : State ι} {t : ι} {i v : ℕ} : s.pc t = .sharedSpinLoaded i v →
      ¬(v < cOne - 1 ∧ s.m = v) → Step s t (s.set t (.sharedSigLoad i) s.m)
  | sharedSigLoad {s : State ι} {t : ι} {i : ℕ} : s.pc t = .sharedSigLoad i →
      Step s t (s.set t (.sharedSigLoaded i s.m) s.m)
  | sharedSigCas {s : State ι} {t : ι} {i old : ℕ} : s.pc t = .sharedSigLoaded i old →
      sigSet old = true → s.m = old → Step s t (s.set t .reader (wrap (old - cSig + 1)))
  /-- After ten iterations the reader falls back to the writer path. -/
  | sharedSigNext {s : State ι} {t : ι} {i old : ℕ} : s.pc t = .sharedSigLoaded i old →
      ¬(sigSet old = true ∧ s.m = old) →
      Step s t (s.set t (if i + 1 < 10 then .sharedSpin (i + 1) else .sharedFetchAdd) s.m)
  | sharedFetchAddFree {s : State ι} {t : ι} : s.pc t = .sharedFetchAdd → s.m = 0 →
      Step s t (s.set t .downgrading (wrap (s.m + cOne)))
  | sharedFetchAddWait {s : State ι} {t : ι} : s.pc t = .sharedFetchAdd → s.m ≠ 0 →
      s.m % cSig + cOne < cSig → Step s t (s.set t (.waiting .reader) (wrap (s.m + cOne)))
  | sharedFetchAddAbort {s : State ι} {t : ι} : s.pc t = .sharedFetchAdd → s.m ≠ 0 →
      ¬(s.m % cSig + cOne < cSig) → Step s t (s.set t .aborted (wrap (s.m + cOne)))
  -- `lock_downgrade`, by a writer or after `imp_lock_shared`
  | lockDowngrade {s : State ι} {t : ι} : s.pc t = .writer →
      Step s t (s.set t .reader (wrapSub s.m (cOne - 1)))
  | sharedDowngrade {s : State ι} {t : ι} : s.pc t = .downgrading →
      Step s t (s.set t .reader (wrapSub s.m (cOne - 1)))
  -- `imp_wait`: its `fetch_op` takes `c_sig`
  | waitWake {s : State ι} {t : ι} {g : Goal} : s.pc t = .waiting g → cSig ≤ s.m →
      Step s t (s.set t g.next (s.m - cSig))
  -- `try_lock` and `lock`, then `imp_lock(value)`
  | tryLock {s : State ι} {t : ι} : s.pc t = .idle → s.m = 0 → Step s t (s.set t .writer cOne)
  | tryLockFail {s : State ι} {t : ι} : s.pc t = .idle → s.m ≠ 0 → Step s t (s.set t .idle s.m)
  | lockCas {s : State ι} {t : ι} : s.pc t = .idle → s.m = 0 → Step s t (s.set t .writer cOne)
  | lockSlow {s : State ι} {t : ι} : s.pc t = .idle → s.m ≠ 0 →
      Step s t (s.set t (.lockSteal s.m) s.m)
  | lockStealAbort {s : State ι} {t : ι} {val : ℕ} : s.pc t = .lockSteal val → cErr ≤ val →
      Step s t (s.set t .aborted s.m)
  | lockStealCas {s : State ι} {t : ι} {val : ℕ} : s.pc t = .lockSteal val → val < cErr →
      sigSet val = true → s.m = val → Step s t (s.set t .writer (wrap (val - cSig + cOne)))
  | lockStealSkip {s : State ι} {t : ι} {val : ℕ} : s.pc t = .lockSteal val → val < cErr →
      ¬(sigSet val = true ∧ s.m = val) → Step s t (s.set t (.lockSpin 0) s.m)
  | lockSpinLoad {s : State ι} {t : ι} {i : ℕ} : s.pc t = .lockSpin i →
      Step s t (s.set t (.lockSpinLoaded i s.m) s.m)
  | lockSpinTryLock {s : State ι} {t : ι} {i old : ℕ} : s.pc t = .lockSpinLoaded i old →
      old = 0 → s.m = 0 → Step s t (s.set t .writer cOne)
  | lockSpinSteal {s : State ι} {t : ι} {i old : ℕ} : s.pc t = .lockSpinLoaded i old →
      sigSet old = true → s.m = old → Step s t (s.set t .writer (wrap (old - cSig + cOne)))
  | lockSpinNext {s : State ι} {t : ι} {i old : ℕ} : s.pc t = .lockSpinLoaded i old →
      ¬(old = 0 ∧ s.m = 0) → ¬(sigSet old = true ∧ s.m = old) →
      Step s t (s.set t (if i + 1 < 10 then .lockSpin (i + 1) else .lockFetchAdd) s.m)
  | lockFetchAddFree {s : State ι} {t : ι} : s.pc t = .lockFetchAdd → s.m = 0 →
      Step s t (s.set t .writer (wrap (s.m + cOne)))
  | lockFetchAddWait {s : State ι} {t : ι} : s.pc t = .lockFetchAdd → s.m ≠ 0 →
      s.m % cSig + cOne < cSig → Step s t (s.set t (.waiting .writer) (wrap (s.m + cOne)))
  | lockFetchAddAbort {s : State ι} {t : ι} : s.pc t = .lockFetchAdd → s.m ≠ 0 →
      ¬(s.m % cSig + cOne < cSig) → Step s t (s.set t .aborted (wrap (s.m + cOne)))
  -- `unlock`, by a writer or after `imp_lock_unlock`, then `imp_unlock(value)`
  | unlockFree {s : State ι} {t : ι} : (s.pc t = .writer ∨ s.pc t = .lockUnlockHeld) →
      s.m = cOne → Step s t (s.set t .idle (wrapSub s.m cOne))
  | unlockSignal {s : State ι} {t : ι} : (s.pc t = .writer ∨ s.pc t = .lockUnlockHeld) →
      s.m ≠ cOne → wrapSub s.m cOne < cErr → Step s t (s.set t .signaling (wrapSub s.m cOne))
  | unlockAbort {s : State ι} {t : ι} : (s.pc t = .writer ∨ s.pc t = .lockUnlockHeld) →
      s.m ≠ cOne → cErr ≤ wrapSub s.m cOne → Step s t (s.set t .aborted (wrapSub s.m cOne))
  -- `unlock_shared`, then `imp_unlock_shared(value)`
  | unlockSharedFast {s : State ι} {t : ι} : s.pc t = .reader → s.m < cOne →
      Step s t (s.set t .idle (wrapSub s.m 1))
  | unlockSharedSlow {s : State ι} {t : ι} : s.pc t = .reader → cOne ≤ s.m →
      wrapSub s.m 1 < cErr →
      Step s t (s.set t (if wrapSub s.m 1 % cOne = 0 then .signaling else .idle) (wrapSub s.m 1))
  | unlockSharedAbort {s : State ι} {t : ι} : s.pc t = .reader → cOne ≤ s.m →
      cErr ≤ wrapSub s.m 1 → Step s t (s.set t .aborted (wrapSub s.m 1))
  -- `imp_signal`
  | signal {s : State ι} {t : ι} : s.pc t = .signaling → Step s t (s.set t .idle (wrap (s.m + cSig)))
  -- `lock_upgrade`: `try_lock_upgrade`, ten more attempts, then `imp_lock_upgrade`'s `fetch_add`
  | lockUpgrade {s : State ι} {t : ι} : s.pc t = .reader →
      Step s t (s.set t (.upgradeLoaded 0 s.m) s.m)
  | upgradeLoad {s : State ι} {t : ι} {i : ℕ} : s.pc t = .upgradeLoad i →
      Step s t (s.set t (.upgradeLoaded i s.m) s.m)
  | upgradeCas {s : State ι} {t : ι} {i v : ℕ} : s.pc t = .upgradeLoaded i v →
      wrap (v + cOne - 1) % cOne = 0 → s.m = v → Step s t (s.set t .writer (wrap (v + cOne - 1)))
  | upgradeNext {s : State ι} {t : ι} {i v : ℕ} : s.pc t = .upgradeLoaded i v →
      ¬(wrap (v + cOne - 1) % cOne = 0 ∧ s.m = v) →
      Step s t (s.set t (if i < 10 then .upgradeLoad (i + 1) else .upgradeFetchAdd) s.m)
  | upgradeFetchAdd {s : State ι} {t : ι} : s.pc t = .upgradeFetchAdd →
      s.m % cSig + cOne - 1 < cSig →
      Step s t (s.set t (if s.m % cOne = 1 then .writer else .waiting .writer)
        (wrap (s.m + (cOne - 1))))
  | upgradeFetchAddAbort {s : State ι} {t : ι} : s.pc t = .upgradeFetchAdd →
      ¬(s.m % cSig + cOne - 1 < cSig) → Step s t (s.set t .aborted (wrap (s.m + (cOne - 1))))
  -- `try_lock_upgrade` on its own
  | tryLockUpgradeLoad {s : State ι} {t : ι} : s.pc t = .reader →
      Step s t (s.set t (.tryUpgradeLoaded s.m) s.m)
  | tryUpgradeCas {s : State ι} {t : ι} {v : ℕ} : s.pc t = .tryUpgradeLoaded v →
      wrap (v + cOne - 1) % cOne = 0 → s.m = v → Step s t (s.set t .writer (wrap (v + cOne - 1)))
  | tryUpgradeFail {s : State ι} {t : ι} {v : ℕ} : s.pc t = .tryUpgradeLoaded v →
      ¬(wrap (v + cOne - 1) % cOne = 0 ∧ s.m = v) → Step s t (s.set t .reader s.m)
  -- `lock_unlock`: its test of `m_value`, then `imp_lock_unlock`
  | lockUnlockFree {s : State ι} {t : ι} : s.pc t = .idle → s.m = 0 → Step s t (s.set t .idle s.m)
  | lockUnlockCall {s : State ι} {t : ι} : s.pc t = .idle → s.m ≠ 0 →
      Step s t (s.set t (.lockUnlockSpin 0 1) s.m)
  /-- A load that catches the lock free, fewer waiters than last time, or `c_sig`. -/
  | lockUnlockSpinDone {s : State ι} {t : ι} {i max : ℕ} : s.pc t = .lockUnlockSpin i max →
      s.m % cOne = 0 → (s.m / cOne < max ∨ cSig ≤ s.m) → Step s t (s.set t .idle s.m)
  | lockUnlockSpinNext {s : State ι} {t : ι} {i max : ℕ} : s.pc t = .lockUnlockSpin i max →
      ¬(s.m % cOne = 0 ∧ (s.m / cOne < max ∨ cSig ≤ s.m)) →
      Step s t (s.set t (if i + 1 < 30 then .lockUnlockSpin (i + 1) (s.m / cOne)
        else .lockUnlockFetchAdd) s.m)
  | lockUnlockFetchAddFree {s : State ι} {t : ι} : s.pc t = .lockUnlockFetchAdd → s.m = 0 →
      Step s t (s.set t .lockUnlockHeld (wrap (s.m + cOne)))
  /-- No overflow check here, unlike the other `fetch_add`s. -/
  | lockUnlockFetchAddWait {s : State ι} {t : ι} : s.pc t = .lockUnlockFetchAdd → s.m ≠ 0 →
      Step s t (s.set t (.waiting .lockUnlock) (wrap (s.m + cOne)))

/-! ### What the word counts -/

/-- What a thread holds of the lock, or owes it. -/
inductive Role where
  /-- Counted nowhere. -/
  | none
  /-- Holds a reader lock: one in the low bits. -/
  | reader
  /-- Blocked, or about to block, in `imp_wait`: one `c_one`. -/
  | waiter
  /-- Holds the writer lock: one `c_one`. -/
  | writer
  /-- Owes the `imp_signal` of an unlock. -/
  | signaler
  deriving DecidableEq, Repr

/-- A reader keeps its reader lock through `lock_upgrade` until the CAS or the
`fetch_add` that converts it. -/
def Pc.role : Pc → Role
  | .reader | .upgradeLoad _ | .upgradeLoaded _ _ | .upgradeFetchAdd | .tryUpgradeLoaded _ => .reader
  | .waiting _ => .waiter
  | .writer | .downgrading | .lockUnlockHeld => .writer
  | .signaling => .signaler
  | _ => .none

@[simp] theorem Pc.role_idle : Pc.idle.role = .none := rfl
@[simp] theorem Pc.role_writer : Pc.writer.role = .writer := rfl
@[simp] theorem Pc.role_waiting (g : Goal) : (Pc.waiting g).role = .waiter := rfl
@[simp] theorem Pc.role_signaling : Pc.signaling.role = .signaler := rfl

theorem Goal.next_role (g : Goal) : g.next.role = .writer := by cases g <;> rfl

/-- The thread counts once in the count of its role. -/
def Pc.weight (p : Pc) (r : Role) : ℕ := if p.role = r then 1 else 0

/-- No `ensure` failed, and the values that an `ensure` tests later came from `m_value`. -/
def Pc.Ok : Pc → Prop
  | .lockSharedLoaded v | .sharedSteal v | .lockSteal v => v < cErr
  | .aborted => False
  | _ => True

theorem Goal.next_ok (g : Goal) : g.next.Ok := by cases g <;> trivial

theorem Pc.weight_le_one (p : Pc) (r : Role) : p.weight r ≤ 1 := by
  unfold Pc.weight; split <;> omega

/-- The writer count takes a thread once at most. -/
theorem Pc.weight_queued_le_one (p : Pc) : p.weight .waiter + p.weight .writer ≤ 1 := by
  unfold Pc.weight
  cases p.role <;> simp

theorem Pc.eq_signaling_of_role {p : Pc} (h : p.role = .signaler) : p = .signaling := by
  cases p <;> simp_all [Pc.role]

variable [Fintype ι]

/-- The number of threads in role `r`. -/
def State.count (s : State ι) (r : Role) : ℕ := total (fun p : Pc => p.weight r) s.pc

/-- The counts of the threads other than `t`. -/
def State.others (s : State ι) (t : ι) (r : Role) : ℕ := s.count r - (s.pc t).weight r

/-- The word against the counts of the roles. Below bit 30 it holds the writers
and waiters times `c_one` plus the readers; bit 30 (`m / c_sig`), a writer and a
pending signal exclude each other and readers; `c_sig` and a pending signal each
have a waiter to take them; and waiters with no reader, writer, `c_sig` or pending
signal do not occur. -/
def Good (m : ℕ) (c : Role → ℕ) : Prop :=
  m % cSig = (c .waiter + c .writer) * cOne + c .reader ∧ m < cErr ∧
  c .writer + m / cSig + c .signaler ≤ 1 ∧
  c .reader + (c .writer + m / cSig + c .signaler) * (cOne - 1) ≤ cOne - 1 ∧
  m / cSig + c .signaler ≤ c .waiter ∧
  (c .waiter = 0 ∨ 0 < c .reader + c .writer + m / cSig + c .signaler)

structure Inv (s : State ι) : Prop where
  ok : ∀ t, (s.pc t).Ok
  good : Good s.m s.count

omit [DecidableEq ι] in
theorem inv_init : Inv (State.init : State ι) where
  ok _ := trivial
  good := by simp [Good, State.count, State.init, total, Pc.weight, Pc.role, cSig, cErr]

omit [DecidableEq ι] in
theorem others_add_weight (s : State ι) (t : ι) (r : Role) :
    s.others t r + (s.pc t).weight r = s.count r :=
  Nat.sub_add_cancel (le_total (fun p : Pc => p.weight r) s.pc t)

/-- Room in the writer count for `t`: the others there are fewer than the threads. -/
theorem others_room (s : State ι) (t : ι) :
    s.others t .waiter + s.others t .writer + 1 ≤ Fintype.card ι := by
  have hq := total_sub_add_one_le Pc.weight_queued_le_one s.pc t
  rw [total_add] at hq
  have hw := others_add_weight s t .waiter
  have hx := others_add_weight s t .writer
  unfold State.count at hw hx
  omega

theorem count_set (s : State ι) (t : ι) (p : Pc) (m : ℕ) (r : Role) :
    (s.set t p m).count r = s.others t r + p.weight r := by
  have hu := total_update (fun p : Pc => p.weight r) s.pc t p
  have ho := others_add_weight s t r
  unfold State.count at ho
  show total _ (Function.update s.pc t p) = _
  omega

omit [DecidableEq ι] in
theorem Inv.good_others {s : State ι} (hs : Inv s) (t : ι) :
    Good s.m (fun r => s.others t r + (s.pc t).weight r) := by
  simpa only [others_add_weight] using hs.good

/-- The frame of every step: thread `t` moves to `p` and the word to `m`, and the
others keep their counts. -/
theorem inv_set {s : State ι} {t : ι} {p : Pc} {m : ℕ} (hs : Inv s) (hok : p.Ok)
    (h : Good s.m (fun r => s.others t r + (s.pc t).weight r) →
      Good m (fun r => s.others t r + p.weight r)) : Inv (s.set t p m) where
  ok u := by
    by_cases hu : u = t
    · subst hu; simpa [State.set] using hok
    · simpa [State.set, hu] using hs.ok u
  good := by
    have hc : (s.set t p m).count = fun r => s.others t r + p.weight r :=
      funext (count_set s t p m)
    rw [show (s.set t p m).m = m from rfl, hc]
    exact h (hs.good_others t)

/-- The word of a good state, cut at `c_sig`: bit 30 over the counts. -/
theorem Good.digits {m : ℕ} {c : Role → ℕ} (h : Good m c) :
    m = m / cSig * cSig + ((c .waiter + c .writer) * cOne + c .reader) := by
  rw [← h.1]
  exact (Nat.div_add_mod' m cSig).symm

/-- `Good` from a word cut at `c_sig`: `g` at bit 30 and the counts below it. -/
theorem good_of_digits {m g : ℕ} {c : Role → ℕ}
    (hm : m = g * cSig + ((c .waiter + c .writer) * cOne + c .reader))
    (hlow : (c .waiter + c .writer) * cOne + c .reader < cSig)
    (hw : c .writer + g + c .signaler ≤ 1)
    (hr : c .reader + (c .writer + g + c .signaler) * (cOne - 1) ≤ cOne - 1)
    (hs : g + c .signaler ≤ c .waiter)
    (hz : c .waiter = 0 ∨ 0 < c .reader + c .writer + g + c .signaler) : Good m c := by
  have hdiv : m / cSig = g := by
    rw [hm, Nat.add_comm, Nat.add_mul_div_right _ _ (by decide), Nat.div_eq_of_lt hlow, Nat.zero_add]
  have hlt : m < cErr := by
    have hg : g ≤ 1 := by omega
    rw [hm]
    unfold cSig cErr at *
    omega
  refine ⟨by rw [hm, Nat.mul_add_mod_of_lt hlow], hlt, ?_, ?_, ?_, ?_⟩ <;> rw [hdiv] <;> assumption

/-- `Good` as the digits of the word: `g` at bit 30 over the counts, and the bounds. -/
theorem good_iff_digits {m : ℕ} {c : Role → ℕ} :
    Good m c ↔ ∃ g, m = g * cSig + ((c .waiter + c .writer) * cOne + c .reader) ∧
      (c .waiter + c .writer) * cOne + c .reader < cSig ∧
      c .writer + g + c .signaler ≤ 1 ∧
      c .reader + (c .writer + g + c .signaler) * (cOne - 1) ≤ cOne - 1 ∧
      g + c .signaler ≤ c .waiter ∧
      (c .waiter = 0 ∨ 0 < c .reader + c .writer + g + c .signaler) := by
  constructor
  · intro h
    exact ⟨m / cSig, h.digits, h.1 ▸ Nat.mod_lt _ (by decide), h.2.2⟩
  · rintro ⟨g, hm, hlow, hw, hr, hs, hz⟩
    exact good_of_digits hm hlow hw hr hs hz

theorem sigSet_iff {v : ℕ} (h : v < cErr) : sigSet v = true ↔ cSig ≤ v := by
  unfold sigSet cSig
  unfold cErr at h
  rw [show (1073741824 : ℕ) = 2 ^ 30 by norm_num, Nat.and_two_pow, Nat.testBit_eq_decide_div_mod_eq]
  simp
  omega

/-! ### One lemma for each kind of step

Each takes the role of `t` before and after. The word is taken apart at `c_sig` by
`good_iff_digits` and put together again with the new digits, so that `omega` sees only
linear facts about the counts. -/

section Steps

variable {s : State ι} {t : ι} {p : Pc}

omit [DecidableEq ι] in
theorem Inv.lt_err (hs : Inv s) : s.m < cErr := hs.good.2.1

/-- A load, a failed CAS or a loop iteration: the word and the role stay. -/
theorem inv_same (hs : Inv s) (hok : p.Ok) (hr : p.role = (s.pc t).role) :
    Inv (s.set t p s.m) :=
  inv_set hs hok fun hg => by simpa only [Pc.weight, hr] using hg

omit [DecidableEq ι] in
theorem Inv.ok_at {q : Pc} (hs : Inv s) (hpc : s.pc t = q) : q.Ok := hpc ▸ hs.ok t

omit [DecidableEq ι] in
/-- A thread in the writer count has its `c_one` in the word. -/
theorem Inv.cOne_le (hs : Inv s) (hq : (s.pc t).role = .writer) : cOne ≤ s.m := by
  have hle := Nat.mod_le s.m cSig
  rw [(hs.good_others t).1] at hle
  simp [Pc.weight, hq, cOne] at hle ⊢
  omega

omit [DecidableEq ι] in
/-- A reader has its one in the word. -/
theorem Inv.one_le (hs : Inv s) (hq : (s.pc t).role = .reader) : 1 ≤ s.m := by
  have hle := Nat.mod_le s.m cSig
  rw [(hs.good_others t).1] at hle
  simp [Pc.weight, hq] at hle
  omega

/-- `try_lock`, `lock`'s CAS or a `fetch_add` on the free word. -/
theorem inv_take_free (hs : Inv s) (hq : (s.pc t).role = .none) (hok : p.Ok)
    (hp : p.role = .writer) (hm : s.m = 0) : Inv (s.set t p cOne) :=
  inv_set hs hok fun hg => by
    simp [Good, Pc.weight, hq, hp, hm, cOne, cSig, cErr] at hg ⊢
    omega

/-- The conditional increment of `try_lock_shared` and `lock_shared`. -/
theorem inv_read (hs : Inv s) (hq : (s.pc t).role = .none) (hok : p.Ok)
    (hp : p.role = .reader) (hv : s.m < cOne - 1) : Inv (s.set t p (wrap (s.m + 1))) :=
  inv_set hs hok fun hg => by
    obtain ⟨g, hm, hlow, hg⟩ := good_iff_digits.mp hg
    refine good_iff_digits.mpr ⟨g, ?_⟩
    simp [Pc.weight, hq, hp, wrap, cOne, cSig] at hm hlow hg hv ⊢
    omega

/-- A reader steals `c_sig`. -/
theorem inv_steal_read (hs : Inv s) (hq : (s.pc t).role = .none) (hok : p.Ok)
    (hp : p.role = .reader) (hsig : sigSet s.m = true) :
    Inv (s.set t p (wrap (s.m - cSig + 1))) :=
  have hle := (sigSet_iff hs.lt_err).mp hsig
  inv_set hs hok fun hg => by
    obtain ⟨g, hm, hlow, hg⟩ := good_iff_digits.mp hg
    refine good_iff_digits.mpr ⟨0, ?_⟩
    simp [Pc.weight, hq, hp, wrap, cOne, cSig] at hm hlow hg hle ⊢
    omega

/-- `lock_downgrade`: the writer becomes a reader. -/
theorem inv_downgrade (hs : Inv s) (hq : (s.pc t).role = .writer) (hok : p.Ok)
    (hp : p.role = .reader) : Inv (s.set t p (wrapSub s.m (cOne - 1))) := by
  rw [wrapSub_of_le ((Nat.sub_le _ _).trans (hs.cOne_le hq)) hs.lt_err]
  refine inv_set hs hok fun hg => ?_
  obtain ⟨g, hm, hlow, hg⟩ := good_iff_digits.mp hg
  refine good_iff_digits.mpr ⟨g, ?_⟩
  simp [Pc.weight, hq, hp, cOne, cSig] at hm hlow hg ⊢
  omega

/-- `imp_wait` takes `c_sig`; the thread leaves with the writer lock. -/
theorem inv_wake (hs : Inv s) (hq : (s.pc t).role = .waiter) (hok : p.Ok)
    (hp : p.role = .writer) (hsig : cSig ≤ s.m) : Inv (s.set t p (s.m - cSig)) :=
  inv_set hs hok fun hg => by
    obtain ⟨g, hm, hlow, hg⟩ := good_iff_digits.mp hg
    refine good_iff_digits.mpr ⟨0, ?_⟩
    simp [Pc.weight, hq, hp, cOne, cSig] at hm hlow hg hsig ⊢
    omega

theorem writer_of_held {q : Pc} (h : q = .writer ∨ q = .lockUnlockHeld) : q.role = .writer := by
  rcases h with rfl | rfl <;> rfl

/-- `unlock` by the only thread in the writer count frees the word. -/
theorem inv_unlock_free (hs : Inv s) (hq : (s.pc t).role = .writer) (hm : s.m = cOne) :
    Inv (s.set t .idle (wrapSub s.m cOne)) := by
  rw [wrapSub_of_le (hs.cOne_le hq) hs.lt_err]
  refine inv_set hs trivial fun hg => ?_
  simp [Good, Pc.weight, hq, hm, cOne, cSig, cErr] at hg ⊢
  omega

/-- `unlock` with others in the writer count owes them the signal. -/
theorem inv_unlock_signal (hs : Inv s) (hq : (s.pc t).role = .writer) (hm : s.m ≠ cOne) :
    Inv (s.set t .signaling (wrapSub s.m cOne)) := by
  rw [wrapSub_of_le (hs.cOne_le hq) hs.lt_err]
  refine inv_set hs trivial fun hg => ?_
  obtain ⟨g, hd, hlow, hg⟩ := good_iff_digits.mp hg
  refine good_iff_digits.mpr ⟨g, ?_⟩
  simp [Pc.weight, hq, cOne, cSig] at hd hlow hg hm ⊢
  omega

omit [DecidableEq ι] in
/-- The `ensure` of `imp_unlock` holds. -/
theorem unlock_no_underflow (hs : Inv s) (hq : (s.pc t).role = .writer) :
    wrapSub s.m cOne < cErr := by
  rw [wrapSub_of_le (hs.cOne_le hq) hs.lt_err]
  exact lt_of_le_of_lt (Nat.sub_le _ _) hs.lt_err

/-- `unlock_shared` without the signal. -/
theorem inv_unlock_shared_idle (hs : Inv s) (hq : (s.pc t).role = .reader)
    (hc : ¬(cOne ≤ s.m ∧ wrapSub s.m 1 % cOne = 0)) : Inv (s.set t .idle (wrapSub s.m 1)) := by
  rw [wrapSub_of_le (hs.one_le hq) hs.lt_err] at hc ⊢
  refine inv_set hs trivial fun hg => ?_
  obtain ⟨g, hm, hlow, hg⟩ := good_iff_digits.mp hg
  refine good_iff_digits.mpr ⟨g, ?_⟩
  simp [Pc.weight, hq, cOne, cSig] at hm hlow hg hc ⊢
  omega

/-- `unlock_shared` by the last reader with the writer count not empty. -/
theorem inv_unlock_shared_signal (hs : Inv s) (hq : (s.pc t).role = .reader) (hc : cOne ≤ s.m)
    (h0 : wrapSub s.m 1 % cOne = 0) : Inv (s.set t .signaling (wrapSub s.m 1)) := by
  rw [wrapSub_of_le (hs.one_le hq) hs.lt_err] at h0 ⊢
  refine inv_set hs trivial fun hg => ?_
  obtain ⟨g, hm, hlow, hg⟩ := good_iff_digits.mp hg
  refine good_iff_digits.mpr ⟨g, ?_⟩
  simp [Pc.weight, hq, cOne, cSig] at hm hlow hg hc h0 ⊢
  omega

omit [DecidableEq ι] in
/-- The `ensure` of `imp_unlock_shared` holds. -/
theorem unlock_shared_no_underflow (hs : Inv s) (hq : (s.pc t).role = .reader) :
    wrapSub s.m 1 < cErr := by
  rw [wrapSub_of_le (hs.one_le hq) hs.lt_err]
  exact lt_of_le_of_lt (Nat.sub_le _ _) hs.lt_err

/-- `imp_signal` sets `c_sig`. -/
theorem inv_signal (hs : Inv s) (hq : (s.pc t).role = .signaler) :
    Inv (s.set t .idle (wrap (s.m + cSig))) :=
  inv_set hs trivial fun hg => by
    obtain ⟨g, hm, hlow, hg⟩ := good_iff_digits.mp hg
    refine good_iff_digits.mpr ⟨g + 1, ?_⟩
    simp [Pc.weight, hq, wrap, cOne, cSig] at hm hlow hg ⊢
    omega

section Threads

variable (hn : Fintype.card ι < 65536)
include hn

/-- With fewer than 65536 threads the `fetch_add(c_one)` of a thread outside the
writer count does not reach `c_sig`. -/
theorem no_overflow (hs : Inv s) (hq : (s.pc t).role = .none) : s.m % cSig + cOne < cSig := by
  have hg := hs.good_others t
  have hr := others_room s t
  obtain ⟨g, -, -, -, hR, -⟩ := good_iff_digits.mp hg
  rw [hg.1]
  simp [Pc.weight, hq, cOne, cSig] at hR ⊢
  omega

/-- A thread joins the writer count to wait. -/
theorem inv_queue (hs : Inv s) (hq : (s.pc t).role = .none) (hok : p.Ok)
    (hp : p.role = .waiter) (hm : s.m ≠ 0) : Inv (s.set t p (wrap (s.m + cOne))) :=
  have hroom := others_room s t
  inv_set hs hok fun hg => by
    obtain ⟨g, hm, hlow, hg⟩ := good_iff_digits.mp hg
    refine good_iff_digits.mpr ⟨g, ?_⟩
    simp [Pc.weight, hq, hp, wrap, cOne, cSig] at hm hlow hg ⊢
    omega

/-- A writer steals `c_sig`: it joins the writer count. -/
theorem inv_steal_write (hs : Inv s) (hq : (s.pc t).role = .none) (hok : p.Ok)
    (hp : p.role = .writer) (hsig : sigSet s.m = true) :
    Inv (s.set t p (wrap (s.m - cSig + cOne))) :=
  have hle := (sigSet_iff hs.lt_err).mp hsig
  have hroom := others_room s t
  inv_set hs hok fun hg => by
    obtain ⟨g, hm, hlow, hg⟩ := good_iff_digits.mp hg
    refine good_iff_digits.mpr ⟨0, ?_⟩
    simp [Pc.weight, hq, hp, wrap, cOne, cSig] at hm hlow hg hle ⊢
    omega

/-- The CAS of `try_lock_upgrade`: the only reader becomes the writer, past any waiters. -/
theorem inv_upgrade (hs : Inv s) (hq : (s.pc t).role = .reader) (hok : p.Ok)
    (hp : p.role = .writer) (hv : wrap (s.m + cOne - 1) % cOne = 0) :
    Inv (s.set t p (wrap (s.m + cOne - 1))) :=
  have hroom := others_room s t
  inv_set hs hok fun hg => by
    obtain ⟨g, hm, hlow, hg⟩ := good_iff_digits.mp hg
    refine good_iff_digits.mpr ⟨g, ?_⟩
    simp [Pc.weight, hq, hp, wrap, cOne, cSig] at hm hlow hg hv ⊢
    omega

/-- The `ensure` of `imp_lock_upgrade` holds. -/
theorem upgrade_no_overflow (hs : Inv s) (hq : (s.pc t).role = .reader) :
    s.m % cSig + cOne - 1 < cSig := by
  have hg := hs.good_others t
  have hr := others_room s t
  obtain ⟨g, -, -, -, hR, -⟩ := good_iff_digits.mp hg
  rw [hg.1]
  simp [Pc.weight, hq, cOne, cSig] at hR ⊢
  omega

/-- The `fetch_add(c_one - 1)` of `imp_lock_upgrade`: the reader joins the writer
count, and holds the lock if it was the only reader. -/
theorem inv_upgrade_add (hs : Inv s) (hq : (s.pc t).role = .reader) :
    Inv (s.set t (if s.m % cOne = 1 then .writer else .waiting .writer) (wrap (s.m + (cOne - 1)))) := by
  have hroom := others_room s t
  by_cases h1 : s.m % cOne = 1
  · rw [if_pos h1]
    refine inv_set hs trivial fun hg => ?_
    obtain ⟨g, hm, hlow, hg⟩ := good_iff_digits.mp hg
    refine good_iff_digits.mpr ⟨g, ?_⟩
    simp [Pc.weight, hq, wrap, cOne, cSig] at hm hlow hg h1 ⊢
    omega
  · rw [if_neg h1]
    refine inv_set hs trivial fun hg => ?_
    obtain ⟨g, hm, hlow, hg⟩ := good_iff_digits.mp hg
    refine good_iff_digits.mpr ⟨g, ?_⟩
    simp [Pc.weight, hq, wrap, cOne, cSig] at hm hlow hg h1 ⊢
    omega

/-- Every step keeps the invariant: one lemma above for each kind of step, and the
failed `ensure`s ruled out. -/
theorem inv_step : Preserved Step (Inv : State ι → Prop) := by
  intro s t u hs h
  cases h with
  -- `try_lock_shared` and `lock_shared`
  | tryLockSharedLoad hpc => exact inv_same hs trivial (congrArg Pc.role hpc).symm
  | tryLockSharedCas hpc hv hm =>
    subst hm; exact inv_read hs (congrArg Pc.role hpc) trivial rfl hv
  | tryLockSharedFail hpc _ => exact inv_same hs trivial (congrArg Pc.role hpc).symm
  | lockSharedLoad hpc => exact inv_same hs hs.lt_err (congrArg Pc.role hpc).symm
  | lockSharedCas hpc hv hm => subst hm; exact inv_read hs (congrArg Pc.role hpc) trivial rfl hv
  | lockSharedSlow hpc _ =>
    exact inv_same hs (by have hok := hs.ok_at hpc; exact hok) (congrArg Pc.role hpc).symm
  -- `imp_lock_shared`
  | sharedStealAbort hpc hv => exact absurd (hs.ok_at hpc) (not_lt.mpr hv)
  | sharedStealCas hpc _ hsig hm =>
    subst hm; exact inv_steal_read hs (congrArg Pc.role hpc) trivial rfl hsig
  | sharedStealSkip hpc _ _ => exact inv_same hs trivial (congrArg Pc.role hpc).symm
  | sharedSpinLoad hpc => exact inv_same hs trivial (congrArg Pc.role hpc).symm
  | sharedSpinCas hpc hv hm => subst hm; exact inv_read hs (congrArg Pc.role hpc) trivial rfl hv
  | sharedSpinFail hpc _ => exact inv_same hs trivial (congrArg Pc.role hpc).symm
  | sharedSigLoad hpc => exact inv_same hs trivial (congrArg Pc.role hpc).symm
  | sharedSigCas hpc hsig hm =>
    subst hm; exact inv_steal_read hs (congrArg Pc.role hpc) trivial rfl hsig
  | sharedSigNext hpc _ =>
    exact inv_same hs (by split <;> trivial) (by rw [hpc]; split <;> rfl)
  | sharedFetchAddFree hpc hm =>
    rw [hm]; exact inv_take_free hs (congrArg Pc.role hpc) trivial rfl hm
  | sharedFetchAddWait hpc hm _ => exact inv_queue hn hs (congrArg Pc.role hpc) trivial rfl hm
  | sharedFetchAddAbort hpc _ hov => exact absurd (no_overflow hn hs (congrArg Pc.role hpc)) hov
  -- `lock_downgrade` and `imp_wait`
  | lockDowngrade hpc => exact inv_downgrade hs (congrArg Pc.role hpc) trivial rfl
  | sharedDowngrade hpc => exact inv_downgrade hs (congrArg Pc.role hpc) trivial rfl
  | waitWake hpc hsig =>
    exact inv_wake hs (congrArg Pc.role hpc) (Goal.next_ok _) (Goal.next_role _) hsig
  -- `try_lock`, `lock` and `imp_lock`
  | tryLock hpc hm => exact inv_take_free hs (congrArg Pc.role hpc) trivial rfl hm
  | tryLockFail hpc _ => exact inv_same hs trivial (congrArg Pc.role hpc).symm
  | lockCas hpc hm => exact inv_take_free hs (congrArg Pc.role hpc) trivial rfl hm
  | lockSlow hpc _ => exact inv_same hs hs.lt_err (congrArg Pc.role hpc).symm
  | lockStealAbort hpc hv => exact absurd (hs.ok_at hpc) (not_lt.mpr hv)
  | lockStealCas hpc _ hsig hm =>
    subst hm; exact inv_steal_write hn hs (congrArg Pc.role hpc) trivial rfl hsig
  | lockStealSkip hpc _ _ => exact inv_same hs trivial (congrArg Pc.role hpc).symm
  | lockSpinLoad hpc => exact inv_same hs trivial (congrArg Pc.role hpc).symm
  | lockSpinTryLock hpc _ hm => exact inv_take_free hs (congrArg Pc.role hpc) trivial rfl hm
  | lockSpinSteal hpc hsig hm =>
    subst hm; exact inv_steal_write hn hs (congrArg Pc.role hpc) trivial rfl hsig
  | lockSpinNext hpc _ _ =>
    exact inv_same hs (by split <;> trivial) (by rw [hpc]; split <;> rfl)
  | lockFetchAddFree hpc hm =>
    rw [hm]; exact inv_take_free hs (congrArg Pc.role hpc) trivial rfl hm
  | lockFetchAddWait hpc hm _ => exact inv_queue hn hs (congrArg Pc.role hpc) trivial rfl hm
  | lockFetchAddAbort hpc _ hov => exact absurd (no_overflow hn hs (congrArg Pc.role hpc)) hov
  -- `unlock` and `unlock_shared`, by the role of the thread
  | unlockFree hpc hm => exact inv_unlock_free hs (writer_of_held hpc) hm
  | unlockSignal hpc hm _ => exact inv_unlock_signal hs (writer_of_held hpc) hm
  | unlockAbort hpc _ hov => exact absurd (unlock_no_underflow hs (writer_of_held hpc)) (not_lt.mpr hov)
  | unlockSharedFast hpc hm =>
    exact inv_unlock_shared_idle hs (congrArg Pc.role hpc) fun h => absurd h.1 (not_le.mpr hm)
  | unlockSharedSlow hpc hm _ =>
    split
    · exact inv_unlock_shared_signal hs (congrArg Pc.role hpc) hm ‹_›
    · exact inv_unlock_shared_idle hs (congrArg Pc.role hpc) fun h => ‹¬_› h.2
  | unlockSharedAbort hpc _ hov =>
    exact absurd (unlock_shared_no_underflow hs (congrArg Pc.role hpc)) (not_lt.mpr hov)
  | signal hpc => exact inv_signal hs (congrArg Pc.role hpc)
  -- `lock_upgrade` and `try_lock_upgrade`
  | lockUpgrade hpc => exact inv_same hs trivial (congrArg Pc.role hpc).symm
  | upgradeLoad hpc => exact inv_same hs trivial (congrArg Pc.role hpc).symm
  | upgradeCas hpc hv hm => subst hm; exact inv_upgrade hn hs (congrArg Pc.role hpc) trivial rfl hv
  | upgradeNext hpc _ => exact inv_same hs (by split <;> trivial) (by rw [hpc]; split <;> rfl)
  | upgradeFetchAdd hpc _ => exact inv_upgrade_add hn hs (congrArg Pc.role hpc)
  | upgradeFetchAddAbort hpc hov =>
    exact absurd (upgrade_no_overflow hn hs (congrArg Pc.role hpc)) hov
  | tryLockUpgradeLoad hpc => exact inv_same hs trivial (congrArg Pc.role hpc).symm
  | tryUpgradeCas hpc hv hm =>
    subst hm; exact inv_upgrade hn hs (congrArg Pc.role hpc) trivial rfl hv
  | tryUpgradeFail hpc _ => exact inv_same hs trivial (congrArg Pc.role hpc).symm
  -- `lock_unlock` and `imp_lock_unlock`
  | lockUnlockFree hpc _ => exact inv_same hs trivial (congrArg Pc.role hpc).symm
  | lockUnlockCall hpc _ => exact inv_same hs trivial (congrArg Pc.role hpc).symm
  | lockUnlockSpinDone hpc _ _ => exact inv_same hs trivial (congrArg Pc.role hpc).symm
  | lockUnlockSpinNext hpc _ =>
    exact inv_same hs (by split <;> trivial) (by rw [hpc]; split <;> rfl)
  | lockUnlockFetchAddFree hpc hm =>
    rw [hm]; exact inv_take_free hs (congrArg Pc.role hpc) trivial rfl hm
  | lockUnlockFetchAddWait hpc hm => exact inv_queue hn hs (congrArg Pc.role hpc) trivial rfl hm

end Threads

end Steps

/-! ### The contract -/

/-- What the lock promises of a state: exclusion of the writer, the reader and writer counts in
the word, no lost wake-up, and no failed `ensure`. -/
structure Contract (s : State ι) : Prop where
  /-- The writer holds the lock alone. -/
  exclusive : ∀ t u, t ≠ u → (s.pc t).role = .writer →
    (s.pc u).role ≠ .writer ∧ (s.pc u).role ≠ .reader
  /-- The low bits count the readers. -/
  readers : s.m % cOne = s.count .reader
  /-- Bits 14 to 29 count the writer and the waiters. -/
  writers : s.m % cSig / cOne = s.count .writer + s.count .waiter
  lt_err : s.m < cErr
  /-- No lost wake-up: with the lock free, a waiter finds `c_sig` or a thread that owes it. -/
  wakeup : (∀ u, (s.pc u).role ≠ .reader ∧ (s.pc u).role ≠ .writer) →
    (∃ t g, s.pc t = .waiting g) → cSig ≤ s.m ∨ ∃ t, s.pc t = .signaling
  no_abort : ∀ t, s.pc t ≠ .aborted

theorem Pc.weight_eq_zero {p : Pc} {r : Role} : p.weight r = 0 ↔ p.role ≠ r := by
  simp [Pc.weight]

omit [DecidableEq ι] in
theorem Inv.exclusive {s : State ι} (hs : Inv s) {t u : ι} (htu : t ≠ u)
    (ht : (s.pc t).role = .writer) : (s.pc u).role ≠ .writer ∧ (s.pc u).role ≠ .reader := by
  classical
  have hw : (s.pc t).weight .writer + (s.pc u).weight .writer ≤ s.count .writer :=
    add_le_total (fun p : Pc => p.weight .writer) s.pc htu
  have hr : (s.pc u).weight .reader ≤ s.count .reader :=
    le_total (fun p : Pc => p.weight .reader) s.pc u
  have h1 : (s.pc t).weight .writer = 1 := by simp [Pc.weight, ht]
  have hg := hs.good
  rw [← Pc.weight_eq_zero, ← Pc.weight_eq_zero]
  unfold Good cOne cSig cErr at hg
  omega

omit [DecidableEq ι] in
theorem Inv.wakeup {s : State ι} (hs : Inv s)
    (hfree : ∀ u, (s.pc u).role ≠ .reader ∧ (s.pc u).role ≠ .writer)
    (hwait : ∃ t g, s.pc t = .waiting g) : cSig ≤ s.m ∨ ∃ t, s.pc t = .signaling := by
  obtain ⟨t, g, ht⟩ := hwait
  have hR : s.count .reader = 0 := total_eq_zero_iff.mpr fun u => Pc.weight_eq_zero.mpr (hfree u).1
  have hH : s.count .writer = 0 := total_eq_zero_iff.mpr fun u => Pc.weight_eq_zero.mpr (hfree u).2
  have hW : (s.pc t).weight .waiter ≤ s.count .waiter :=
    le_total (fun p : Pc => p.weight .waiter) s.pc t
  have h1 : (s.pc t).weight .waiter = 1 := by simp [Pc.weight, ht]
  have hg := hs.good
  by_cases hsig : cSig ≤ s.m
  · exact .inl hsig
  · -- no `c_sig`, so a thread owes it
    have hP : 0 < s.count .signaler := by
      simp only [Good, cOne, cSig, cErr] at hg hsig
      omega
    obtain ⟨u, hu⟩ := exists_of_total_pos hP
    have hrole : (s.pc u).role = .signaler := by
      by_contra hne
      exact absurd (Pc.weight_eq_zero.mpr hne) (Nat.pos_iff_ne_zero.mp hu)
    exact .inr ⟨u, Pc.eq_signaling_of_role hrole⟩

omit [DecidableEq ι] in
theorem Inv.contract {s : State ι} (hs : Inv s) : Contract s where
  exclusive _ _ htu ht := hs.exclusive htu ht
  readers := by
    have hg := hs.good
    simp only [Good, cOne, cSig, cErr] at hg ⊢
    omega
  writers := by
    have hg := hs.good
    simp only [Good, cOne, cSig, cErr] at hg ⊢
    omega
  lt_err := hs.lt_err
  wakeup := hs.wakeup
  no_abort t h := hs.ok_at h

theorem shared_mutex_contract {ι : Type} [Fintype ι] [DecidableEq ι]
    (hn : Fintype.card ι < 65536) {s : State ι} (hs : Reachable (· = State.init) Step s) :
    Contract s :=
  (hs.invariant (fun _ h => h ▸ inv_init) (inv_step hn)).contract

/-! ### 65536 threads

Thread 0 takes the writer lock, then threads 1 to 65535 each call `lock_unlock`: every
load of its loop sees the writer count grown, and its `fetch_add(c_one)` queues it.
The last one carries the count into `c_sig`, which thread 1's `imp_wait` takes while
thread 0 still holds the lock. -/

omit [Fintype ι] in
/-- `imp_lock_unlock`'s loop runs to its end while the writer count stays at least the
last one it saw and `c_sig` stays clear. -/
theorem run_lock_unlock_spin (n : ℕ) : ∀ {s : State ι} {t : ι} {i mx : ℕ}, i + n = 29 →
    s.m < cSig → mx ≤ s.m / cOne → s.pc t = .lockUnlockSpin i mx →
    ∃ as, Run Step s as (s.set t .lockUnlockFetchAdd s.m) := by
  induction n with
  | zero =>
    intro s t i mx hi hsig hmx hpc
    have h := Step.lockUnlockSpinNext hpc (by unfold cOne cSig at *; omega)
    rw [if_neg (by omega)] at h
    exact ⟨[t], .single h⟩
  | succ n ih =>
    intro s t i mx hi hsig hmx hpc
    have h := Step.lockUnlockSpinNext hpc (by unfold cOne cSig at *; omega)
    rw [if_pos (by omega)] at h
    obtain ⟨as, has⟩ := ih (s := s.set t (.lockUnlockSpin (i + 1) (s.m / cOne)) s.m) (t := t)
      (by omega) hsig le_rfl (State.set_pc_self ..)
    rw [State.set_set] at has
    exact ⟨t :: as, .cons h has⟩

omit [Fintype ι] in
/-- `lock_unlock` on a word of writers without `c_sig` queues the thread. -/
theorem run_lock_unlock_wait {s : State ι} {t : ι} (hpc : s.pc t = .idle) (hk : cOne ≤ s.m)
    (hsig : s.m < cSig) :
    ∃ as, Run Step s as (s.set t (.waiting .lockUnlock) (wrap (s.m + cOne))) := by
  have h1 : Step s t (s.set t (.lockUnlockSpin 0 1) s.m) :=
    .lockUnlockCall hpc (by unfold cOne at hk; omega)
  obtain ⟨as, has⟩ := run_lock_unlock_spin 29 (s := s.set t (.lockUnlockSpin 0 1) s.m) (t := t) rfl hsig
    (by unfold cOne at *; simp only [State.set_m]; omega) (State.set_pc_self ..)
  have h3 := Step.lockUnlockFetchAddWait (s := s.set t .lockUnlockFetchAdd s.m) (t := t)
    (State.set_pc_self ..) (by unfold cOne at hk; simp only [State.set_m]; omega)
  simp only [State.set_set, State.set_m] at has h3
  exact ⟨t :: (as ++ [t]), .cons h1 (has.append (.single h3))⟩

/-- Thread 0 holds the writer lock and threads 1 to `k - 1` wait in `lock_unlock`. -/
def queuedAt (k : ℕ) : State (Fin 65536) :=
  ⟨k * cOne, fun u => if u.val = 0 then .writer else if u.val < k then .waiting .lockUnlock
    else .idle⟩

theorem init_lock : (State.init : State (Fin 65536)).set 0 .writer cOne = queuedAt 1 := by
  unfold queuedAt State.set State.init
  refine congrArg₂ State.mk (by simp) (funext fun u => ?_)
  by_cases hu : u = 0
  · subst hu; simp
  · simp [hu]

theorem queuedAt_succ {k : ℕ} (h1 : 1 ≤ k) (hk : k < 65536) :
    ∃ as, Run Step (queuedAt k) as (queuedAt (k + 1)) := by
  obtain ⟨as, has⟩ := run_lock_unlock_wait (s := queuedAt k) (t := ⟨k, hk⟩)
    (by simp [queuedAt]; omega) (by simp [queuedAt, cOne]; omega)
    (by simp [queuedAt, cOne, cSig]; omega)
  have heq : (queuedAt k).set ⟨k, hk⟩ (.waiting .lockUnlock) (wrap ((queuedAt k).m + cOne)) =
      queuedAt (k + 1) := by
    unfold queuedAt State.set
    refine congrArg₂ State.mk (by simp only [wrap, cOne]; omega) (funext fun u => ?_)
    by_cases hu : u = ⟨k, hk⟩
    · subst hu
      have hk0 : k ≠ 0 := by omega
      simp [hk0]
    · have hv : u.val < k ↔ u.val < k + 1 := by
        have : u.val ≠ k := fun h => hu (Fin.ext h)
        omega
      simp only [Function.update_of_ne hu, hv]
  rw [heq] at has
  exact ⟨as, has⟩

theorem run_queuedAt (k : ℕ) (h1 : 1 ≤ k) (hk : k ≤ 65536) :
    ∃ as, Run Step (queuedAt 1) as (queuedAt k) := by
  induction k, h1 using Nat.le_induction with
  | base => exact ⟨[], .refl _⟩
  | succ k h1 ih =>
    obtain ⟨as, has⟩ := ih (by omega)
    obtain ⟨bs, hbs⟩ := queuedAt_succ h1 (by omega)
    exact ⟨as ++ bs, has.append hbs⟩

theorem shared_mutex_two_writers :
    ∃ s : State (Fin 65536), Reachable (· = State.init) Step s ∧
      s.pc 0 = .writer ∧ s.pc 1 = .lockUnlockHeld := by
  have h0 : Step (State.init : State (Fin 65536)) 0 (queuedAt 1) :=
    init_lock ▸ Step.lockCas rfl rfl
  obtain ⟨as, has⟩ := run_queuedAt 65536 (by norm_num) le_rfl
  have hwake := Step.waitWake (s := queuedAt 65536) (t := 1) (g := .lockUnlock)
    (by simp [queuedAt]) (by simp [queuedAt, cOne, cSig])
  refine ⟨_, ⟨State.init, 0 :: (as ++ [1]), rfl, .cons h0 (has.append (.single hwake))⟩, ?_, ?_⟩
  · simp [State.set, queuedAt]
  · simp [State.set, Goal.next]

end Rpcs3.Util.SharedMutex
