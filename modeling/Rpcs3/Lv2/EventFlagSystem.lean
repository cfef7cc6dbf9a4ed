import Rpcs3.Lv2.EventFlag
import Rpcs3.Lib.Transition

/-! The threads around one `lv2_event_flag`: `sys_event_flag_wait` (fast
path, sleep, timeout and wake-up), `sys_event_flag_trywait`,
`sys_event_flag_set`, `sys_event_flag_clear`, `sys_event_flag_cancel` and
`sys_event_flag_get`, as an interleaving of atomic steps.

Each `fetch_op` and each plain load or store of `pattern` is a step, and so
is each section under the flag's `mutex`, except the one of
`sys_event_flag_set`, which holds the mutex across its attempts: the thread
takes the mutex together with its first snapshot (`setLock`), and each
attempt, its writes to the waiters' registers and the `fetch_op` that
commits or refuses it, is one step (`setRetry`, `setCommit`). Only the holder
of the mutex touches the waiters' registers and `sq`, so nothing can see an
attempt half done. `holder` is the thread of `sys_event_flag_set` that holds
the mutex; the other sections hold it only within their step.

The invariant: while the mutex is free, no sleeper accepts the pattern and
none is marked `CELL_OK`; while a set holds it, the pattern has no bit its
snapshot lacks and no sleeper accepts the snapshot. The marks are the part
the code gets wrong: an attempt writes `gpr[3]` only for the waiters it
decides, so a waiter that a refused attempt accepted keeps `CELL_OK` when
the committed attempt stops before reaching it, and the removal loop then
wakes it (`set_wakes_undecided_waiter`). -/
namespace Rpcs3.Lv2.EventFlagSystem

open Rpcs3.Lv2.Sync Rpcs3.Lv2.EventFlag Bits

/-- The attributes of the flag that the calls read. -/
structure Setup where
  protocol : Lv2Protocol
  type : Int

/-- Where a thread is inside a call. -/
inductive Pc where
  | idle
  /-- `sys_event_flag_wait`: asleep in `sq` waiting for `w`; `ok` is
  `gpr[3] == CELL_OK` and `seen` is `gpr[6]`, which the attempts of
  `sys_event_flag_set` write. -/
  | asleep (w : Waiter) (timeout : Bool) (ok : Bool) (seen : UInt64)
  /-- Taken out of `sq` by a set (`CELL_OK`) or a cancel (`CELL_ECANCELED`):
  the wait returns `ret` and stores `seen`. -/
  | woken (ret : CellError) (seen : UInt64)
  /-- `sys_event_flag_set(bitptn)` found a bit of `bitptn` missing and waits
  for the mutex. -/
  | setLocking (bitptn : UInt64)
  /-- `sys_event_flag_set(bitptn)` holds the mutex; its next attempt is on
  the snapshot `pattern`. -/
  | setting (bitptn pattern : UInt64)
  deriving DecidableEq

/-- Whether the thread sleeps in `sq`. -/
def Pc.sleeping : Pc → Bool
  | .idle => false
  | .asleep .. => true
  | .woken .. => false
  | .setLocking .. => false
  | .setting .. => false

/-- Whether the thread is the set that holds the mutex. -/
def Pc.holdsMutex : Pc → Bool
  | .idle => false
  | .asleep .. => false
  | .woken .. => false
  | .setLocking .. => false
  | .setting .. => true

/-- A sleeper's `gpr[4]` and `gpr[5]`. -/
def Pc.waiter : Pc → Waiter
  | .idle => ⟨0, 0⟩
  | .asleep w .. => w
  | .woken .. => ⟨0, 0⟩
  | .setLocking .. => ⟨0, 0⟩
  | .setting .. => ⟨0, 0⟩

/-- A sleeper's `gpr[3] == CELL_OK`. -/
def Pc.marked : Pc → Bool
  | .idle => false
  | .asleep _ _ ok _ => ok
  | .woken .. => false
  | .setLocking .. => false
  | .setting .. => false

/-- An attempt's write to a sleeper's `gpr[3]` and `gpr[6]`. -/
def Pc.write (ok : Bool) (seen : UInt64) : Pc → Pc
  | .idle => .idle
  | .asleep w timeout _ _ => .asleep w timeout ok seen
  | .woken r v => .woken r v
  | .setLocking b => .setLocking b
  | .setting b p => .setting b p

/-- The removal loop of `sys_event_flag_set` on one thread of `sq`: a
sleeper marked `CELL_OK` is woken with the value in its `gpr[6]`. -/
def Pc.wakeMarked : Pc → Pc
  | .idle => .idle
  | .asleep w timeout ok seen => if ok then .woken .ok seen else .asleep w timeout ok seen
  | .woken r v => .woken r v
  | .setLocking b => .setLocking b
  | .setting b p => .setting b p

attribute [simp] Pc.sleeping.eq_1 Pc.sleeping.eq_2 Pc.sleeping.eq_3 Pc.sleeping.eq_4
  Pc.sleeping.eq_5 Pc.holdsMutex.eq_1 Pc.holdsMutex.eq_2 Pc.holdsMutex.eq_3 Pc.holdsMutex.eq_4
  Pc.holdsMutex.eq_5 Pc.waiter.eq_2 Pc.marked.eq_1 Pc.marked.eq_2 Pc.marked.eq_3
  Pc.marked.eq_4 Pc.marked.eq_5 Pc.write.eq_2

@[simp] theorem Pc.sleeping_write (ok : Bool) (seen : UInt64) (p : Pc) :
    (p.write ok seen).sleeping = p.sleeping := by
  cases p <;> rfl

@[simp] theorem Pc.holdsMutex_write (ok : Bool) (seen : UInt64) (p : Pc) :
    (p.write ok seen).holdsMutex = p.holdsMutex := by
  cases p <;> rfl

@[simp] theorem Pc.waiter_write (ok : Bool) (seen : UInt64) (p : Pc) :
    (p.write ok seen).waiter = p.waiter := by
  cases p <;> rfl

/-- A write lands on a sleeper: its mark is the written one. -/
theorem Pc.marked_write {p : Pc} (hp : p.sleeping = true) (ok : Bool) (seen : UInt64) :
    (p.write ok seen).marked = ok := by
  cases p <;> first | rfl | cases hp

@[simp] theorem Pc.holdsMutex_wakeMarked (p : Pc) : p.wakeMarked.holdsMutex = p.holdsMutex := by
  cases p with
  | asleep w timeout ok seen => cases ok <;> rfl
  | _ => rfl

/-- The removal loop wakes exactly the marked sleepers. -/
theorem Pc.sleeping_wakeMarked (p : Pc) :
    p.wakeMarked.sleeping = (p.sleeping && !p.marked) := by
  cases p with
  | asleep w timeout ok seen => cases ok <;> rfl
  | _ => rfl

theorem Pc.wakeMarked_of_not_marked {p : Pc} (h : p.marked = false) : p.wakeMarked = p := by
  cases p with
  | asleep w timeout ok seen =>
    cases ok
    · rfl
    · cases h
  | _ => rfl

/-- The calls, to tag each step with the call it belongs to. -/
inductive Call where
  | wait
  | trywait (w : Waiter)
  | set (bitptn : UInt64)
  | clear (bitptn : UInt64)
  | cancel
  | get
  deriving DecidableEq

/-- A step: the thread that takes it, its call, and, if the call returns in
this step, its code and the value it stores (`*result`, `*num` or
`*flags`; 0 for none). -/
structure Label where
  thread : PpuId
  call : Call
  ret : Option (CellError × UInt64)

/-- The flag's `pattern` and `sq`, the scheduler's priority table, the set
that holds the mutex, and every thread's position. -/
structure State where
  pattern : UInt64
  sq : List PpuId
  prio : PrioTable
  holder : Option PpuId
  pc : PpuId → Pc

/-- A freshly created flag: any initial pattern, nobody asleep or inside a
call, and every priority an `s32`. -/
def State.Init (s : State) : Prop :=
  s.sq = [] ∧ s.holder = none ∧ (∀ t, s.pc t = .idle) ∧ ∀ u, (s.prio.prio u).prio ≤ 2 ^ 31 - 1

/-- The position of a thread after its step. -/
def State.move (s : State) (t : PpuId) (p : Pc) : State :=
  { s with pc := Function.update s.pc t p }

/-- What a thread of `sq` waits for. -/
def State.waiter (s : State) (u : PpuId) : Waiter := (s.pc u).waiter

/-- An attempt of `sys_event_flag_set(bitptn)` on the snapshot `pattern`
over the current sleepers. -/
def State.attempt (S : Setup) (s : State) (bitptn pattern : UInt64) : Attempt :=
  setAttempt S.protocol s.prio.prio s.sq s.waiter bitptn pattern

/-- The attempt's writes to the `gpr[3]` and `gpr[6]` of the waiters it
decided. -/
def State.record (s : State) (a : Attempt) : State :=
  { s with pc := fun u => match a.written u with
      | some (ok, seen) => (s.pc u).write ok seen
      | none => s.pc u }

/-- The removal loop: the threads of `sq` marked `CELL_OK` leave it and
wake up. -/
def State.removeMarked (s : State) : State :=
  { s with
    sq := s.sq.filter (fun u => !(s.pc u).marked)
    pc := fun u => if u ∈ s.sq then (s.pc u).wakeMarked else s.pc u }

/-- What `sys_event_flag_set` does once the attempt `a` committed `x`: the
writes of the attempt, the removal loop unless it accepted nobody, and the
mutex released. -/
def State.finishSet (s : State) (a : Attempt) (x : UInt64) : State :=
  let s := s.record a
  let s := if a.count = 0 then s else s.removeMarked
  { s with pattern := x, holder := none }

/-- `sys_event_flag_cancel` under the mutex: every sleeper leaves `sq` with
`CELL_ECANCELED` and the current pattern. -/
def State.cancelAll (s : State) : State :=
  { s with
    sq := []
    pc := fun u => if u ∈ s.sq then .woken .ecanceled s.pattern else s.pc u }

/-- The atomic steps of the calls. -/
inductive Step (S : Setup) : State → Label → State → Prop where
  | waitInval {s t} {w : Waiter} :
      s.pc t = .idle → checkMode w.mode = false →
      Step S s ⟨t, .wait, some (.einval, 0)⟩ s
  /-- The `fetch_op` of the fast path accepts. The slow path's second
  `fetch_op`, under the mutex, is this same step when it accepts. -/
  | waitFast {s t x} {w : Waiter} :
      s.pc t = .idle → checkMode w.mode = true → checkPattern s.pattern w.bitptn w.mode = (true, x) →
      Step S s ⟨t, .wait, some (.ok, s.pattern)⟩ { s with pattern := x }
  /-- Under the mutex: a second waiter on a `SYS_SYNC_WAITER_SINGLE` flag. -/
  | waitPerm {s t} {w : Waiter} :
      s.pc t = .idle → checkMode w.mode = true → s.holder = none → w.accepts s.pattern = false →
      S.type = sysSyncWaiterSingle → s.sq ≠ [] →
      Step S s ⟨t, .wait, some (.eperm, 0)⟩ s
  /-- Under the mutex: the thread sleeps in `sq`, with `gpr[3] = -1` and the
  pattern the `fetch_op` saw in `gpr[6]`. -/
  | waitSleep {s t} {w : Waiter} (timeout : Bool) :
      s.pc t = .idle → checkMode w.mode = true → s.holder = none → w.accepts s.pattern = false →
      ¬(S.type = sysSyncWaiterSingle ∧ s.sq ≠ []) →
      Step S s ⟨t, .wait, none⟩
        ({ s with sq := emplace s.sq t, prio := s.prio.stamp t }.move t
          (.asleep w timeout false s.pattern))
  /-- A woken thread returns its `gpr[3]` and stores its `gpr[6]`. -/
  | waitWake {s t r v} :
      s.pc t = .woken r v → Step S s ⟨t, .wait, some (r, v)⟩ (s.move t .idle)
  /-- Under the mutex: the timeout of a sleeper that is still in `sq`. -/
  | waitTimedOut {s t w ok v q} :
      s.pc t = .asleep w true ok v → s.holder = none → unqueue s.sq t = some q →
      Step S s ⟨t, .wait, some (.etimedout, s.pattern)⟩ ({ s with sq := q }.move t .idle)
  | trywaitInval {s t} {w : Waiter} :
      s.pc t = .idle → checkMode w.mode = false →
      Step S s ⟨t, .trywait w, some (.einval, 0)⟩ s
  | trywaitOk {s t x} {w : Waiter} :
      s.pc t = .idle → checkMode w.mode = true → checkPattern s.pattern w.bitptn w.mode = (true, x) →
      Step S s ⟨t, .trywait w, some (.ok, s.pattern)⟩ { s with pattern := x }
  | trywaitBusy {s t} {w : Waiter} :
      s.pc t = .idle → checkMode w.mode = true → w.accepts s.pattern = false →
      Step S s ⟨t, .trywait w, some (.ebusy, 0)⟩ s
  /-- Every bit of `bitptn` is set already. -/
  | setEarly {s t b} :
      s.pc t = .idle → s.pattern &&& b = b → Step S s ⟨t, .set b, some (.ok, 0)⟩ s
  | setCheck {s t b} :
      s.pc t = .idle → s.pattern &&& b ≠ b → Step S s ⟨t, .set b, none⟩ (s.move t (.setLocking b))
  /-- The set takes the mutex and reads its first snapshot. -/
  | setLock {s t b} :
      s.pc t = .setLocking b → s.holder = none →
      Step S s ⟨t, .set b, none⟩ ({ s with holder := some t }.move t (.setting b s.pattern))
  /-- An attempt the `fetch_op` refuses: the next one is on the pattern it
  found. -/
  | setRetry {s t b p} :
      s.pc t = .setting b p →
      commit s.pattern p b (s.attempt S b p).toWrite (s.attempt S b p).dependantMask = none →
      Step S s ⟨t, .set b, none⟩ ((s.record (s.attempt S b p)).move t (.setting b s.pattern))
  /-- An attempt the `fetch_op` commits. -/
  | setCommit {s t b p x} :
      s.pc t = .setting b p →
      commit s.pattern p b (s.attempt S b p).toWrite (s.attempt S b p).dependantMask = some x →
      Step S s ⟨t, .set b, some (.ok, 0)⟩ ((s.finishSet (s.attempt S b p) x).move t .idle)
  | clear {s t b} :
      s.pc t = .idle → Step S s ⟨t, .clear b, some (.ok, 0)⟩ { s with pattern := s.pattern &&& b }
  | cancel {s t} :
      s.pc t = .idle → s.holder = none →
      Step S s ⟨t, .cancel, some (.ok, UInt64.ofNat s.sq.length)⟩ s.cancelAll
  | get {s t} :
      s.pc t = .idle → Step S s ⟨t, .get, some (.ok, s.pattern)⟩ s

/-- The states some interleaving reaches from a freshly created flag. -/
def Reachable (S : Setup) : State → Prop :=
  Transition.Reachable State.Init (Step S)

/-! ### The state updates -/

section Updates

variable (s : State) (t u : PpuId) (p : Pc)

@[simp] theorem State.move_pc_self : (s.move t p).pc t = p := by
  simp [State.move]

theorem State.move_pc_other {t u : PpuId} (p : Pc) (h : u ≠ t) : (s.move t p).pc u = s.pc u := by
  simp [State.move, h]

@[simp] theorem State.move_pattern : (s.move t p).pattern = s.pattern := rfl
@[simp] theorem State.move_sq : (s.move t p).sq = s.sq := rfl
@[simp] theorem State.move_prio : (s.move t p).prio = s.prio := rfl
@[simp] theorem State.move_holder : (s.move t p).holder = s.holder := rfl

variable (a : Attempt)

@[simp] theorem State.record_pattern : (s.record a).pattern = s.pattern := rfl
@[simp] theorem State.record_sq : (s.record a).sq = s.sq := rfl
@[simp] theorem State.record_prio : (s.record a).prio = s.prio := rfl
@[simp] theorem State.record_holder : (s.record a).holder = s.holder := rfl

theorem State.record_pc_none {a : Attempt} {u : PpuId} (h : a.written u = none) :
    (s.record a).pc u = s.pc u := by
  simp [State.record, h]

theorem State.record_pc_some {a : Attempt} {u : PpuId} {ok : Bool} {seen : UInt64}
    (h : a.written u = some (ok, seen)) : (s.record a).pc u = (s.pc u).write ok seen := by
  simp [State.record, h]

/-- The writes of an attempt keep who sleeps, who holds the mutex and what
each sleeper waits for. -/
@[simp] theorem State.record_sleeping : ((s.record a).pc u).sleeping = (s.pc u).sleeping := by
  simp only [State.record]
  split <;> simp

@[simp] theorem State.record_holdsMutex : ((s.record a).pc u).holdsMutex = (s.pc u).holdsMutex := by
  simp only [State.record]
  split <;> simp

@[simp] theorem State.record_waiter : (s.record a).waiter u = s.waiter u := by
  simp only [State.waiter, State.record]
  split <;> simp

end Updates

/-! ### The invariant -/

/-- Every thread of `sq` sleeps there once; priorities are `s32`; the
mutex holder is the set in `setting`; while the mutex is free, no sleeper
accepts the pattern or is marked `CELL_OK`; while a set holds it, the
pattern has no bit the snapshot lacks and no sleeper accepts the snapshot. -/
structure Inv (s : State) : Prop where
  nodup : s.sq.Nodup
  queued : ∀ u, u ∈ s.sq ↔ (s.pc u).sleeping = true
  prio : ∀ u, (s.prio.prio u).prio ≤ 2 ^ 31 - 1
  holder : ∀ t, s.holder = some t ↔ (s.pc t).holdsMutex = true
  free : s.holder = none → ∀ u ∈ s.sq,
    (s.waiter u).accepts s.pattern = false ∧ (s.pc u).marked = false
  held : ∀ t b p, s.pc t = .setting b p →
    bits s.pattern ⊆ bits p ∧ ∀ u ∈ s.sq, (s.waiter u).accepts p = false

section Steps

variable {S : Setup} {s : State}

theorem inv_init (h : State.Init s) : Inv s := by
  obtain ⟨hsq, hh, hpc, hprio⟩ := h
  refine ⟨by simp [hsq], fun u => ?_, hprio, fun t => ?_, fun _ => by simp [hsq], ?_⟩
  · simp [hsq, hpc u]
  · simp [hh, hpc t]
  · intro t b p ht
    rw [hpc t] at ht
    cases ht

/-- Nobody is in `setting` while the mutex is free. -/
theorem Inv.not_setting (h : Inv s) (hh : s.holder = none) (t : PpuId) :
    (s.pc t).holdsMutex = false := by
  cases hm : (s.pc t).holdsMutex
  · rfl
  · rw [← h.holder t, hh] at hm
    cases hm

/-- A step that only clears bits of the pattern keeps the invariant: a
pattern with fewer bits is accepted by fewer waiters. -/
theorem Inv.shrink (h : Inv s) {x : UInt64} (hx : bits x ⊆ bits s.pattern) :
    Inv { s with pattern := x } where
  nodup := h.nodup
  queued := h.queued
  prio := h.prio
  holder := h.holder
  free hh u hu := by
    obtain ⟨hr, hm⟩ := h.free hh u hu
    exact ⟨Waiter.rejects_of_subset hx hr, hm⟩
  held t b p ht := by
    obtain ⟨hs, hr⟩ := h.held t b p ht
    exact ⟨hx.trans hs, hr⟩

/-- A thread that neither sleeps nor holds the mutex may move to another
such position. -/
theorem Inv.moveFree (h : Inv s) {t : PpuId} {p : Pc} (ht : (s.pc t).sleeping = false)
    (ht' : (s.pc t).holdsMutex = false) (hp : p.sleeping = false) (hp' : p.holdsMutex = false) :
    Inv (s.move t p) := by
  have htq : t ∉ s.sq := fun hq => by rw [h.queued t, ht] at hq; cases hq
  refine ⟨h.nodup, fun u => ?_, h.prio, fun u => ?_, fun hh u hu => ?_, fun u b q hu => ?_⟩
  · by_cases hut : u = t
    · subst hut
      simp [htq, hp]
    · simp [State.move_pc_other s p hut, h.queued u]
  · by_cases hut : u = t
    · subst hut
      simp only [State.move_holder, State.move_pc_self, hp', Bool.false_eq_true, iff_false]
      intro hs
      rw [h.holder u, ht'] at hs
      cases hs
    · simp [State.move_pc_other s p hut, h.holder u]
  · have hut : u ≠ t := fun e => htq (e ▸ hu)
    have hw : (s.move t p).waiter u = s.waiter u := by
      simp [State.waiter, State.move_pc_other s p hut]
    rw [hw, State.move_pc_other s p hut]
    exact h.free hh u hu
  · have hut : u ≠ t := by
      rintro rfl
      rw [State.move_pc_self] at hu
      rw [hu] at hp'
      cases hp'
    rw [State.move_pc_other s p hut] at hu
    obtain ⟨hs, hr⟩ := h.held u b q hu
    refine ⟨hs, fun v hv => ?_⟩
    have hvt : v ≠ t := fun e => htq (e ▸ hv)
    have hw : (s.move t p).waiter v = s.waiter v := by
      simp [State.waiter, State.move_pc_other s p hvt]
    rw [hw]
    exact hr v hv

/-- `sys_event_flag_wait` goes to sleep: it rejected the pattern under the
mutex, and nobody is in `setting`. -/
theorem inv_waitSleep (h : Inv s) {t : PpuId} {w : Waiter} (timeout : Bool)
    (ht : s.pc t = .idle) (hh : s.holder = none) (hr : w.accepts s.pattern = false) :
    Inv ({ s with sq := emplace s.sq t, prio := s.prio.stamp t }.move t
      (.asleep w timeout false s.pattern)) := by
  have htq : t ∉ s.sq := by simp [h.queued t, ht]
  have hns := h.not_setting hh
  refine ⟨List.nodup_cons.mpr ⟨htq, h.nodup⟩, fun u => ?_, fun u => by simpa using h.prio u,
    fun u => ?_, fun _ u hu => ?_, fun u b p hu => ?_⟩
  · by_cases hut : u = t
    · subst hut
      simp [emplace]
    · simp [emplace, State.move_pc_other _ _ hut, hut, h.queued u]
  · by_cases hut : u = t
    · subst hut
      simp [hh]
    · simp [State.move_pc_other _ _ hut, hns u, hh]
  · by_cases hut : u = t
    · subst hut
      simp [State.waiter, hr]
    · have hu' : u ∈ s.sq := by simpa [emplace, hut] using hu
      simpa [State.waiter, State.move_pc_other _ _ hut] using h.free hh u hu'
  · have hut : u ≠ t := by
      rintro rfl
      simp at hu
    rw [State.move_pc_other _ _ hut] at hu
    have hm := hns u
    have hu' : s.pc u = .setting b p := hu
    rw [hu'] at hm
    cases hm

/-- The timeout takes a sleeper out of `sq`. -/
theorem inv_waitTimedOut (h : Inv s) {t : PpuId} {w : Waiter} {ok : Bool} {v : UInt64}
    {q : List PpuId} (ht : s.pc t = .asleep w true ok v) (hq : unqueue s.sq t = some q) :
    Inv ({ s with sq := q }.move t .idle) := by
  have htq : t ∈ s.sq := by simp [h.queued t, ht]
  rw [unqueue_of_mem htq, Option.some.injEq] at hq
  subst hq
  have hmem : ∀ u, u ≠ t → (u ∈ s.sq.erase t ↔ u ∈ s.sq) := fun u hut => by
    rw [mem_erase_iff h.nodup]
    exact and_iff_right hut
  refine ⟨h.nodup.erase t, fun u => ?_, h.prio, fun u => ?_, fun hh u hu => ?_, fun u b p hu => ?_⟩
  · by_cases hut : u = t
    · subst hut
      simp [not_mem_erase_self h.nodup]
    · simp [State.move_pc_other _ _ hut, hmem u hut, h.queued u]
  · by_cases hut : u = t
    · subst hut
      simp [h.holder u, ht]
    · simp [State.move_pc_other _ _ hut, h.holder u]
  · have hut : u ≠ t := fun e => not_mem_erase_self h.nodup t (e ▸ hu)
    have hu' := (hmem u hut).mp hu
    simpa [State.waiter, State.move_pc_other _ _ hut] using h.free hh u hu'
  · have hut : u ≠ t := by
      rintro rfl
      simp at hu
    rw [State.move_pc_other _ _ hut] at hu
    obtain ⟨hs, hr⟩ := h.held u b p hu
    refine ⟨hs, fun v hv => ?_⟩
    have hvt : v ≠ t := fun e => not_mem_erase_self h.nodup t (e ▸ hv)
    simpa [State.waiter, State.move_pc_other _ _ hvt] using hr v ((hmem v hvt).mp hv)

/-- The set takes the free mutex: its snapshot is the pattern, which no
sleeper accepts. -/
theorem inv_setLock (h : Inv s) {t : PpuId} {b : UInt64} (ht : s.pc t = .setLocking b)
    (hh : s.holder = none) :
    Inv ({ s with holder := some t }.move t (.setting b s.pattern)) := by
  have htq : t ∉ s.sq := by simp [h.queued t, ht]
  have hns := h.not_setting hh
  refine ⟨h.nodup, fun u => ?_, h.prio, fun u => ?_, (fun hh' => by cases hh'), fun u b' p hu => ?_⟩
  · by_cases hut : u = t
    · subst hut
      simp [htq]
    · simp [State.move_pc_other _ _ hut, h.queued u]
  · by_cases hut : u = t
    · subst hut
      simp
    · simp [State.move_pc_other _ _ hut, hns u, Ne.symm hut]
  · have hut : u = t := by
      by_contra hut
      rw [State.move_pc_other _ _ hut] at hu
      have hm := hns u
      have hu' : s.pc u = .setting b' p := hu
      rw [hu'] at hm
      cases hm
    subst hut
    simp only [State.move_pc_self, Pc.setting.injEq] at hu
    obtain ⟨rfl, rfl⟩ := hu
    refine ⟨subset_rfl, fun v hv => ?_⟩
    have hvt : v ≠ u := fun e => htq (e ▸ hv)
    simpa [State.waiter, State.move_pc_other _ _ hvt] using (h.free hh v hv).1

/-- A refused attempt: its writes change no sleeper's request, and the new
snapshot, the pattern found, has no bit the old one lacked. -/
theorem inv_setRetry (h : Inv s) {t : PpuId} {b p : UInt64} (ht : s.pc t = .setting b p)
    (a : Attempt) : Inv ((s.record a).move t (.setting b s.pattern)) := by
  have hht : s.holder = some t := (h.holder t).mpr (by simp [ht])
  have htq : t ∉ s.sq := by simp [h.queued t, ht]
  obtain ⟨hsub, hrej⟩ := h.held t b p ht
  refine ⟨h.nodup, fun u => ?_, h.prio, fun u => ?_, fun hh => by simp [hht] at hh,
    fun u b' p' hu => ?_⟩
  · by_cases hut : u = t
    · subst hut
      simp [htq]
    · simp [State.move_pc_other _ _ hut, h.queued u]
  · by_cases hut : u = t
    · subst hut
      simp [hht]
    · simp [State.move_pc_other _ _ hut, ← h.holder u, hht, Ne.symm hut]
  · have hut : u = t := by
      by_contra hut
      rw [State.move_pc_other _ _ hut] at hu
      have hm : (s.pc u).holdsMutex = true := by
        rw [← State.record_holdsMutex s u a, hu]
        rfl
      rw [← h.holder u, hht] at hm
      exact hut (Option.some.inj hm).symm
    subst hut
    simp only [State.move_pc_self, Pc.setting.injEq] at hu
    obtain ⟨rfl, rfl⟩ := hu
    refine ⟨subset_rfl, fun v hv => ?_⟩
    have hvt : v ≠ u := fun e => htq (e ▸ hv)
    have hw : ((s.record a).move u (.setting b s.pattern)).waiter v = s.waiter v := by
      simp only [State.waiter, State.move_pc_other _ _ hvt]
      exact State.record_waiter s v a
    rw [hw]
    exact Waiter.rejects_of_subset hsub (hrej v hv)

/-- `sys_event_flag_cancel` wakes every sleeper. -/
theorem inv_cancel (h : Inv s) (hh : s.holder = none) : Inv s.cancelAll := by
  have hns := h.not_setting hh
  have hpc : ∀ u, u ∉ s.sq → s.cancelAll.pc u = s.pc u := fun u hu => by
    simp [State.cancelAll, hu]
  refine ⟨List.nodup_nil, fun u => ?_, h.prio, fun u => ?_, (fun _ u hu => by cases hu),
    fun u b p hu => ?_⟩
  · by_cases hu : u ∈ s.sq
    · simp [State.cancelAll, hu]
    · rw [hpc u hu]
      simp [← h.queued u, hu, State.cancelAll]
  · by_cases hu : u ∈ s.sq
    · simp [State.cancelAll, hu, hh]
    · rw [hpc u hu]
      simp [hns u, State.cancelAll, hh]
  · by_cases hus : u ∈ s.sq
    · simp [State.cancelAll, hus] at hu
    · rw [hpc u hus] at hu
      have hm := hns u
      simp [hu] at hm

/-- The end of a committed set: whatever sleepers the set leaves in `sq`
reject the committed pattern and are unmarked, and the mutex is released. -/
theorem Inv.release (h : Inv s) {t : PpuId} (ht : (s.pc t).holdsMutex = true) {s2 : State}
    {x : UInt64} (hnodup : s2.sq.Nodup) (hq : ∀ u, u ∈ s2.sq ↔ (s2.pc u).sleeping = true)
    (hprio : s2.prio = s.prio) (hhold : ∀ u, (s2.pc u).holdsMutex = (s.pc u).holdsMutex)
    (hfree : ∀ u ∈ s2.sq, (s2.waiter u).accepts x = false ∧ (s2.pc u).marked = false) :
    Inv ({ s2 with pattern := x, holder := none }.move t .idle) := by
  have hht : s.holder = some t := (h.holder t).mpr ht
  -- only `t` held the mutex
  have hother : ∀ u, u ≠ t → (s2.pc u).holdsMutex = false := fun u hut => by
    rw [hhold u]
    cases hm : (s.pc u).holdsMutex
    · rfl
    · rw [← h.holder u, hht] at hm
      exact absurd (Option.some.inj hm).symm hut
  have htq : t ∉ s2.sq := fun hq' => by
    have hs := (hq t).mp hq'
    rw [← hhold t] at ht
    cases hp : s2.pc t <;> simp_all
  refine ⟨hnodup, fun u => ?_, fun u => by simpa [hprio] using h.prio u, fun u => ?_,
    fun _ u hu => ?_, fun u b p hu => ?_⟩
  · by_cases hut : u = t
    · subst hut
      simp [htq]
    · simp [State.move_pc_other _ _ hut, hq u]
  · by_cases hut : u = t
    · subst hut
      simp
    · simp [State.move_pc_other _ _ hut, hother u hut]
  · have hut : u ≠ t := fun e => htq (e ▸ hu)
    simpa [State.waiter, State.move_pc_other _ _ hut] using hfree u hu
  · have hut : u ≠ t := by
      rintro rfl
      simp at hu
    rw [State.move_pc_other _ _ hut] at hu
    have hm := hother u hut
    have hu' : s2.pc u = .setting b p := hu
    rw [hu'] at hm
    cases hm

section Commit

variable (S : Setup) {t : PpuId} {b p x : UInt64}

/-- `setAttempt_covers` for the sleepers of a state. -/
theorem Inv.attempt_covers (h : Inv s) (b p : UInt64) :
    ((s.attempt S b p).toWrite = 0 ∧ 0 < (s.attempt S b p).count) ∨
      ∀ u ∈ s.sq, (s.attempt S b p).written u ≠ none :=
  setAttempt_covers (fun u _ => h.prio u) p

/-- After a committed attempt, every sleeper it did not mark `CELL_OK`
rejects the committed pattern: a sleeper it rejected rejects the pattern
it wrote, which has every bit of the committed one; a sleeper it did not
reach was left behind by a stop with nothing to write, so the committed
pattern is 0. -/
theorem commit_rejects (h : Inv s) (ht : s.pc t = .setting b p)
    (hc : commit s.pattern p b (s.attempt S b p).toWrite (s.attempt S b p).dependantMask = some x)
    {u : PpuId} (hu : u ∈ s.sq) (hm : ((s.record (s.attempt S b p)).pc u).marked = false) :
    (s.waiter u).accepts x = false := by
  obtain ⟨hsub, hrej⟩ := h.held t b p ht
  have hx := bits_commit hc hsub
  have hsl : (s.pc u).sleeping = true := (h.queued u).mp hu
  cases hw : (s.attempt S b p).written u with
  | none =>
    rcases h.attempt_covers S b p with ⟨h0, -⟩ | hall
    · have hx0 : bits x ⊆ bits p := by
        rw [h0, bits_zero] at hx
        exact hx.trans (Set.empty_subset _)
      exact Waiter.rejects_of_subset hx0 (hrej u hu)
    · exact absurd hw (hall u hu)
  | some d =>
    obtain ⟨ok, v⟩ := d
    rw [State.record_pc_some s hw, Pc.marked_write hsl] at hm
    subst hm
    exact Waiter.rejects_of_subset hx ((setAttempt_inv p).rejects u v hw)

/-- An attempt that accepted nobody decided every sleeper and marked none:
it never stopped early, since it stops only on an accepted waiter. -/
theorem record_unmarked_of_count (h : Inv s) (hcount : (s.attempt S b p).count = 0) {u : PpuId}
    (hu : u ∈ s.sq) : ((s.record (s.attempt S b p)).pc u).marked = false := by
  have hsl : (s.pc u).sleeping = true := (h.queued u).mp hu
  rcases h.attempt_covers S b p with ⟨-, hpos⟩ | hall
  · exact absurd hcount (Nat.pos_iff_ne_zero.mp hpos)
  · obtain ⟨⟨ok, v⟩, hw⟩ := Option.ne_none_iff_exists'.mp (hall u hu)
    have hw' : (s.attempt S b p).written u = some (ok, v) := hw
    rw [State.record_pc_some s hw', Pc.marked_write hsl]
    cases ok
    · rfl
    · have hpos := (setAttempt_inv p).counted u v hw
      exact absurd hcount (Nat.pos_iff_ne_zero.mp hpos)

/-- A committed attempt keeps the invariant. With nobody accepted, `sq`
stays and nobody is marked; otherwise the removal loop takes the marked
sleepers out. -/
theorem inv_setCommit (h : Inv s) (ht : s.pc t = .setting b p)
    (hc : commit s.pattern p b (s.attempt S b p).toWrite (s.attempt S b p).dependantMask = some x) :
    Inv ((s.finishSet (s.attempt S b p) x).move t .idle) := by
  have hth : (s.pc t).holdsMutex = true := by simp [ht]
  have hq1 : ∀ u, u ∈ (s.record (s.attempt S b p)).sq ↔
      ((s.record (s.attempt S b p)).pc u).sleeping = true := fun u => by
    simp [h.queued u]
  by_cases hcount : (s.attempt S b p).count = 0
  · have hf : s.finishSet (s.attempt S b p) x =
        { s.record (s.attempt S b p) with pattern := x, holder := none } := by
      simp [State.finishSet, hcount]
    rw [hf]
    refine h.release hth h.nodup hq1 rfl (fun u => State.record_holdsMutex s u _) fun u hu => ?_
    have hm := record_unmarked_of_count S h hcount hu
    exact ⟨by simpa using commit_rejects S h ht hc hu hm, hm⟩
  · have hf : s.finishSet (s.attempt S b p) x =
        { (s.record (s.attempt S b p)).removeMarked with pattern := x, holder := none } := by
      simp [State.finishSet, hcount]
    rw [hf]
    generalize hs1 : s.record (s.attempt S b p) = s1 at hq1
    have hpc : ∀ u, u ∉ s1.sq → s1.removeMarked.pc u = s1.pc u := fun u hu => by
      simp [State.removeMarked, hu]
    have hsq1 : s1.sq = s.sq := by rw [← hs1]; rfl
    have hhold1 : ∀ u, (s1.pc u).holdsMutex = (s.pc u).holdsMutex := fun u => by
      rw [← hs1]
      exact State.record_holdsMutex s u _
    refine h.release hth (by rw [State.removeMarked, hsq1]; exact h.nodup.filter _) (fun u => ?_)
      (by rw [← hs1]; rfl) (fun u => ?_) fun u hu => ?_
    · by_cases hu : u ∈ s1.sq
      · have hsl := (hq1 u).mp hu
        simp [State.removeMarked, hu, Pc.sleeping_wakeMarked, hsl]
      · rw [hpc u hu]
        simp only [State.removeMarked, List.mem_filter, hu, false_and, false_iff]
        intro hs
        exact hu ((hq1 u).mpr hs)
    · by_cases hu : u ∈ s1.sq
      · simp [State.removeMarked, hu, hhold1 u]
      · rw [hpc u hu]
        exact hhold1 u
    · simp only [State.removeMarked, List.mem_filter, Bool.not_eq_true'] at hu
      obtain ⟨hu, hm⟩ := hu
      have hpu : s1.removeMarked.pc u = s1.pc u := by
        simp [State.removeMarked, hu, Pc.wakeMarked_of_not_marked hm]
      have hw : s1.removeMarked.waiter u = s.waiter u := by
        show (s1.removeMarked.pc u).waiter = _
        rw [hpu, ← hs1]
        exact State.record_waiter s u _
      rw [hw, hpu]
      rw [hsq1] at hu
      rw [← hs1] at hm ⊢
      exact ⟨commit_rejects S h ht hc hu hm, hm⟩

end Commit

theorem inv_step : Transition.Preserved (Step S) Inv := by
  intro s l s' h hs
  cases hs with
  | waitInval => exact h
  | waitFast _ _ hc => exact h.shrink (bits_of_checkPattern hc)
  | waitPerm => exact h
  | waitSleep timeout ht _ hh hr => exact inv_waitSleep h timeout ht hh hr
  | waitWake ht => exact h.moveFree (by simp [ht]) (by simp [ht]) rfl rfl
  | waitTimedOut ht _ hq => exact inv_waitTimedOut h ht hq
  | trywaitInval => exact h
  | trywaitOk _ _ hc => exact h.shrink (bits_of_checkPattern hc)
  | trywaitBusy => exact h
  | setEarly => exact h
  | setCheck ht => exact h.moveFree (by simp [ht]) (by simp [ht]) rfl rfl
  | setLock ht hh => exact inv_setLock h ht hh
  | setRetry ht => exact inv_setRetry h ht _
  | setCommit ht hc => exact inv_setCommit S h ht hc
  | clear => exact h.shrink (by simp)
  | cancel _ hh => exact inv_cancel h hh
  | get => exact h

theorem inv_reachable {s : State} (hs : Reachable S s) : Inv s :=
  Transition.Reachable.invariant (fun _ => inv_init) inv_step hs

end Steps

/-! ### What the invariant gives -/

/-- While the mutex is free, every thread of `sq` sleeps waiting for a
`(bitptn, mode)` that `check_pattern` rejects on the current pattern. -/
theorem sleepers_reject {S : Setup} {s : State} (hs : Reachable S s) (hh : s.holder = none) :
    ∀ u ∈ s.sq, ∃ w timeout ok seen, s.pc u = .asleep w timeout ok seen ∧
      (checkPattern s.pattern w.bitptn w.mode).1 = false := by
  intro u hu
  have h := inv_reachable hs
  have hsl := (h.queued u).mp hu
  obtain ⟨hr, -⟩ := h.free hh u hu
  cases hp : s.pc u with
  | asleep w timeout ok seen =>
    refine ⟨w, timeout, ok, seen, rfl, ?_⟩
    simpa [State.waiter, hp, Waiter.accepts] using hr
  | _ => simp [hp] at hsl

/-- A FIFO flag that lets several threads wait. -/
def staleSetup : Setup := ⟨.fifo, sysSyncWaiterMultiple⟩

/-- The flag created with the pattern `0b0110`, before any call. -/
def staleInit : State := ⟨0b0110, [], ⟨0, fun _ => ⟨0, 0⟩⟩, none, fun _ => .idle⟩

theorem staleInit_init : State.Init staleInit :=
  ⟨rfl, rfl, fun _ => rfl, fun _ => show (0 : Int) ≤ 2 ^ 31 - 1 by decide⟩

def waiterOne : PpuId := ⟨1, Nat.one_pos⟩
def waiterTwo : PpuId := ⟨2, Nat.two_pos⟩
def waiterThree : PpuId := ⟨3, PpuId.pos_three⟩
def setter : PpuId := ⟨4, PpuId.pos_four⟩
def clearer : PpuId := ⟨5, PpuId.pos_five⟩

/-- Part (a) of the contract holds in every reachable state, but part (b)
fails. Three threads sleep on the pattern `0b0110`: `waiterOne` for
`0b1010` (AND, CLEAR), `waiterTwo` for `0b1000` (AND, CLEAR_ALL), and
`waiterThree` for `0b0001` (AND). A `sys_event_flag_set(0b1001)` takes the
mutex. Its first attempt, from `0b1111`, accepts `waiterOne` (leaving
`0b0101`), rejects `waiterTwo` and accepts `waiterThree`; it depends on bit
1. A concurrent `sys_event_flag_clear` removes that bit, so the attempt is
refused. The second attempt, from `0b0100 | 0b1001 = 0b1101`, rejects
`waiterOne`, then accepts `waiterTwo`, which clears everything, and stops
there. It commits 0. Processing the waiters one at a time in FIFO order
from `0b1101` wakes `waiterTwo` alone. The removal loop, though, also
wakes `waiterThree`, whose `CELL_OK` mark from the refused attempt was never
overwritten; it returns `CELL_OK` with the stale value `0b0101`. -/
theorem event_flag_sleepers_and_set :
    (∀ (S : Setup) (s : State), Reachable S s → s.holder = none →
      ∀ u ∈ s.sq, ∃ w timeout ok seen, s.pc u = .asleep w timeout ok seen ∧
        (checkPattern s.pattern w.bitptn w.mode).1 = false) ∧
    ∃ s s', Reachable staleSetup s ∧
      Step staleSetup s ⟨setter, .set 0b1001, some (.ok, 0)⟩ s' ∧
      s.sq = [waiterThree, waiterTwo, waiterOne] ∧
      s.waiter waiterOne = ⟨0b1010, 0x11⟩ ∧ s.waiter waiterTwo = ⟨0b1000, 0x21⟩ ∧
      s.pattern ||| 0b1001 = 0b1101 ∧
      checkPattern 0b1101 0b1010 0x11 = (false, 0b1101) ∧
      checkPattern 0b1101 0b1000 0x21 = (true, 0) ∧
      s'.sq = [waiterOne] ∧ s'.pc waiterThree = .woken .ok 0b0101 := by
  refine ⟨fun S s hs hh => sleepers_reject hs hh, ?_⟩
  -- the three waiters go to sleep, newest at the head of `sq`
  have h0 : Reachable staleSetup staleInit := Transition.Reachable.of_init staleInit_init
  have h1 := Transition.Reachable.next h0
    (Step.waitSleep (t := waiterOne) (w := ⟨0b1010, 0x11⟩) false rfl (by decide) rfl (by decide)
      (by decide))
  have h2 := h1.next
    (Step.waitSleep (t := waiterTwo) (w := ⟨0b1000, 0x21⟩) false rfl (by decide) rfl (by decide)
      (by decide))
  have h3 := h2.next
    (Step.waitSleep (t := waiterThree) (w := ⟨0b0001, 0x01⟩) false rfl (by decide) rfl
      (by decide) (by decide))
  -- the set finds bits missing and takes the mutex with the snapshot `0b0110`
  have h4 := h3.next (Step.setCheck (t := setter) (b := 0b1001) rfl (by decide))
  have h5 := h4.next (Step.setLock (t := setter) (b := 0b1001) rfl rfl)
  -- bit 1 is cleared behind the set's back
  have h6 := h5.next (Step.clear (t := clearer) (b := ~~~0b0010) rfl)
  -- the first attempt is refused; the next one is on `0b0100`
  have h7 := h6.next (Step.setRetry (t := setter) (b := 0b1001) (p := 0b0110) rfl (by decide))
  exact ⟨_, _, h7, Step.setCommit (x := 0) rfl (by decide), rfl, rfl, rfl, by decide, by decide,
    by decide, by decide, by decide⟩

end Rpcs3.Lv2.EventFlagSystem
