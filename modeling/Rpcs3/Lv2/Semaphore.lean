import Rpcs3.Lv2.Sync
import Rpcs3.Lib.Transition
import Mathlib.Data.Finset.Card

/-! `lv2_sema` (sys_semaphore.h) and the calls `sys_semaphore_create`,
`sys_semaphore_wait`, `sys_semaphore_trywait`, `sys_semaphore_post` and
`sys_semaphore_get_value` (sys_semaphore.cpp).

`val` is the number of units left while it is positive, and minus the number
of sleepers while it is negative. It changes in four places: the CAS fast
paths of `wait`, `trywait` and `post`, the `val--` of `wait` under
`sema.mutex`, the conditional `val++` of a timing-out waiter, and the
`fetch_op` of `post` under `sema.mutex`, which tests `count + 0u <= max + 0u -
val` in `u32`. The calls are split into these atomic steps and threads
interleave freely; a CAS that loses a race sends its call to the slow path,
which the model allows at any time.

A PPU thread exists in the IDM between its creation and its exit, and the
IDM holds at most `id_count` of them at once. A sleeping thread does not
exit, so at most `id_count` threads sleep and `val` stays within
`[-id_count, max]`; there no `s32` operation on it wraps, and the model
computes it as an integer. -/
namespace Rpcs3.Lv2.Semaphore

open Rpcs3.Lv2.Sync

/-- `ppu_thread::id_count`: the IDM holds at most this many PPU threads. -/
def ppuIdCount : Nat := 100

/-- An `lv2_sema` as `sys_semaphore_create` made it: its protocol and its
`max`, which the creation checked to be positive. -/
structure Sema where
  protocol : Lv2Protocol
  max : Int
  max_pos : 0 < max
  max_lt : max < 2 ^ 31

/-- The checks of `sys_semaphore_create`: the semaphore and its initial
value, or `CELL_EINVAL`. -/
def semaphoreCreate (protocol : Lv2Protocol) (initialVal maxVal : Int32) :
    Except CellError (Sema × Int) :=
  if h : maxVal.toInt ≤ 0 ∨ initialVal.toInt > maxVal.toInt ∨ initialVal.toInt < 0 then
    .error .einval
  else if protocol ≠ .fifo ∧ protocol ≠ .priority then .error .einval
  else .ok (⟨protocol, maxVal.toInt, by omega, maxVal.toInt_lt⟩, initialVal.toInt)

/-- `atomic_t::try_dec`: take one unit if `val` is above `greaterThan`.
`sys_semaphore_trywait` calls it with 0, and the CAS fast path of
`sys_semaphore_wait` makes the same change. -/
def tryDec (greaterThan val : Int) : Option Int :=
  if val > greaterThan then some (val - 1) else none

/-- The section of `sys_semaphore_wait` under `sema.mutex`: `val--`, and a
thread that found no unit sleeps in `sq`. Returns whether the thread got a
unit. -/
def waitSlow (val : Int) (sq : List PpuId) (t : PpuId) : Bool × Int × List PpuId :=
  if val ≤ 0 then (false, val - 1, emplace sq t) else (true, val - 1, sq)

/-- The timeout path of `sys_semaphore_wait` under `sema.mutex`: a thread no
longer in `sq` was woken and returns `CELL_OK`; otherwise it leaves `sq`,
gives its unit of debt back (`ensure` that `val` was negative) and returns
`CELL_ETIMEDOUT`. `none` is a failed `ensure`. -/
def waitTimeout (val : Int) (sq : List PpuId) (t : PpuId) :
    Option (CellError × Int × List PpuId) :=
  match unqueue sq t with
  | none => some (.ok, val, sq)
  | some sq' => if val < 0 then some (.etimedout, val + 1, sq') else none

/-- The CAS fast path of `sys_semaphore_post`. -/
def postFast (max val count : Int) : Option Int :=
  if val ≥ 0 ∧ count > 0 ∧ count ≤ max - val then some (val + count) else none

/-- The test in the `fetch_op` of `sys_semaphore_post`,
`count + 0u <= max + 0u - val`, in `u32` arithmetic. -/
def postFits (max val count : Int) : Bool :=
  decide (count % 2 ^ 32 ≤ (max - val) % 2 ^ 32)

/-- The wake loop of `sys_semaphore_post`: `n` times `schedule` takes a
sleeper (`ensure` fails on an empty queue, `none`). Returns the woken threads
in the order taken and the queue left. -/
def wakeSleepers (protocol : Lv2Protocol) (prio : PpuId → PpuPrio) :
    Nat → List PpuId → Option (List PpuId × List PpuId)
  | 0, sq => some ([], sq)
  | n + 1, sq =>
    match schedule protocol prio sq with
    | none => none
    | some w => (wakeSleepers protocol prio n (sq.erase w)).map fun r => (w :: r.1, r.2)

/-- The section of `sys_semaphore_post` under `sema.mutex`, for `count > 0`:
if the `u32` test passes, `val += count` and `min(-min(old, 0), count)`
sleepers are woken; otherwise `CELL_EBUSY`. Returns the code, the new `val`,
the woken threads and the queue left. -/
def postSlow (sema : Sema) (prio : PpuId → PpuPrio) (val : Int) (sq : List PpuId)
    (count : Int) : Option (CellError × Int × List PpuId × List PpuId) :=
  if postFits sema.max val count then
    let toAwake := min (-(min val 0)) count
    (wakeSleepers sema.protocol prio toAwake.toNat sq).map fun r => (.ok, val + count, r.1, r.2)
  else some (.ebusy, val, [], sq)

/-- `sys_semaphore_get_value`: the units left, `max(0, val)`. -/
def getValue (val : Int) : Int := max 0 val

/-! ### What each section can do -/

theorem semaphoreCreate_ok {protocol : Lv2Protocol} {initialVal maxVal : Int32} {sema : Sema}
    {val : Int} (h : semaphoreCreate protocol initialVal maxVal = .ok (sema, val)) :
    0 ≤ val ∧ val ≤ sema.max := by
  unfold semaphoreCreate at h
  split at h
  · cases h
  · split at h
    · cases h
    · simp only [Except.ok.injEq, Prod.mk.injEq] at h
      obtain ⟨rfl, rfl⟩ := h
      exact ⟨by omega, by simp only; omega⟩

theorem tryDec_some {g val v : Int} (h : tryDec g val = some v) : g < val ∧ v = val - 1 := by
  unfold tryDec at h
  split at h
  · exact ⟨‹_›, (Option.some.inj h).symm⟩
  · cases h

theorem waitSlow_true {val v : Int} {sq sq' : List PpuId} {t : PpuId}
    (h : waitSlow val sq t = (true, v, sq')) : 0 < val ∧ v = val - 1 ∧ sq' = sq := by
  unfold waitSlow at h
  split at h
  · cases h
  · simp only [Prod.mk.injEq, true_and] at h
    exact ⟨by omega, h.1.symm, h.2.symm⟩

theorem waitSlow_false {val v : Int} {sq sq' : List PpuId} {t : PpuId}
    (h : waitSlow val sq t = (false, v, sq')) : val ≤ 0 ∧ v = val - 1 ∧ sq' = t :: sq := by
  unfold waitSlow at h
  split at h
  · simp only [emplace, Prod.mk.injEq, true_and] at h
    exact ⟨‹_›, h.1.symm, h.2.symm⟩
  · cases h

theorem waitTimeout_of_mem {val v : Int} {sq sq' : List PpuId} {t : PpuId} {r : CellError}
    (ht : t ∈ sq) (h : waitTimeout val sq t = some (r, v, sq')) :
    val < 0 ∧ r = .etimedout ∧ v = val + 1 ∧ sq' = sq.erase t := by
  simp only [waitTimeout, unqueue_of_mem ht] at h
  split at h
  · simp only [Option.some.injEq, Prod.mk.injEq] at h
    obtain ⟨rfl, rfl, rfl⟩ := h
    exact ⟨‹_›, rfl, rfl, rfl⟩
  · cases h

theorem postFast_some {max val count v : Int} (h : postFast max val count = some v) :
    0 ≤ val ∧ 0 < count ∧ count ≤ max - val ∧ v = val + count := by
  unfold postFast at h
  split at h
  · obtain ⟨h1, h2, h3⟩ := ‹_ ∧ _ ∧ _›
    exact ⟨h1, h2, h3, (Option.some.inj h).symm⟩
  · cases h

theorem postSlow_some {sema : Sema} {prio : PpuId → PpuPrio} {val v count : Int}
    {sq sq' ws : List PpuId} {r : CellError}
    (h : postSlow sema prio val sq count = some (r, v, ws, sq')) :
    (postFits sema.max val count ∧ r = .ok ∧ v = val + count ∧
        wakeSleepers sema.protocol prio (min (-(min val 0)) count).toNat sq = some (ws, sq')) ∨
      (postFits sema.max val count = false ∧ r = .ebusy ∧ v = val ∧ ws = [] ∧ sq' = sq) := by
  unfold postSlow at h
  split at h
  · refine .inl ⟨‹_›, ?_⟩
    cases hw : wakeSleepers sema.protocol prio (min (-(min val 0)) count).toNat sq with
    | none => simp [hw] at h
    | some x =>
      simp only [hw, Option.map_some, Option.some.injEq, Prod.mk.injEq] at h
      obtain ⟨rfl, rfl, h1, h2⟩ := h
      exact ⟨rfl, rfl, by rw [← h1, ← h2]⟩
  · simp only [Option.some.injEq, Prod.mk.injEq] at h
    obtain ⟨rfl, rfl, rfl, rfl⟩ := h
    exact .inr ⟨by simpa using ‹¬postFits sema.max val count = true›, rfl, rfl, rfl, rfl⟩

/-- Within the range the semaphore keeps `val` in, the `u32` test of `post`
is the integer comparison `count ≤ max - val`. -/
theorem postFits_iff {max val count : Int} (hc : 0 < count) (hc' : count < 2 ^ 31)
    (hv : val ≤ max) (hm : max - val < 2 ^ 32) :
    postFits max val count ↔ count ≤ max - val := by
  have h1 : count % 2 ^ 32 = count := Int.emod_eq_of_lt (by omega) (by omega)
  have h2 : (max - val) % 2 ^ 32 = max - val := Int.emod_eq_of_lt (by omega) hm
  rw [postFits, decide_eq_true_iff, h1, h2]

/-- The wake loop on a queue with at least `n` sleepers succeeds: it takes
`n` threads, and the threads it takes and the queue it leaves are the old
queue rearranged. The induction is on `n`. -/
theorem wakeSleepers_spec (protocol : Lv2Protocol) (prio : PpuId → PpuPrio) (n : Nat)
    {sq : List PpuId} (hn : n ≤ sq.length) :
    ∃ ws rest, wakeSleepers protocol prio n sq = some (ws, rest) ∧ ws.length = n ∧
      (ws ++ rest).Perm sq := by
  induction n generalizing sq with
  | zero => exact ⟨[], sq, rfl, rfl, List.Perm.refl sq⟩
  | succ n ih =>
    have hne : sq ≠ [] := List.ne_nil_of_length_pos (by omega)
    obtain ⟨w, hw⟩ := schedule_isSome protocol prio hne
    have hwm : w ∈ sq := schedule_mem hw
    have hlen : n ≤ (sq.erase w).length := by
      rw [List.length_erase_of_mem hwm]
      omega
    obtain ⟨ws, rest, hr, hl, hp⟩ := ih hlen
    refine ⟨w :: ws, rest, by simp [wakeSleepers, hw, hr], by simp [hl], ?_⟩
    -- `w` in front of the rest of the queue is the queue
    exact ((hp.cons w).trans (List.perm_cons_erase hwm).symm)

/-! ### The threads around one semaphore -/

/-- Where a thread is inside a call. -/
inductive Pc where
  | idle
  /-- `sys_semaphore_wait`: asleep in `sq`. -/
  | asleep (timeout : Bool)
  /-- `sys_semaphore_wait`: taken out of `sq` by a post; it returns `CELL_OK`. -/
  | woken
  deriving DecidableEq

/-- The calls, to tag each step with the call it belongs to. -/
inductive Call where
  /-- The PPU thread is created in the IDM. -/
  | create
  /-- The PPU thread exits and leaves the IDM. -/
  | exit
  | wait
  | trywait
  | post (count : Int32)
  /-- `sys_semaphore_get_value`, with the value it writes to `*count`. -/
  | getValue (count : Int)
  deriving DecidableEq

/-- A step: the thread that takes it, its call, and the code the call
returns in this step, if it returns. -/
structure Label where
  thread : PpuId
  call : Call
  ret : Option CellError

/-- The semaphore's `val` and `sq`, the scheduler's priority table, every
thread's position and the PPU threads that exist. -/
structure State where
  val : Int
  sq : List PpuId
  prio : PrioTable
  pc : PpuId → Pc
  live : Finset PpuId

/-- The state right after a successful `sys_semaphore_create` of `sema`: its
initial value, nobody asleep, nobody inside a call. -/
def State.Init (sema : Sema) (s : State) : Prop :=
  (∃ protocol initialVal maxVal,
    semaphoreCreate protocol initialVal maxVal = .ok (sema, s.val)) ∧
  s.sq = [] ∧ (∀ t, s.pc t = .idle) ∧ s.live.card ≤ ppuIdCount

/-- The position of a thread after its step. -/
def State.move (s : State) (t : PpuId) (p : Pc) : State :=
  { s with pc := Function.update s.pc t p }

/-- The atomic steps of the calls. -/
inductive Step (sema : Sema) : State → Label → State → Prop where
  /-- A PPU thread is created in a free IDM slot. -/
  | create {s t} :
      t ∉ s.live → s.live.card < ppuIdCount →
      Step sema s ⟨t, .create, some .ok⟩ { s with live := insert t s.live }
  /-- A PPU thread outside every call exits. -/
  | exit {s t} :
      t ∈ s.live → s.pc t = .idle →
      Step sema s ⟨t, .exit, some .ok⟩ { s with live := s.live.erase t }
  /-- The CAS fast path of `sys_semaphore_wait` takes a unit. -/
  | waitFast {s t v} :
      t ∈ s.live → s.pc t = .idle → tryDec 0 s.val = some v →
      Step sema s ⟨t, .wait, some .ok⟩ { s with val := v }
  /-- `val--` under `sema.mutex` finds a unit. -/
  | waitSlowOk {s t v sq} :
      t ∈ s.live → s.pc t = .idle → waitSlow s.val s.sq t = (true, v, sq) →
      Step sema s ⟨t, .wait, some .ok⟩ { s with val := v, sq := sq }
  /-- `val--` under `sema.mutex` finds none: the thread sleeps in `sq`. -/
  | waitSleep {s t v sq} (timeout : Bool) :
      t ∈ s.live → s.pc t = .idle → waitSlow s.val s.sq t = (false, v, sq) →
      Step sema s ⟨t, .wait, none⟩
        ({ s with val := v, sq := sq, prio := s.prio.stamp t }.move t (.asleep timeout))
  /-- The thread a post woke returns `CELL_OK`. -/
  | waitWake {s t} :
      s.pc t = .woken → Step sema s ⟨t, .wait, some .ok⟩ (s.move t .idle)
  /-- The timeout of a sleeper. -/
  | waitTimedOut {s t r v sq} :
      s.pc t = .asleep true → waitTimeout s.val s.sq t = some (r, v, sq) →
      Step sema s ⟨t, .wait, some r⟩ ({ s with val := v, sq := sq }.move t .idle)
  | trywaitOk {s t v} :
      t ∈ s.live → s.pc t = .idle → tryDec 0 s.val = some v →
      Step sema s ⟨t, .trywait, some .ok⟩ { s with val := v }
  | trywaitBusy {s t} :
      t ∈ s.live → s.pc t = .idle → tryDec 0 s.val = none →
      Step sema s ⟨t, .trywait, some .ebusy⟩ s
  /-- The CAS fast path of `sys_semaphore_post`. -/
  | postFast {s t count v} :
      t ∈ s.live → s.pc t = .idle → postFast sema.max s.val count.toInt = some v →
      Step sema s ⟨t, .post count, some .ok⟩ { s with val := v }
  /-- `count <= 0` after the fast path failed. -/
  | postInval {s t count} :
      t ∈ s.live → s.pc t = .idle → count.toInt ≤ 0 →
      Step sema s ⟨t, .post count, some .einval⟩ s
  /-- The section of `sys_semaphore_post` under `sema.mutex`: the woken
  threads return from their wait. -/
  | postSlow {s t count r v ws sq} :
      t ∈ s.live → s.pc t = .idle → 0 < count.toInt →
      postSlow sema s.prio.prio s.val s.sq count.toInt = some (r, v, ws, sq) →
      Step sema s ⟨t, .post count, some r⟩
        { s with val := v, sq := sq, pc := fun u => if u ∈ ws then .woken else s.pc u }
  | getValue {s t} :
      t ∈ s.live → s.pc t = .idle →
      Step sema s ⟨t, .getValue (getValue s.val), some .ok⟩ s

/-- The states some interleaving reaches from a freshly created semaphore. -/
def Reachable (sema : Sema) : State → Prop :=
  Transition.Reachable (State.Init sema) (Step sema)

@[simp] theorem State.move_pc_self (s : State) (t : PpuId) (p : Pc) : (s.move t p).pc t = p := by
  simp [State.move]

theorem State.move_pc_other (s : State) {t u : PpuId} (p : Pc) (h : u ≠ t) :
    (s.move t p).pc u = s.pc u := by
  simp [State.move, h]

@[simp] theorem State.move_val (s : State) (t : PpuId) (p : Pc) : (s.move t p).val = s.val := rfl

@[simp] theorem State.move_sq (s : State) (t : PpuId) (p : Pc) : (s.move t p).sq = s.sq := rfl

@[simp] theorem State.move_live (s : State) (t : PpuId) (p : Pc) :
    (s.move t p).live = s.live := rfl

/-! ### The invariant -/

/-- The invariant of every reachable state. -/
structure Inv (sema : Sema) (s : State) : Prop where
  le_max : s.val ≤ sema.max
  /-- The queue holds `max(0, -val)` threads. -/
  sleepers : (s.sq.length : Int) = max 0 (-s.val)
  nodup : s.sq.Nodup
  /-- Exactly the threads asleep in `sys_semaphore_wait` are in `sq`. -/
  queued : ∀ t, t ∈ s.sq ↔ ∃ b, s.pc t = .asleep b
  /-- A thread inside a call exists. -/
  live : ∀ t, s.pc t ≠ .idle → t ∈ s.live
  card : s.live.card ≤ ppuIdCount

section Inv

variable {sema : Sema} {s : State}

theorem Inv.sq_eq_nil (h : Inv sema s) (hv : 0 ≤ s.val) : s.sq = [] := by
  have hl := h.sleepers
  rw [max_eq_left (by omega)] at hl
  exact List.eq_nil_of_length_eq_zero (by omega)

/-- At most `id_count` threads sleep: each exists, and the IDM holds no more. -/
theorem Inv.length_le (h : Inv sema s) : s.sq.length ≤ ppuIdCount := by
  have hsub : s.sq.toFinset ⊆ s.live := fun t ht => by
    obtain ⟨b, hb⟩ := (h.queued t).mp (List.mem_toFinset.mp ht)
    exact h.live t (by rw [hb]; exact fun h' => by cases h')
  calc s.sq.length = s.sq.toFinset.card := (List.toFinset_card_of_nodup h.nodup).symm
    _ ≤ s.live.card := Finset.card_le_card hsub
    _ ≤ ppuIdCount := h.card

/-- `val` never falls below `-id_count`. -/
theorem Inv.val_ge (h : Inv sema s) : -(ppuIdCount : Int) ≤ s.val := by
  have hl := h.sleepers
  have hle := h.length_le
  omega

/-- A thread outside `sys_semaphore_wait` is not in `sq`. -/
theorem Inv.not_mem_of_idle {t : PpuId} (h : Inv sema s) (hp : ∀ b, s.pc t ≠ .asleep b) :
    t ∉ s.sq := fun ht => by
  obtain ⟨b, hb⟩ := (h.queued t).mp ht
  exact hp b hb

/-- A step that only changes `val`, while no thread sleeps before or after. -/
theorem Inv.setVal {v : Int} (h : Inv sema s) (hv : 0 ≤ s.val) (hv' : 0 ≤ v)
    (hle : v ≤ sema.max) : Inv sema { s with val := v } where
  le_max := hle
  sleepers := by
    show (s.sq.length : Int) = max 0 (-v)
    rw [h.sq_eq_nil hv, max_eq_left (by omega)]
    rfl
  nodup := h.nodup
  queued := h.queued
  live := h.live
  card := h.card

end Inv

theorem inv_init {sema : Sema} {s : State} (h : s.Init sema) : Inv sema s := by
  obtain ⟨⟨protocol, initialVal, maxVal, hc⟩, hsq, hpc, hcard⟩ := h
  obtain ⟨h0, hle⟩ := semaphoreCreate_ok hc
  exact {
    le_max := hle
    sleepers := by rw [hsq, max_eq_left (by omega)]; rfl
    nodup := by simp [hsq]
    queued := fun t => by simp [hsq, hpc]
    live := fun t ht => absurd (hpc t) ht
    card := hcard }

/-! ### One lemma per kind of step -/

section Steps

variable {sema : Sema} {s : State} {t : PpuId}

theorem inv_create (h : Inv sema s) (hcard : s.live.card < ppuIdCount) :
    Inv sema { s with live := insert t s.live } where
  le_max := h.le_max
  sleepers := h.sleepers
  nodup := h.nodup
  queued := h.queued
  live u hu := Finset.mem_insert_of_mem (h.live u hu)
  card := (Finset.card_insert_le t s.live).trans hcard

theorem inv_exit (h : Inv sema s) (hpc : s.pc t = .idle) :
    Inv sema { s with live := s.live.erase t } where
  le_max := h.le_max
  sleepers := h.sleepers
  nodup := h.nodup
  queued := h.queued
  live u hu := Finset.mem_erase.mpr ⟨fun hut => hu (hut ▸ hpc), h.live u hu⟩
  card := (Finset.card_erase_le).trans h.card

theorem inv_waitSleep {v : Int} {sq : List PpuId} (h : Inv sema s) (hlive : t ∈ s.live)
    (hpc : s.pc t = .idle) (hl : waitSlow s.val s.sq t = (false, v, sq)) (timeout : Bool) :
    Inv sema ({ s with val := v, sq := sq, prio := s.prio.stamp t }.move t (.asleep timeout)) := by
  obtain ⟨hv, rfl, rfl⟩ := waitSlow_false hl
  have ht : t ∉ s.sq := h.not_mem_of_idle (by simp [hpc])
  have hs := h.sleepers
  have hm := h.le_max
  refine ⟨by simp only [State.move_val]; omega, ?_, List.nodup_cons.mpr ⟨ht, h.nodup⟩,
    fun u => ?_, fun u hu => ?_, h.card⟩
  · -- one more sleeper, one more unit of debt
    simp only [State.move_sq, State.move_val, List.length_cons]
    omega
  · by_cases hut : u = t
    · subst hut
      simp
    · simp [State.move_pc_other _ _ hut, hut, h.queued u]
  · by_cases hut : u = t
    · subst hut
      exact hlive
    · exact h.live u (by rwa [State.move_pc_other _ _ hut] at hu)

theorem inv_waitWake (h : Inv sema s) (hpc : s.pc t = .woken) : Inv sema (s.move t .idle) := by
  have ht : t ∉ s.sq := h.not_mem_of_idle (by simp [hpc])
  refine ⟨h.le_max, h.sleepers, h.nodup, fun u => ?_, fun u hu => ?_, h.card⟩
  · by_cases hut : u = t
    · subst hut
      simp [ht]
    · simp [State.move_pc_other _ _ hut, h.queued u]
  · by_cases hut : u = t
    · subst hut
      simp at hu
    · exact h.live u (by rwa [State.move_pc_other _ _ hut] at hu)

theorem inv_waitTimedOut {r : CellError} {v : Int} {sq : List PpuId} (h : Inv sema s)
    (hpc : s.pc t = .asleep true) (hl : waitTimeout s.val s.sq t = some (r, v, sq)) :
    Inv sema ({ s with val := v, sq := sq }.move t .idle) := by
  have ht : t ∈ s.sq := (h.queued t).mpr ⟨true, hpc⟩
  obtain ⟨hv, -, rfl, rfl⟩ := waitTimeout_of_mem ht hl
  have hs := h.sleepers
  have hlen := List.length_erase_of_mem ht
  have hpos : 0 < s.sq.length := List.length_pos_of_mem ht
  have hmax := sema.max_pos
  refine ⟨by simp only [State.move_val]; omega, ?_, h.nodup.erase t, fun u => ?_,
    fun u hu => ?_, h.card⟩
  · -- one sleeper less, one unit of debt given back
    simp only [State.move_sq, State.move_val]
    omega
  · by_cases hut : u = t
    · subst hut
      simp [not_mem_erase_self h.nodup]
    · simp [State.move_pc_other _ _ hut, mem_erase_iff h.nodup, hut, h.queued u]
  · by_cases hut : u = t
    · subst hut
      simp at hu
    · exact h.live u (by rwa [State.move_pc_other _ _ hut] at hu)

/-- In a state of the invariant the `u32` test of `post` is
`count ≤ max - val`: `max - val` lies in `[0, 2^31 + id_count)`. -/
theorem Inv.fits_iff (h : Inv sema s) {count : Int32} (hc : 0 < count.toInt) :
    postFits sema.max s.val count.toInt ↔ count.toInt ≤ sema.max - s.val := by
  have hv := h.val_ge
  have hm := sema.max_lt
  simp only [ppuIdCount] at hv
  exact postFits_iff hc count.toInt_lt h.le_max (by omega)

theorem inv_postSlow {count : Int32} {r : CellError} {v : Int} {ws sq : List PpuId}
    (h : Inv sema s) (hc : 0 < count.toInt)
    (hl : postSlow sema s.prio.prio s.val s.sq count.toInt = some (r, v, ws, sq)) :
    Inv sema { s with val := v, sq := sq, pc := fun u => if u ∈ ws then .woken else s.pc u } := by
  rcases postSlow_some hl with ⟨hfits, -, rfl, hw⟩ | ⟨-, -, rfl, rfl, rfl⟩
  · have hle : count.toInt ≤ sema.max - s.val := (h.fits_iff hc).mp hfits
    have hs := h.sleepers
    -- no more threads are woken than sleep
    have hn : (min (-(min s.val 0)) count.toInt).toNat ≤ s.sq.length := by omega
    obtain ⟨ws', rest, hw', hlen, hperm⟩ := wakeSleepers_spec sema.protocol s.prio.prio _ hn
    rw [hw, Option.some.injEq, Prod.mk.injEq] at hw'
    obtain ⟨rfl, rfl⟩ := hw'
    obtain ⟨-, hnd, hdis⟩ := List.nodup_append.mp (hperm.nodup_iff.mpr h.nodup)
    have hl2 : ws.length + sq.length = s.sq.length := by
      rw [← List.length_append]
      exact hperm.length_eq
    have hmem : ∀ u, u ∈ sq ↔ u ∈ s.sq ∧ u ∉ ws := fun u =>
      ⟨fun hu => ⟨hperm.mem_iff.mp (List.mem_append_right _ hu), fun hw => hdis u hw u hu rfl⟩,
        fun ⟨hu, hnw⟩ => (List.mem_append.mp (hperm.mem_iff.mpr hu)).resolve_left hnw⟩
    refine ⟨by show s.val + count.toInt ≤ sema.max; omega, ?_, hnd, fun u => ?_, fun u hu => ?_,
      h.card⟩
    · -- `min(count, sleepers)` sleepers leave, `count` units come in
      show (sq.length : Int) = max 0 (-(s.val + count.toInt))
      omega
    · by_cases hu : u ∈ ws
      · simp only [hu, if_true]
        exact ⟨fun hs => absurd hu ((hmem u).mp hs).2, fun ⟨b, hb⟩ => by cases hb⟩
      · simp only [hu, if_false, hmem u, not_false_eq_true, and_true]
        exact h.queued u
    · by_cases hw : u ∈ ws
      · obtain ⟨b, hb⟩ := (h.queued u).mp (hperm.mem_iff.mp (List.mem_append_left _ hw))
        exact h.live u (by rw [hb]; exact fun h' => by cases h')
      · exact h.live u (by simpa [hw] using hu)
  · -- `CELL_EBUSY`: nothing changes
    have hpc : (fun u => if u ∈ ([] : List PpuId) then Pc.woken else s.pc u) = s.pc :=
      funext fun u => by simp
    rw [hpc]
    exact h

/-- Every step keeps the invariant. -/
theorem inv_step : Transition.Preserved (Step sema) (Inv sema) := by
  intro s l s' h hs
  cases hs with
  | create _ hcard => exact inv_create h hcard
  | exit _ hpc => exact inv_exit h hpc
  | waitFast _ _ hl =>
    obtain ⟨hv, rfl⟩ := tryDec_some hl
    exact h.setVal (by omega) (by omega) (by have := h.le_max; omega)
  | waitSlowOk _ _ hl =>
    obtain ⟨hv, rfl, rfl⟩ := waitSlow_true hl
    exact h.setVal (by omega) (by omega) (by have := h.le_max; omega)
  | waitSleep timeout hlive hpc hl => exact inv_waitSleep h hlive hpc hl timeout
  | waitWake hpc => exact inv_waitWake h hpc
  | waitTimedOut hpc hl => exact inv_waitTimedOut h hpc hl
  | trywaitOk _ _ hl =>
    obtain ⟨hv, rfl⟩ := tryDec_some hl
    exact h.setVal (by omega) (by omega) (by have := h.le_max; omega)
  | trywaitBusy => exact h
  | postFast _ _ hl =>
    obtain ⟨hv, hc, hle, rfl⟩ := postFast_some hl
    exact h.setVal hv (by omega) (by omega)
  | postInval => exact h
  | postSlow _ _ hc hl => exact inv_postSlow h hc hl
  | getValue => exact h

theorem inv_reachable {s : State} (h : Reachable sema s) : Inv sema s :=
  Transition.Reachable.invariant (fun _ => inv_init) inv_step h

end Steps

/-! ### What the invariant gives -/

section Returns

variable {sema : Sema} {s s' : State} {t : PpuId}

/-- A post of `0 < count ≤ max - val` returns `CELL_OK`, adds `count` to
`val`, and wakes the first `min(count, sleepers)` threads `schedule` takes
with the semaphore's protocol. -/
theorem post_fits {count : Int32} {r : Option CellError} (h : Inv sema s)
    (hs : Step sema s ⟨t, .post count, r⟩ s') (hc : 0 < count.toInt)
    (hle : count.toInt ≤ sema.max - s.val) :
    r = some .ok ∧ s'.val = s.val + count.toInt ∧
      ∃ ws, wakeSleepers sema.protocol s.prio.prio (min s.sq.length count.toInt.toNat) s.sq =
          some (ws, s'.sq) ∧
        ws.length = min s.sq.length count.toInt.toNat ∧ ∀ w ∈ ws, s'.pc w = .woken := by
  cases hs with
  | postFast _ _ hl =>
    obtain ⟨hv, -, -, rfl⟩ := postFast_some hl
    refine ⟨rfl, rfl, [], ?_, by simp [h.sq_eq_nil hv], by simp⟩
    simp [h.sq_eq_nil hv, wakeSleepers]
  | postInval _ _ hc' => omega
  | @postSlow _ _ r v ws sq _ _ _ hl =>
    rcases postSlow_some hl with ⟨-, rfl, rfl, hw⟩ | ⟨hfits, -⟩
    · -- the number the loop wakes is `min(count, sleepers)`
      have hs := h.sleepers
      have hn : (min (-(min s.val 0)) count.toInt).toNat = min s.sq.length count.toInt.toNat := by
        omega
      rw [hn] at hw
      obtain ⟨ws', rest, hw', hlen, -⟩ :=
        wakeSleepers_spec sema.protocol s.prio.prio _ (Nat.min_le_left s.sq.length _)
      rw [hw, Option.some.injEq, Prod.mk.injEq] at hw'
      obtain ⟨rfl, rfl⟩ := hw'
      exact ⟨rfl, rfl, ws, hw, hlen, fun w hw => by simp [hw]⟩
    · rw [(h.fits_iff hc).mpr hle] at hfits
      cases hfits

/-- A post that would take `val` above `max` returns `CELL_EBUSY` and
changes nothing. -/
theorem post_exceeds {count : Int32} {r : Option CellError} (h : Inv sema s)
    (hs : Step sema s ⟨t, .post count, r⟩ s') (hgt : sema.max - s.val < count.toInt) :
    r = some .ebusy ∧ s' = s := by
  have hm := h.le_max
  cases hs with
  | postFast _ _ hl =>
    obtain ⟨-, -, hle, -⟩ := postFast_some hl
    omega
  | postInval _ _ hc => omega
  | postSlow _ _ hc hl =>
    rcases postSlow_some hl with ⟨hfits, -⟩ | ⟨-, rfl, rfl, rfl, rfl⟩
    · have := (h.fits_iff hc).mp hfits
      omega
    · refine ⟨rfl, ?_⟩
      have hpc : (fun u => if u ∈ ([] : List PpuId) then Pc.woken else s.pc u) = s.pc :=
        funext fun u => by simp
      rw [hpc]

/-- A post of `count <= 0` returns `CELL_EINVAL` and changes nothing. -/
theorem post_nonpositive {count : Int32} {r : Option CellError}
    (hs : Step sema s ⟨t, .post count, r⟩ s') (hc : count.toInt ≤ 0) :
    r = some .einval ∧ s' = s := by
  cases hs with
  | postFast _ _ hl =>
    obtain ⟨-, hc', -⟩ := postFast_some hl
    omega
  | postInval => exact ⟨rfl, rfl⟩
  | postSlow _ _ hc' => omega

/-- `sys_semaphore_get_value` writes `max(0, val)`, a value in `[0, max]`. -/
theorem getValue_reports {v : Int} {r : Option CellError} (h : Inv sema s)
    (hs : Step sema s ⟨t, .getValue v, r⟩ s') :
    v = max 0 s.val ∧ 0 ≤ v ∧ v ≤ sema.max := by
  cases hs with
  | getValue =>
    have hm := h.le_max
    have hp := sema.max_pos
    refine ⟨rfl, le_max_left 0 s.val, ?_⟩
    exact max_le hp.le hm

/-- A live idle thread's post of `0 < count ≤ max - val` can always run: the section under
`sema.mutex` passes its test and wakes `min(count, sleepers)` threads, of which there are
enough in `sq`. -/
theorem post_completes {count : Int32} (h : Inv sema s) (ht : t ∈ s.live) (hpc : s.pc t = .idle)
    (hc : 0 < count.toInt) (hle : count.toInt ≤ sema.max - s.val) :
    ∃ s', Step sema s ⟨t, .post count, some .ok⟩ s' := by
  have hfits := (h.fits_iff hc).mpr hle
  have hs := h.sleepers
  -- the loop takes no more sleepers than `sq` holds
  have hn : (min (-(min s.val 0)) count.toInt).toNat ≤ s.sq.length := by omega
  obtain ⟨ws, rest, hw, -, -⟩ := wakeSleepers_spec sema.protocol s.prio.prio _ hn
  have hl : postSlow sema s.prio.prio s.val s.sq count.toInt =
      some (.ok, s.val + count.toInt, ws, rest) := by
    simp [postSlow, hfits, hw]
  exact ⟨_, .postSlow ht hpc hc hl⟩

end Returns

/-- What the semaphore guarantees in a state of any interleaving of
`sys_semaphore_wait` (with timeouts), `sys_semaphore_trywait`,
`sys_semaphore_post`, `sys_semaphore_get_value` and the creation and exit
of PPU threads. -/
structure SemaContract (sema : Sema) (s : State) : Prop where
  le_max : s.val ≤ sema.max
  /-- The sleep queue holds `max(0, -val)` threads. -/
  sleepers : (s.sq.length : Int) = max 0 (-s.val)
  empty : 0 ≤ s.val → s.sq = []
  /-- A post of `0 < count ≤ max - val` raises `val` by `count` and wakes
  `min(count, sleepers)` threads, those `schedule` takes in turn. -/
  post_ok : ∀ t count r s', Step sema s ⟨t, .post count, r⟩ s' → 0 < count.toInt →
    count.toInt ≤ sema.max - s.val →
    r = some .ok ∧ s'.val = s.val + count.toInt ∧
      ∃ ws, wakeSleepers sema.protocol s.prio.prio (min s.sq.length count.toInt.toNat) s.sq =
          some (ws, s'.sq) ∧
        ws.length = min s.sq.length count.toInt.toNat ∧ ∀ w ∈ ws, s'.pc w = .woken
  /-- Such a post by a live idle thread can always complete. -/
  post_completes : ∀ t count, t ∈ s.live → s.pc t = .idle → 0 < count.toInt →
    count.toInt ≤ sema.max - s.val → ∃ s', Step sema s ⟨t, .post count, some .ok⟩ s'
  /-- A post that would exceed `max` returns `CELL_EBUSY` and changes nothing. -/
  post_busy : ∀ t count r s', Step sema s ⟨t, .post count, r⟩ s' →
    sema.max - s.val < count.toInt → r = some .ebusy ∧ s' = s
  /-- A post of `count <= 0` returns `CELL_EINVAL` and changes nothing. -/
  post_inval : ∀ t count r s', Step sema s ⟨t, .post count, r⟩ s' → count.toInt ≤ 0 →
    r = some .einval ∧ s' = s
  /-- `sys_semaphore_get_value` reports `max(0, val)`. -/
  get_value : ∀ t v r s', Step sema s ⟨t, .getValue v, r⟩ s' →
    v = max 0 s.val ∧ 0 ≤ v ∧ v ≤ sema.max

/-- Every reachable state of the semaphore keeps its contract. -/
theorem sema_contract {sema : Sema} {s : State} (hs : Reachable sema s) : SemaContract sema s := by
  have h := inv_reachable hs
  exact {
    le_max := h.le_max
    sleepers := h.sleepers
    empty := h.sq_eq_nil
    post_ok := fun t count r s' hstep hc hle => post_fits h hstep hc hle
    post_completes := fun t count ht hpc hc hle => post_completes h ht hpc hc hle
    post_busy := fun t count r s' hstep hgt => post_exceeds h hstep hgt
    post_inval := fun t count r s' hstep hc => post_nonpositive hstep hc
    get_value := fun t v r s' hstep => getValue_reports h hstep }

/-- A FIFO semaphore of `max = 3` created with one unit, no thread yet. -/
def freshSema : Sema := ⟨.fifo, 3, by decide, by decide⟩

/-- The state `sys_semaphore_create` leaves for `freshSema`. -/
def State.fresh : State := ⟨1, [], ⟨0, fun _ => ⟨0, 0⟩⟩, fun _ => .idle, ∅⟩

theorem State.fresh_init : State.fresh.Init freshSema :=
  ⟨⟨.fifo, 1, 3, rfl⟩, rfl, fun _ => rfl, by decide⟩

/-- The thread with id 3. -/
def semaThree : PpuId := ⟨3, PpuId.pos_three⟩

/-- The thread with id 4. -/
def semaFour : PpuId := ⟨4, PpuId.pos_four⟩

/-- On `freshSema`, thread 3 takes the unit, thread 4 finds none and sleeps, and thread 3's
post of one unit wakes it. -/
theorem sema_contract_post_wakes :
    ∃ s, Reachable freshSema s ∧ s.val = 0 ∧ s.sq = [] ∧ s.pc semaFour = .woken ∧
      SemaContract freshSema s := by
  have h₀ : Transition.Reachable (State.Init freshSema) (Step freshSema) State.fresh :=
    Transition.Reachable.of_init State.fresh_init
  have h₁ := h₀.next (Step.create (t := semaThree) (by decide) (by decide))
  have h₂ := h₁.next (Step.create (t := semaFour) (by decide) (by decide))
  have h₃ := h₂.next (Step.waitFast (t := semaThree) (by decide) rfl rfl)
  have h₄ := h₃.next (Step.waitSleep (t := semaFour) false (by decide) rfl rfl)
  have h₅ := h₄.next (@Step.postSlow _ _ semaThree 1 _ _ _ _ (by decide) rfl (by decide) rfl)
  exact ⟨_, h₅, rfl, rfl, rfl, sema_contract h₅⟩

end Rpcs3.Lv2.Semaphore
