import Rpcs3.Lv2.Sync
import Rpcs3.Lib.Transition

/-! `lv2_event_queue` (sys_event.h) and the calls `sys_event_queue_create`,
`lv2_event_queue::send` (called by `sys_event_port_send` and by the kernel's
senders), `sys_event_queue_receive`, `sys_event_queue_tryreceive`,
`sys_event_queue_drain` and `sys_event_queue_destroy` (sys_event.cpp).

Each section under the queue's `mutex` is one step, together with the IDM
lookup that guards it. `destroy` keeps the mutex from its IDM section until
every sleeper is woken, so it is one step too. The queue's id and its
`exists` count go together (`live`): `destroy` withdraws the id and
decrements `exists` in one IDM-locked section, for a queue created once.

Receivers are PPU threads asleep in `pq`. The SPU receivers of `sq` are not
among these calls, so `sq` stays empty and `send` looks for sleepers in `pq`
only. The code never reads an event, so the model keeps the event type `α`
abstract; in the source it is `lv2_event`, four `u64`. Savestates
(`cpu_flag::again`) are outside the model.

`accepted` and `consumed` are ghost state: the events that sends accepted,
in order, and the events that left the queue, in order, each with the
receiver that got it (`none` when `drain` or `destroy` discarded it). -/
namespace Rpcs3.Lv2.EventQueue

open Rpcs3.Lv2.Sync

/-- `lv2_event`: source and three data words. -/
abbrev Lv2Event := UInt64 × UInt64 × UInt64 × UInt64

/-- `SYS_PPU_QUEUE` or `SYS_SPU_QUEUE`. -/
inductive QueueType where
  | ppu
  | spu
  deriving DecidableEq

/-- An event queue as `sys_event_queue_create` made it. -/
structure Queue where
  protocol : Lv2Protocol
  type : QueueType
  size : Nat
  size_pos : 0 < size
  size_le : size ≤ 127

def sysPpuQueue : UInt32 := 1
def sysSpuQueue : UInt32 := 2
def sysEventQueueDestroyForce : Int := 1

/-- The checks of `sys_event_queue_create`. -/
def eventQueueCreate (protocol : Lv2Protocol) (type : UInt32) (size : Int32) :
    Except CellError Queue :=
  if h : size.toInt ≤ 0 ∨ size.toInt > 127 then .error .einval
  else if protocol ≠ .fifo ∧ protocol ≠ .priority then .error .einval
  else if type ≠ sysPpuQueue ∧ type ≠ sysSpuQueue then .error .einval
  else .ok ⟨protocol, if type = sysPpuQueue then .ppu else .spu, size.toInt.toNat,
    by omega, by omega⟩

/-! ### The sections -/

section Sections

variable {α : Type}

/-- `lv2_event_queue::send` under the mutex: `CELL_ENOTCONN` once the queue
is destroyed; with nobody asleep the event is buffered if there is room and
refused with `CELL_EBUSY` if not; otherwise `schedule` picks a receiver,
which leaves `pq` with the event in its registers. `schedule` picks nobody
exactly when `pq` is empty (`schedule_eq_none`), the source's `!pq`.
Returns the code, the buffer, `pq` and the receiver. -/
def send (q : Queue) (prio : PpuId → PpuPrio) (live : Bool) (events : List α)
    (pq : List PpuId) (event : α) : CellError × List α × List PpuId × Option PpuId :=
  if live = false then (.enotconn, events, pq, none)
  else
    match schedule q.protocol prio pq with
    | none =>
      if events.length < q.size then (.ok, events ++ [event], pq, none)
      else (.ebusy, events, pq, none)
    | some t => (.ok, events, pq.erase t, some t)

/-- The section of `sys_event_queue_receive`: `CELL_EINVAL` for an SPU
queue; the oldest event if there is one; otherwise the thread sleeps in
`pq`, which the lambda reports as `CELL_EBUSY`. -/
def receiveSection (q : Queue) (events : List α) (pq : List PpuId) (t : PpuId) :
    CellError × List α × List PpuId × Option α :=
  if q.type ≠ .ppu then (.einval, events, pq, none)
  else
    match events with
    | [] => (.ebusy, [], emplace pq t, none)
    | e :: rest => (.ok, rest, pq, some e)

/-- The loop of `sys_event_queue_tryreceive`, `count` events in: take the
front while `count < size` and the buffer is non-empty. Returns the events
taken and the buffer left. -/
def tryreceiveLoop (size : Int) (count : Nat) : List α → List α × List α
  | [] => ([], [])
  | e :: rest =>
    if (count : Int) < size then Prod.map (List.cons e) id (tryreceiveLoop size (count + 1) rest)
    else ([], e :: rest)

/-- `sys_event_queue_tryreceive`: `CELL_ESRCH` for a destroyed queue,
`CELL_EINVAL` for an SPU queue, else the loop. -/
def tryreceive (q : Queue) (live : Bool) (events : List α) (size : Int) :
    CellError × List α × List α :=
  if live = false then (.esrch, [], events)
  else if q.type ≠ .ppu then (.einval, [], events)
  else (.ok, tryreceiveLoop size 0 events)

/-- `sys_event_queue_destroy`: a mode other than 0 and
`SYS_EVENT_QUEUE_DESTROY_FORCE` is `CELL_EINVAL`; without force a queue with
sleepers is `CELL_EBUSY` and stays. Returns the code, `live`, `pq` and the
receivers woken with `CELL_ECANCELED`. The buffer is left as it is. -/
def destroy (mode : Int) (live : Bool) (pq : List PpuId) :
    CellError × Bool × List PpuId × List PpuId :=
  if mode ≠ 0 ∧ mode ≠ sysEventQueueDestroyForce then (.einval, live, pq, [])
  else if live = false then (.esrch, live, pq, [])
  else if mode = 0 ∧ pq ≠ [] then (.ebusy, live, pq, [])
  else (.ok, false, [], pq)

/-! What each section can do. -/

theorem send_eq {q : Queue} {prio : PpuId → PpuPrio} {live : Bool} {events events' : List α}
    {pq pq' : List PpuId} {e : α} {r : CellError} {w : Option PpuId}
    (h : send q prio live events pq e = (r, events', pq', w)) :
    (live = false ∧ r = .enotconn ∧ events' = events ∧ pq' = pq ∧ w = none) ∨
      (live = true ∧ pq = [] ∧ events.length < q.size ∧ r = .ok ∧ events' = events ++ [e] ∧
        pq' = pq ∧ w = none) ∨
      (live = true ∧ pq = [] ∧ q.size ≤ events.length ∧ r = .ebusy ∧ events' = events ∧
        pq' = pq ∧ w = none) ∨
      (live = true ∧ ∃ v, schedule q.protocol prio pq = some v ∧ r = .ok ∧ events' = events ∧
        pq' = pq.erase v ∧ w = some v) := by
  unfold send at h
  cases live with
  | false =>
    simp only [if_true, Prod.mk.injEq] at h
    exact .inl ⟨rfl, h.1.symm, h.2.1.symm, h.2.2.1.symm, h.2.2.2.symm⟩
  | true =>
    simp only [Bool.true_eq_false, if_false] at h
    cases hv : schedule q.protocol prio pq with
    | none =>
      rw [hv] at h
      have hpq := schedule_eq_none hv
      by_cases hl : events.length < q.size
      · simp only [hl, if_true, Prod.mk.injEq] at h
        exact .inr (.inl ⟨rfl, hpq, hl, h.1.symm, h.2.1.symm, h.2.2.1.symm, h.2.2.2.symm⟩)
      · simp only [hl, if_false, Prod.mk.injEq] at h
        exact .inr (.inr (.inl ⟨rfl, hpq, by omega, h.1.symm, h.2.1.symm, h.2.2.1.symm,
          h.2.2.2.symm⟩))
    | some v =>
      rw [hv] at h
      simp only [Prod.mk.injEq] at h
      exact .inr (.inr (.inr ⟨rfl, v, rfl, h.1.symm, h.2.1.symm, h.2.2.1.symm, h.2.2.2.symm⟩))

theorem receiveSection_ebusy {q : Queue} {events events' : List α} {pq pq' : List PpuId}
    {t : PpuId} {got : Option α} (h : receiveSection q events pq t = (.ebusy, events', pq', got)) :
    q.type = .ppu ∧ events = [] ∧ events' = [] ∧ pq' = emplace pq t ∧ got = none := by
  unfold receiveSection at h
  split at h
  · cases h
  · rename_i htype
    cases events with
    | nil =>
      simp only [Prod.mk.injEq] at h
      exact ⟨by simpa using htype, rfl, h.2.1.symm, h.2.2.1.symm, h.2.2.2.symm⟩
    | cons e rest => cases h

theorem receiveSection_ne {q : Queue} {events events' : List α} {pq pq' : List PpuId}
    {t : PpuId} {r : CellError} {got : Option α}
    (h : receiveSection q events pq t = (r, events', pq', got)) (hr : r ≠ .ebusy) :
    pq' = pq ∧ events = got.toList ++ events' ∧ (got = none → events' = events) := by
  unfold receiveSection at h
  split at h
  · simp only [Prod.mk.injEq] at h
    obtain ⟨-, rfl, rfl, rfl⟩ := h
    exact ⟨rfl, rfl, fun _ => rfl⟩
  · cases events with
    | nil =>
      simp only [Prod.mk.injEq] at h
      exact absurd h.1.symm hr
    | cons e rest =>
      simp only [Prod.mk.injEq] at h
      obtain ⟨-, rfl, rfl, rfl⟩ := h
      exact ⟨rfl, rfl, fun h => by cases h⟩

/-- The loop takes the first `size - count` events, or all of them. -/
theorem tryreceiveLoop_eq (size : Int) (count : Nat) (events : List α) :
    tryreceiveLoop size count events =
      (events.take (size - count).toNat, events.drop (size - count).toNat) := by
  induction events generalizing count with
  | nil => simp [tryreceiveLoop]
  | cons e rest ih =>
    simp only [tryreceiveLoop]
    split
    · rename_i hc
      have hk : (size - count).toNat = (size - ↑(count + 1)).toNat + 1 := by omega
      rw [ih, hk]
      rfl
    · rename_i hc
      have hk : (size - count).toNat = 0 := by omega
      rw [hk]
      rfl

theorem tryreceive_eq {q : Queue} {live : Bool} {events got left : List α} {size : Int}
    {r : CellError} (h : tryreceive q live events size = (r, got, left)) :
    events = got ++ left ∧ (live = false → got = []) ∧
      (live = true → q.type = .ppu → r = .ok ∧ got = events.take size.toNat ∧
        left = events.drop size.toNat) := by
  unfold tryreceive at h
  cases live with
  | false =>
    simp only [if_true, Prod.mk.injEq] at h
    obtain ⟨-, rfl, rfl⟩ := h
    exact ⟨rfl, fun _ => rfl, (fun h => by cases h)⟩
  | true =>
    simp only [Bool.true_eq_false, if_false] at h
    split at h
    · simp only [Prod.mk.injEq] at h
      obtain ⟨-, rfl, rfl⟩ := h
      exact ⟨rfl, (fun h => by cases h), fun _ ht => absurd ht ‹_›⟩
    · have h0 : (size - ((0 : Nat) : Int)).toNat = size.toNat := by omega
      rw [tryreceiveLoop_eq, h0] at h
      simp only [Prod.mk.injEq] at h
      obtain ⟨rfl, rfl, rfl⟩ := h
      exact ⟨(List.take_append_drop _ _).symm, (fun h => by cases h), fun _ _ => ⟨rfl, rfl, rfl⟩⟩

theorem destroy_eq {mode : Int} {live live' : Bool} {pq pq' woken : List PpuId} {r : CellError}
    (h : destroy mode live pq = (r, live', pq', woken)) :
    (r = .ok ∧ live = true ∧ live' = false ∧ pq' = [] ∧ woken = pq ∧ (mode = 0 → pq = [])) ∨
      (r ≠ .ok ∧ live' = live ∧ pq' = pq ∧ woken = []) := by
  unfold destroy at h
  split at h
  · simp only [Prod.mk.injEq] at h
    obtain ⟨rfl, rfl, rfl, rfl⟩ := h
    exact .inr ⟨by decide, rfl, rfl, rfl⟩
  · split at h
    · simp only [Prod.mk.injEq] at h
      obtain ⟨rfl, rfl, rfl, rfl⟩ := h
      exact .inr ⟨by decide, rfl, rfl, rfl⟩
    · rename_i hl
      split at h
      · simp only [Prod.mk.injEq] at h
        obtain ⟨rfl, rfl, rfl, rfl⟩ := h
        exact .inr ⟨by decide, rfl, rfl, rfl⟩
      · rename_i hm
        simp only [Prod.mk.injEq] at h
        obtain ⟨rfl, rfl, rfl, rfl⟩ := h
        refine .inl ⟨rfl, by simpa using hl, rfl, rfl, rfl, fun h0 => ?_⟩
        by_contra hne
        exact hm ⟨h0, hne⟩

theorem destroy_busy_eq {pq : List PpuId} (hpq : pq ≠ []) :
    destroy 0 true pq = (.ebusy, true, pq, []) := by
  simp [destroy, hpq]

theorem destroy_force_eq (pq : List PpuId) :
    destroy sysEventQueueDestroyForce true pq = (.ok, false, [], pq) := by
  simp [destroy, sysEventQueueDestroyForce]

end Sections

/-! ### The threads -/

/-- Where a thread is inside `sys_event_queue_receive`. -/
inductive Pc (α : Type) where
  | idle
  /-- Asleep in `pq`. -/
  | asleep (timeout : Bool)
  /-- Taken out of `pq` by a send (`CELL_OK` and the event in `gpr[4..7]`)
  or by a forced destroy (`CELL_ECANCELED` in `gpr[3]`). -/
  | woken (ret : CellError) (event : Option α)

def Pc.isAsleep {α : Type} : Pc α → Bool
  | .asleep _ => true
  | _ => false

@[simp] theorem Pc.isAsleep_idle {α : Type} : (Pc.idle : Pc α).isAsleep = false := rfl
@[simp] theorem Pc.isAsleep_asleep {α : Type} (b : Bool) : (Pc.asleep b : Pc α).isAsleep = true :=
  rfl
@[simp] theorem Pc.isAsleep_woken {α : Type} (r : CellError) (e : Option α) :
    (Pc.woken r e).isAsleep = false := rfl

inductive Call (α : Type) where
  | send (event : α)
  | receive
  | tryreceive (size : Int)
  | drain
  | destroy (mode : Int)

/-- A step: the thread that takes it, its call, and the code and events the
call returns in this step, if it returns. -/
structure Label (α : Type) where
  thread : PpuId
  call : Call α
  ret : Option (CellError × List α)

structure State (α : Type) where
  live : Bool
  events : List α
  pq : List PpuId
  prio : PrioTable
  pc : PpuId → Pc α
  accepted : List α
  consumed : List (α × Option PpuId)

variable {α : Type}

/-- A freshly created queue, with nobody inside a call. -/
def State.Init (s : State α) : Prop :=
  s.live = true ∧ s.events = [] ∧ s.pq = [] ∧ (∀ t, s.pc t = .idle) ∧ s.accepted = [] ∧
    s.consumed = []

/-- The buffered events a call can still take: none once the queue is
destroyed. -/
def State.pending (s : State α) : List α := if s.live then s.events else []

def State.move (s : State α) (t : PpuId) (p : Pc α) : State α :=
  { s with pc := Function.update s.pc t p }

/-- The threads `ws`, taken out of `pq`, wake up at `p`. -/
def State.wake (s : State α) (ws : List PpuId) (p : Pc α) : State α :=
  { s with pc := fun u => if u ∈ ws then p else s.pc u }

inductive Step (q : Queue) : State α → Label α → State α → Prop where
  | send {s t e r events pq w} :
      s.pc t = .idle → send q s.prio.prio s.live s.events s.pq e = (r, events, pq, w) →
      Step q s ⟨t, .send e, some (r, [])⟩
        ({ s with events := events, pq := pq,
                  accepted := if r = CellError.ok then s.accepted ++ [e] else s.accepted,
                  consumed := s.consumed ++ w.toList.map (fun u => (e, some u)) }.wake
          w.toList (.woken .ok (some e)))
  | receiveSrch {s t} :
      s.pc t = .idle → s.live = false → Step q s ⟨t, .receive, some (.esrch, [])⟩ s
  | receiveEnter {s t r events pq got} :
      s.pc t = .idle → s.live = true → receiveSection q s.events s.pq t = (r, events, pq, got) →
      r ≠ .ebusy →
      Step q s ⟨t, .receive, some (r, got.toList)⟩
        { s with events := events, pq := pq,
                 consumed := s.consumed ++ got.toList.map (fun e => (e, some t)) }
  | receiveSleep {s t events pq got} (timeout : Bool) :
      s.pc t = .idle → s.live = true → receiveSection q s.events s.pq t = (.ebusy, events, pq, got) →
      Step q s ⟨t, .receive, none⟩
        ({ s with events := events, pq := pq, prio := s.prio.stamp t }.move t (.asleep timeout))
  | receiveWake {s t r e} :
      s.pc t = .woken r e → Step q s ⟨t, .receive, some (r, e.toList)⟩ (s.move t .idle)
  /-- Under the mutex: the timeout of a receiver still in `pq`. -/
  | receiveTimedOut {s t pq} :
      s.pc t = .asleep true → unqueue s.pq t = some pq →
      Step q s ⟨t, .receive, some (.etimedout, [])⟩ ({ s with pq := pq }.move t .idle)
  | tryreceive {s t size r got events} :
      s.pc t = .idle → tryreceive q s.live s.events size = (r, got, events) →
      Step q s ⟨t, .tryreceive size, some (r, got)⟩
        { s with events := events, consumed := s.consumed ++ got.map (fun e => (e, some t)) }
  | drainSrch {s t} :
      s.pc t = .idle → s.live = false → Step q s ⟨t, .drain, some (.esrch, [])⟩ s
  | drain {s t} :
      s.pc t = .idle → s.live = true →
      Step q s ⟨t, .drain, some (.ok, [])⟩
        { s with events := [], consumed := s.consumed ++ s.events.map (fun e => (e, none)) }
  | destroy {s t mode r live pq woken} :
      s.pc t = .idle → destroy mode s.live s.pq = (r, live, pq, woken) →
      Step q s ⟨t, .destroy mode, some (r, [])⟩
        ({ s with live := live, pq := pq,
                  consumed := if r = CellError.ok then s.consumed ++ s.events.map (fun e => (e, none))
                    else s.consumed }.wake woken (.woken .ecanceled none))

def Reachable (q : Queue) : State α → Prop :=
  Transition.Reachable State.Init (Step q)

/-! ### The state updates -/

section Updates

variable (s : State α) (t u : PpuId) (p : Pc α)

@[simp] theorem State.move_pc_self : (s.move t p).pc t = p := by
  simp [State.move]

theorem State.move_pc_other {t u : PpuId} (p : Pc α) (h : u ≠ t) : (s.move t p).pc u = s.pc u := by
  simp [State.move, h]

@[simp] theorem State.move_live : (s.move t p).live = s.live := rfl
@[simp] theorem State.move_events : (s.move t p).events = s.events := rfl
@[simp] theorem State.move_pq : (s.move t p).pq = s.pq := rfl
@[simp] theorem State.move_accepted : (s.move t p).accepted = s.accepted := rfl
@[simp] theorem State.move_consumed : (s.move t p).consumed = s.consumed := rfl

@[simp] theorem State.wake_pc (ws : List PpuId) :
    (s.wake ws p).pc u = if u ∈ ws then p else s.pc u := rfl
@[simp] theorem State.wake_live (ws : List PpuId) : (s.wake ws p).live = s.live := rfl
@[simp] theorem State.wake_events (ws : List PpuId) : (s.wake ws p).events = s.events := rfl
@[simp] theorem State.wake_pq (ws : List PpuId) : (s.wake ws p).pq = s.pq := rfl
@[simp] theorem State.wake_accepted (ws : List PpuId) : (s.wake ws p).accepted = s.accepted := rfl
@[simp] theorem State.wake_consumed (ws : List PpuId) : (s.wake ws p).consumed = s.consumed := rfl

/-- A send that is refused leaves the state as it is. -/
theorem State.send_refused (e : α) {r : CellError} (hr : r ≠ .ok) :
    ({ s with events := s.events, pq := s.pq,
               accepted := if r = CellError.ok then s.accepted ++ [e] else s.accepted,
               consumed := s.consumed ++ (none : Option PpuId).toList.map (fun u => (e, some u)) }.wake
      (none : Option PpuId).toList (.woken .ok (some e))) = s := by
  cases s
  simp [State.wake, hr]

/-- A destroy that fails leaves the state as it is. -/
theorem State.destroy_refused {r : CellError} (hr : r ≠ .ok) :
    ({ s with live := s.live, pq := s.pq,
               consumed := if r = CellError.ok then s.consumed ++ s.events.map (fun e => (e, none))
                 else s.consumed }.wake [] (.woken .ecanceled none)) = s := by
  cases s
  simp [State.wake, hr]

/-- Taking events out for the receiver `t` logs them in order. -/
theorem consumed_map_fst (c : List (α × Option PpuId)) (got : List α) (o : Option PpuId) :
    (c ++ got.map (fun e => (e, o))).map Prod.fst = c.map Prod.fst ++ got := by
  simp [Function.comp_def]

end Updates

/-! ### The invariant -/

/-- The invariant of every reachable state: `pq` holds exactly the sleepers,
the buffer fits and is empty while anyone sleeps, nobody sleeps on a
destroyed queue or on an SPU queue, and the accepted events are those that
left the queue followed by those still pending. -/
structure Inv (q : Queue) (s : State α) : Prop where
  nodup : s.pq.Nodup
  queued : ∀ u, u ∈ s.pq ↔ (s.pc u).isAsleep = true
  size_le : s.events.length ≤ q.size
  busy : s.events ≠ [] → s.pq = []
  dead : s.live = false → s.pq = []
  spu : q.type ≠ .ppu → s.pq = []
  log : s.accepted = s.consumed.map Prod.fst ++ s.pending

section Steps

variable {q : Queue} {s : State α} {t : PpuId}

theorem inv_init (h : State.Init s) : Inv q s := by
  obtain ⟨hl, he, hpq, hpc, ha, hc⟩ := h
  refine ⟨by simp [hpq], fun u => by simp [hpq, hpc u], by simp [he], fun _ => hpq,
    fun _ => hpq, fun _ => hpq, ?_⟩
  simp [State.pending, ha, hc, he]

/-- A thread moves between positions outside `pq`. -/
theorem Inv.moveOut (h : Inv q s) {p : Pc α} (ht : (s.pc t).isAsleep = false)
    (hp : p.isAsleep = false) : Inv q (s.move t p) := by
  refine ⟨h.nodup, fun u => ?_, h.size_le, h.busy, h.dead, h.spu, h.log⟩
  by_cases hut : u = t
  · subst hut
    simp [h.queued u, ht, hp]
  · simp [State.move_pc_other _ _ hut, h.queued u]

theorem inv_send {e : α} {r : CellError} {events : List α} {pq : List PpuId} {w : Option PpuId}
    (h : Inv q s) (hs : send q s.prio.prio s.live s.events s.pq e = (r, events, pq, w)) :
    Inv q ({ s with events := events, pq := pq,
                    accepted := if r = CellError.ok then s.accepted ++ [e] else s.accepted,
                    consumed := s.consumed ++ w.toList.map (fun u => (e, some u)) }.wake
      w.toList (.woken .ok (some e))) := by
  rcases send_eq hs with ⟨-, rfl, rfl, rfl, rfl⟩ | ⟨hl, hpq, hlen, rfl, rfl, rfl, rfl⟩ |
    ⟨-, -, -, rfl, rfl, rfl, rfl⟩ | ⟨hl, v, hv, rfl, rfl, rfl, rfl⟩
  · rw [State.send_refused s e (by decide)]
    exact h
  · -- buffered: one more pending event
    refine ⟨by simpa using h.nodup, fun u => by simpa using h.queued u, ?_, fun _ => by simpa using hpq,
      fun _ => by simpa using hpq, fun _ => by simpa using hpq, ?_⟩
    · simp only [State.wake_events, List.length_append, List.length_cons, List.length_nil]
      omega
    · have hlog := h.log
      simp only [State.pending, hl, if_true] at hlog
      simp [State.pending, hl, hlog]
  · rw [State.send_refused s e (by decide)]
    exact h
  · -- handed to `v`: the buffer was empty, since `v` slept
    have hvq := schedule_mem hv
    have hev : s.events = [] := by
      by_contra hne
      rw [h.busy hne] at hvq
      cases hvq
    have hlog := h.log
    simp only [State.pending, hl, if_true, hev, List.append_nil] at hlog
    refine ⟨by simpa using h.nodup.erase v, fun u => ?_, by simpa using h.size_le,
      fun hne => absurd hev (by simpa using hne), fun hd => absurd hl (by simpa using hd),
      fun ht => absurd (h.spu ht ▸ hvq) List.not_mem_nil, ?_⟩
    · by_cases huv : u = v
      · subst huv
        simp [not_mem_erase_self h.nodup]
      · simp [mem_erase_iff h.nodup, huv, h.queued u]
    · simp [State.pending, hl, hev, hlog]

theorem inv_receiveEnter {r : CellError} {events : List α} {pq : List PpuId} {got : Option α}
    (h : Inv q s) (hl : s.live = true) (hs : receiveSection q s.events s.pq t = (r, events, pq, got))
    (hr : r ≠ .ebusy) :
    Inv q { s with events := events, pq := pq,
                   consumed := s.consumed ++ got.toList.map (fun e => (e, some t)) } := by
  obtain ⟨rfl, hev, -⟩ := receiveSection_ne hs hr
  have hlog := h.log
  simp only [State.pending, hl, if_true] at hlog
  refine ⟨h.nodup, h.queued, ?_,
    fun hne => h.busy fun he => hne (List.append_eq_nil_iff.mp (hev.symm.trans he)).2,
    fun hd => absurd hl (by simpa using hd), h.spu, ?_⟩
  · have := h.size_le
    rw [hev, List.length_append] at this
    simp only
    omega
  · simp only [State.pending, hl, if_true, consumed_map_fst, hlog, hev, List.append_assoc]

theorem inv_receiveSleep {events : List α} {pq : List PpuId} {got : Option α} (h : Inv q s)
    (hpc : s.pc t = .idle) (hl : s.live = true)
    (hs : receiveSection q s.events s.pq t = (.ebusy, events, pq, got)) (timeout : Bool) :
    Inv q ({ s with events := events, pq := pq, prio := s.prio.stamp t }.move t (.asleep timeout)) := by
  obtain ⟨htype, hev, rfl, rfl, -⟩ := receiveSection_ebusy hs
  have ht : t ∉ s.pq := by simp [h.queued t, hpc]
  have hlog := h.log
  simp only [State.pending, hl, if_true, hev] at hlog
  refine ⟨List.nodup_cons.mpr ⟨ht, h.nodup⟩, fun u => ?_, by simp, fun hne => absurd rfl hne,
    fun hd => absurd hl (by simpa using hd), fun ht' => absurd htype ht', ?_⟩
  · by_cases hut : u = t
    · subst hut
      simp [emplace]
    · simp [State.move_pc_other _ _ hut, emplace, hut, h.queued u]
  · simp [State.pending, hl, hlog]

theorem inv_receiveTimedOut {pq : List PpuId} (h : Inv q s) (hpc : s.pc t = .asleep true)
    (hq : unqueue s.pq t = some pq) : Inv q ({ s with pq := pq }.move t .idle) := by
  have htq : t ∈ s.pq := by simp [h.queued t, hpc]
  rw [unqueue_of_mem htq, Option.some.injEq] at hq
  subst hq
  -- `pq` was non-empty, so the buffer was empty, the queue live, and of PPU type
  have hne : s.pq ≠ [] := fun he => by rw [he] at htq; cases htq
  refine ⟨h.nodup.erase t, fun u => ?_, h.size_le, fun he => absurd (h.busy he) hne,
    fun hd => absurd (h.dead hd) hne, fun ht => absurd (h.spu ht) hne, h.log⟩
  by_cases hut : u = t
  · subst hut
    simp [not_mem_erase_self h.nodup]
  · simp [State.move_pc_other _ _ hut, mem_erase_iff h.nodup, hut, h.queued u]

theorem inv_tryreceive {size : Int} {r : CellError} {got events : List α} (h : Inv q s)
    (hs : tryreceive q s.live s.events size = (r, got, events)) :
    Inv q { s with events := events, consumed := s.consumed ++ got.map (fun e => (e, some t)) } := by
  obtain ⟨hev, hdead, -⟩ := tryreceive_eq hs
  refine ⟨h.nodup, h.queued, ?_,
    fun hne => h.busy fun he => hne (List.append_eq_nil_iff.mp (hev.symm.trans he)).2,
    h.dead, h.spu, ?_⟩
  · have := h.size_le
    rw [hev, List.length_append] at this
    simp only
    omega
  · have hlog := h.log
    cases hl : s.live with
    | false =>
      have hg := hdead hl
      subst hg
      simp only [State.pending, hl] at hlog
      simp [State.pending, hlog]
    | true =>
      simp only [State.pending, hl, if_true] at hlog
      simp only [State.pending, if_true, consumed_map_fst, hlog, hev, List.append_assoc]

theorem inv_drain (h : Inv q s) (hl : s.live = true) :
    Inv q { s with events := [], consumed := s.consumed ++ s.events.map (fun e => (e, none)) } := by
  have hlog := h.log
  simp only [State.pending, hl, if_true] at hlog
  refine ⟨h.nodup, h.queued, by simp, fun hne => absurd rfl hne, h.dead, h.spu, ?_⟩
  simp only [State.pending, hl, if_true, consumed_map_fst, hlog, List.append_nil]

theorem inv_destroy {mode : Int} {r : CellError} {live : Bool} {pq woken : List PpuId}
    (h : Inv q s) (hs : destroy mode s.live s.pq = (r, live, pq, woken)) :
    Inv q ({ s with live := live, pq := pq,
                    consumed := if r = CellError.ok then s.consumed ++ s.events.map (fun e => (e, none))
                      else s.consumed }.wake woken (.woken .ecanceled none)) := by
  rcases destroy_eq hs with ⟨rfl, hl, rfl, rfl, rfl, -⟩ | ⟨hr, rfl, rfl, rfl⟩
  · -- every sleeper is woken and the buffer is discarded
    have hlog := h.log
    simp only [State.pending, hl, if_true] at hlog
    refine ⟨by simp, fun u => ?_, by simpa using h.size_le, fun _ => rfl, fun _ => rfl,
      fun _ => rfl, ?_⟩
    · by_cases hu : u ∈ s.pq
      · simp [hu]
      · simpa [hu] using (h.queued u).not.mp hu
    · simp [State.pending, hlog, Function.comp_def]
  · rw [State.destroy_refused s hr]
    exact h

theorem inv_step : Transition.Preserved (Step q) (Inv (α := α) q) := by
  intro s l s' h hs
  cases hs with
  | send _ hs => exact inv_send h hs
  | receiveSrch => exact h
  | receiveEnter _ hl hs hr => exact inv_receiveEnter h hl hs hr
  | receiveSleep timeout ht hl hs => exact inv_receiveSleep h ht hl hs timeout
  | receiveWake ht => exact h.moveOut (by simp [ht]) rfl
  | receiveTimedOut ht hq => exact inv_receiveTimedOut h ht hq
  | tryreceive _ hs => exact inv_tryreceive h hs
  | drainSrch => exact h
  | drain _ hl => exact inv_drain h hl
  | destroy _ hs => exact inv_destroy h hs

theorem inv_reachable {s : State α} (hs : Reachable q s) : Inv q s :=
  Transition.Reachable.invariant (fun _ => inv_init) inv_step hs

end Steps

/-! ### The calls -/

/-- What a send does: hand the event to the receiver `schedule` picks, or
buffer it, or refuse it with `CELL_EBUSY` when nobody sleeps and the buffer
is full, or with `CELL_ENOTCONN` once the queue is destroyed; a refused
send changes nothing. -/
def SendOutcome (q : Queue) (s : State α) (e : α) (r : CellError) (s' : State α) : Prop :=
  (s.live = true ∧ s.pq ≠ [] ∧ r = .ok ∧ ∃ w, schedule q.protocol s.prio.prio s.pq = some w ∧
      s'.pq = s.pq.erase w ∧ s'.pc w = .woken .ok (some e) ∧ s'.events = s.events ∧
      s'.consumed = s.consumed ++ [(e, some w)]) ∨
    (s.live = true ∧ s.pq = [] ∧ s.events.length < q.size ∧ r = .ok ∧
      s'.events = s.events ++ [e] ∧ s'.pq = []) ∨
    (s.live = true ∧ s.pq = [] ∧ q.size ≤ s.events.length ∧ r = .ebusy ∧ s' = s) ∨
    (s.live = false ∧ r = .enotconn ∧ s' = s)

section Calls

variable {q : Queue} {s s' : State α} {t : PpuId} {r : CellError}

theorem send_outcome {e : α} (hs : Step q s ⟨t, .send e, some (r, [])⟩ s') :
    SendOutcome q s e r s' := by
  cases hs with
  | send _ hs =>
    rcases send_eq hs with ⟨hl, rfl, rfl, rfl, rfl⟩ | ⟨hl, hpq, hlen, rfl, rfl, rfl, rfl⟩ |
      ⟨hl, hpq, hlen, rfl, rfl, rfl, rfl⟩ | ⟨hl, v, hv, rfl, rfl, rfl, rfl⟩
    · exact .inr (.inr (.inr ⟨hl, rfl, State.send_refused s e (by decide)⟩))
    · exact .inr (.inl ⟨hl, hpq, hlen, rfl, rfl, hpq⟩)
    · exact .inr (.inr (.inl ⟨hl, hpq, hlen, rfl, State.send_refused s e (by decide)⟩))
    · have hne : s.pq ≠ [] := List.ne_nil_of_mem (schedule_mem hv)
      exact .inl ⟨hl, hne, rfl, v, hv, rfl, by simp, rfl, by simp⟩

theorem tryreceive_outcome {n : Int} {got : List α}
    (hs : Step q s ⟨t, .tryreceive n, some (r, got)⟩ s') (hl : s.live = true)
    (ht : q.type = .ppu) :
    r = .ok ∧ got = s.events.take n.toNat ∧ s'.events = s.events.drop n.toNat := by
  cases hs with
  | tryreceive _ hs =>
    obtain ⟨-, -, hok⟩ := tryreceive_eq hs
    obtain ⟨rfl, rfl, rfl⟩ := hok hl ht
    exact ⟨rfl, rfl, rfl⟩

theorem destroy_busy (hs : Step q s ⟨t, .destroy 0, some (r, [])⟩ s') (hl : s.live = true)
    (hpq : s.pq ≠ []) : r = .ebusy ∧ s' = s := by
  cases hs with
  | destroy _ hd =>
    have he := destroy_busy_eq hpq
    rw [← hl] at he
    rw [he, Prod.mk.injEq, Prod.mk.injEq, Prod.mk.injEq] at hd
    obtain ⟨rfl, rfl, rfl, rfl⟩ := hd
    exact ⟨rfl, State.destroy_refused s (by decide)⟩

theorem destroy_force (hs : Step q s ⟨t, .destroy sysEventQueueDestroyForce, some (r, [])⟩ s')
    (hl : s.live = true) :
    r = .ok ∧ s'.live = false ∧ s'.pq = [] ∧ ∀ u ∈ s.pq, s'.pc u = .woken .ecanceled none := by
  cases hs with
  | destroy _ hd =>
    rw [hl, destroy_force_eq, Prod.mk.injEq, Prod.mk.injEq, Prod.mk.injEq] at hd
    obtain ⟨rfl, rfl, rfl, rfl⟩ := hd
    exact ⟨rfl, rfl, rfl, fun u hu => by simp [hu]⟩

end Calls

/-! ### The contract -/

/-- What an lv2 event queue guarantees in a state of any interleaving of
sends, `sys_event_queue_receive` (with its timeout),
`sys_event_queue_tryreceive`, `sys_event_queue_drain` and
`sys_event_queue_destroy`. -/
structure EventQueueContract (q : Queue) (s : State α) : Prop where
  /-- `events.size() <= size`. -/
  size_le : s.events.length ≤ q.size
  /-- Nobody sleeps in `pq` while events are buffered. -/
  busy : s.events ≠ [] → s.pq = []
  /-- Nobody sleeps on a destroyed queue. -/
  dead : s.live = false → s.pq = []
  /-- The accepted events, in send order, are those that left the queue, in
  the order they left, each once, to one receiver or discarded, followed by
  those still buffered. -/
  delivery : s.accepted = s.consumed.map Prod.fst ++ s.pending
  send : ∀ t e r s', Step q s ⟨t, .send e, some (r, [])⟩ s' → SendOutcome q s e r s'
  /-- `tryreceive` on a live PPU queue takes the `max(size, 0)` oldest
  events, or all of them. -/
  tryreceive : ∀ t n r got s', Step q s ⟨t, .tryreceive n, some (r, got)⟩ s' → s.live = true →
    q.type = .ppu → r = .ok ∧ got = s.events.take n.toNat ∧ s'.events = s.events.drop n.toNat
  /-- Without force, a queue with sleepers stays, with `CELL_EBUSY`. -/
  destroy_busy : ∀ t r s', Step q s ⟨t, .destroy 0, some (r, [])⟩ s' → s.live = true →
    s.pq ≠ [] → r = .ebusy ∧ s' = s
  /-- With force, every sleeper wakes with `CELL_ECANCELED`. -/
  destroy_force : ∀ t r s', Step q s ⟨t, .destroy sysEventQueueDestroyForce, some (r, [])⟩ s' →
    s.live = true → r = .ok ∧ s'.live = false ∧ s'.pq = [] ∧
      ∀ u ∈ s.pq, s'.pc u = .woken .ecanceled none

/-- Every reachable state of the queue keeps its contract. -/
theorem event_queue_contract {q : Queue} {s : State α} (hs : Reachable q s) :
    EventQueueContract q s := by
  have h := inv_reachable hs
  exact {
    size_le := h.size_le
    busy := h.busy
    dead := h.dead
    delivery := h.log
    send := fun t e r s' hstep => send_outcome hstep
    tryreceive := fun t n r got s' hstep hl ht => tryreceive_outcome hstep hl ht
    destroy_busy := fun t r s' hstep hl hpq => destroy_busy hstep hl hpq
    destroy_force := fun t r s' hstep hl => destroy_force hstep hl }

/-- A queue of one slot for PPU receivers. -/
def queueOne : Queue := ⟨.fifo, .ppu, 1, Nat.one_pos, by decide⟩

/-- A fresh queue, with nobody inside a call. -/
def State.fresh : State Lv2Event := ⟨true, [], [], ⟨0, fun _ => ⟨0, 0⟩⟩, fun _ => .idle, [], []⟩

theorem State.fresh_init : State.Init State.fresh :=
  ⟨rfl, rfl, rfl, fun _ => rfl, rfl, rfl⟩

def sender : PpuId := ⟨1, Nat.one_pos⟩
def destroyer : PpuId := ⟨2, Nat.two_pos⟩
def receiver : PpuId := ⟨3, PpuId.pos_three⟩

/-- A send after `destroy` is `CELL_ENOTCONN`, also when nobody sleeps and
the buffer is full; and `tryreceive` with a negative size takes nothing. A
one-slot queue takes a send and is full; `destroy(0)` succeeds, leaving the
buffer as it is; the next send returns `CELL_ENOTCONN`, not `CELL_EBUSY`.
Before the destroy, `tryreceive` with size -1 returns `CELL_OK` and no
event, while `min(-1, 1) = -1`. -/
theorem send_after_destroy_and_negative_size :
    State.Init State.fresh ∧ ∃ s₁ s₂ s₃ s₄,
      Step queueOne State.fresh ⟨sender, .send (1, 0, 0, 0), some (.ok, [])⟩ s₁ ∧
      Step queueOne s₁ ⟨destroyer, .destroy 0, some (.ok, [])⟩ s₂ ∧
      s₂.pq = [] ∧ s₂.events.length = queueOne.size ∧
      Step queueOne s₂ ⟨sender, .send (2, 0, 0, 0), some (.enotconn, [])⟩ s₃ ∧
      Step queueOne s₁ ⟨receiver, .tryreceive (-1), some (.ok, [])⟩ s₄ ∧ s₁.events.length = 1 :=
  -- each step's state is the one the previous step produced
  ⟨State.fresh_init, _, _, _, _, Step.send rfl rfl, Step.destroy rfl rfl, rfl, rfl,
    Step.send rfl rfl, Step.tryreceive rfl rfl, rfl⟩

/-- A send hands its event to a sleeping receiver, and the next one is buffered: `receiver` finds
the queue empty and sleeps in `pq`; `sender`'s first event goes to it and it returns with the
event; the second send finds nobody asleep and fills the one slot. -/
theorem event_queue_contract_handoff :
    ∃ s : State Lv2Event, Reachable queueOne s ∧ s.pq = [] ∧ s.events = [(2, 0, 0, 0)] ∧
      s.consumed = [((1, 0, 0, 0), some receiver)] ∧ EventQueueContract queueOne s := by
  have h₀ : Transition.Reachable State.Init (Step queueOne) State.fresh :=
    Transition.Reachable.of_init State.fresh_init
  have h₁ := h₀.next (Step.receiveSleep (t := receiver) false rfl rfl rfl)
  have h₂ := h₁.next (Step.send (t := sender) (e := (1, 0, 0, 0)) rfl rfl)
  have h₃ := h₂.next (Step.receiveWake (t := receiver) (r := .ok) (e := some (1, 0, 0, 0)) rfl)
  have h₄ := h₃.next (Step.send (t := sender) (e := (2, 0, 0, 0)) rfl rfl)
  exact ⟨_, h₄, rfl, rfl, rfl, event_queue_contract h₄⟩

end Rpcs3.Lv2.EventQueue
