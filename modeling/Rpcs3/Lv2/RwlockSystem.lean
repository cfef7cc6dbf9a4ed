import Rpcs3.Lv2.Rwlock

/-! The threads around one `lv2_rwlock`. Each atomic operation on `owner`
and each section under the lock's `mutex` is one step. A reader or writer
that sleeps is woken by a hand-off (`runlock`, `wunlock`) or by a batch
wake-up of `rq` (`wunlock`, a writer's timeout), and then returns
`CELL_OK` holding the lock.

`readers` and `writer` are ghost state: the number of read locks taken and
not given back, and the thread that holds the write lock. The invariant
(`Encodes`) says that `owner` is `writer.id << 1` or `-2 * readers`, plus a
wait bit that is set while a queue is non-empty and that, without a writer,
only a queued writer keeps set. -/
namespace Rpcs3.Lv2.RwlockSystem

open Rpcs3.Lv2.Sync Rpcs3.Lv2.Rwlock

/-- The attribute of the lock that the calls read. -/
structure Setup where
  protocol : Lv2Protocol

/-- Where a thread is inside a call. -/
inductive Pc where
  | idle
  /-- `sys_rwlock_rlock`: asleep in `rq`. -/
  | rAsleep (timeout : Bool)
  /-- `sys_rwlock_wlock`: asleep in `wq`. -/
  | wAsleep (timeout : Bool)
  /-- Taken out of `rq` with a read lock; `rlock` returns `CELL_OK`. -/
  | rWoken
  /-- Handed the write lock; `wlock` returns `CELL_OK`. -/
  | wWoken
  /-- `sys_rwlock_wunlock` found the wait bit and waits for the mutex. -/
  | wunlocking
  deriving DecidableEq

def Pc.readerAsleep : Pc → Bool
  | .idle => false
  | .rAsleep _ => true
  | .wAsleep _ => false
  | .rWoken => false
  | .wWoken => false
  | .wunlocking => false

def Pc.writerAsleep : Pc → Bool
  | .idle => false
  | .rAsleep _ => false
  | .wAsleep _ => true
  | .rWoken => false
  | .wWoken => false
  | .wunlocking => false

attribute [simp] Pc.readerAsleep.eq_1 Pc.readerAsleep.eq_2 Pc.readerAsleep.eq_3
  Pc.readerAsleep.eq_4 Pc.readerAsleep.eq_5 Pc.readerAsleep.eq_6 Pc.writerAsleep.eq_1
  Pc.writerAsleep.eq_2 Pc.writerAsleep.eq_3 Pc.writerAsleep.eq_4 Pc.writerAsleep.eq_5
  Pc.writerAsleep.eq_6

inductive Call where
  | rlock
  | tryrlock
  | runlock
  | wlock
  | trywlock
  | wunlock
  deriving DecidableEq

/-- A step: the thread that takes it, its call, and the code the call
returns in this step, if it returns. -/
structure Label where
  thread : PpuId
  call : Call
  ret : Option CellError

/-- The word and queues, the scheduler's priority table, every thread's
position, and the ghost `readers` and `writer`. -/
structure State where
  control : Control
  prio : PrioTable
  pc : PpuId → Pc
  readers : Nat
  writer : Option PpuId

/-- A freshly created lock: `owner == 0`, empty queues, nobody inside a
call, nobody holding it. -/
def State.Init (s : State) : Prop :=
  s.control = ⟨0, [], []⟩ ∧ (∀ t, s.pc t = .idle) ∧ s.readers = 0 ∧ s.writer = none

def State.move (s : State) (t : PpuId) (p : Pc) : State :=
  { s with pc := Function.update s.pc t p }

/-- The readers `rs`, taken out of `rq`, each hold a read lock. -/
def State.wakeReaders (s : State) (rs : List PpuId) : State :=
  { s with
    pc := fun u => if u ∈ rs then .rWoken else s.pc u
    readers := s.readers + rs.length }

/-- The write lock is handed to `w`, if there is one. -/
def State.wakeWriter (s : State) : Option PpuId → State
  | some w => { s with pc := Function.update s.pc w .wWoken, writer := some w }
  | none => s

/-- The atomic steps of the calls. -/
inductive Step (S : Setup) : State → Label → State → Prop where
  /-- The CAS fast path of `sys_rwlock_rlock`; the `fetch_op` under the
  mutex is this same step when it takes the lock. -/
  | rlockFast {s t} :
      s.pc t = .idle → readable s.control.owner = true →
      Step S s ⟨t, .rlock, some .ok⟩
        { s with control := { s.control with owner := s.control.owner - 2 },
                 readers := s.readers + 1 }
  /-- The `fetch_op` under the mutex sets the wait bit; the thread sleeps. -/
  | rlockSleep {s t v} (timeout : Bool) :
      s.pc t = .idle → rlockFetch s.control.owner = (v, false) →
      Step S s ⟨t, .rlock, none⟩
        ({ s with control := { s.control with owner := v, rq := emplace s.control.rq t },
                  prio := s.prio.stamp t }.move t (.rAsleep timeout))
  | rlockWake {s t} :
      s.pc t = .rWoken → Step S s ⟨t, .rlock, some .ok⟩ (s.move t .idle)
  /-- Under the mutex: the timeout of a reader still in `rq`. -/
  | rlockTimedOut {s t q} :
      s.pc t = .rAsleep true → unqueue s.control.rq t = some q →
      Step S s ⟨t, .rlock, some .etimedout⟩
        ({ s with control := { s.control with rq := q } }.move t .idle)
  | tryrlockOk {s t} :
      s.pc t = .idle → readable s.control.owner = true →
      Step S s ⟨t, .tryrlock, some .ok⟩
        { s with control := { s.control with owner := s.control.owner - 2 },
                 readers := s.readers + 1 }
  | tryrlockBusy {s t} :
      s.pc t = .idle → readable s.control.owner = false →
      Step S s ⟨t, .tryrlock, some .ebusy⟩ s
  /-- The CAS fast path of `sys_rwlock_runlock`. -/
  | runlockFast {s t} :
      s.pc t = .idle → s.control.owner < 0 → waitBit s.control.owner = 0 →
      Step S s ⟨t, .runlock, some .ok⟩
        { s with control := { s.control with owner := s.control.owner + 2 },
                 readers := s.readers - 1 }
  | runlockSlow {s t r c w} :
      s.pc t = .idle → runlockSlow S.protocol s.prio.prio s.control = (r, c, w) →
      Step S s ⟨t, .runlock, some r⟩
        ({ s with control := c,
                  readers := if r = CellError.ok then s.readers - 1 else s.readers }.wakeWriter w)
  /-- The CAS fast path of `sys_rwlock_wlock`; the `fetch_op` under the
  mutex is this same step when it takes the lock. -/
  | wlockFast {s t} :
      s.pc t = .idle → s.control.owner = 0 →
      Step S s ⟨t, .wlock, some .ok⟩
        { s with control := { s.control with owner := 2 * (t.id : Int) }, writer := some t }
  | wlockDeadlk {s t} :
      s.pc t = .idle → s.control.owner ≠ 0 → ownerId s.control.owner = t.id →
      Step S s ⟨t, .wlock, some .edeadlk⟩ s
  /-- The `fetch_op` under the mutex sets the wait bit; the thread sleeps.
  The fast path's own-id test comes first. -/
  | wlockSleep {s t v} (timeout : Bool) :
      s.pc t = .idle → ownerId s.control.owner ≠ t.id → wlockFetch s.control.owner t = (v, false) →
      Step S s ⟨t, .wlock, none⟩
        ({ s with control := { s.control with owner := v, wq := emplace s.control.wq t },
                  prio := s.prio.stamp t }.move t (.wAsleep timeout))
  | wlockWake {s t} :
      s.pc t = .wWoken → Step S s ⟨t, .wlock, some .ok⟩ (s.move t .idle)
  /-- Under the mutex: the timeout of a writer still in `wq`. -/
  | wlockTimedOut {s t c rs} :
      s.pc t = .wAsleep true → wlockTimeout s.control t = some (c, rs) →
      Step S s ⟨t, .wlock, some .etimedout⟩ (({ s with control := c }.wakeReaders rs).move t .idle)
  | trywlockOk {s t} :
      s.pc t = .idle → s.control.owner = 0 →
      Step S s ⟨t, .trywlock, some .ok⟩
        { s with control := { s.control with owner := 2 * (t.id : Int) }, writer := some t }
  | trywlockDeadlk {s t} :
      s.pc t = .idle → s.control.owner ≠ 0 → ownerId s.control.owner = t.id →
      Step S s ⟨t, .trywlock, some .edeadlk⟩ s
  | trywlockBusy {s t} :
      s.pc t = .idle → s.control.owner ≠ 0 → ownerId s.control.owner ≠ t.id →
      Step S s ⟨t, .trywlock, some .ebusy⟩ s
  /-- `sys_rwlock_wunlock` reads a word that is not its own. -/
  | wunlockPerm {s t} :
      s.pc t = .idle → ownerId s.control.owner ≠ t.id → Step S s ⟨t, .wunlock, some .eperm⟩ s
  /-- The CAS from `id << 1` to 0. -/
  | wunlockFast {s t} :
      s.pc t = .idle → s.control.owner = 2 * (t.id : Int) →
      Step S s ⟨t, .wunlock, some .ok⟩
        { s with control := { s.control with owner := 0 }, writer := none }
  /-- The word is the thread's own with the wait bit: it goes for the mutex. -/
  | wunlockCheck {s t} :
      s.pc t = .idle → ownerId s.control.owner = t.id → waitBit s.control.owner = 1 →
      Step S s ⟨t, .wunlock, none⟩ (s.move t .wunlocking)
  | wunlockSlow {s t c w rs} :
      s.pc t = .wunlocking → wunlockSlow S.protocol s.prio.prio s.control = (c, w, rs) →
      Step S s ⟨t, .wunlock, some .ok⟩
        ((({ s with control := c, writer := none }.wakeReaders rs).wakeWriter w).move t .idle)

def Reachable (S : Setup) : State → Prop :=
  Transition.Reachable State.Init (Step S)

/-! ### How the word encodes the lock -/

/-- `owner` is the writer's id doubled, or minus twice the read locks, plus
the wait bit; the bit is set while a queue is non-empty; without a writer
only a queued writer keeps it set, and readers queue only behind a writer,
holding or waiting; a lock nobody holds is exactly 0. -/
structure Encodes (c : Control) (readers : Nat) (writer : Option PpuId) : Prop where
  writer_word : ∀ w, writer = some w → clearWaitBit c.owner = 2 * (w.id : Int) ∧ readers = 0
  readers_word : writer = none → clearWaitBit c.owner = -2 * (readers : Int)
  waiting : c.rq ≠ [] ∨ c.wq ≠ [] → waitBit c.owner = 1
  bit_writer : writer = none → waitBit c.owner = 1 → c.wq ≠ []
  rq_behind : c.rq ≠ [] → writer ≠ none ∨ c.wq ≠ []
  free : writer = none → readers = 0 → c.owner = 0

section Encodes

variable {c : Control} {readers : Nat} {writer : Option PpuId}

/-- A word whose wait bit is clear has both queues empty. -/
theorem Encodes.queues_empty (h : Encodes c readers writer) (hb : waitBit c.owner = 0) :
    c.rq = [] ∧ c.wq = [] := by
  by_contra hne
  have hw := h.waiting (by
    rcases Classical.not_and_iff_not_or_not.mp hne with hr | hw
    · exact .inl hr
    · exact .inr hw)
  omega

/-- A word that is not positive has no writer. -/
theorem Encodes.writer_none (h : Encodes c readers writer) (hv : c.owner ≤ 0) : writer = none := by
  cases hw : writer with
  | none => rfl
  | some w =>
    have h1 := (h.writer_word w hw).1
    have hpos := w.pos
    simp only [clearWaitBit] at h1
    omega

/-- A reader takes the lock when the word is not positive and has no wait bit. -/
theorem Encodes.takeRead (h : Encodes c readers writer) (hr : readable c.owner = true) :
    Encodes { c with owner := c.owner - 2 } (readers + 1) writer := by
  rw [readable_iff] at hr
  have hwn := h.writer_none hr.1
  obtain ⟨hrq, hwq⟩ := h.queues_empty (by simp [waitBit, hr.2])
  have hword := h.readers_word hwn
  subst hwn
  simp only [clearWaitBit] at hword
  refine ⟨(fun w hw => by cases hw), fun _ => ?_, fun hq => ?_, fun _ hb => ?_, fun hq => ?_,
    (fun _ hz => by omega)⟩
  · simp only [clearWaitBit]
    omega
  · simp [hrq, hwq] at hq
  · simp only [waitBit] at hb
    omega
  · exact absurd hrq hq

/-- A reader gives its lock back on the CAS fast path. -/
theorem Encodes.giveRead (h : Encodes c readers writer) (hv : c.owner < 0)
    (hb : waitBit c.owner = 0) :
    Encodes { c with owner := c.owner + 2 } (readers - 1) writer := by
  have hwn := h.writer_none (by omega)
  obtain ⟨hrq, hwq⟩ := h.queues_empty hb
  have hword := h.readers_word hwn
  subst hwn
  simp only [clearWaitBit, waitBit] at hword hb
  refine ⟨(fun w hw => by cases hw), fun _ => ?_, fun hq => ?_, fun _ hb' => ?_, fun hq => ?_,
    fun _ hz => ?_⟩
  · simp only [clearWaitBit]
    omega
  · simp [hrq, hwq] at hq
  · simp only [waitBit] at hb'
    omega
  · exact absurd hrq hq
  · simp only
    omega

/-- A writer takes a free lock. -/
theorem Encodes.takeWrite (h : Encodes c readers writer) (hv : c.owner = 0) (t : PpuId) :
    Encodes { c with owner := 2 * (t.id : Int) } readers (some t) := by
  have hwn := h.writer_none (by omega)
  obtain ⟨hrq, hwq⟩ := h.queues_empty (by simp [waitBit, hv])
  have hword := h.readers_word hwn
  simp only [clearWaitBit, hv] at hword
  refine ⟨fun w hw => ?_, (fun hw => by cases hw), fun hq => ?_, (fun hw => by cases hw),
    fun _ => .inl (by simp), (fun hw => by cases hw)⟩
  · cases hw
    simp only [clearWaitBit]
    omega
  · simp [hrq, hwq] at hq

/-- The writer gives back a lock nobody waits for. -/
theorem Encodes.giveWrite (h : Encodes c readers writer) {t : PpuId} (hw : writer = some t)
    (hv : c.owner = 2 * (t.id : Int)) : Encodes { c with owner := 0 } readers none := by
  have hr := (h.writer_word t hw).2
  obtain ⟨hrq, hwq⟩ := h.queues_empty (by simp only [waitBit, hv]; omega)
  refine ⟨(fun w hw => by cases hw), (fun _ => by simp [clearWaitBit, hr]), fun hq => ?_,
    (fun _ hb => by simp [waitBit] at hb), fun hq => absurd hrq hq, fun _ _ => rfl⟩
  simp [hrq, hwq] at hq

/-- A reader that cannot enter sets the wait bit and queues in `rq`: the
lock has a writer, or a writer waits. -/
theorem Encodes.sleepRead (h : Encodes c readers writer) (hr : readable c.owner = false)
    (t : PpuId) :
    Encodes { c with owner := setWaitBit c.owner, rq := emplace c.rq t } readers writer := by
  -- without a writer the lock is held by readers with the wait bit, so a writer waits
  have hbehind : writer ≠ none ∨ c.wq ≠ [] := by
    by_cases hwn : writer = none
    · have hword := h.readers_word hwn
      have hbit : waitBit c.owner = 1 := by
        simp only [readable, Bool.and_eq_false_iff, decide_eq_false_iff_not,
          beq_eq_false_iff_ne] at hr
        simp only [clearWaitBit] at hword
        simp only [waitBit] at hr ⊢
        omega
      exact .inr (h.bit_writer hwn hbit)
    · exact .inl hwn
  refine ⟨fun w hw => ?_, fun hwn => ?_, fun _ => ?_, fun hwn _ => ?_, fun _ => hbehind,
    fun hwn hz => ?_⟩
  · have := h.writer_word w hw
    simp only [clearWaitBit, setWaitBit] at this ⊢
    omega
  · have := h.readers_word hwn
    simp only [clearWaitBit, setWaitBit] at this ⊢
    omega
  · simp only [waitBit, setWaitBit]
    omega
  · exact hbehind.resolve_left (not_not.mpr hwn)
  · have := h.free hwn hz
    rw [this] at hr
    simp [readable, waitBit] at hr

/-- A writer that cannot enter sets the wait bit and queues in `wq`. -/
theorem Encodes.sleepWrite (h : Encodes c readers writer) (hv : c.owner ≠ 0) (t : PpuId) :
    Encodes { c with owner := setWaitBit c.owner, wq := emplace c.wq t } readers writer := by
  refine ⟨fun w hw => ?_, fun hwn => ?_, fun _ => ?_, (fun _ _ => by simp [emplace]),
    fun _ => .inr (by simp [emplace]), fun hwn hz => absurd (h.free hwn hz) hv⟩
  · have := h.writer_word w hw
    simp only [clearWaitBit, setWaitBit] at this ⊢
    omega
  · have := h.readers_word hwn
    simp only [clearWaitBit, setWaitBit] at this ⊢
    omega
  · simp only [waitBit, setWaitBit]
    omega

/-- Taking a thread out of `rq` keeps the encoding. -/
theorem Encodes.eraseReader (h : Encodes c readers writer) (t : PpuId) :
    Encodes { c with rq := c.rq.erase t } readers writer := by
  have hsub : c.rq.erase t ≠ [] → c.rq ≠ [] := fun hne he => hne (by simp [he])
  refine ⟨h.writer_word, h.readers_word, fun hq => h.waiting ?_, h.bit_writer,
    fun hq => h.rq_behind (hsub hq), h.free⟩
  rcases hq with hq | hq
  · exact .inl (hsub hq)
  · exact .inr hq

/-- The section of `runlock` that gives a read lock back: the last reader
hands the lock to a queued writer, which the wait bit says exists. -/
theorem Encodes.runlockSlow (h : Encodes c readers writer) {protocol : Lv2Protocol}
    {prio : PpuId → PpuPrio} {c' : Control} {w : Option PpuId}
    (hs : runlockSlow protocol prio c = (.ok, c', w)) :
    Encodes c' (readers - 1) (w.or writer) := by
  rcases runlockSlow_ok hs with ⟨hv, rfl, rfl⟩ | ⟨hv, v, hv', rfl, rfl⟩ | ⟨hv, hv', -, -⟩
  · -- more than one reader, or one with the wait bit clear
    have hwn := h.writer_none (by omega)
    subst hwn
    have hword := h.readers_word rfl
    simp only [clearWaitBit] at hword
    simp only [Option.none_or]
    refine ⟨(fun w hw => by cases hw), fun _ => ?_, fun hq => ?_, fun _ hb => ?_,
      h.rq_behind, fun _ hz => ?_⟩
    · simp only [clearWaitBit]
      omega
    · have := h.waiting hq
      simp only [waitBit] at this ⊢
      omega
    · apply h.bit_writer rfl
      simp only [waitBit] at hb ⊢
      omega
    · simp only
      omega
  · -- the last reader hands the lock to the writer `schedule` picked
    have hwn := h.writer_none (by omega)
    subst hwn
    have hword := h.readers_word rfl
    simp only [clearWaitBit, hv] at hword
    simp only [Option.some_or]
    refine ⟨fun u hu => ?_, (fun hu => by cases hu), fun hq => ?_, (fun hu => by cases hu),
      fun _ => .inl (by simp), (fun hu => by cases hu)⟩
    · cases hu
      refine ⟨?_, by omega⟩
      simp only [clearWaitBit, handOff]
      split <;> omega
    · simp only [waitBit, handOff]
      rw [if_pos (by simpa [or_comm] using hq)]
      omega
  · -- with no writer queued the wait bit would be clear: not reachable
    have hwn := h.writer_none (by omega)
    have hb := h.bit_writer hwn (by simp only [waitBit, hv]; rfl)
    exact absurd (schedule_eq_none hv') hb

/-- A writer's timeout: the last writer to leave lets the readers queued
behind it in, and with both queues empty the wait bit goes. -/
theorem Encodes.wlockTimeout (h : Encodes c readers writer) {t : PpuId} {c' : Control}
    {rs : List PpuId} (hs : wlockTimeout c t = some (c', rs)) :
    Encodes c' (readers + rs.length) writer := by
  obtain ⟨-, hcase⟩ := wlockTimeout_some hs
  rcases hcase with ⟨hrq, -, hv, rfl, rfl⟩ | ⟨hrq, -, rfl, rfl⟩ | ⟨h1, h2, rfl, rfl⟩
  · -- the readers in `rq` join those holding the lock
    have hwn := h.writer_none (by omega)
    subst hwn
    have hword := h.readers_word rfl
    have hlen : 0 < c.rq.length := List.length_pos_of_ne_nil hrq
    simp only [clearWaitBit] at hword
    refine ⟨(fun w hw => by cases hw), fun _ => ?_, fun hq => ?_, fun _ hb => ?_,
      fun hq => absurd rfl hq, (fun _ hz => by omega)⟩
    · simp only [clearWaitBit]
      omega
    · simp at hq
    · simp only [waitBit, clearWaitBit] at hb
      omega
  · -- both queues empty: the bit is cleared
    simp only [List.length_nil, Nat.add_zero]
    refine ⟨fun w hw => ?_, fun hwn => ?_, (fun hq => by simp at hq), fun _ hb => ?_,
      fun hq => absurd rfl hq, fun hwn hz => ?_⟩
    · have := h.writer_word w hw
      simp only [clearWaitBit] at this ⊢
      omega
    · have := h.readers_word hwn
      simp only [clearWaitBit] at this ⊢
      omega
    · simp only [waitBit, clearWaitBit] at hb
      omega
    · have := h.free hwn hz
      simp only [clearWaitBit, this]
      rfl
  · -- the word stays; a reader left in `rq` still has a writer ahead of it
    have hzero : c.rq ≠ [] → c.wq.erase t = [] → writer = none → False := by
      intro hrq hwq hwn
      have hword := h.readers_word hwn
      have hv : 0 ≤ c.owner := by
        by_contra hneg
        exact h1 ⟨hrq, hwq, by omega⟩
      simp only [clearWaitBit] at hword
      have hz := h.free hwn (by omega)
      have hb := h.waiting (.inl hrq)
      simp only [waitBit, hz] at hb
      omega
    simp only [List.length_nil, Nat.add_zero]
    refine ⟨h.writer_word, h.readers_word, fun hq => ?_, fun hwn hb => ?_, fun hq => ?_, h.free⟩
    · rcases hq with hq | hq
      · exact h.waiting (.inl hq)
      · exact h.waiting (.inr fun he => hq (by simp [he]))
    · intro hwq
      have hrq : c.rq ≠ [] := fun he => h2 ⟨he, hwq⟩
      exact hzero hrq hwq hwn
    · by_cases hwn : writer = none
      · exact .inr fun hwq => hzero hq hwq hwn
      · exact .inl hwn

/-- The section of `wunlock`: the writer hands the lock to a queued writer,
or lets every queued reader in, or frees it. -/
theorem Encodes.wunlockSlow {t : PpuId} (h : Encodes c readers (some t)) {protocol : Lv2Protocol}
    {prio : PpuId → PpuPrio} {c' : Control} {w : Option PpuId} {rs : List PpuId}
    (hs : wunlockSlow protocol prio c = (c', w, rs)) :
    Encodes c' (readers + rs.length) w := by
  have hr := (h.writer_word t rfl).2
  subst hr
  rcases wunlockSlow_eq hs with ⟨v, -, rfl, rfl, rfl⟩ | ⟨-, hrq, rfl, rfl, rfl⟩ |
    ⟨-, -, rfl, rfl, rfl⟩
  · refine ⟨fun u hu => ?_, (fun hu => by cases hu), fun hq => ?_, (fun hu => by cases hu),
      fun _ => .inl (by simp), (fun hu => by cases hu)⟩
    · cases hu
      refine ⟨?_, rfl⟩
      simp only [clearWaitBit, handOff]
      split <;> omega
    · simp only [waitBit, handOff]
      rw [if_pos (by simpa [or_comm] using hq)]
      omega
  · have hlen : 0 < c.rq.length := List.length_pos_of_ne_nil hrq
    refine ⟨(fun u hu => by cases hu), fun _ => ?_, (fun hq => by simp at hq), fun _ hb => ?_,
      fun hq => absurd rfl hq, (fun _ hz => by omega)⟩
    · simp only [clearWaitBit]
      omega
    · simp only [waitBit] at hb
      omega
  · exact ⟨(fun u hu => by cases hu), (fun _ => rfl), (fun hq => by simp at hq),
      (fun _ hb => by simp [waitBit] at hb), fun hq => absurd rfl hq, fun _ _ => rfl⟩

/-- The lock as created: free, with nobody waiting. -/
theorem Encodes.zero : Encodes ⟨0, [], []⟩ 0 none :=
  ⟨(fun _ hw => by cases hw), (fun _ => rfl), (fun hq => by simp at hq),
    (fun _ hb => by simp [waitBit] at hb), fun hq => absurd rfl hq, fun _ _ => rfl⟩

/-- A word whose `val >> 1` is a thread's id is that thread's write lock. -/
theorem Encodes.writer_of_ownerId (h : Encodes c readers writer) {t : PpuId}
    (hv : ownerId c.owner = t.id) : writer = some t := by
  have ht := t.pos
  simp only [ownerId] at hv
  cases hw : writer with
  | none =>
    have hword := h.readers_word hw
    simp only [clearWaitBit] at hword
    omega
  | some u =>
    have hword := (h.writer_word u hw).1
    simp only [clearWaitBit] at hword
    exact congrArg some (PpuId.ext_id (by omega)).symm

/-- `runlock` finds a word that is not negative exactly when no read lock
is taken. -/
theorem Encodes.nonneg_iff (h : Encodes c readers writer) : 0 ≤ c.owner ↔ readers = 0 := by
  cases hw : writer with
  | none =>
    have hword := h.readers_word hw
    simp only [clearWaitBit] at hword
    omega
  | some u =>
    have hword := h.writer_word u hw
    have hu := u.pos
    simp only [clearWaitBit] at hword
    omega

end Encodes

/-! ### The state updates -/

section Updates

variable (s : State) (t u : PpuId) (p : Pc)

@[simp] theorem State.move_pc_self : (s.move t p).pc t = p := by
  simp [State.move]

theorem State.move_pc_other {t u : PpuId} (p : Pc) (h : u ≠ t) : (s.move t p).pc u = s.pc u := by
  simp [State.move, h]

@[simp] theorem State.move_control : (s.move t p).control = s.control := rfl
@[simp] theorem State.move_readers : (s.move t p).readers = s.readers := rfl
@[simp] theorem State.move_writer : (s.move t p).writer = s.writer := rfl

@[simp] theorem State.wakeReaders_pc (rs : List PpuId) :
    (s.wakeReaders rs).pc u = if u ∈ rs then .rWoken else s.pc u := rfl
@[simp] theorem State.wakeReaders_control (rs : List PpuId) :
    (s.wakeReaders rs).control = s.control := rfl
@[simp] theorem State.wakeReaders_readers (rs : List PpuId) :
    (s.wakeReaders rs).readers = s.readers + rs.length := rfl
@[simp] theorem State.wakeReaders_writer (rs : List PpuId) :
    (s.wakeReaders rs).writer = s.writer := rfl

@[simp] theorem State.wakeWriter_pc (w : Option PpuId) :
    (s.wakeWriter w).pc u = if w = some u then .wWoken else s.pc u := by
  cases w with
  | none => rfl
  | some w => by_cases h : u = w <;> simp [State.wakeWriter, Function.update, h, eq_comm]
@[simp] theorem State.wakeWriter_control (w : Option PpuId) :
    (s.wakeWriter w).control = s.control := by
  cases w <;> rfl
@[simp] theorem State.wakeWriter_readers (w : Option PpuId) :
    (s.wakeWriter w).readers = s.readers := by
  cases w <;> rfl
@[simp] theorem State.wakeWriter_writer (w : Option PpuId) :
    (s.wakeWriter w).writer = w.or s.writer := by
  cases w <;> rfl

end Updates

/-! ### The invariant -/

/-- The invariant of every reachable state: the queues hold exactly the
threads asleep in them, the word encodes the ghost holders, and a thread on
its way into the section of `wunlock` holds the write lock. -/
structure Inv (s : State) : Prop where
  rq_nodup : s.control.rq.Nodup
  wq_nodup : s.control.wq.Nodup
  in_rq : ∀ u, u ∈ s.control.rq ↔ (s.pc u).readerAsleep = true
  in_wq : ∀ u, u ∈ s.control.wq ↔ (s.pc u).writerAsleep = true
  encodes : Encodes s.control s.readers s.writer
  unlocking : ∀ u, s.pc u = .wunlocking → s.writer = some u

section Steps

variable {S : Setup} {s : State} {t : PpuId}

theorem inv_init (h : State.Init s) : Inv s := by
  obtain ⟨hc, hpc, hr, hw⟩ := h
  refine ⟨by simp [hc], by simp [hc], fun u => by simp [hc, hpc u], fun u => by simp [hc, hpc u],
    ?_, fun u hu => by simp [hpc u] at hu⟩
  rw [hc, hr, hw]
  exact Encodes.zero

/-- A step that changes only the word and the ghost holders. -/
theorem Inv.setWord (h : Inv s) {c : Control} {readers : Nat} {writer : Option PpuId}
    (hrq : c.rq = s.control.rq) (hwq : c.wq = s.control.wq) (he : Encodes c readers writer)
    (hu : ∀ u, s.pc u = .wunlocking → writer = some u) :
    Inv { s with control := c, readers := readers, writer := writer } :=
  ⟨hrq ▸ h.rq_nodup, hwq ▸ h.wq_nodup, fun u => hrq ▸ h.in_rq u, fun u => hwq ▸ h.in_wq u,
    he, hu⟩

/-- A thread moves between two positions outside both queues. -/
theorem Inv.moveOut (h : Inv s) {p : Pc}
    (hq : (s.pc t).readerAsleep = false ∧ (s.pc t).writerAsleep = false)
    (hp : p.readerAsleep = false ∧ p.writerAsleep = false)
    (hu : p = .wunlocking → s.writer = some t) : Inv (s.move t p) := by
  refine ⟨h.rq_nodup, h.wq_nodup, fun u => ?_, fun u => ?_, h.encodes, fun u hpu => ?_⟩
  all_goals by_cases hut : u = t
  · subst hut
    simp [h.in_rq u, hq.1, hp.1]
  · simp [State.move_pc_other _ _ hut, h.in_rq u]
  · subst hut
    simp [h.in_wq u, hq.2, hp.2]
  · simp [State.move_pc_other _ _ hut, h.in_wq u]
  · subst hut
    exact hu (by simpa using hpu)
  · exact h.unlocking u (by rwa [State.move_pc_other _ _ hut] at hpu)

theorem inv_rlockSleep {v : Int} (h : Inv s) (hpc : s.pc t = .idle)
    (hf : rlockFetch s.control.owner = (v, false)) (timeout : Bool) :
    Inv ({ s with control := { s.control with owner := v, rq := emplace s.control.rq t },
                  prio := s.prio.stamp t }.move t (.rAsleep timeout)) := by
  obtain ⟨hr, rfl⟩ := rlockFetch_false hf
  have htr : t ∉ s.control.rq := by simp [h.in_rq t, hpc]
  have htw : t ∉ s.control.wq := by simp [h.in_wq t, hpc]
  refine ⟨List.nodup_cons.mpr ⟨htr, h.rq_nodup⟩, h.wq_nodup, fun u => ?_, fun u => ?_,
    h.encodes.sleepRead hr t, fun u hpu => ?_⟩
  all_goals by_cases hut : u = t
  · subst hut
    simp [emplace]
  · simp [State.move_pc_other _ _ hut, emplace, hut, h.in_rq u]
  · subst hut
    simp [htw]
  · simp [State.move_pc_other _ _ hut, h.in_wq u]
  · subst hut
    simp at hpu
  · exact h.unlocking u (by rwa [State.move_pc_other _ _ hut] at hpu)

theorem inv_wlockSleep {v : Int} (h : Inv s) (hpc : s.pc t = .idle)
    (hf : wlockFetch s.control.owner t = (v, false)) (timeout : Bool) :
    Inv ({ s with control := { s.control with owner := v, wq := emplace s.control.wq t },
                  prio := s.prio.stamp t }.move t (.wAsleep timeout)) := by
  obtain ⟨hv, rfl⟩ := wlockFetch_false hf
  have htr : t ∉ s.control.rq := by simp [h.in_rq t, hpc]
  have htw : t ∉ s.control.wq := by simp [h.in_wq t, hpc]
  refine ⟨h.rq_nodup, List.nodup_cons.mpr ⟨htw, h.wq_nodup⟩, fun u => ?_, fun u => ?_,
    h.encodes.sleepWrite hv t, fun u hpu => ?_⟩
  all_goals by_cases hut : u = t
  · subst hut
    simp [htr]
  · simp [State.move_pc_other _ _ hut, h.in_rq u]
  · subst hut
    simp [emplace]
  · simp [State.move_pc_other _ _ hut, emplace, hut, h.in_wq u]
  · subst hut
    simp at hpu
  · exact h.unlocking u (by rwa [State.move_pc_other _ _ hut] at hpu)

theorem inv_rlockTimedOut {q : List PpuId} (h : Inv s) (hpc : s.pc t = .rAsleep true)
    (hq : unqueue s.control.rq t = some q) :
    Inv ({ s with control := { s.control with rq := q } }.move t .idle) := by
  have htr : t ∈ s.control.rq := by simp [h.in_rq t, hpc]
  have htw : t ∉ s.control.wq := by simp [h.in_wq t, hpc]
  rw [unqueue_of_mem htr, Option.some.injEq] at hq
  subst hq
  refine ⟨h.rq_nodup.erase t, h.wq_nodup, fun u => ?_, fun u => ?_,
    h.encodes.eraseReader t, fun u hpu => ?_⟩
  all_goals by_cases hut : u = t
  · subst hut
    simp [not_mem_erase_self h.rq_nodup]
  · simp [State.move_pc_other _ _ hut, mem_erase_iff h.rq_nodup, hut, h.in_rq u]
  · subst hut
    simp [htw]
  · simp [State.move_pc_other _ _ hut, h.in_wq u]
  · subst hut
    simp at hpu
  · exact h.unlocking u (by rwa [State.move_pc_other _ _ hut] at hpu)

/-- A queued reader is not in `wq`. -/
theorem Inv.not_wq_of_rq (h : Inv s) {u : PpuId} (hu : u ∈ s.control.rq) : u ∉ s.control.wq := by
  rw [h.in_rq u] at hu
  rw [h.in_wq u]
  cases hp : s.pc u <;> simp_all

/-- A queued writer is not in `rq`. -/
theorem Inv.not_rq_of_wq (h : Inv s) {u : PpuId} (hu : u ∈ s.control.wq) : u ∉ s.control.rq :=
  fun hr => h.not_wq_of_rq hr hu

/-- The section of `runlock`: `CELL_EPERM` changes nothing; otherwise one
read lock is given back, and the last reader hands the lock to a writer. -/
theorem inv_runlockSlow {r : CellError} {c : Control} {w : Option PpuId} (h : Inv s)
    (hs : runlockSlow S.protocol s.prio.prio s.control = (r, c, w)) :
    Inv ({ s with control := c,
                  readers := if r = CellError.ok then s.readers - 1 else s.readers }.wakeWriter w) := by
  rcases runlockSlow_ret S.protocol s.prio.prio s.control with hr | hr <;> rw [hs] at hr <;>
    subst hr
  · obtain ⟨-, rfl, rfl⟩ := runlockSlow_eperm hs
    rw [if_neg (by decide)]
    exact h
  · rw [if_pos rfl]
    have he := h.encodes.runlockSlow hs
    -- a read lock is held, so no thread is on its way to `wunlock`'s section
    have hneg : s.control.owner < 0 := by
      rcases runlockSlow_ok hs with ⟨h1, -⟩ | ⟨h1, -⟩ | ⟨h1, -⟩ <;> omega
    have hwn := h.encodes.writer_none (Int.le_of_lt hneg)
    have hnu : ∀ u, s.pc u ≠ .wunlocking := fun u hu => by
      rw [h.unlocking u hu] at hwn
      cases hwn
    obtain ⟨hrq, ⟨v, rfl, hv, hwq⟩ | ⟨rfl, hwq⟩⟩ := runlockSlow_queues hs
    · have hvr := h.not_rq_of_wq hv
      refine ⟨by simpa [hrq] using h.rq_nodup, by simpa [hwq] using h.wq_nodup.erase v,
        fun u => ?_, fun u => ?_, by simpa using he, fun u hpu => ?_⟩
      all_goals by_cases huv : u = v
      · subst huv
        simp [hrq, hvr]
      · simp [hrq, Ne.symm huv, h.in_rq u]
      · subst huv
        simp [hwq, not_mem_erase_self h.wq_nodup]
      · simp [hwq, Ne.symm huv, mem_erase_iff h.wq_nodup, huv, h.in_wq u]
      · subst huv
        simp at hpu
      · simp only [State.wakeWriter_pc, Option.some.injEq, Ne.symm huv, if_false] at hpu
        exact absurd hpu (hnu u)
    · exact h.setWord hrq hwq he (fun u hu => absurd hu (hnu u))

/-- A writer's timeout: it leaves `wq`, and the readers it let in leave `rq`. -/
theorem inv_wlockTimedOut {c : Control} {rs : List PpuId} (h : Inv s)
    (hpc : s.pc t = .wAsleep true) (hs : wlockTimeout s.control t = some (c, rs)) :
    Inv (({ s with control := c }.wakeReaders rs).move t .idle) := by
  obtain ⟨htw, hwq, hrs⟩ := wlockTimeout_queues hs
  have htr := h.not_rq_of_wq htw
  have he := h.encodes.wlockTimeout hs
  -- the threads woken are readers of `rq`, and `rq` keeps the others
  have hwoken : ∀ u ∈ rs, u ∈ s.control.rq := by
    rcases hrs with ⟨rfl, -⟩ | ⟨rfl, -⟩
    · exact fun _ hu => hu
    · exact fun _ hu => absurd hu (List.not_mem_nil)
  have hmem : ∀ u, u ∈ c.rq ↔ u ∈ s.control.rq ∧ u ∉ rs := by
    rcases hrs with ⟨rfl, hc⟩ | ⟨rfl, hc⟩ <;> simp [hc]
  refine ⟨?_, by simpa [hwq] using h.wq_nodup.erase t, fun u => ?_, fun u => ?_,
    by simpa using he, fun u hpu => ?_⟩
  · rcases hrs with ⟨-, hc⟩ | ⟨-, hc⟩ <;> simp [hc, h.rq_nodup]
  all_goals by_cases hut : u = t
  · subst hut
    simp [hmem, htr]
  · by_cases hur : u ∈ rs
    · simp [State.move_pc_other _ _ hut, hmem, hur]
    · simp [State.move_pc_other _ _ hut, hmem, hur, h.in_rq u]
  · subst hut
    simp [hwq, not_mem_erase_self h.wq_nodup]
  · by_cases hur : u ∈ rs
    · simp [State.move_pc_other _ _ hut, hwq, hur, mem_erase_iff h.wq_nodup,
        h.not_wq_of_rq (hwoken u hur)]
    · simp [State.move_pc_other _ _ hut, hwq, hur, mem_erase_iff h.wq_nodup, hut, h.in_wq u]
  · subst hut
    simp at hpu
  · by_cases hur : u ∈ rs
    · simp [State.move_pc_other _ _ hut, hur] at hpu
    · simp only [State.move_pc_other _ _ hut, State.wakeReaders_pc, hur, if_false] at hpu
      exact h.unlocking u hpu

/-- The section of `wunlock`: the writer hands the lock to a queued writer
or to every queued reader, or frees it. -/
theorem inv_wunlockSlow {c : Control} {w : Option PpuId} {rs : List PpuId} (h : Inv s)
    (hpc : s.pc t = .wunlocking) (hs : wunlockSlow S.protocol s.prio.prio s.control = (c, w, rs)) :
    Inv ((({ s with control := c, writer := none }.wakeReaders rs).wakeWriter w).move t .idle) := by
  have hwt := h.unlocking t hpc
  have he := (hwt ▸ h.encodes).wunlockSlow hs
  have htr : t ∉ s.control.rq := by simp [h.in_rq t, hpc]
  have htw : t ∉ s.control.wq := by simp [h.in_wq t, hpc]
  -- every other thread is not in `wunlock`'s section: only the writer is
  have hnu : ∀ u, u ≠ t → s.pc u ≠ .wunlocking := fun u hut hu => by
    rw [h.unlocking u hu, Option.some.injEq] at hwt
    exact hut hwt
  rcases wunlockSlow_queues hs with ⟨v, rfl, hv, hwq, rfl, hrq⟩ | ⟨rfl, hwq0, hwq, rfl, hrq⟩
  · have hvr := h.not_rq_of_wq hv
    have hvt : v ≠ t := fun e => htw (e ▸ hv)
    refine ⟨by simpa [hrq] using h.rq_nodup, by simpa [hwq] using h.wq_nodup.erase v,
      fun u => ?_, fun u => ?_, by simpa using he, fun u hpu => ?_⟩
    all_goals by_cases hut : u = t
    · subst hut
      simp [hrq, htr]
    · by_cases huv : u = v
      · subst huv
        simp [State.move_pc_other _ _ hut, hrq, hvr]
      · simp [State.move_pc_other _ _ hut, hrq, Ne.symm huv, h.in_rq u]
    · subst hut
      simp [hwq, mem_erase_iff h.wq_nodup, htw]
    · by_cases huv : u = v
      · subst huv
        simp [State.move_pc_other _ _ hut, hwq, not_mem_erase_self h.wq_nodup]
      · simp [State.move_pc_other _ _ hut, hwq, Ne.symm huv, mem_erase_iff h.wq_nodup, huv,
          h.in_wq u]
    · subst hut
      simp at hpu
    · by_cases huv : u = v
      · subst huv
        simp [State.move_pc_other _ _ hut] at hpu
      · simp only [State.move_pc_other _ _ hut, State.wakeWriter_pc, State.wakeReaders_pc,
          Option.some.injEq, Ne.symm huv, if_false, List.not_mem_nil] at hpu
        exact absurd hpu (hnu u hut)
  · refine ⟨by simp [hrq], by simp [hwq], fun u => ?_, fun u => ?_, by simpa using he,
      fun u hpu => ?_⟩
    all_goals by_cases hut : u = t
    · subst hut
      simp [hrq]
    · by_cases hur : u ∈ s.control.rq
      · simp [State.move_pc_other _ _ hut, hrq, hur]
      · have hra : (s.pc u).readerAsleep = false := by simpa [h.in_rq u] using hur
        simp [State.move_pc_other _ _ hut, hrq, hur, hra]
    · subst hut
      simp [hwq]
    · by_cases hur : u ∈ s.control.rq
      · simp [State.move_pc_other _ _ hut, hwq, hur]
      · simp [State.move_pc_other _ _ hut, hwq, hur, ← h.in_wq u, hwq0]
    · subst hut
      simp at hpu
    · by_cases hur : u ∈ s.control.rq
      · simp [State.move_pc_other _ _ hut, hur] at hpu
      · simp only [State.move_pc_other _ _ hut, State.wakeWriter_pc, State.wakeReaders_pc, hur,
          reduceCtorEq, if_false] at hpu
        exact absurd hpu (hnu u hut)

theorem inv_step : Transition.Preserved (Step S) Inv := by
  intro s l s' h hs
  cases hs with
  | rlockFast _ hr => exact h.setWord rfl rfl (h.encodes.takeRead hr) h.unlocking
  | rlockSleep timeout ht hf => exact inv_rlockSleep h ht hf timeout
  | rlockWake ht => exact h.moveOut (by simp [ht]) (by simp) (fun hp => by cases hp)
  | rlockTimedOut ht hq => exact inv_rlockTimedOut h ht hq
  | tryrlockOk _ hr => exact h.setWord rfl rfl (h.encodes.takeRead hr) h.unlocking
  | tryrlockBusy => exact h
  | runlockFast _ hv hb => exact h.setWord rfl rfl (h.encodes.giveRead hv hb) h.unlocking
  | runlockSlow _ hr => exact inv_runlockSlow h hr
  | wlockFast _ hv =>
    -- the lock was free, so nobody was on the way to `wunlock`'s section
    have hwn := h.encodes.writer_none (Int.le_of_eq hv)
    exact h.setWord rfl rfl (h.encodes.takeWrite hv _)
      (fun u hu => absurd (h.unlocking u hu) (by simp [hwn]))
  | wlockDeadlk => exact h
  | wlockSleep timeout ht _ hf => exact inv_wlockSleep h ht hf timeout
  | wlockWake ht => exact h.moveOut (by simp [ht]) (by simp) (fun hp => by cases hp)
  | wlockTimedOut ht hq => exact inv_wlockTimedOut h ht hq
  | trywlockOk _ hv =>
    have hwn := h.encodes.writer_none (Int.le_of_eq hv)
    exact h.setWord rfl rfl (h.encodes.takeWrite hv _)
      (fun u hu => absurd (h.unlocking u hu) (by simp [hwn]))
  | trywlockDeadlk => exact h
  | trywlockBusy => exact h
  | wunlockPerm => exact h
  | @wunlockFast t ht hv =>
    have hwt := h.encodes.writer_of_ownerId (t := t) (by simp [ownerId, hv])
    -- the writer is idle, so it is not on the way to the section either
    exact h.setWord rfl rfl (h.encodes.giveWrite hwt hv)
      (fun u hu => absurd (h.unlocking u hu) (by
        rw [hwt]
        rintro ⟨⟩
        rw [ht] at hu
        cases hu))
  | @wunlockCheck t ht hv _ =>
    exact h.moveOut (by simp [ht]) (by simp) (fun _ => h.encodes.writer_of_ownerId hv)
  | wunlockSlow ht hw => exact inv_wunlockSlow h ht hw

theorem inv_reachable {s : State} (hs : Reachable S s) : Inv s :=
  Transition.Reachable.invariant (fun _ => inv_init) inv_step hs

end Steps



/-! ### What the word says -/

section Reading

variable {c : Control} {readers : Nat} {writer : Option PpuId}

/-- `owner == 0` exactly when nobody holds the lock. -/
theorem Encodes.owner_eq_zero_iff (h : Encodes c readers writer) :
    c.owner = 0 ↔ writer = none ∧ readers = 0 := by
  refine ⟨fun hv => ?_, fun ⟨hw, hr⟩ => h.free hw hr⟩
  have hwn := h.writer_none (Int.le_of_eq hv)
  have hword := h.readers_word hwn
  simp only [clearWaitBit, hv] at hword
  exact ⟨hwn, by omega⟩

/-- `owner > 0` exactly when a writer, whose id is `owner >> 1`, holds the
lock and no reader does. -/
theorem Encodes.owner_pos_iff (h : Encodes c readers writer) :
    0 < c.owner ↔ ∃ w, writer = some w ∧ ownerId c.owner = w.id ∧ readers = 0 := by
  constructor
  · intro hv
    cases hw : writer with
    | none =>
      -- without a writer a positive word is the wait bit alone, on a free lock
      have hword := h.readers_word hw
      simp only [clearWaitBit] at hword
      have hz := h.free hw (by omega)
      omega
    | some w =>
      obtain ⟨hword, hr⟩ := h.writer_word w hw
      simp only [clearWaitBit] at hword
      exact ⟨w, rfl, by simp only [ownerId]; omega, hr⟩
  · rintro ⟨w, hw, -, -⟩
    have hword := (h.writer_word w hw).1
    have hpos := w.pos
    simp only [clearWaitBit] at hword
    omega

/-- `owner < 0` exactly when no writer and `-(owner & -2) / 2` readers hold
the lock, at least one. -/
theorem Encodes.owner_neg_iff (h : Encodes c readers writer) :
    c.owner < 0 ↔ writer = none ∧ 0 < readers ∧ -clearWaitBit c.owner / 2 = readers := by
  constructor
  · intro hv
    have hwn := h.writer_none (Int.le_of_lt hv)
    have hword := h.readers_word hwn
    refine ⟨hwn, ?_, by rw [hword]; omega⟩
    simp only [clearWaitBit] at hword
    omega
  · rintro ⟨hwn, hr, -⟩
    have hword := h.readers_word hwn
    simp only [clearWaitBit] at hword
    omega

/-- Nobody waits on a lock nobody holds. -/
theorem Encodes.free_queues (h : Encodes c readers writer) (hw : writer = none)
    (hr : readers = 0) : c.rq = [] ∧ c.wq = [] :=
  h.queues_empty (by simp [waitBit, h.free hw hr])

end Reading

/-! ### The calls that give the lock back -/

section Unlock

variable {S : Setup} {s s' : State} {t : PpuId} {r : CellError}

/-- `wunlock` by a thread that does not hold the write lock returns
`CELL_EPERM` and changes nothing. -/
theorem wunlock_not_writer (h : Inv s) (hs : Step S s ⟨t, .wunlock, some r⟩ s')
    (hw : s.writer ≠ some t) : r = .eperm ∧ s' = s := by
  cases hs with
  | wunlockPerm => exact ⟨rfl, rfl⟩
  | wunlockFast _ hv => exact absurd (h.encodes.writer_of_ownerId (by simp [ownerId, hv])) hw
  | wunlockSlow ht _ => exact absurd (h.unlocking t ht) hw

/-- `runlock` returns `CELL_EPERM`, changing nothing, exactly when no read
lock is taken; otherwise it gives one back, whoever calls it. -/
theorem runlock_outcome (h : Inv s) (hs : Step S s ⟨t, .runlock, some r⟩ s') :
    (r = .eperm ∧ s.readers = 0 ∧ s' = s) ∨
      (r = .ok ∧ 0 < s.readers ∧ s'.readers = s.readers - 1) := by
  have hpos : s.control.owner < 0 → 0 < s.readers := fun hv =>
    Nat.pos_of_ne_zero fun hz => absurd (h.encodes.nonneg_iff.mpr hz) (by omega)
  cases hs with
  | runlockFast _ hv _ => exact .inr ⟨rfl, hpos hv, rfl⟩
  | runlockSlow _ hr =>
    rcases runlockSlow_ret S.protocol s.prio.prio s.control with he | he <;> rw [hr] at he <;>
      subst he
    · obtain ⟨hv, rfl, rfl⟩ := runlockSlow_eperm hr
      refine .inl ⟨rfl, h.encodes.nonneg_iff.mp hv, ?_⟩
      rw [if_neg (by decide)]
      rfl
    · have hneg : s.control.owner < 0 := by
        rcases runlockSlow_ok hr with ⟨h1, -⟩ | ⟨h1, -⟩ | ⟨h1, -⟩ <;> omega
      exact .inr ⟨rfl, hpos hneg, by simp⟩

end Unlock

/-! ### The contract -/

/-- What the lv2 rwlock guarantees in a state of any interleaving of
`sys_rwlock_rlock`, `tryrlock`, `runlock`, `wlock`, `trywlock` and `wunlock`
and of the readers' and writers' timeouts. Holding is what the calls did:
a read lock is one taken (by `rlock`, `tryrlock`, or a wake-up from `rq`)
and not given back by some `runlock`; the write lock is held by the thread
that took it or was handed it, until its `wunlock`. -/
structure RwlockContract (S : Setup) (s : State) : Prop where
  /-- `owner == 0` iff nobody holds the lock. -/
  free : s.control.owner = 0 ↔ s.writer = none ∧ s.readers = 0
  /-- `owner > 0` iff a writer, whose id is `owner >> 1`, holds it, and no reader. -/
  writer : 0 < s.control.owner ↔
    ∃ w, s.writer = some w ∧ ownerId s.control.owner = w.id ∧ s.readers = 0
  /-- `owner < 0` iff no writer and `-(owner & -2) / 2` read locks are held. -/
  readers : s.control.owner < 0 ↔
    s.writer = none ∧ 0 < s.readers ∧ -clearWaitBit s.control.owner / 2 = s.readers
  /-- The wait bit is set while `rq` or `wq` is non-empty. -/
  wait_bit : s.control.rq ≠ [] ∨ s.control.wq ≠ [] → waitBit s.control.owner = 1
  /-- Nobody stays queued on a lock nobody holds. -/
  no_stranded : s.writer = none → s.readers = 0 → s.control.rq = [] ∧ s.control.wq = []
  /-- `wunlock` by a thread that does not hold the write lock returns
  `CELL_EPERM` and changes nothing. -/
  wunlock_perm : ∀ t r s', Step S s ⟨t, .wunlock, some r⟩ s' → s.writer ≠ some t →
    r = .eperm ∧ s' = s
  /-- `runlock` returns `CELL_EPERM`, changing nothing, iff no read lock is
  held; otherwise `CELL_OK`, with one read lock fewer. -/
  runlock : ∀ t r s', Step S s ⟨t, .runlock, some r⟩ s' →
    (r = .eperm ∧ s.readers = 0 ∧ s' = s) ∨
      (r = .ok ∧ 0 < s.readers ∧ s'.readers = s.readers - 1)

/-- Every reachable state of the rwlock keeps its contract. -/
theorem rwlock_contract {S : Setup} {s : State} (hs : Reachable S s) : RwlockContract S s := by
  have h := inv_reachable hs
  exact {
    free := h.encodes.owner_eq_zero_iff
    writer := h.encodes.owner_pos_iff
    readers := h.encodes.owner_neg_iff
    wait_bit := h.encodes.waiting
    no_stranded := h.encodes.free_queues
    wunlock_perm := fun t r s' hstep hw => wunlock_not_writer h hstep hw
    runlock := fun t r s' hstep => runlock_outcome h hstep }

/-- A fresh rwlock, with nobody inside a call. -/
def State.fresh : State := ⟨⟨0, [], []⟩, ⟨0, fun _ => ⟨0, 0⟩⟩, fun _ => .idle, 0, none⟩

theorem State.fresh_init : State.Init State.fresh :=
  ⟨rfl, fun _ => rfl, rfl, rfl⟩

/-! ### `runlock` does not know its caller -/

def reader : PpuId := ⟨1, Nat.one_pos⟩
def stranger : PpuId := ⟨2, Nat.two_pos⟩
def writerThread : PpuId := ⟨3, PpuId.pos_three⟩

/-- The lock keeps a count of read locks, not their holders. On a fresh
lock `reader` takes a read lock; `stranger`, which never took one, calls
`runlock` and gets `CELL_OK`, not `CELL_EPERM`; the word is back to 0 while
`reader` has not given its lock back, and `writerThread` then takes the
write lock beside it. -/
theorem runlock_by_non_reader :
    State.Init State.fresh ∧ ∃ s₁ s₂ s₃, Step ⟨.fifo⟩ State.fresh ⟨reader, .rlock, some .ok⟩ s₁ ∧
      Step ⟨.fifo⟩ s₁ ⟨stranger, .runlock, some .ok⟩ s₂ ∧ s₂.control.owner = 0 ∧
      Step ⟨.fifo⟩ s₂ ⟨writerThread, .wlock, some .ok⟩ s₃ ∧
      ownerId s₃.control.owner = writerThread.id :=
  -- each step's state is the one the previous step produced
  ⟨State.fresh_init, _, _, _, Step.rlockFast rfl (by decide),
    Step.runlockFast rfl (by decide) (by decide), by decide, Step.wlockFast rfl (by decide),
    by decide⟩

/-- Through the slow paths: `writerThread` takes the write lock, `reader` finds it held, sets the
wait bit and sleeps in `rq`; `wunlock` sees the bit, wakes `reader` with its read lock under the
mutex, and `reader` returns from `rlock` holding it. -/
theorem rwlock_contract_handoff :
    ∃ s, Reachable ⟨.fifo⟩ s ∧ s.control.owner = -2 ∧ s.readers = 1 ∧ s.writer = none ∧
      RwlockContract ⟨.fifo⟩ s := by
  have h₁ := (Transition.Reachable.of_init State.fresh_init).next
    (Step.wlockFast (S := ⟨.fifo⟩) (t := writerThread) rfl rfl)
  have h₂ := h₁.next (Step.rlockSleep (t := reader) (v := 7) false rfl (by decide))
  have h₃ := h₂.next (Step.wunlockCheck (t := writerThread) rfl (by decide) (by decide))
  have h₄ := h₃.next (Step.wunlockSlow (t := writerThread) rfl rfl)
  have h₅ := h₄.next (Step.rlockWake (t := reader) (by decide))
  exact ⟨_, h₅, rfl, rfl, rfl, rwlock_contract h₅⟩

end Rpcs3.Lv2.RwlockSystem
