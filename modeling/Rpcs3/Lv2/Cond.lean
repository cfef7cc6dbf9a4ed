import Rpcs3.Lv2.Mutex

/-! `lv2_cond` (sys_cond.h) and the parts of `sys_cond_wait`,
`sys_cond_signal`, `sys_cond_signal_all` and `sys_cond_signal_to`
(sys_cond.cpp) that run under the bound mutex's `mutex.mutex`.

A condition has its own sleep queue `sq` and no other state the calls read:
everything else lives in the mutex. A waiter enters the condition queue and
gives the mutex away in one section; a signal takes a waiter out and
`try_own`s the mutex for it, so the waiter either owns the mutex at once or
moves to the mutex queue, where `reown` picks it up later. The savestate
paths (`loaded_from_savestate`, `cpu_flag::again`) and the `suspend` retry
of the signals are outside the model. -/
namespace Rpcs3.Lv2.Cond

open Rpcs3.Lv2.Sync Rpcs3.Lv2.Mutex

/-- The section of `sys_cond_wait` under `mutex.mutex`: the thread joins the
condition queue, `lock_count.exchange(0)` saves its recursive count, and
`reown` hands the mutex to a waiter of the mutex or frees it. Returns the
saved count, the thread `reown` woke, and the new words. -/
def waitEnter (attr : MutexAttr) (c : Control) (condSq : List PpuId) (p : PrioTable)
    (t : PpuId) : Nat × Option PpuId × Control × List PpuId × PrioTable :=
  let p := p.stamp t
  let (w, c') := reown attr { c with lockCount := 0 } p.prio
  (c.lockCount, w, c', emplace condSq t, p)

/-- The timeout path of `sys_cond_wait` under `mutex.mutex`. A thread still
in the condition queue leaves it with `CELL_ETIMEDOUT` and `try_own`s the
mutex; one a signal already took out keeps `CELL_OK` and owns exactly when
`control.owner` is its id. Returns the code, whether the thread owns, and
the new words. -/
def waitTimeout (c : Control) (condSq : List PpuId) (p : PrioTable) (t : PpuId) :
    CellError × Bool × Control × List PpuId × PrioTable :=
  match unqueue condSq t with
  | some sq =>
    let (owned, c, p) := tryOwn c p t
    (.etimedout, owned, c, sq, p)
  | none => (.ok, decide (c.owner = t.id), c, condSq, p)

/-- `sys_cond_signal` under `mutex.mutex`: `schedule` takes a waiter with the
mutex's protocol and `try_own` either gives it the mutex or queues it on the
mutex. Returns the waiter with whether it owns, and the new words. -/
def signal (attr : MutexAttr) (c : Control) (condSq : List PpuId) (p : PrioTable) :
    Option (PpuId × Bool) × Control × List PpuId × PrioTable :=
  match schedule attr.protocol p.prio condSq with
  | none => (none, c, condSq, p)
  | some w =>
    let (owned, c, p) := tryOwn c p w
    (some (w, owned), c, condSq.erase w, p)

/-- The loop of `sys_cond_signal_all` over the queue it detached from the
condition: while `schedule` (with `SYS_SYNC_PRIORITY`) takes a waiter,
`try_own` it. Returns the waiters in the order taken, each with whether it
owns. `fuel` is the length of the queue. -/
def signalAllLoop : Nat → List PpuId → Control → PrioTable →
    List (PpuId × Bool) × Control × PrioTable
  | 0, _, c, p => ([], c, p)
  | fuel + 1, sq, c, p =>
    match schedule .priority p.prio sq with
    | none => ([], c, p)
    | some w =>
      let (owned, c, p) := tryOwn c p w
      let (rest, c, p) := signalAllLoop fuel (sq.erase w) c p
      ((w, owned) :: rest, c, p)

/-- `sys_cond_signal_all` under `mutex.mutex`: the whole condition queue is
detached and drained. The condition queue is empty afterwards. -/
def signalAll (c : Control) (condSq : List PpuId) (p : PrioTable) :
    List (PpuId × Bool) × Control × PrioTable :=
  signalAllLoop condSq.length condSq c p

/-- `sys_cond_signal_to` under `mutex.mutex` for an existing thread `u`: if
`u` waits on the condition it leaves the queue and `try_own`s the mutex
(the call returns 1, `CELL_OK`); otherwise nothing changes (0,
`CELL_EPERM`). -/
def signalTo (c : Control) (condSq : List PpuId) (p : PrioTable) (u : PpuId) :
    Option (Bool × Control × List PpuId × PrioTable) :=
  match unqueue condSq u with
  | none => none
  | some sq =>
    let (owned, c, p) := tryOwn c p u
    some (owned, c, sq, p)

/-! ### What each section can do -/

theorem waitEnter_eq {attr : MutexAttr} {c c' : Control} {condSq cq : List PpuId}
    {p p' : PrioTable} {t : PpuId} {count : Nat} {w : Option PpuId}
    (h : waitEnter attr c condSq p t = (count, w, c', cq, p')) :
    count = c.lockCount ∧ reown attr { c with lockCount := 0 } (p.stamp t).prio = (w, c') ∧
      cq = t :: condSq ∧ p' = p.stamp t := by
  simp only [waitEnter, emplace, Prod.mk.injEq] at h
  obtain ⟨rfl, hw, hc, rfl, rfl⟩ := h
  exact ⟨rfl, by rw [← hw, ← hc], rfl, rfl⟩

theorem waitTimeout_of_mem {c c' : Control} {condSq cq : List PpuId} {p p' : PrioTable}
    {t : PpuId} {r : CellError} {owned : Bool} (ht : t ∈ condSq)
    (h : waitTimeout c condSq p t = (r, owned, c', cq, p')) :
    r = .etimedout ∧ tryOwn c p t = (owned, c', p') ∧ cq = condSq.erase t := by
  simp only [waitTimeout, unqueue_of_mem ht, Prod.mk.injEq] at h
  obtain ⟨rfl, ho, hc, rfl, hp⟩ := h
  exact ⟨rfl, by rw [← ho, ← hc, ← hp], rfl⟩

/-- The code the timeout path leaves for the call to return. -/
theorem waitTimeout_ret (c : Control) (condSq : List PpuId) (p : PrioTable) (t : PpuId) :
    (waitTimeout c condSq p t).1 = .etimedout ∨ (waitTimeout c condSq p t).1 = .ok := by
  unfold waitTimeout
  split
  · exact .inl rfl
  · exact .inr rfl

theorem signal_none {attr : MutexAttr} {c c' : Control} {condSq cq : List PpuId}
    {p p' : PrioTable} (h : signal attr c condSq p = (none, c', cq, p')) :
    condSq = [] ∧ c' = c ∧ cq = condSq ∧ p' = p := by
  unfold signal at h
  split at h
  · simp only [Prod.mk.injEq] at h
    obtain ⟨-, rfl, rfl, rfl⟩ := h
    exact ⟨schedule_eq_none ‹_›, rfl, rfl, rfl⟩
  · cases h

theorem signal_some {attr : MutexAttr} {c c' : Control} {condSq cq : List PpuId}
    {p p' : PrioTable} {w : PpuId} {owned : Bool}
    (h : signal attr c condSq p = (some (w, owned), c', cq, p')) :
    schedule attr.protocol p.prio condSq = some w ∧ tryOwn c p w = (owned, c', p') ∧
      cq = condSq.erase w := by
  unfold signal at h
  split at h
  · cases h
  · simp only [Prod.mk.injEq, Option.some.injEq] at h
    obtain ⟨⟨rfl, rfl⟩, rfl, rfl, rfl⟩ := h
    exact ⟨‹_›, rfl, rfl⟩

/-- One turn of the drain loop. -/
theorem signalAllLoop_some {fuel : Nat} {sq : List PpuId} {c : Control} {p : PrioTable}
    {w : PpuId} (hw : schedule .priority p.prio sq = some w) :
    signalAllLoop (fuel + 1) sq c p =
      ((w, (tryOwn c p w).1) :: (signalAllLoop fuel (sq.erase w) (tryOwn c p w).2.1
          (tryOwn c p w).2.2).1,
        (signalAllLoop fuel (sq.erase w) (tryOwn c p w).2.1 (tryOwn c p w).2.2).2) := by
  simp [signalAllLoop, hw]

/-- What `try_own` does to the mutex for a thread `w`: the queue only grows,
a held mutex keeps its owner, and `w` ends up the owner or queued. -/
theorem tryOwn_moves {c c' : Control} {p p' : PrioTable} {w : PpuId} {owned : Bool}
    (h : tryOwn c p w = (owned, c', p')) :
    (∀ e ∈ c.sq, e ∈ c'.sq) ∧ (c.owner ≠ 0 → c'.owner = c.owner) ∧
      (c'.owner = w.id ∨ w ∈ c'.sq) := by
  cases owned with
  | true =>
    obtain ⟨ho, rfl⟩ := tryOwn_true h
    exact ⟨fun e he => he, fun h' => absurd ho h', .inl rfl⟩
  | false =>
    obtain ⟨-, rfl, -⟩ := tryOwn_false h
    exact ⟨fun e he => List.mem_cons_of_mem w he, fun _ => rfl, .inr List.mem_cons_self⟩

/-- What the drain loop does to the mutex: every waiter it takes owns the
mutex afterwards or sleeps in the mutex queue, nobody leaves the mutex
queue, and a held mutex keeps its owner. The induction is on the fuel, which
is the length of the queue. -/
theorem signalAllLoop_moves (n : Nat) {sq : List PpuId} {c c' : Control} {p p' : PrioTable}
    {picks : List (PpuId × Bool)} (hn : sq.length = n)
    (h : signalAllLoop n sq c p = (picks, c', p')) :
    (∀ w ∈ sq, c'.owner = w.id ∨ w ∈ c'.sq) ∧ (∀ e ∈ c.sq, e ∈ c'.sq) ∧
      (c.owner ≠ 0 → c'.owner = c.owner) := by
  induction n generalizing sq c p picks with
  | zero =>
    rw [List.eq_nil_of_length_eq_zero hn]
    simp only [signalAllLoop, Prod.mk.injEq] at h
    obtain ⟨-, rfl, -⟩ := h
    exact ⟨by simp, fun e he => he, fun _ => rfl⟩
  | succ n ih =>
    obtain ⟨w, hw⟩ := schedule_isSome .priority p.prio (List.ne_nil_of_length_eq_add_one hn)
    have hwm : w ∈ sq := schedule_mem hw
    rw [signalAllLoop_some hw] at h
    generalize hr : signalAllLoop n (sq.erase w) (tryOwn c p w).2.1 (tryOwn c p w).2.2 = rest at h
    obtain ⟨rest, c₁, p₁⟩ := rest
    simp only [Prod.mk.injEq] at h
    obtain ⟨-, rfl, rfl⟩ := h
    have hn1 : (sq.erase w).length = n := by
      rw [List.length_erase_of_mem hwm, hn]
      rfl
    -- the turn that takes `w`, then the rest of the loop
    have ht : tryOwn c p w = ((tryOwn c p w).1, (tryOwn c p w).2.1, (tryOwn c p w).2.2) := rfl
    obtain ⟨hsq, hown, hw'⟩ := tryOwn_moves ht
    obtain ⟨ihw, ihsq, ihown⟩ := ih hn1 hr
    refine ⟨fun x hx => ?_, fun e he => ihsq e (hsq e he), fun ho => ?_⟩
    · by_cases hxw : x = w
      · subst hxw
        rcases hw' with ho | hq
        · exact .inl ((ihown (by rw [ho]; exact PpuId.id_ne_zero x)).trans ho)
        · exact .inr (ihsq x hq)
      · exact ihw x (List.mem_erase_of_ne hxw |>.mpr hx)
    · rw [ihown (by rw [hown ho]; exact ho), hown ho]

theorem signalTo_none {c : Control} {condSq : List PpuId} {p : PrioTable} {u : PpuId} :
    signalTo c condSq p u = none ↔ u ∉ condSq := by
  by_cases hu : u ∈ condSq
  · simp [signalTo, unqueue_of_mem hu, hu]
  · simp [signalTo, unqueue_of_not_mem hu, hu]

theorem signalTo_some {c c' : Control} {condSq cq : List PpuId} {p p' : PrioTable} {u : PpuId}
    {owned : Bool} (h : signalTo c condSq p u = some (owned, c', cq, p')) :
    u ∈ condSq ∧ tryOwn c p u = (owned, c', p') ∧ cq = condSq.erase u := by
  have hu : u ∈ condSq := by
    by_contra hu
    rw [signalTo_none.mpr hu] at h
    cases h
  simp only [signalTo, unqueue_of_mem hu, Option.some.injEq, Prod.mk.injEq] at h
  obtain ⟨rfl, hc, rfl, hp⟩ := h
  exact ⟨hu, by rw [← hc, ← hp], rfl⟩

end Rpcs3.Lv2.Cond
