import Mathlib
import Rpcs3.Lib.Transition
import Rpcs3.Lib.Flag

/-! `CellSyncQueue` (`cellSync.h`, `cellSync.cpp`): a ring of `depth` slots with one 64-bit
control word. `next` and `count` are 24-bit fields, `_pop` and `_push` 8-bit busy flags.
`try_push_begin` reserves slot `next` and counts the element before its `memcpy`,
`try_pop_begin` uncounts the oldest element and `try_peek_begin` only marks the pop side busy;
`push_end` and `pop_end` clear the flags. `cellSyncQueueClear` takes both flags and stores `0`.

Each `atomic_op` on the control word is a step, and so is each `memcpy`. The pushed values,
in the order of their `try_push_begin`, are ghost state; the slot of the `m`-th push is
`(m - base) % depth`, where `base` counts the pushes before the last clear.

For every `depth`, `count ≤ depth` and `next < depth` on every run (`CtrlOk`). Below `2 ^ 24`
the ring is a FIFO with unshared slots (`Inv`): a pusher never writes the slot a reader reads
or a slot of an element still queued, a reader only reads a slot its push filled and left
with `push_end`, pops take the elements in push order, and each element is popped once or
dropped by a clear. At `depth = 2 ^ 24` the 24-bit `count` wraps to `0` on the last push of
a full ring (`push_count_wraps`). -/
namespace Rpcs3.Cell.SyncQueue

open Transition BusyFlag

/-- `CellSyncQueue::ctrl_t`. -/
structure Ctrl where
  next : ℕ
  pop : ℕ
  count : ℕ
  push : ℕ
  deriving DecidableEq, Repr

def tryPushBegin (ctrl : Ctrl) (depth : ℕ) : Option (ℕ × Ctrl) :=
  if ctrl.push ≠ 0 ∨ ctrl.count + ctrl.pop ≥ depth then none
  else some (ctrl.next, { ctrl with next := (if ctrl.next + 1 ≠ depth then ctrl.next + 1 else 0) % 2 ^ 24,
                                    count := (ctrl.count + 1) % 2 ^ 24, push := 1 })

def pushEnd (ctrl : Ctrl) : Ctrl := { ctrl with push := 0 }

/-- The position is `next + depth - count` in `u32`. -/
def tryPopBegin (ctrl : Ctrl) (depth : ℕ) : Option (ℕ × Ctrl) :=
  if ctrl.pop ≠ 0 ∨ ctrl.count ≤ ctrl.push then none
  else some ((ctrl.next + depth + 2 ^ 32 - ctrl.count) % 2 ^ 32,
             { ctrl with pop := 1, count := (ctrl.count - 1) % 2 ^ 24 })

def tryPeekBegin (ctrl : Ctrl) (depth : ℕ) : Option (ℕ × Ctrl) :=
  if ctrl.pop ≠ 0 ∨ ctrl.count ≤ ctrl.push then none
  else some ((ctrl.next + depth + 2 ^ 32 - ctrl.count) % 2 ^ 32, { ctrl with pop := 1 })

def popEnd (ctrl : Ctrl) : Ctrl := { ctrl with pop := 0 }

def tryClearBegin1 (ctrl : Ctrl) : Option Ctrl :=
  if ctrl.pop ≠ 0 then none else some { ctrl with pop := 1 }

def tryClearBegin2 (ctrl : Ctrl) : Option Ctrl :=
  if ctrl.push ≠ 0 then none else some { ctrl with push := 1 }

/-- `check_depth`: the pointers `cellSyncQueuePush` and the others check before their loop. -/
def checkDepth (ctrl : Ctrl) (depth : ℕ) : Bool :=
  !(decide (ctrl.next > depth) || decide (ctrl.count > depth))

theorem tryPushBegin_eq_some {ctrl c : Ctrl} {depth pos : ℕ}
    (h : tryPushBegin ctrl depth = some (pos, c)) :
    ctrl.push = 0 ∧ ctrl.count + ctrl.pop < depth ∧ pos = ctrl.next ∧
      c = { ctrl with next := (if ctrl.next + 1 ≠ depth then ctrl.next + 1 else 0) % 2 ^ 24,
                      count := (ctrl.count + 1) % 2 ^ 24, push := 1 } := by
  unfold tryPushBegin at h
  by_cases hc : ctrl.push ≠ 0 ∨ ctrl.count + ctrl.pop ≥ depth
  · rw [if_pos hc] at h
    cases h
  · rw [if_neg hc] at h
    obtain ⟨rfl, rfl⟩ := Prod.mk.inj (Option.some.inj h)
    exact ⟨by omega, by omega, rfl, rfl⟩

theorem tryPopBegin_eq_some {ctrl c : Ctrl} {depth pos : ℕ}
    (h : tryPopBegin ctrl depth = some (pos, c)) :
    ctrl.pop = 0 ∧ ctrl.push < ctrl.count ∧ pos = (ctrl.next + depth + 2 ^ 32 - ctrl.count) % 2 ^ 32 ∧
      c = { ctrl with pop := 1, count := (ctrl.count - 1) % 2 ^ 24 } := by
  unfold tryPopBegin at h
  split_ifs at h with hc
  obtain ⟨rfl, rfl⟩ := Prod.mk.inj (Option.some.inj h)
  exact ⟨by omega, by omega, rfl, rfl⟩

theorem tryPeekBegin_eq_some {ctrl c : Ctrl} {depth pos : ℕ}
    (h : tryPeekBegin ctrl depth = some (pos, c)) :
    ctrl.pop = 0 ∧ ctrl.push < ctrl.count ∧ pos = (ctrl.next + depth + 2 ^ 32 - ctrl.count) % 2 ^ 32 ∧
      c = { ctrl with pop := 1 } := by
  unfold tryPeekBegin at h
  split_ifs at h with hc
  obtain ⟨rfl, rfl⟩ := Prod.mk.inj (Option.some.inj h)
  exact ⟨by omega, by omega, rfl, rfl⟩

theorem tryClearBegin1_eq_some {ctrl c : Ctrl} (h : tryClearBegin1 ctrl = some c) :
    ctrl.pop = 0 ∧ c = { ctrl with pop := 1 } := by
  unfold tryClearBegin1 at h
  split_ifs at h with hc
  exact ⟨by omega, (Option.some.inj h).symm⟩

theorem tryClearBegin2_eq_some {ctrl c : Ctrl} (h : tryClearBegin2 ctrl = some c) :
    ctrl.push = 0 ∧ c = { ctrl with push := 1 } := by
  unfold tryClearBegin2 at h
  split_ifs at h with hc
  exact ⟨by omega, (Option.some.inj h).symm⟩

/-! ### Threads -/

/-- Where a thread is: between a `try_*_begin` and its `memcpy`, between the `memcpy` and the
`*_end`, or in `cellSyncQueueClear` after it took the pop flag, and then also the push flag. -/
inductive Pc (T : Type*) where
  | idle
  | push (pos : ℕ) (v : T)
  | pushCopied
  | pop (peek : Bool) (pos : ℕ)
  | popCopied (peek : Bool) (v : Option T)
  | clear1
  | clear2

variable {τ T : Type*}

/-- The thread owns the push flag. -/
def Pc.holdsPush : Pc T → Bool
  | .push _ _ | .pushCopied | .clear2 => true
  | _ => false

/-- The thread owns the pop flag. -/
def Pc.holdsPop : Pc T → Bool
  | .pop _ _ | .popCopied _ _ | .clear1 | .clear2 => true
  | _ => false

/-- A pusher that has not reached `push_end`. -/
def Pc.pushing : Pc T → Bool
  | .push _ _ | .pushCopied => true
  | _ => false

structure State (τ T : Type*) where
  ctrl : Ctrl
  buf : ℕ → Option T
  pc : τ → Pc T
  /-- Ghost: the pushed values in the order of their `try_push_begin`. -/
  pushed : List T
  /-- Ghost: how many pushed values left the queue, by a pop or a clear. -/
  head : ℕ
  /-- Ghost: how many values were pushed before the last clear. -/
  base : ℕ
  /-- Ghost: the push index of the element a pop took and has not copied yet. -/
  taking : List ℕ
  /-- Ghost: what each pop or peek copied: whether a peek, the push index of the element, the
  value read. -/
  results : List (Bool × ℕ × Option T)
  /-- Ghost: the push indices of the values a clear dropped. -/
  dropped : List ℕ

def init : State τ T := ⟨⟨0, 0, 0, 0⟩, fun _ => none, fun _ => .idle, [], 0, 0, [], [], []⟩

variable (depth : ℕ)

variable [DecidableEq τ] in
inductive Step : State τ T → τ → State τ T → Prop
  | pushBegin {s : State τ T} {p : τ} {v : T} {pos : ℕ} {c : Ctrl} (hp : s.pc p = .idle)
      (h : tryPushBegin s.ctrl depth = some (pos, c)) :
      Step s p { s with ctrl := c, pc := Function.update s.pc p (.push pos v),
                        pushed := s.pushed ++ [v] }
  /-- `memcpy(&queue->buffer[position * queue->size], buffer, queue->size)`. -/
  | pushCopy {s : State τ T} {p : τ} {pos : ℕ} {v : T} (hp : s.pc p = .push pos v) :
      Step s p { s with buf := Function.update s.buf pos (some v),
                        pc := Function.update s.pc p .pushCopied }
  | pushEnd {s : State τ T} {p : τ} (hp : s.pc p = .pushCopied) :
      Step s p { s with ctrl := pushEnd s.ctrl, pc := Function.update s.pc p .idle }
  | popBegin {s : State τ T} {p : τ} {pos : ℕ} {c : Ctrl} (hp : s.pc p = .idle)
      (h : tryPopBegin s.ctrl depth = some (pos, c)) :
      Step s p { s with ctrl := c, pc := Function.update s.pc p (.pop false pos),
                        head := s.head + 1, taking := [s.head] }
  | peekBegin {s : State τ T} {p : τ} {pos : ℕ} {c : Ctrl} (hp : s.pc p = .idle)
      (h : tryPeekBegin s.ctrl depth = some (pos, c)) :
      Step s p { s with ctrl := c, pc := Function.update s.pc p (.pop true pos) }
  /-- `memcpy(buffer, &queue->buffer[position % depth * queue->size], queue->size)`. -/
  | popCopy {s : State τ T} {p : τ} {peek : Bool} {pos : ℕ} (hp : s.pc p = .pop peek pos) :
      Step s p { s with pc := Function.update s.pc p (.popCopied peek (s.buf (pos % depth))),
                        taking := if peek then s.taking else [],
                        results := s.results ++
                          [(peek, if peek then s.head else s.head - 1, s.buf (pos % depth))] }
  | popEnd {s : State τ T} {p : τ} {peek : Bool} {v : Option T} (hp : s.pc p = .popCopied peek v) :
      Step s p { s with ctrl := popEnd s.ctrl, pc := Function.update s.pc p .idle }
  | clearBegin1 {s : State τ T} {p : τ} {c : Ctrl} (hp : s.pc p = .idle)
      (h : tryClearBegin1 s.ctrl = some c) :
      Step s p { s with ctrl := c, pc := Function.update s.pc p .clear1 }
  | clearBegin2 {s : State τ T} {p : τ} {c : Ctrl} (hp : s.pc p = .clear1)
      (h : tryClearBegin2 s.ctrl = some c) :
      Step s p { s with ctrl := c, pc := Function.update s.pc p .clear2 }
  /-- `queue->ctrl.store({})`: the queued elements are dropped. -/
  | clearStore {s : State τ T} {p : τ} (hp : s.pc p = .clear2) :
      Step s p { s with ctrl := ⟨0, 0, 0, 0⟩, pc := Function.update s.pc p .idle,
                        head := s.pushed.length, base := s.pushed.length,
                        dropped := s.dropped ++ List.range' s.head (s.pushed.length - s.head) }

/-! ### The pointers, for every depth -/

/-- The pointers `check_depth` accepts, and busy flags of one bit. -/
structure CtrlOk (ctrl : Ctrl) : Prop where
  next_lt : ctrl.next < depth
  count_le : ctrl.count ≤ depth
  push_le : ctrl.push ≤ 1
  pop_le : ctrl.pop ≤ 1

theorem checkDepth_of_ctrlOk {ctrl : Ctrl} (h : CtrlOk depth ctrl) :
    checkDepth ctrl depth = true := by
  have h1 := h.next_lt
  have h2 := h.count_le
  simp [checkDepth]
  omega

theorem ctrlOk_init (hd : 0 < depth) : CtrlOk depth ⟨0, 0, 0, 0⟩ :=
  ⟨hd, Nat.zero_le _, Nat.zero_le _, Nat.zero_le _⟩

theorem CtrlOk.tryPushBegin {ctrl c : Ctrl} {pos : ℕ} (h : CtrlOk depth ctrl)
    (e : tryPushBegin ctrl depth = some (pos, c)) : CtrlOk depth c := by
  obtain ⟨-, hroom, -, rfl⟩ := tryPushBegin_eq_some e
  have hnext := h.next_lt
  refine ⟨?_, ?_, by simp, h.pop_le⟩
  · dsimp only
    split_ifs with hn
    · exact lt_of_le_of_lt (Nat.mod_le _ _) (by omega)
    · simpa using lt_of_le_of_lt (Nat.zero_le _) hnext
  · exact le_trans (Nat.mod_le _ _) (by omega)

theorem CtrlOk.tryPopBegin {ctrl c : Ctrl} {pos : ℕ} (h : CtrlOk depth ctrl)
    (e : tryPopBegin ctrl depth = some (pos, c)) : CtrlOk depth c := by
  obtain ⟨-, -, -, rfl⟩ := tryPopBegin_eq_some e
  exact ⟨h.next_lt, le_trans (Nat.mod_le _ _) (le_trans (Nat.sub_le _ _) h.count_le), h.push_le,
    le_rfl⟩

theorem CtrlOk.tryPeekBegin {ctrl c : Ctrl} {pos : ℕ} (h : CtrlOk depth ctrl)
    (e : tryPeekBegin ctrl depth = some (pos, c)) : CtrlOk depth c := by
  obtain ⟨-, -, -, rfl⟩ := tryPeekBegin_eq_some e
  exact ⟨h.next_lt, h.count_le, h.push_le, le_rfl⟩

theorem CtrlOk.tryClearBegin1 {ctrl c : Ctrl} (h : CtrlOk depth ctrl)
    (e : tryClearBegin1 ctrl = some c) : CtrlOk depth c := by
  obtain ⟨-, rfl⟩ := tryClearBegin1_eq_some e
  exact ⟨h.next_lt, h.count_le, h.push_le, le_rfl⟩

theorem CtrlOk.tryClearBegin2 {ctrl c : Ctrl} (h : CtrlOk depth ctrl)
    (e : tryClearBegin2 ctrl = some c) : CtrlOk depth c := by
  obtain ⟨-, rfl⟩ := tryClearBegin2_eq_some e
  exact ⟨h.next_lt, h.count_le, le_rfl, h.pop_le⟩

variable [DecidableEq τ]

theorem ctrlOk_step (hd : 0 < depth) {s t : State τ T} {p : τ} (hs : CtrlOk depth s.ctrl)
    (hst : Step depth s p t) : CtrlOk depth t.ctrl := by
  cases hst with
  | pushBegin _ h => exact hs.tryPushBegin depth h
  | pushCopy _ => exact hs
  | pushEnd _ => exact ⟨hs.next_lt, hs.count_le, Nat.zero_le _, hs.pop_le⟩
  | popBegin _ h => exact hs.tryPopBegin depth h
  | peekBegin _ h => exact hs.tryPeekBegin depth h
  | popCopy _ => exact hs
  | popEnd _ => exact ⟨hs.next_lt, hs.count_le, hs.push_le, Nat.zero_le _⟩
  | clearBegin1 _ h => exact hs.tryClearBegin1 depth h
  | clearBegin2 _ h => exact hs.tryClearBegin2 depth h
  | clearStore _ => exact ctrlOk_init depth hd

/-- For every depth, the pointers stay in the ring and `check_depth` never throws. -/
theorem ctrlOk_of_reachable (hd : 0 < depth) {s : State τ T}
    (h : Reachable (· = init) (Step depth) s) : CtrlOk depth s.ctrl :=
  h.invariant (fun _ h => h ▸ ctrlOk_init depth hd) (fun _ _ _ hs hst => ctrlOk_step depth hd hs hst)

/-- A whole push by an idle thread: its begin, its `memcpy` and its `push_end`. -/
theorem push_cycle_reachable {s : State τ T} (hr : Reachable (· = init) (Step depth) s) {p : τ}
    (hp : s.pc p = .idle) {v : T} {pos : ℕ} {c : Ctrl}
    (h : tryPushBegin s.ctrl depth = some (pos, c)) :
    Reachable (· = init) (Step depth)
      { s with ctrl := pushEnd c, buf := Function.update s.buf pos (some v),
               pushed := s.pushed ++ [v] } := by
  have r1 := hr.next (Step.pushBegin (v := v) hp h)
  have r2 := r1.next (Step.pushCopy (Function.update_self _ _ _))
  have r3 := r2.next (Step.pushEnd (Function.update_self _ _ _))
  convert r3 using 2
  rw [Function.update_idem, Function.update_idem, ← hp, Function.update_eq_self]

/-- At depth three, thread `0` pushes `10` and `20` and pops `10`; then thread `1` begins a
push of `30` into the last slot, and thread `0` begins a pop of `20` while it is under way. -/
theorem pop_during_push_reachable :
    ∃ s : State ℕ ℕ, Reachable (· = init) (Step 3) s ∧ s.pc 1 = .push 2 30 ∧
      s.pc 0 = .pop false 1 ∧ s.results = [(false, 0, some 10)] ∧ s.ctrl = ⟨0, 1, 1, 1⟩ := by
  have h₀ : Reachable (· = init) (Step 3) (init : State ℕ ℕ) := Reachable.of_init rfl
  -- thread `0` pushes `10` into slot `0` and `20` into slot `1`, and pops `10`
  have h₁ := push_cycle_reachable 3 h₀ (p := 0) (v := 10) rfl
    (show tryPushBegin ⟨0, 0, 0, 0⟩ 3 = some (0, ⟨1, 0, 1, 1⟩) from rfl)
  have h₂ := push_cycle_reachable 3 h₁ (p := 0) (v := 20) rfl
    (show tryPushBegin ⟨1, 0, 1, 0⟩ 3 = some (1, ⟨2, 0, 2, 1⟩) from rfl)
  have h₃ := h₂.next (Step.popBegin (p := 0) rfl
    (show tryPopBegin ⟨2, 0, 2, 0⟩ 3 = some (3, ⟨2, 1, 1, 0⟩) from rfl))
  have h₄ := h₃.next (Step.popCopy (p := 0) rfl)
  have h₅ := h₄.next (Step.popEnd (p := 0) rfl)
  -- thread `1` begins a push into slot `2`, and thread `0` a pop of `20` meanwhile
  have h₆ := h₅.next (Step.pushBegin (p := 1) (v := 30) rfl
    (show tryPushBegin ⟨2, 0, 1, 0⟩ 3 = some (2, ⟨0, 0, 2, 1⟩) from rfl))
  have h₇ := h₆.next (Step.popBegin (p := 0) rfl
    (show tryPopBegin ⟨0, 0, 2, 1⟩ 3 = some (1, ⟨0, 1, 1, 1⟩) from rfl))
  exact ⟨_, h₇, rfl, rfl, rfl, rfl⟩

/-- With a push and a pop both begun, both flags are up and the control word is in the ring. -/
theorem ctrlOk_pop_during_push :
    ∃ s : State ℕ ℕ, Reachable (· = init) (Step 3) s ∧ s.ctrl = ⟨0, 1, 1, 1⟩ ∧
      CtrlOk 3 s.ctrl ∧ checkDepth s.ctrl 3 = true := by
  obtain ⟨s, hr, -, -, -, hctrl⟩ := pop_during_push_reachable
  have hok := ctrlOk_of_reachable 3 (by decide) hr
  exact ⟨s, hr, hctrl, hok, checkDepth_of_ctrlOk 3 hok⟩

/-! ### Ring arithmetic -/

omit [DecidableEq τ] in
/-- Two pushes less than a ring apart have different slots. -/
theorem slot_ne {base a b : ℕ} (ha : base ≤ a) (hab : a < b) (hlt : b - a < depth) :
    (a - base) % depth ≠ (b - base) % depth := by
  intro h
  have hdvd : depth ∣ (b - base) - (a - base) := (Nat.modEq_iff_dvd' (by omega)).1 h
  have := Nat.le_of_dvd (by omega) hdvd
  omega

omit [DecidableEq τ] in
/-- `next` wraps to `0` at `depth`. -/
theorem next_succ (hd : 0 < depth) (x : ℕ) :
    (if x % depth + 1 ≠ depth then x % depth + 1 else 0) = (x + 1) % depth := by
  have hx := Nat.div_add_mod x depth
  have hr := Nat.mod_lt x hd
  split_ifs with h
  · conv_rhs => rw [← hx, Nat.add_assoc, Nat.mul_add_mod_self_left]
    exact (Nat.mod_eq_of_lt (by omega)).symm
  · have h' : x % depth + 1 = depth := by omega
    rw [← hx, Nat.add_assoc, h', ← Nat.mul_succ, Nat.mul_mod_right]

omit [DecidableEq τ] in
/-- The position `try_pop_begin` and `try_peek_begin` compute is the slot of the oldest
element. -/
theorem pop_pos_mod (hd : 0 < depth) (hdl : depth < 2 ^ 24) {len base head : ℕ}
    (hc : len - head ≤ depth) (hbh : base ≤ head) (hhl : head ≤ len) :
    ((len - base) % depth + depth + 2 ^ 32 - (len - head)) % 2 ^ 32 % depth =
      (head - base) % depth := by
  have hr := Nat.mod_lt (len - base) hd
  have h32 : ((len - base) % depth + depth + 2 ^ 32 - (len - head)) % 2 ^ 32 =
      (len - base) % depth + (depth - (len - head)) := by
    rw [show (len - base) % depth + depth + 2 ^ 32 - (len - head) =
        (len - base) % depth + (depth - (len - head)) + 2 ^ 32 by omega, Nat.add_mod_right,
      Nat.mod_eq_of_lt (by omega)]
  rw [h32, Nat.mod_add_mod, show len - base + (depth - (len - head)) = head - base + depth by omega,
    Nat.add_mod_right]

/-! ### The ring below `2 ^ 24` -/

/-- The slot of the `m`-th push, `base` pushes after the last clear. -/
def slot (base m : ℕ) : ℕ := (m - base) % depth

/-- The push indices of the elements the pops copied, in order. -/
def popIndices (results : List (Bool × ℕ × Option T)) : List ℕ :=
  results.filterMap fun r => if r.1 then none else some r.2.1

@[simp] theorem popIndices_append (r r' : List (Bool × ℕ × Option T)) :
    popIndices (r ++ r') = popIndices r ++ popIndices r' := by
  simp [popIndices]

@[simp] theorem popIndices_single (peek : Bool) (i : ℕ) (v : Option T) :
    popIndices [(peek, i, v)] = if peek then [] else [i] := by
  cases peek <;> rfl

/-- What a thread's position says: a pusher writes the slot of the newest element, whose value
it holds; a pop has taken the element before the oldest, whose slot it reads, still filled and
apart from the queued ones; a peek reads the slot of the oldest element. -/
def PcOk (s : State τ T) : Pc T → Prop
  | .push pos v => pos = slot depth s.base (s.pushed.length - 1) ∧ s.pushed.getLast? = some v ∧
      s.head < s.pushed.length
  | .pushCopied => s.head < s.pushed.length
  | .pop false pos => s.base < s.head ∧ s.taking = [s.head - 1] ∧
      pos % depth = slot depth s.base (s.head - 1) ∧
      s.buf (slot depth s.base (s.head - 1)) = s.pushed[s.head - 1]? ∧
      s.pushed.length - s.head + 1 ≤ depth
  | .pop true pos => s.head < s.pushed.length ∧ pos % depth = slot depth s.base s.head
  | _ => True

/-- The control word counts the ghost queue, the flags have their owners, every queued element
but the one being written is in its slot, and each element that left was popped once or
dropped once. -/
structure Inv (s : State τ T) : Prop where
  base_le : s.base ≤ s.head
  head_le : s.head ≤ s.pushed.length
  count_eq : s.ctrl.count = s.pushed.length - s.head
  next_eq : s.ctrl.next = (s.pushed.length - s.base) % depth
  count_le : s.pushed.length - s.head ≤ depth
  push_flag : Owned s.ctrl.push fun p => (s.pc p).holdsPush = true
  pop_flag : Owned s.ctrl.pop fun p => (s.pc p).holdsPop = true
  pc_ok : ∀ p, PcOk depth s (s.pc p)
  fresh : ∀ p q pos, (s.pc p).pushing = true → s.pc q = .pop true pos →
    s.head + 1 < s.pushed.length
  written : ∀ m, s.head ≤ m → m < s.pushed.length →
    (∀ p pos v, s.pc p = .push pos v → m + 1 ≠ s.pushed.length) →
    s.buf (slot depth s.base m) = s.pushed[m]?
  taking_ok : s.taking = [] ∨ ∃ p pos, s.pc p = .pop false pos
  results_ok : ∀ r ∈ s.results, r.2.1 < s.pushed.length ∧ r.2.2 = s.pushed[r.2.1]?
  sorted : (popIndices s.results).Pairwise (· < ·)
  accounted : (popIndices s.results ++ s.taking ++ s.dropped).Perm (List.range s.head)

omit [DecidableEq τ] in
/-- A thread's position reads only the ghost queue, the buffer and `taking`. -/
theorem PcOk.of_eq {s t : State τ T} {c : Pc T} (h : PcOk depth s c)
    (hpushed : t.pushed = s.pushed) (hbuf : t.buf = s.buf) (hhead : t.head = s.head)
    (hbase : t.base = s.base) (htaking : t.taking = s.taking) : PcOk depth t c := by
  unfold PcOk slot at *
  rw [hpushed, hbuf, hhead, hbase, htaking]
  exact h

omit [DecidableEq τ] in
theorem inv_init : Inv depth (init : State τ T) where
  base_le := le_rfl
  head_le := le_rfl
  count_eq := rfl
  next_eq := by simp [init]
  count_le := Nat.zero_le _
  push_flag := .inl ⟨rfl, fun _ => Bool.false_ne_true⟩
  pop_flag := .inl ⟨rfl, fun _ => Bool.false_ne_true⟩
  pc_ok _ := trivial
  fresh _ _ _ h := by cases h
  written _ _ h := by simp [init] at h
  taking_ok := .inl rfl
  results_ok _ h := by cases h
  sorted := List.Pairwise.nil
  accounted := by simp [init, popIndices]

/-! ### Steps -/

/-- A step that changes only the flags and one thread, which neither starts nor ends between
a begin and its `memcpy`, keeps the invariant. -/
theorem Inv.local {s : State τ T} (hs : Inv depth s) {p : τ} {c : Pc T} {ctrl : Ctrl}
    (hcount : ctrl.count = s.ctrl.count) (hnext : ctrl.next = s.ctrl.next)
    (hpush : Owned ctrl.push fun q => (Function.update s.pc p c q).holdsPush = true)
    (hpop : Owned ctrl.pop fun q => (Function.update s.pc p c q).holdsPop = true)
    (hold : ∀ pos v, s.pc p ≠ .push pos v) (hold' : ∀ peek pos, s.pc p ≠ .pop peek pos)
    (hnew : c.pushing = false) (hnew' : ∀ peek pos, c ≠ .pop peek pos) (hok : PcOk depth s c) :
    Inv depth { s with ctrl := ctrl, pc := Function.update s.pc p c } := by
  -- the threads other than `p` are as they were
  have hpc : ∀ q, q ≠ p → Function.update s.pc p c q = s.pc q :=
    fun q hq => Function.update_of_ne hq _ _
  refine ⟨hs.base_le, hs.head_le, by rw [← hs.count_eq]; exact hcount,
    by rw [← hs.next_eq]; exact hnext, hs.count_le, hpush, hpop, ?_, ?_, ?_, ?_, hs.results_ok,
    hs.sorted, hs.accounted⟩
  · intro q
    dsimp only
    by_cases hq : q = p
    · rw [hq, Function.update_self]
      exact hok.of_eq depth rfl rfl rfl rfl rfl
    · rw [hpc q hq]
      exact (hs.pc_ok q).of_eq depth rfl rfl rfl rfl rfl
  · intro p' q pos hp' hq
    dsimp only at hp' hq
    have hqp : q ≠ p := by
      rintro rfl
      simp only [Function.update_self] at hq
      exact hnew' _ _ hq
    have hp'p : p' ≠ p := by
      rintro rfl
      simp [hnew] at hp'
    rw [hpc p' hp'p] at hp'
    rw [hpc q hqp] at hq
    exact hs.fresh p' q pos hp' hq
  · intro m hm hml hpushers
    refine hs.written m hm hml fun q pos v hq => ?_
    have hqp : q ≠ p := by
      rintro rfl
      exact hold pos v hq
    exact hpushers q pos v (by rw [← hq]; exact hpc q hqp)
  · rcases hs.taking_ok with h | ⟨q, pos, hq⟩
    · exact .inl h
    · have hqp : q ≠ p := by
        rintro rfl
        exact hold' false pos hq
      exact .inr ⟨q, pos, by rw [← hq]; exact hpc q hqp⟩

/-- `try_push_begin` counts the new element at the end of the ghost queue and gives its slot,
`next`, to the pusher: the push flag was free, so no other element is being written. -/
theorem Inv.pushBegin (hd : 0 < depth) (hdl : depth < 2 ^ 24) {s : State τ T}
    (hs : Inv depth s) {p : τ} {v : T} {pos : ℕ} {c : Ctrl} (hp : s.pc p = .idle)
    (h : tryPushBegin s.ctrl depth = some (pos, c)) :
    Inv depth { s with ctrl := c, pc := Function.update s.pc p (.push pos v),
                       pushed := s.pushed ++ [v] } := by
  obtain ⟨hpush, hroom, rfl, rfl⟩ := tryPushBegin_eq_some h
  have hnopush : ∀ q, (s.pc q).holdsPush ≠ true := hs.push_flag.not_holds hpush
  have hpc : ∀ q, q ≠ p → Function.update s.pc p (.push s.ctrl.next v) q = s.pc q :=
    fun q hq => Function.update_of_ne hq _ _
  have hcount := hs.count_eq
  have hhead := hs.head_le
  have hbase := hs.base_le
  -- the queue grows by one element, and still fits the ring with a pop in flight
  have hgrow : s.pushed.length - s.head + 1 + s.ctrl.pop ≤ depth := by omega
  have happ : ∀ m, m < s.pushed.length → (s.pushed ++ [v])[m]? = s.pushed[m]? :=
    fun m hm => List.getElem?_append_left hm
  refine ⟨hbase, by simp; omega, ?_, ?_, by simp; omega, hs.push_flag.acquire hpush rfl,
    hs.pop_flag.update (by rw [hp]; rfl), ?_, ?_, ?_, ?_, ?_, hs.sorted, hs.accounted⟩
  · dsimp only
    rw [Nat.mod_eq_of_lt (by omega), hcount, List.length_append, List.length_singleton]
    omega
  · dsimp only
    rw [hs.next_eq, next_succ depth hd, Nat.mod_eq_of_lt (lt_trans (Nat.mod_lt _ hd) hdl),
      List.length_append, List.length_singleton]
    congr 1
    omega
  · intro q
    dsimp only
    by_cases hq : q = p
    · rw [hq, Function.update_self]
      refine ⟨?_, by simp, by simp; omega⟩
      simp only [slot, List.length_append, List.length_singleton, Nat.add_sub_cancel]
      exact hs.next_eq
    · rw [hpc q hq]
      have hok := hs.pc_ok q
      cases hc : s.pc q with
      | push pos' v' => exact absurd (by rw [hc]; rfl) (hnopush q)
      | pushCopied => exact absurd (by rw [hc]; rfl) (hnopush q)
      | pop peek pos' =>
        rw [hc] at hok
        cases peek with
        | false =>
          obtain ⟨h1, h2, h3, h4, h5⟩ := hok
          have hpop : s.ctrl.pop = 1 := hs.pop_flag.eq_one (p := q) (by rw [hc]; rfl)
          refine ⟨h1, h2, h3, ?_, ?_⟩
          · dsimp only
            rw [happ _ (by omega)]
            exact h4
          · dsimp only
            rw [List.length_append, List.length_singleton]
            omega
        | true =>
          obtain ⟨h1, h2⟩ := hok
          refine ⟨?_, h2⟩
          dsimp only
          rw [List.length_append, List.length_singleton]
          omega
      | _ => trivial
  · intro p' q pos hp' hq
    dsimp only at hp' hq
    have hqp : q ≠ p := by
      rintro rfl
      simp at hq
    rw [hpc q hqp] at hq
    have hok := hs.pc_ok q
    rw [hq] at hok
    simp only [List.length_append, List.length_singleton]
    have := hok.1
    omega
  · -- the new element is the one being written; the others were written before
    intro m hm hml hpushers
    dsimp only at hm hml
    rw [List.length_append, List.length_singleton] at hml
    have hmp : m + 1 ≠ s.pushed.length + 1 := by
      simpa using hpushers p s.ctrl.next v (Function.update_self _ _ _)
    have hml' : m < s.pushed.length := by omega
    dsimp only
    rw [happ m hml']
    exact hs.written m hm hml' fun q pos v' hq => absurd (by rw [hq]; rfl) (hnopush q)
  · rcases hs.taking_ok with h | ⟨q, pos, hq⟩
    · exact .inl h
    · have hqp : q ≠ p := by
        rintro rfl
        rw [hp] at hq
        cases hq
      exact .inr ⟨q, pos, by rw [← hq]; exact hpc q hqp⟩
  · intro r hr
    obtain ⟨h1, h2⟩ := hs.results_ok r hr
    refine ⟨by simp; omega, ?_⟩
    rw [h2]
    exact (happ _ h1).symm

/-- The `memcpy` of a push fills the slot of the newest element, which neither a queued element
nor the element a pop took shares. -/
theorem Inv.pushCopy {s : State τ T} (hs : Inv depth s) {p : τ} {pos : ℕ} {v : T}
    (hp : s.pc p = .push pos v) :
    Inv depth { s with buf := Function.update s.buf pos (some v),
                       pc := Function.update s.pc p .pushCopied } := by
  have hok := hs.pc_ok p
  rw [hp] at hok
  obtain ⟨hpos, hlast, hlt⟩ := hok
  have hpc : ∀ q, q ≠ p → Function.update s.pc p .pushCopied q = s.pc q :=
    fun q hq => Function.update_of_ne hq _ _
  have honly : ∀ q, (s.pc q).holdsPush = true → q = p :=
    fun q hq => hs.push_flag.unique hq (by rw [hp]; rfl)
  have hcount := hs.count_le
  have hbase := hs.base_le
  have hslot : ∀ m, s.head ≤ m → m + 1 < s.pushed.length → slot depth s.base m ≠ pos := by
    intro m hm hml
    rw [hpos]
    exact slot_ne depth (by omega) (by omega) (by omega)
  refine ⟨hbase, hs.head_le, hs.count_eq, hs.next_eq, hcount, hs.push_flag.update (by rw [hp]; rfl),
    hs.pop_flag.update (by rw [hp]; rfl), ?_, ?_, ?_, ?_, hs.results_ok, hs.sorted, hs.accounted⟩
  · intro q
    dsimp only
    by_cases hq : q = p
    · rw [hq, Function.update_self]
      exact hlt
    · rw [hpc q hq]
      have hokq := hs.pc_ok q
      cases hc : s.pc q with
      | push pos' v' => exact absurd (honly q (by rw [hc]; rfl)) hq
      | pushCopied => exact absurd (honly q (by rw [hc]; rfl)) hq
      | pop peek pos' =>
        rw [hc] at hokq
        cases peek with
        | false =>
          obtain ⟨h1, h2, h3, h4, h5⟩ := hokq
          refine ⟨h1, h2, h3, ?_, h5⟩
          -- the taken element and the newest one are `count` apart
          have hne : slot depth s.base (s.head - 1) ≠ pos := by
            rw [hpos]
            exact slot_ne depth (by omega) (by omega) (by omega)
          dsimp only
          rw [Function.update_of_ne hne]
          exact h4
        | true => exact hokq
      | _ => trivial
  · intro p' q pos' _ hq
    dsimp only at hq
    have hqp : q ≠ p := by
      rintro rfl
      simp at hq
    rw [hpc q hqp] at hq
    exact hs.fresh p q pos' (by rw [hp]; rfl) hq
  · intro m hm hml _
    dsimp only at hm hml ⊢
    by_cases hm' : m + 1 = s.pushed.length
    · have hsl : slot depth s.base m = pos := by
        rw [hpos, show m = s.pushed.length - 1 by omega]
      rw [hsl, Function.update_self, ← hlast, List.getLast?_eq_getElem?,
        show m = s.pushed.length - 1 by omega]
    · rw [Function.update_of_ne (hslot m hm (by omega))]
      refine hs.written m hm hml fun q pos' v' hq => ?_
      obtain rfl := honly q (by rw [hq]; rfl)
      exact hm'
  · rcases hs.taking_ok with h | ⟨q, pos', hq⟩
    · exact .inl h
    · have hqp : q ≠ p := by
        rintro rfl
        rw [hp] at hq
        cases hq
      exact .inr ⟨q, pos', by rw [← hq]; exact hpc q hqp⟩

theorem Inv.pushEnd {s : State τ T} (hs : Inv depth s) {p : τ} (hp : s.pc p = .pushCopied) :
    Inv depth { s with ctrl := pushEnd s.ctrl, pc := Function.update s.pc p .idle } :=
  hs.local depth rfl rfl (hs.push_flag.release (by rw [hp]; rfl) rfl)
    (hs.pop_flag.update (by rw [hp]; rfl)) (by simp [hp]) (by simp [hp]) rfl (by simp) trivial

/-- `try_pop_begin` takes the oldest element out of the ghost queue; a push in flight leaves
at least one other, so the oldest is written. -/
theorem Inv.popBegin (hd : 0 < depth) (hdl : depth < 2 ^ 24) {s : State τ T}
    (hs : Inv depth s) {p : τ} {pos : ℕ} {c : Ctrl} (hp : s.pc p = .idle)
    (h : tryPopBegin s.ctrl depth = some (pos, c)) :
    Inv depth { s with ctrl := c, pc := Function.update s.pc p (.pop false pos),
                       head := s.head + 1, taking := [s.head] } := by
  obtain ⟨hpop, hlt, rfl, rfl⟩ := tryPopBegin_eq_some h
  have hnopop : ∀ q, (s.pc q).holdsPop ≠ true := hs.pop_flag.not_holds hpop
  have hpc : ∀ q, q ≠ p → ∀ c : Pc T, Function.update s.pc p c q = s.pc q :=
    fun q hq _ => Function.update_of_ne hq _ _
  have hcount := hs.count_eq
  have hhead := hs.head_le
  have hbase := hs.base_le
  have hle := hs.count_le
  have hpush1 := hs.push_flag.le_one
  have hhl : s.head < s.pushed.length := by omega
  have htaking : s.taking = [] := by
    rcases hs.taking_ok with h | ⟨q, pos, hq⟩
    · exact h
    · exact absurd (by rw [hq]; rfl) (hnopop q)
  -- a pusher in flight holds the push flag, so the oldest element is not its own
  have hpushing : ∀ q, (s.pc q).pushing = true → s.head + 1 < s.pushed.length := by
    intro q hq
    have : s.ctrl.push = 1 := hs.push_flag.eq_one (p := q) (by
      cases hc : s.pc q <;> rw [hc] at hq <;> first | rfl | cases hq)
    omega
  refine ⟨by dsimp only; omega, by dsimp only; omega, ?_, hs.next_eq, by dsimp only; omega,
    hs.push_flag.update (by rw [hp]; rfl), hs.pop_flag.acquire hpop rfl, ?_, ?_, ?_,
    .inr ⟨p, _, Function.update_self _ _ _⟩, hs.results_ok, hs.sorted, ?_⟩
  · dsimp only
    rw [Nat.mod_eq_of_lt (by omega), hcount]
    omega
  · intro q
    dsimp only
    by_cases hq : q = p
    · rw [hq, Function.update_self]
      refine ⟨by dsimp only; omega, by simp, ?_, ?_, by dsimp only; omega⟩
      · simp only [slot, Nat.add_sub_cancel]
        rw [hs.next_eq, hcount]
        exact pop_pos_mod depth hd hdl hle hbase hhead
      · simp only [Nat.add_sub_cancel]
        exact hs.written _ le_rfl hhl fun q pos v hq => by
          have := hpushing q (by rw [hq]; rfl)
          omega
    · rw [hpc q hq]
      have hokq := hs.pc_ok q
      cases hc : s.pc q with
      | push pos' v' =>
        rw [hc] at hokq
        obtain ⟨h1, h2, -⟩ := hokq
        exact ⟨h1, h2, hpushing q (by rw [hc]; rfl)⟩
      | pushCopied => exact hpushing q (by rw [hc]; rfl)
      | pop peek pos' => exact absurd (by rw [hc]; rfl) (hnopop q)
      | _ => trivial
  · intro p' q pos' _ hq
    dsimp only at hq
    have hqp : q ≠ p := by
      rintro rfl
      simp at hq
    rw [hpc q hqp] at hq
    exact absurd (by rw [hq]; rfl) (hnopop q)
  · intro m hm hml hpushers
    dsimp only at hm hml
    refine hs.written m (by omega) hml fun q pos' v hq => hpushers q pos' v ?_
    have hqp : q ≠ p := by
      rintro rfl
      rw [hp] at hq
      cases hq
    rw [← hq]
    exact hpc q hqp _
  · have hacc := hs.accounted
    rw [htaking, List.append_nil] at hacc
    dsimp only
    rw [List.range_succ, List.append_assoc, List.singleton_append]
    exact List.perm_middle.trans ((hacc.cons _).trans (List.perm_append_singleton _ _).symm)

theorem Inv.peekBegin (hd : 0 < depth) (hdl : depth < 2 ^ 24) {s : State τ T}
    (hs : Inv depth s) {p : τ} {pos : ℕ} {c : Ctrl} (hp : s.pc p = .idle)
    (h : tryPeekBegin s.ctrl depth = some (pos, c)) :
    Inv depth { s with ctrl := c, pc := Function.update s.pc p (.pop true pos) } := by
  obtain ⟨hpop, hlt, rfl, rfl⟩ := tryPeekBegin_eq_some h
  have hnopop : ∀ q, (s.pc q).holdsPop ≠ true := hs.pop_flag.not_holds hpop
  have hpc : ∀ q, q ≠ p → ∀ c : Pc T, Function.update s.pc p c q = s.pc q :=
    fun q hq _ => Function.update_of_ne hq _ _
  have hcount := hs.count_eq
  have hpush1 := hs.push_flag.le_one
  refine ⟨hs.base_le, hs.head_le, hcount, hs.next_eq, hs.count_le,
    hs.push_flag.update (by rw [hp]; rfl), hs.pop_flag.acquire hpop rfl, ?_, ?_, ?_, ?_,
    hs.results_ok, hs.sorted, hs.accounted⟩
  · intro q
    dsimp only
    by_cases hq : q = p
    · rw [hq, Function.update_self]
      refine ⟨by dsimp only; omega, ?_⟩
      simp only [slot]
      rw [hs.next_eq, hcount]
      exact pop_pos_mod depth hd hdl hs.count_le hs.base_le hs.head_le
    · rw [hpc q hq]
      exact (hs.pc_ok q).of_eq depth rfl rfl rfl rfl rfl
  · -- a pusher in flight holds the push flag, so the oldest element is not its own
    intro p' q pos' hp' hq
    dsimp only at hp' hq
    have hp'p : p' ≠ p := by
      rintro rfl
      simp [Pc.pushing] at hp'
    rw [hpc p' hp'p] at hp'
    have : s.ctrl.push = 1 := hs.push_flag.eq_one (p := p') (by
      cases hc : s.pc p' <;> rw [hc] at hp' <;> first | rfl | cases hp')
    dsimp only
    omega
  · intro m hm hml hpushers
    refine hs.written m hm hml fun q pos' v hq => hpushers q pos' v ?_
    have hqp : q ≠ p := by
      rintro rfl
      rw [hp] at hq
      cases hq
    rw [← hq]
    exact hpc q hqp _
  · rcases hs.taking_ok with h | ⟨q, pos', hq⟩
    · exact .inl h
    · exact absurd (by rw [hq]; rfl) (hnopop q)

/-- The `memcpy` of a pop or peek reads the element it took, or the oldest one, from its slot;
the pops' indices stay increasing since the taken element follows every popped one. -/
theorem Inv.popCopy {s : State τ T} (hs : Inv depth s) {p : τ} {peek : Bool} {pos : ℕ}
    (hp : s.pc p = .pop peek pos) :
    Inv depth { s with pc := Function.update s.pc p (.popCopied peek (s.buf (pos % depth))),
                       taking := if peek then s.taking else [],
                       results := s.results ++
                         [(peek, if peek then s.head else s.head - 1, s.buf (pos % depth))] } := by
  have hok := hs.pc_ok p
  rw [hp] at hok
  have honly : ∀ q, (s.pc q).holdsPop = true → q = p :=
    fun q hq => hs.pop_flag.unique hq (by rw [hp]; rfl)
  have hpc : ∀ q, q ≠ p → Function.update s.pc p (.popCopied peek (s.buf (pos % depth))) q = s.pc q :=
    fun q hq => Function.update_of_ne hq _ _
  have hhead := hs.head_le
  have hread : (if peek then s.head else s.head - 1) < s.pushed.length ∧
      s.buf (pos % depth) = s.pushed[if peek then s.head else s.head - 1]? := by
    cases peek with
    | false =>
      obtain ⟨h1, -, h3, h4, -⟩ := hok
      rw [if_neg Bool.false_ne_true, h3]
      exact ⟨by omega, h4⟩
    | true =>
      obtain ⟨h1, h2⟩ := hok
      rw [if_pos rfl, h2]
      refine ⟨h1, hs.written _ le_rfl h1 fun q pos' v hq => ?_⟩
      have := hs.fresh q p pos (by rw [hq]; rfl) hp
      omega
  refine ⟨hs.base_le, hhead, hs.count_eq, hs.next_eq, hs.count_le,
    hs.push_flag.update (by rw [hp]; rfl), hs.pop_flag.update (by rw [hp]; rfl), ?_, ?_, ?_, ?_,
    ?_, ?_, ?_⟩
  · intro q
    dsimp only
    by_cases hq : q = p
    · rw [hq, Function.update_self]
      trivial
    · rw [hpc q hq]
      have hokq := hs.pc_ok q
      cases hc : s.pc q with
      | pop peek' pos' => exact absurd (honly q (by rw [hc]; rfl)) hq
      | push pos' v' =>
        rw [hc] at hokq
        exact hokq
      | pushCopied =>
        rw [hc] at hokq
        exact hokq
      | _ => trivial
  · intro p' q pos' _ hq
    dsimp only at hq
    have hqp : q ≠ p := by
      rintro rfl
      simp at hq
    rw [hpc q hqp] at hq
    exact absurd (honly q (by rw [hq]; rfl)) hqp
  · intro m hm hml hpushers
    refine hs.written m hm hml fun q pos' v hq => hpushers q pos' v ?_
    have hqp : q ≠ p := by
      rintro rfl
      rw [hp] at hq
      cases hq
    rw [← hq]
    exact hpc q hqp
  · cases peek with
    | false => exact .inl rfl
    | true =>
      rcases hs.taking_ok with h | ⟨q, pos', hq⟩
      · exact .inl h
      · have hqp : q ≠ p := by
          rintro rfl
          rw [hp] at hq
          cases hq
        exact .inr ⟨q, pos', by rw [← hq]; exact hpc q hqp⟩
  · intro r hr
    rcases List.mem_append.1 hr with hr | hr
    · exact hs.results_ok r hr
    · rw [List.mem_singleton] at hr
      subst hr
      exact hread
  · dsimp only
    rw [popIndices_append, popIndices_single]
    cases peek with
    | true => simpa using hs.sorted
    | false =>
      -- every popped index is below the taken one, `head - 1`
      simp only [Bool.false_eq_true, if_false]
      obtain ⟨-, htake, -⟩ := hok
      have hacc := hs.accounted
      rw [htake] at hacc
      have hnd := hacc.nodup_iff.2 List.nodup_range
      refine List.pairwise_append.2 ⟨hs.sorted, List.pairwise_singleton _ _, ?_⟩
      intro a ha b hb
      rw [List.mem_singleton] at hb
      subst hb
      have hlt : a < s.head := List.mem_range.1 (hacc.subset (by simp [ha]))
      have hne : a ≠ s.head - 1 := by
        rintro rfl
        simp only [List.append_assoc, List.singleton_append] at hnd
        exact (List.nodup_middle.1 hnd |> List.nodup_cons.1).1 (by simp [ha])
      omega
  · dsimp only
    rw [popIndices_append, popIndices_single]
    cases peek with
    | true => simpa using hs.accounted
    | false =>
      obtain ⟨-, htake, -⟩ := hok
      have hacc := hs.accounted
      rw [htake] at hacc
      simpa using hacc

theorem Inv.popEnd {s : State τ T} (hs : Inv depth s) {p : τ} {peek : Bool} {v : Option T}
    (hp : s.pc p = .popCopied peek v) :
    Inv depth { s with ctrl := popEnd s.ctrl, pc := Function.update s.pc p .idle } :=
  hs.local depth rfl rfl (hs.push_flag.update (by rw [hp]; rfl))
    (hs.pop_flag.release (by rw [hp]; rfl) rfl) (by simp [hp]) (by simp [hp]) rfl (by simp) trivial

theorem Inv.clearBegin1 {s : State τ T} (hs : Inv depth s) {p : τ} {c : Ctrl}
    (hp : s.pc p = .idle) (h : tryClearBegin1 s.ctrl = some c) :
    Inv depth { s with ctrl := c, pc := Function.update s.pc p .clear1 } := by
  obtain ⟨hpop, rfl⟩ := tryClearBegin1_eq_some h
  exact hs.local depth rfl rfl (hs.push_flag.update (by rw [hp]; rfl))
    (hs.pop_flag.acquire hpop rfl) (by simp [hp]) (by simp [hp]) rfl (by simp) trivial

theorem Inv.clearBegin2 {s : State τ T} (hs : Inv depth s) {p : τ} {c : Ctrl}
    (hp : s.pc p = .clear1) (h : tryClearBegin2 s.ctrl = some c) :
    Inv depth { s with ctrl := c, pc := Function.update s.pc p .clear2 } := by
  obtain ⟨hpush, rfl⟩ := tryClearBegin2_eq_some h
  exact hs.local depth rfl rfl (hs.push_flag.acquire hpush rfl)
    (hs.pop_flag.update (by rw [hp]; rfl)) (by simp [hp]) (by simp [hp]) rfl (by simp) trivial

/-- A clear holds both flags, so every other thread is idle; storing `0` drops the queue. -/
theorem Inv.clearStore {s : State τ T} (hs : Inv depth s) {p : τ} (hp : s.pc p = .clear2) :
    Inv depth { s with ctrl := ⟨0, 0, 0, 0⟩, pc := Function.update s.pc p .idle,
                       head := s.pushed.length, base := s.pushed.length,
                       dropped := s.dropped ++ List.range' s.head (s.pushed.length - s.head) } := by
  have hidle : ∀ q, Function.update s.pc p .idle q = .idle := by
    intro q
    by_cases hq : q = p
    · rw [hq, Function.update_self]
    · rw [Function.update_of_ne hq]
      have h1 : (s.pc q).holdsPush ≠ true := fun h => hq (hs.push_flag.unique h (by rw [hp]; rfl))
      have h2 : (s.pc q).holdsPop ≠ true := fun h => hq (hs.pop_flag.unique h (by rw [hp]; rfl))
      cases hc : s.pc q <;> rw [hc] at h1 h2 <;> first | rfl | exact absurd rfl h1 | exact absurd rfl h2
  have htaking : s.taking = [] := by
    rcases hs.taking_ok with h | ⟨q, pos, hq⟩
    · exact h
    · have := hs.pop_flag.unique (p := q) (by rw [hq]; rfl) (by rw [hp]; rfl)
      subst this
      rw [hp] at hq
      cases hq
  have hhead := hs.head_le
  refine ⟨le_rfl, le_rfl, by simp, by simp, by simp, .inl ⟨rfl, ?_⟩, .inl ⟨rfl, ?_⟩, ?_, ?_, ?_,
    .inl htaking, hs.results_ok, hs.sorted, ?_⟩
  · intro q
    dsimp only
    rw [hidle]
    exact Bool.false_ne_true
  · intro q
    dsimp only
    rw [hidle]
    exact Bool.false_ne_true
  · intro q
    dsimp only
    rw [hidle]
    trivial
  · intro p' q pos _ hq
    dsimp only at hq
    rw [hidle] at hq
    cases hq
  · intro m hm hml
    dsimp only at hm hml
    omega
  · have hacc := hs.accounted
    rw [htaking, List.append_nil] at hacc
    dsimp only
    have hrange : List.range s.pushed.length =
        List.range s.head ++ List.range' s.head (s.pushed.length - s.head) := by
      conv_lhs => rw [← Nat.add_sub_cancel' hhead]
      rw [List.range_eq_range', List.range_eq_range', ← List.range'_append_1, Nat.zero_add]
    rw [htaking, List.append_nil, ← List.append_assoc, hrange]
    exact hacc.append_right _

/-! ### Runs -/

theorem inv_step (hd : 0 < depth) (hdl : depth < 2 ^ 24) {s t : State τ T} {p : τ}
    (hs : Inv depth s) (hst : Step depth s p t) : Inv depth t := by
  cases hst with
  | pushBegin hp h => exact hs.pushBegin depth hd hdl hp h
  | pushCopy hp => exact hs.pushCopy depth hp
  | pushEnd hp => exact hs.pushEnd depth hp
  | popBegin hp h => exact hs.popBegin depth hd hdl hp h
  | peekBegin hp h => exact hs.peekBegin depth hd hdl hp h
  | popCopy hp => exact hs.popCopy depth hp
  | popEnd hp => exact hs.popEnd depth hp
  | clearBegin1 hp h => exact hs.clearBegin1 depth hp h
  | clearBegin2 hp h => exact hs.clearBegin2 depth hp h
  | clearStore hp => exact hs.clearStore depth hp

theorem Inv.of_reachable (hd : 0 < depth) (hdl : depth < 2 ^ 24) {s : State τ T}
    (h : Reachable (· = init) (Step depth) s) : Inv depth s :=
  h.invariant (fun _ h => h ▸ inv_init depth) (fun _ _ _ hs hst => inv_step depth hd hdl hs hst)

omit [DecidableEq τ] in
/-- The slot a pusher writes is not the one a pop or peek reads. -/
theorem Inv.push_slot_ne_read {s : State τ T} (hs : Inv depth s) {p q : τ} {pos pos' : ℕ} {v : T}
    {peek : Bool} (hp : s.pc p = .push pos v) (hq : s.pc q = .pop peek pos') :
    pos ≠ pos' % depth := by
  have hok := hs.pc_ok p
  rw [hp] at hok
  obtain ⟨hpos, -, hlt⟩ := hok
  have hokq := hs.pc_ok q
  rw [hq] at hokq
  have hbase := hs.base_le
  have hle := hs.count_le
  rw [hpos]
  cases peek with
  | false =>
    obtain ⟨h1, -, h3, -, h5⟩ := hokq
    rw [h3]
    exact (slot_ne depth (by omega) (by omega) (by omega)).symm
  | true =>
    obtain ⟨-, h2⟩ := hokq
    have hfresh := hs.fresh p q pos' (by rw [hp]; rfl) hq
    rw [h2]
    exact (slot_ne depth (by omega) (by omega) (by omega)).symm

omit [DecidableEq τ] in
/-- The slot a pusher writes holds no element still queued. -/
theorem Inv.push_slot_ne_queued {s : State τ T} (hs : Inv depth s) {p : τ} {pos : ℕ} {v : T}
    (hp : s.pc p = .push pos v) {m : ℕ} (hm : s.head ≤ m) (hml : m + 1 < s.pushed.length) :
    slot depth s.base m ≠ pos := by
  have hok := hs.pc_ok p
  rw [hp] at hok
  have hbase := hs.base_le
  have hle := hs.count_le
  rw [hok.1]
  exact slot_ne depth (by omega) (by omega) (by omega)

omit [DecidableEq τ] in
/-- A pop or peek reads an element whose push has reached `push_end`. -/
theorem Inv.read_before_pushing {s : State τ T} (hs : Inv depth s) {p q : τ} {peek : Bool}
    {pos : ℕ} (hp : (s.pc p).pushing = true) (hq : s.pc q = .pop peek pos) :
    (if peek then s.head else s.head - 1) + 1 < s.pushed.length := by
  cases peek with
  | false =>
    have hokq := hs.pc_ok q
    rw [hq] at hokq
    have h1 := hokq.1
    have hlt : s.head < s.pushed.length := by
      have hok := hs.pc_ok p
      cases hc : s.pc p with
      | push pos' v' =>
        rw [hc] at hok
        exact hok.2.2
      | pushCopied =>
        rw [hc] at hok
        exact hok
      | _ =>
        rw [hc] at hp
        cases hp
    simp only [Bool.false_eq_true, if_false]
    omega
  | true => simpa using hs.fresh p q pos hp hq

/-- Below `2 ^ 24`, on every run: a pusher's slot is neither read by a pop or peek nor holds a
queued element; a pop or peek reads the element of a push that reached `push_end`, and each read
gave the value of the element it was due; pops took elements in push order, and every element
that left the queue was popped once or dropped once by a clear. -/
theorem sync_queue_fifo (hd : 0 < depth) (hdl : depth < 2 ^ 24) {s : State τ T}
    (hs : Reachable (· = init) (Step depth) s) :
    (∀ p q pos pos' v peek, s.pc p = .push pos v → s.pc q = .pop peek pos' → pos ≠ pos' % depth) ∧
    (∀ p pos v m, s.pc p = .push pos v → s.head ≤ m → m + 1 < s.pushed.length →
      slot depth s.base m ≠ pos) ∧
    (∀ p q peek pos, (s.pc p).pushing = true → s.pc q = .pop peek pos →
      (if peek then s.head else s.head - 1) + 1 < s.pushed.length) ∧
    (∀ r ∈ s.results, r.2.1 < s.pushed.length ∧ r.2.2 = s.pushed[r.2.1]?) ∧
    (popIndices s.results).Pairwise (· < ·) ∧
    (popIndices s.results ++ s.taking ++ s.dropped).Perm (List.range s.head) := by
  have hi := Inv.of_reachable depth hd hdl hs
  exact ⟨fun _ _ _ _ _ _ hp hq => hi.push_slot_ne_read depth hp hq,
    fun _ _ _ _ hp hm hml => hi.push_slot_ne_queued depth hp hm hml,
    fun _ _ _ _ hp hq => hi.read_before_pushing depth hp hq, hi.results_ok, hi.sorted,
    hi.accounted⟩

/-- On the run of `pop_during_push_reachable`, the pusher's slot `2` is not the slot `1 % 3`
the popper reads, and the element popped and the one being taken are those below the head. -/
theorem sync_queue_fifo_pop_during_push :
    ∃ s : State ℕ ℕ, Reachable (· = init) (Step 3) s ∧ s.pc 1 = .push 2 30 ∧
      s.pc 0 = .pop false 1 ∧ s.results = [(false, 0, some 10)] ∧ 2 ≠ 1 % 3 ∧
      (popIndices s.results ++ s.taking ++ s.dropped).Perm (List.range s.head) := by
  obtain ⟨s, hr, h₁, h₀, hres, -⟩ := pop_during_push_reachable
  have hfifo := sync_queue_fifo 3 (by decide) (by decide) hr
  exact ⟨s, hr, h₁, h₀, hres, hfifo.1 1 0 2 1 30 false h₁ h₀, hfifo.2.2.2.2.2⟩

/-! ### `depth = 2 ^ 24` -/

/-- One thread pushing with no pop fills the ring slot after slot while `count` stays below
`2 ^ 24`. -/
theorem pushes_reachable : ∀ m, m < 2 ^ 24 →
    ∃ s : State ℕ ℕ, Reachable (· = init) (Step (2 ^ 24)) s ∧ s.ctrl = ⟨m, 0, m, 0⟩ ∧
      s.pushed.length = m ∧ s.head = 0 ∧ s.pc = (fun _ => .idle) ∧ ∀ i < m, s.buf i = some 0
  | 0, _ => ⟨init, Reachable.of_init rfl, rfl, rfl, rfl, rfl, fun _ h => absurd h (Nat.not_lt_zero _)⟩
  | m + 1, hm => by
    obtain ⟨s, hr, hctrl, hlen, hhead, hpc, hbuf⟩ := pushes_reachable m (by omega)
    have hbegin : tryPushBegin s.ctrl (2 ^ 24) = some (m, ⟨m + 1, 0, m + 1, 1⟩) := by
      rw [hctrl]
      simp only [tryPushBegin]
      rw [if_neg (by omega), if_pos (by omega), Nat.mod_eq_of_lt hm]
    refine ⟨_, push_cycle_reachable (2 ^ 24) hr (p := 0) (v := 0) (by rw [hpc]) hbegin, rfl, by simp [hlen],
      hhead, hpc, ?_⟩
    intro i hi
    dsimp only
    by_cases him : i = m
    · rw [him, Function.update_self]
    · rw [Function.update_of_ne him]
      exact hbuf i (by omega)

/-- At `depth = 2 ^ 24`, after `2 ^ 24` pushes and no pop all the pushed elements are queued, but
the 24-bit `count` wrapped to `0`: a pop is refused, and the next push is given slot `0`, which
holds the oldest element. -/
theorem push_count_wraps : ∃ s : State ℕ ℕ, Reachable (· = init) (Step (2 ^ 24)) s ∧
    s.pushed.length = 2 ^ 24 ∧ s.head = 0 ∧ s.ctrl = ⟨0, 0, 0, 0⟩ ∧ s.buf 0 = some 0 ∧
    tryPopBegin s.ctrl (2 ^ 24) = none ∧ tryPushBegin s.ctrl (2 ^ 24) = some (0, ⟨1, 0, 1, 1⟩) := by
  obtain ⟨s, hr, hctrl, hlen, hhead, hpc, hbuf⟩ := pushes_reachable (2 ^ 24 - 1) (by norm_num)
  have hbegin : tryPushBegin s.ctrl (2 ^ 24) = some (2 ^ 24 - 1, ⟨0, 0, 0, 1⟩) := by
    rw [hctrl]
    decide
  refine ⟨_, push_cycle_reachable (2 ^ 24) hr (p := 0) (v := 0) (by rw [hpc]) hbegin, by simp [hlen], hhead,
    rfl, ?_, by dsimp only; decide, by dsimp only; decide⟩
  -- the oldest element is still in slot `0`
  dsimp only
  rw [Function.update_of_ne (by norm_num)]
  exact hbuf 0 (by norm_num)

end Rpcs3.Cell.SyncQueue
