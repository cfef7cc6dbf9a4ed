import Rpcs3.Lv2.Sync
import Rpcs3.Lib.Bits
import Mathlib.Data.Finset.Card

/-! `lv2_event_flag` (sys_event_flag.h) and what `sys_event_flag_set`
(sys_event_flag.cpp) computes while it holds the flag's mutex.

A waiter asks for the bits `bitptn` of the 64-bit `pattern`, all of them
(`SYS_EVENT_FLAG_WAIT_AND`) or any (`SYS_EVENT_FLAG_WAIT_OR`), and may clear
what it took. `check_pattern` decides one waiter. `sys_event_flag_set` makes
an attempt on a snapshot of the pattern: `get_next` hands out the sleeping
waiters in protocol order, each is decided on the pattern the earlier ones
left (`to_write`), and the bits the AND decisions relied on are collected in
`dependant_mask`. A `fetch_op` then commits the attempt unless the pattern
has meanwhile changed on one of those bits; otherwise the attempt is made
again on the new pattern. Each decision is written to the waiter's `gpr[3]`
(`CELL_OK` or `-1`) and the pattern it saw to its `gpr[6]`.

The proofs read a pattern as the set of its bits (`Bits.bits`). -/
namespace Rpcs3.Lv2.EventFlag

open Rpcs3.Lv2.Sync Bits

/-- `SYS_SYNC_WAITER_SINGLE`: at most one thread may wait on the flag. -/
def sysSyncWaiterSingle : Int := 0x10000
def sysSyncWaiterMultiple : Int := 0x20000

def sysEventFlagWaitAnd : UInt32 := 0x01
def sysEventFlagWaitOr : UInt32 := 0x02
def sysEventFlagWaitClear : UInt32 := 0x10
def sysEventFlagWaitClearAll : UInt32 := 0x20

/-- `lv2_event_flag::check_mode`: AND or OR in the low nibble, and no clear,
`SYS_EVENT_FLAG_WAIT_CLEAR` or `SYS_EVENT_FLAG_WAIT_CLEAR_ALL` above it. -/
def checkMode (mode : UInt32) : Bool :=
  (mode &&& 0xf == sysEventFlagWaitAnd || mode &&& 0xf == sysEventFlagWaitOr) &&
    (mode &&& ~~~0xf == 0 || mode &&& ~~~0xf == sysEventFlagWaitClear ||
      mode &&& ~~~0xf == sysEventFlagWaitClearAll)

/-- `lv2_event_flag::check_pattern`: whether a waiter for `bitptn` in `mode`
accepts `pattern`, and the pattern after the clear the mode asks for. The
value it stores to `*result` is the `pattern` it was given. -/
def checkPattern (pattern bitptn : UInt64) (mode : UInt32) : Bool × UInt64 :=
  if (mode &&& 0xf == sysEventFlagWaitAnd && pattern &&& bitptn != bitptn) ||
      (mode &&& 0xf == sysEventFlagWaitOr && pattern &&& bitptn == 0) then
    (false, pattern)
  else if mode &&& ~~~0xf == sysEventFlagWaitClear then (true, pattern &&& ~~~bitptn)
  else if mode &&& ~~~0xf == sysEventFlagWaitClearAll then (true, 0)
  else (true, pattern)

/-- What a sleeping thread waits for: its `gpr[4]` and `gpr[5]`. -/
structure Waiter where
  bitptn : UInt64
  mode : UInt32
  deriving DecidableEq, Repr

/-- Whether `check_pattern` accepts `pattern` for the waiter. -/
def Waiter.accepts (w : Waiter) (pattern : UInt64) : Bool :=
  (checkPattern pattern w.bitptn w.mode).1

/-! ### `check_pattern` on bit sets -/

theorem checkPattern_fst (pattern bitptn : UInt64) (mode : UInt32) :
    (checkPattern pattern bitptn mode).1 =
      !((mode &&& 0xf == sysEventFlagWaitAnd && pattern &&& bitptn != bitptn) ||
        (mode &&& 0xf == sysEventFlagWaitOr && pattern &&& bitptn == 0)) := by
  unfold checkPattern
  cases hc : ((mode &&& 0xf == sysEventFlagWaitAnd && pattern &&& bitptn != bitptn) ||
      (mode &&& 0xf == sysEventFlagWaitOr && pattern &&& bitptn == 0))
  · simp only [Bool.false_eq_true, if_false, Bool.not_false]
    split
    · rfl
    · split <;> rfl
  · simp only [if_true, Bool.not_true]

/-- A rejected waiter leaves the pattern as it was. -/
theorem checkPattern_of_fst_false {pattern bitptn : UInt64} {mode : UInt32}
    (h : (checkPattern pattern bitptn mode).1 = false) :
    checkPattern pattern bitptn mode = (false, pattern) := by
  rw [checkPattern_fst, Bool.not_eq_false'] at h
  unfold checkPattern
  rw [if_pos h]

/-- `check_pattern` only ever clears bits. -/
theorem bits_checkPattern_snd (pattern bitptn : UInt64) (mode : UInt32) :
    bits (checkPattern pattern bitptn mode).2 ⊆ bits pattern := by
  unfold checkPattern
  split
  · exact subset_rfl
  · split
    · simp
    · split
      · simp
      · exact subset_rfl

theorem bits_of_checkPattern {pattern bitptn pattern' : UInt64} {mode : UInt32} {ok : Bool}
    (h : checkPattern pattern bitptn mode = (ok, pattern')) : bits pattern' ⊆ bits pattern := by
  have hs := bits_checkPattern_snd pattern bitptn mode
  rwa [h] at hs

/-- The acceptance test on bit sets: an AND waiter needs all of its bits, an
OR waiter one of them. -/
theorem Waiter.accepts_iff (w : Waiter) (pattern : UInt64) :
    w.accepts pattern = true ↔
      (w.mode &&& 0xf = sysEventFlagWaitAnd → bits w.bitptn ⊆ bits pattern) ∧
        (w.mode &&& 0xf = sysEventFlagWaitOr → (bits pattern ∩ bits w.bitptn).Nonempty) := by
  have hand : pattern &&& w.bitptn = w.bitptn ↔ bits w.bitptn ⊆ bits pattern := and_eq_right_iff
  have hor : pattern &&& w.bitptn ≠ 0 ↔ (bits pattern ∩ bits w.bitptn).Nonempty := by
    rw [Ne, eq_zero_iff, bits_and, Set.nonempty_iff_ne_empty]
  rw [← hand, ← hor, Waiter.accepts, checkPattern_fst]
  simp only [Bool.not_eq_true', Bool.or_eq_false_iff, Bool.and_eq_false_iff, beq_eq_false_iff_ne,
    bne_eq_false_iff_eq, ne_eq, imp_iff_not_or]

/-- A pattern with more bits is accepted whenever one with fewer is. -/
theorem Waiter.accepts_mono {w : Waiter} {p q : UInt64} (hpq : bits p ⊆ bits q)
    (h : w.accepts p = true) : w.accepts q = true := by
  rw [Waiter.accepts_iff] at h ⊢
  obtain ⟨ha, ho⟩ := h
  exact ⟨fun hm => (ha hm).trans hpq, fun hm => (ho hm).mono (Set.inter_subset_inter_left _ hpq)⟩

/-- A waiter that rejects a pattern rejects every pattern with fewer bits. -/
theorem Waiter.rejects_of_subset {w : Waiter} {p q : UInt64} (hpq : bits p ⊆ bits q)
    (h : w.accepts q = false) : w.accepts p = false := by
  cases hp : w.accepts p
  · rfl
  · rw [w.accepts_mono hpq hp] at h
    cases h

/-! ### One attempt of `sys_event_flag_set` -/

/-- The `get_next` scan of `sys_event_flag_set`: walking `sq` from its head
(the newest waiter), keep the last unmarked thread; under `SYS_SYNC_PRIORITY`
only one whose priority is at most the lowest kept so far. -/
def getNext (protocol : Lv2Protocol) (prio : PpuId → PpuPrio) (marked : PpuId → Bool)
    (sq : List PpuId) : Option PpuId :=
  (sq.foldl (fun (best : Int × Option PpuId) u =>
      if !marked u && (protocol != .priority || (prio u).prio ≤ best.1) then
        ((prio u).prio, some u)
      else best)
    (2 ^ 31 - 1, none)).2

/-- The state of an attempt: the pattern it will write (`to_write`), its
`dependant_mask`, how many waiters it accepted (`count`), and what it wrote
to each waiter it decided: `gpr[3] == CELL_OK` and `gpr[6]`. -/
structure Attempt where
  toWrite : UInt64
  dependantMask : UInt64
  count : Nat
  written : PpuId → Option (Bool × UInt64)

/-- The body of the loop of `sys_event_flag_set` for the waiter `w` that
`get_next` handed out. Returns the attempt and whether the loop goes on: it
stops when an accepted waiter leaves nothing to write. An OR waiter, and an
AND waiter whose bits all come from `bitptn`, add nothing to the dependant
mask. -/
def processOne (bitptn : UInt64) (w : PpuId) (wt : Waiter) (a : Attempt) : Attempt × Bool :=
  let dependantMaskOr : UInt64 :=
    if wt.mode &&& 0xf == sysEventFlagWaitOr || bitptn &&& wt.bitptn &&& a.toWrite == wt.bitptn
    then 0 else wt.bitptn
  match checkPattern a.toWrite wt.bitptn wt.mode with
  | (true, toWrite) =>
    ({ toWrite := toWrite, dependantMask := a.dependantMask ||| dependantMaskOr,
       count := a.count + 1, written := Function.update a.written w (some (true, a.toWrite)) },
     toWrite != 0)
  | (false, toWrite) =>
    ({ a with toWrite := toWrite, written := Function.update a.written w (some (false, a.toWrite)) },
     true)

/-- `while (auto it = get_next())`, with the marks `gpr[7]`. The fuel is the
length of `sq`: every round marks one more thread of it. -/
def attemptLoop (protocol : Lv2Protocol) (prio : PpuId → PpuPrio) (sq : List PpuId)
    (waiter : PpuId → Waiter) (bitptn : UInt64) : Nat → (PpuId → Bool) → Attempt → Attempt
  | 0, _, a => a
  | fuel + 1, marked, a =>
    match getNext protocol prio marked sq with
    | none => a
    | some w =>
      match processOne bitptn w (waiter w) a with
      | (a, true) => attemptLoop protocol prio sq waiter bitptn fuel (Function.update marked w true) a
      | (a, false) => a

/-- One attempt of `sys_event_flag_set(bitptn)` on the snapshot `pattern`:
start from `pattern | bitptn` with no marks, run the loop, and take `bitptn`
out of the dependant mask. -/
def setAttempt (protocol : Lv2Protocol) (prio : PpuId → PpuPrio) (sq : List PpuId)
    (waiter : PpuId → Waiter) (bitptn pattern : UInt64) : Attempt :=
  let a := attemptLoop protocol prio sq waiter bitptn sq.length (fun _ => false)
    ⟨pattern ||| bitptn, 0, 0, fun _ => none⟩
  { a with dependantMask := a.dependantMask &&& ~~~bitptn }

/-- The `fetch_op` that commits an attempt made on `pattern` to the current
value `x`: refuse if `x` differs from `pattern` on a dependant bit; otherwise
set `bitptn` and clear the bits the attempt cleared. -/
def commit (x pattern bitptn toWrite dependantMask : UInt64) : Option UInt64 :=
  if (x ^^^ pattern) &&& dependantMask != 0 then none
  else some ((x ||| bitptn) &&& ~~~((pattern ||| bitptn) &&& ~~~toWrite))

/-! ### The scan -/

section Scan

variable {protocol : Lv2Protocol} {prio : PpuId → PpuPrio} {marked : PpuId → Bool}

/-- The step of the `get_next` scan. -/
def scanStep (protocol : Lv2Protocol) (prio : PpuId → PpuPrio) (marked : PpuId → Bool)
    (best : Int × Option PpuId) (u : PpuId) : Int × Option PpuId :=
  if !marked u && (protocol != .priority || (prio u).prio ≤ best.1) then ((prio u).prio, some u)
  else best

theorem getNext_eq (sq : List PpuId) :
    getNext protocol prio marked sq = (sq.foldl (scanStep protocol prio marked) (2 ^ 31 - 1, none)).2 :=
  rfl

/-- Once the scan holds a thread it keeps holding one. -/
theorem foldl_scanStep_isSome (l : List PpuId) {best : Int × Option PpuId}
    (h : best.2.isSome) : (l.foldl (scanStep protocol prio marked) best).2.isSome := by
  induction l generalizing best with
  | nil => exact h
  | cons u l ih =>
    rw [List.foldl_cons]
    apply ih
    unfold scanStep
    split
    · rfl
    · exact h

/-- The thread the scan holds at the end is the one it started with or an
unmarked member of the list. -/
theorem foldl_scanStep_mem (l : List PpuId) {best : Int × Option PpuId} {w : PpuId}
    (h : (l.foldl (scanStep protocol prio marked) best).2 = some w) :
    best.2 = some w ∨ (w ∈ l ∧ marked w = false) := by
  induction l generalizing best with
  | nil => exact .inl h
  | cons u l ih =>
    rw [List.foldl_cons] at h
    rcases ih h with h' | ⟨hm, hmk⟩
    · unfold scanStep at h'
      split at h'
      · rename_i hc
        cases h'
        simp only [Bool.and_eq_true, Bool.not_eq_true'] at hc
        exact .inr ⟨List.mem_cons_self, hc.1⟩
      · exact .inl h'
    · exact .inr ⟨List.mem_cons_of_mem _ hm, hmk⟩

/-- A scan that holds nothing at the end saw only marked threads, as long as
no priority exceeds `smax`. -/
theorem foldl_scanStep_none (l : List PpuId)
    (h : (l.foldl (scanStep protocol prio marked) (2 ^ 31 - 1, none)).2 = none)
    (hprio : ∀ u ∈ l, (prio u).prio ≤ 2 ^ 31 - 1) : ∀ u ∈ l, marked u = true := by
  induction l with
  | nil => simp
  | cons u l ih =>
    rw [List.foldl_cons] at h
    by_cases hu : marked u = true
    · have hstep : scanStep protocol prio marked (2 ^ 31 - 1, none) u = (2 ^ 31 - 1, none) := by
        simp [scanStep, hu]
      rw [hstep] at h
      intro v hv
      rcases List.mem_cons.mp hv with rfl | hv
      · exact hu
      · exact ih h (fun v hv => hprio v (List.mem_cons_of_mem _ hv)) v hv
    · have hstep : scanStep protocol prio marked (2 ^ 31 - 1, none) u = ((prio u).prio, some u) := by
        have hp := hprio u List.mem_cons_self
        simp only [scanStep, hu, Bool.not_false, Bool.true_and, Bool.or_eq_true, bne_iff_ne, ne_eq,
          decide_eq_true_eq, hp, or_true, if_true]
      rw [hstep] at h
      have hs : (l.foldl (scanStep protocol prio marked) ((prio u).prio, some u)).2.isSome :=
        foldl_scanStep_isSome l rfl
      rw [h] at hs
      cases hs

/-- `get_next` hands out an unmarked member of `sq`. -/
theorem getNext_some {sq : List PpuId} {w : PpuId}
    (h : getNext protocol prio marked sq = some w) : w ∈ sq ∧ marked w = false := by
  rw [getNext_eq] at h
  rcases foldl_scanStep_mem sq h with h' | hw
  · cases h'
  · exact hw

/-- `get_next` finds nothing only when every thread of `sq` is marked. -/
theorem getNext_eq_none {sq : List PpuId} (h : getNext protocol prio marked sq = none)
    (hprio : ∀ u ∈ sq, (prio u).prio ≤ 2 ^ 31 - 1) : ∀ u ∈ sq, marked u = true :=
  foldl_scanStep_none sq h hprio

end Scan

/-! ### What an attempt decides -/

section Attempt

variable {bitptn : UInt64} {w : PpuId} {wt : Waiter} {a : Attempt}

theorem processOne_toWrite :
    (processOne bitptn w wt a).1.toWrite = (checkPattern a.toWrite wt.bitptn wt.mode).2 := by
  unfold processOne
  rcases checkPattern a.toWrite wt.bitptn wt.mode with ⟨_ | _, t⟩ <;> rfl

theorem processOne_written :
    (processOne bitptn w wt a).1.written =
      Function.update a.written w (some ((checkPattern a.toWrite wt.bitptn wt.mode).1, a.toWrite)) := by
  unfold processOne
  rcases checkPattern a.toWrite wt.bitptn wt.mode with ⟨_ | _, t⟩ <;> rfl

theorem processOne_count :
    (processOne bitptn w wt a).1.count =
      if (checkPattern a.toWrite wt.bitptn wt.mode).1 then a.count + 1 else a.count := by
  unfold processOne
  rcases checkPattern a.toWrite wt.bitptn wt.mode with ⟨_ | _, t⟩ <;> rfl

/-- The loop stops only on an accepted waiter that leaves nothing to write. -/
theorem processOne_stop (h : (processOne bitptn w wt a).2 = false) :
    (processOne bitptn w wt a).1.toWrite = 0 ∧ (processOne bitptn w wt a).1.count = a.count + 1 := by
  revert h
  unfold processOne
  rcases checkPattern a.toWrite wt.bitptn wt.mode with ⟨_ | _, t⟩
  · intro h
    cases h
  · intro h
    exact ⟨by simpa using h, rfl⟩

theorem count_le_processOne : a.count ≤ (processOne bitptn w wt a).1.count := by
  rw [processOne_count]
  split <;> omega

/-- What every attempt keeps: each waiter it rejected rejects the pattern it
will write, and it has counted the waiters it accepted. -/
structure Attempt.Inv (waiter : PpuId → Waiter) (a : Attempt) : Prop where
  rejects : ∀ u v, a.written u = some (false, v) → (waiter u).accepts a.toWrite = false
  counted : ∀ u v, a.written u = some (true, v) → 0 < a.count

theorem Attempt.inv_init (waiter : PpuId → Waiter) (t : UInt64) :
    Attempt.Inv waiter ⟨t, 0, 0, fun _ => none⟩ where
  rejects _ _ h := by cases h
  counted _ _ h := by cases h

/-- Deciding one more waiter keeps the invariant: the new rejection is on the
pattern that stays, and `check_pattern` only clears bits, so the earlier
rejections still hold. -/
theorem Attempt.Inv.processOne {waiter : PpuId → Waiter} (ha : a.Inv waiter) :
    (EventFlag.processOne bitptn w (waiter w) a).1.Inv waiter where
  rejects u v h := by
    rw [processOne_written] at h
    rw [processOne_toWrite]
    by_cases huw : u = w
    · subst huw
      rw [Function.update_self, Option.some.injEq, Prod.mk.injEq] at h
      rw [checkPattern_of_fst_false h.1]
      exact h.1
    · rw [Function.update_of_ne huw] at h
      exact Waiter.rejects_of_subset (bits_checkPattern_snd _ _ _) (ha.rejects u v h)
  counted u v h := by
    rw [processOne_written] at h
    rw [processOne_count]
    by_cases huw : u = w
    · subst huw
      rw [Function.update_self, Option.some.injEq, Prod.mk.injEq] at h
      rw [if_pos h.1]
      omega
    · rw [Function.update_of_ne huw] at h
      have hc := ha.counted u v h
      split <;> omega

variable {protocol : Lv2Protocol} {prio : PpuId → PpuPrio} {sq : List PpuId}
  {waiter : PpuId → Waiter}

theorem Attempt.Inv.attemptLoop {fuel : Nat} {marked : PpuId → Bool} (ha : a.Inv waiter) :
    (EventFlag.attemptLoop protocol prio sq waiter bitptn fuel marked a).Inv waiter := by
  induction fuel generalizing marked a with
  | zero => exact ha
  | succ fuel ih =>
    unfold EventFlag.attemptLoop
    split
    · exact ha
    · rename_i w _
      have hs : (EventFlag.processOne bitptn w (waiter w) a).1.Inv waiter := ha.processOne
      split
      · rename_i a' h
        rw [h] at hs
        exact ih hs
      · rename_i a' h
        rw [h] at hs
        exact hs

theorem count_le_attemptLoop {fuel : Nat} {marked : PpuId → Bool} :
    a.count ≤ (attemptLoop protocol prio sq waiter bitptn fuel marked a).count := by
  induction fuel generalizing marked a with
  | zero => exact le_rfl
  | succ fuel ih =>
    unfold attemptLoop
    split
    · exact le_rfl
    · rename_i w _
      have hc : a.count ≤ (processOne bitptn w (waiter w) a).1.count := count_le_processOne
      split
      · rename_i a' h
        rw [h] at hc
        exact hc.trans ih
      · rename_i a' h
        rw [h] at hc
        exact hc

/-- The threads of `sq` that are not marked yet. -/
def unmarked (sq : List PpuId) (marked : PpuId → Bool) : Finset PpuId :=
  sq.toFinset.filter (fun u => marked u = false)

theorem unmarked_update {marked : PpuId → Bool} (hw : w ∈ sq) (hmw : marked w = false) :
    (unmarked sq (Function.update marked w true)).card + 1 = (unmarked sq marked).card := by
  have he : unmarked sq (Function.update marked w true) = (unmarked sq marked).erase w := by
    ext u
    by_cases huw : u = w
    · subst huw
      simp [unmarked]
    · simp [unmarked, huw]
  rw [he]
  apply Finset.card_erase_add_one
  simp [unmarked, hw, hmw]

/-- The loop decides every thread of `sq` unless it stopped, on an accepted
waiter, with nothing to write. The fuel covers the unmarked threads, and the
marked ones have been decided already. -/
theorem attemptLoop_covers (hprio : ∀ u ∈ sq, (prio u).prio ≤ 2 ^ 31 - 1) {fuel : Nat}
    {marked : PpuId → Bool} (hfuel : (unmarked sq marked).card ≤ fuel)
    (hm : ∀ u ∈ sq, marked u = true → a.written u ≠ none) :
    ((attemptLoop protocol prio sq waiter bitptn fuel marked a).toWrite = 0 ∧
        a.count < (attemptLoop protocol prio sq waiter bitptn fuel marked a).count) ∨
      ∀ u ∈ sq, (attemptLoop protocol prio sq waiter bitptn fuel marked a).written u ≠ none := by
  induction fuel generalizing marked a with
  | zero =>
    -- no fuel left: every thread of `sq` is marked
    have hall : ∀ u ∈ sq, marked u = true := by
      intro u hu
      by_contra hmu
      have hmem : u ∈ unmarked sq marked := by
        simpa [unmarked, hu] using hmu
      have hpos := Finset.card_pos.mpr ⟨u, hmem⟩
      omega
    exact .inr fun u hu => hm u hu (hall u hu)
  | succ fuel ih =>
    unfold attemptLoop
    split
    · rename_i hnone
      exact .inr fun u hu => hm u hu (getNext_eq_none hnone hprio u hu)
    · rename_i w hw
      obtain ⟨hwsq, hmw⟩ := getNext_some hw
      have hc : a.count ≤ (processOne bitptn w (waiter w) a).1.count := count_le_processOne
      split
      · rename_i a' h
        rw [h] at hc
        have hrest : (unmarked sq (Function.update marked w true)).card ≤ fuel := by
          have hu := unmarked_update hwsq hmw
          omega
        have hdecided : ∀ u ∈ sq, Function.update marked w true u = true → a'.written u ≠ none := by
          intro u hu hmu
          have hwr := congrArg (fun r => r.1.written u) h
          simp only [processOne_written] at hwr
          rw [← hwr]
          by_cases huw : u = w
          · subst huw
            simp
          · rw [Function.update_of_ne huw] at hmu ⊢
            exact hm u hu hmu
        rcases ih hrest hdecided with ⟨h0, hlt⟩ | hall
        · exact .inl ⟨h0, lt_of_le_of_lt hc hlt⟩
        · exact .inr hall
      · rename_i a' h
        have hstop := @processOne_stop bitptn w (waiter w) a
        rw [h] at hstop
        obtain ⟨h0, hcount⟩ := hstop rfl
        dsimp only at h0 hcount
        exact .inl ⟨h0, by omega⟩

/-- The attempt keeps `Attempt.Inv`. -/
theorem setAttempt_inv (pattern : UInt64) :
    (setAttempt protocol prio sq waiter bitptn pattern).Inv waiter := by
  -- the attempt is the loop's, with `bitptn` taken out of the dependant mask
  have h : (attemptLoop protocol prio sq waiter bitptn sq.length (fun _ => false)
      ⟨pattern ||| bitptn, 0, 0, fun _ => none⟩).Inv waiter :=
    (Attempt.inv_init waiter _).attemptLoop
  exact ⟨h.rejects, h.counted⟩

/-- An attempt decides every waiter of `sq`, or stops early on an accepted
waiter with nothing left to write. -/
theorem setAttempt_covers (hprio : ∀ u ∈ sq, (prio u).prio ≤ 2 ^ 31 - 1) (pattern : UInt64) :
    ((setAttempt protocol prio sq waiter bitptn pattern).toWrite = 0 ∧
        0 < (setAttempt protocol prio sq waiter bitptn pattern).count) ∨
      ∀ u ∈ sq, (setAttempt protocol prio sq waiter bitptn pattern).written u ≠ none := by
  have hfuel : (unmarked sq (fun _ => false)).card ≤ sq.length :=
    (Finset.card_filter_le _ _).trans (List.toFinset_card_le sq)
  exact attemptLoop_covers hprio hfuel (fun u _ h => by cases h)

end Attempt

/-! ### The commit -/

/-- A commit onto a pattern with no more bits than the snapshot writes no bit
the attempt did not keep. -/
theorem bits_commit {x pattern bitptn toWrite dependantMask x' : UInt64}
    (h : commit x pattern bitptn toWrite dependantMask = some x') (hx : bits x ⊆ bits pattern) :
    bits x' ⊆ bits toWrite := by
  unfold commit at h
  split at h
  · cases h
  · cases h
    intro i hi
    simp only [bits_and, bits_or, bits_not, Set.mem_inter_iff, Set.mem_union, Set.mem_compl_iff,
      not_and, not_not] at hi
    obtain ⟨hxb, hk⟩ := hi
    exact hk (hxb.imp_left (fun h => hx h))

end Rpcs3.Lv2.EventFlag
