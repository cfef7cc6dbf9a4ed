import Rpcs3.Lib.Transition
import Mathlib

/-! The four-entry SPU inbound mailbox (`spu_channel_4_t`, SPUThread.h and
SPUThread.cpp): producers call `push`, and the SPU consumer calls `try_pop` and
`pop_wait`, as an interleaving of atomic steps.

`values` packs the waiting byte, the count and the first three entries into one
16-byte atomic; the fourth entry is the separate atomic `value3`, and
`jostling_value` carries a value to a consumer that waits with `bit_occupy`
set. Each load, store, CAS and exchange is a step. The lambda of `push`'s
`fetch_op` touches nothing shared, so it runs with its CAS; the lambdas of
`try_pop` and `pop_wait` read `value3`, and that of `pop_wait` stores
`jostling_value`, so they are steps of their own between the load and the CAS.

The count never exceeds 4 (`count_le_four`). But `push` stores `value3` before
its `fetch_op`: a pop between the two shifts the new `value3` into `value2`,
and the `fetch_op` then finds three entries and keeps the same `value3` as the
fourth, so the value is returned twice and the old fourth entry is lost. -/
namespace Rpcs3.Cell.SpuChannel4

open Transition

/-- `sync_var_t`. -/
structure SyncVar where
  waiting : UInt8
  count : UInt8
  value3Inval : UInt16
  value0 : UInt32
  value1 : UInt32
  value2 : UInt32
  deriving DecidableEq, Repr

def SyncVar.zero : SyncVar := ⟨0, 0, 0, 0, 0, 0⟩

/-- `bit_wait` and `bit_occupy` of the waiting byte. -/
def bitWait : UInt8 := 1
def bitOccupy : UInt8 := 0x80

/-- `jostling_value`: `jostling_flag` (bit 63) and the low 32 bits. -/
structure Jostling where
  flag : Bool
  value : UInt32
  deriving DecidableEq, Repr

def Jostling.zero : Jostling := ⟨false, 0⟩

/-- `jostling_flag`. -/
def jostlingFlag : Jostling := ⟨true, 0⟩

/-- The lambda of `push`'s `fetch_op` when no consumer occupies the channel:
`switch (data.count++)` fills the next entry, and from three entries on the
count is pinned at 4 and the entry is `value3`. -/
def pushData (data : SyncVar) (value : UInt32) : SyncVar :=
  if data.count = 0 then { data with count := 1, value0 := value }
  else if data.count = 1 then { data with count := 2, value1 := value }
  else if data.count = 2 then { data with count := 3, value2 := value }
  else { data with count := 4, value3Inval := data.value3Inval + 1 }

/-- The pop in the lambdas of `try_pop` and `pop_wait`: the entries shift down
and `value2` takes `this->value3`. -/
def popData (data : SyncVar) (value3 : UInt32) : SyncVar :=
  { data with waiting := 0, count := data.count - 1, value0 := data.value1,
              value1 := data.value2, value2 := value3 }

/-- Where the consumer is. -/
inductive ConsumerPc where
  | idle
  /-- `try_pop`: the lambda of its `atomic_op` runs next on the snapshot `old`. -/
  | tryPopLoaded (old : SyncVar)
  /-- `try_pop`: the CAS from `old` to `new` is next. -/
  | tryPopCas (old new : SyncVar)
  /-- `pop_wait`: the lambda of its `fetch_op` runs next on the snapshot `old`. -/
  | popWaitLoaded (old : SyncVar)
  /-- `pop_wait`: the CAS from `old` to `new` is next. -/
  | popWaitCas (old new : SyncVar)
  /-- `pop_wait`: the wait loops, testing the waiting byte. -/
  | waiting
  /-- `pop_wait`: found the wait bit clear; `jostling_value.exchange(0)` is next. -/
  | taking
  /-- `pop_wait`: found the thread stopped; `jostling_value.exchange(0)` is next. -/
  | stopping
  /-- `pop_wait` stopping with no value: the exchange of the waiting byte with 0. -/
  | stopClearing
  /-- `pop_wait` stopping found the wait bit cleared: `jostling_value.exchange(0)`. -/
  | stopTaking
  deriving DecidableEq, Repr

/-- Where a producer is. -/
inductive ProducerPc where
  | idle
  /-- `push(value)`: `value3.release(value)` is next. -/
  | storing (value : UInt32)
  /-- `push`: the `fetch_op` on `values` is next. -/
  | fetching (value : UInt32)
  /-- `push` found `bit_occupy`: `jostling_value.compare_and_swap_test(jostling_flag, value)`. -/
  | jostle (value : UInt32)
  /-- `push` saw `bit_wait`: the exchange of the waiting byte with 0. -/
  | resetting
  deriving DecidableEq, Repr

structure State (ι : Type) where
  values : SyncVar
  value3 : UInt32
  jostling : Jostling
  consumer : ConsumerPc
  producer : ι → ProducerPc

/-- A producer's call, the value a consumer call returns, a push returning its
`op_done`, a consumer call returning nothing. -/
inductive Label where
  | call (value : UInt32)
  | get (value : UInt32)
  | done (opDone : Bool)
  | fail
  | tau
  deriving DecidableEq, Repr

/-- The value a call pushes. -/
def Label.pushed : Label → Option UInt32
  | .call v => some v
  | _ => none

/-- The value a consumer call returns. -/
def Label.popped : Label → Option UInt32
  | .get v => some v
  | _ => none

variable {ι : Type}

def State.init : State ι := ⟨.zero, 0, .zero, .idle, fun _ => .idle⟩

/-- `get_count()`. -/
def State.getCount (s : State ι) : UInt8 := s.values.count

variable [DecidableEq ι]

def State.setProducer (s : State ι) (i : ι) (p : ProducerPc) : State ι :=
  { s with producer := Function.update s.producer i p }

inductive Step : State ι → Label → State ι → Prop where
  | tryPopCall {s : State ι} : s.consumer = .idle →
      Step s .tau { s with consumer := .tryPopLoaded s.values }
  | tryPopLambda {s : State ι} {old : SyncVar} : s.consumer = .tryPopLoaded old →
      Step s .tau
        { s with consumer := .tryPopCas old (if old.count ≠ 0 then popData old s.value3 else old) }
  /-- The CAS succeeded: `try_pop` returns the old count and `value0`. -/
  | tryPopCas {s : State ι} {old new : SyncVar} : s.consumer = .tryPopCas old new →
      s.values = old →
      Step s (if old.count ≠ 0 then .get old.value0 else .fail)
        { s with values := new, consumer := .idle }
  | tryPopRetry {s : State ι} {old new : SyncVar} : s.consumer = .tryPopCas old new →
      s.values ≠ old → Step s .tau { s with consumer := .tryPopLoaded s.values }
  | popWaitCall {s : State ι} : s.consumer = .idle →
      Step s .tau { s with consumer := .popWaitLoaded s.values }
  | popWaitPopLambda {s : State ι} {old : SyncVar} : s.consumer = .popWaitLoaded old →
      old.count ≠ 0 → Step s .tau { s with consumer := .popWaitCas old (popData old s.value3) }
  /-- No entry: the lambda sets `bit_occupy | bit_wait` and stores `jostling_flag`. -/
  | popWaitMarkLambda {s : State ι} {old : SyncVar} : s.consumer = .popWaitLoaded old →
      old.count = 0 →
      Step s .tau { s with jostling := jostlingFlag,
                           consumer := .popWaitCas old { old with waiting := bitOccupy ||| bitWait } }
  | popWaitCas {s : State ι} {old new : SyncVar} : s.consumer = .popWaitCas old new →
      s.values = old →
      Step s (if old.count ≠ 0 then .get old.value0 else .tau)
        { s with values := new, consumer := if old.count ≠ 0 then .idle else .waiting }
  | popWaitRetry {s : State ι} {old new : SyncVar} : s.consumer = .popWaitCas old new →
      s.values ≠ old → Step s .tau { s with consumer := .popWaitLoaded s.values }
  /-- One test of the wait bit in the wait loops, and of `is_stopped()` after it. -/
  | popWaitPoll {s : State ι} (stopped : Bool) : s.consumer = .waiting →
      Step s .tau { s with consumer :=
        if s.values.waiting &&& bitWait = 0 then .taking
        else if stopped then .stopping else .waiting }
  | popWaitTake {s : State ι} : s.consumer = .taking →
      Step s (.get s.jostling.value) { s with jostling := .zero, consumer := .idle }
  | popWaitStopTake {s : State ι} : s.consumer = .stopping → s.jostling.flag = false →
      Step s (.get s.jostling.value) { s with jostling := .zero, consumer := .idle }
  | popWaitStopEmpty {s : State ι} : s.consumer = .stopping → s.jostling.flag = true →
      Step s .tau { s with jostling := .zero, consumer := .stopClearing }
  | popWaitStopClear {s : State ι} : s.consumer = .stopClearing →
      Step s (if s.values.waiting &&& bitWait = 0 then .tau else .fail)
        { s with values := { s.values with waiting := 0 },
                 consumer := if s.values.waiting &&& bitWait = 0 then .stopTaking else .idle }
  | popWaitStopTaking {s : State ι} : s.consumer = .stopTaking →
      Step s (.get s.jostling.value) { s with jostling := .zero, consumer := .idle }
  | pushCall {s : State ι} (i : ι) (v : UInt32) : s.producer i = .idle →
      Step s (.call v) (s.setProducer i (.storing v))
  | pushStore {s : State ι} {i : ι} {v : UInt32} : s.producer i = .storing v →
      Step s .tau ({ s with value3 := v }.setProducer i (.fetching v))
  /-- The lambda and the CAS: a push that finds a waiting consumer with
  `bit_wait` set goes on to clear it. -/
  | pushFetch {s : State ι} {i : ι} {v : UInt32} : s.producer i = .fetching v →
      s.values.waiting &&& bitOccupy = 0 →
      Step s (if s.values.waiting &&& bitWait = 0 then .done true else .tau)
        ({ s with values := pushData s.values v }.setProducer i
          (if s.values.waiting &&& bitWait = 0 then .idle else .resetting))
  /-- The lambda returned `false` on `bit_occupy`: no CAS. -/
  | pushOccupied {s : State ι} {i : ι} {v : UInt32} : s.producer i = .fetching v →
      s.values.waiting &&& bitOccupy ≠ 0 → Step s .tau (s.setProducer i (.jostle v))
  | pushJostle {s : State ι} {i : ι} {v : UInt32} : s.producer i = .jostle v →
      s.jostling = jostlingFlag →
      Step s .tau ({ s with jostling := ⟨false, v⟩ }.setProducer i .resetting)
  /-- "Other thread has inserted a value through jostling_value, retry": back to
  the top of the loop, which stores `value3` again. -/
  | pushJostleRetry {s : State ι} {i : ι} {v : UInt32} : s.producer i = .jostle v →
      s.jostling ≠ jostlingFlag → Step s .tau (s.setProducer i (.storing v))
  /-- The exchange of the waiting byte with 0; a clear wait bit makes the push
  return `op_done = false`. -/
  | pushReset {s : State ι} {i : ι} : s.producer i = .resetting →
      Step s (.done (s.values.waiting &&& bitWait ≠ 0))
        ({ s with values := { s.values with waiting := 0 } }.setProducer i .idle)

/-! ### The count -/

/-- A count of at most four entries. -/
def CountOk (data : SyncVar) : Prop := data.count.toNat ≤ 4

/-- The snapshots and results the consumer holds between its load and its CAS. -/
def ConsumerPc.CountOk : ConsumerPc → Prop
  | .tryPopLoaded old => Rpcs3.Cell.SpuChannel4.CountOk old
  | .tryPopCas _ new => Rpcs3.Cell.SpuChannel4.CountOk new
  | .popWaitLoaded old => Rpcs3.Cell.SpuChannel4.CountOk old
  | .popWaitCas _ new => Rpcs3.Cell.SpuChannel4.CountOk new
  | _ => True

def Inv (s : State ι) : Prop := CountOk s.values ∧ s.consumer.CountOk

theorem countOk_pushData (data : SyncVar) (v : UInt32) : CountOk (pushData data v) := by
  unfold pushData CountOk
  split_ifs <;> simp

theorem count_pred_le : ∀ c : UInt8, c ≠ 0 → c.toNat ≤ 4 → (c - 1).toNat ≤ 4 := by
  decide +kernel

theorem countOk_popData {data : SyncVar} (h : CountOk data) (h0 : data.count ≠ 0) (v : UInt32) :
    CountOk (popData data v) :=
  count_pred_le _ h0 h

theorem countOk_waiting {data : SyncVar} (h : CountOk data) (w : UInt8) :
    CountOk { data with waiting := w } :=
  h

omit [DecidableEq ι] in
theorem inv_init : Inv (State.init : State ι) := ⟨by simp [CountOk, State.init, SyncVar.zero], trivial⟩

theorem inv_step : Preserved (Step (ι := ι)) Inv := by
  rintro s ℓ t ⟨hv, hc⟩ h
  cases h with
  | @tryPopLambda old ho =>
    -- the lambda pops from a snapshot of at most four entries, or keeps it
    rw [ho] at hc
    refine ⟨hv, ?_⟩
    split_ifs with h0
    · exact countOk_popData hc h0 _
    · exact hc
  | @tryPopCas old new ho _ => rw [ho] at hc; exact ⟨hc, trivial⟩
  | tryPopRetry _ _ => exact ⟨hv, hv⟩
  | popWaitCall _ => exact ⟨hv, hv⟩
  | tryPopCall _ => exact ⟨hv, hv⟩
  | @popWaitPopLambda old ho h0 => rw [ho] at hc; exact ⟨hv, countOk_popData hc h0 _⟩
  | @popWaitMarkLambda old ho _ => rw [ho] at hc; exact ⟨hv, countOk_waiting hc _⟩
  | @popWaitCas old new ho _ =>
    rw [ho] at hc
    refine ⟨hc, ?_⟩
    split_ifs <;> trivial
  | popWaitRetry _ _ => exact ⟨hv, hv⟩
  | popWaitPoll _ _ => exact ⟨hv, by split_ifs <;> trivial⟩
  | popWaitStopClear _ => exact ⟨countOk_waiting hv _, by split_ifs <;> trivial⟩
  | pushFetch _ _ => exact ⟨countOk_pushData _ _, hc⟩
  | pushReset _ => exact ⟨countOk_waiting hv _, hc⟩
  | popWaitTake _ | popWaitStopTake _ _ | popWaitStopEmpty _ _ | popWaitStopTaking _ =>
    exact ⟨hv, trivial⟩
  | pushCall _ _ _ | pushStore _ | pushOccupied _ _ | pushJostle _ _ | pushJostleRetry _ _ =>
    exact ⟨hv, hc⟩

/-- `get_count()` never exceeds 4. -/
theorem count_le_four {s : State ι} (h : Reachable (· = State.init) Step s) :
    s.getCount.toNat ≤ 4 :=
  (h.invariant (fun _ h₀ => h₀ ▸ inv_init) inv_step).1

/-- The count stays within four entries, but a pop between a push's `value3`
store and its `fetch_op` duplicates the pushed value. One producer pushes 1 to 4,
filling the mailbox, then calls `push(5)` and stores `value3 = 5`; the SPU's
`pop_wait` returns 1 and shifts `value2 = value3 = 5`; the `fetch_op` finds three
entries and sets the count back to 4 with `value3` still 5. The SPU then pops 2, 3,
5 and 5, and 4 is gone. In every sequential order the pops after 1 are 2, 3, 4, 5
or 2, 3, 5. -/
theorem spu_channel_4_duplicate_pop :
    (∀ (ι : Type) [DecidableEq ι] (s : State ι),
      Reachable (· = State.init) Step s → s.getCount.toNat ≤ 4) ∧
    ∃ (as : List Label) (s : State (Fin 1)), Run Step State.init as s ∧
      as.filterMap Label.pushed = [1, 2, 3, 4, 5] ∧
      as.filterMap Label.popped = [1, 2, 3, 5, 5] ∧ s.getCount = 0 := by
  have hrun : Run Step (State.init : State (Fin 1)) _ _ :=
    -- pushes of 1 to 4, each run to its end
    .cons (Step.pushCall 0 1 rfl) <| .cons (Step.pushStore (i := 0) rfl) <|
    .cons (Step.pushFetch (i := 0) rfl (by decide)) <|
    .cons (Step.pushCall 0 2 rfl) <| .cons (Step.pushStore (i := 0) rfl) <|
    .cons (Step.pushFetch (i := 0) rfl (by decide)) <|
    .cons (Step.pushCall 0 3 rfl) <| .cons (Step.pushStore (i := 0) rfl) <|
    .cons (Step.pushFetch (i := 0) rfl (by decide)) <|
    .cons (Step.pushCall 0 4 rfl) <| .cons (Step.pushStore (i := 0) rfl) <|
    .cons (Step.pushFetch (i := 0) rfl (by decide)) <|
    -- `push(5)` stores `value3`, and a whole `pop_wait` runs before its `fetch_op`
    .cons (Step.pushCall 0 5 rfl) <| .cons (Step.pushStore (i := 0) rfl) <|
    .cons (Step.popWaitCall rfl) <| .cons (Step.popWaitPopLambda rfl (by decide)) <|
    .cons (Step.popWaitCas rfl rfl) <|
    .cons (Step.pushFetch (i := 0) rfl (by decide)) <|
    -- the SPU drains the mailbox
    .cons (Step.popWaitCall rfl) <| .cons (Step.popWaitPopLambda rfl (by decide)) <|
    .cons (Step.popWaitCas rfl rfl) <|
    .cons (Step.popWaitCall rfl) <| .cons (Step.popWaitPopLambda rfl (by decide)) <|
    .cons (Step.popWaitCas rfl rfl) <|
    .cons (Step.popWaitCall rfl) <| .cons (Step.popWaitPopLambda rfl (by decide)) <|
    .cons (Step.popWaitCas rfl rfl) <|
    .cons (Step.popWaitCall rfl) <| .cons (Step.popWaitPopLambda rfl (by decide)) <|
    .cons (Step.popWaitCas rfl rfl) <| .refl _
  exact ⟨fun ι _ s h => count_le_four h, _, _, hrun, by decide, by decide, rfl⟩

end Rpcs3.Cell.SpuChannel4
