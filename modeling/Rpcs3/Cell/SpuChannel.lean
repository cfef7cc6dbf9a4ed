import Rpcs3.Lib.Transition
import Mathlib

/-! The one-entry SPU channel (`spu_channel`, SPUThread.h and SPUThread.cpp):
producers call `push` and `try_push`, and one consumer calls `pop_wait` with
`pop = true`, `try_pop` and `pop`, as an interleaving of atomic steps.

`data` holds the count in bit 63, the value in the low 32 bits and, in bit 32,
both `bit_wait` and `bit_occupy` (`off_wait` and `off_occupy` are both 32).
`jostling_value` holds `bit_occupy` while a waiting consumer has no value yet,
and then the value a producer hands over. Each load, store, CAS, exchange,
`fetch_and` and `bit_test_reset` is a step. `fetch_op` runs its lambda on a
snapshot and retries the CAS with the value it finds, so the lambda of
`pop_wait`, which stores `bit_occupy` to `jostling_value` before its CAS, is a
step of its own; the other lambdas touch nothing shared and run with the CAS.

Every value the consumer obtains was in `data` or `jostling_value`, or a
producer is pushing it (`run_get_held`). A `bit_occupy` left in `jostling_value`
by a `pop_wait` whose CAS lost to a push lets a producer from the round before
hand its value to nobody: its `bit_test_reset` then fails, and the next
`pop_wait` overwrites the value. -/
namespace Rpcs3.Cell.SpuChannel

open Transition

/-- A 64-bit word of the channel: bit 63, bit 32 and the low 32 bits. -/
structure ChannelWord where
  count : Bool
  occupy : Bool
  value : UInt32
  deriving DecidableEq, Repr

/-- `0`. -/
def ChannelWord.zero : ChannelWord := ⟨false, false, 0⟩

/-- `bit_occupy`, which is also `bit_wait`. -/
def bitOccupy : ChannelWord := ⟨false, true, 0⟩

/-- `bit_count | value`. -/
def ChannelWord.full (value : UInt32) : ChannelWord := ⟨true, false, value⟩

/-- A plain `u32` stored in a 64-bit word. -/
def ChannelWord.plain (value : UInt32) : ChannelWord := ⟨false, false, value⟩

/-- Where the consumer is. -/
inductive ConsumerPc where
  | idle
  /-- `pop_wait`: the lambda of its `fetch_op` runs next on the snapshot `old`. -/
  | popLoaded (old : ChannelWord)
  /-- `pop_wait`: the lambda stored `bit_occupy` to `jostling_value`; the CAS
  from `old` to `bit_occupy | bit_wait` is next. -/
  | popCas (old : ChannelWord)
  /-- `pop_wait`: the wait loops, testing `data & bit_wait`. -/
  | waiting
  /-- `pop_wait`: found the wait bit clear; `jostling_value.exchange(0)` is next. -/
  | taking
  /-- `pop_wait`: found the thread stopped; `jostling_value.exchange(0)` is next. -/
  | stopping
  /-- `pop_wait` stopping with no value: `data.fetch_and(~(bit_wait | bit_occupy))`
  is next. -/
  | stopClearing
  /-- The `ensure` after that `fetch_and` failed. -/
  | aborted
  deriving DecidableEq, Repr

/-- Where a producer is. -/
inductive ProducerPc where
  | idle
  /-- `push(value, to_or)`: the `fetch_op` on `data` loads next. -/
  | pushStart (value : UInt32) (toOr : Bool)
  /-- `push`: the lambda and the CAS on the snapshot `old`. -/
  | pushLoaded (value : UInt32) (toOr : Bool) (old : ChannelWord)
  /-- `push` found `bit_occupy`: `jostling_value.compare_and_swap_test(bit_occupy, value)`
  is next. -/
  | jostle (value : UInt32) (toOr : Bool)
  /-- `push` handed its value over and saw `bit_wait`: `bit_test_reset(off_wait)`. -/
  | resetting
  deriving DecidableEq, Repr

/-- The values a producer is pushing; a push with `to_or` can store any value. -/
def ProducerPc.holds : ProducerPc → UInt32 → Bool
  | .idle, _ => false
  | .pushStart v toOr, x => x == v || toOr
  | .pushLoaded v toOr _, x => x == v || toOr
  | .jostle v toOr, x => x == v || toOr
  | .resetting, _ => false

structure State (ι : Type) where
  data : ChannelWord
  jostling : ChannelWord
  consumer : ConsumerPc
  producer : ι → ProducerPc

/-- What a step shows: a producer's call, the value a consumer call returns, a
push returning its `op_done`, a consumer call returning nothing. -/
inductive Label where
  | call (value : UInt32) (toOr : Bool)
  | get (value : UInt32)
  | done (opDone : Bool)
  | fail
  | tau
  deriving DecidableEq, Repr

variable {ι : Type}

def State.init : State ι := ⟨.zero, .zero, .idle, fun _ => .idle⟩

/-- `get_count()`. -/
def State.getCount (s : State ι) : Nat := if s.data.count then 1 else 0

/-! ### Where obtained values come from -/

/-- A value that steps can obtain or store without a new call: `0`, the low half
of an empty word, the values of `data` and `jostling_value`, and the values
producers are pushing. -/
def Held (s : State ι) (x : UInt32) : Prop :=
  x = 0 ∨ s.data.value = x ∨ s.jostling.value = x ∨ ∃ i, (s.producer i).holds x = true

theorem held_of_producer {s : State ι} {i : ι} {x : UInt32} (h : (s.producer i).holds x = true) :
    Held s x :=
  .inr (.inr (.inr ⟨i, h⟩))

variable [DecidableEq ι]

def State.setProducer (s : State ι) (i : ι) (p : ProducerPc) : State ι :=
  { s with producer := Function.update s.producer i p }

/-- The steps. The consumer's come first: `pop_wait`, then `try_pop` and `pop`,
each of which is one `fetch_op` whose lambda touches nothing shared. -/
inductive Step : State ι → Label → State ι → Prop where
  | popWaitCall {s : State ι} : s.consumer = .idle →
      Step s .tau { s with consumer := .popLoaded s.data }
  /-- The lambda found a count: the CAS to `0` returns the value. -/
  | popWaitPop {s : State ι} {old : ChannelWord} : s.consumer = .popLoaded old →
      old.count = true → s.data = old →
      Step s (.get old.value) { s with data := .zero, consumer := .idle }
  | popWaitPopRetry {s : State ι} {old : ChannelWord} : s.consumer = .popLoaded old →
      old.count = true → s.data ≠ old → Step s .tau { s with consumer := .popLoaded s.data }
  /-- The lambda found no count: `jostling_value.release(bit_occupy)`. -/
  | popWaitMark {s : State ι} {old : ChannelWord} : s.consumer = .popLoaded old →
      old.count = false → Step s .tau { s with jostling := bitOccupy, consumer := .popCas old }
  | popWaitCas {s : State ι} {old : ChannelWord} : s.consumer = .popCas old → s.data = old →
      Step s .tau { s with data := bitOccupy, consumer := .waiting }
  | popWaitCasRetry {s : State ι} {old : ChannelWord} : s.consumer = .popCas old →
      s.data ≠ old → Step s .tau { s with consumer := .popLoaded s.data }
  /-- One test of `data & bit_wait` in the wait loops, and of `is_stopped()` after it. -/
  | popWaitPoll {s : State ι} (stopped : Bool) : s.consumer = .waiting →
      Step s .tau { s with consumer :=
        if !s.data.occupy then .taking else if stopped then .stopping else .waiting }
  | popWaitTake {s : State ι} : s.consumer = .taking →
      Step s (.get s.jostling.value) { s with jostling := .zero, consumer := .idle }
  | popWaitStopTake {s : State ι} : s.consumer = .stopping → s.jostling.occupy = false →
      Step s (.get s.jostling.value) { s with jostling := .zero, consumer := .idle }
  | popWaitStopEmpty {s : State ι} : s.consumer = .stopping → s.jostling.occupy = true →
      Step s .tau { s with jostling := .zero, consumer := .stopClearing }
  | popWaitStopClear {s : State ι} : s.consumer = .stopClearing →
      Step s (if s.data.occupy then .fail else .tau)
        { s with data := { s.data with occupy := false },
                 consumer := if s.data.occupy then .idle else .aborted }
  | tryPop {s : State ι} : s.consumer = .idle →
      Step s (if s.data.count then .get s.data.value else .fail)
        { s with data := if s.data.count then .zero else s.data }
  /-- `pop()` returns the low half of `data` whether or not it holds a count. -/
  | pop {s : State ι} : s.consumer = .idle →
      Step s (.get s.data.value)
        { s with data := if s.data.count && s.data.occupy then .full s.jostling.value
                         else { s.data with count := false, occupy := false } }
  | pushCall {s : State ι} (i : ι) (v : UInt32) (toOr : Bool) : s.producer i = .idle →
      Step s (.call v toOr) (s.setProducer i (.pushStart v toOr))
  | pushLoad {s : State ι} {i : ι} {v : UInt32} {toOr : Bool} :
      s.producer i = .pushStart v toOr →
      Step s .tau (s.setProducer i (.pushLoaded v toOr s.data))
  /-- The lambda wrote `bit_count | value` (or the OR with the old value) and the CAS
  succeeded; `old` has no wait bit, so the push returns. -/
  | pushStore {s : State ι} {i : ι} {v : UInt32} {toOr : Bool} {old : ChannelWord} :
      s.producer i = .pushLoaded v toOr old → old.occupy = false → s.data = old →
      Step s (.done true)
        ({ s with data := .full (if toOr then old.value ||| v else v) }.setProducer i .idle)
  | pushRetry {s : State ι} {i : ι} {v : UInt32} {toOr : Bool} {old : ChannelWord} :
      s.producer i = .pushLoaded v toOr old → old.occupy = false → s.data ≠ old →
      Step s .tau (s.setProducer i (.pushLoaded v toOr s.data))
  /-- The lambda returned `false` on `bit_occupy`: no CAS. -/
  | pushOccupied {s : State ι} {i : ι} {v : UInt32} {toOr : Bool} {old : ChannelWord} :
      s.producer i = .pushLoaded v toOr old → old.occupy = true →
      Step s .tau (s.setProducer i (.jostle v toOr))
  | pushJostle {s : State ι} {i : ι} {v : UInt32} {toOr : Bool} :
      s.producer i = .jostle v toOr → s.jostling = bitOccupy →
      Step s .tau ({ s with jostling := .plain v }.setProducer i .resetting)
  /-- "Other thread has inserted a value through jostling_value, retry". -/
  | pushJostleRetry {s : State ι} {i : ι} {v : UInt32} {toOr : Bool} :
      s.producer i = .jostle v toOr → s.jostling ≠ bitOccupy →
      Step s .tau (s.setProducer i (.pushStart v toOr))
  /-- `bit_test_reset(off_wait)`; when it finds the bit clear the push returns
  `op_done = false`. -/
  | pushReset {s : State ι} {i : ι} : s.producer i = .resetting →
      Step s (.done s.data.occupy)
        ({ s with data := { s.data with occupy := false } }.setProducer i .idle)
  | tryPush {s : State ι} (i : ι) (v : UInt32) : s.producer i = .idle →
      Step s (.call v false) { s with data := if s.data.count then s.data else .full v }

@[simp] theorem State.setProducer_data (s : State ι) (i : ι) (p : ProducerPc) :
    (s.setProducer i p).data = s.data := rfl

@[simp] theorem State.setProducer_jostling (s : State ι) (i : ι) (p : ProducerPc) :
    (s.setProducer i p).jostling = s.jostling := rfl

theorem State.setProducer_producer (s : State ι) (i j : ι) (p : ProducerPc) :
    (s.setProducer i p).producer j = if j = i then p else s.producer j := by
  simp [State.setProducer, Function.update_apply]

/-- A consumer call returns a held value. -/
theorem Step.get_held {s t : State ι} {ℓ : Label} {x : UInt32} (h : Step s ℓ t)
    (hℓ : ℓ = .get x) : Held s x := by
  cases h with
  | popWaitPop _ _ hd => cases hℓ; exact .inr (.inl (by rw [hd]))
  | popWaitTake _ => cases hℓ; exact .inr (.inr (.inl rfl))
  | popWaitStopTake _ _ => cases hℓ; exact .inr (.inr (.inl rfl))
  | popWaitStopClear _ => split at hℓ <;> cases hℓ
  | tryPop _ =>
    split at hℓ
    · cases hℓ; exact .inr (.inl rfl)
    · cases hℓ
  | pop _ => cases hℓ; exact .inr (.inl rfl)
  | _ => cases hℓ

theorem Step.data_held {s t : State ι} {ℓ : Label} {x : UInt32} (h : Step s ℓ t)
    (hx : t.data.value = x) : Held s x ∨ ℓ = .call x false := by
  cases h with
  | @pushStore i v toOr old hp _ _ =>
    -- the stored value is the pushed one, or with `to_or` anything
    refine .inl (held_of_producer (i := i) ?_)
    cases toOr <;> simp_all [ChannelWord.full, ProducerPc.holds]
  | tryPush i v _ =>
    by_cases hc : s.data.count <;> simp_all [ChannelWord.full, Held]
  | pop _ =>
    by_cases hc : s.data.count && s.data.occupy <;> simp_all [ChannelWord.full, Held]
  | tryPop _ =>
    by_cases hc : s.data.count <;> simp_all [ChannelWord.zero, Held]
  | _ => simp_all [ChannelWord.zero, bitOccupy, Held]

theorem Step.jostling_held {s t : State ι} {ℓ : Label} {x : UInt32} (h : Step s ℓ t)
    (hx : t.jostling.value = x) : Held s x := by
  cases h with
  | @pushJostle i v toOr hp _ =>
    refine held_of_producer (i := i) ?_
    simp_all [ChannelWord.plain, ProducerPc.holds]
  | _ => simp_all [ChannelWord.zero, bitOccupy, Held]

/-- A write of a pc that pushes no value the old one did not. -/
theorem holds_setProducer_of {s : State ι} {i j : ι} {p : ProducerPc} {x : UInt32}
    (hp : ∀ y, p.holds y = true → (s.producer i).holds y = true)
    (hx : ((s.setProducer i p).producer j).holds x = true) : (s.producer j).holds x = true := by
  rw [State.setProducer_producer] at hx
  split_ifs at hx with hji
  · exact hji ▸ hp x hx
  · exact hx

theorem Step.producer_held {s t : State ι} {ℓ : Label} {x : UInt32} {j : ι} (h : Step s ℓ t)
    (hx : (t.producer j).holds x = true) :
    Held s x ∨ ℓ = .call x false ∨ ∃ v, ℓ = .call v true := by
  cases h with
  | @pushCall i v toOr _ =>
    -- the called pc holds its value, or with `to_or` every value
    rw [State.setProducer_producer] at hx
    split_ifs at hx
    · cases toOr <;> simp_all [ProducerPc.holds]
    · exact .inl (held_of_producer hx)
  | @pushLoad i v toOr hp =>
    exact .inl (held_of_producer (holds_setProducer_of (by simp [hp, ProducerPc.holds]) hx))
  | @pushStore i v toOr old hp _ _ =>
    exact .inl (held_of_producer (holds_setProducer_of (by simp [ProducerPc.holds]) hx))
  | @pushRetry i v toOr old hp _ _ =>
    exact .inl (held_of_producer (holds_setProducer_of (by simp [hp, ProducerPc.holds]) hx))
  | @pushOccupied i v toOr old hp _ =>
    exact .inl (held_of_producer (holds_setProducer_of (by simp [hp, ProducerPc.holds]) hx))
  | @pushJostle i v toOr hp _ =>
    exact .inl (held_of_producer (holds_setProducer_of (by simp [ProducerPc.holds]) hx))
  | @pushJostleRetry i v toOr hp _ =>
    exact .inl (held_of_producer (holds_setProducer_of (by simp [hp, ProducerPc.holds]) hx))
  | @pushReset i hp =>
    exact .inl (held_of_producer (holds_setProducer_of (by simp [ProducerPc.holds]) hx))
  | _ => exact .inl (held_of_producer hx)

/-- A value held after a step was held before it, or the step is the call pushing it. -/
theorem Step.held {s t : State ι} {ℓ : Label} {x : UInt32} (h : Step s ℓ t) (hx : Held t x) :
    Held s x ∨ ℓ = .call x false ∨ ∃ v, ℓ = .call v true := by
  rcases hx with h0 | hd | hj | ⟨j, hj⟩
  · exact .inl (.inl h0)
  · rcases h.data_held hd with hs | hc
    · exact .inl hs
    · exact .inr (.inl hc)
  · exact .inl (h.jostling_held hj)
  · exact h.producer_held hj

/-- Along any run, every value the consumer obtains was held at the start or is
pushed during the run. -/
theorem run_get_held {s t : State ι} {as : List Label} (h : Run Step s as t) {x : UInt32}
    (hx : .get x ∈ as) : Held s x ∨ .call x false ∈ as ∨ ∃ v, .call v true ∈ as := by
  induction h with
  | refl => cases hx
  | cons hst _ ih =>
    rcases List.mem_cons.mp hx with hℓ | hmem
    · exact .inl (hst.get_held hℓ.symm)
    · rcases ih hmem with hu | hc | ⟨v, hv⟩
      · rcases hst.held hu with hs | hc | ⟨v, hv⟩
        · exact .inl hs
        · exact .inr (.inl (hc ▸ List.mem_cons_self))
        · exact .inr (.inr ⟨v, hv ▸ List.mem_cons_self⟩)
      · exact .inr (.inl (List.mem_cons_of_mem _ hc))
      · exact .inr (.inr ⟨v, List.mem_cons_of_mem _ hv⟩)

omit [DecidableEq ι] in
theorem not_held_of_idle {s : State ι} {x : UInt32} (hd : s.data.value = 0)
    (hj : s.jostling.value = 0) (hp : ∀ i, s.producer i = .idle) (hx : x ≠ 0) : ¬ Held s x := by
  rintro (h0 | h | h | ⟨i, h⟩)
  · exact hx h0
  · exact hx (h ▸ hd)
  · exact hx (h ▸ hj)
  · simp [hp i, ProducerPc.holds] at h

/-- Values come only from calls, and yet a pushed value can vanish. Three producers
and the consumer: producer 0 sees the consumer waiting and stalls before its CAS on
`jostling_value`; producer 1 hands 2 over; the consumer's next `pop_wait` stores
`bit_occupy` to `jostling_value` and loses its CAS to producer 2's push of 3, which
it then pops. Producer 0 now CASes 1 into `jostling_value` and finds the wait bit
clear (`op_done = false`), and the next `pop_wait` overwrites the 1. No run from
there returns 1 unless 1 is pushed again. -/
theorem spu_channel_push_lost :
    (∀ (ι : Type) [DecidableEq ι] (s t : State ι) (as : List Label) (x : UInt32),
      Run Step s as t → .get x ∈ as → Held s x ∨ .call x false ∈ as ∨ ∃ v, .call v true ∈ as) ∧
    ∃ (as : List Label) (s : State (Fin 3)), Run Step State.init as s ∧
      .call 1 false ∈ as ∧ .done false ∈ as ∧ .get 1 ∉ as ∧
      ∀ bs u, Run Step s bs u → .get 1 ∈ bs → .call 1 false ∈ bs ∨ ∃ v, .call v true ∈ bs := by
  refine ⟨fun ι _ s t as x h hx => run_get_held h hx, ?_⟩
  -- the run, step by step as above; producers are 0, 1 and 2
  have hrun : Run Step (State.init : State (Fin 3)) _ _ :=
    .cons (Step.popWaitCall rfl) <|
    .cons (Step.popWaitMark rfl rfl) <|
    .cons (Step.popWaitCas rfl rfl) <|
    .cons (Step.pushCall 0 1 false rfl) <|
    .cons (Step.pushLoad (i := 0) rfl) <|
    .cons (Step.pushOccupied (i := 0) rfl rfl) <|
    .cons (Step.pushCall 1 2 false rfl) <|
    .cons (Step.pushLoad (i := 1) rfl) <|
    .cons (Step.pushOccupied (i := 1) rfl rfl) <|
    .cons (Step.pushJostle (i := 1) rfl rfl) <|
    .cons (Step.pushReset (i := 1) rfl) <|
    .cons (Step.popWaitPoll false rfl) <|
    .cons (Step.popWaitTake rfl) <|
    .cons (Step.popWaitCall rfl) <|
    .cons (Step.popWaitMark rfl rfl) <|
    .cons (Step.pushCall 2 3 false rfl) <|
    .cons (Step.pushLoad (i := 2) rfl) <|
    .cons (Step.pushStore (i := 2) rfl rfl rfl) <|
    .cons (Step.popWaitCasRetry rfl (by decide)) <|
    .cons (Step.popWaitPop rfl rfl rfl) <|
    .cons (Step.pushJostle (i := 0) rfl rfl) <|
    .cons (Step.pushReset (i := 0) rfl) <|
    .cons (Step.popWaitCall rfl) <|
    .cons (Step.popWaitMark rfl rfl) <|
    .cons (Step.popWaitCas rfl rfl) <| .refl _
  refine ⟨_, _, hrun, by decide, by decide, by decide, fun bs u h h1 => ?_⟩
  -- nothing at the end of the run holds 1
  rcases run_get_held h h1 with hh | hc
  · exact absurd hh (not_held_of_idle rfl rfl (by decide) (by decide))
  · exact hc

end Rpcs3.Cell.SpuChannel
