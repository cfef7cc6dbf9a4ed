import Rpcs3.Lib.Transition
import Mathlib

/-! `idm` and `id_manager` (Emu/IdManager.h, IdManager.cpp). An `id_map` keeps, for
each of its `id_count` slots, the object (`vec_data`) and the key it was created
under (`vec_keys`: the id and the type, the type `umax` while the slot is free),
and `highest_index`, below which slots have been handed out. An id is
`base + i * step` for slot `i`, with an invalidation counter in the bits of
`id_invl_range` that `allocate_id` bumps each time it reuses the slot, so that a
stale id is not found again until the counter wraps.

`create_id` resets the key of a slot whose provider failed to `id_key{}`, which
drops the slot's counter: the next allocation of the slot starts the counter again
from one, and hands out an id that a removed object had
(`idm_reuses_removed_id`). -/
namespace Rpcs3.Emu.IdManager

open Transition

/-- `u32{umax}`. -/
def umax : ℕ := 4294967295

/-- Arithmetic on `u32`. -/
def u32 (x : ℕ) : ℕ := x % 4294967296

/-- `a << s` on `u32`, with the shift count taken mod 32 as the hardware does. -/
def shl (a s : ℕ) : ℕ := u32 (a * 2 ^ (s % 32))

/-- `id_traits<Type>` of a type stored in an `id_map<T>`, with the static assertions
of `id_traits`. -/
structure IdTraits where
  /-- `id_base`: the first id. -/
  base : ℕ
  /-- `id_step`. -/
  step : ℕ
  /-- `id_count`: the number of slots. -/
  count : ℕ
  /-- `id_invl_range`: the first bit and the width of the invalidation counter. -/
  invlRange : ℕ × ℕ
  /-- `id_lowest`. -/
  usesLowestId : Bool
  /-- `get_type<Type>()`: `id_type`, or `id_base`. -/
  type : ℕ
  /-- `std::is_same_v<T, Type>`: no key type to compare in `find_index`. -/
  isMapType : Bool
  base_le : base ≤ umax
  count_pos : 0 < count
  step_pos : 0 < step
  range_ok : step * (count - 1) + base < umax + (if base ≠ 0 then 1 else 0)
  invl_ok : invlRange.2 = 0 ∨ invlRange.2 + invlRange.1 ≤ 32

/-- `id_traits<T>::invalid = -+!base`, which also asks `create_id` for a new id. -/
def IdTraits.invalid (tr : IdTraits) : ℕ := if tr.base ≠ 0 then 0 else umax

/-- The invalidation bits: `((1u << invl_range.second) - 1) << invl_range.first`. -/
def invlMask (invlRange : ℕ × ℕ) : ℕ := shl (shl 1 invlRange.2 - 1) invlRange.1

/-- `id_manager::get_index`: `count` for an id off the grid. -/
def getIndex (id base step count : ℕ) (invlRange : ℕ × ℕ) : ℕ :=
  let maskOut := invlMask invlRange
  let diff := u32 ((id &&& (umax ^^^ maskOut)) + 4294967296 - base)
  if diff % step ≠ 0 then count else diff / step

/-- `id_manager::id_key`. -/
structure IdKey where
  value : ℕ
  type : ℕ
  deriving DecidableEq, Repr

/-- `id_key{}`. -/
def IdKey.empty : IdKey := ⟨0, umax⟩

/-- `id_key::clear`: the slot is free, the id stays for the invalidation counter. -/
def IdKey.clear (k : IdKey) : IdKey := { k with type := umax }

/-- The id `allocate_id`'s scan gives a free slot: `next` with the slot's counter
bumped, `next | ((value + (1u << first)) & mask)`. -/
def bumpId (next value : ℕ) (invlRange : ℕ × ℕ) : ℕ :=
  next ||| (u32 (value + shl 1 invlRange.1) &&&
    (if invlRange.2 ≠ 0 then invlMask invlRange else 0))

/-- The loop of `allocate_id` over the slots from `i` on, with `next` the id of slot
`i` and `n` slots left: the first free slot and its new id. -/
def allocScan (keys : ℕ → IdKey) (step : ℕ) (invlRange : ℕ × ℕ) :
    ℕ → ℕ → ℕ → Option (ℕ × ℕ)
  | 0, _, _ => none
  | n + 1, i, next =>
    if (keys i).type = umax then some (i, bumpId next (keys i).value invlRange)
    else allocScan keys step invlRange n (i + 1) (u32 (next + step))

/-- What `allocate_id` leaves: the keys, `highest_index`, and the slot of the key it
filled (`nullptr` for none). -/
structure Allocation where
  keys : ℕ → IdKey
  highestIndex : ℕ
  slot : Option ℕ

/-- The end of `allocate_id`: the first free slot, with its counter bumped, or `nullptr`. -/
def scanAllocation (keys : ℕ → IdKey) (highest typeId base step count : ℕ)
    (invlRange : ℕ × ℕ) : Allocation :=
  match allocScan keys step invlRange count 0 base with
  | some (i, id) => ⟨Function.update keys i ⟨id, typeId⟩, highest, some i⟩
  | none => ⟨keys, highest, none⟩

/-- `idm::allocate_id`; none where its `ensure` fails. -/
def allocateId (keys : ℕ → IdKey) (highestIndex typeId dstId base step count : ℕ)
    (usesLowestId : Bool) (invlRange : ℕ × ℕ) : Option Allocation :=
  if dstId ≠ (if base ≠ 0 then 0 else umax) then
    -- fixed position construction
    let index := getIndex dstId base step count invlRange
    if index < count then
      let highest := max highestIndex (index + 1)
      if (keys index).type ≠ umax then some ⟨keys, highest, none⟩
      else some ⟨Function.update keys index ⟨dstId, typeId⟩, highest, some index⟩
    else none
  else
    let highest := if usesLowestId then count else highestIndex
    if !usesLowestId ∧ highest < count then
      -- emplace back
      some ⟨Function.update keys highest ⟨u32 (base + step * highest), typeId⟩, highest + 1,
        some highest⟩
    else some (scanAllocation keys highest typeId base step count invlRange)

/-- `id_manager::id_map<T>`: the objects, the keys and `highest_index`. -/
structure IdMap (α : Type) where
  vecData : ℕ → Option α
  vecKeys : ℕ → IdKey
  highestIndex : ℕ

variable {α : Type}

def IdMap.empty : IdMap α := ⟨fun _ => none, fun _ => IdKey.empty, 0⟩

/-- `allocate_id` on the map with the type's traits. -/
def IdMap.allocate (tr : IdTraits) (m : IdMap α) (id : ℕ) : Option Allocation :=
  allocateId m.vecKeys m.highestIndex tr.type id tr.base tr.step tr.count tr.usesLowestId
    tr.invlRange

/-- `idm::create_id` with what `provider()` returns: the map, and `last_id()` when an
object was stored. None where an `ensure` fails. -/
def createId (tr : IdTraits) (m : IdMap α) (object : Option α) (id : ℕ) :
    Option (IdMap α × Option ℕ) := do
  let a ← m.allocate tr id
  let m' : IdMap α := { m with vecKeys := a.keys, highestIndex := a.highestIndex }
  match a.slot, object with
  | none, _ => pure (m', none)
  | some i, some obj =>
    pure ({ m' with vecData := Function.update m.vecData i (some obj) }, some (a.keys i).value)
  -- the provider failed: `*key_ptr = {}`
  | some i, none => pure ({ m' with vecKeys := Function.update a.keys i IdKey.empty }, none)

/-- `idm::import` (and `make`, whose provider always returns the object): the new id,
or `invalid`. -/
def importId (tr : IdTraits) (m : IdMap α) (object : Option α) (id : ℕ) :
    Option (IdMap α × ℕ) :=
  (createId tr m object id).map fun r => (r.1, r.2.getD tr.invalid)

/-- `idm::make`. -/
def make (tr : IdTraits) (m : IdMap α) (object : α) : Option (IdMap α × ℕ) :=
  importId tr m (some object) tr.invalid

/-- `idm::find_index`: the slot, if it holds an object under that id. -/
def findIndex (tr : IdTraits) (m : IdMap α) (index id : ℕ) : Option ℕ :=
  if index ≥ m.highestIndex then none
  else if (m.vecData index).isSome ∧ (tr.isMapType ∨ (m.vecKeys index).type = tr.type) ∧
      (tr.invlRange.2 = 0 ∨ (m.vecKeys index).value = id) then some index
  else none

/-- `idm::find_id`. -/
def findId (tr : IdTraits) (m : IdMap α) (id : ℕ) : Option ℕ :=
  findIndex tr m (getIndex id tr.base tr.step tr.count tr.invlRange) id

/-- `idm::check` and `idm::get`: the object found under `id`. -/
def check (tr : IdTraits) (m : IdMap α) (id : ℕ) : Option α :=
  let index := getIndex id tr.base tr.step tr.count tr.invlRange
  if index ≥ tr.count then none else (findIndex tr m index id).bind m.vecData

/-- Slot `i` gives up its object: `exchange(null_ptr)` and `clear()` of its key. -/
def IdMap.release (m : IdMap α) (i : ℕ) : IdMap α :=
  { m with vecData := Function.update m.vecData i none,
           vecKeys := Function.update m.vecKeys i (m.vecKeys i).clear }

/-- `idm::withdraw`: the object removed under `id`. -/
def withdraw (tr : IdTraits) (m : IdMap α) (id : ℕ) : IdMap α × Option α :=
  match findId tr m id with
  | some i => (m.release i, m.vecData i)
  | none => (m, none)

/-- `idm::remove`. -/
def remove (tr : IdTraits) (m : IdMap α) (id : ℕ) : IdMap α × Bool :=
  match findId tr m id with
  | some i => (m.release i, true)
  | none => (m, false)

/-- `idm::remove_verify`: `remove` if the object is the one given. -/
def removeVerify [DecidableEq α] (tr : IdTraits) (m : IdMap α) (id : ℕ) (object : α) :
    IdMap α × Bool :=
  match findId tr m id with
  | some i => if m.vecData i = some object then (m.release i, true) else (m, false)
  | none => (m, false)

/-- `idm::clear`. -/
def clear (m : IdMap α) : IdMap α :=
  { m with vecData := fun _ => none, vecKeys := fun i => (m.vecKeys i).clear }

/-! ### The scan of `allocate_id` -/

section Scan

variable {keys keys' : ℕ → IdKey} {step : ℕ} {invlRange : ℕ × ℕ}

/-- The scan stops at the first free slot from `i` on. -/
theorem allocScan_some : ∀ {n i next j id : ℕ},
    allocScan keys step invlRange n i next = some (j, id) →
      i ≤ j ∧ j < i + n ∧ (keys j).type = umax ∧ ∀ k, i ≤ k → k < j → (keys k).type ≠ umax
  | 0, _, _, _, _, h => by simp [allocScan] at h
  | n + 1, i, next, j, id, h => by
    unfold allocScan at h
    split at h
    · -- slot `i` is free
      obtain ⟨rfl, -⟩ := Prod.mk.inj (Option.some.inj h)
      exact ⟨le_rfl, by omega, ‹_›, fun k hk hkj => absurd hkj (by omega)⟩
    · obtain ⟨hij, hjn, hfree, hused⟩ := allocScan_some h
      refine ⟨by omega, by omega, hfree, fun k hk hkj => ?_⟩
      rcases Nat.eq_or_lt_of_le hk with rfl | hk'
      · assumption
      · exact hused k hk' hkj

/-- The scan fails when every slot it visits is in use. -/
theorem allocScan_none : ∀ {n i next : ℕ}, allocScan keys step invlRange n i next = none →
    ∀ k, i ≤ k → k < i + n → (keys k).type ≠ umax
  | 0, _, _, _, k, hk, hkn => absurd hkn (by omega)
  | n + 1, i, next, h, k, hk, hkn => by
    unfold allocScan at h
    split at h
    · cases h
    · rcases Nat.eq_or_lt_of_le hk with rfl | hk'
      · assumption
      · exact allocScan_none h k hk' (by omega)

/-- Keys with the same types: the scan picks the same slot, and its id differs only by
the counter read from the slot's key. -/
theorem allocScan_of_types (h : ∀ k, (keys k).type = (keys' k).type) : ∀ {n i next : ℕ},
    (allocScan keys step invlRange n i next = none ∧
      allocScan keys' step invlRange n i next = none) ∨
    ∃ j nx, allocScan keys step invlRange n i next = some (j, bumpId nx (keys j).value invlRange) ∧
      allocScan keys' step invlRange n i next = some (j, bumpId nx (keys' j).value invlRange)
  | 0, _, _ => .inl ⟨rfl, rfl⟩
  | n + 1, i, next => by
    unfold allocScan
    rw [← h i]
    split
    · exact .inr ⟨i, next, rfl, rfl⟩
    · exact allocScan_of_types h

end Scan

/-! ### `allocate_id` -/

section Allocate

variable {keys : ℕ → IdKey} {highestIndex typeId dstId base step count : ℕ}
  {usesLowestId : Bool} {invlRange : ℕ × ℕ}

/-- A fixed id off the slots fails the `ensure`. -/
theorem allocateId_fixed_out (hd : dstId ≠ (if base ≠ 0 then 0 else umax))
    (h : count ≤ getIndex dstId base step count invlRange) :
    allocateId keys highestIndex typeId dstId base step count usesLowestId invlRange = none := by
  unfold allocateId
  simp only [hd, ne_eq, not_false_eq_true, ↓reduceIte]
  rw [if_neg (by omega)]

/-- A fixed id gets its own slot exactly when the slot is free, and fails otherwise. -/
theorem allocateId_fixed (hd : dstId ≠ (if base ≠ 0 then 0 else umax))
    (h : getIndex dstId base step count invlRange < count) :
    ∃ a, allocateId keys highestIndex typeId dstId base step count usesLowestId invlRange = some a ∧
      (a.slot = none ∨ a.slot = some (getIndex dstId base step count invlRange)) ∧
      (a.slot = none ↔ (keys (getIndex dstId base step count invlRange)).type ≠ umax) := by
  unfold allocateId
  simp only [hd, ne_eq, not_false_eq_true, ↓reduceIte, h]
  split
  · rename_i hused
    exact ⟨_, rfl, .inl rfl, iff_of_true rfl hused⟩
  · rename_i hfree
    exact ⟨_, rfl, .inr rfl, iff_of_false (by simp) hfree⟩

/-- The scan takes the lowest free slot, and fails only when every slot is in use. -/
theorem scanAllocation_slot (highest : ℕ) :
    let a := scanAllocation keys highest typeId base step count invlRange
    (a.slot = none ↔ ∀ i < count, (keys i).type ≠ umax) ∧
      ∀ j, a.slot = some j → j < count ∧ (keys j).type = umax ∧ ∀ k < j, (keys k).type ≠ umax := by
  unfold scanAllocation
  rcases hs : allocScan keys step invlRange count 0 base with _ | ⟨j, id⟩
  · have hused := allocScan_none hs
    refine ⟨?_, ?_⟩
    · simpa using fun i hi => hused i (Nat.zero_le i) (by omega)
    · rintro j ⟨⟩
  · obtain ⟨-, hj, hfree, hused⟩ := allocScan_some hs
    refine ⟨?_, ?_⟩
    · simpa using ⟨j, by omega, hfree⟩
    · rintro j' ⟨⟩
      exact ⟨by omega, hfree, fun k hk => hused k (Nat.zero_le k) hk⟩

/-- The automatic id: with the slots from `highest_index` on free, it fails only when
every slot is in use, it takes a free slot, and for `id_lowest` the lowest one. -/
theorem allocateId_auto (hd : dstId = (if base ≠ 0 then 0 else umax))
    (habove : ∀ i, highestIndex ≤ i → (keys i).type = umax) :
    ∃ a, allocateId keys highestIndex typeId dstId base step count usesLowestId invlRange = some a ∧
      (a.slot = none ↔ ∀ i < count, (keys i).type ≠ umax) ∧
      (∀ j, a.slot = some j → j < count ∧ (keys j).type = umax) ∧
      (usesLowestId = true → ∀ j, a.slot = some j → ∀ k < j, (keys k).type ≠ umax) := by
  unfold allocateId
  simp only [hd, ne_eq, not_true_eq_false, ↓reduceIte]
  cases hlow : usesLowestId
  · simp only [Bool.false_eq_true, ↓reduceIte, Bool.not_false, true_and]
    split
    · -- emplace back at `highest_index`
      rename_i hlt
      refine ⟨_, rfl, ?_, ?_, by simp⟩
      · simpa using ⟨highestIndex, hlt, habove _ le_rfl⟩
      · rintro j ⟨⟩
        exact ⟨hlt, habove _ le_rfl⟩
    · obtain ⟨hnone, hsome⟩ := @scanAllocation_slot keys typeId base step count invlRange
        highestIndex
      exact ⟨_, rfl, hnone, fun j hj => (hsome j hj).imp_right And.left, by simp⟩
  · simp only [↓reduceIte, Bool.not_true, Bool.false_eq_true, false_and]
    obtain ⟨hnone, hsome⟩ := @scanAllocation_slot keys typeId base step count invlRange count
    exact ⟨_, rfl, hnone, fun j hj => (hsome j hj).imp_right And.left,
      fun _ j hj => (hsome j hj).2.2⟩

/-- The scan changes only the key of the slot it takes, and gives it the type. -/
theorem scanAllocation_frame (highest : ℕ) :
    let a := scanAllocation keys highest typeId base step count invlRange
    a.highestIndex = highest ∧ (∀ j, a.slot = some j → (a.keys j).type = typeId) ∧
      ∀ k, a.slot ≠ some k → a.keys k = keys k := by
  unfold scanAllocation
  rcases allocScan keys step invlRange count 0 base with _ | ⟨j, id⟩
  · exact ⟨rfl, by simp, fun _ _ => rfl⟩
  · refine ⟨rfl, ?_, fun k hk => ?_⟩
    · rintro j' ⟨⟩
      simp
    · exact Function.update_of_ne (fun h => hk (congrArg some h.symm)) _ _

/-- What an allocation changes: `highest_index` grows, to at most `count` and past the
slot it fills, and only the key of that slot, which was free and gets the type. -/
theorem allocateId_frame {a : Allocation} (hhi : highestIndex ≤ count)
    (habove : ∀ i, highestIndex ≤ i → (keys i).type = umax)
    (h : allocateId keys highestIndex typeId dstId base step count usesLowestId invlRange = some a) :
    highestIndex ≤ a.highestIndex ∧ a.highestIndex ≤ count ∧
      (∀ j, a.slot = some j → j < a.highestIndex ∧ (keys j).type = umax ∧ (a.keys j).type = typeId) ∧
      ∀ k, a.slot ≠ some k → a.keys k = keys k := by
  unfold allocateId at h
  by_cases hd : dstId ≠ (if base ≠ 0 then 0 else umax)
  · -- fixed position
    rw [if_pos hd] at h
    dsimp only at h
    by_cases hlt : getIndex dstId base step count invlRange < count
    · rw [if_pos hlt] at h
      by_cases hused : (keys (getIndex dstId base step count invlRange)).type ≠ umax
      · rw [if_pos hused] at h
        cases h
        exact ⟨le_max_left _ _, max_le hhi hlt, by simp, fun _ _ => rfl⟩
      · rw [if_neg hused] at h
        cases h
        refine ⟨le_max_left _ _, max_le hhi hlt, ?_, fun k hk => ?_⟩
        · rintro j ⟨⟩
          exact ⟨lt_max_of_lt_right (Nat.lt_succ_self _), not_not.mp hused, by simp⟩
        · exact Function.update_of_ne (fun h => hk (congrArg some h.symm)) _ _
    · rw [if_neg hlt] at h
      cases h
  · rw [if_neg hd] at h
    dsimp only at h
    cases hlow : usesLowestId
    · simp only [hlow, Bool.false_eq_true, ↓reduceIte, Bool.not_false, true_and] at h
      by_cases hlt : highestIndex < count
      · -- emplace back
        rw [if_pos hlt] at h
        cases h
        refine ⟨Nat.le_succ _, hlt, ?_, fun k hk => ?_⟩
        · rintro j ⟨⟩
          exact ⟨Nat.lt_succ_self _, habove _ le_rfl, by simp⟩
        · exact Function.update_of_ne (fun h => hk (congrArg some h.symm)) _ _
      · rw [if_neg hlt] at h
        cases h
        obtain ⟨hh, htype, hkeep⟩ := @scanAllocation_frame keys typeId base step count invlRange
          highestIndex
        obtain ⟨-, hsome⟩ := @scanAllocation_slot keys typeId base step count invlRange
          highestIndex
        refine ⟨hh.ge, hh.le.trans hhi, fun j hj => ⟨?_, (hsome j hj).2.1, htype j hj⟩, hkeep⟩
        rw [hh]
        exact lt_of_lt_of_le (hsome j hj).1 (not_lt.mp hlt)
    · simp only [hlow, ↓reduceIte, Bool.not_true, Bool.false_eq_true, false_and] at h
      cases h
      obtain ⟨hh, htype, hkeep⟩ := @scanAllocation_frame keys typeId base step count invlRange count
      obtain ⟨-, hsome⟩ := @scanAllocation_slot keys typeId base step count invlRange count
      refine ⟨hh.symm ▸ hhi, hh.le, fun j hj => ⟨?_, (hsome j hj).2.1, htype j hj⟩, hkeep⟩
      rw [hh]
      exact (hsome j hj).1

end Allocate

/-! ### The calls on one map -/

/-- The calls on one `id_map`, with one type's traits. -/
inductive Call (α : Type) where
  | make (object : α)
  /-- `import` with what its provider returns. -/
  | importId (object : Option α) (id : ℕ)
  | check (id : ℕ)
  | remove (id : ℕ)
  | removeVerify (id : ℕ) (object : α)
  | withdraw (id : ℕ)
  | clear
  deriving DecidableEq, Repr

/-- What a call returns. -/
inductive Reply (α : Type) where
  | id (id : ℕ)
  | found (object : Option α)
  | removed (ok : Bool)
  | done
  deriving DecidableEq, Repr

variable [DecidableEq α]

/-- One call; none where an `ensure` fails. -/
def exec (tr : IdTraits) (m : IdMap α) : Call α → Option (IdMap α × Reply α)
  | .make object => (make tr m object).map fun r => (r.1, .id r.2)
  | .importId object id => (importId tr m object id).map fun r => (r.1, .id r.2)
  | .check id => some (m, .found (check tr m id))
  | .remove id => some ((remove tr m id).1, .removed (remove tr m id).2)
  | .removeVerify id object =>
    some ((removeVerify tr m id object).1, .removed (removeVerify tr m id object).2)
  | .withdraw id => some ((withdraw tr m id).1, .found (withdraw tr m id).2)
  | .clear => some (clear m, .done)

/-- The replies to calls made one after another. -/
def execAll (tr : IdTraits) : IdMap α → List (Call α) → Option (List (Reply α))
  | _, [] => some []
  | m, c :: cs => do
    let (m', r) ← exec tr m c
    let rs ← execAll tr m' cs
    pure (r :: rs)

/-- A call that returns: the system's step, labelled by the call. -/
def Step (tr : IdTraits) (m : IdMap α) (c : Call α) (m' : IdMap α) : Prop :=
  ∃ r, exec tr m c = some (m', r)

/-! ### The map's invariant -/

/-- The map as `idm` keeps it for one type: `highest_index` within the slots, the slots
from it on never handed out, and a slot holding an object exactly when its key is in
use. -/
structure Inv (tr : IdTraits) (m : IdMap α) : Prop where
  highest_le : m.highestIndex ≤ tr.count
  above : ∀ i, m.highestIndex ≤ i → m.vecKeys i = IdKey.empty ∧ m.vecData i = none
  live : ∀ i, (m.vecData i).isSome ↔ (m.vecKeys i).type ≠ umax

section Invariant

variable {tr : IdTraits} {m m' : IdMap α}

omit [DecidableEq α] in
theorem inv_empty : Inv tr (IdMap.empty : IdMap α) where
  highest_le := Nat.zero_le _
  above _ _ := ⟨rfl, rfl⟩
  live _ := by simp [IdMap.empty, IdKey.empty]

omit [DecidableEq α] in
theorem Inv.free_above (hinv : Inv tr m) (i : ℕ) (hi : m.highestIndex ≤ i) :
    (m.vecKeys i).type = umax := by
  rw [(hinv.above i hi).1]
  rfl

omit [DecidableEq α] in
/-- A create keeps the invariant, for a type whose id is not `umax`. -/
theorem inv_createId (htype : tr.type ≠ umax) (hinv : Inv tr m) {object : Option α} {id : ℕ}
    {r : Option ℕ} (h : createId tr m object id = some (m', r)) : Inv tr m' := by
  unfold createId at h
  obtain ⟨a, ha, h⟩ := Option.bind_eq_some_iff.mp h
  obtain ⟨hle, hcount, hslot, hkeep⟩ :=
    allocateId_frame hinv.highest_le hinv.free_above ha
  -- the slots from the new `highest_index` on are untouched
  have habove : ∀ i, a.highestIndex ≤ i → a.keys i = IdKey.empty ∧ m.vecData i = none := by
    intro i hi
    have hne : a.slot ≠ some i := fun hs => absurd (hslot i hs).1 (not_lt.mpr hi)
    rw [hkeep i hne]
    exact hinv.above i (hle.trans hi)
  rcases hs : a.slot with _ | j <;> rw [hs] at h
  · cases h
    refine ⟨hcount, habove, fun i => ?_⟩
    dsimp only
    rw [hkeep i (by simp [hs])]
    exact hinv.live i
  · obtain ⟨hj, hfree, htj⟩ := hslot j hs
    cases object with
    | some obj =>
      cases h
      refine ⟨hcount, fun i hi => ?_, fun i => ?_⟩
      · dsimp only at hi ⊢
        rw [Function.update_of_ne (by omega)]
        exact habove i hi
      · dsimp only
        by_cases hij : i = j
        · subst hij
          simp [htj, htype]
        · rw [Function.update_of_ne hij, hkeep i (by simpa [hs] using Ne.symm hij)]
          exact hinv.live i
    | none =>
      cases h
      refine ⟨hcount, fun i hi => ?_, fun i => ?_⟩
      · dsimp only at hi ⊢
        rw [Function.update_of_ne (by omega)]
        exact habove i hi
      · dsimp only
        by_cases hij : i = j
        · -- the provider failed: the slot stays free
          subst hij
          have hnone : m.vecData i = none := by
            simpa [hfree] using hinv.live i
          simp [hnone, IdKey.empty]
        · rw [Function.update_of_ne hij, hkeep i (by simpa [hs] using Ne.symm hij)]
          exact hinv.live i

omit [DecidableEq α] in
theorem findIndex_some {index id i : ℕ} (h : findIndex tr m index id = some i) :
    i = index ∧ i < m.highestIndex ∧ (m.vecData i).isSome ∧
      (tr.isMapType ∨ (m.vecKeys i).type = tr.type) ∧
      (tr.invlRange.2 = 0 ∨ (m.vecKeys i).value = id) := by
  unfold findIndex at h
  split at h
  · cases h
  · split at h
    · cases h
      rename_i hhi hfound
      exact ⟨rfl, not_le.mp hhi, hfound⟩
    · cases h

omit [DecidableEq α] in
/-- Giving up a slot that was handed out keeps the invariant. -/
theorem inv_release (hinv : Inv tr m) {i : ℕ} (hi : i < m.highestIndex) :
    Inv tr (m.release i) where
  highest_le := hinv.highest_le
  above j hj := by
    have hj' : m.highestIndex ≤ j := hj
    have hne : j ≠ i := by omega
    simpa [IdMap.release, Function.update_of_ne hne] using hinv.above j hj'
  live j := by
    by_cases hji : j = i
    · subst hji
      simp [IdMap.release, IdKey.clear]
    · simpa [IdMap.release, Function.update_of_ne hji] using hinv.live j

omit [DecidableEq α] in
theorem inv_clear (hinv : Inv tr m) : Inv tr (clear m) where
  highest_le := hinv.highest_le
  above i hi := ⟨by simp [clear, (hinv.above i hi).1, IdKey.clear, IdKey.empty], rfl⟩
  live i := by simp [clear, IdKey.clear]

/-- Every call keeps the invariant. -/
theorem inv_step (htype : tr.type ≠ umax) : Preserved (Step tr) (Inv tr : IdMap α → Prop) := by
  rintro m c m' hinv ⟨r, h⟩
  cases c with
  | make object =>
    obtain ⟨⟨m₁, x⟩, hc, he⟩ := Option.map_eq_some_iff.mp h
    obtain ⟨⟨m₂, y⟩, hc', he'⟩ := Option.map_eq_some_iff.mp hc
    cases he; cases he'
    exact inv_createId htype hinv hc'
  | importId object id =>
    obtain ⟨⟨m₁, x⟩, hc, he⟩ := Option.map_eq_some_iff.mp h
    obtain ⟨⟨m₂, y⟩, hc', he'⟩ := Option.map_eq_some_iff.mp hc
    cases he; cases he'
    exact inv_createId htype hinv hc'
  | check id =>
    cases h
    exact hinv
  | remove id =>
    cases h
    unfold remove
    rcases hf : findId tr m id with _ | i
    · exact hinv
    · exact inv_release hinv (findIndex_some hf).2.1
  | removeVerify id object =>
    cases h
    unfold removeVerify
    rcases hf : findId tr m id with _ | i
    · exact hinv
    · dsimp only
      split
      · exact inv_release hinv (findIndex_some hf).2.1
      · exact hinv
  | withdraw id =>
    cases h
    unfold withdraw
    rcases hf : findId tr m id with _ | i
    · exact hinv
    · exact inv_release hinv (findIndex_some hf).2.1
  | clear =>
    cases h
    exact inv_clear hinv

theorem Inv.of_reachable (htype : tr.type ≠ umax)
    (h : Reachable (· = IdMap.empty) (Step tr) m) : Inv tr m :=
  h.invariant (fun _ h => h ▸ inv_empty) (inv_step htype)

omit [DecidableEq α] in
/-- What `check` finds under an id is the object of the id's slot, handed out, and for
a type with an invalidation range stored under exactly that id. -/
theorem check_some {id : ℕ} {x : α} (h : check tr m id = some x) :
    ∃ i, getIndex id tr.base tr.step tr.count tr.invlRange = i ∧ i < m.highestIndex ∧
      m.vecData i = some x ∧ (tr.invlRange.2 ≠ 0 → (m.vecKeys i).value = id) := by
  unfold check at h
  dsimp only at h
  split at h
  · cases h
  · obtain ⟨i, hfind, hx⟩ := Option.bind_eq_some_iff.mp h
    obtain ⟨rfl, hi, -, -, hval⟩ := findIndex_some hfind
    exact ⟨_, rfl, hi, hx, fun hne => hval.resolve_left hne⟩

omit [DecidableEq α] in
/-- An automatic create: it fails only when every slot is in use, and otherwise stores
the object in a free slot, the lowest for `id_lowest`, under the id it returns. -/
theorem createId_auto (hinv : Inv tr m) (object : α) :
    ∃ m' r, createId tr m (some object) tr.invalid = some (m', r) ∧
      (r = none ↔ ∀ i < tr.count, (m.vecKeys i).type ≠ umax) ∧
      ∀ id, r = some id → ∃ j < tr.count, (m.vecKeys j).type = umax ∧
        m'.vecData j = some object ∧ (m'.vecKeys j).value = id ∧
        (tr.usesLowestId = true → ∀ k < j, (m.vecKeys k).type ≠ umax) := by
  obtain ⟨a, ha, hnone, hsome, hlow⟩ := @allocateId_auto m.vecKeys m.highestIndex tr.type
    tr.invalid tr.base tr.step tr.count tr.usesLowestId tr.invlRange rfl hinv.free_above
  have ha' : m.allocate tr tr.invalid = some a := ha
  rcases hs : a.slot with _ | j
  · refine ⟨_, _, by simp only [createId, ha', hs, Option.bind_eq_bind, Option.bind_some,
      Option.pure_def]; rfl, by simpa [hs] using hnone, by simp⟩
  · obtain ⟨hj, hfree⟩ := hsome j hs
    refine ⟨_, _, by simp only [createId, ha', hs, Option.bind_eq_bind, Option.bind_some,
      Option.pure_def]; rfl, ?_, ?_⟩
    · simpa [hs] using hnone
    · rintro id ⟨⟩
      exact ⟨j, hj, hfree, by simp, rfl, fun hl => hlow hl j hs⟩

omit [DecidableEq α] in
/-- A create under a fixed id: off the slots the `ensure` fails; otherwise it stores
the object under that id exactly when the id's slot is free. -/
theorem createId_fixed (object : α) {id : ℕ} (hd : id ≠ tr.invalid) :
    (tr.count ≤ getIndex id tr.base tr.step tr.count tr.invlRange →
      createId tr m (some object) id = none) ∧
    (getIndex id tr.base tr.step tr.count tr.invlRange < tr.count →
      ∃ m' r, createId tr m (some object) id = some (m', r) ∧ (r = none ∨ r = some id) ∧
        (r = some id ↔ (m.vecKeys (getIndex id tr.base tr.step tr.count tr.invlRange)).type = umax)) := by
  refine ⟨fun hout => ?_, fun hin => ?_⟩
  · have ha : m.allocate tr id = none := allocateId_fixed_out hd hout
    unfold createId
    rw [ha]
    rfl
  · obtain ⟨a, ha, hslot, hnone⟩ := @allocateId_fixed m.vecKeys m.highestIndex
      tr.type id tr.base tr.step tr.count tr.usesLowestId tr.invlRange hd hin
    have ha' : m.allocate tr id = some a := ha
    rcases hslot with hs | hs <;> rw [hs] at hnone
    · exact ⟨_, _, by simp only [createId, ha', hs, Option.bind_eq_bind, Option.bind_some,
        Option.pure_def]; rfl, .inl rfl, by simpa using hnone⟩
    · -- the key stored is the fixed id itself
      have hkey : (a.keys (getIndex id tr.base tr.step tr.count tr.invlRange)).value = id := by
        have hd' : id ≠ (if tr.base ≠ 0 then 0 else umax) := hd
        unfold allocateId at ha
        rw [if_pos hd'] at ha
        dsimp only at ha
        rw [if_pos hin] at ha
        split at ha <;> cases ha
        · cases hs
        · simp
      refine ⟨_, _, by simp only [createId, ha', hs, Option.bind_eq_bind, Option.bind_some,
        Option.pure_def]; rfl, .inr (by rw [hkey]), ?_⟩
      simpa [hkey] using hnone

end Invariant

/-! ### A failed create hands out a removed id again -/

omit [DecidableEq α] in
/-- A create with an automatic id on the scan path whose provider fails resets the key
of the slot it took to `id_key{}`, and so the slot's invalidation counter to zero,
whatever it was: the next automatic id of the slot is the one with counter one. -/
theorem failed_create_forgets_counter {tr : IdTraits} {m : IdMap α}
    (hscan : tr.usesLowestId = true ∨ tr.count ≤ m.highestIndex) {i id : ℕ}
    (hs : allocScan m.vecKeys tr.step tr.invlRange tr.count 0 tr.base = some (i, id)) :
    ∃ m', createId tr m none tr.invalid = some (m', none) ∧
      m'.vecKeys i = IdKey.empty ∧ (∀ j, j ≠ i → m'.vecKeys j = m.vecKeys j) ∧
      ∃ nx, id = bumpId nx (m.vecKeys i).value tr.invlRange ∧
        allocScan m'.vecKeys tr.step tr.invlRange tr.count 0 tr.base =
          some (i, bumpId nx 0 tr.invlRange) := by
  have hfree := (allocScan_some hs).2.2.1
  -- the allocation is the scan's
  have ha : m.allocate tr tr.invalid = some (scanAllocation m.vecKeys
      (if tr.usesLowestId then tr.count else m.highestIndex) tr.type tr.base tr.step tr.count
      tr.invlRange) := by
    unfold IdMap.allocate allocateId
    simp only [IdTraits.invalid, ne_eq, not_true_eq_false, ↓reduceIte]
    rw [if_neg]
    rcases hscan with hl | hc
    · simp [hl]
    · cases tr.usesLowestId <;> simp [hc]
  refine ⟨_, by simp only [createId, ha, scanAllocation, hs, Option.bind_eq_bind, Option.bind_some,
    Option.pure_def]; rfl, by simp, fun j hj => by simp [Function.update_of_ne hj], ?_⟩
  -- the new keys have the old types: the scan stops at slot `i` again
  have htypes : ∀ k, (m.vecKeys k).type =
      (Function.update (Function.update m.vecKeys i ⟨id, tr.type⟩) i IdKey.empty k).type := by
    intro k
    by_cases hk : k = i
    · subst hk
      simp [hfree, IdKey.empty]
    · simp [Function.update_of_ne hk]
  rcases @allocScan_of_types _ _ tr.step tr.invlRange htypes tr.count 0 tr.base with ⟨hn, -⟩ | ⟨j, nx, h₁, h₂⟩
  · rw [hs] at hn
    cases hn
  · rw [hs] at h₁
    obtain ⟨rfl, rfl⟩ := Prod.mk.inj (Option.some.inj h₁)
    exact ⟨nx, rfl, by simpa [IdKey.empty] using h₂⟩

theorem lv2Mutex_base_le : 0x85000000 ≤ umax := by decide

theorem lv2Mutex_range :
    0x100 * (8192 - 1) + 0x85000000 < umax + (if 0x85000000 ≠ 0 then 1 else 0) := by decide

theorem lv2Mutex_invl : (0, 8).2 = 0 ∨ (0, 8).2 + (0, 8).1 ≤ 32 := Or.inr (by decide)

/-- `lv2_mutex` in the `lv2_obj` map (Cell/lv2/sys_mutex.h, sys_sync.h). -/
def lv2Mutex : IdTraits where
  base := 0x85000000
  step := 0x100
  count := 8192
  invlRange := (0, 8)
  usesLowestId := false
  type := 0x85000000
  isMapType := false
  base_le := lv2Mutex_base_le
  count_pos := Nat.succ_pos 8191
  step_pos := Nat.succ_pos 255
  range_ok := lv2Mutex_range
  invl_ok := lv2Mutex_invl

/-- A mutex imported at the last slot puts `highest_index` at `id_count`. Mutex 1,
made next, gets slot 0 with counter 1 (id `0x85000001`) and is removed, and its id
finds nothing. A create whose provider fails takes slot 0 with counter 2 and resets
its key; mutex 2 then gets slot 0 with counter 1 again, and the removed mutex's id
finds it. -/
theorem idm_reuses_removed_id :
    execAll lv2Mutex IdMap.empty
      [.importId (some 0) 0x851FFF00, .make 1, .remove 0x85000001, .check 0x85000001,
        .importId none 0, .make 2, .check 0x85000001] =
      some [.id 0x851FFF00, .id 0x85000001, .removed true, .found none,
        .id 0, .id 0x85000001, .found (some 2)] := by
  decide +kernel

/-- Two mutexes made and the first removed: slot `0` is free again below `highest_index`, and
an automatic create hands out an id, storing the object in a free slot under it. -/
theorem createId_auto_after_remove :
    ∃ m : IdMap ℕ, Reachable (· = IdMap.empty) (Step lv2Mutex) m ∧ m.highestIndex = 2 ∧
      (m.vecKeys 0).type = umax ∧ (m.vecKeys 1).type ≠ umax ∧
      ∃ m' id, createId lv2Mutex m (some 3) lv2Mutex.invalid = some (m', some id) ∧
        ∃ j < lv2Mutex.count, (m.vecKeys j).type = umax ∧ m'.vecData j = some 3 ∧
          (m'.vecKeys j).value = id := by
  have h₀ : Reachable (· = IdMap.empty) (Step lv2Mutex) (IdMap.empty : IdMap ℕ) :=
    Reachable.of_init rfl
  have h₁ := h₀.next (show Step lv2Mutex _ (.make 1) _ from ⟨_, rfl⟩)
  have h₂ := h₁.next (show Step lv2Mutex _ (.make 2) _ from ⟨_, rfl⟩)
  have h₃ := h₂.next (show Step lv2Mutex _ (.remove 0x85000000) _ from ⟨_, rfl⟩)
  obtain ⟨m, hr, hhi, h0, h1⟩ : ∃ m : IdMap ℕ, Reachable (· = IdMap.empty) (Step lv2Mutex) m ∧
      m.highestIndex = 2 ∧ (m.vecKeys 0).type = umax ∧ (m.vecKeys 1).type ≠ umax :=
    ⟨_, h₃, by decide +kernel, by decide +kernel, by decide +kernel⟩
  obtain ⟨m', r, hc, hnone, hsome⟩ := createId_auto (Inv.of_reachable (by decide) hr) 3
  -- slot `0` is free, so not every slot is in use
  obtain ⟨id, rfl⟩ : ∃ id, r = some id :=
    Option.ne_none_iff_exists'.mp fun hn => hnone.mp hn 0 (by decide) h0
  obtain ⟨j, hj, hfree, hdata, hval, -⟩ := hsome id rfl
  exact ⟨m, hr, hhi, h0, h1, m', id, hc, j, hj, hfree, hdata, hval⟩

end Rpcs3.Emu.IdManager
