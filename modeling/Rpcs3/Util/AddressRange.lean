import Mathlib

/-! `address_range` and `address_range_vector` (`Utilities/address_range.h`), for an address
type of `m + 1` values (`u16`, `u32` and `u64` for `m = 2^16 - 1`, `2^32 - 1`, `2^64 - 1`).
Address arithmetic wraps: `next_address` of a range ending at `umax` is `0`, and `touches`
takes such a range to adjoin one that starts at `0`. `merge` then joins the two into one
range from `0` to `umax`, covering every address in between although neither range did
(`merge_wraps`). -/
namespace Rpcs3.Util.AddressRange

/-- `address_range<T>`: the first and the last address. -/
structure Range (m : ℕ) where
  start : Fin (m + 1)
  last : Fin (m + 1)
  deriving DecidableEq

variable {m : ℕ}

namespace Range

/-- The default range `{umax, 0}`, which `invalidate` restores. -/
def empty : Range m := ⟨Fin.last m, 0⟩

def valid (r : Range m) : Prop := r.start ≤ r.last

instance (r : Range m) : Decidable r.valid := inferInstanceAs (Decidable (_ ≤ _))

def nextAddress (r : Range m) : Fin (m + 1) := r.last + 1

def prevAddress (r : Range m) : Fin (m + 1) := r.start - 1

def overlaps (r o : Range m) : Prop := r.start ≤ o.last ∧ o.start ≤ r.last

instance (r o : Range m) : Decidable (r.overlaps o) := inferInstanceAs (Decidable (_ ∧ _))

/-- `overlaps(addr)`. -/
def overlapsAddr (r : Range m) (a : Fin (m + 1)) : Prop := r.start ≤ a ∧ a ≤ r.last

instance (r : Range m) (a : Fin (m + 1)) : Decidable (r.overlapsAddr a) :=
  inferInstanceAs (Decidable (_ ∧ _))

/-- Overlapping, or side by side. -/
def touches (r o : Range m) : Prop :=
  r.overlaps o ∨ o.start = r.nextAddress ∨ o.last = r.prevAddress

instance (r o : Range m) : Decidable (r.touches o) := inferInstanceAs (Decidable (_ ∨ _ ∨ _))

/-- `get_min_max`: the least start and the greatest end of the valid ones of two ranges. -/
def getMinMax (r o : Range m) : Range m :=
  ⟨min (if r.valid then r.start else Fin.last m) (if o.valid then o.start else Fin.last m),
    max (if r.valid then r.last else 0) (if o.valid then o.last else 0)⟩

/-- `static_cast<signed_type_t>`: an address read as the signed type of the same width, for
`m + 1 = 2 ^ w`. -/
def toSigned (x : Fin (m + 1)) : ℤ := if 2 * x.val < m + 1 then x.val else x.val - (m + 1)

/-- `distance(other)`: `0` when the ranges touch, else the gap on the side `other` lies. -/
def distance (r o : Range m) : Fin (m + 1) :=
  if r.touches o then 0
  else if r.last < o.start then o.start - r.last - 1
  else r.start - o.last - 1

/-- `signed_distance(other)`: the gap, cast to the signed type, negated when `other` lies
before. -/
def signedDistance (r o : Range m) : ℤ :=
  if r.touches o then 0
  else if r.last < o.start then toSigned (o.start - r.last - 1)
  else toSigned (-(r.start - o.last - 1))

/-- The addresses strictly between two ranges, in the linear address space. -/
def between (r o : Range m) : ℕ :=
  (Finset.univ.filter fun a : Fin (m + 1) => r.last < a ∧ a < o.start ∨ o.last < a ∧ a < r.start).card

end Range

/-- One turn of the loop of `merge` at index `i`: the vector, the first range found to touch
the new one, and the last invalid slot seen. -/
def mergeStep (new : Range m) (st : List (Range m) × Option ℕ × Option ℕ) (i : ℕ) :
    List (Range m) × Option ℕ × Option ℕ :=
  let (data, found, invalid) := st
  let existing := data.getD i .empty
  if ¬ existing.valid then (data, found, some i)
  else if existing.touches new then
    match found with
    -- a later range touching the new one is merged into the first and invalidated
    | some f => ((data.set f ((data.getD f .empty).getMinMax existing)).set i .empty, found, invalid)
    | none => (data.set i (existing.getMinMax new), some i, invalid)
  else (data, found, invalid)

/-- `address_range_vector::merge(range)`: the new range is merged into every range it
touches, or else takes the last invalid slot, or else goes at the end. -/
def merge (data : List (Range m)) (new : Range m) : List (Range m) :=
  if ¬ new.valid then data
  else
    match (List.range data.length).foldl (mergeStep new) (data, none, none) with
    | (data, some _, _) => data
    | (data, none, some k) => data.set k new
    | (data, none, none) => data ++ [new]

/-- One turn of the loop of `exclude` at index `n`: the vector and the last invalid slot not
yet reused. -/
def excludeStep (exclusion : Range m) (st : List (Range m) × Option ℕ) (n : ℕ) :
    List (Range m) × Option ℕ :=
  let (data, invalid) := st
  let existing := data.getD n .empty
  if ¬ existing.valid then (data, some n)
  else if ¬ existing.overlaps exclusion then (data, invalid)
  else
    let headExcluded := exclusion.overlapsAddr existing.start
    let tailExcluded := exclusion.overlapsAddr existing.last
    if headExcluded ∧ tailExcluded then (data.set n .empty, some n)
    else if headExcluded then (data.set n ⟨exclusion.nextAddress, existing.last⟩, invalid)
    else if tailExcluded then (data.set n ⟨existing.start, exclusion.prevAddress⟩, invalid)
    else
      -- the exclusion sits inside: the head stays here, the tail goes to a free slot
      let data := data.set n ⟨existing.start, exclusion.prevAddress⟩
      match invalid with
      | some k => (data.set k ⟨exclusion.nextAddress, existing.last⟩, none)
      | none => (data ++ [⟨exclusion.nextAddress, existing.last⟩], none)

/-- `address_range_vector::exclude(range)`; the loop runs over the ranges there were before
it. -/
def exclude (data : List (Range m)) (exclusion : Range m) : List (Range m) :=
  if ¬ exclusion.valid then data
  else ((List.range data.length).foldl (excludeStep exclusion) (data, none)).1

/-- The operations of an `address_range_vector`. -/
inductive Op (m : ℕ) where
  | merge (r : Range m)
  | mergeAll (v : List (Range m))
  | exclude (r : Range m)
  | excludeAll (v : List (Range m))

def Op.apply : Op m → List (Range m) → List (Range m)
  | .merge r, data => AddressRange.merge data r
  | .mergeAll v, data => v.foldl AddressRange.merge data
  | .exclude r, data => AddressRange.exclude data r
  | .excludeAll v, data => v.foldl AddressRange.exclude data

/-- The vector after a sequence of operations from empty. -/
def run (ops : List (Op m)) : List (Range m) := ops.foldl (fun data op => op.apply data) []

/-- `check_consistency`: no two valid ranges touch. -/
def Consistent (data : List (Range m)) : Prop :=
  data.Pairwise fun r₁ r₂ => r₁.valid → r₂.valid → ¬ r₁.touches r₂

/-- The addresses the valid ranges cover. -/
def Covers (data : List (Range m)) (a : Fin (m + 1)) : Prop :=
  ∃ r ∈ data, r.valid ∧ r.overlapsAddr a

/-- What a sequence of operations means on sets of addresses: unions and differences with
the valid argument ranges. -/
def Op.denote : Op m → Set (Fin (m + 1)) → Set (Fin (m + 1))
  | .merge r, s => s ∪ {a | r.valid ∧ r.overlapsAddr a}
  | .mergeAll v, s => s ∪ {a | Covers v a}
  | .exclude r, s => s \ {a | r.valid ∧ r.overlapsAddr a}
  | .excludeAll v, s => s \ {a | Covers v a}

def denote (ops : List (Op m)) : Set (Fin (m + 1)) := ops.foldl (fun s op => op.denote s) ∅

/-! ### Distances

Away from the ends of the address space, `distance` is the number of addresses strictly between
two valid ranges, the same both ways, and `signed_distance` is that number with the sign of the
side while it fits the signed type. At the ends, `touches` takes a range that ends at `umax` to
adjoin one that starts at `0`, and a gap of half the space or more wraps the signed result
(`distance_wraps`). -/

namespace Range

variable {r o : Range m}

theorem touches_comm : r.touches o ↔ o.touches r := by
  have h₁ : o.start = r.last + 1 ↔ r.last = o.start - 1 := by rw [eq_sub_iff_add_eq, eq_comm]
  have h₂ : o.last = r.start - 1 ↔ r.start = o.last + 1 := by rw [eq_sub_iff_add_eq, eq_comm]
  simp only [touches, overlaps, nextAddress, prevAddress, h₁, h₂]
  constructor
  · rintro (⟨h, h'⟩ | h | h)
    exacts [.inl ⟨h', h⟩, .inr (.inr h), .inr (.inl h)]
  · rintro (⟨h, h'⟩ | h | h)
    exacts [.inl ⟨h', h⟩, .inr (.inr h), .inr (.inl h)]

theorem between_comm : between r o = between o r := by
  unfold between
  simp only [or_comm]

theorem val_add_one_of_ne_last {a : Fin (m + 1)} (h : a ≠ Fin.last m) : (a + 1).val = a.val + 1 :=
  Fin.val_add_one_of_lt (Fin.lt_last_iff_ne_last.mpr h)

/-- The gap `a - b - 1` of `distance`, where `a` lies past `b + 1`. -/
theorem val_sub_sub_one {a b : Fin (m + 1)} (h : b < a) (hne : a ≠ b + 1) :
    (a - b - 1).val = a.val - b.val - 1 := by
  have hb : (b + 1).val = b.val + 1 := val_add_one_of_ne_last (by
    intro hb
    exact absurd (hb ▸ h) (not_lt.mpr (Fin.le_last a)))
  have hle : b + 1 ≤ a := by
    rw [Fin.le_iff_val_le_val, hb]
    have : a.val ≠ b.val + 1 := fun he => hne (Fin.ext (he.trans hb.symm))
    have : b.val < a.val := h
    omega
  rw [sub_sub, Fin.coe_sub_iff_le.mpr hle, hb]
  omega

/-- `a = b + 1` in the address type is adjacency, unless `b + 1` wraps to `0`. -/
theorem eq_add_one_iff {a b : Fin (m + 1)} (hw : ¬ (b = Fin.last m ∧ a = 0)) :
    a = b + 1 ↔ a.val = b.val + 1 := by
  by_cases hb : b = Fin.last m
  · have ha : a ≠ 0 := fun h => hw ⟨hb, h⟩
    have : a.val ≤ m := Fin.is_le a
    rw [hb, Fin.last_add_one]
    simp only [Fin.val_last, ha, false_iff]
    omega
  · rw [Fin.ext_iff, val_add_one_of_ne_last hb]

/-- Where the ranges do not wrap around the ends, `touches` is overlap or adjacency. -/
theorem touches_iff (hw₁ : ¬ (r.last = Fin.last m ∧ o.start = 0))
    (hw₂ : ¬ (o.last = Fin.last m ∧ r.start = 0)) :
    r.touches o ↔ r.overlaps o ∨ o.start.val = r.last.val + 1 ∨ r.start.val = o.last.val + 1 := by
  have h₂ : o.last = r.start - 1 ↔ r.start = o.last + 1 := by rw [eq_sub_iff_add_eq, eq_comm]
  rw [touches, nextAddress, prevAddress, h₂, eq_add_one_iff hw₁, eq_add_one_iff hw₂]

theorem between_of_lt (hr : r.valid) (ho : o.valid) (h : r.last < o.start) :
    between r o = o.start.val - r.last.val - 1 := by
  have hfilter : (Finset.univ.filter fun a : Fin (m + 1) =>
      r.last < a ∧ a < o.start ∨ o.last < a ∧ a < r.start) = Finset.Ioo r.last o.start := by
    ext a
    simp only [Finset.mem_filter, Finset.mem_univ, true_and, Finset.mem_Ioo, or_iff_left_iff_imp]
    rintro ⟨h₁, h₂⟩
    exact absurd (h₂.trans_le (hr.trans (h.le.trans ho))) (not_lt.mpr h₁.le)
  rw [between, hfilter, Fin.card_Ioo]

theorem between_of_touches (hr : r.valid) (ho : o.valid)
    (h : r.overlaps o ∨ o.start.val = r.last.val + 1 ∨ r.start.val = o.last.val + 1) :
    between r o = 0 := by
  rw [between, Finset.card_eq_zero, Finset.filter_eq_empty_iff]
  rintro a - (⟨h₁, h₂⟩ | ⟨h₁, h₂⟩)
  all_goals
    simp only [valid, overlaps, Fin.le_iff_val_le_val, Fin.lt_def] at hr ho h h₁ h₂
    omega

/-- Valid ranges that do not touch lie apart, one after the other. -/
theorem lt_of_not_touches (ht : ¬ r.touches o)
    (h : ¬ r.last < o.start) : o.last < r.start := by
  by_contra h'
  exact ht (.inl ⟨not_lt.mp h', not_lt.mp h⟩)

theorem distance_comm (hr : r.valid) (ho : o.valid) : distance r o = distance o r := by
  unfold distance
  by_cases ht : r.touches o
  · rw [if_pos ht, if_pos (touches_comm.mp ht)]
  rw [if_neg ht, if_neg (mt touches_comm.mpr ht)]
  by_cases h : r.last < o.start
  · have h' : ¬ o.last < r.start := not_lt.mpr ((hr.trans h.le).trans ho)
    rw [if_pos h, if_neg h']
  · rw [if_neg h, if_pos (lt_of_not_touches ht h)]

theorem gap_of_lt (hr : r.valid) (ho : o.valid) (ht : ¬ r.touches o) (h : r.last < o.start) :
    (o.start - r.last - 1).val = between r o := by
  rw [val_sub_sub_one h (fun he => ht (.inr (.inl he))), between_of_lt hr ho h]

theorem gap_of_not_lt (hr : r.valid) (ho : o.valid) (ht : ¬ r.touches o) (h : ¬ r.last < o.start) :
    (r.start - o.last - 1).val = between r o := by
  have h' := lt_of_not_touches ht h
  have hne : r.start ≠ o.last + 1 := fun he =>
    ht (.inr (.inr (by rw [prevAddress, he, add_sub_cancel_right])))
  rw [val_sub_sub_one h' hne, between_comm, between_of_lt ho hr h']

/-- A gap `a - b - 1` is not empty unless `a = b + 1`. -/
theorem pos_gap {a b : Fin (m + 1)} (hne : a ≠ b + 1) : 0 < (a - b - 1).val := by
  apply Nat.pos_of_ne_zero
  rw [Ne, Fin.val_eq_zero_iff, sub_eq_zero, sub_eq_iff_eq_add, add_comm 1 b]
  exact hne

theorem pos_between (hr : r.valid) (ho : o.valid) (ht : ¬ r.touches o) : 0 < between r o := by
  by_cases h : r.last < o.start
  · rw [← gap_of_lt hr ho ht h]
    exact pos_gap fun he => ht (.inr (.inl he))
  · rw [← gap_of_not_lt hr ho ht h]
    exact pos_gap fun he => ht (.inr (.inr (by rw [prevAddress, he, add_sub_cancel_right])))

theorem toSigned_of_lt {x : Fin (m + 1)} (h : 2 * x.val < m + 1) : toSigned x = x.val := if_pos h

theorem toSigned_neg {x : Fin (m + 1)} (hx : 0 < x.val) (h : 2 * x.val < m + 1) :
    toSigned (-x) = -(x.val : ℤ) := by
  have hneg : (-x).val = m + 1 - x.val := by
    rw [Fin.val_neg', Nat.mod_eq_of_lt (by omega)]
  rw [toSigned, if_neg (by omega), hneg]
  push_cast [show x.val ≤ m + 1 by omega]
  ring

theorem distance_eq_between (hr : r.valid) (ho : o.valid)
    (hw₁ : ¬ (r.last = Fin.last m ∧ o.start = 0)) (hw₂ : ¬ (o.last = Fin.last m ∧ r.start = 0)) :
    (distance r o).val = between r o := by
  unfold distance
  by_cases ht : r.touches o
  · rw [if_pos ht, between_of_touches hr ho ((touches_iff hw₁ hw₂).mp ht), Fin.val_zero]
  rw [if_neg ht]
  split_ifs with h
  · exact gap_of_lt hr ho ht h
  · exact gap_of_not_lt hr ho ht h

/-- While the gap fits the signed type, `signed_distance` is the gap with the sign of the side
`other` lies on. -/
theorem signedDistance_eq (hr : r.valid) (ho : o.valid)
    (hw₁ : ¬ (r.last = Fin.last m ∧ o.start = 0)) (hw₂ : ¬ (o.last = Fin.last m ∧ r.start = 0))
    (hfit : 2 * between r o < m + 1) :
    signedDistance r o = if r.last < o.start then (between r o : ℤ) else -(between r o : ℤ) := by
  unfold signedDistance
  by_cases ht : r.touches o
  · rw [if_pos ht, between_of_touches hr ho ((touches_iff hw₁ hw₂).mp ht)]
    simp
  have hpos := pos_between hr ho ht
  rw [if_neg ht]
  split_ifs with h
  · rw [toSigned_of_lt (by rwa [gap_of_lt hr ho ht h]), gap_of_lt hr ho ht h]
  · have hg := gap_of_not_lt hr ho ht h
    rw [toSigned_neg (by omega) (by omega), hg]

end Range

/-- At the ends of the address space, for every width: a range that ends at `umax` touches one
that starts at `0` with `m - 1` addresses between them, and the `m - 2` addresses between `[0, 0]`
and `[umax - 1, umax - 1]` come out of `signed_distance` as `-3`. -/
theorem distance_wraps (hm : 5 ≤ m) :
    Range.distance (⟨Fin.last m, Fin.last m⟩ : Range m) ⟨0, 0⟩ = 0 ∧
    Range.between (⟨Fin.last m, Fin.last m⟩ : Range m) ⟨0, 0⟩ = m - 1 ∧
    Range.signedDistance (⟨0, 0⟩ : Range m) ⟨Fin.last m - 1, Fin.last m - 1⟩ = -3 ∧
    Range.between (⟨0, 0⟩ : Range m) ⟨Fin.last m - 1, Fin.last m - 1⟩ = m - 2 := by
  have hpen : (Fin.last m - 1).val = m - 1 := by
    rw [Fin.coe_sub_one, if_neg (fun h => by simp [Fin.ext_iff] at h; omega), Fin.val_last]
  have hlt₁ : (0 : Fin (m + 1)) < Fin.last m := by rw [Fin.lt_def]; simp; omega
  have hlt₂ : (0 : Fin (m + 1)) < Fin.last m - 1 := by rw [Fin.lt_def, hpen]; simp; omega
  have hfar : ¬ (⟨0, 0⟩ : Range m).touches ⟨Fin.last m - 1, Fin.last m - 1⟩ := by
    simp only [Range.touches, Range.overlaps, Range.nextAddress, Range.prevAddress, Fin.ext_iff,
      Fin.le_def, hpen, zero_add, Fin.val_zero, Fin.coe_sub_one, Fin.val_one', ↓reduceIte,
      Nat.mod_eq_of_lt (show 1 < m + 1 by omega)]
    omega
  have hbetween : Range.between (⟨0, 0⟩ : Range m) ⟨Fin.last m - 1, Fin.last m - 1⟩ = m - 2 := by
    rw [Range.between_of_lt le_rfl le_rfl hlt₂]
    dsimp only
    rw [hpen, Fin.val_zero]
    omega
  have hgap := Range.gap_of_lt le_rfl le_rfl hfar hlt₂
  rw [hbetween] at hgap
  refine ⟨?_, ?_, ?_, hbetween⟩
  · rw [Range.distance, if_pos (.inr (.inl (by rw [Range.nextAddress, Fin.last_add_one])))]
  · rw [Range.between_comm, Range.between_of_lt le_rfl le_rfl hlt₁]
    simp
  · rw [Range.signedDistance, if_neg hfar, if_pos hlt₂, Range.toSigned, hgap, if_neg (by omega)]
    omega

theorem distance_wraps_u16 :
    5 ≤ 0xFFFF ∧
    Range.distance (⟨Fin.last 0xFFFF, Fin.last 0xFFFF⟩ : Range 0xFFFF) ⟨0, 0⟩ = 0 ∧
    Range.between (⟨Fin.last 0xFFFF, Fin.last 0xFFFF⟩ : Range 0xFFFF) ⟨0, 0⟩ = 0xFFFF - 1 ∧
    Range.signedDistance (⟨0, 0⟩ : Range 0xFFFF) ⟨Fin.last 0xFFFF - 1, Fin.last 0xFFFF - 1⟩ = -3 ∧
    Range.between (⟨0, 0⟩ : Range 0xFFFF) ⟨Fin.last 0xFFFF - 1, Fin.last 0xFFFF - 1⟩ = 0xFFFF - 2 :=
  ⟨by norm_num, distance_wraps (by norm_num)⟩

theorem merge_wraps :
    run [.merge (⟨0xFFF0, 0xFFFF⟩ : Range 0xFFFF), .merge ⟨0, 0x10⟩] = [⟨0, 0xFFFF⟩] ∧
    Covers (run [.merge (⟨0xFFF0, 0xFFFF⟩ : Range 0xFFFF), .merge ⟨0, 0x10⟩]) 0x20 ∧
    0x20 ∉ denote [.merge (⟨0xFFF0, 0xFFFF⟩ : Range 0xFFFF), .merge ⟨0, 0x10⟩] := by
  have hrun : run [.merge (⟨0xFFF0, 0xFFFF⟩ : Range 0xFFFF), .merge ⟨0, 0x10⟩] =
      [⟨0, 0xFFFF⟩] := by decide
  refine ⟨hrun, ?_, ?_⟩
  · rw [hrun]
    exact ⟨_, List.mem_singleton_self _, by decide, by decide⟩
  · simp [denote, Op.denote, Range.valid, Range.overlapsAddr]

end Rpcs3.Util.AddressRange
