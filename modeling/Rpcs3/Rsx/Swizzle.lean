import Mathlib
import Rpcs3.Lib.Deposit
import Rpcs3.Lib.Loop

/-! Z-order ("swizzled") texture layouts (`rpcs3/Emu/RSX/rsx_utils.h`). `calculate_z_index`
interleaves the bits of x, y and z, one bit of each coordinate per round while that coordinate has
bits left. `convert_linear_swizzle` never computes the index: it walks it, stepping `offs_x` and
`offs_y` by masked increments `(offs - mask) & mask`, which visit the bit deposits of 0, 1, 2, …
into the masks (`Deposit.toNat_sub_and`), and adding `y_incr` to `offs_x0` whenever `offs_y`
wraps. For power-of-two sizes the walk puts texel `(x, y)` at the Morton index that
`calculate_z_index` returns; that index is a bijection of the image onto `[0, width * height)`, and
the two directions of the copy undo each other. Offsets are numbers here; the `u32` offset of
`calculate_z_index` is exact while it has at most 32 bits. -/
namespace Rpcs3.Rsx.Swizzle
open Deposit

/-- `rsx::floor_log2`: `countl_zero(value) ^ 31` is the position of the top 1 bit. -/
def floorLog2 (value : UInt32) : ℕ := if value ≤ 1 then 0 else Nat.log2 value.toNat

/-- `rsx::ceil_log2`: `floor_log2`, plus one unless `value` is a power of two. -/
def ceilLog2 (value : UInt32) : ℕ := floorLog2 value + if value &&& (value - 1) ≠ 0 then 1 else 0

/-! ### `calculate_z_index` -/

/-- A coordinate of `calculate_z_index` with the number of its bits still to interleave. -/
structure Coord where
  value : ℕ
  log2 : ℕ

/-- The block of one coordinate in the loop body of `calculate_z_index`, on the coordinate and on
`(offset, shift_count)`: `if (log2) { offset |= (c & 0x1) << shift_count++; c >>= 1; log2--; }`. -/
def zBit (c : Coord) (acc : ℕ × ℕ) : Coord × (ℕ × ℕ) :=
  if c.log2 ≠ 0 then (⟨c.value >>> 1, c.log2 - 1⟩, (acc.1 ||| (c.value &&& 1) <<< acc.2, acc.2 + 1))
  else (c, acc)

/-- The `do … while (x | y | z)` loop of `calculate_z_index`, for at most `fuel` rounds. Once the
three counters are zero a round changes nothing, so a loop that needs more than
`log2_width + log2_height + log2_depth + 1` rounds never stops; `none` stands for that. -/
def zLoop : ℕ → Coord → Coord → Coord → ℕ × ℕ → Option ℕ
  | 0, _, _, _, _ => none
  | fuel + 1, x, y, z, acc =>
    let rx := zBit x acc
    let ry := zBit y rx.2
    let rz := zBit z ry.2
    if rx.1.value ||| ry.1.value ||| rz.1.value = 0 then some rz.2.1
    else zLoop fuel rx.1 ry.1 rz.1 rz.2

/-- `rsx::calculate_z_index`: the offset of texel `(x, y, z)` in the Z-order layout. Its `AUDIT`
of the bounds is a debug check and is left out. -/
def calculateZIndex (x y z log2Width log2Height log2Depth : ℕ) : Option ℕ :=
  zLoop (log2Width + log2Height + log2Depth + 1) ⟨x, log2Width⟩ ⟨y, log2Height⟩ ⟨z, log2Depth⟩ (0, 0)

/-! ### `convert_linear_swizzle` -/

/-- `limit_mask = 1 << (limit << 1)`, for `limit` the smaller of the two logarithms; it is also
`y_incr`. -/
def limitMask (limit : ℕ) : UInt32 := (1 : UInt32) <<< (UInt32.ofNat limit <<< 1)

/-- `x_mask = 0x55555555 | ~(limit_mask - 1)`: the even bits below the limit and every bit above. -/
def xMask (limit : ℕ) : UInt32 := 0x55555555 ||| ~~~(limitMask limit - 1)

/-- `y_mask = 0xAAAAAAAA & (limit_mask - 1)`: the odd bits below the limit. -/
def yMask (limit : ℕ) : UInt32 := 0xAAAAAAAA &&& (limitMask limit - 1)

/-- The inner loop `for (x = 0; x < width; ++x)` of `convert_linear_swizzle` over the `n` texels
left of the row at `row_offset` with swizzled offset `offs_y`: for each, the pair (swizzled index
`offs_y + offs_x`, linear index `row_offset + x`), then `offs_x = (offs_x - x_mask) & x_mask`. -/
def rowWalk (xMask offsY rowOffset : UInt32) : ℕ → ℕ → UInt32 → List (ℕ × ℕ)
  | 0, _, _ => []
  | n + 1, x, offsX =>
    (offsY.toNat + offsX.toNat, rowOffset.toNat + x) ::
      rowWalk xMask offsY rowOffset n (x + 1) ((offsX - xMask) &&& xMask)

/-- The outer loop over the `n` rows left: a row from `offs_x = offs_x0`, then
`offs_y = (offs_y - y_mask) & y_mask`, `offs_x0 += y_incr` when that wrapped to 0, and
`row_offset += pitch_in_blocks`. -/
def texelWalk (xMask yMask yIncr pitchInBlocks : UInt32) (width : ℕ) :
    ℕ → UInt32 → UInt32 → UInt32 → List (ℕ × ℕ)
  | 0, _, _, _ => []
  | n + 1, offsY, offsX0, rowOffset =>
    let offsY' := (offsY - yMask) &&& yMask
    rowWalk xMask offsY rowOffset width 0 offsX0 ++
      texelWalk xMask yMask yIncr pitchInBlocks width n offsY'
        (if offsY' = 0 then offsX0 + yIncr else offsX0) (rowOffset + pitchInBlocks)

variable {α : Type*}

/-- `rsx::convert_linear_swizzle<T, input_is_swizzled>` on the texel arrays `input` and `output`;
`sizeofT` is `sizeof(T)`. Both branches walk the same offsets: the linear one copies
`row_offset + x` to `offs_y + offs_x`, the swizzled one the other way. -/
def convertLinearSwizzle (inputIsSwizzled : Bool) (sizeofT : ℕ) (input output : ℕ → α)
    (width height : UInt16) (pitch : UInt32) : ℕ → α :=
  let log2width := ceilLog2 width.toUInt32
  let log2height := ceilLog2 height.toUInt32
  let limit := if log2width < log2height then log2width else log2height
  let pitchInBlocks := UInt32.ofNat (pitch.toNat / sizeofT)
  let walk := texelWalk (xMask limit) (yMask limit) (limitMask limit) pitchInBlocks width.toNat
    height.toNat 0 0 0
  Loop.copy input (if inputIsSwizzled then walk.map Prod.swap else walk) output

/-- The texels of a `width × height × depth` volume in the order of the loops of
`convert_linear_swizzle_3d`: z, then y, then x. -/
def texels3d (width height depth : ℕ) : List (ℕ × ℕ × ℕ) :=
  (List.range depth).flatMap fun z => (List.range height).flatMap fun y =>
    (List.range width).map fun x => (x, y, z)

/-- `rsx::convert_linear_swizzle_3d<T>`: for `depth == 1` the swizzled-to-linear 2D copy with
pitch `width * sizeof(T)`; otherwise `*dst++ = src[calculate_z_index(x, y, z, …)]` in z, y, x
order, which writes texel `(x, y, z)` at `(z * height + y) * width + x`. `none` where a call of
`calculate_z_index` would not return. -/
def convertLinearSwizzle3d (sizeofT : ℕ) (input output : ℕ → α) (width height depth : UInt16) :
    Option (ℕ → α) :=
  if depth = 1 then
    some (convertLinearSwizzle true sizeofT input output width height
      (UInt32.ofNat (width.toNat * sizeofT)))
  else
    let log2W := ceilLog2 width.toUInt32
    let log2H := ceilLog2 height.toUInt32
    let log2D := ceilLog2 depth.toUInt32
    let pairs := (texels3d width.toNat height.toNat depth.toNat).mapM fun t =>
      (calculateZIndex t.1 t.2.1 t.2.2 log2W log2H log2D).map
        fun i => ((t.2.2 * height.toNat + t.2.1) * width.toNat + t.1, i)
    pairs.map fun pairs => Loop.copy input pairs output

/-! ### The Morton index -/

/-- The Morton index of `(x, y)` with `k` bits of each interleaved, bit 0 of `x` first; after
those rounds what is left of `x` and of `y` (at most one of them nonzero) comes on top. -/
def morton : ℕ → ℕ → ℕ → ℕ
  | 0, x, y => x + y
  | k + 1, x, y => x % 2 + 2 * (y % 2) + 4 * morton k (x / 2) (y / 2)

@[simp] theorem morton_zero_zero (k : ℕ) : morton k 0 0 = 0 := by
  induction k with
  | zero => rfl
  | succ k ih => simp [morton, ih]

/-! ### `calculate_z_index` computes the Morton index -/

section ZIndex

/-- Or-ing a bit in above the bits of `off` adds it. -/
theorem or_shiftLeft_eq_add {off sc : ℕ} (hoff : off < 2 ^ sc) (v : ℕ) :
    off ||| (v &&& 1) <<< sc = off + 2 ^ sc * (v % 2) := by
  rw [Nat.and_one_is_mod, Nat.lor_comm, ← Nat.shiftLeft_add_eq_or_of_lt hoff, Nat.shiftLeft_eq,
    Nat.add_comm, Nat.mul_comm]

theorem zBit_succ {v k off sc : ℕ} (hoff : off < 2 ^ sc) :
    zBit ⟨v, k + 1⟩ (off, sc) = (⟨v / 2, k⟩, (off + 2 ^ sc * (v % 2), sc + 1)) := by
  simp only [zBit, ne_eq, Nat.add_one_ne_zero, not_false_eq_true, ↓reduceIte, Nat.shiftRight_one,
    Nat.add_sub_cancel, or_shiftLeft_eq_add hoff]

@[simp] theorem zBit_zero (v : ℕ) (acc : ℕ × ℕ) : zBit ⟨v, 0⟩ acc = (⟨v, 0⟩, acc) := rfl

theorem add_bit_lt {off sc : ℕ} (hoff : off < 2 ^ sc) (v : ℕ) : off + 2 ^ sc * (v % 2) < 2 ^ (sc + 1) := by
  have : v % 2 ≤ 1 := by omega
  rw [Nat.pow_succ]
  nlinarith

/-- The loop of `calculate_z_index` with `z` out of play: from `offset < 2 ^ shift_count` it adds
the Morton index of what is left of `x` and `y`, shifted to `shift_count`. The induction is on the
rounds left; each round takes a bit of each coordinate that has one. -/
theorem zLoop_morton {fuel lw lh x y off sc : ℕ} (hx : x < 2 ^ lw) (hy : y < 2 ^ lh)
    (hoff : off < 2 ^ sc) (hfuel : lw + lh < fuel) :
    zLoop fuel ⟨x, lw⟩ ⟨y, lh⟩ ⟨0, 0⟩ (off, sc) = some (off + 2 ^ sc * morton (min lw lh) x y) := by
  induction fuel generalizing lw lh x y off sc with
  | zero => omega
  | succ fuel ih =>
    cases lw with
    | zero =>
      have hx0 : x = 0 := by simpa using hx
      subst hx0
      cases lh with
      | zero =>
        have hy0 : y = 0 := by simpa using hy
        subst hy0
        simp [zLoop]
      | succ lh =>
        -- only `y` has bits: the round takes one of them
        have hrest := @ih 0 lh 0 (y / 2) _ _ (by simp)
          (by rw [Nat.pow_succ] at hy; omega) (add_bit_lt hoff y) (by omega)
        simp only [zLoop, zBit_zero, zBit_succ hoff, Nat.zero_or, Nat.or_zero, Nat.zero_min] at hrest ⊢
        split
        · rename_i h0
          have hy2 : y % 2 = y := by omega
          simp only [morton, Nat.zero_add, hy2]
        · rw [hrest, morton, morton, Nat.pow_succ]
          simp only [Nat.zero_add, Option.some.injEq]
          have : y = y % 2 + 2 * (y / 2) := (Nat.mod_add_div y 2).symm
          conv_rhs => rw [this]
          ring
    | succ lw =>
      cases lh with
      | zero =>
        have hy0 : y = 0 := by simpa using hy
        subst hy0
        -- only `x` has bits left
        have hrest := @ih lw 0 (x / 2) 0 _ _
          (by rw [Nat.pow_succ] at hx; omega) (by simp) (add_bit_lt hoff x) (by omega)
        simp only [zLoop, zBit_zero, zBit_succ hoff, Nat.or_zero, Nat.min_zero] at hrest ⊢
        split
        · rename_i h0
          have hx2 : x % 2 = x := by omega
          simp only [morton, Nat.add_zero, hx2]
        · rw [hrest, morton, morton, Nat.pow_succ]
          simp only [Nat.add_zero, Option.some.injEq]
          have : x = x % 2 + 2 * (x / 2) := (Nat.mod_add_div x 2).symm
          conv_rhs => rw [this]
          ring
      | succ lh =>
        -- both have bits: the round takes the pair, `x` first
        have hoff₁ := add_bit_lt hoff x
        have hrest := @ih lw lh (x / 2) (y / 2) _ _
          (by rw [Nat.pow_succ] at hx; omega) (by rw [Nat.pow_succ] at hy; omega)
          (add_bit_lt hoff₁ y) (by omega)
        simp only [zLoop, zBit_zero, zBit_succ hoff, zBit_succ hoff₁, Nat.or_zero,
          Nat.succ_min_succ, morton] at hrest ⊢
        split
        · rename_i h0
          rw [Nat.or_eq_zero_iff] at h0
          rw [h0.1, h0.2, morton_zero_zero, Nat.pow_succ]
          simp only [Option.some.injEq]
          ring
        · rw [hrest, Nat.pow_succ, Nat.pow_succ]
          simp only [Option.some.injEq]
          ring

/-- `calculate_z_index` in two dimensions is the Morton index with `min log2_width log2_height`
interleaved rounds. -/
theorem calculateZIndex_eq_morton {x y lw lh : ℕ} (hx : x < 2 ^ lw) (hy : y < 2 ^ lh) :
    calculateZIndex x y 0 lw lh 0 = some (morton (min lw lh) x y) := by
  rw [calculateZIndex, zLoop_morton hx hy (by simp) (by omega)]
  simp

end ZIndex

/-! ### The masks and their deposits -/

section Masks

/-- `x_mask` as a number: `k` times the bit pair `01` from bit 0, then `n` ones. -/
def xBits : ℕ → ℕ → ℕ
  | 0, n => 2 ^ n - 1
  | k + 1, n => 1 + 4 * xBits k n

/-- `y_mask` as a number: `k` times the bit pair `10` from bit 0. -/
def yBits : ℕ → ℕ
  | 0 => 0
  | k + 1 => 2 + 4 * yBits k

/-- The masks of `convert_linear_swizzle` for every limit of a size of 16 bits. -/
theorem masks_toNat : ∀ L < 16, (xMask L).toNat = xBits L (32 - 2 * L) ∧ (yMask L).toNat = yBits L ∧
    (limitMask L).toNat = 4 ^ L := by
  decide

theorem deposit_yBits_succ (w k j : ℕ) :
    deposit (w + 2) (yBits (k + 1)) j = 2 * (j % 2) + 4 * deposit w (yBits k) (j / 2) := by
  have h₀ : yBits (k + 1) % 2 = 0 := by simp only [yBits]; omega
  have h₁ : yBits (k + 1) / 2 % 2 = 1 := by simp only [yBits]; omega
  have h₂ : yBits (k + 1) / 2 / 2 = yBits k := by simp only [yBits]; omega
  rw [deposit_even h₀, deposit_odd h₁, h₂]
  ring

theorem deposit_xBits_succ (w k n j : ℕ) :
    deposit (w + 2) (xBits (k + 1) n) j = j % 2 + 4 * deposit w (xBits k n) (j / 2) := by
  have h₀ : xBits (k + 1) n % 2 = 1 := by simp only [xBits]; omega
  have h₁ : xBits (k + 1) n / 2 % 2 = 0 := by simp only [xBits]; omega
  have h₂ : xBits (k + 1) n / 2 / 2 = xBits k n := by simp only [xBits]; omega
  rw [deposit_odd h₀, deposit_even h₁, h₂]
  ring

theorem div_two_pow_succ (v k : ℕ) : v / 2 ^ (k + 1) = v / 2 / 2 ^ k := by
  rw [Nat.pow_succ', Nat.div_div_eq_div_mul]

/-- The two offsets of `convert_linear_swizzle` add up to the Morton index: `offs_y` holds the
deposit of `y` into the odd bits, `offs_x` that of `x` plus the row group of `y` into the even
bits and the bits above. -/
theorem deposit_morton (k n : ℕ) {w x y : ℕ} (hw : w = 2 * k + n) (hxy : x < 2 ^ k ∨ y < 2 ^ k)
    (hn : x / 2 ^ k + y / 2 ^ k < 2 ^ n) :
    deposit w (yBits k) y + deposit w (xBits k n) (x + y / 2 ^ k * 2 ^ k) = morton k x y := by
  subst hw
  induction k generalizing x y with
  | zero =>
    simp only [Nat.pow_zero, Nat.div_one] at hn
    simp [yBits, xBits, deposit_ones, morton, Nat.mod_eq_of_lt hn]
  | succ k ih =>
    have hJ : x + y / 2 ^ (k + 1) * 2 ^ (k + 1) = x % 2 + 2 * (x / 2 + y / 2 / 2 ^ k * 2 ^ k) := by
      rw [div_two_pow_succ, Nat.pow_succ', Nat.mul_left_comm]
      omega
    have hxy' : x / 2 < 2 ^ k ∨ y / 2 < 2 ^ k := by rw [Nat.pow_succ] at hxy; omega
    have hn' : x / 2 / 2 ^ k + y / 2 / 2 ^ k < 2 ^ n := by rwa [div_two_pow_succ, div_two_pow_succ] at hn
    have hrest := ih hxy' hn'
    rw [show 2 * (k + 1) + n = 2 * k + n + 2 by ring, deposit_yBits_succ, deposit_xBits_succ, hJ,
      show (x % 2 + 2 * (x / 2 + y / 2 / 2 ^ k * 2 ^ k)) / 2 = x / 2 + y / 2 / 2 ^ k * 2 ^ k by omega,
      show (x % 2 + 2 * (x / 2 + y / 2 / 2 ^ k * 2 ^ k)) % 2 = x % 2 by omega, morton, ← hrest]
    ring

/-- `offs_y` wraps to 0 exactly at the rows whose number is a multiple of the row group. -/
theorem deposit_yBits_eq_zero_iff (k n j : ℕ) : deposit (2 * k + n) (yBits k) j = 0 ↔ j % 2 ^ k = 0 := by
  induction k generalizing j with
  | zero => simp [yBits, Nat.mod_one]
  | succ k ih =>
    have hhalf := ih (j / 2)
    rw [show 2 * (k + 1) + n = 2 * k + n + 2 by ring, deposit_yBits_succ, Nat.pow_succ', Nat.mod_mul]
    omega

/-- `offs_x0` after `q` row groups is the deposit of `q` above the interleaved bits. -/
theorem deposit_xBits_mul (k n q : ℕ) {w : ℕ} (hw : w = 2 * k + n) (hq : q < 2 ^ n) :
    deposit w (xBits k n) (q * 2 ^ k) = q * 4 ^ k := by
  subst hw
  induction k with
  | zero => simp [xBits, deposit_ones, Nat.mod_eq_of_lt hq]
  | succ k ih =>
    rw [show 2 * (k + 1) + n = 2 * k + n + 2 by ring, deposit_xBits_succ, Nat.pow_succ',
      show q * (2 * 2 ^ k) = 2 * (q * 2 ^ k) by ring, Nat.mul_mod_right,
      Nat.mul_div_cancel_left _ two_pos, ih, Nat.pow_succ']
    ring

end Masks

/-! ### The walk of `convert_linear_swizzle` -/

section Walk

/-- From the deposit of `j + x` the inner loop visits the deposits of the following numbers. -/
theorem rowWalk_eq (m offsY rowOffset : UInt32) (j : ℕ) :
    ∀ n x (offsX : UInt32), offsX.toNat = deposit 32 m.toNat (j + x) →
      rowWalk m offsY rowOffset n x offsX =
        (List.range' x n).map fun c => (offsY.toNat + deposit 32 m.toNat (j + c), rowOffset.toNat + c) := by
  intro n
  induction n with
  | zero => intro x offsX _; rfl
  | succ n ih =>
    intro x offsX h
    rw [rowWalk, ih (x + 1) _ (toNat_sub_and h), List.range'_succ, List.map_cons, h]

theorem div_two_pow_lt {v a b : ℕ} (h : v < 2 ^ (a + b)) : v / 2 ^ a < 2 ^ b :=
  Nat.div_lt_of_lt_mul (by rwa [← Nat.pow_add])

variable {lw lh : ℕ}

/-- The swizzled index the walk reaches for texel `(x, y)` is its Morton index. -/
theorem walk_index_eq_morton (hlw : lw ≤ 15) (hlh : lh ≤ 15) {x y : ℕ} (hx : x < 2 ^ lw)
    (hy : y < 2 ^ lh) :
    deposit 32 (yMask (min lw lh)).toNat y +
        deposit 32 (xMask (min lw lh)).toNat (y / 2 ^ min lw lh * 2 ^ min lw lh + x) =
      morton (min lw lh) x y := by
  obtain ⟨hxm, hym, -⟩ := masks_toNat (min lw lh) (by omega)
  rw [hxm, hym, Nat.add_comm _ x]
  -- past the interleaved bits only the longer side has bits, and they fit above them
  have hxk : x / 2 ^ min lw lh < 2 ^ (lw - min lw lh) :=
    div_two_pow_lt (by rwa [Nat.add_sub_cancel' (Nat.min_le_left lw lh)])
  have hyk : y / 2 ^ min lw lh < 2 ^ (lh - min lw lh) :=
    div_two_pow_lt (by rwa [Nat.add_sub_cancel' (Nat.min_le_right lw lh)])
  have hfit : ∀ a, a ≤ 15 → 2 ^ (a - min lw lh) ≤ 2 ^ (32 - 2 * min lw lh) := fun a ha =>
    Nat.pow_le_pow_right two_pos (by omega)
  apply deposit_morton (min lw lh) (32 - 2 * min lw lh) (by omega)
  · rcases Nat.le_total lw lh with h | h
    · exact .inl (by rwa [Nat.min_eq_left h])
    · exact .inr (by rwa [Nat.min_eq_right h])
  · rcases Nat.le_total lw lh with h | h
    · have : x / 2 ^ min lw lh = 0 := by
        apply Nat.div_eq_of_lt
        rwa [Nat.min_eq_left h]
      have := hfit lh hlh
      omega
    · have : y / 2 ^ min lw lh = 0 := by
        apply Nat.div_eq_of_lt
        rwa [Nat.min_eq_right h]
      have := hfit lw hlw
      omega

/-- The loop variables at the top of row `r` of a `2 ^ lw × 2 ^ lh` image: `offs_y` holds the
deposit of `r`, `offs_x0` the row group of `r` above the interleaved bits, `row_offset` the start
of row `r`. -/
structure RowState (lw lh r : ℕ) (offsY offsX0 rowOffset : UInt32) : Prop where
  offsY_eq : offsY.toNat = deposit 32 (yMask (min lw lh)).toNat r
  offsX0_eq : offsX0.toNat = r / 2 ^ min lw lh * 4 ^ min lw lh
  rowOffset_eq : rowOffset.toNat = r * 2 ^ lw

theorem rowState_zero : RowState lw lh 0 0 0 0 := ⟨by simp, by simp, by simp⟩

/-- One row of the walk: the masked increment of `offs_y`, the carry into `offs_x0` when it
wraps, and `row_offset` one pitch on. -/
theorem RowState.next (hlw : lw ≤ 15) (hlh : lh ≤ 15) {r : ℕ} {offsY offsX0 rowOffset : UInt32}
    (h : RowState lw lh r offsY offsX0 rowOffset) (hr : r < 2 ^ lh) :
    RowState lw lh (r + 1) ((offsY - yMask (min lw lh)) &&& yMask (min lw lh))
      (if (offsY - yMask (min lw lh)) &&& yMask (min lw lh) = 0 then offsX0 + limitMask (min lw lh)
        else offsX0)
      (rowOffset + UInt32.ofNat (2 ^ lw)) := by
  obtain ⟨-, hym, hlim⟩ := masks_toNat (min lw lh) (by omega)
  have hY := toNat_sub_and h.offsY_eq
  -- the image has at most `2 ^ 30` texels, so no offset wraps
  have hsize : 2 ^ lh * 2 ^ lw ≤ 2 ^ 30 := by
    rw [← Nat.pow_add]
    exact Nat.pow_le_pow_right two_pos (by omega)
  refine ⟨hY, ?_, ?_⟩
  · have hwrap : (offsY - yMask (min lw lh)) &&& yMask (min lw lh) = 0 ↔ (r + 1) % 2 ^ min lw lh = 0 := by
      rw [← UInt32.toNat_inj, hY, UInt32.toNat_zero, hym,
        show 32 = 2 * min lw lh + (32 - 2 * min lw lh) by omega, deposit_yBits_eq_zero_iff]
    by_cases hg : (r + 1) % 2 ^ min lw lh = 0
    · -- a new row group: `offs_x0` moves one group up
      have hq := Nat.succ_div_of_dvd (Nat.dvd_of_mod_eq_zero hg)
      have hbound : (r + 1) / 2 ^ min lw lh * 4 ^ min lw lh ≤ (r + 1) * 2 ^ min lw lh := by
        rw [show 4 ^ min lw lh = 2 ^ min lw lh * 2 ^ min lw lh by rw [← Nat.mul_pow], ← Nat.mul_assoc]
        exact Nat.mul_le_mul_right _ (Nat.div_mul_le_self _ _)
      have hL : (r + 1) * 2 ^ min lw lh ≤ 2 ^ lh * 2 ^ lw :=
        Nat.mul_le_mul (by omega) (Nat.pow_le_pow_right two_pos (Nat.min_le_left lw lh))
      have hsum : r / 2 ^ min lw lh * 4 ^ min lw lh + 4 ^ min lw lh = (r + 1) / 2 ^ min lw lh * 4 ^ min lw lh := by
        rw [hq]
        ring
      rw [if_pos (hwrap.mpr hg), UInt32.toNat_add, h.offsX0_eq, hlim, hsum, Nat.mod_eq_of_lt (by omega)]
    · rw [if_neg (mt hwrap.mp hg), Nat.succ_div_of_not_dvd (mt Nat.mod_eq_zero_of_dvd hg), h.offsX0_eq]
  · have hrow : (r + 1) * 2 ^ lw ≤ 2 ^ lh * 2 ^ lw := Nat.mul_le_mul_right _ hr
    have hw : 2 ^ lw < 2 ^ 32 := Nat.pow_lt_pow_right (by norm_num) (by omega)
    rw [UInt32.toNat_add, h.rowOffset_eq, UInt32.toNat_ofNat_of_lt' hw,
      show r * 2 ^ lw + 2 ^ lw = (r + 1) * 2 ^ lw by ring, Nat.mod_eq_of_lt (by omega)]

/-- The walk from the first row: every texel's pair (Morton index, linear index), row by row. -/
theorem texelWalk_eq (hlw : lw ≤ 15) (hlh : lh ≤ 15) :
    ∀ n r (offsY offsX0 rowOffset : UInt32), r + n = 2 ^ lh → RowState lw lh r offsY offsX0 rowOffset →
      texelWalk (xMask (min lw lh)) (yMask (min lw lh)) (limitMask (min lw lh)) (UInt32.ofNat (2 ^ lw))
          (2 ^ lw) n offsY offsX0 rowOffset =
        (List.range' r n).flatMap fun y =>
          (List.range (2 ^ lw)).map fun x => (morton (min lw lh) x y, y * 2 ^ lw + x) := by
  intro n
  induction n with
  | zero => intro r _ _ _ _ _; rfl
  | succ n ih =>
    intro r offsY offsX0 rowOffset hn h
    have hr : r < 2 ^ lh := by omega
    -- the row starts from the deposit of its row group
    have hX : offsX0.toNat =
        deposit 32 (xMask (min lw lh)).toNat (r / 2 ^ min lw lh * 2 ^ min lw lh + 0) := by
      obtain ⟨hxm, -, -⟩ := masks_toNat (min lw lh) (by omega)
      have hq : r / 2 ^ min lw lh < 2 ^ (32 - 2 * min lw lh) :=
        lt_of_lt_of_le (div_two_pow_lt (by rwa [Nat.add_sub_cancel' (Nat.min_le_right lw lh)]))
          (Nat.pow_le_pow_right two_pos (by omega))
      rw [h.offsX0_eq, Nat.add_zero, hxm, deposit_xBits_mul _ _ _ (by omega) hq]
    rw [texelWalk, rowWalk_eq _ _ _ _ _ _ _ hX, ih (r + 1) _ _ _ (by omega) (h.next hlw hlh hr),
      List.range'_succ, List.flatMap_cons, List.range_eq_range']
    congr 1
    apply List.map_congr_left
    intro x hx
    rw [List.mem_range'_1] at hx
    rw [h.offsY_eq, h.rowOffset_eq, walk_index_eq_morton hlw hlh (by omega) hr]

end Walk

/-! ### The Morton index is a bijection -/

section Bijection

variable {lw lh : ℕ}

/-- The Morton index with `a` more bits of `x` or `b` more of `y` than interleaved fits in the bits
of the two. -/
theorem morton_lt {k a b x y : ℕ} (hab : a = 0 ∨ b = 0) (hx : x < 2 ^ (k + a)) (hy : y < 2 ^ (k + b)) :
    morton k x y < 2 ^ (2 * k + a + b) := by
  induction k generalizing x y with
  | zero =>
    simp only [Nat.zero_add] at hx hy
    rcases hab with rfl | rfl
    · have hx0 : x = 0 := by simpa using hx
      simpa [morton, hx0] using hy
    · have hy0 : y = 0 := by simpa using hy
      simpa [morton, hy0] using hx
  | succ k ih =>
    have hrest := ih (x := x / 2) (y := y / 2)
      (by rw [show k + 1 + a = k + a + 1 by ring, Nat.pow_succ] at hx; omega)
      (by rw [show k + 1 + b = k + b + 1 by ring, Nat.pow_succ] at hy; omega)
    rw [morton, show 2 * (k + 1) + a + b = 2 * k + a + b + 2 by ring, Nat.pow_add]
    omega

/-- The Morton index tells apart the texels of an image. -/
theorem morton_inj {k a b x y x' y' : ℕ} (hab : a = 0 ∨ b = 0) (hx : x < 2 ^ (k + a))
    (hy : y < 2 ^ (k + b)) (hx' : x' < 2 ^ (k + a)) (hy' : y' < 2 ^ (k + b))
    (h : morton k x y = morton k x' y') : x = x' ∧ y = y' := by
  induction k generalizing x y x' y' with
  | zero =>
    simp only [Nat.zero_add] at hx hy hx' hy'
    rcases hab with rfl | rfl
    · have hx0 : x = 0 := by simpa using hx
      have hx0' : x' = 0 := by simpa using hx'
      simp only [morton, hx0, hx0', Nat.zero_add] at h
      exact ⟨hx0.trans hx0'.symm, h⟩
    · have hy0 : y = 0 := by simpa using hy
      have hy0' : y' = 0 := by simpa using hy'
      simp only [morton, hy0, hy0', Nat.add_zero] at h
      exact ⟨h, hy0.trans hy0'.symm⟩
  | succ k ih =>
    have halve : ∀ {v c : ℕ}, v < 2 ^ (k + 1 + c) → v / 2 < 2 ^ (k + c) := fun {v c} hv => by
      rw [show k + 1 + c = k + c + 1 by ring, Nat.pow_succ] at hv
      omega
    rw [morton, morton] at h
    -- the two low bits give bit 0 of each coordinate, the rest the Morton index of the halves
    have hlow : x % 2 = x' % 2 ∧ y % 2 = y' % 2 := by omega
    have hhigh : morton k (x / 2) (y / 2) = morton k (x' / 2) (y' / 2) := by omega
    obtain ⟨hx2, hy2⟩ := ih (halve hx) (halve hy) (halve hx') (halve hy') hhigh
    omega

theorem morton_lt_size {x y : ℕ} (hx : x < 2 ^ lw) (hy : y < 2 ^ lh) :
    morton (min lw lh) x y < 2 ^ lw * 2 ^ lh := by
  have h := morton_lt (k := min lw lh) (a := lw - min lw lh) (b := lh - min lw lh) (by omega)
    (by rwa [Nat.add_sub_cancel' (Nat.min_le_left lw lh)])
    (by rwa [Nat.add_sub_cancel' (Nat.min_le_right lw lh)])
  rwa [show 2 * min lw lh + (lw - min lw lh) + (lh - min lw lh) = lw + lh by omega, Nat.pow_add] at h

theorem morton_injOn {x y x' y' : ℕ} (hx : x < 2 ^ lw) (hy : y < 2 ^ lh) (hx' : x' < 2 ^ lw)
    (hy' : y' < 2 ^ lh) (h : morton (min lw lh) x y = morton (min lw lh) x' y') : x = x' ∧ y = y' := by
  have ha : min lw lh + (lw - min lw lh) = lw := Nat.add_sub_cancel' (Nat.min_le_left lw lh)
  have hb : min lw lh + (lh - min lw lh) = lh := Nat.add_sub_cancel' (Nat.min_le_right lw lh)
  exact morton_inj (a := lw - min lw lh) (b := lh - min lw lh) (by omega) (by rwa [ha]) (by rwa [hb])
    (by rwa [ha]) (by rwa [hb]) h

/-- The pairs (Morton index, linear index) of a `2 ^ lw × 2 ^ lh` image, row by row. -/
def mortonPairs (lw lh : ℕ) : List (ℕ × ℕ) :=
  (List.range (2 ^ lh)).flatMap fun y =>
    (List.range (2 ^ lw)).map fun x => (morton (min lw lh) x y, y * 2 ^ lw + x)

theorem mem_mortonPairs {p : ℕ × ℕ} :
    p ∈ mortonPairs lw lh ↔ ∃ x < 2 ^ lw, ∃ y < 2 ^ lh, (morton (min lw lh) x y, y * 2 ^ lw + x) = p := by
  simp only [mortonPairs, List.mem_flatMap, List.mem_map, List.mem_range]
  constructor
  · rintro ⟨y, hy, x, hx, rfl⟩
    exact ⟨x, hx, y, hy, rfl⟩
  · rintro ⟨x, hx, y, hy, rfl⟩
    exact ⟨y, hy, x, hx, rfl⟩

/-- The linear indices of the pairs are those of the image, in order. -/
theorem map_snd_mortonPairs : (mortonPairs lw lh).map Prod.snd = List.range (2 ^ lh * 2 ^ lw) := by
  rw [mortonPairs, List.map_flatMap]
  simp only [List.map_map, Function.comp_def]
  have h := Loop.flatMap_range_map id (2 ^ lh) (2 ^ lw)
  rw [List.map_id] at h
  exact h

theorem nodup_map_snd_mortonPairs : ((mortonPairs lw lh).map Prod.snd).Nodup := by
  rw [map_snd_mortonPairs]
  exact List.nodup_range

theorem nodup_map_fst_mortonPairs : ((mortonPairs lw lh).map Prod.fst).Nodup := by
  apply List.Nodup.map_on _ nodup_map_snd_mortonPairs.of_map
  intro p hp p' hp' h
  obtain ⟨x, hx, y, hy, rfl⟩ := mem_mortonPairs.mp hp
  obtain ⟨x', hx', y', hy', rfl⟩ := mem_mortonPairs.mp hp'
  obtain ⟨rfl, rfl⟩ := morton_injOn hx hy hx' hy' h
  rfl

/-- Every index of the image is the Morton index of one of its texels: the pairs give
`2 ^ lw * 2 ^ lh` distinct Morton indices below that bound. -/
theorem exists_morton_eq {i : ℕ} (hi : i < 2 ^ lw * 2 ^ lh) :
    ∃ x < 2 ^ lw, ∃ y < 2 ^ lh, morton (min lw lh) x y = i := by
  have hlen : ((mortonPairs lw lh).map Prod.fst).length = 2 ^ lw * 2 ^ lh := by
    rw [List.length_map, ← List.length_map (f := Prod.snd), map_snd_mortonPairs, List.length_range,
      Nat.mul_comm]
  have hsub : ((mortonPairs lw lh).map Prod.fst).toFinset ⊆ Finset.range (2 ^ lw * 2 ^ lh) := by
    intro j hj
    obtain ⟨p, hp, rfl⟩ := List.mem_map.mp (List.mem_toFinset.mp hj)
    obtain ⟨x, hx, y, hy, rfl⟩ := mem_mortonPairs.mp hp
    exact Finset.mem_range.mpr (morton_lt_size hx hy)
  have hall := Finset.eq_of_subset_of_card_le hsub
    (by rw [List.toFinset_card_of_nodup nodup_map_fst_mortonPairs, hlen, Finset.card_range])
  have hmem : i ∈ ((mortonPairs lw lh).map Prod.fst).toFinset := hall ▸ Finset.mem_range.mpr hi
  obtain ⟨p, hp, rfl⟩ := List.mem_map.mp (List.mem_toFinset.mp hmem)
  obtain ⟨x, hx, y, hy, rfl⟩ := mem_mortonPairs.mp hp
  exact ⟨x, hx, y, hy, rfl⟩

/-- Every index of the image is the linear index of one of its texels. -/
theorem exists_linear_eq {k : ℕ} (hk : k < 2 ^ lw * 2 ^ lh) : ∃ x < 2 ^ lw, ∃ y < 2 ^ lh, y * 2 ^ lw + x = k :=
  ⟨k % 2 ^ lw, Nat.mod_lt _ (Nat.two_pow_pos lw), k / 2 ^ lw, Nat.div_lt_of_lt_mul hk, Nat.div_add_mod' k _⟩

end Bijection

/-! ### `ceil_log2` -/

section Log2

/-- A positive number that shares no bit with its predecessor is a power of two. -/
theorem eq_two_pow_log2 {n : ℕ} (hn : 0 < n) (h : n &&& (n - 1) = 0) : n = 2 ^ Nat.log2 n := by
  have hlo := Nat.log2_self_le hn.ne'
  have hhi : n < 2 ^ (Nat.log2 n + 1) := Nat.lt_log2_self
  by_contra hne
  -- otherwise `n - 1` still has the top bit of `n`
  have hbit := congrArg (fun m => m.testBit (Nat.log2 n)) h
  simp only [Nat.testBit_and, Nat.testBit_of_two_pow_le_and_two_pow_add_one_gt hlo hhi,
    Nat.testBit_of_two_pow_le_and_two_pow_add_one_gt (show 2 ^ Nat.log2 n ≤ n - 1 by omega) (by omega),
    Nat.zero_testBit, Bool.and_self, Bool.true_eq_false] at hbit

theorem ceilLog2_of_two_pow {v : UInt32} {k : ℕ} (hv : v.toNat = 2 ^ k) : ceilLog2 v = k := by
  have h1 : 1 ≤ v := by
    rw [UInt32.le_iff_toNat_le, hv]
    exact Nat.one_le_two_pow
  have hpow : v &&& (v - 1) = 0 := by
    rw [← UInt32.toNat_inj, UInt32.toNat_and, UInt32.toNat_sub_of_le _ _ h1, hv, UInt32.toNat_one,
      Nat.and_two_pow_sub_one_eq_mod, Nat.mod_self, UInt32.toNat_zero]
  rw [ceilLog2, floorLog2, if_neg (not_not.mpr hpow), Nat.add_zero]
  split
  · rename_i hle
    have hk : 2 ^ k ≤ 1 := by
      rw [← hv]
      exact UInt32.le_iff_toNat_le.mp hle
    by_contra hne
    exact absurd hk (Nat.not_le.mpr (Nat.one_lt_two_pow (Ne.symm hne)))
  · rw [hv, Nat.log2_two_pow]

/-- `ceil_log2` rounds up: every count fits in `2 ^ ceil_log2`. -/
theorem le_two_pow_ceilLog2 (v : UInt32) : v.toNat ≤ 2 ^ ceilLog2 v := by
  rw [ceilLog2, floorLog2]
  split
  · rename_i hle
    exact (UInt32.le_iff_toNat_le.mp hle).trans Nat.one_le_two_pow
  · rename_i hgt
    have hpos : 0 < v.toNat := by
      rw [UInt32.le_iff_toNat_le, UInt32.toNat_one] at hgt
      omega
    split
    · exact Nat.lt_log2_self.le
    · rename_i hand
      have h1 : 1 ≤ v := by
        rw [UInt32.le_iff_toNat_le, UInt32.toNat_one]
        exact hpos
      have hn : v.toNat &&& (v.toNat - 1) = 0 := by
        rw [← UInt32.toNat_one, ← UInt32.toNat_sub_of_le _ _ h1, ← UInt32.toNat_and, not_not.mp hand,
          UInt32.toNat_zero]
      rw [Nat.add_zero, ← eq_two_pow_log2 hpos hn]

end Log2

/-! ### Both directions of `convert_linear_swizzle` -/

section Convert

variable {lw lh sizeofT : ℕ} {width height : UInt16} {pitch : UInt32}

theorem log2_le_of_toNat_eq {v : UInt16} {k : ℕ} (hv : v.toNat = 2 ^ k) : k ≤ 15 := by
  have h := v.toNat_lt
  rw [hv] at h
  exact Nat.lt_succ_iff.mp ((Nat.pow_lt_pow_iff_right (by norm_num)).mp h)

/-- For power-of-two sizes and `pitch = width * sizeof(T)`, both directions copy along the pairs
(Morton index, linear index) of the image. -/
theorem convertLinearSwizzle_eq (b : Bool) (hT : 0 < sizeofT) (hw : width.toNat = 2 ^ lw)
    (hh : height.toNat = 2 ^ lh) (hp : pitch.toNat = width.toNat * sizeofT) (input output : ℕ → α) :
    convertLinearSwizzle b sizeofT input output width height pitch =
      Loop.copy input (if b then (mortonPairs lw lh).map Prod.swap else mortonPairs lw lh) output := by
  have hcw : ceilLog2 width.toUInt32 = lw := ceilLog2_of_two_pow (by rw [UInt16.toNat_toUInt32, hw])
  have hch : ceilLog2 height.toUInt32 = lh := ceilLog2_of_two_pow (by rw [UInt16.toNat_toUInt32, hh])
  have hlimit : (if lw < lh then lw else lh) = min lw lh := by split <;> omega
  have hpitch : UInt32.ofNat (pitch.toNat / sizeofT) = UInt32.ofNat (2 ^ lw) := by
    rw [hp, hw, Nat.mul_div_cancel _ hT]
  simp only [convertLinearSwizzle, hcw, hch, hlimit, hpitch, hw, hh]
  rw [texelWalk_eq (log2_le_of_toNat_eq hw) (log2_le_of_toNat_eq hh) (2 ^ lh) 0 0 0 0 (by omega)
    rowState_zero, ← List.range_eq_range']
  rfl

/-- The linear-to-swizzled copy puts texel `(x, y)` at its Morton index. -/
theorem convertLinearSwizzle_linear_apply (hT : 0 < sizeofT) (hw : width.toNat = 2 ^ lw)
    (hh : height.toNat = 2 ^ lh) (hp : pitch.toNat = width.toNat * sizeofT) (input output : ℕ → α)
    {x y : ℕ} (hx : x < 2 ^ lw) (hy : y < 2 ^ lh) :
    convertLinearSwizzle false sizeofT input output width height pitch (morton (min lw lh) x y) =
      input (y * 2 ^ lw + x) := by
  rw [convertLinearSwizzle_eq false hT hw hh hp, if_neg Bool.false_ne_true]
  exact Loop.copy_of_mem nodup_map_fst_mortonPairs (mem_mortonPairs.mpr ⟨x, hx, y, hy, rfl⟩)

/-- The swizzled-to-linear copy fills texel `(x, y)` from its Morton index. -/
theorem convertLinearSwizzle_swizzled_apply (hT : 0 < sizeofT) (hw : width.toNat = 2 ^ lw)
    (hh : height.toNat = 2 ^ lh) (hp : pitch.toNat = width.toNat * sizeofT) (input output : ℕ → α)
    {x y : ℕ} (hx : x < 2 ^ lw) (hy : y < 2 ^ lh) :
    convertLinearSwizzle true sizeofT input output width height pitch (y * 2 ^ lw + x) =
      input (morton (min lw lh) x y) := by
  rw [convertLinearSwizzle_eq true hT hw hh hp, if_pos rfl]
  apply Loop.copy_of_mem
  · rw [List.map_map]
    exact nodup_map_snd_mortonPairs
  · exact List.mem_map.mpr ⟨_, mem_mortonPairs.mpr ⟨x, hx, y, hy, rfl⟩, rfl⟩

end Convert

/-! ### `convert_linear_swizzle_3d` -/

section Volume

/-- One block of `calculate_z_index` keeps a coordinate within its counter, and lowers the counter
whenever a bit is left. -/
theorem zBit_bound {c : Coord} (hc : c.value < 2 ^ c.log2) (acc : ℕ × ℕ) :
    (zBit c acc).1.value < 2 ^ (zBit c acc).1.log2 ∧ (zBit c acc).1.log2 ≤ c.log2 ∧
      ((zBit c acc).1.value ≠ 0 → (zBit c acc).1.log2 < c.log2) := by
  obtain ⟨v, k⟩ := c
  cases k with
  | zero =>
    have hv : v = 0 := by simpa using hc
    simp [hv]
  | succ k =>
    simp only [zBit, ne_eq, Nat.add_one_ne_zero, not_false_eq_true, ↓reduceIte, Nat.shiftRight_one,
      Nat.add_sub_cancel]
    dsimp only at hc
    rw [Nat.pow_succ] at hc
    omega

/-- `calculate_z_index` returns for every texel within the counters: each round that does not
end the loop lowers a counter. -/
theorem zLoop_isSome : ∀ fuel (x y z : Coord) (acc : ℕ × ℕ), x.value < 2 ^ x.log2 →
    y.value < 2 ^ y.log2 → z.value < 2 ^ z.log2 → x.log2 + y.log2 + z.log2 < fuel →
      (zLoop fuel x y z acc).isSome := by
  intro fuel
  induction fuel with
  | zero => intro _ _ _ _ _ _ _ h; omega
  | succ fuel ih =>
    intro x y z acc hx hy hz hfuel
    obtain ⟨hx₁, hx₂, hx₃⟩ := zBit_bound hx acc
    obtain ⟨hy₁, hy₂, hy₃⟩ := zBit_bound hy (zBit x acc).2
    obtain ⟨hz₁, hz₂, hz₃⟩ := zBit_bound hz (zBit y (zBit x acc).2).2
    simp only [zLoop]
    split
    · rfl
    · rename_i hmore
      simp only [Nat.or_eq_zero_iff, not_and_or] at hmore
      apply ih _ _ _ _ hx₁ hy₁ hz₁
      omega

theorem mem_texels3d {W H D x y z : ℕ} : (x, y, z) ∈ texels3d W H D ↔ x < W ∧ y < H ∧ z < D := by
  simp only [texels3d, List.mem_flatMap, List.mem_map, List.mem_range, Prod.mk.injEq]
  constructor
  · rintro ⟨z', hz, y', hy, x', hx, rfl, rfl, rfl⟩
    exact ⟨hx, hy, hz⟩
  · rintro ⟨hx, hy, hz⟩
    exact ⟨z, hz, y, hy, x, hx, rfl, rfl, rfl⟩

/-- `*dst++` visits each place of the volume once: the places of the texels, in loop order, are
`0, 1, 2, …`. -/
theorem map_texels3d (W H D : ℕ) :
    (texels3d W H D).map (fun t => (t.2.2 * H + t.2.1) * W + t.1) = List.range (D * (H * W)) := by
  have hrow : ∀ z, (List.range H).flatMap (fun y => (List.range W).map fun x => (z * H + y) * W + x) =
      (List.range (H * W)).map (z * (H * W) + ·) := fun z => by
    rw [← Loop.flatMap_range_map (z * (H * W) + ·) H W]
    congr 1
    funext y
    congr 1
    funext x
    ring
  have hall := Loop.flatMap_range_map id D (H * W)
  rw [List.map_id] at hall
  rw [texels3d, ← hall, List.map_flatMap]
  congr 1
  funext z
  rw [List.map_flatMap]
  simp only [List.map_map, Function.comp_def, id]
  exact hrow z

variable {lw lh sizeofT : ℕ} {width height : UInt16}

/-- `convert_linear_swizzle_3d` fills texel `(x, y, z)` of the linear volume from
`calculate_z_index(x, y, z, log2 w, log2 h, log2 d)`, for every depth. -/
theorem convertLinearSwizzle3d_apply (hT : 0 < sizeofT) (hw : width.toNat = 2 ^ lw)
    (hh : height.toNat = 2 ^ lh) (hp : width.toNat * sizeofT < 2 ^ 32) (depth : UInt16)
    (input output : ℕ → α) :
    ∃ out, convertLinearSwizzle3d sizeofT input output width height depth = some out ∧
      ∀ x < width.toNat, ∀ y < height.toNat, ∀ z < depth.toNat, ∃ i,
        calculateZIndex x y z lw lh (ceilLog2 depth.toUInt32) = some i ∧
        out ((z * height.toNat + y) * width.toNat + x) = input i := by
  have hcw : ceilLog2 width.toUInt32 = lw := ceilLog2_of_two_pow (by rw [UInt16.toNat_toUInt32, hw])
  have hch : ceilLog2 height.toUInt32 = lh := ceilLog2_of_two_pow (by rw [UInt16.toNat_toUInt32, hh])
  by_cases hd : depth = 1
  · -- a single slice: the 2D copy from the swizzled side
    subst hd
    have hd0 : ceilLog2 (1 : UInt16).toUInt32 = 0 := ceilLog2_of_two_pow rfl
    refine ⟨_, if_pos rfl, fun x hx y hy z hz => ⟨morton (min lw lh) x y, ?_, ?_⟩⟩
    · have hz0 : z = 0 := by simpa using hz
      rw [hz0, hd0]
      exact calculateZIndex_eq_morton (hw ▸ hx) (hh ▸ hy)
    · have hz0 : z = 0 := by simpa using hz
      rw [hz0, show (0 * height.toNat + y) * width.toNat + x = y * 2 ^ lw + x by rw [hw]; ring]
      exact convertLinearSwizzle_swizzled_apply hT hw hh (UInt32.toNat_ofNat_of_lt' hp) input output
        (hw ▸ hx) (hh ▸ hy)
  · -- every call of `calculate_z_index` returns, so the loop copies along all the texels
    let zi : ℕ × ℕ × ℕ → ℕ := fun t =>
      (calculateZIndex t.1 t.2.1 t.2.2 lw lh (ceilLog2 depth.toUInt32)).getD 0
    have hzi : ∀ t ∈ texels3d width.toNat height.toNat depth.toNat,
        calculateZIndex t.1 t.2.1 t.2.2 lw lh (ceilLog2 depth.toUInt32) = some (zi t) := by
      rintro ⟨x, y, z⟩ ht
      obtain ⟨hx, hy, hz⟩ := mem_texels3d.mp ht
      have hsome := zLoop_isSome (lw + lh + ceilLog2 depth.toUInt32 + 1) ⟨x, lw⟩ ⟨y, lh⟩
        ⟨z, ceilLog2 depth.toUInt32⟩ (0, 0) (hw ▸ hx) (hh ▸ hy)
        (lt_of_lt_of_le hz (by simpa using le_two_pow_ceilLog2 depth.toUInt32)) (Nat.lt_succ_self _)
      obtain ⟨i, hi⟩ := Option.isSome_iff_exists.mp hsome
      simp only [zi, calculateZIndex, hi, Option.getD_some]
    have hpairs : (texels3d width.toNat height.toNat depth.toNat).mapM (fun t =>
        (calculateZIndex t.1 t.2.1 t.2.2 lw lh (ceilLog2 depth.toUInt32)).map
          fun i => ((t.2.2 * height.toNat + t.2.1) * width.toNat + t.1, i)) =
        some ((texels3d width.toNat height.toNat depth.toNat).map
          fun t => ((t.2.2 * height.toNat + t.2.1) * width.toNat + t.1, zi t)) :=
      Loop.mapM_eq_some _ fun t ht => by rw [hzi t ht]; rfl
    have hout : convertLinearSwizzle3d sizeofT input output width height depth =
        some (Loop.copy input ((texels3d width.toNat height.toNat depth.toNat).map
          fun t => ((t.2.2 * height.toNat + t.2.1) * width.toNat + t.1, zi t)) output) := by
      rw [convertLinearSwizzle3d, if_neg hd]
      simp only [hcw, hch]
      rw [hpairs]
      rfl
    refine ⟨_, hout, fun x hx y hy z hz => ⟨zi (x, y, z), hzi _ (mem_texels3d.mpr ⟨hx, hy, hz⟩), ?_⟩⟩
    apply Loop.copy_of_mem
    · rw [List.map_map]
      exact (map_texels3d _ _ _).symm ▸ List.nodup_range
    · exact List.mem_map.mpr ⟨(x, y, z), mem_texels3d.mpr ⟨hx, hy, hz⟩, rfl⟩

end Volume

/-- `convert_linear_swizzle<T, false>` writes texel `(x, y)` of a power-of-two image at
`calculate_z_index(x, y, 0, log2 width, log2 height, 0)`, the Morton index; that index is a
bijection of the image onto `[0, width * height)`; `convert_linear_swizzle<T, true>` with the same
parameters undoes the copy and is undone by it; and `convert_linear_swizzle_3d` fills texel
`(x, y, z)` from `calculate_z_index(x, y, z, log2 w, log2 h, log2 d)` for every depth. -/
theorem convert_linear_swizzle_morton (sizeofT : ℕ) (hT : 0 < sizeofT) (width height : UInt16)
    (pitch : UInt32) (lw lh : ℕ) (hw : width.toNat = 2 ^ lw) (hh : height.toNat = 2 ^ lh)
    (hp : pitch.toNat = width.toNat * sizeofT) (input output : ℕ → α) :
    (∀ x < width.toNat, ∀ y < height.toNat,
      calculateZIndex x y 0 lw lh 0 = some (morton (min lw lh) x y) ∧
      convertLinearSwizzle false sizeofT input output width height pitch (morton (min lw lh) x y) =
        input (y * width.toNat + x)) ∧
    (∀ i < width.toNat * height.toNat, ∃! p : ℕ × ℕ,
      p.1 < width.toNat ∧ p.2 < height.toNat ∧ calculateZIndex p.1 p.2 0 lw lh 0 = some i) ∧
    (∀ output' : ℕ → α, ∀ k < width.toNat * height.toNat,
      convertLinearSwizzle true sizeofT (convertLinearSwizzle false sizeofT input output width height pitch)
        output' width height pitch k = input k) ∧
    (∀ output' : ℕ → α, ∀ i < width.toNat * height.toNat,
      convertLinearSwizzle false sizeofT (convertLinearSwizzle true sizeofT input output width height pitch)
        output' width height pitch i = input i) ∧
    (∀ depth : UInt16, ∃ out, convertLinearSwizzle3d sizeofT input output width height depth = some out ∧
      ∀ x < width.toNat, ∀ y < height.toNat, ∀ z < depth.toNat, ∃ i,
        calculateZIndex x y z lw lh (ceilLog2 depth.toUInt32) = some i ∧
        out ((z * height.toNat + y) * width.toNat + x) = input i) := by
  refine ⟨?_, ?_, ?_, ?_, ?_⟩
  · intro x hx y hy
    rw [hw] at hx ⊢
    rw [hh] at hy
    exact ⟨calculateZIndex_eq_morton hx hy, convertLinearSwizzle_linear_apply hT hw hh hp input output hx hy⟩
  · intro i hi
    rw [hw, hh] at hi
    obtain ⟨x, hx, y, hy, rfl⟩ := exists_morton_eq hi
    refine ⟨(x, y), ⟨hw ▸ hx, hh ▸ hy, calculateZIndex_eq_morton hx hy⟩, ?_⟩
    rintro ⟨x', y'⟩ ⟨hx', hy', h'⟩
    rw [hw] at hx'
    rw [hh] at hy'
    rw [calculateZIndex_eq_morton hx' hy', Option.some.injEq] at h'
    obtain ⟨rfl, rfl⟩ := morton_injOn hx' hy' hx hy h'
    rfl
  · -- linear, then back: texel `(x, y)` went to its Morton index and comes back from it
    intro output' k hk
    rw [hw, hh] at hk
    obtain ⟨x, hx, y, hy, rfl⟩ := exists_linear_eq hk
    rw [convertLinearSwizzle_swizzled_apply hT hw hh hp _ _ hx hy,
      convertLinearSwizzle_linear_apply hT hw hh hp _ _ hx hy]
  · -- swizzled, then back: every index is the Morton index of a texel
    intro output' i hi
    rw [hw, hh] at hi
    obtain ⟨x, hx, y, hy, rfl⟩ := exists_morton_eq hi
    rw [convertLinearSwizzle_linear_apply hT hw hh hp _ _ hx hy,
      convertLinearSwizzle_swizzled_apply hT hw hh hp _ _ hx hy]
  · intro depth
    exact convertLinearSwizzle3d_apply hT hw hh (hp ▸ pitch.toNat_lt) depth input output

theorem convert_linear_swizzle_morton_4x2 :
    0 < 4 ∧ (4 : UInt16).toNat = 2 ^ 2 ∧ (2 : UInt16).toNat = 2 ^ 1 ∧
      (16 : UInt32).toNat = (4 : UInt16).toNat * 4 ∧
      convertLinearSwizzle false 4 id (fun _ => 0) 4 2 16 (morton (min 2 1) 1 1) =
        id (1 * (4 : UInt16).toNat + 1) :=
  ⟨by decide, rfl, rfl, rfl,
    ((convert_linear_swizzle_morton 4 (by decide) 4 2 16 2 1 rfl rfl rfl id fun _ => 0).1 1 (by decide) 1
      (by decide)).2⟩

end Rpcs3.Rsx.Swizzle
