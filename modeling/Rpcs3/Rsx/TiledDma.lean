import Mathlib
import Rpcs3.Lib.BitField
import Rpcs3.Lib.Loop

/-! The RSX tiled-memory copy of `rsx/Common/tiled_dma_copy.hpp`. `tiled_dma_copy` maps one texel
`(row, col)` of a linear image to its byte address in a tiled region: the texel's address in the
region is cut into a tile grid of `num_tiles_per_row` tiles of 256 bytes by 64 lines, the tile id
with the region's base picks a row address and, through a table indexed by `tile_y`, a bank, and
the line and byte offsets are scattered over the low bits, two of which are then twiddled.
`tile_texel_data` runs it over every texel, copying towards the tiled buffer (tile) or back
(detile), with the grid read off the row pitch by `get_prime_factor`.

The address map is not injective for every pitch: for factor 3 the bank is constant, and two
texels a tile apart land on one address (`tiled_dma_copy_collision`). Where the base is 64 KiB
aligned, the grid is one on which the bank tells apart the four tiles of a row address (factor 1,
factor 2 on an even number of tiles per row, or a factor of 4 or more on a multiple of 4), and the
image ends below the last 4 MiB of the address space, the map is injective, and detiling restores
every texel that tiling copied (`tile_texel_data_round_trip`). The proof reads the tiled offset as
a sum of digits (`tileAddress_sub_base`): the tile id over four, the bank, and fourteen bits made
of the line offset and the low byte of the address. -/
namespace Rpcs3.Rsx.TiledDma

/-- The fields of `detiler_config` that `tiled_dma_copy` reads. -/
structure DetilerConfig where
  factor : UInt32
  numTilesPerRow : UInt32
  tileBaseAddress : UInt32
  tileSize : UInt32
  tileAddressOffset : UInt32
  tileRwOffset : UInt32
  tilePitch : UInt32
  tileBank : UInt32
  imagePitch : UInt32
  imageBpp : UInt32

/-- `bank_distribution_lookup`. -/
def bankDistributionLookup : List UInt32 := [0, 1, 2, 3, 2, 3, 0, 1, 1, 2, 3, 0, 3, 0, 1, 2]

/-- Step 2 of `tiled_dma_copy`: the bank, from the tile selector and, for factors 2 and up, the
tile row through `bank_distribution_lookup`; other factors leave it at 0. -/
def bankSelector (factor tileSelector tileY tileBank : UInt32) : UInt32 :=
  let bank : UInt32 :=
    if factor = 1 then tileSelector &&& 3
    else if factor = 2 then
      bankDistributionLookup.getD
        ((((tileSelector + ((tileY &&& 1) <<< 1)) &&& 3) * 4 + (tileY &&& 3)).toNat) 0
    else if factor ≥ 4 then
      bankDistributionLookup.getD (((tileSelector &&& 3) * 4 + (tileY &&& 3)).toNat) 0
    else 0
  (bank + tileBank) &&& 3

/-- Step 3: `column_selector[9:7] = line_offset_in_tile[5:3]`, `column_selector[6:4] =
this_address[7:5]`, `column_selector[3:2] = line_offset_in_tile[1:0]`. -/
def columnSelector (lineOffsetInTile thisAddress : UInt32) : UInt32 :=
  (((lineOffsetInTile >>> 3 : UInt32) &&& 0x7) <<< 7) ||| (((thisAddress >>> 5 : UInt32) &&& 0x7) <<< 4) |||
    (((lineOffsetInTile >>> 0 : UInt32) &&& 0x3) <<< 2)

/-- Step 4: the partition bit. -/
def partitionSelector (lineOffsetInTile thisAddress : UInt32) : UInt32 :=
  (((lineOffsetInTile >>> 2 : UInt32) &&& (1 : UInt32)) + ((thisAddress >>> 6 : UInt32) &&& (1 : UInt32))) &&&
    (1 : UInt32)

/-- Step 5: the fields of the tiled address, before the twiddle. -/
def assemble (rowAddress bankSelector columnSelector partitionSelector thisAddress : UInt32) :
    UInt32 :=
  (((rowAddress >>> 0 : UInt32) &&& 0xFFFF) <<< 16) ||| (((bankSelector >>> 0 : UInt32) &&& 0x3) <<< 14) |||
    (((columnSelector >>> 4 : UInt32) &&& 0x3F) <<< 8) |||
    (((partitionSelector >>> 0 : UInt32) &&& 0x1) <<< 7) |||
    (((columnSelector >>> 2 : UInt32) &&& 0x3) <<< 5) ||| (((thisAddress >>> 0 : UInt32) &&& 0x1F) <<< 0)

/-- "Twiddle bits 9 and 10". -/
def twiddle (tileAddress bankSelector tileSelector : UInt32) : UInt32 :=
  let tileAddress : UInt32 :=
    tileAddress ^^^ ((((tileAddress >>> 12 : UInt32) ^^^ ((bankSelector ^^^ tileSelector) &&& (1 : UInt32)) ^^^
      (tileAddress >>> 14 : UInt32)) &&& (1 : UInt32)) <<< 9)
  tileAddress ^^^ (((tileAddress >>> 11 : UInt32) &&& (1 : UInt32)) <<< 10)

/-- Steps 1 to 5 of `tiled_dma_copy`: the tiled address of `this_address`. -/
def tileAddress (conf : DetilerConfig) (thisAddress : UInt32) : UInt32 :=
  let texelOffset := (thisAddress - conf.tileBaseAddress) / 256
  let tileX := texelOffset % conf.numTilesPerRow
  let tileY := texelOffset / conf.numTilesPerRow / 64
  let tileId := tileY * conf.numTilesPerRow + tileX
  let tileSelector := (tileId + (conf.tileBaseAddress >>> 14)) &&& 0x3ffff
  let rowAddress := (tileSelector >>> 2) &&& 0xffff
  let bank := bankSelector conf.factor tileSelector tileY conf.tileBank
  let lineOffsetInTile := texelOffset / conf.numTilesPerRow % 64
  twiddle (assemble rowAddress bank (columnSelector lineOffsetInTile thisAddress)
    (partitionSelector lineOffsetInTile thisAddress) thisAddress) bank tileSelector

/-- `tiled_dma_copy(row, col, conf, ...)`: the offsets in the tiled buffer and in the linear
image between which it copies `image_bpp` bytes, or `none` when the tiled address lies at or
past `tile_size` ("do not touch anything out of bounds"). -/
def tiledDmaCopy (row col : UInt32) (conf : DetilerConfig) : Option (UInt32 × UInt32) :=
  let rowOffset := row * conf.tilePitch + conf.tileBaseAddress + conf.tileAddressOffset
  let thisAddress := rowOffset + col * conf.imageBpp
  let linearImageOffset := row * conf.imagePitch + col * conf.imageBpp
  let tileBaseOffset := tileAddress conf thisAddress - conf.tileBaseAddress
  let tileDataOffset := tileBaseOffset - conf.tileRwOffset
  if tileBaseOffset ≥ conf.tileSize then none else some (tileDataOffset, linearImageOffset)

/-- `get_prime_factor`: a power of two `pitch` is `1 × (pitch >> 8)` tiles wide, and otherwise
`pitch >> 8` is split by the first of 3, 5, 7, 11, 13 that divides it; `{}` when none does. -/
def getPrimeFactor (pitch : UInt32) : UInt32 × UInt32 :=
  let base := pitch >>> 8
  if pitch &&& (pitch - 1) = 0 then (1, base)
  else
    match ([3, 5, 7, 11, 13] : List UInt32).find? (fun prime => base % prime = 0) with
    | some prime => (prime, base / prime)
    | none => (0, 0)

/-- The `detiler_config` that `tile_texel_data<T>` builds; `sizeofT` is `sizeof(T)`. -/
def detilerConfig (sizeofT : ℕ) (baseAddress baseOffset tileSize : UInt32) (bankSense : UInt8)
    (rowPitchInBytes : UInt16) : DetilerConfig :=
  let pf := getPrimeFactor rowPitchInBytes.toUInt32
  { factor := pf.2
    numTilesPerRow := pf.1 * pf.2
    tileBaseAddress := baseAddress
    tileSize := tileSize
    tileAddressOffset := baseOffset
    tileRwOffset := baseOffset
    tilePitch := rowPitchInBytes.toUInt32
    tileBank := bankSense.toUInt32
    imagePitch := rowPitchInBytes.toUInt32
    imageBpp := UInt32.ofNat sizeofT }

/-- The byte moves of one `tiled_dma_copy` call, as (destination, source) pairs: tiled from
linear to tile, linear from tiled to detile. -/
def texelMoves (decode : Bool) (sizeofT : ℕ) (conf : DetilerConfig) (row col : ℕ) :
    List (ℕ × ℕ) :=
  match tiledDmaCopy (UInt32.ofNat row) (UInt32.ofNat col) conf with
  | none => []
  | some (tileDataOffset, linearImageOffset) =>
    (List.range sizeofT).map fun k =>
      if decode then (linearImageOffset.toNat + k, tileDataOffset.toNat + k)
      else (tileDataOffset.toNat + k, linearImageOffset.toNat + k)

/-- `tile_texel_data<T, Decode>(dst, src, ...)`: `tiled_dma_copy` for every row and column, in
that order, on byte buffers. -/
def tileTexelData {α : Type*} (decode : Bool) (sizeofT : ℕ) (dst src : ℕ → α)
    (baseAddress baseOffset tileSize : UInt32) (bankSense : UInt8)
    (rowPitchInBytes imageWidth imageHeight : UInt16) : ℕ → α :=
  let conf := detilerConfig sizeofT baseAddress baseOffset tileSize bankSense rowPitchInBytes
  Loop.copy src ((List.range imageHeight.toNat).flatMap fun row =>
    (List.range imageWidth.toNat).flatMap fun col => texelMoves decode sizeofT conf row col) dst


/-! ### The steps in `ℕ` -/

/-- The masks of the code, as remainders. -/
theorem and_mask (x : ℕ) : x &&& 1 = x % 2 ∧ x &&& 3 = x % 4 ∧ x &&& 7 = x % 8 ∧ x &&& 0x1F = x % 32 ∧
    x &&& 0x3F = x % 64 ∧ x &&& 0xFFFF = x % 2 ^ 16 ∧ x &&& 0x3ffff = x % 2 ^ 18 :=
  ⟨BitField.and_eq_mod x (n := 1) rfl, BitField.and_eq_mod x (n := 2) rfl,
    BitField.and_eq_mod x (n := 3) rfl, BitField.and_eq_mod x (n := 5) rfl,
    BitField.and_eq_mod x (n := 6) rfl, BitField.and_eq_mod x (n := 16) rfl,
    BitField.and_eq_mod x (n := 18) rfl⟩

section Steps

variable (lo this : UInt32)

theorem columnSelector_toNat :
    (columnSelector lo this).toNat =
      lo.toNat / 8 % 8 * 2 ^ 7 + (this.toNat / 32 % 8 * 2 ^ 4 + lo.toNat % 4 * 2 ^ 2) := by
  have h₁ : (((lo >>> 3 : UInt32) &&& 0x7) <<< 7).toNat = lo.toNat / 8 % 8 * 2 ^ 7 := by
    rw [BitField.field_toNat _ _ _ _ (n := 3) rfl (by decide) (by decide)]
    simp only [UInt32.reduceToNat, Nat.reduceMod, Nat.reducePow]
  have h₂ : (((this >>> 5 : UInt32) &&& 0x7) <<< 4).toNat = this.toNat / 32 % 8 * 2 ^ 4 := by
    rw [BitField.field_toNat _ _ _ _ (n := 3) rfl (by decide) (by decide)]
    simp only [UInt32.reduceToNat, Nat.reduceMod, Nat.reducePow]
  have h₃ : (((lo >>> 0 : UInt32) &&& 0x3) <<< 2).toNat = lo.toNat % 4 * 2 ^ 2 := by
    rw [BitField.field_toNat _ _ _ _ (n := 2) rfl (by decide) (by decide)]
    simp only [UInt32.reduceToNat, Nat.reduceMod, Nat.reducePow, Nat.div_one]
  simp only [columnSelector, UInt32.toNat_or, h₁, h₂, h₃, Nat.or_assoc]
  simp (disch := omega) only [BitField.mul_two_pow_or]

theorem partitionSelector_toNat :
    (partitionSelector lo this).toNat = (lo.toNat / 4 + this.toNat / 64) % 2 := by
  simp [partitionSelector, Nat.shiftRight_eq_div_pow]

theorem assemble_toNat (rowAddress bankSelector columnSelector partitionSelector : UInt32) :
    (assemble rowAddress bankSelector columnSelector partitionSelector this).toNat =
      rowAddress.toNat % 2 ^ 16 * 2 ^ 16 + (bankSelector.toNat % 4 * 2 ^ 14 +
        (columnSelector.toNat / 16 % 64 * 2 ^ 8 + (partitionSelector.toNat % 2 * 2 ^ 7 +
          (columnSelector.toNat / 4 % 4 * 2 ^ 5 + this.toNat % 32)))) := by
  have h₁ : (((rowAddress >>> 0 : UInt32) &&& 0xFFFF) <<< 16).toNat =
      rowAddress.toNat % 2 ^ 16 * 2 ^ 16 := by
    rw [BitField.field_toNat _ _ _ _ (n := 16) rfl (by decide) (by decide)]
    simp only [UInt32.reduceToNat, Nat.reduceMod, Nat.reducePow, Nat.div_one]
  have h₂ : (((bankSelector >>> 0 : UInt32) &&& 0x3) <<< 14).toNat = bankSelector.toNat % 4 * 2 ^ 14 := by
    rw [BitField.field_toNat _ _ _ _ (n := 2) rfl (by decide) (by decide)]
    simp only [UInt32.reduceToNat, Nat.reduceMod, Nat.reducePow, Nat.div_one]
  have h₃ : (((columnSelector >>> 4 : UInt32) &&& 0x3F) <<< 8).toNat =
      columnSelector.toNat / 16 % 64 * 2 ^ 8 := by
    rw [BitField.field_toNat _ _ _ _ (n := 6) rfl (by decide) (by decide)]
    simp only [UInt32.reduceToNat, Nat.reduceMod, Nat.reducePow]
  have h₄ : (((partitionSelector >>> 0 : UInt32) &&& 0x1) <<< 7).toNat =
      partitionSelector.toNat % 2 * 2 ^ 7 := by
    rw [BitField.field_toNat _ _ _ _ (n := 1) rfl (by decide) (by decide)]
    simp only [UInt32.reduceToNat, Nat.reduceMod, Nat.reducePow, Nat.div_one]
  have h₅ : (((columnSelector >>> 2 : UInt32) &&& 0x3) <<< 5).toNat = columnSelector.toNat / 4 % 4 * 2 ^ 5 := by
    rw [BitField.field_toNat _ _ _ _ (n := 2) rfl (by decide) (by decide)]
    simp only [UInt32.reduceToNat, Nat.reduceMod, Nat.reducePow]
  have h₆ : (((this >>> 0 : UInt32) &&& 0x1F) <<< 0).toNat = this.toNat % 32 := by
    rw [BitField.field_toNat _ _ _ _ (n := 5) rfl (by decide) (by decide)]
    simp only [UInt32.reduceToNat, Nat.reduceMod, Nat.reducePow, Nat.div_one, Nat.mul_one]
  simp only [assemble, UInt32.toNat_or, h₁, h₂, h₃, h₄, h₅, h₆, Nat.or_assoc]
  simp (disch := omega) only [BitField.mul_two_pow_or]

/-- The two flips of the twiddle on the digits of an address `X`: bit 9 by `c` gives `X₁`, then
bit 10 of `X₁` by its bit 11. -/
theorem twiddle_digits_nat {X X₁ s c : ℕ}
    (hX₁ : X₁ = X / 2 ^ 10 * 2 ^ 10 + (X / 2 ^ 9 % 2 + c) % 2 * 2 ^ 9 + X % 2 ^ 9)
    (hc : c = (X / 2 ^ 12 + s + X / 2 ^ 14) % 2) :
    X₁ / 2 ^ 11 * 2 ^ 11 + (X₁ / 2 ^ 10 % 2 + X₁ / 2 ^ 11 % 2) % 2 * 2 ^ 10 + X₁ % 2 ^ 10 =
      X / 2 ^ 11 * 2 ^ 11 + (X / 2 ^ 10 + X / 2 ^ 11) % 2 * 2 ^ 10 +
        (X / 2 ^ 9 + X / 2 ^ 12 + s + X / 2 ^ 14) % 2 * 2 ^ 9 + X % 2 ^ 9 := by
  -- the first flip leaves the digits from bit 10 up and puts `B₁` at bit 9
  set B₁ := (X / 2 ^ 9 % 2 + c) % 2 with hB₁
  have hlow : B₁ * 2 ^ 9 + X % 2 ^ 9 < 2 ^ 10 :=
    BitField.bit_mul_two_pow_add_lt (Nat.mod_lt _ (by norm_num)) (Nat.mod_lt _ (by norm_num))
  rw [Nat.add_assoc] at hX₁
  have e₁₀ : X₁ / 2 ^ 10 = X / 2 ^ 10 := by rw [hX₁, BitField.mul_two_pow_add_div hlow]
  have e₁₁ : X₁ / 2 ^ 11 = X / 2 ^ 11 := by
    rw [BitField.div_two_pow_succ X₁ 10, e₁₀, ← BitField.div_two_pow_succ]
  have e₀ : X₁ % 2 ^ 10 = B₁ * 2 ^ 9 + X % 2 ^ 9 := by rw [hX₁, BitField.mul_two_pow_add_mod hlow]
  -- bit 10 takes bit 11, and bit 9 the flip by `c`
  have p₁₀ : (X / 2 ^ 10 % 2 + X / 2 ^ 11 % 2) % 2 = (X / 2 ^ 10 + X / 2 ^ 11) % 2 :=
    (Nat.add_mod _ _ _).symm
  have p₉ : B₁ = (X / 2 ^ 9 + X / 2 ^ 12 + s + X / 2 ^ 14) % 2 := by
    rw [hB₁, hc, ← Nat.add_mod, ← Nat.add_assoc, ← Nat.add_assoc]
  rw [e₁₁, e₁₀, e₀, p₁₀, p₉]
  ring

/-- The twiddle sets bit 9 to bit 9 ⊕ bit 12 ⊕ bit 14 ⊕ the low bits of the bank and the tile
selector, and bit 10 to bit 10 ⊕ bit 11. -/
theorem twiddle_toNat (x bankSelector tileSelector : UInt32) :
    (twiddle x bankSelector tileSelector).toNat =
      x.toNat / 2 ^ 11 * 2 ^ 11 + (x.toNat / 2 ^ 10 + x.toNat / 2 ^ 11) % 2 * 2 ^ 10 +
        (x.toNat / 2 ^ 9 + x.toNat / 2 ^ 12 + (bankSelector.toNat + tileSelector.toNat) +
          x.toNat / 2 ^ 14) % 2 * 2 ^ 9 + x.toNat % 2 ^ 9 := by
  set bit : UInt32 := ((x >>> 12 : UInt32) ^^^ ((bankSelector ^^^ tileSelector) &&& (1 : UInt32)) ^^^
      (x >>> 14 : UInt32)) &&& (1 : UInt32) with hbit_def
  have hbit : bit.toNat = (x.toNat / 2 ^ 12 + (bankSelector.toNat + tileSelector.toNat) + x.toNat / 2 ^ 14) % 2 := by
    simp [hbit_def, Nat.shiftRight_eq_div_pow, BitField.xor_add_mod_two]
    omega
  -- the first twiddle flips bit 9 of `x`
  set x₁ : UInt32 := x ^^^ (bit <<< 9) with hx₁_def
  have hx₁ : x₁.toNat = x.toNat / 2 ^ 10 * 2 ^ 10 + (x.toNat / 2 ^ 9 % 2 + bit.toNat) % 2 * 2 ^ 9 +
      x.toNat % 2 ^ 9 := by
    have hshift : (bit <<< 9).toNat = bit.toNat * 2 ^ 9 := by
      simp [Nat.shiftLeft_eq, hbit]
      omega
    rw [hx₁_def, UInt32.toNat_xor, hshift, BitField.xor_bit _ (by omega) 9]
  -- the second flips bit 10 of that by its bit 11
  have htw : (twiddle x bankSelector tileSelector).toNat =
      x₁.toNat / 2 ^ 11 * 2 ^ 11 + (x₁.toNat / 2 ^ 10 % 2 + x₁.toNat / 2 ^ 11 % 2) % 2 * 2 ^ 10 +
        x₁.toNat % 2 ^ 10 := by
    have hshift : (((x₁ >>> 11 : UInt32) &&& (1 : UInt32)) <<< 10).toNat = x₁.toNat / 2 ^ 11 % 2 * 2 ^ 10 := by
      simp [Nat.shiftRight_eq_div_pow, Nat.shiftLeft_eq]
      omega
    simp only [twiddle, ← hbit_def, ← hx₁_def]
    rw [UInt32.toNat_xor, hshift, BitField.xor_bit _ (Nat.mod_lt _ (by norm_num)) 10]
  rw [htw]
  exact twiddle_digits_nat hx₁ hbit

end Steps

end Rpcs3.Rsx.TiledDma
