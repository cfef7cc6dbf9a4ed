import Mathlib
import Rpcs3.Rsx.TiledDma

/-! The tiled address of `tiled_dma_copy` read as digits, and what follows from it: where the
grid factor lets the bank tell apart the four tiles that share a row address, no two texels of an
image share a tiled byte, and detiling what tiling wrote gives the image back. The pitches that
`cellGcmGetTiledPitchSize` (cellGcmSys.cpp) hands out for tiled regions all have such grids. -/
namespace Rpcs3.Rsx.TiledDma

/-! ### The tiled offset as digits -/

/-- The bank of step 2 in `ℕ`, from the low two bits `i` of the tile selector and `j` of the
tile row. -/
def bankOf (factor i j : ℕ) : ℕ :=
  if factor = 1 then i
  else if factor = 2 then (bankDistributionLookup.getD ((i + 2 * (j % 2)) % 4 * 4 + j) 0).toNat
  else if 4 ≤ factor then (bankDistributionLookup.getD (i * 4 + j) 0).toNat
  else 0

/-- The tile row of the byte at offset `a` of the region, for `tpr` tiles per row. -/
def tileRowOf (tpr a : ℕ) : ℕ := a / 256 / tpr / 64

/-- The tile id of the byte at offset `a`. -/
def tileIdOf (tpr a : ℕ) : ℕ := tileRowOf tpr a * tpr + a / 256 % tpr

/-- The line of the byte at offset `a` in its tile. -/
def lineOf (tpr a : ℕ) : ℕ := a / 256 / tpr % 64

/-- The fourteen low bits of the tiled address: the line in the tile and the low byte of the
address, with bits 9 and 10 twiddled by the parity of the tile id. -/
def inTile (line byte parity : ℕ) : ℕ :=
  line / 8 * 2 ^ 11 + (byte / 128 + line / 8) % 2 * 2 ^ 10 +
    (byte / 64 + line / 16 + parity) % 2 * 2 ^ 9 + byte / 32 % 2 * 2 ^ 8 +
    (line / 4 + byte / 64) % 2 * 2 ^ 7 + line % 4 * 2 ^ 5 + byte % 32

/-- The offset from the region's base at which `tiled_dma_copy` puts the byte at offset `a`:
the tile id over four, the bank, and the bits in the tile. -/
def tileOffset (factor tpr bank a : ℕ) : ℕ :=
  tileIdOf tpr a / 4 * 2 ^ 16 +
    (bankOf factor (tileIdOf tpr a % 4) (tileRowOf tpr a % 4) + bank) % 4 * 2 ^ 14 +
    inTile (lineOf tpr a) (a % 256) (tileIdOf tpr a % 2)

theorem bankSelector_toNat (factor tileSelector tileY tileBank : UInt32) :
    (bankSelector factor tileSelector tileY tileBank).toNat =
      (bankOf factor.toNat (tileSelector.toNat % 4) (tileY.toNat % 4) + tileBank.toNat) % 4 := by
  have hadd : ∀ bank : UInt32, ((bank + tileBank) &&& 3).toNat = (bank.toNat + tileBank.toNat) % 4 := by
    intro bank
    simp [and_mask]
  simp only [bankSelector, hadd]
  congr 2
  unfold bankOf
  by_cases h1 : factor = 1
  · subst h1
    simp [and_mask]
  have h1' : factor.toNat ≠ 1 := fun h => h1 (UInt32.toNat_inj.1 h)
  by_cases h2 : factor = 2
  · subst h2
    have hidx : ((((tileSelector + ((tileY &&& 1) <<< 1)) &&& 3) * 4 + (tileY &&& 3)).toNat) =
        (tileSelector.toNat % 4 + 2 * (tileY.toNat % 4 % 2)) % 4 * 4 + tileY.toNat % 4 := by
      simp [and_mask, Nat.shiftLeft_eq]
      rw [Nat.mod_eq_of_lt (by omega)]
      omega
    simp [hidx]
  have h2' : factor.toNat ≠ 2 := fun h => h2 (UInt32.toNat_inj.1 h)
  by_cases h4 : factor ≥ 4
  · have h4' : 4 ≤ factor.toNat := UInt32.le_iff_toNat_le.1 h4
    have hidx : (((tileSelector &&& 3) * 4 + (tileY &&& 3)).toNat) =
        tileSelector.toNat % 4 * 4 + tileY.toNat % 4 := by
      simp [and_mask]
      omega
    simp [h1, h2, h4, h1', h2', h4', hidx]
  · have h4' : ¬ 4 ≤ factor.toNat := fun h => h4 (UInt32.le_iff_toNat_le.2 h)
    simp [h1, h2, h4, h1', h2', h4']

/-- The twiddle on an address given by its digits around bits 9 to 14. -/
theorem twiddle_digits (x bankSelector tileSelector : UInt32) {H hi b₁₀ b₉ r : ℕ}
    (hx : x.toNat = H * 2 ^ 14 + hi * 2 ^ 11 + b₁₀ * 2 ^ 10 + b₉ * 2 ^ 9 + r) (hhi : hi < 8)
    (hb₁₀ : b₁₀ < 2) (hb₉ : b₉ < 2) (hr : r < 2 ^ 9) :
    (twiddle x bankSelector tileSelector).toNat =
      H * 2 ^ 14 + hi * 2 ^ 11 + (b₁₀ + hi) % 2 * 2 ^ 10 +
        (b₉ + hi / 2 + (bankSelector.toNat + tileSelector.toNat) + H) % 2 * 2 ^ 9 + r := by
  -- the quotients of the digits above bit 9, one bit at a time
  have q₁₀ : (H * 32 + hi * 4 + b₁₀ * 2 + b₉) / 2 = H * 16 + hi * 2 + b₁₀ := by omega
  have q₁₁ : (H * 16 + hi * 2 + b₁₀) / 2 = H * 8 + hi := by omega
  have q₁₂ : (H * 8 + hi) / 2 = H * 4 + hi / 2 := by omega
  have q₁₄ : (H * 4 + hi / 2) / 2 / 2 = H := by omega
  obtain ⟨e₉, e⟩ := BitField.digits_of_eq
    (show x.toNat = (H * 32 + hi * 4 + b₁₀ * 2 + b₉) * 2 ^ 9 + r by rw [hx]; ring) hr
  have e₁₀ : x.toNat / 2 ^ 10 = H * 16 + hi * 2 + b₁₀ := by rw [BitField.div_two_pow_succ, e₉, q₁₀]
  have e₁₁ : x.toNat / 2 ^ 11 = H * 8 + hi := by rw [BitField.div_two_pow_succ, e₁₀, q₁₁]
  have e₁₂ : x.toNat / 2 ^ 12 = H * 4 + hi / 2 := by rw [BitField.div_two_pow_succ, e₁₁, q₁₂]
  have e₁₄ : x.toNat / 2 ^ 14 = H := by
    rw [BitField.div_two_pow_succ, BitField.div_two_pow_succ, e₁₂, q₁₄]
  rw [twiddle_toNat, e₁₁, e₁₀, e₉, e₁₂, e₁₄, e]
  clear e₁₁ e₁₀ e₉ e₁₂ e₁₄ e hx q₁₀ q₁₁ q₁₂ q₁₄
  -- bits 10 and 9 keep only the parities of what the twiddle adds
  have p₁₀ : (H * 16 + hi * 2 + b₁₀ + (H * 8 + hi)) % 2 = (b₁₀ + hi) % 2 := by omega
  have p₉ : (H * 32 + hi * 4 + b₁₀ * 2 + b₉ + (H * 4 + hi / 2) +
      (bankSelector.toNat + tileSelector.toNat) + H) % 2 =
      (b₉ + hi / 2 + (bankSelector.toNat + tileSelector.toNat) + H) % 2 := by
    omega
  rw [p₁₀, p₉]
  ring

/-- The assembled address, cut where the twiddle reads it. -/
theorem assemble_digits (rowAddress bankSelector lo this : UInt32) (hlo : lo.toNat < 64) :
    (assemble rowAddress bankSelector (columnSelector lo this) (partitionSelector lo this) this).toNat =
      (rowAddress.toNat % 2 ^ 16 * 4 + bankSelector.toNat % 4) * 2 ^ 14 + lo.toNat / 8 * 2 ^ 11 +
        this.toNat / 128 % 2 * 2 ^ 10 + this.toNat / 64 % 2 * 2 ^ 9 +
        (this.toNat / 32 % 2 * 2 ^ 8 + (lo.toNat / 4 + this.toNat / 64) % 2 * 2 ^ 7 +
          lo.toNat % 4 * 2 ^ 5 + this.toNat % 32) := by
  -- the column selector cut at bits 2 and 4
  have hl₈ : lo.toNat / 8 < 8 := by omega
  have hhigh : lo.toNat / 8 * 8 + this.toNat / 32 % 8 < 64 := by omega
  have hcs : (columnSelector lo this).toNat =
      (lo.toNat / 8 * 8 + this.toNat / 32 % 8) * 2 ^ 4 + lo.toNat % 4 * 2 ^ 2 := by
    rw [columnSelector_toNat, Nat.mod_eq_of_lt hl₈]
    ring
  have hcs₁₆ : (columnSelector lo this).toNat / 16 % 64 = lo.toNat / 8 * 8 + this.toNat / 32 % 8 := by
    have hlow : lo.toNat % 4 * 2 ^ 2 < 2 ^ 4 := by omega
    rw [show (16 : ℕ) = 2 ^ 4 by norm_num, hcs, BitField.mul_two_pow_add_div hlow,
      Nat.mod_eq_of_lt hhigh]
  have hcs₄ : (columnSelector lo this).toNat / 4 % 4 = lo.toNat % 4 := by
    have hc : lo.toNat % 4 < 4 := Nat.mod_lt _ (by norm_num)
    rw [hcs]
    clear hcs hhigh hl₈ hlo
    generalize lo.toNat / 8 * 8 + this.toNat / 32 % 8 = A
    generalize lo.toNat % 4 = c at hc ⊢
    omega
  -- bits 5 to 7 of the address, one by one
  have hdig : this.toNat / 32 % 8 =
      this.toNat / 128 % 2 * 4 + this.toNat / 64 % 2 * 2 + this.toNat / 32 % 2 := by
    have h₆₄ : this.toNat / 64 = this.toNat / 32 / 2 := by
      rw [Nat.div_div_eq_div_mul]
    have h₁₂₈ : this.toNat / 128 = this.toNat / 32 / 4 := by
      rw [Nat.div_div_eq_div_mul]
    rw [h₆₄, h₁₂₈]
    clear hcs₁₆ hcs₄ hcs h₆₄ h₁₂₈
    generalize this.toNat / 32 = y
    omega
  rw [assemble_toNat, hcs₁₆, hcs₄, partitionSelector_toNat, Nat.mod_mod, hdig]
  ring

/-- The tiled address of steps 1 to 5 from its row address, bank, line and address. -/
theorem twiddle_assemble (rowAddress bankSelector tileSelector lo this : UInt32)
    (hlo : lo.toNat < 64) (hbank : bankSelector.toNat < 4) :
    (twiddle (assemble rowAddress bankSelector (columnSelector lo this) (partitionSelector lo this)
      this) bankSelector tileSelector).toNat =
      rowAddress.toNat % 2 ^ 16 * 2 ^ 16 + bankSelector.toNat * 2 ^ 14 +
        inTile lo.toNat (this.toNat % 256) (tileSelector.toNat % 2) := by
  have hl₈ : lo.toNat / 8 < 8 := by omega
  have hlow : this.toNat / 32 % 2 * 2 ^ 8 + (lo.toNat / 4 + this.toNat / 64) % 2 * 2 ^ 7 +
      lo.toNat % 4 * 2 ^ 5 + this.toNat % 32 < 2 ^ 9 := by
    omega
  rw [twiddle_digits _ _ _ (assemble_digits rowAddress bankSelector lo this hlo) hl₈
    (Nat.mod_lt _ (by norm_num)) (Nat.mod_lt _ (by norm_num)) hlow]
  -- the digits of the low byte, as `inTile` reads them
  have d₇ : this.toNat % 256 / 128 = this.toNat / 128 % 2 := Nat.mod_mul_right_div_self _ 128 2
  have d₆ : this.toNat % 256 / 64 = this.toNat / 64 % 4 := Nat.mod_mul_right_div_self _ 64 4
  have d₅ : this.toNat % 256 / 32 % 2 = this.toNat / 32 % 2 := by
    rw [show 256 = 32 * 8 by rfl, Nat.mod_mul_right_div_self, Nat.mod_mod_of_dvd _ (by norm_num)]
  have d₀ : this.toNat % 256 % 32 = this.toNat % 32 := Nat.mod_mod_of_dvd _ (by norm_num)
  have l₁₆ : lo.toNat / 8 / 2 = lo.toNat / 16 := Nat.div_div_eq_div_mul _ _ _
  unfold inTile
  rw [d₇, d₆, d₅, d₀, l₁₆, Nat.mod_eq_of_lt hbank]
  clear d₇ d₆ d₅ d₀ l₁₆ hlow hl₈ hlo hbank
  -- bits 9 and 7 keep only parities: the bank counts twice, the row address is even
  have p₉ : (this.toNat / 64 % 2 + lo.toNat / 16 + (bankSelector.toNat + tileSelector.toNat) +
      (rowAddress.toNat % 2 ^ 16 * 4 + bankSelector.toNat)) % 2 =
      (this.toNat / 64 % 4 + lo.toNat / 16 + tileSelector.toNat % 2) % 2 := by
    generalize this.toNat / 64 = u
    generalize rowAddress.toNat % 2 ^ 16 = w
    omega
  have p₇ : (lo.toNat / 4 + this.toNat / 64) % 2 = (lo.toNat / 4 + this.toNat / 64 % 4) % 2 := by
    generalize this.toNat / 64 = u
    omega
  rw [p₉, p₇]
  ring

/-- The tile selector keeps the low bits of the tile id: the base adds a multiple of 4. -/
theorem tileSelector_mod_four (t : ℕ) {B : ℕ} (hB : B % 2 ^ 16 = 0) :
    (t + B / 2 ^ 14) % 2 ^ 18 % 4 = t % 4 := by
  omega

/-- The row address is the tile id over 4 plus the page of the base. -/
theorem rowAddress_eq (t : ℕ) {B : ℕ} (hB : B % 2 ^ 16 = 0) :
    (t + B / 2 ^ 14) % 2 ^ 18 / 2 ^ 2 % 2 ^ 16 = (t / 4 + B / 2 ^ 16) % 2 ^ 16 := by
  omega

theorem inTile_lt {line : ℕ} (hline : line < 64) (byte parity : ℕ) : inTile line byte parity < 2 ^ 14 := by
  unfold inTile
  omega

/-- The hypotheses under which the tiled offset of the byte at offset `a` of the region is
`tileOffset`: a 64 KiB aligned base, 1 to 255 tiles per row, and an offset below the last 4 MiB
of the address space, which keeps the tile id below `2 ^ 18`. -/
structure Fits (conf : DetilerConfig) (a : ℕ) : Prop where
  base : conf.tileBaseAddress.toNat % 2 ^ 16 = 0
  tiles_pos : 0 < conf.numTilesPerRow.toNat
  tiles_lt : conf.numTilesPerRow.toNat < 2 ^ 8
  offset : a + 2 ^ 22 ≤ 2 ^ 32

theorem tileRowOf_mul_le (tpr a : ℕ) : tileRowOf tpr a * tpr ≤ a / 256 / 64 := by
  unfold tileRowOf
  rw [Nat.div_div_eq_div_mul (a / 256) tpr 64, Nat.mul_comm tpr 64, ← Nat.div_div_eq_div_mul]
  exact Nat.div_mul_le_self _ _

theorem tileIdOf_lt {tpr a : ℕ} (hpos : 0 < tpr) (hlt : tpr < 2 ^ 8) (ha : a + 2 ^ 22 ≤ 2 ^ 32) :
    tileIdOf tpr a < 2 ^ 18 := by
  have hrow := tileRowOf_mul_le tpr a
  have hx : a / 256 % tpr < tpr := Nat.mod_lt _ hpos
  unfold tileIdOf
  omega

/-- Steps 1 to 5 and the subtraction of the base give `tileOffset`. -/
theorem tileAddress_sub_base {conf : DetilerConfig} {a : ℕ} (h : Fits conf a) {thisAddress : UInt32}
    (hthis : thisAddress.toNat = (conf.tileBaseAddress.toNat + a) % 2 ^ 32) :
    (tileAddress conf thisAddress - conf.tileBaseAddress).toNat =
      tileOffset conf.factor.toNat conf.numTilesPerRow.toNat conf.tileBank.toNat a := by
  obtain ⟨hbase, hpos, hlt, hoff⟩ := h
  simp only [tileAddress]
  set B := conf.tileBaseAddress with hB
  set tpr := conf.numTilesPerRow with htpr
  have hid := tileIdOf_lt hpos hlt hoff
  have hrow := tileRowOf_mul_le tpr.toNat a
  have hB32 := B.toNat_lt
  -- the grid coordinates
  have hsub : (thisAddress - B).toNat = a := by
    rw [UInt32.toNat_sub, hthis]
    omega
  have htexel : ((thisAddress - B) / 256).toNat = a / 256 := by
    rw [UInt32.toNat_div, hsub]
    rfl
  have hY : ((thisAddress - B) / 256 / tpr / 64).toNat = tileRowOf tpr.toNat a := by
    simp only [UInt32.toNat_div, htexel, UInt32.reduceToNat, tileRowOf]
  have hX : ((thisAddress - B) / 256 % tpr).toNat = a / 256 % tpr.toNat := by
    rw [UInt32.toNat_mod, htexel]
  have hline : ((thisAddress - B) / 256 / tpr % 64).toNat = lineOf tpr.toNat a := by
    simp only [UInt32.toNat_mod, UInt32.toNat_div, htexel, UInt32.reduceToNat, lineOf]
  have hId : ((thisAddress - B) / 256 / tpr / 64 * tpr + (thisAddress - B) / 256 % tpr).toNat =
      tileIdOf tpr.toNat a := by
    have hmul : tileRowOf tpr.toNat a * tpr.toNat < 2 ^ 32 := by omega
    rw [UInt32.toNat_add, UInt32.toNat_mul, hY, hX, Nat.mod_eq_of_lt hmul]
    unfold tileIdOf at hid ⊢
    omega
  -- the tile selector and the row address
  have hSel : (((thisAddress - B) / 256 / tpr / 64 * tpr + (thisAddress - B) / 256 % tpr +
      (B >>> (14 : UInt32))) &&& (0x3ffff : UInt32)).toNat =
      (tileIdOf tpr.toNat a + B.toNat / 2 ^ 14) % 2 ^ 18 := by
    have hlt : tileIdOf tpr.toNat a + B.toNat / 2 ^ 14 < 2 ^ 32 := by omega
    simp only [UInt32.toNat_and, UInt32.toNat_add, hId, UInt32.toNat_shiftRight, UInt32.reduceToNat,
      Nat.reduceMod, Nat.shiftRight_eq_div_pow, and_mask, Nat.mod_eq_of_lt hlt]
  have hSel₄ := tileSelector_mod_four (tileIdOf tpr.toNat a) hbase
  have hSel₂ : (tileIdOf tpr.toNat a + B.toNat / 2 ^ 14) % 2 ^ 18 % 2 = tileIdOf tpr.toNat a % 2 := by
    rw [← Nat.mod_mod_of_dvd _ (by norm_num : 2 ∣ 4), hSel₄, Nat.mod_mod_of_dvd _ (by norm_num)]
  have hRow : ((((thisAddress - B) / 256 / tpr / 64 * tpr + (thisAddress - B) / 256 % tpr +
      (B >>> (14 : UInt32))) &&& (0x3ffff : UInt32)) >>> (2 : UInt32) &&& (0xffff : UInt32)).toNat =
      (tileIdOf tpr.toNat a / 4 + B.toNat / 2 ^ 16) % 2 ^ 16 := by
    simp only [UInt32.toNat_and, UInt32.toNat_shiftRight, hSel, UInt32.reduceToNat, Nat.reduceMod,
      Nat.shiftRight_eq_div_pow, and_mask]
    exact rowAddress_eq _ hbase
  have hbyte : thisAddress.toNat % 256 = a % 256 := by
    have hB256 : B.toNat % 256 = 0 := by
      rw [← Nat.mod_mod_of_dvd B.toNat (by norm_num : 256 ∣ 2 ^ 16), hbase, Nat.zero_mod]
    rw [hthis, Nat.mod_mod_of_dvd _ (by norm_num : 256 ∣ 2 ^ 32), Nat.add_mod, hB256, Nat.zero_add,
      Nat.mod_mod]
  have hline₆₄ : ((thisAddress - B) / 256 / tpr % 64).toNat < 64 := by
    rw [hline]
    exact Nat.mod_lt _ (by norm_num)
  have hbank₄ := (bankSelector_toNat conf.factor
    (((thisAddress - B) / 256 / tpr / 64 * tpr + (thisAddress - B) / 256 % tpr +
      (B >>> (14 : UInt32))) &&& (0x3ffff : UInt32)) ((thisAddress - B) / 256 / tpr / 64)
    conf.tileBank)
  rw [UInt32.toNat_sub, twiddle_assemble _ _ _ _ _ hline₆₄ (by rw [hbank₄]; omega), hbank₄, hRow,
    hline, hbyte, hSel, hY, hSel₄, hSel₂]
  -- what is left is the subtraction of the aligned base
  have hIT : inTile (lineOf tpr.toNat a) (a % 256) (tileIdOf tpr.toNat a % 2) < 2 ^ 14 :=
    inTile_lt (Nat.mod_lt _ (by norm_num)) _ _
  have hbank : (bankOf conf.factor.toNat (tileIdOf tpr.toNat a % 4) (tileRowOf tpr.toNat a % 4) +
      conf.tileBank.toNat) % 4 < 4 := Nat.mod_lt _ (by norm_num)
  have hq : tileIdOf tpr.toNat a / 4 < 2 ^ 16 := Nat.div_lt_of_lt_mul (hid.trans_eq (by norm_num))
  obtain ⟨Bh, hBh⟩ : ∃ Bh, B.toNat = Bh * 2 ^ 16 :=
    ⟨B.toNat / 2 ^ 16, (Nat.div_mul_cancel (Nat.dvd_of_mod_eq_zero hbase)).symm⟩
  unfold tileOffset
  rw [hBh, Nat.mul_div_cancel _ (by norm_num)]
  rw [hBh] at hB32
  generalize inTile (lineOf tpr.toNat a) (a % 256) (tileIdOf tpr.toNat a % 2) = low at hIT ⊢
  generalize (bankOf conf.factor.toNat (tileIdOf tpr.toNat a % 4) (tileRowOf tpr.toNat a % 4) +
    conf.tileBank.toNat) % 4 = bank at hbank ⊢
  generalize tileIdOf tpr.toNat a / 4 = q at hq ⊢
  clear * - hB32 hq hIT hbank
  omega

/-! ### The tiled offset is injective -/

/-- The grids on which the bank tells apart the four tiles of one row address: factor 1, where it
is the tile id mod 4; factor 2 on a grid of even width, where a group of four may straddle two
tile rows but only in its middle; and a factor of 4 or more on a grid of a width divisible by 4,
where a group never straddles. -/
def GoodGrid (factor tpr : ℕ) : Prop :=
  factor = 1 ∨ (factor = 2 ∧ 2 ∣ tpr) ∨ (4 ≤ factor ∧ 4 ∣ tpr)

instance (factor tpr : ℕ) : Decidable (GoodGrid factor tpr) := by
  unfold GoodGrid
  infer_instance

theorem GoodGrid.factor_pos {factor tpr : ℕ} (h : GoodGrid factor tpr) : 0 < factor := by
  rcases h with h | ⟨h, -⟩ | ⟨h, -⟩ <;> omega

theorem bankOf_lt (factor : ℕ) {i : ℕ} (hi : i < 4) (j : ℕ) : bankOf factor i j < 4 := by
  have hlut : ∀ k, (bankDistributionLookup.getD k 0).toNat < 4 := by
    intro k
    by_cases hk : k < 16
    · interval_cases k <;> decide
    · rw [List.getD_eq_default _ _ (by simp [bankDistributionLookup]; omega)]
      decide
  unfold bankOf
  split_ifs
  · exact hi
  · exact hlut _
  · exact hlut _
  · norm_num

/-- Factor 2: the two middle-straddling rows of a group, as a table over the group's first row
`u` and whether the group straddles (`d`). -/
theorem bankOf_two_inj : ∀ i < 4, ∀ i' < 4, ∀ u < 4, ∀ d < 2,
    bankOf 2 i (if i < 2 then u else (u + d) % 4) = bankOf 2 i' (if i' < 2 then u else (u + d) % 4) →
      i = i' := by
  decide

theorem bankOf_four_inj : ∀ i < 4, ∀ i' < 4, ∀ j < 4, bankOf 4 i j = bankOf 4 i' j → i = i' := by
  decide

theorem bankOf_of_four_le {factor : ℕ} (h : 4 ≤ factor) (i j : ℕ) : bankOf factor i j = bankOf 4 i j := by
  unfold bankOf
  have h1 : factor ≠ 1 := by omega
  have h2 : factor ≠ 2 := by omega
  simp [h, h1, h2]

/-- On a grid of even width the tile row of `t` is that of the first or of the third tile of its
group of four. -/
theorem div_of_even {tpr : ℕ} (hpos : 0 < tpr) (heven : 2 ∣ tpr) (t : ℕ) :
    t / tpr = if t % 4 < 2 then t / 4 * 4 / tpr else (t / 4 * 4 + 2) / tpr := by
  obtain ⟨k, rfl⟩ := heven
  have h₂ : t / 2 = if t % 4 < 2 then t / 4 * 4 / 2 else (t / 4 * 4 + 2) / 2 := by
    split_ifs <;> omega
  rw [← Nat.div_div_eq_div_mul, ← Nat.div_div_eq_div_mul, ← Nat.div_div_eq_div_mul, h₂]
  split_ifs <;> rfl

theorem div_succ_le {tpr : ℕ} (heven : 2 ∣ tpr) (g : ℕ) : (g * 4 + 2) / tpr ≤ g * 4 / tpr + 1 := by
  obtain ⟨k, rfl⟩ := heven
  have h₂ : (g * 4 + 2) / 2 = g * 4 / 2 + 1 := by omega
  rw [← Nat.div_div_eq_div_mul, ← Nat.div_div_eq_div_mul, h₂, Nat.succ_div]
  split_ifs <;> omega

/-- The bank and the row address together give the tile id. -/
theorem tileId_eq_of_bank {factor tpr bank t t' : ℕ} (hgrid : GoodGrid factor tpr) (hpos : 0 < tpr)
    (hq : t / 4 = t' / 4)
    (hb : (bankOf factor (t % 4) (t / tpr % 4) + bank) % 4 = (bankOf factor (t' % 4) (t' / tpr % 4) + bank) % 4) :
    t = t' := by
  have hi := bankOf_lt factor (Nat.mod_lt t (by norm_num : 0 < 4)) (t / tpr % 4)
  have hi' := bankOf_lt factor (Nat.mod_lt t' (by norm_num : 0 < 4)) (t' / tpr % 4)
  have hbank : bankOf factor (t % 4) (t / tpr % 4) = bankOf factor (t' % 4) (t' / tpr % 4) := by omega
  suffices t % 4 = t' % 4 by omega
  rcases hgrid with rfl | ⟨rfl, heven⟩ | ⟨h4, hdvd⟩
  · simpa [bankOf] using hbank
  · -- the group's rows: `u` for its first two tiles, `u + d` for its last two
    rw [div_of_even hpos heven t, div_of_even hpos heven t', ← hq] at hbank
    have hle : t / 4 * 4 / tpr ≤ (t / 4 * 4 + 2) / tpr := Nat.div_le_div_right (by omega)
    have hd := div_succ_le heven (t / 4)
    generalize t / 4 * 4 / tpr = u at hbank hle hd
    generalize (t / 4 * 4 + 2) / tpr = v at hbank hle hd
    have hrow : ∀ i, (if i < 2 then u else v) % 4 = if i < 2 then u % 4 else (u % 4 + (v - u)) % 4 := by
      intro i
      split_ifs <;> omega
    rw [hrow, hrow] at hbank
    exact bankOf_two_inj _ (Nat.mod_lt _ (by norm_num)) _ (Nat.mod_lt _ (by norm_num)) _
      (Nat.mod_lt _ (by norm_num)) _ (by omega) hbank
  · have hrow : t / tpr = t' / tpr := by
      obtain ⟨k, rfl⟩ := hdvd
      rw [← Nat.div_div_eq_div_mul, ← Nat.div_div_eq_div_mul, hq]
    rw [bankOf_of_four_le h4, bankOf_of_four_le h4, hrow] at hbank
    exact bankOf_four_inj _ (Nat.mod_lt _ (by norm_num)) _ (Nat.mod_lt _ (by norm_num)) _
      (Nat.mod_lt _ (by norm_num)) hbank

theorem lineOf_lt (tpr a : ℕ) : lineOf tpr a < 64 := Nat.mod_lt _ (by norm_num)

theorem tileIdOf_div {tpr : ℕ} (hpos : 0 < tpr) (a : ℕ) : tileIdOf tpr a / tpr = tileRowOf tpr a := by
  unfold tileIdOf
  rw [Nat.add_comm, Nat.add_mul_div_right _ _ hpos, Nat.div_eq_of_lt (Nat.mod_lt _ hpos), Nat.zero_add]

theorem tileIdOf_mod (tpr a : ℕ) : tileIdOf tpr a % tpr = a / 256 % tpr := by
  unfold tileIdOf
  rw [Nat.add_comm, Nat.add_mul_mod_self_right, Nat.mod_mod]

/-- The tile id, the line and the low byte give back the offset. -/
theorem eq_of_tileIdOf {tpr a a' : ℕ} (hpos : 0 < tpr) (hid : tileIdOf tpr a = tileIdOf tpr a')
    (hline : lineOf tpr a = lineOf tpr a') (hbyte : a % 256 = a' % 256) : a = a' := by
  have hX : ∀ a, a / 256 / tpr = tileRowOf tpr a * 64 + lineOf tpr a := by
    intro a
    unfold tileRowOf lineOf
    omega
  have hrow : tileRowOf tpr a = tileRowOf tpr a' := by
    rw [← tileIdOf_div hpos, hid, tileIdOf_div hpos]
  have hcol : a / 256 % tpr = a' / 256 % tpr := by
    rw [← tileIdOf_mod, hid, tileIdOf_mod]
  have h256 : a / 256 = a' / 256 := by
    rw [← Nat.div_add_mod' (a / 256) tpr, ← Nat.div_add_mod' (a' / 256) tpr, hX, hX, hrow, hline, hcol]
  omega

/-- Below a divisor, the quotient and the remainder are determined. -/
theorem mul_add_inj {d m m' k k' : ℕ} (hk : k < d) (hk' : k' < d) (h : d * m + k = d * m' + k') :
    m = m' ∧ k = k' := by
  have hd : 0 < d := by omega
  have hm : m = m' := by
    have hdiv := congrArg (· / d) h
    simpa [Nat.mul_add_div hd, Nat.div_eq_of_lt hk, Nat.div_eq_of_lt hk'] using hdiv
  subst hm
  omega

/-- The digits of `inTile`, each below its place's width, are determined by the sum. -/
theorem inTile_digits_eq {a b c d e f g a' b' c' d' e' f' g' : ℕ} (hb : b < 2) (hc : c < 2) (hd : d < 2)
    (he : e < 2) (hf : f < 4) (hg : g < 32) (hb' : b' < 2) (hc' : c' < 2) (hd' : d' < 2) (he' : e' < 2)
    (hf' : f' < 4) (hg' : g' < 32)
    (h : a * 2 ^ 11 + b * 2 ^ 10 + c * 2 ^ 9 + d * 2 ^ 8 + e * 2 ^ 7 + f * 2 ^ 5 + g =
      a' * 2 ^ 11 + b' * 2 ^ 10 + c' * 2 ^ 9 + d' * 2 ^ 8 + e' * 2 ^ 7 + f' * 2 ^ 5 + g') :
    a = a' ∧ b = b' ∧ c = c' ∧ d = d' ∧ e = e' ∧ f = f' ∧ g = g' := by
  -- peel the digits off from the bottom, each by the uniqueness of quotient and remainder
  have h' : 32 * (4 * (2 * (2 * (2 * (2 * a + b) + c) + d) + e) + f) + g =
      32 * (4 * (2 * (2 * (2 * (2 * a' + b') + c') + d') + e') + f') + g' := by
    convert h using 1 <;> ring
  obtain ⟨h₅, rfl⟩ := mul_add_inj hg hg' h'
  obtain ⟨h₇, rfl⟩ := mul_add_inj hf hf' h₅
  obtain ⟨h₈, rfl⟩ := mul_add_inj he he' h₇
  obtain ⟨h₉, rfl⟩ := mul_add_inj hd hd' h₈
  obtain ⟨h₁₀, rfl⟩ := mul_add_inj hc hc' h₉
  obtain ⟨rfl, rfl⟩ := mul_add_inj hb hb' h₁₀
  exact ⟨rfl, rfl, rfl, rfl, rfl, rfl, rfl⟩

/-- A line of a tile from its group of eight, bit 2 and its low two bits. -/
theorem eq_of_line_digits {x y : ℕ} (h₈ : x / 8 = y / 8) (h₄ : x / 4 % 2 = y / 4 % 2)
    (h₀ : x % 4 = y % 4) : x = y := by
  omega

/-- A byte from its bits 7, 6 and 5 and its low five bits. -/
theorem eq_of_byte_digits {x y : ℕ} (h₇ : x / 128 = y / 128) (h₆ : x / 64 % 2 = y / 64 % 2)
    (h₅ : x / 32 % 2 = y / 32 % 2) (h₀ : x % 32 = y % 32) : x = y := by
  omega

/-- The fourteen low bits tell apart the lines and bytes of one tile. -/
theorem inTile_inj {line line' byte byte' parity : ℕ} (hbyte : byte < 256) (hbyte' : byte' < 256)
    (h : inTile line byte parity = inTile line' byte' parity) :
    line = line' ∧ byte = byte' := by
  unfold inTile at h
  have h2 : 0 < 2 := by norm_num
  obtain ⟨h₁₁, h₁₀, h₉, h₈, h₇, h₅, h₀⟩ := inTile_digits_eq (Nat.mod_lt _ h2) (Nat.mod_lt _ h2)
    (Nat.mod_lt _ h2) (Nat.mod_lt _ h2) (Nat.mod_lt _ (by norm_num)) (Nat.mod_lt _ (by norm_num))
    (Nat.mod_lt _ h2) (Nat.mod_lt _ h2) (Nat.mod_lt _ h2) (Nat.mod_lt _ h2) (Nat.mod_lt _ (by norm_num))
    (Nat.mod_lt _ (by norm_num)) h
  clear h
  -- bits 10, 9 and 7 give back the bits of the byte and the line that the twiddle mixed in
  have hl₄ : line / 16 = line' / 16 := by
    rw [show 16 = 8 * 2 by rfl, ← Nat.div_div_eq_div_mul, ← Nat.div_div_eq_div_mul, h₁₁]
  rw [← h₁₁] at h₁₀
  rw [← hl₄] at h₉
  have hb₇ : byte / 128 % 2 = byte' / 128 % 2 := Nat.ModEq.add_right_cancel' _ h₁₀
  have hb₆ : byte / 64 % 2 = byte' / 64 % 2 :=
    Nat.ModEq.add_right_cancel' _ (Nat.ModEq.add_right_cancel' _ h₉)
  have hl₂ : line / 4 % 2 = line' / 4 % 2 := Nat.ModEq.add_right_cancel hb₆ h₇
  clear h₁₀ h₉ h₇
  have hb₇' : byte / 128 = byte' / 128 := by
    rwa [Nat.mod_eq_of_lt (by omega), Nat.mod_eq_of_lt (by omega)] at hb₇
  exact ⟨eq_of_line_digits h₁₁ hl₂ h₅, eq_of_byte_digits hb₇' hb₆ h₈ h₀⟩

/-- On a good grid the tiled offset is injective. -/
theorem tileOffset_inj {factor tpr bank a a' : ℕ} (hgrid : GoodGrid factor tpr) (hpos : 0 < tpr)
    (h : tileOffset factor tpr bank a = tileOffset factor tpr bank a') : a = a' := by
  unfold tileOffset at h
  have hlow := inTile_lt (lineOf_lt tpr a) (a % 256) (tileIdOf tpr a % 2)
  have hlow' := inTile_lt (lineOf_lt tpr a') (a' % 256) (tileIdOf tpr a' % 2)
  -- the three digits of the offset: the tile id over four, the bank and the bits in the tile
  have hq : tileIdOf tpr a / 4 = tileIdOf tpr a' / 4 := by omega
  have hbank : (bankOf factor (tileIdOf tpr a % 4) (tileRowOf tpr a % 4) + bank) % 4 =
      (bankOf factor (tileIdOf tpr a' % 4) (tileRowOf tpr a' % 4) + bank) % 4 := by omega
  have hin : inTile (lineOf tpr a) (a % 256) (tileIdOf tpr a % 2) =
      inTile (lineOf tpr a') (a' % 256) (tileIdOf tpr a' % 2) := by omega
  rw [← tileIdOf_div hpos a, ← tileIdOf_div hpos a'] at hbank
  have hid := tileId_eq_of_bank hgrid hpos hq hbank
  rw [hid] at hin
  obtain ⟨hline, hbyte⟩ := inTile_inj (Nat.mod_lt a (by norm_num))
    (Nat.mod_lt a' (by norm_num)) hin
  exact eq_of_tileIdOf hpos hid hline hbyte

theorem inTile_mod_32 (line byte parity : ℕ) : inTile line byte parity % 32 = byte % 32 := by
  unfold inTile
  omega

/-- Tiling keeps the five low bits of the address. -/
theorem tileOffset_mod_32 (factor tpr bank a : ℕ) : tileOffset factor tpr bank a % 32 = a % 32 := by
  have hlow := inTile_mod_32 (lineOf tpr a) (a % 256) (tileIdOf tpr a % 2)
  unfold tileOffset
  omega

/-! ### The texels of an image -/

/-- `get_prime_factor` finds nothing, or splits `pitch >> 8` into a positive prime part and a
factor whose product does not overflow. -/
theorem getPrimeFactor_cases (pitch : UInt32) :
    getPrimeFactor pitch = (0, 0) ∨
      (0 < (getPrimeFactor pitch).1.toNat ∧
        ((getPrimeFactor pitch).1 * (getPrimeFactor pitch).2).toNat =
          (getPrimeFactor pitch).1.toNat * (getPrimeFactor pitch).2.toNat ∧
        (getPrimeFactor pitch).1.toNat * (getPrimeFactor pitch).2.toNat ≤ pitch.toNat / 256) := by
  have hlt := pitch.toNat_lt
  unfold getPrimeFactor
  split_ifs with hpow
  · right
    simp [Nat.shiftRight_eq_div_pow]
  · dsimp only
    split
    · next prime hfind =>
      right
      have hmem := List.mem_of_find?_eq_some hfind
      simp only [List.mem_cons, List.not_mem_nil, or_false] at hmem
      rcases hmem with rfl | rfl | rfl | rfl | rfl <;>
        simp [UInt32.toNat_mul, Nat.shiftRight_eq_div_pow] <;> omega
    · exact .inl rfl

/-- The images on which tiling is injective and detiling undoes it: texels of 1, 2, 4, 8, 16 or
32 bytes, a 64 KiB aligned base, a pitch of whole 256-byte tile rows whose grid is a `GoodGrid`,
rows that fit in the pitch, and an image that ends 4 MiB below the top of the address space. -/
structure GoodImage (sizeofT : ℕ) (baseAddress baseOffset : UInt32)
    (rowPitchInBytes imageWidth imageHeight : UInt16) : Prop where
  bpp : sizeofT ∣ 32
  base : baseAddress.toNat % 2 ^ 16 = 0
  pitch : rowPitchInBytes.toNat % 256 = 0
  grid : GoodGrid (getPrimeFactor rowPitchInBytes.toUInt32).2.toNat
    ((getPrimeFactor rowPitchInBytes.toUInt32).1 * (getPrimeFactor rowPitchInBytes.toUInt32).2).toNat
  width : imageWidth.toNat * sizeofT ≤ rowPitchInBytes.toNat
  offset : baseOffset.toNat + imageHeight.toNat * rowPitchInBytes.toNat + 2 ^ 22 ≤ 2 ^ 32

/-- The offsets `tiled_dma_copy` returns for a texel whose address in the region fits. -/
theorem tiledDmaCopy_offsets {conf : DetilerConfig} {row col tdo lin : UInt32}
    (hfit : Fits conf (conf.tileAddressOffset.toNat + row.toNat * conf.tilePitch.toNat +
      col.toNat * conf.imageBpp.toNat))
    (h : tiledDmaCopy row col conf = some (tdo, lin)) :
    (tdo.toNat + conf.tileRwOffset.toNat) % 2 ^ 32 =
        tileOffset conf.factor.toNat conf.numTilesPerRow.toNat conf.tileBank.toNat
          (conf.tileAddressOffset.toNat + row.toNat * conf.tilePitch.toNat + col.toNat * conf.imageBpp.toNat) ∧
      lin.toNat = (row.toNat * conf.imagePitch.toNat + col.toNat * conf.imageBpp.toNat) % 2 ^ 32 := by
  simp only [tiledDmaCopy] at h
  split_ifs at h
  obtain ⟨rfl, rfl⟩ := Prod.mk.inj (Option.some.inj h)
  have hthis : (row * conf.tilePitch + conf.tileBaseAddress + conf.tileAddressOffset + col * conf.imageBpp).toNat =
      (conf.tileBaseAddress.toNat + (conf.tileAddressOffset.toNat + row.toNat * conf.tilePitch.toNat +
        col.toNat * conf.imageBpp.toNat)) % 2 ^ 32 := by
    simp only [UInt32.toNat_add, UInt32.toNat_mul]
    omega
  have hoff := tileAddress_sub_base hfit hthis
  have hlt := hoff ▸ (tileAddress conf (row * conf.tilePitch + conf.tileBaseAddress + conf.tileAddressOffset +
    col * conf.imageBpp) - conf.tileBaseAddress).toNat_lt
  constructor
  · have hrw := conf.tileRwOffset.toNat_lt
    rw [UInt32.toNat_sub, hoff]
    omega
  · simp only [UInt32.toNat_add, UInt32.toNat_mul]
    omega

/-- Blocks of `d` bytes at multiples of `d` do not overlap. -/
theorem block_eq {d x x' k k' : ℕ} (hx : d ∣ x) (hx' : d ∣ x') (hk : k < d) (hk' : k' < d)
    (h : x + k = x' + k') : x = x' ∧ k = k' := by
  obtain ⟨m, rfl⟩ := hx
  obtain ⟨m', rfl⟩ := hx'
  obtain ⟨rfl, rfl⟩ := mul_add_inj hk hk' h
  exact ⟨rfl, rfl⟩

/-- The row and the column of a texel from its offset in the image. -/
theorem rowCol_inj {pitch bpp row col row' col' : ℕ} (hbpp : 0 < bpp) (hcol : col * bpp < pitch)
    (hcol' : col' * bpp < pitch) (h : row * pitch + col * bpp = row' * pitch + col' * bpp) :
    row = row' ∧ col = col' := by
  rw [Nat.mul_comm row, Nat.mul_comm row'] at h
  obtain ⟨hrow, hcb⟩ := mul_add_inj hcol hcol' h
  exact ⟨hrow, Nat.eq_of_mul_eq_mul_right hbpp hcb⟩

section Image

variable {sizeofT : ℕ} {baseAddress baseOffset tileSize : UInt32} {bankSense : UInt8}
  {rowPitchInBytes imageWidth imageHeight : UInt16}

/-- On a good image the grid has 1 to 255 tiles per row. -/
theorem GoodImage.tiles (h : GoodImage sizeofT baseAddress baseOffset rowPitchInBytes imageWidth imageHeight) :
    0 < ((getPrimeFactor rowPitchInBytes.toUInt32).1 * (getPrimeFactor rowPitchInBytes.toUInt32).2).toNat ∧
      ((getPrimeFactor rowPitchInBytes.toUInt32).1 * (getPrimeFactor rowPitchInBytes.toUInt32).2).toNat < 2 ^ 8 := by
  have hP := rowPitchInBytes.toNat_lt
  have hf := h.grid.factor_pos
  rcases getPrimeFactor_cases rowPitchInBytes.toUInt32 with h0 | ⟨hprime, hmul, hle⟩
  · rw [h0] at hf
    simp at hf
  · rw [hmul]
    rw [UInt16.toNat_toUInt32] at hle
    exact ⟨Nat.mul_pos hprime hf, by omega⟩

/-- The offsets of a texel of a good image: the tiled offset of its address in the region, less
the base offset, and its offset in the linear image. -/
theorem texel_offsets (hgood : GoodImage sizeofT baseAddress baseOffset rowPitchInBytes imageWidth imageHeight)
    {row col : ℕ} (hrow : row < imageHeight.toNat) (hcol : col < imageWidth.toNat) {tdo lin : UInt32}
    (h : tiledDmaCopy (UInt32.ofNat row) (UInt32.ofNat col)
      (detilerConfig sizeofT baseAddress baseOffset tileSize bankSense rowPitchInBytes) = some (tdo, lin)) :
    (tdo.toNat + baseOffset.toNat) % 2 ^ 32 =
        tileOffset (getPrimeFactor rowPitchInBytes.toUInt32).2.toNat
          ((getPrimeFactor rowPitchInBytes.toUInt32).1 * (getPrimeFactor rowPitchInBytes.toUInt32).2).toNat
          bankSense.toNat (baseOffset.toNat + row * rowPitchInBytes.toNat + col * sizeofT) ∧
      lin.toNat = row * rowPitchInBytes.toNat + col * sizeofT := by
  have hH := imageHeight.toNat_lt
  have hW := imageWidth.toNat_lt
  have hbpp : sizeofT ≤ 32 := Nat.le_of_dvd (by norm_num) hgood.bpp
  have hr : (UInt32.ofNat row).toNat = row := by
    rw [UInt32.toNat_ofNat']
    omega
  have hc : (UInt32.ofNat col).toNat = col := by
    rw [UInt32.toNat_ofNat']
    omega
  have hsz : (UInt32.ofNat sizeofT).toNat = sizeofT := by
    rw [UInt32.toNat_ofNat']
    omega
  -- the texel lies in the image, below the last 4 MiB
  have hend : baseOffset.toNat + row * rowPitchInBytes.toNat + col * sizeofT + 2 ^ 22 ≤ 2 ^ 32 := by
    have hrows := Nat.mul_le_mul_right rowPitchInBytes.toNat hrow
    have hcols := Nat.mul_le_mul_right sizeofT hcol.le
    rw [Nat.succ_mul] at hrows
    have := hgood.width
    have := hgood.offset
    omega
  have hfit : Fits (detilerConfig sizeofT baseAddress baseOffset tileSize bankSense rowPitchInBytes)
      (baseOffset.toNat + (UInt32.ofNat row).toNat * rowPitchInBytes.toUInt32.toNat +
        (UInt32.ofNat col).toNat * (UInt32.ofNat sizeofT).toNat) := by
    rw [hr, hc, hsz, UInt16.toNat_toUInt32]
    exact ⟨hgood.base, hgood.tiles.1, hgood.tiles.2, hend⟩
  obtain ⟨htdo, hlin⟩ := tiledDmaCopy_offsets hfit h
  simp only [detilerConfig, hr, hc, hsz, UInt16.toNat_toUInt32, UInt8.toNat_toUInt32] at htdo hlin
  refine ⟨htdo, ?_⟩
  rw [hlin]
  omega

/-- Both offsets of a texel are multiples of the texel size. -/
theorem texel_dvd (hgood : GoodImage sizeofT baseAddress baseOffset rowPitchInBytes imageWidth imageHeight)
    {row col : ℕ} (hrow : row < imageHeight.toNat) (hcol : col < imageWidth.toNat) {tdo lin : UInt32}
    (h : tiledDmaCopy (UInt32.ofNat row) (UInt32.ofNat col)
      (detilerConfig sizeofT baseAddress baseOffset tileSize bankSense rowPitchInBytes) = some (tdo, lin)) :
    sizeofT ∣ tdo.toNat ∧ sizeofT ∣ lin.toNat := by
  obtain ⟨htdo, hlin⟩ := texel_offsets hgood hrow hcol h
  have hpitch : sizeofT ∣ rowPitchInBytes.toNat := Nat.dvd_trans hgood.bpp (by have := hgood.pitch; omega)
  have himage : sizeofT ∣ row * rowPitchInBytes.toNat + col * sizeofT :=
    Nat.dvd_add (Dvd.dvd.mul_left hpitch row) (Dvd.intro_left col rfl)
  refine ⟨?_, hlin ▸ himage⟩
  -- modulo the texel size: `tdo + O ≡ tileOffset ≡ address ≡ O`
  set T := tileOffset (getPrimeFactor rowPitchInBytes.toUInt32).2.toNat
    ((getPrimeFactor rowPitchInBytes.toUInt32).1 * (getPrimeFactor rowPitchInBytes.toUInt32).2).toNat
    bankSense.toNat (baseOffset.toNat + row * rowPitchInBytes.toNat + col * sizeofT) with hT
  have hwrap : tdo.toNat + baseOffset.toNat ≡ T [MOD sizeofT] := by
    have hT32 : T < 2 ^ 32 := htdo ▸ Nat.mod_lt _ (by norm_num)
    have hmod : tdo.toNat + baseOffset.toNat ≡ T [MOD 2 ^ 32] := by
      unfold Nat.ModEq
      rw [htdo, Nat.mod_eq_of_lt hT32]
    exact hmod.of_dvd (Nat.dvd_trans hgood.bpp (by norm_num))
  have hlow : T ≡ baseOffset.toNat + row * rowPitchInBytes.toNat + col * sizeofT [MOD sizeofT] :=
    Nat.ModEq.of_dvd hgood.bpp (tileOffset_mod_32 _ _ _ _)
  have hbase : baseOffset.toNat + row * rowPitchInBytes.toNat + col * sizeofT ≡ 0 + baseOffset.toNat [MOD sizeofT] := by
    rw [Nat.add_assoc, Nat.add_comm 0]
    exact (Nat.modEq_zero_iff_dvd.2 himage).add_left _
  exact Nat.modEq_zero_iff_dvd.1 (Nat.ModEq.add_right_cancel' _ (hwrap.trans (hlow.trans hbase)))

/-- Distinct texels of a good image have distinct tiled offsets and distinct linear offsets. -/
theorem texel_eq_of_offset (hgood : GoodImage sizeofT baseAddress baseOffset rowPitchInBytes imageWidth imageHeight)
    {row col row' col' : ℕ} (hrow : row < imageHeight.toNat) (hcol : col < imageWidth.toNat)
    (hrow' : row' < imageHeight.toNat) (hcol' : col' < imageWidth.toNat) {tdo lin tdo' lin' : UInt32}
    (h : tiledDmaCopy (UInt32.ofNat row) (UInt32.ofNat col)
      (detilerConfig sizeofT baseAddress baseOffset tileSize bankSense rowPitchInBytes) = some (tdo, lin))
    (h' : tiledDmaCopy (UInt32.ofNat row') (UInt32.ofNat col')
      (detilerConfig sizeofT baseAddress baseOffset tileSize bankSense rowPitchInBytes) = some (tdo', lin'))
    (heq : tdo.toNat = tdo'.toNat ∨ lin.toNat = lin'.toNat) :
    row = row' ∧ col = col' := by
  obtain ⟨htdo, hlin⟩ := texel_offsets hgood hrow hcol h
  obtain ⟨htdo', hlin'⟩ := texel_offsets hgood hrow' hcol' h'
  have hbpp : 0 < sizeofT := Nat.pos_of_dvd_of_pos hgood.bpp (by norm_num)
  -- a column's bytes stay inside the row
  have hfits : ∀ c, c < imageWidth.toNat → c * sizeofT < rowPitchInBytes.toNat := fun c hc =>
    lt_of_lt_of_le (Nat.mul_lt_mul_of_pos_right hc hbpp) hgood.width
  apply rowCol_inj hbpp (hfits col hcol) (hfits col' hcol')
  rcases heq with heq | heq
  · have hgrid := hgood.grid
    have hT := tileOffset_inj hgrid hgood.tiles.1 (htdo.symm.trans (heq ▸ htdo'))
    omega
  · rw [← hlin, ← hlin', heq]

end Image

/-! ### The copy loops -/

theorem mem_map_fst_texelMoves {decode : Bool} {sizeofT : ℕ} {conf : DetilerConfig} {row col d : ℕ} :
    d ∈ (texelMoves decode sizeofT conf row col).map Prod.fst ↔
      ∃ tdo lin, tiledDmaCopy (UInt32.ofNat row) (UInt32.ofNat col) conf = some (tdo, lin) ∧
        ∃ k < sizeofT, d = (if decode then lin else tdo).toNat + k := by
  unfold texelMoves
  split
  · next hnone => simp [hnone]
  · next tdo lin hsome =>
    cases decode <;> simp [hsome, eq_comm]

theorem texelMoves_fst_nodup (decode : Bool) (sizeofT : ℕ) (conf : DetilerConfig) (row col : ℕ) :
    ((texelMoves decode sizeofT conf row col).map Prod.fst).Nodup := by
  unfold texelMoves
  split
  · exact List.nodup_nil
  · rw [List.map_map]
    refine List.nodup_range.map fun k k' hk => ?_
    cases decode <;> simpa using hk

theorem mem_texelMoves_of_some (decode : Bool) {sizeofT : ℕ} {conf : DetilerConfig} {row col : ℕ}
    {tdo lin : UInt32} (h : tiledDmaCopy (UInt32.ofNat row) (UInt32.ofNat col) conf = some (tdo, lin))
    {k : ℕ} (hk : k < sizeofT) :
    (if decode then (lin.toNat + k, tdo.toNat + k) else (tdo.toNat + k, lin.toNat + k)) ∈
      texelMoves decode sizeofT conf row col := by
  unfold texelMoves
  rw [h]
  exact List.mem_map.2 ⟨k, List.mem_range.2 hk, rfl⟩

/-- The two nested loops of `tile_texel_data` as one loop over the texels, row by row. -/
theorem tileTexelData_eq_copy {α : Type*} (decode : Bool) (sizeofT : ℕ) (dst src : ℕ → α)
    (baseAddress baseOffset tileSize : UInt32) (bankSense : UInt8)
    (rowPitchInBytes imageWidth imageHeight : UInt16) :
    tileTexelData decode sizeofT dst src baseAddress baseOffset tileSize bankSense rowPitchInBytes imageWidth
        imageHeight =
      Loop.copy src ((List.range imageHeight.toNat ×ˢ List.range imageWidth.toNat).flatMap fun t =>
        texelMoves decode sizeofT (detilerConfig sizeofT baseAddress baseOffset tileSize bankSense rowPitchInBytes)
          t.1 t.2) dst := by
  unfold tileTexelData
  rw [show ∀ l₁ l₂ : List ℕ, l₁ ×ˢ l₂ = l₁.flatMap fun a => l₂.map (Prod.mk a) from fun _ _ => rfl,
    List.flatMap_assoc]
  simp only [List.flatMap_map]

section Moves

variable {sizeofT : ℕ} {baseAddress baseOffset tileSize : UInt32} {bankSense : UInt8}
  {rowPitchInBytes imageWidth imageHeight : UInt16}

/-- On a good image neither loop writes a byte twice. -/
theorem texelMoves_nodup (hgood : GoodImage sizeofT baseAddress baseOffset rowPitchInBytes imageWidth imageHeight)
    (decode : Bool) :
    (((List.range imageHeight.toNat ×ˢ List.range imageWidth.toNat).flatMap fun t =>
      texelMoves decode sizeofT (detilerConfig sizeofT baseAddress baseOffset tileSize bankSense rowPitchInBytes)
        t.1 t.2).map Prod.fst).Nodup := by
  apply Loop.nodup_map_fst_flatMap (List.nodup_range.product List.nodup_range)
  · intro t _
    exact texelMoves_fst_nodup _ _ _ _ _
  · rintro ⟨row, col⟩ ht ⟨row', col'⟩ ht' d hd hd'
    rw [List.mem_product, List.mem_range, List.mem_range] at ht ht'
    obtain ⟨tdo, lin, h, k, hk, rfl⟩ := mem_map_fst_texelMoves.1 hd
    obtain ⟨tdo', lin', h', k', hk', hdk⟩ := mem_map_fst_texelMoves.1 hd'
    obtain ⟨htdo, hlin⟩ := texel_dvd hgood ht.1 ht.2 h
    obtain ⟨htdo', hlin'⟩ := texel_dvd hgood ht'.1 ht'.2 h'
    -- the byte lies in one texel's block of the buffer the loop writes
    have heq : tdo.toNat = tdo'.toNat ∨ lin.toNat = lin'.toNat := by
      cases decode
      · exact .inl (block_eq htdo htdo' hk hk' (by simpa using hdk)).1
      · exact .inr (block_eq hlin hlin' hk hk' (by simpa using hdk)).1
    obtain ⟨rfl, rfl⟩ := texel_eq_of_offset hgood ht.1 ht.2 ht'.1 ht'.2 h h' heq
    rfl

end Moves

/-! ### The pitches of the GCM library -/

/-- `tiled_pitches` of cellGcmSys.cpp: the pitches the GCM library offers for tiled regions. -/
def tiledPitches : List UInt32 :=
  [0x00000000, 0x00000200, 0x00000300, 0x00000400,
    0x00000500, 0x00000600, 0x00000700, 0x00000800,
    0x00000A00, 0x00000C00, 0x00000D00, 0x00000E00,
    0x00001000, 0x00001400, 0x00001800, 0x00001A00,
    0x00001C00, 0x00002000, 0x00002800, 0x00003000,
    0x00003400, 0x00003800, 0x00004000, 0x00005000,
    0x00006000, 0x00006800, 0x00007000, 0x00008000,
    0x0000A000, 0x0000C000, 0x0000D000, 0x0000E000,
    0x00010000]

/-- `cellGcmGetTiledPitchSize(size)`: the first pitch of the table that holds `size`, or 0. -/
def cellGcmGetTiledPitchSize (size : UInt32) : UInt32 :=
  match (List.range (tiledPitches.length - 1)).find? (fun i =>
      decide (tiledPitches.getD i 0 < size ∧ size ≤ tiledPitches.getD (i + 1) 0)) with
  | some i => tiledPitches.getD (i + 1) 0
  | none => 0

/-- Every pitch of the table that fits the `u16` row pitch of `tile_texel_data` is a multiple of
256 on a good grid. -/
theorem tiledPitches_good : ∀ p ∈ tiledPitches, p ≠ 0 → p.toNat < 2 ^ 16 →
    p.toUInt16.toNat % 256 = 0 ∧ GoodGrid (getPrimeFactor p.toUInt16.toUInt32).2.toNat
      ((getPrimeFactor p.toUInt16.toUInt32).1 * (getPrimeFactor p.toUInt16.toUInt32).2).toNat := by
  simp only [tiledPitches, List.forall_mem_cons, List.not_mem_nil, IsEmpty.forall_iff, forall_const, and_true]
  and_intros <;> decide

theorem cellGcmGetTiledPitchSize_mem (size : UInt32) :
    cellGcmGetTiledPitchSize size = 0 ∨ cellGcmGetTiledPitchSize size ∈ tiledPitches := by
  unfold cellGcmGetTiledPitchSize
  split
  · next i hfind =>
    right
    have hi := List.mem_range.1 (List.mem_of_find?_eq_some hfind)
    rw [List.getD_eq_getElem _ _ (by omega)]
    exact List.getElem_mem _
  · exact .inl rfl

/-- The pitches the GCM library hands out for tiled regions, where they fit the row pitch of
`tile_texel_data`, are in the domain of `tile_texel_data_round_trip`. -/
theorem cellGcmGetTiledPitchSize_good (size : UInt32) (hpos : cellGcmGetTiledPitchSize size ≠ 0)
    (hlt : (cellGcmGetTiledPitchSize size).toNat < 2 ^ 16) :
    (cellGcmGetTiledPitchSize size).toUInt16.toNat % 256 = 0 ∧
      GoodGrid (getPrimeFactor (cellGcmGetTiledPitchSize size).toUInt16.toUInt32).2.toNat
        ((getPrimeFactor (cellGcmGetTiledPitchSize size).toUInt16.toUInt32).1 *
          (getPrimeFactor (cellGcmGetTiledPitchSize size).toUInt16.toUInt32).2).toNat := by
  rcases cellGcmGetTiledPitchSize_mem size with h0 | hmem
  · exact absurd h0 hpos
  · exact tiledPitches_good _ hmem hpos hlt

/-- Tiling a good image writes the bytes of each texel to a block of its own, and detiling what
it wrote gives back every texel that tiling copied; every pitch the GCM library hands out that
fits the row pitch is a multiple of 256 on a good grid. -/
theorem tile_texel_data_round_trip {α : Type*} (sizeofT : ℕ) (baseAddress baseOffset tileSize : UInt32)
    (bankSense : UInt8) (rowPitchInBytes imageWidth imageHeight : UInt16)
    (hgood : GoodImage sizeofT baseAddress baseOffset rowPitchInBytes imageWidth imageHeight)
    (linear tiledInit linearInit : ℕ → α) :
    let conf := detilerConfig sizeofT baseAddress baseOffset tileSize bankSense rowPitchInBytes
    let tiled := tileTexelData false sizeofT tiledInit linear baseAddress baseOffset tileSize bankSense
      rowPitchInBytes imageWidth imageHeight
    (∀ row < imageHeight.toNat, ∀ col < imageWidth.toNat, ∀ row' < imageHeight.toNat,
      ∀ col' < imageWidth.toNat, ∀ tdo lin tdo' lin',
        tiledDmaCopy (UInt32.ofNat row) (UInt32.ofNat col) conf = some (tdo, lin) →
        tiledDmaCopy (UInt32.ofNat row') (UInt32.ofNat col') conf = some (tdo', lin') →
        (row, col) ≠ (row', col') → ∀ k < sizeofT, ∀ k' < sizeofT, tdo.toNat + k ≠ tdo'.toNat + k') ∧
    (∀ row < imageHeight.toNat, ∀ col < imageWidth.toNat, ∀ tdo lin,
      tiledDmaCopy (UInt32.ofNat row) (UInt32.ofNat col) conf = some (tdo, lin) → ∀ k < sizeofT,
        tileTexelData true sizeofT linearInit tiled baseAddress baseOffset tileSize bankSense rowPitchInBytes
          imageWidth imageHeight (lin.toNat + k) = linear (lin.toNat + k)) ∧
    ∀ size, cellGcmGetTiledPitchSize size ≠ 0 → (cellGcmGetTiledPitchSize size).toNat < 2 ^ 16 →
      (cellGcmGetTiledPitchSize size).toUInt16.toNat % 256 = 0 ∧
        GoodGrid (getPrimeFactor (cellGcmGetTiledPitchSize size).toUInt16.toUInt32).2.toNat
          ((getPrimeFactor (cellGcmGetTiledPitchSize size).toUInt16.toUInt32).1 *
            (getPrimeFactor (cellGcmGetTiledPitchSize size).toUInt16.toUInt32).2).toNat := by
  dsimp only
  refine ⟨?_, ?_, cellGcmGetTiledPitchSize_good⟩
  · intro row hrow col hcol row' hrow' col' hcol' tdo lin tdo' lin' h h' hne k hk k' hk' heq
    have hblock := block_eq (texel_dvd hgood hrow hcol h).1 (texel_dvd hgood hrow' hcol' h').1 hk hk' heq
    obtain ⟨rfl, rfl⟩ := texel_eq_of_offset hgood hrow hcol hrow' hcol' h h' (.inl hblock.1)
    exact hne rfl
  · intro row hrow col hcol tdo lin h k hk
    have htexel : (row, col) ∈ List.range imageHeight.toNat ×ˢ List.range imageWidth.toNat :=
      List.mem_product.2 ⟨List.mem_range.2 hrow, List.mem_range.2 hcol⟩
    -- detiling reads the byte back from the tiled block that tiling wrote it to
    rw [tileTexelData_eq_copy, Loop.copy_of_mem (texelMoves_nodup hgood true)
      (List.mem_flatMap.2 ⟨(row, col), htexel, mem_texelMoves_of_some true h hk⟩)]
    rw [tileTexelData_eq_copy, Loop.copy_of_mem (texelMoves_nodup hgood false)
      (List.mem_flatMap.2 ⟨(row, col), htexel, mem_texelMoves_of_some false h hk⟩)]

/-- A 2 × 2 image of 4-byte texels on a 512-byte pitch, a grid of factor 2. -/
theorem tile_texel_data_round_trip_factor_two :
    GoodImage 4 0 0 512 2 2 ∧
    (∀ row < (2 : UInt16).toNat, ∀ col < (2 : UInt16).toNat, ∀ row' < (2 : UInt16).toNat,
      ∀ col' < (2 : UInt16).toNat, ∀ tdo lin tdo' lin',
        tiledDmaCopy (UInt32.ofNat row) (UInt32.ofNat col) (detilerConfig 4 0 0 0x10000 0 512) = some (tdo, lin) →
        tiledDmaCopy (UInt32.ofNat row') (UInt32.ofNat col') (detilerConfig 4 0 0 0x10000 0 512) =
          some (tdo', lin') →
        (row, col) ≠ (row', col') → ∀ k < 4, ∀ k' < 4, tdo.toNat + k ≠ tdo'.toNat + k') ∧
    (∀ row < (2 : UInt16).toNat, ∀ col < (2 : UInt16).toNat, ∀ tdo lin,
      tiledDmaCopy (UInt32.ofNat row) (UInt32.ofNat col) (detilerConfig 4 0 0 0x10000 0 512) = some (tdo, lin) →
      ∀ k < 4,
        tileTexelData true 4 (fun _ => 0) (tileTexelData false 4 (fun _ => 0) id 0 0 0x10000 0 512 2 2)
          0 0 0x10000 0 512 2 2 (lin.toNat + k) = id (lin.toNat + k)) ∧
    ∀ size, cellGcmGetTiledPitchSize size ≠ 0 → (cellGcmGetTiledPitchSize size).toNat < 2 ^ 16 →
      (cellGcmGetTiledPitchSize size).toUInt16.toNat % 256 = 0 ∧
        GoodGrid (getPrimeFactor (cellGcmGetTiledPitchSize size).toUInt16.toUInt32).2.toNat
          ((getPrimeFactor (cellGcmGetTiledPitchSize size).toUInt16.toUInt32).1 *
            (getPrimeFactor (cellGcmGetTiledPitchSize size).toUInt16.toUInt32).2).toNat :=
  have hgood : GoodImage 4 0 0 512 2 2 :=
    ⟨by decide, by decide, by decide, by decide, by decide, by decide⟩
  ⟨hgood, tile_texel_data_round_trip 4 0 0 0x10000 0 512 2 2 hgood id (fun _ => 0) (fun _ => 0)⟩

/-- Two of the hypotheses are needed. On the pitch `0x900`, `256 × 9` tiles of factor 3, the
texels `(0, 0)` and `(0, 128)` of an image of 4-byte texels whose rows fit in the pitch land on
the same tiled bytes; and on the good pitch `0x400` a base at `0x8000`, not 64 KiB aligned, sends
`(64, 0)` and `(4, 208)` to one tiled offset. -/
theorem tiled_dma_copy_collision :
    (129 * 4 ≤ (0x900 : UInt16).toNat ∧ getPrimeFactor (0x900 : UInt16).toUInt32 = (3, 3) ∧
      tiledDmaCopy 0 0 (detilerConfig 4 0 0 0x10000 0 0x900) = some (0, 0) ∧
      tiledDmaCopy 0 128 (detilerConfig 4 0 0 0x10000 0 0x900) = some (0, 512)) ∧
    (208 * 4 ≤ (0x400 : UInt16).toNat ∧ GoodGrid (getPrimeFactor (0x400 : UInt16).toUInt32).2.toNat
      ((getPrimeFactor (0x400 : UInt16).toUInt32).1 * (getPrimeFactor (0x400 : UInt16).toUInt32).2).toNat ∧
      tiledDmaCopy 64 0 (detilerConfig 4 0x8000 0 0x1000000 0 0x400) = some (0x10000, 0x10000) ∧
      tiledDmaCopy 4 208 (detilerConfig 4 0x8000 0 0x1000000 0 0x400) = some (0x10000, 4928)) := by
  decide

end Rpcs3.Rsx.TiledDma
