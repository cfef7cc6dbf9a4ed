import Mathlib

/-! The tick and calendar conversions of `cellRtc` (`rpcs3/Emu/Cell/Modules/cellRtc.cpp`).
A tick counts microseconds from 0001-01-01 00:00:00 in the proleptic Gregorian calendar.
`date_time_to_tick` counts the days of the previous years with a closed form, and
`tick_to_date_time` recovers the year inside a 400-year cycle with another one and the month
with a `days / 29` estimate corrected once against a table.

Both are measured against `cum n`, the days of the first `n` years: the year formula brackets
the day between two values of `cum` (`yearIndex_spec`), the month estimate finds the month of
every day of the year (`monthIndex_spec`), and the two conversions are mutually inverse on the
dates `cellRtcCheckValid` accepts and the ticks before the year 10000, where
`date_time_to_tick` is strictly increasing (`rtc_tick_date_time`). -/
namespace Rpcs3.Cell.Rtc

/-- `CellRtcDateTime`: `u16` fields and a `u32` microsecond. -/
@[ext]
structure DateTime where
  year : ℕ
  month : ℕ
  day : ℕ
  hour : ℕ
  minute : ℕ
  second : ℕ
  microsecond : ℕ
  deriving DecidableEq

def isLeapYear (year : ℕ) : Bool := year % 4 == 0 && (year % 100 != 0 || year % 400 == 0)

def daysInMonth : List ℕ := [31, 28, 31, 30, 31, 30, 31, 31, 30, 31, 30, 31]

def daysInMonthLeap : List ℕ := [31, 29, 31, 30, 31, 30, 31, 31, 30, 31, 30, 31]

/-- `MONTH_OFFSET`, with the sentinel `umax` after December. -/
def monthOffset : List ℕ := [0, 31, 59, 90, 120, 151, 181, 212, 243, 273, 304, 334, 65535]

def monthOffsetLeap : List ℕ := [0, 31, 60, 91, 121, 152, 182, 213, 244, 274, 305, 335, 65535]

/-- The errors of `cellRtcCheckValid`, in the order it checks. -/
inductive CheckError where
  | invalidYear
  | invalidMonth
  | invalidDay
  | invalidHour
  | invalidMinute
  | invalidSecond
  | invalidMicrosecond
  deriving DecidableEq

/-- `cellRtcCheckValid`: the first field out of range, or `none` for `CELL_OK`. -/
def checkValid (dt : DateTime) : Option CheckError :=
  if dt.year = 0 ∨ 10000 ≤ dt.year then some .invalidYear
  else if dt.month < 1 ∨ 12 < dt.month then some .invalidMonth
  else if dt.day = 0 ∨
      (if isLeapYear dt.year then daysInMonthLeap else daysInMonth).getD (dt.month - 1) 0 < dt.day
    then some .invalidDay
  else if 24 ≤ dt.hour then some .invalidHour
  else if 60 ≤ dt.minute then some .invalidMinute
  else if 60 ≤ dt.second then some .invalidSecond
  else if 1000000 ≤ dt.microsecond then some .invalidMicrosecond
  else none

/-- `x - z` stored in a `u32`, for `z ≤ 2 ^ 32`. -/
def sub32 (x z : ℕ) : ℕ := (x + 0x100000000 - z) % 0x100000000

/-- `date_time_to_tick`; a month out of range is clamped. -/
def dateTimeToTick (dt : DateTime) : ℕ :=
  let daysInPreviousYears :=
    sub32 (dt.year * 365 + (dt.year + 3) / 4 + (dt.year + 399) / 400)
      ((dt.year + 99) / 100 + 366)
  let month := if dt.month = 0 then 1 else if 12 < dt.month then 12 else dt.month
  let daysInPreviousMonths :=
    (if isLeapYear dt.year then monthOffsetLeap else monthOffset).getD (month - 1) 0
  let days := sub32 (daysInPreviousYears + daysInPreviousMonths + dt.day) 1
  (dt.microsecond + dt.second * 1000000 + dt.minute * 60 * 1000000 +
    dt.hour * 60 * 60 * 1000000 + days * 24 * 60 * 60 * 1000000) % 0x10000000000000000

/-- The year of a day inside a 400-year cycle, counted from 0. -/
def yearIndex (d : ℕ) : ℕ := (d - d / 1460 + d / 36524 - d / 146096) / 365

/-- The month of a day of the year, counted from 0: `days / 29`, corrected once. -/
def monthIndex (offsets : List ℕ) (days : ℕ) : ℕ :=
  if days < offsets.getD (days / 29) 0 then days / 29 - 1 else days / 29

/-- `tick_to_date_time`. -/
def tickToDateTime (tick : ℕ) : DateTime :=
  let days := tick / (24 * 60 * 60 * 1000000) % 0x100000000
  let year400 := days / 146097
  let days := days - year400 * 146097
  let yearWithin := yearIndex days
  let days := days - (yearWithin * 365 + yearWithin / 4 - yearWithin / 100 + yearWithin / 400)
  let years := (year400 * 400 + yearWithin + 1) % 0x10000
  let offsets := if isLeapYear years then monthOffsetLeap else monthOffset
  let month := monthIndex offsets days
  { year := years
    month := month + 1
    day := days - offsets.getD month 0 + 1
    hour := tick / (60 * 60 * 1000000) % 24
    minute := tick / (60 * 1000000) % 60
    second := tick / 1000000 % 60
    microsecond := tick % 1000000 }

/-- `cellRtcGetDayOfWeek` on `s32` arguments: January and February count as months 13 and 14 of
the year before; `/` and `%` truncate. -/
def getDayOfWeek (year month day : ℤ) : ℤ :=
  let shifted := month = 1 ∨ month = 2
  let year := if shifted then year - 1 else year
  let month := if shifted then month + 12 else month
  ((month * 13 + 8).tdiv 5 + year + year.tdiv 4 - year.tdiv 100 + year.tdiv 400 + day).tmod 7

/-- `CELL_RTC_ERROR_INVALID_ARG` as an `s32`, which LLE writes to the day count of a month out of
range. -/
def errorInvalidArg : ℤ := 0x80010604 - 0x100000000

/-- The day count of `cellRtcTickAddMonths` and `cellRtcTickAddYears`. -/
def monthDays (year month : ℕ) : ℤ :=
  if year = 0 ∨ month < 1 ∨ 12 < month then errorInvalidArg
  else (if isLeapYear year then daysInMonthLeap else daysInMonth).getD (month - 1) 0

/-- `if (month_days < day) day = static_cast<u16>(month_days);` -/
def clampDay (monthDays : ℤ) (day : ℕ) : ℕ :=
  if monthDays < day then (monthDays % 0x10000).toNat else day

/-- `cellRtcGetTick`: `none`, with `*pTick` left alone, for a year out of range. -/
def getTick (dt : DateTime) : Option ℕ :=
  if 10000 ≤ dt.year ∨ dt.year = 0 then none else some (dateTimeToTick dt)

/-- `cellRtcTickAddMonths`: the tick written to `*pTick0`, or `none` where `cellRtcGetTick`
refuses the new date. The `s32` month count is taken exactly; the new year and month are
`u16`. -/
def tickAddMonths (tick : ℕ) (iAdd : ℤ) : Option ℕ :=
  let dt := tickToDateTime tick
  let totalMonths : ℤ := dt.year * 12 + dt.month + iAdd - 1
  let newYear : ℕ := (totalMonths.tdiv 12 % 0x10000).toNat
  let newMonth : ℕ := ((totalMonths - newYear * 12 + 1) % 0x10000).toNat
  getTick { dt with
    year := newYear
    month := newMonth
    day := clampDay (monthDays newYear newMonth) dt.day }

/-- `cellRtcTickAddYears`. -/
def tickAddYears (tick : ℕ) (iAdd : ℤ) : Option ℕ :=
  let dt := tickToDateTime tick
  let newYear : ℕ := ((dt.year + iAdd) % 0x10000).toNat
  getTick { dt with
    year := newYear
    day := clampDay (monthDays newYear dt.month) dt.day }

/-! ### Days of the calendar -/

/-- Days in the first `n` years. -/
def cum (n : ℕ) : ℕ := 365 * n + n / 4 - n / 100 + n / 400

def yearLength (year : ℕ) : ℕ := if isLeapYear year then 366 else 365

/-- `cum` with its subtraction moved across. -/
theorem cum_add_div (n : ℕ) : cum n + n / 100 = 365 * n + n / 4 + n / 400 := by
  have hle : n / 100 ≤ n / 4 := Nat.div_le_div_left (by norm_num) (by norm_num)
  unfold cum
  generalize n / 4 = a, n / 100 = b at *
  omega

/-- A year has 365 days, one more in every fourth year, one less in every hundredth and one
more again in every four hundredth. -/
theorem yearLength_add (y : ℕ) :
    yearLength y + (if 100 ∣ y then 1 else 0) =
      365 + (if 4 ∣ y then 1 else 0) + (if 400 ∣ y then 1 else 0) := by
  have h₁ : 100 ∣ y → 4 ∣ y := Nat.dvd_trans (by norm_num)
  have h₂ : 400 ∣ y → 100 ∣ y := Nat.dvd_trans (by norm_num)
  unfold yearLength isLeapYear
  by_cases h4 : 4 ∣ y <;> by_cases h100 : 100 ∣ y <;> by_cases h400 : 400 ∣ y <;>
    simp_all [Nat.dvd_iff_mod_eq_zero]

theorem yearLength_ge (y : ℕ) : 365 ≤ yearLength y := by
  unfold yearLength
  split <;> omega

theorem cum_succ (n : ℕ) : cum (n + 1) = cum n + yearLength (n + 1) := by
  -- each quotient grows by one exactly where its divisor divides `n + 1`
  have e₁ := cum_add_div (n + 1)
  rw [Nat.succ_div, Nat.succ_div, Nat.succ_div] at e₁
  have e₀ := cum_add_div n
  have hy := yearLength_add (n + 1)
  omega

theorem cum_of_pos {y : ℕ} (h : 1 ≤ y) : cum y = cum (y - 1) + yearLength y := by
  obtain ⟨n, rfl⟩ : ∃ n, y = n + 1 := ⟨y - 1, by omega⟩
  exact cum_succ n

theorem cum_add_400 (k j : ℕ) : cum (400 * k + j) = 146097 * k + cum j := by
  have e := cum_add_div (400 * k + j)
  have e₀ := cum_add_div j
  have h4 : (400 * k + j) / 4 = 100 * k + j / 4 := by omega
  have h100 : (400 * k + j) / 100 = 4 * k + j / 100 := by omega
  have h400 : (400 * k + j) / 400 = k + j / 400 := by omega
  rw [h4, h100, h400] at e
  omega

theorem isLeapYear_add_400 (k n : ℕ) : isLeapYear (400 * k + n) = isLeapYear n := by
  have h4 : (400 * k + n) % 4 = n % 4 := by omega
  have h100 : (400 * k + n) % 100 = n % 100 := by omega
  have h400 : (400 * k + n) % 400 = n % 400 := by omega
  rw [isLeapYear, isLeapYear, h4, h100, h400]

theorem cum_lt_cum {a b : ℕ} (h : a < b) : cum a < cum b := by
  refine strictMono_nat_of_lt_succ (fun n => ?_) h
  rw [cum_succ, yearLength]
  split <;> omega

theorem cum_le_cum {a b : ℕ} (h : a ≤ b) : cum a ≤ cum b := by
  rcases h.lt_or_eq with h | rfl
  · exact (cum_lt_cum h).le
  · rfl

/-- The year formula on a day `36524 c + 1461 q + s` of the cycle: century `c`, block of four
years `q`, and day `s` of the block. -/
theorem yearIndex_decomp (c q s : ℕ) (hc : c ≤ 3) (hq : q ≤ 24) (hs : s ≤ 1460)
    (hqs : q = 24 → s < 1460) :
    yearIndex (36524 * c + 1461 * q + s) = 100 * c + 4 * q + min (s / 365) 3 := by
  unfold yearIndex
  have h1 : (36524 * c + 1461 * q + s) / 36524 = c := by
    rw [show 36524 * c + 1461 * q + s = 1461 * q + s + 36524 * c by ring,
      Nat.add_mul_div_left _ _ (by norm_num), Nat.div_eq_of_lt (by omega), Nat.zero_add]
  have h2 : (36524 * c + 1461 * q + s) / 146096 = 0 := Nat.div_eq_of_lt (by omega)
  have h3 : (36524 * c + 1461 * q + s) / 1460 = 25 * c + q + (24 * c + q + s) / 1460 := by
    rw [show 36524 * c + 1461 * q + s = 24 * c + q + s + 1460 * (25 * c + q) by ring,
      Nat.add_mul_div_left _ _ (by norm_num), Nat.add_comm]
  -- `e` is one where the day is past the whole years of its blocks: only in a block's last day
  have he : (24 * c + q + s) / 1460 ≤ 1 := by omega
  have he₁ : s = 1460 → (24 * c + q + s) / 1460 = 1 := by omega
  have he₂ : (24 * c + q + s) / 1460 = 1 → 1364 ≤ s := by omega
  rw [h1, h2, h3]
  clear h1 h2 h3
  generalize (24 * c + q + s) / 1460 = e at he he₁ he₂ ⊢
  have hs' : (s - e) / 365 = min (s / 365) 3 := by omega
  have hn : 36524 * c + 1461 * q + s - (25 * c + q + e) + c - 0 =
      s - e + 365 * (100 * c + 4 * q) := by omega
  rw [hn, Nat.add_mul_div_left _ _ (by norm_num), hs']
  omega

theorem cum_decomp (c q t s : ℕ) (hc : c ≤ 3) (hq : q ≤ 24) (ht : t ≤ 3)
    (hts : 365 * t ≤ s) (hst : t < 3 → s < 365 * (t + 1)) (hs : s ≤ 1460)
    (hqs : q = 24 → s < 1460) :
    cum (100 * c + 4 * q + t) ≤ 36524 * c + 1461 * q + s ∧
      36524 * c + 1461 * q + s < cum (100 * c + 4 * q + t + 1) := by
  have h4 : (100 * c + 4 * q + t) / 4 = 25 * c + q := by omega
  have h100 : (100 * c + 4 * q + t) / 100 = c := by omega
  have h400 : (100 * c + 4 * q + t) / 400 = 0 := by omega
  have e₀ := cum_add_div (100 * c + 4 * q + t)
  rw [h4, h100, h400] at e₀
  clear h4 h100 h400
  -- the next year has 365 days, and 366 where it ends a block of four inside a century
  have hlen : s < 365 * t + yearLength (100 * c + 4 * q + t + 1) := by
    have hge := yearLength_ge (100 * c + 4 * q + t + 1)
    rcases Nat.lt_or_ge t 3 with h3 | h3
    · omega
    rcases Nat.lt_or_ge q 24 with hq' | hq'
    · have d4 : 4 ∣ 100 * c + 4 * q + t + 1 := by omega
      have d100 : ¬100 ∣ 100 * c + 4 * q + t + 1 := by omega
      have d400 : ¬400 ∣ 100 * c + 4 * q + t + 1 := fun h => d100 (Nat.dvd_trans (by norm_num) h)
      have hy := yearLength_add (100 * c + 4 * q + t + 1)
      rw [if_pos d4, if_neg d100, if_neg d400] at hy
      omega
    · omega
  rw [cum_succ]
  omega

/-- The year formula finds the year of every day of a 400-year cycle. -/
theorem yearIndex_spec {d : ℕ} (hd : d < 146097) :
    yearIndex d < 400 ∧ cum (yearIndex d) ≤ d ∧ d < cum (yearIndex d + 1) := by
  by_cases hlast : d = 146096
  · subst hlast
    decide
  · have hd' : d = 36524 * (d / 36524) + 1461 * (d % 36524 / 1461) + d % 36524 % 1461 := by
      omega
    have hc : d / 36524 ≤ 3 := by omega
    have hq : d % 36524 / 1461 ≤ 24 := by omega
    have hs : d % 36524 % 1461 ≤ 1460 := by omega
    have hqs : d % 36524 / 1461 = 24 → d % 36524 % 1461 < 1460 := by omega
    rw [hd', yearIndex_decomp _ _ _ hc hq hs hqs]
    obtain ⟨h1, h2⟩ := cum_decomp _ _ (min (d % 36524 % 1461 / 365) 3) _ hc hq
      (min_le_right _ _) (by omega) (by omega) hs hqs
    exact ⟨by omega, h1, h2⟩

/-- The year a day falls in is unique. -/
theorem eq_of_cum_bracket {a b d : ℕ} (ha : cum a ≤ d ∧ d < cum (a + 1))
    (hb : cum b ≤ d ∧ d < cum (b + 1)) : a = b := by
  by_contra hne
  rcases Nat.lt_or_gt_of_ne hne with h | h
  · have := cum_le_cum (show a + 1 ≤ b from h)
    omega
  · have := cum_le_cum (show b + 1 ≤ a from h)
    omega


/-! ### Months -/

/-- The month offsets of a year, leap or not. -/
def offsets (leap : Bool) : List ℕ := if leap then monthOffsetLeap else monthOffset

/-- The month lengths of a year, leap or not. -/
def lengths (leap : Bool) : List ℕ := if leap then daysInMonthLeap else daysInMonth

theorem offsets_def (leap : Bool) :
    (if leap = true then monthOffsetLeap else monthOffset) = offsets leap := rfl

/-- The corrected estimate finds the month of every day of the year. -/
theorem monthIndex_spec : ∀ leap : Bool, ∀ days < (if leap then 366 else 365),
    monthIndex (offsets leap) days < 12 ∧
      (offsets leap).getD (monthIndex (offsets leap) days) 0 ≤ days ∧
      days < (offsets leap).getD (monthIndex (offsets leap) days) 0 +
        (lengths leap).getD (monthIndex (offsets leap) days) 0 := by
  decide +kernel

theorem monthIndex_offset : ∀ leap : Bool, ∀ k < 12, ∀ d < (lengths leap).getD k 0,
    monthIndex (offsets leap) ((offsets leap).getD k 0 + d) = k := by
  decide +kernel

theorem offset_add_length_le : ∀ leap : Bool, ∀ k < 12, ∀ k' < 12, k < k' →
    (offsets leap).getD k 0 + (lengths leap).getD k 0 ≤ (offsets leap).getD k' 0 := by
  decide +kernel

theorem offset_add_length_le_year : ∀ leap : Bool, ∀ k < 12,
    (offsets leap).getD k 0 + (lengths leap).getD k 0 ≤ if leap then 366 else 365 := by
  decide +kernel

/-! ### Dates -/

/-- The dates `cellRtcCheckValid` accepts. -/
@[mk_iff]
structure Valid (dt : DateTime) : Prop where
  year_pos : 1 ≤ dt.year
  year_lt : dt.year < 10000
  month_pos : 1 ≤ dt.month
  month_le : dt.month ≤ 12
  day_pos : 1 ≤ dt.day
  day_le : dt.day ≤ (lengths (isLeapYear dt.year)).getD (dt.month - 1) 0
  hour_lt : dt.hour < 24
  minute_lt : dt.minute < 60
  second_lt : dt.second < 60
  microsecond_lt : dt.microsecond < 1000000

theorem checkValid_eq_none {dt : DateTime} : checkValid dt = none ↔ Valid dt := by
  rw [valid_iff]
  unfold checkValid lengths
  split_ifs <;> simp only [false_iff, true_iff, not_and, not_lt] <;> omega

/-- The day of `dt`, counted from 0001-01-01. -/
def dayNumber (dt : DateTime) : ℕ :=
  cum (dt.year - 1) + (offsets (isLeapYear dt.year)).getD (dt.month - 1) 0 + (dt.day - 1)

/-- The microsecond of `dt` within its day. -/
def timeOfDay (dt : DateTime) : ℕ :=
  dt.microsecond + dt.second * 1000000 + dt.minute * 60 * 1000000 +
    dt.hour * 60 * 60 * 1000000

theorem timeOfDay_lt {dt : DateTime} (h : Valid dt) : timeOfDay dt < 86400000000 := by
  have := h.hour_lt; have := h.minute_lt; have := h.second_lt; have := h.microsecond_lt
  unfold timeOfDay
  omega

theorem dayNumber_lt_cum {dt : DateTime} (h : Valid dt) : dayNumber dt < cum dt.year := by
  have hyear := offset_add_length_le_year (isLeapYear dt.year) (dt.month - 1)
    (by have := h.month_pos; have := h.month_le; omega)
  have hday := h.day_le
  have hpos := h.day_pos
  rw [dayNumber, cum_of_pos h.year_pos, yearLength]
  omega

theorem sub32_eq {x z : ℕ} (hz : z ≤ x) (hx : x - z < 0x100000000) : sub32 x z = x - z := by
  unfold sub32
  omega

/-- The leap-year count of `date_time_to_tick`, with its `- 366`, is `cum` of the years before. -/
theorem daysInPreviousYears_eq {y : ℕ} (h1 : 1 ≤ y) (h2 : y ≤ 10000) :
    sub32 (y * 365 + (y + 3) / 4 + (y + 399) / 400) ((y + 99) / 100 + 366) = cum (y - 1) := by
  obtain ⟨n, rfl⟩ : ∃ n, y = n + 1 := ⟨y - 1, by omega⟩
  have h4 : (n + 1 + 3) / 4 = n / 4 + 1 := by omega
  have h100 : (n + 1 + 99) / 100 = n / 100 + 1 := by omega
  have h400 : (n + 1 + 399) / 400 = n / 400 + 1 := by omega
  have hle : n / 100 ≤ n / 4 := by omega
  rw [h4, h100, h400, sub32_eq (by omega) (by omega), Nat.add_sub_cancel, cum]
  omega

theorem dateTimeToTick_eq {dt : DateTime} (h : Valid dt) :
    dateTimeToTick dt = dayNumber dt * 86400000000 + timeOfDay dt := by
  have hdays := dayNumber_lt_cum h
  have hcum := cum_le_cum (show dt.year ≤ 9999 from by have := h.year_lt; omega)
  have htime := timeOfDay_lt h
  have hmonth : ¬dt.month = 0 ∧ ¬12 < dt.month :=
    ⟨by have := h.month_pos; omega, by have := h.month_le; omega⟩
  have hday := h.day_pos
  have hmax : cum 9999 = 3652059 := by decide
  have hx : cum (dt.year - 1) + (offsets (isLeapYear dt.year)).getD (dt.month - 1) 0 + dt.day - 1 =
      dayNumber dt := by
    unfold dayNumber
    omega
  unfold dateTimeToTick
  simp only [daysInPreviousYears_eq h.year_pos (by have := h.year_lt; omega), hmonth, if_false,
    offsets_def]
  rw [sub32_eq (by omega) (by omega), hx,
    Nat.mod_eq_of_lt (by unfold timeOfDay at htime; omega)]
  unfold timeOfDay
  ring

theorem timeOfDay_digits (t : ℕ) :
    t % 1000000 + t / 1000000 % 60 * 1000000 + t / (60 * 1000000) % 60 * 60 * 1000000 +
      t / (60 * 60 * 1000000) % 24 * 60 * 60 * 1000000 = t % 86400000000 := by
  have h1 : t / (60 * 1000000) = t / 1000000 / 60 := by rw [Nat.div_div_eq_div_mul]
  have h2 : t / (60 * 60 * 1000000) = t / 1000000 / 60 / 60 := by
    rw [Nat.div_div_eq_div_mul, Nat.div_div_eq_div_mul]
  have h3 : t / 86400000000 = t / 1000000 / 60 / 60 / 24 := by
    rw [Nat.div_div_eq_div_mul, Nat.div_div_eq_div_mul, Nat.div_div_eq_div_mul]
  rw [h1, h2, Nat.mod_def t 86400000000, h3]
  have := Nat.mod_add_div t 1000000
  have := Nat.mod_add_div (t / 1000000) 60
  have := Nat.mod_add_div (t / 1000000 / 60) 60
  have := Nat.mod_add_div (t / 1000000 / 60 / 60) 24
  omega

theorem tickToDateTime_spec {t : ℕ} (ht : t / 86400000000 < cum 9999) :
    Valid (tickToDateTime t) ∧ dayNumber (tickToDateTime t) = t / 86400000000 ∧
      timeOfDay (tickToDateTime t) = t % 86400000000 := by
  have hmax : cum 9999 = 3652059 := by decide
  have hdays : t / 86400000000 % 0x100000000 = t / 86400000000 := Nat.mod_eq_of_lt (by omega)
  have hcycle : t / 86400000000 - t / 86400000000 / 146097 * 146097 =
      t / 86400000000 % 146097 := by omega
  have htime := timeOfDay_digits t
  simp only [tickToDateTime, hdays, hcycle]
  generalize t / 86400000000 = N at *
  -- `N` is day `N % 146097` of the cycle `N / 146097`, in its year `y`
  obtain ⟨hy, hlo, hhi⟩ := yearIndex_spec (Nat.mod_lt N (by norm_num : 0 < 146097))
  generalize yearIndex (N % 146097) = y at *
  have hcum : y * 365 + y / 4 - y / 100 + y / 400 = cum y := by unfold cum; omega
  have hyear : 400 * (N / 146097) + y < 9999 := by
    by_contra h
    have := cum_le_cum (not_lt.1 h)
    rw [cum_add_400] at this
    omega
  have hmod : (N / 146097 * 400 + y + 1) % 65536 = 400 * (N / 146097) + (y + 1) := by omega
  simp only [hcum, hmod, isLeapYear_add_400, offsets_def]
  -- the day `s` of the year `y + 1`, in its month `m`
  have hs : N % 146097 - cum y < if isLeapYear (y + 1) then 366 else 365 := by
    rw [cum_succ, yearLength] at hhi
    omega
  obtain ⟨hm, hoff, hlen⟩ := monthIndex_spec (isLeapYear (y + 1)) _ hs
  generalize monthIndex (offsets (isLeapYear (y + 1))) (N % 146097 - cum y) = m at *
  have hyear1 : 400 * (N / 146097) + (y + 1) - 1 = 400 * (N / 146097) + y := rfl
  refine ⟨?_, ?_, ?_⟩
  · constructor <;> dsimp only
    · omega
    · omega
    · omega
    · omega
    · omega
    · rw [Nat.add_sub_cancel, isLeapYear_add_400]
      omega
    · exact Nat.mod_lt _ (by norm_num)
    · exact Nat.mod_lt _ (by norm_num)
    · exact Nat.mod_lt _ (by norm_num)
    · exact Nat.mod_lt _ (by norm_num)
  · -- the days of the cycles, of the years of the cycle, of the months and of the month
    dsimp only [dayNumber]
    rw [hyear1, cum_add_400, isLeapYear_add_400, Nat.add_sub_cancel, Nat.add_sub_cancel]
    omega
  · dsimp only [timeOfDay]
    rw [← htime]

section Order

variable {dt1 dt2 : DateTime} (h1 : Valid dt1) (h2 : Valid dt2)
include h1 h2

/-- Days are numbered in the order of their dates. -/
theorem dayNumber_lt
    (h : dt1.year < dt2.year ∨ dt1.year = dt2.year ∧
      (dt1.month < dt2.month ∨ dt1.month = dt2.month ∧ dt1.day < dt2.day)) :
    dayNumber dt1 < dayNumber dt2 := by
  have hk1 : dt1.month - 1 < 12 := by have := h1.month_le; omega
  have hk2 : dt2.month - 1 < 12 := by have := h2.month_le; omega
  rcases h with hy | ⟨hy, hm | ⟨hm, hd⟩⟩
  · -- an earlier year ends before the later one starts
    have hcum := cum_le_cum (show dt1.year ≤ dt2.year - 1 by omega)
    have := dayNumber_lt_cum h1
    unfold dayNumber at *
    omega
  · -- an earlier month of the same year ends before the later one starts
    have hle := offset_add_length_le (isLeapYear dt1.year) _ hk1 _ hk2
      (by have := h1.month_pos; omega)
    have := h1.day_le
    have := h1.day_pos
    unfold dayNumber
    rw [← hy]
    omega
  · unfold dayNumber
    rw [hy, hm]
    have := h1.day_pos
    omega

theorem eq_of_dayNumber_eq (hd : dayNumber dt1 = dayNumber dt2)
    (ht : timeOfDay dt1 = timeOfDay dt2) : dt1 = dt2 := by
  -- the dates agree, since any difference orders their day numbers
  have hdate : dt1.year = dt2.year ∧ dt1.month = dt2.month ∧ dt1.day = dt2.day := by
    rcases Nat.lt_trichotomy dt1.year dt2.year with hy | hy | hy
    · exact absurd hd (dayNumber_lt h1 h2 (.inl hy)).ne
    · rcases Nat.lt_trichotomy dt1.month dt2.month with hm | hm | hm
      · exact absurd hd (dayNumber_lt h1 h2 (.inr ⟨hy, .inl hm⟩)).ne
      · rcases Nat.lt_trichotomy dt1.day dt2.day with hday | hday | hday
        · exact absurd hd (dayNumber_lt h1 h2 (.inr ⟨hy, .inr ⟨hm, hday⟩⟩)).ne
        · exact ⟨hy, hm, hday⟩
        · exact absurd hd (dayNumber_lt h2 h1 (.inr ⟨hy.symm, .inr ⟨hm.symm, hday⟩⟩)).ne'
      · exact absurd hd (dayNumber_lt h2 h1 (.inr ⟨hy.symm, .inl hm⟩)).ne'
    · exact absurd hd (dayNumber_lt h2 h1 (.inl hy)).ne'
  -- and the times are the digits of one number in the same mixed radix
  have := h1.hour_lt; have := h1.minute_lt; have := h1.second_lt; have := h1.microsecond_lt
  have := h2.hour_lt; have := h2.minute_lt; have := h2.second_lt; have := h2.microsecond_lt
  unfold timeOfDay at ht
  exact DateTime.ext hdate.1 hdate.2.1 hdate.2.2 (by omega) (by omega) (by omega) (by omega)

/-- The fields of a date in the order of significance. -/
def DateTime.key (dt : DateTime) : List ℕ :=
  [dt.year, dt.month, dt.day, dt.hour, dt.minute, dt.second, dt.microsecond]

theorem dateTimeToTick_lt (hlt : dt1.key < dt2.key) :
    dateTimeToTick dt1 < dateTimeToTick dt2 := by
  have ht1 := timeOfDay_lt h1
  rw [dateTimeToTick_eq h1, dateTimeToTick_eq h2]
  simp only [DateTime.key, List.cons_lt_cons_iff, List.not_lt_nil, and_false, or_false] at hlt
  rcases hlt with hy | ⟨hy, hm | ⟨hm, hd | ⟨hd, htime⟩⟩⟩
  · have := dayNumber_lt h1 h2 (.inl hy)
    omega
  · have := dayNumber_lt h1 h2 (.inr ⟨hy, .inl hm⟩)
    omega
  · have := dayNumber_lt h1 h2 (.inr ⟨hy, .inr ⟨hm, hd⟩⟩)
    omega
  · -- the same day: the times decide
    have hday : dayNumber dt1 = dayNumber dt2 := by
      unfold dayNumber
      rw [hy, hm, hd]
    have := h1.minute_lt; have := h1.second_lt; have := h1.microsecond_lt
    have := h2.minute_lt; have := h2.second_lt; have := h2.microsecond_lt
    unfold timeOfDay
    omega

end Order

theorem tickToDateTime_dateTimeToTick {dt : DateTime} (hv : Valid dt) :
    tickToDateTime (dateTimeToTick dt) = dt := by
  have htime := timeOfDay_lt hv
  have hday : dateTimeToTick dt / 86400000000 = dayNumber dt := by
    rw [dateTimeToTick_eq hv]
    omega
  have hrem : dateTimeToTick dt % 86400000000 = timeOfDay dt := by
    rw [dateTimeToTick_eq hv]
    omega
  have hlt : dayNumber dt < cum 9999 :=
    (dayNumber_lt_cum hv).trans_le (cum_le_cum (by have := hv.year_lt; omega))
  obtain ⟨hv', hday', htime'⟩ := tickToDateTime_spec (t := dateTimeToTick dt) (by rwa [hday])
  exact eq_of_dayNumber_eq hv' hv (hday'.trans hday) (htime'.trans hrem)

/-! ### Weekdays -/

/-- On non-negative arguments the truncating `/` and `%` of `cellRtcGetDayOfWeek` are those of
`ℕ`. -/
theorem weekday_tdiv (Y M D : ℕ) :
    (((M : ℤ) * 13 + 8).tdiv 5 + Y + (Y : ℤ).tdiv 4 - (Y : ℤ).tdiv 100 + (Y : ℤ).tdiv 400 + D).tmod 7 =
      (((M * 13 + 8) / 5 + Y + Y / 4 - Y / 100 + Y / 400 + D) % 7 : ℕ) := by
  have h : Y / 100 ≤ (M * 13 + 8) / 5 + Y + Y / 4 := by omega
  rw [Int.tdiv_eq_ediv_of_nonneg (by omega), Int.tdiv_eq_ediv_of_nonneg (by omega),
    Int.tdiv_eq_ediv_of_nonneg (by omega), Int.tdiv_eq_ediv_of_nonneg (by omega),
    Int.tmod_eq_emod_of_nonneg (by omega)]
  push_cast [h]
  rfl

/-- From March on, `(13 m + 8) / 5` steps through the weekdays as the days before the month do,
less one; the leap day adds one to every month from March. -/
theorem weekday_table : ∀ m < 13, 3 ≤ m →
    (monthOffset.getD (m - 1) 0 + 6) % 7 = (m * 13 + 8) / 5 % 7 ∧
    monthOffsetLeap.getD (m - 1) 0 = monthOffset.getD (m - 1) 0 + 1 := by
  decide

/-- The weekday formula counts the days from 0001-01-01, a Monday, modulo 7. -/
theorem getDayOfWeek_eq {dt : DateTime} (hv : Valid dt) :
    getDayOfWeek dt.year dt.month dt.day = ((dayNumber dt + 1) % 7 : ℕ) := by
  obtain ⟨y, m, d, hour, minute, second, microsecond⟩ := dt
  have hy : 1 ≤ y := hv.year_pos
  have hm₁ : 1 ≤ m := hv.month_pos
  have hm₂ : m ≤ 12 := hv.month_le
  have hd : 1 ≤ d := hv.day_pos
  unfold getDayOfWeek dayNumber
  dsimp only
  split_ifs with hs
  · -- January and February: the leap days of the years before, and no leap day in the table
    have hm : m = 1 ∨ m = 2 := by exact_mod_cast hs
    obtain ⟨Y, rfl⟩ : ∃ Y, y = Y + 1 := ⟨y - 1, by omega⟩
    rw [show ((Y + 1 : ℕ) : ℤ) - 1 = (Y : ℤ) by push_cast; ring, show (m : ℤ) + 12 = ((m + 12 : ℕ) : ℤ) by
      push_cast; rfl, weekday_tdiv, Nat.cast_inj, Nat.add_sub_cancel]
    apply Nat.modEq_iff_dvd.mpr
    have hcy : cum Y = 365 * Y + Y / 4 - Y / 100 + Y / 400 := rfl
    have hle : Y / 100 ≤ Y / 4 := Nat.div_le_div_left (by norm_num) (by norm_num)
    generalize Y / 4 = a, Y / 100 = b, Y / 400 = c at hcy hle ⊢
    rcases hm with rfl | rfl <;> cases isLeapYear (Y + 1) <;>
      simp only [offsets, monthOffset, monthOffsetLeap, Bool.false_eq_true, if_true, if_false,
        List.getD_cons_zero, List.getD_cons_succ, Nat.sub_self] <;> omega
  · -- from March: the leap days up to the year itself, and the table's leap day
    have hm₃ : 3 ≤ m := by
      by_contra h
      exact hs (by omega)
    rw [weekday_tdiv, Nat.cast_inj]
    apply Nat.modEq_iff_dvd.mpr
    obtain ⟨hw, hleap⟩ := weekday_table m (by omega) hm₃
    have hcum := cum_of_pos hy
    have hcy : cum y = 365 * y + y / 4 - y / 100 + y / 400 := rfl
    have hle : y / 100 ≤ y / 4 := Nat.div_le_div_left (by norm_num) (by norm_num)
    rw [yearLength] at hcum
    generalize y / 4 = a, y / 100 = b, y / 400 = c at hcy hle ⊢
    generalize (m * 13 + 8) / 5 = w at hw ⊢
    cases hL : isLeapYear y
    · simp only [offsets, hL, Bool.false_eq_true, if_false] at hcum ⊢
      omega
    · simp only [offsets, hL, if_true] at hcum ⊢
      rw [hleap]
      omega

theorem day_of_week_tick (year month day : ℕ) (h : checkValid ⟨year, month, day, 0, 0, 0, 0⟩ = none) :
    getDayOfWeek year month day =
      ((dateTimeToTick ⟨year, month, day, 0, 0, 0, 0⟩ / 86400000000 + 1) % 7 : ℕ) := by
  have hv := checkValid_eq_none.1 h
  have htime : timeOfDay ⟨year, month, day, 0, 0, 0, 0⟩ = 0 := by simp [timeOfDay]
  have hday : (dayNumber ⟨year, month, day, 0, 0, 0, 0⟩ * 86400000000 + 0) / 86400000000 =
      dayNumber ⟨year, month, day, 0, 0, 0, 0⟩ := by omega
  have hweek := getDayOfWeek_eq hv
  dsimp only at hweek
  rw [dateTimeToTick_eq hv, htime, hday, hweek]

theorem day_of_week_tick_leap_day :
    checkValid ⟨2024, 2, 29, 0, 0, 0, 0⟩ = none ∧
    getDayOfWeek 2024 2 29 = ((dateTimeToTick ⟨2024, 2, 29, 0, 0, 0, 0⟩ / 86400000000 + 1) % 7 : ℕ) :=
  ⟨by decide, day_of_week_tick 2024 2 29 (by decide)⟩

/-! ### Adding months and years -/

/-- The date `iAdd` months after `dt`, borrowing and carrying across years, with the day clamped
to the length of the new month and the time of day kept. -/
def addMonths (dt : DateTime) (iAdd : ℤ) : DateTime :=
  let months : ℤ := dt.year * 12 + (dt.month - 1 : ℕ) + iAdd
  let year := (months / 12).toNat
  let month := (months % 12).toNat + 1
  { dt with
    year := year
    month := month
    day := min dt.day ((lengths (isLeapYear year)).getD (month - 1) 0) }

theorem lengths_bounds : ∀ leap : Bool, ∀ k < 12,
    28 ≤ (lengths leap).getD k 0 ∧ (lengths leap).getD k 0 ≤ 31 := by
  decide

theorem monthDays_eq {year month : ℕ} (hy : 1 ≤ year) (hm₁ : 1 ≤ month) (hm₂ : month ≤ 12) :
    monthDays year month = ((lengths (isLeapYear year)).getD (month - 1) 0 : ℕ) := by
  rw [monthDays, if_neg (by omega)]
  rfl

theorem clampDay_eq {md : ℕ} (day : ℕ) (h : md < 0x10000) : clampDay md day = min day md := by
  unfold clampDay
  split_ifs <;> omega

theorem getTick_eq {dt : DateTime} (h₁ : 1 ≤ dt.year) (h₂ : dt.year ≤ 9999) :
    getTick dt = some (dateTimeToTick dt) := by
  rw [getTick, if_neg (by omega)]

/-- Both calls end alike: the day clamped to the month and the tick of the new date. -/
theorem getTick_clamp (dt : DateTime) {year month : ℕ} (hy₁ : 1 ≤ year) (hy₂ : year ≤ 9999)
    (hm₁ : 1 ≤ month) (hm₂ : month ≤ 12) :
    getTick { dt with year := year, month := month, day := clampDay (monthDays year month) dt.day } =
      some (dateTimeToTick { dt with
        year := year
        month := month
        day := min dt.day ((lengths (isLeapYear year)).getD (month - 1) 0) }) := by
  have hlen := lengths_bounds (isLeapYear year) (month - 1) (by omega)
  rw [monthDays_eq hy₁ hm₁ hm₂, clampDay_eq _ (by omega), getTick_eq hy₁ hy₂]

theorem tickAddMonths_eq {dt : DateTime} (hv : Valid dt) {iAdd : ℤ}
    (h₁ : 1 ≤ (dt.year * 12 + (dt.month - 1 : ℕ) + iAdd) / 12)
    (h₂ : (dt.year * 12 + (dt.month - 1 : ℕ) + iAdd) / 12 ≤ 9999) :
    tickAddMonths (dateTimeToTick dt) iAdd = some (dateTimeToTick (addMonths dt iAdd)) := by
  have hm := hv.month_pos
  -- the `s32` count of months is positive, so `/` truncates as it floors
  have hY : (((dt.year : ℤ) * 12 + dt.month + iAdd - 1).tdiv 12 % 0x10000).toNat =
      ((dt.year * 12 + (dt.month - 1 : ℕ) + iAdd) / 12).toNat := by
    rw [Int.tdiv_eq_ediv_of_nonneg (by omega)]
    omega
  have hM : (((dt.year : ℤ) * 12 + dt.month + iAdd - 1 -
      (((dt.year * 12 + (dt.month - 1 : ℕ) + iAdd) / 12).toNat : ℕ) * 12 + 1) % 0x10000).toNat =
      ((dt.year * 12 + (dt.month - 1 : ℕ) + iAdd) % 12).toNat + 1 := by
    omega
  simp only [tickAddMonths, tickToDateTime_dateTimeToTick hv, hY, hM]
  exact getTick_clamp dt (by omega) (by omega) (by omega) (by omega)

theorem tickAddYears_eq {dt : DateTime} (hv : Valid dt) {iAdd : ℤ} (h₁ : 1 ≤ dt.year + iAdd)
    (h₂ : dt.year + iAdd ≤ 9999) :
    tickAddYears (dateTimeToTick dt) iAdd = some (dateTimeToTick (addMonths dt (12 * iAdd))) := by
  have hm₁ := hv.month_pos
  have hm₂ := hv.month_le
  have hY : ((dt.year + iAdd) % 0x10000).toNat = (dt.year + iAdd).toNat := by omega
  -- twelve months a year: the month stays and the year moves by `iAdd`
  have hyear : ((dt.year * 12 + (dt.month - 1 : ℕ) + 12 * iAdd) / 12).toNat = (dt.year + iAdd).toNat := by
    omega
  have hmonth : ((dt.year * 12 + (dt.month - 1 : ℕ) + 12 * iAdd) % 12).toNat + 1 = dt.month := by
    omega
  simp only [tickAddYears, tickToDateTime_dateTimeToTick hv, hY, addMonths, hyear, hmonth]
  exact getTick_clamp dt (by omega) (by omega) hm₁ hm₂

theorem tick_add_months (dt : DateTime) (hv : checkValid dt = none) :
    (∀ iAdd : ℤ, 1 ≤ (dt.year * 12 + (dt.month - 1 : ℕ) + iAdd) / 12 →
        (dt.year * 12 + (dt.month - 1 : ℕ) + iAdd) / 12 ≤ 9999 →
      tickAddMonths (dateTimeToTick dt) iAdd = some (dateTimeToTick (addMonths dt iAdd))) ∧
    (∀ iAdd : ℤ, 1 ≤ dt.year + iAdd → dt.year + iAdd ≤ 9999 →
      tickAddYears (dateTimeToTick dt) iAdd = some (dateTimeToTick (addMonths dt (12 * iAdd)))) :=
  ⟨fun _ h₁ h₂ => tickAddMonths_eq (checkValid_eq_none.1 hv) h₁ h₂,
    fun _ h₁ h₂ => tickAddYears_eq (checkValid_eq_none.1 hv) h₁ h₂⟩

theorem tick_add_months_leap_day :
    checkValid ⟨2024, 2, 29, 12, 30, 0, 0⟩ = none ∧
    tickAddYears (dateTimeToTick ⟨2024, 2, 29, 12, 30, 0, 0⟩) 1 =
      some (dateTimeToTick (addMonths ⟨2024, 2, 29, 12, 30, 0, 0⟩ (12 * 1))) :=
  ⟨by decide, (tick_add_months _ (by decide)).2 1 (by norm_num) (by norm_num)⟩

example : addMonths ⟨2024, 2, 29, 12, 30, 0, 0⟩ 12 = ⟨2025, 2, 28, 12, 30, 0, 0⟩ := by decide

example : addMonths ⟨2024, 3, 31, 0, 0, 0, 0⟩ (-13) = ⟨2023, 2, 28, 0, 0, 0, 0⟩ := by decide

theorem tick_year_10000 : dateTimeToTick ⟨10000, 1, 1, 0, 0, 0, 0⟩ = cum 9999 * 86400000000 := by
  decide

theorem rtc_tick_date_time :
    (∀ dt, checkValid dt = none → tickToDateTime (dateTimeToTick dt) = dt) ∧
    (∀ t, t < dateTimeToTick ⟨10000, 1, 1, 0, 0, 0, 0⟩ →
      dateTimeToTick (tickToDateTime t) = t) ∧
    (∀ dt1 dt2, checkValid dt1 = none → checkValid dt2 = none → dt1.key < dt2.key →
      dateTimeToTick dt1 < dateTimeToTick dt2) := by
  refine ⟨?_, ?_, ?_⟩
  · intro dt hdt
    exact tickToDateTime_dateTimeToTick (checkValid_eq_none.1 hdt)
  · intro t ht
    rw [tick_year_10000] at ht
    obtain ⟨hv, hday, htime⟩ := tickToDateTime_spec (t := t) (by omega)
    rw [dateTimeToTick_eq hv, hday, htime]
    exact Nat.div_add_mod' t _
  · intro dt1 dt2 h1 h2 hlt
    exact dateTimeToTick_lt (checkValid_eq_none.1 h1) (checkValid_eq_none.1 h2) hlt

end Rpcs3.Cell.Rtc

