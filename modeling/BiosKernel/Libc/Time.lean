import BiosKernel.Lib.Calendar
import BiosKernel.Lib.MachineInt

namespace BiosKernel
open Calendar MachineInt
set_option autoImplicit true

def weekdays : List String := ["Sun", "Mon", "Tue", "Wed", "Thu", "Fri", "Sat"]

def isLeapYear (year : Nat) : Bool := year % 4 = 0 ∧ year % 100 ≠ 0 ∨ year % 400 = 0

def daysInMonth (month year : Nat) : Nat :=
  if month = 2 ∧ isLeapYear year then 29
  else [31, 28, 31, 30, 31, 30, 31, 31, 30, 31, 30, 31].getD (month - 1) 0

/-- The variables that `read_rtc` fills, with a date of the Gregorian calendar. -/
structure Clock where
  (second minute hour day month year : Nat)
  second_lt : second < 60
  minute_lt : minute < 60
  hour_lt : hour < 24
  day_pos : 0 < day
  day_le : day ≤ monthLength year month
  month_pos : 0 < month
  month_le : month ≤ 12
  year_lt : year < 2 ^ 32

namespace Clock

/-- The days that `unix_time` counts. -/
def days (c : Clock) : Nat :=
  let days := (List.range' 1970 (c.year - 1970)).foldl
    (fun days i => days + if isLeapYear i then 366 else 365) 0
  let days := (List.range' 1 (c.month - 1)).foldl
    (fun days i => days + daysInMonth i c.year) days
  days + (c.day - 1)

/-- `unix_time`. No number of it comes near 2^64. -/
def unixTime (c : Clock) : Nat := c.days * 86400 + c.hour * 3600 + c.minute * 60 + c.second

end Clock

/-- The index that `day_of_week` uses. Its arguments are `unsigned int`, its own variables `int`. -/
def weekdayIndex (day month year : Nat) : Int :=
  let k := int32 day
  let m := int32 month
  let y := int32 year
  -- January and February count as months of the year before
  let y := if m < 3 then int32 (y - 1) else y
  let m := if m < 3 then int32 (m + 12) else m
  let h := (int32 (k + (int32 (13 * (m + 1))).tdiv 5 + y + y.tdiv 4 - y.tdiv 100 +
    y.tdiv 400)).tmod 7
  int32 (h - 1)

/-- The name at the index, or none if it is outside the table. -/
def dayOfWeek (day month year : Nat) : Option String :=
  if 0 ≤ weekdayIndex day month year then weekdays[(weekdayIndex day month year).toNat]? else none

theorem isLeapYear_iff (year : Nat) : isLeapYear year = true ↔ Leap year := decide_eq_true_iff

theorem daysInMonth_eq (year : Nat) (hm : 0 < month) (h12 : month ≤ 12) :
    daysInMonth month year = monthLength year month := by
  simp only [daysInMonth, isLeapYear_iff]
  interval_cases month <;> simp [monthLength]

theorem yearLoop_eq (n : Nat) :
    (List.range' 1970 n).foldl (fun days i => days + if isLeapYear i then 366 else 365) 0 + 719469 =
      dayNumber (1970 + n) 1 1 := by
  induction n with
  | zero => decide
  | succ n ih =>
    have hyear := dayNumber_year (y := 1970 + n) (by omega) 1
    simp only [isLeapYear_iff] at ih ⊢
    rw [List.range'_concat, List.foldl_append, List.foldl_cons, List.foldl_nil, Nat.one_mul,
      ← Nat.add_assoc, hyear, ← ih]
    omega

theorem monthLoop_eq (hy : 0 < year) (hn : n < 12) (days : Nat)
    (h : days + 719469 = dayNumber year 1 1) :
    (List.range' 1 n).foldl (fun days i => days + daysInMonth i year) days + 719469 =
      dayNumber year (1 + n) 1 := by
  induction n with
  | zero => exact h
  | succ n ih =>
    have hmonth := dayNumber_month (m := 1 + n) hy (by omega) (by omega) 1
    rw [List.range'_concat, List.foldl_append, List.foldl_cons, List.foldl_nil, Nat.one_mul,
      daysInMonth_eq year (by omega) (by omega), ← Nat.add_assoc 1 n 1, hmonth,
      ← ih (Nat.lt_of_succ_lt hn)]
    omega

theorem Clock.days_eq (c : Clock) (h : 1970 ≤ c.year) :
    c.days + 719469 = dayNumber c.year c.month c.day := by
  have hyear := yearLoop_eq (c.year - 1970)
  have hday := c.day_pos
  have hmonth := c.month_pos
  rw [Nat.add_sub_cancel' h] at hyear
  have hloop := monthLoop_eq (n := c.month - 1) (by omega) (by have := c.month_le; omega) _ hyear
  rw [Nat.add_sub_cancel' hmonth] at hloop
  rw [dayNumber_day _ _ hday, ← hloop, days]
  omega

theorem Clock.unixTime_div (c : Clock) : c.unixTime / 86400 = c.days := by
  have := c.second_lt
  have := c.minute_lt
  have := c.hour_lt
  rw [unixTime]
  omega

/-- The part of Zeller's sum that comes from the day and the month. -/
def zellerBase (day month : Nat) : Nat := day + 13 * (marchMonth month + 1) / 5

/-- Zeller's congruence: its sum is the day of the week counted from Saturday. -/
theorem weekday_eq (day year : Nat) (hm : 0 < month) :
    weekday year month day =
      (zellerBase day month + marchYear year month + leapDays (marchYear year month) + 6) % 7 := by
  have hmarch : 3 ≤ marchMonth month := by
    rw [marchMonth]
    split <;> omega
  have hmonths : (153 * (marchMonth month - 3) + 2) / 5 + 94 =
      28 * marchMonth month + 13 * (marchMonth month + 1) / 5 := by omega
  rw [weekday, dayNumber, zellerBase]
  generalize (153 * (marchMonth month - 3) + 2) / 5 = a at hmonths ⊢
  generalize 13 * (marchMonth month + 1) / 5 = b at hmonths ⊢
  omega

theorem zellerBase_le (hd : day ≤ 31) (hm : month ≤ 12) : zellerBase day month ≤ 70 := by
  have hmarch : marchMonth month ≤ 14 := by
    rw [marchMonth]
    split <;> omega
  rw [zellerBase]
  omega

/-- The sum in the arithmetic of the code. -/
def zellerSum (base : Nat) (y : Int) : Int :=
  int32 (base + y + y.tdiv 4 - y.tdiv 100 + y.tdiv 400)

theorem weekdayIndex_eq (hd : day ≤ 31) (hm : 0 < month) (h12 : month ≤ 12) (hy : 0 < year) :
    weekdayIndex day month year =
      (zellerSum (zellerBase day month) (int32 (marchYear year month))).tmod 7 - 1 := by
  have hindex (h : Int) : int32 (h.tmod 7 - 1) = h.tmod 7 - 1 := by
    have hlow := Int.lt_tmod_of_pos h (b := 7) (by decide)
    have hhigh := Int.tmod_lt_of_pos h (b := 7) (by decide)
    exact int32_eq (by omega) (by omega)
  have hday : int32 day = day := int32_eq (by omega) (by omega)
  have hmonth : int32 month = month := int32_eq (by omega) (by omega)
  have hbase (m : Nat) (hm : m ≤ 14) :
      int32 day + (int32 (13 * ((m : Int) + 1))).tdiv 5 = (day + 13 * (m + 1) / 5 : Nat) := by
    rw [hday, int32_eq (by omega) (by omega), Int.tdiv_eq_ediv_of_nonneg (by omega)]
    omega
  rw [weekdayIndex, zellerSum, zellerBase, marchYear, marchMonth]
  simp only [hmonth]
  by_cases h3 : month < 3
  · have hnext : int32 ((month : Int) + 12) = (month + 12 : Nat) :=
      int32_eq (by omega) (by omega)
    have hlast : int32 (int32 year - 1) = int32 (year - 1 : Nat) := by
      simp only [int32]
      omega
    have hlt : (month : Int) < 3 := by omega
    simp only [hlt, h3, if_true, hnext, hlast, hbase (month + 12) (by omega), hindex]
  · have hge : ¬(month : Int) < 3 := by omega
    simp only [hge, h3, if_false, hbase month (by omega), hindex]

theorem zellerSum_of_nonneg {y : Nat} (hb : base ≤ 70) (hy : y < 2 ^ 31) :
    zellerSum base (int32 y) = if base + y + leapDays y < 2 ^ 31 then (base + y + leapDays y : Int)
      else base + y + leapDays y - 2 ^ 32 := by
  have hself : int32 y = y := int32_eq (by omega) (by omega)
  have hle : y / 100 ≤ y / 4 := Nat.div_le_div_left (by decide) (by decide)
  rw [zellerSum, hself, Int.tdiv_eq_ediv_of_nonneg (by omega),
    Int.tdiv_eq_ediv_of_nonneg (by omega), Int.tdiv_eq_ediv_of_nonneg (by omega), int32, leapDays]
  split <;> omega

/-- From 2^31 on the year is a negative `int`, whose quotients are rounded towards zero. -/
theorem zellerSum_of_neg {n : Nat} (hb : base ≤ 70) (hn : 0 < n) (hle : n ≤ 2 ^ 31) :
    zellerSum base (int32 (2 ^ 32 - n : Nat)) =
      if base + 2 ^ 31 < n + leapDays n then (base - n - leapDays n + 2 ^ 32 : Int)
      else base - n - leapDays n := by
  have hself : int32 (2 ^ 32 - n : Nat) = -(n : Int) := by
    rw [int32]
    omega
  have hquarter : n / 100 ≤ n / 4 := Nat.div_le_div_left (by decide) (by decide)
  rw [zellerSum, hself, Int.neg_tdiv, Int.neg_tdiv, Int.neg_tdiv,
    Int.tdiv_eq_ediv_of_nonneg (by omega), Int.tdiv_eq_ediv_of_nonneg (by omega),
    Int.tdiv_eq_ediv_of_nonneg (by omega), int32, leapDays]
  split <;> omega

/-- The sum is an `int`. Where the year is a negative one, the sum is above zero and its remainder
is right by chance. -/
def SumFits (day month year : Nat) : Prop :=
  let y := marchYear year month
  if y < 2 ^ 31 then zellerBase day month + y + leapDays y < 2 ^ 31
  else y % 4 ≠ 0 ∧ 2 ^ 32 - y + (2 ^ 32 - y) / 4 < zellerBase day month

theorem tmod_sub_one_neg {s : Int} (h : s ≤ 0) : s.tmod 7 - 1 < 0 := by
  have h0 : s.tmod 7 ≤ 0 := by
    have hneg : 0 ≤ (-s).tmod 7 := Int.tmod_nonneg 7 (by omega)
    rw [Int.neg_tmod] at hneg
    omega
  omega

theorem tmod_sub_one_eq_iff {s : Int} (h : 0 ≤ s) (w : Nat) :
    s.tmod 7 - 1 = w ↔ s % 7 = w + 1 := by
  rw [Int.tmod_eq_emod_of_nonneg h]
  omega

theorem zellerSum_eq_weekday_iff {y : Nat} (hb : base ≤ 70) (h0 : 0 < base) (hy : y < 2 ^ 31) :
    (zellerSum base (int32 y)).tmod 7 - 1 = ((base + y + leapDays y + 6) % 7 : Nat) ↔
      (base + y + leapDays y + 6) % 7 ≠ 6 ∧ base + y + leapDays y < 2 ^ 31 := by
  have hle : 4 * leapDays y ≤ y := by
    rw [leapDays]
    omega
  rw [zellerSum_of_nonneg hb hy]
  generalize leapDays y = l at hle ⊢
  split
  · rename_i h
    rw [tmod_sub_one_eq_iff (by omega)]
    omega
  · rename_i h
    have hneg := tmod_sub_one_neg (s := base + y + l - 2 ^ 32) (by omega)
    omega

theorem leapDays_sub {n : Nat} (hle : n ≤ 2 ^ 31) :
    leapDays (2 ^ 32 - n) + leapDays n + (if n % 4 = 0 then 0 else 1) +
        (if n % 400 ≤ 96 then 0 else 1) =
      2 ^ 30 - 42949672 + 10737418 + if n % 100 ≤ 96 then 0 else 1 := by
  rw [leapDays, leapDays]
  split <;> split <;> split <;> omega

theorem zellerSum_eq_weekday_iff_of_neg {n : Nat} (hb : base ≤ 70) (hn : 0 < n)
    (hle : n ≤ 2 ^ 31) :
    (zellerSum base (int32 (2 ^ 32 - n : Nat))).tmod 7 - 1 =
        ((base + (2 ^ 32 - n) + leapDays (2 ^ 32 - n) + 6) % 7 : Nat) ↔
      (base + (2 ^ 32 - n) + leapDays (2 ^ 32 - n) + 6) % 7 ≠ 6 ∧
        (2 ^ 32 - n) % 4 ≠ 0 ∧ n + n / 4 < base := by
  have hleap := leapDays_sub hle
  have hsmall : 4 * leapDays n ≤ n := by
    rw [leapDays]
    omega
  have hdays : n < 100 → leapDays n = n / 4 := by
    intro h
    rw [leapDays]
    omega
  rw [zellerSum_of_neg hb hn hle]
  generalize leapDays (2 ^ 32 - n) = a at hleap ⊢
  generalize leapDays n = b at hleap hsmall hdays ⊢
  split
  · rename_i hwrap
    rw [tmod_sub_one_eq_iff (by omega)]
    -- the remainder is wrong by 2 to 5
    have hfalse : ¬(n + n / 4 < base) := by omega
    refine ⟨fun h => ?_, fun h => absurd h.2.2 hfalse⟩
    split at hleap <;> split at hleap <;> split at hleap <;> omega
  · by_cases hpos : n + b < base
    · have hb : b = n / 4 := hdays (by omega)
      rw [if_pos (by omega : n % 400 ≤ 96), if_pos (by omega : n % 100 ≤ 96)] at hleap
      rw [tmod_sub_one_eq_iff (by omega)]
      split at hleap <;> omega
    · have hneg := tmod_sub_one_neg (s := base - n - b) (by omega)
      refine ⟨fun h => by omega, fun h => ?_⟩
      have hb := hdays (by omega)
      omega

theorem weekdays_eq_iff {i w : Nat} (hi : i < 7) (hw : w < 7) :
    weekdays[i]? = weekdays[w]? ↔ i = w := by
  have hall : ∀ i w : Fin 7, weekdays[i.val]? = weekdays[w.val]? ↔ i = w := by decide
  have h := hall ⟨i, hi⟩ ⟨w, hw⟩
  rwa [Fin.mk.injEq] at h

theorem dayOfWeek_eq_iff {w : Nat} (hw : w < 7) :
    (0 ≤ weekdayIndex day month year ∧ weekdayIndex day month year < 7 ∧
      dayOfWeek day month year = weekdays[w]?) ↔ weekdayIndex day month year = w := by
  rw [dayOfWeek]
  constructor
  · rintro ⟨h0, h7, hname⟩
    rw [if_pos h0, weekdays_eq_iff (by omega) hw] at hname
    omega
  · intro h
    rw [h, if_pos (Int.natCast_nonneg w)]
    exact ⟨Int.natCast_nonneg w, by omega, rfl⟩

/-- `day_of_week` and `unix_time` agree on a date exactly if it is no Saturday and its sum is an
`int`. -/
theorem Clock.dayOfWeek_iff (c : Clock) (h : 1970 ≤ c.year) :
    (0 ≤ weekdayIndex c.day c.month c.year ∧ weekdayIndex c.day c.month c.year < 7 ∧
      dayOfWeek c.day c.month c.year = weekdays[(c.unixTime / 86400 + 4) % 7]?) ↔
    weekday c.year c.month c.day ≠ 6 ∧ SumFits c.day c.month c.year := by
  have hdays := c.days_eq h
  have hname : (c.unixTime / 86400 + 4) % 7 = weekday c.year c.month c.day := by
    rw [c.unixTime_div, weekday, ← hdays]
    omega
  have hday : c.day ≤ 31 := Nat.le_trans c.day_le (monthLength_le _ _)
  have hbase := zellerBase_le hday c.month_le
  rw [hname, dayOfWeek_eq_iff (weekday_lt _ _ _),
    weekdayIndex_eq hday c.month_pos c.month_le (by omega), weekday_eq _ _ c.month_pos, SumFits]
  have hyear : marchYear c.year c.month < 2 ^ 32 := by
    have := c.year_lt
    rw [marchYear]
    split <;> omega
  have hpos : 0 < zellerBase c.day c.month := by
    have := c.day_pos
    rw [zellerBase]
    omega
  generalize marchYear c.year c.month = y at hyear ⊢
  split
  · rename_i hy
    exact zellerSum_eq_weekday_iff hbase hpos hy
  · rename_i hy
    obtain ⟨n, hn, rfl⟩ : ∃ n, n ≤ 2 ^ 31 ∧ y = 2 ^ 32 - n := ⟨2 ^ 32 - y, by omega, by omega⟩
    rw [Nat.sub_sub_self (by omega)]
    exact zellerSum_eq_weekday_iff_of_neg hbase (by omega) hn

/-- 2 January 1970 was a Friday. -/
theorem Clock.dayOfWeek_friday :
    let c : Clock := ⟨0, 0, 0, 2, 1, 1970, by decide, by decide, by decide, by decide, by decide,
      by decide, by decide, by decide⟩
    weekdayIndex c.day c.month c.year = 5 ∧
      dayOfWeek c.day c.month c.year = weekdays[(c.unixTime / 86400 + 4) % 7]? := by
  intro c
  have hfits : SumFits c.day c.month c.year := by
    rw [SumFits, if_pos (by decide)]
    decide
  obtain ⟨-, -, hname⟩ := (c.dayOfWeek_iff (by decide)).mpr ⟨by decide, hfits⟩
  exact ⟨by decide +kernel, hname⟩

/-- 3 January 1970 was a Saturday: the index is before the table. -/
theorem Clock.dayOfWeek_saturday :
    let c : Clock := ⟨0, 0, 0, 3, 1, 1970, by decide, by decide, by decide, by decide, by decide,
      by decide, by decide, by decide⟩
    (c.unixTime / 86400 + 4) % 7 = 6 ∧ weekdayIndex c.day c.month c.year = -1 := by
  decide +kernel

end BiosKernel
