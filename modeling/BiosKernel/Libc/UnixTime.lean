import BiosKernel.Libc.Time
import Mathlib.Algebra.GroupWithZero.Nat

namespace BiosKernel
open Calendar
set_option autoImplicit true

theorem yearLoop_count (n : Nat) :
    (List.range' 1970 n).foldl (fun days i => days + if isLeapYear i then 366 else 365) 0 =
      365 * n + (List.range' 1970 n).countP (fun i => Leap i) := by
  induction n with
  | zero => rfl
  | succ n ih =>
    rw [List.range'_concat, List.foldl_append, List.countP_append, ih, List.countP_singleton,
      List.foldl_cons, List.foldl_nil]
    simp only [isLeapYear_iff, decide_eq_true_eq]
    split <;> omega

theorem monthLoop_sum (year days : Nat) (hn : n < 12) :
    (List.range' 1 n).foldl (fun days i => days + daysInMonth i year) days =
      days + ((List.range' 1 n).map (monthLength year)).sum := by
  induction n with
  | zero => rfl
  | succ n ih =>
    rw [List.range'_concat, List.foldl_append, List.map_append, List.sum_append,
      ih (Nat.lt_of_succ_lt hn), List.foldl_cons, List.foldl_nil,
      daysInMonth_eq year (by omega) (by omega), List.map_singleton, List.sum_singleton,
      Nat.add_assoc]

namespace Clock

theorem days_eq_epochDays (c : Clock) : c.days = epochDays c.year c.month c.day := by
  have hday := c.day_pos
  have hmonth := c.month_le
  simp only [days, epochDays]
  rw [yearLoop_count, monthLoop_sum _ _ (by omega), Nat.add_sub_assoc hday]

theorem days_lt (c : Clock) (h : 1970 ≤ c.year) : c.days < 2 ^ 42 := by
  have hdays := c.days_eq h
  have hyear := c.year_lt
  have hmonth := c.month_le
  have hday := Nat.le_trans c.day_le (monthLength_le _ _)
  have hmarch : marchYear c.year c.month ≤ c.year := by
    rw [marchYear]
    split <;> omega
  have hmonths : marchMonth c.month ≤ 14 := by
    rw [marchMonth]
    split <;> omega
  rw [dayNumber, leapDays] at hdays
  generalize marchYear c.year c.month = y at *
  generalize marchMonth c.month = m at *
  omega

/-- What orders two times, the year first. -/
def fields (c : Clock) : List Nat := [c.year, c.month, c.day, c.hour, c.minute, c.second]

theorem fields_lt_iff (c c' : Clock) :
    c.fields < c'.fields ↔ c.year < c'.year ∨ c.year = c'.year ∧ (c.month < c'.month ∨
      c.month = c'.month ∧ (c.day < c'.day ∨ c.day = c'.day ∧ (c.hour < c'.hour ∨
        c.hour = c'.hour ∧ (c.minute < c'.minute ∨ c.minute = c'.minute ∧
          c.second < c'.second)))) := by
  simp only [fields, List.cons_lt_cons_iff, List.not_lt_nil, and_false, or_false]

theorem unixTime_lt (c c' : Clock) (h : 1970 ≤ c.year) (hlt : c.fields < c'.fields) :
    c.unixTime < c'.unixTime := by
  rw [fields_lt_iff] at hlt
  have hyear : 1970 ≤ c'.year := by
    rcases hlt with hlt | ⟨heq, _⟩
    · omega
    · omega
  have hdays := c.days_eq h
  have hdays' := c'.days_eq hyear
  have hsecond := c.second_lt
  have hminute := c.minute_lt
  have hhour := c.hour_lt
  rw [unixTime, unixTime]
  by_cases hdate : c.year = c'.year ∧ c.month = c'.month ∧ c.day = c'.day
  · obtain ⟨hy, hm, hd⟩ := hdate
    rw [hy, hm, hd] at hdays
    have hsame : c.days = c'.days := by omega
    have := c'.second_lt
    have := c'.minute_lt
    omega
  · have hnumber : dayNumber c.year c.month c.day < dayNumber c'.year c'.month c'.day := by
      apply dayNumber_lt (by omega) c.month_pos c.month_le c.day_pos c.day_le c'.month_pos
        c'.month_le c'.day_pos
      omega
    omega

/-- `unix_time` is the count of the seconds from the epoch on, and orders the times. -/
theorem unixTime_spec (c : Clock) (h : 1970 ≤ c.year) :
    c.unixTime =
        86400 * epochDays c.year c.month c.day + 3600 * c.hour + 60 * c.minute + c.second ∧
      (epochDays c.year c.month c.day : Int) = daysFromCivil c.year c.month c.day ∧
      c.unixTime < 2 ^ 64 ∧
      ∀ c' : Clock, c.fields < c'.fields → c.unixTime < c'.unixTime := by
  have hdays := c.days_eq h
  have hlt := c.days_lt h
  have hsecond := c.second_lt
  have hminute := c.minute_lt
  have hhour := c.hour_lt
  refine ⟨?_, ?_, ?_, fun c' => c.unixTime_lt c' h⟩
  · rw [unixTime, c.days_eq_epochDays]
    omega
  · rw [daysFromCivil_eq _ _ c.day_pos, ← c.days_eq_epochDays, ← hdays]
    omega
  · rw [unixTime]
    omega

/-- The last second before the leap day of 2000, and the first one of it. -/
theorem unixTime_spec_february :
    let c : Clock := ⟨59, 59, 23, 28, 2, 2000, by decide, by decide, by decide, by decide,
      by decide, by decide, by decide, by decide⟩
    let c' : Clock := ⟨0, 0, 0, 29, 2, 2000, by decide, by decide, by decide, by decide, by decide,
      by decide, by decide, by decide⟩
    c.unixTime = 951782399 ∧ c.unixTime < c'.unixTime := by
  intro c c'
  have hspec := unixTime_spec c (by decide)
  have hdays : epochDays c.year c.month c.day = 11015 := by decide
  have hseconds : 86400 * 11015 + 3600 * 23 + 60 * 59 + 59 = 951782399 := by decide
  rw [hdays] at hspec
  exact ⟨hspec.1.trans hseconds, hspec.2.2.2 c' (by decide)⟩

end Clock

end BiosKernel
