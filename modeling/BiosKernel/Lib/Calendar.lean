import Mathlib.Algebra.Group.Nat.Defs
import Mathlib.Tactic.Common
import Mathlib.Tactic.IntervalCases

namespace Calendar
set_option autoImplicit true

def Leap (y : Nat) : Prop := y % 4 = 0 ∧ y % 100 ≠ 0 ∨ y % 400 = 0

instance (y : Nat) : Decidable (Leap y) :=
  inferInstanceAs (Decidable (y % 4 = 0 ∧ y % 100 ≠ 0 ∨ y % 400 = 0))

def monthLength (y : Nat) : Nat → Nat
  | 2 => if Leap y then 29 else 28
  | 4 | 6 | 9 | 11 => 30
  | _ => 31

/-- The year that a month belongs to when years begin in March, so that the leap day is the last one
of its year. -/
def marchYear (y m : Nat) : Nat := if m < 3 then y - 1 else y

/-- The months from March to February, counted from 3 to 14. -/
def marchMonth (m : Nat) : Nat := if m < 3 then m + 12 else m

/-- The leap days up to the end of a year. -/
def leapDays (y : Nat) : Nat := y / 4 - y / 100 + y / 400

/-- The days from the last one of February of the year 0 on. -/
def dayNumber (y m d : Nat) : Nat :=
  365 * marchYear y m + leapDays (marchYear y m) + (153 * (marchMonth m - 3) + 2) / 5 + d

/-- The day of the week, counted from Sunday. -/
def weekday (y m d : Nat) : Nat := (dayNumber y m d + 2) % 7

/-- The days from 1970-01-01 on, counted by years, leap years and months. -/
def epochDays (y m d : Nat) : Nat :=
  365 * (y - 1970) + (List.range' 1970 (y - 1970)).countP (fun i => Leap i) +
    ((List.range' 1 (m - 1)).map (monthLength y)).sum + d - 1

/-- The days from 1970-01-01 on in closed form, by eras of 400 years that begin in March. -/
def daysFromCivil (y m d : Nat) : Int :=
  let era := marchYear y m / 400
  let yoe := marchYear y m % 400
  let doy := (153 * (marchMonth m - 3) + 2) / 5 + d - 1
  let doe := yoe * 365 + yoe / 4 - yoe / 100 + doy
  era * 146097 + doe - 719468

theorem monthLength_le (y m : Nat) : monthLength y m ≤ 31 := by
  rw [monthLength.eq_def]
  repeat' split
  all_goals decide

theorem weekday_lt (y m d : Nat) : weekday y m d < 7 := Nat.mod_lt _ (by decide)

theorem succ_div_eq (y k : Nat) :
    (y + 1) / k = y / k + if (y + 1) % k = 0 then 1 else 0 := by
  simp only [Nat.succ_div, Nat.dvd_iff_mod_eq_zero]

theorem leapDays_succ (y : Nat) :
    leapDays (y + 1) = leapDays y + if Leap (y + 1) then 1 else 0 := by
  have h4 := succ_div_eq y 4
  have h100 := succ_div_eq y 100
  have h400 := succ_div_eq y 400
  have hle : y / 100 ≤ y / 4 := Nat.div_le_div_left (by decide) (by decide)
  -- a multiple of 400 is one of 100, and a multiple of 100 is one of 4
  have hleap : Leap (y + 1) ↔ (y + 1) % 4 = 0 ∧ (y + 1) % 100 ≠ 0 ∨ (y + 1) % 400 = 0 := Iff.rfl
  rw [leapDays, leapDays]
  by_cases hl : Leap (y + 1)
  · rw [if_pos hl]
    rw [hleap] at hl
    split at h4 <;> split at h100 <;> split at h400 <;> omega
  · rw [if_neg hl]
    rw [hleap] at hl
    split at h4 <;> split at h100 <;> split at h400 <;> omega

theorem dayNumber_month (hy : 0 < y) (hm : 0 < m) (h12 : m < 12) (d : Nat) :
    dayNumber y (m + 1) d = dayNumber y m d + monthLength y m := by
  obtain ⟨y, rfl⟩ := Nat.exists_eq_add_one.mpr hy
  have hleap := leapDays_succ y
  by_cases hl : Leap (y + 1)
  all_goals
    simp only [hl, if_true, if_false] at hleap
    interval_cases m <;>
      simp only [dayNumber, marchYear, marchMonth, monthLength, hl, hleap, Nat.add_sub_cancel,
        Nat.reduceAdd, Nat.reduceLT, if_true, if_false] <;>
      omega

theorem dayNumber_year (hy : 0 < y) (d : Nat) :
    dayNumber (y + 1) 1 d = dayNumber y 1 d + if Leap y then 366 else 365 := by
  obtain ⟨y, rfl⟩ := Nat.exists_eq_add_one.mpr hy
  have hleap := leapDays_succ y
  simp only [dayNumber, marchYear, marchMonth, Nat.add_sub_cancel, Nat.reduceLT, if_true]
  rw [hleap]
  split <;> omega

theorem dayNumber_day (y m : Nat) (hd : 0 < d) :
    dayNumber y m d = dayNumber y m 1 + (d - 1) := by
  simp only [dayNumber]
  omega

theorem daysFromCivil_eq (y m : Nat) (hd : 0 < d) :
    daysFromCivil y m d = dayNumber y m d - 719469 := by
  simp only [daysFromCivil, dayNumber, leapDays]
  generalize marchYear y m = y
  generalize (153 * (marchMonth m - 3) + 2) / 5 = months
  omega

theorem dayNumber_month_le (hy : 0 < y) (hm : 0 < m) (h : m < m') (h12 : m' ≤ 12) :
    dayNumber y m 1 + monthLength y m ≤ dayNumber y m' 1 := by
  induction m', h using Nat.le_induction with
  | base =>
    exact Nat.le_of_eq (dayNumber_month hy hm h12 1).symm
  | succ m' hle ih =>
    have hnext := dayNumber_month (m := m') hy (by omega) (by omega) 1
    have := ih (Nat.le_of_succ_le h12)
    omega

theorem dayNumber_year_le (hy : 0 < y) (hm : 0 < m) (h12 : m ≤ 12) (h : y < y') :
    dayNumber y m 1 + monthLength y m ≤ dayNumber y' 1 1 := by
  induction y', h using Nat.le_induction with
  | base =>
    have hdecember : dayNumber (y + 1) 1 1 = dayNumber y 12 1 + monthLength y 12 := by
      simp only [dayNumber, marchYear, marchMonth, monthLength, Nat.add_sub_cancel, Nat.reduceLT,
        if_true, if_false]
    rw [Nat.succ_eq_add_one, hdecember]
    rcases Nat.lt_or_eq_of_le h12 with hlt | rfl
    · have := dayNumber_month_le hy hm hlt (Nat.le_refl 12)
      omega
    · exact Nat.le_refl _
  | succ y' hle ih =>
    have hnext := dayNumber_year (y := y') (by omega) 1
    omega

/-- A later date has the larger number. -/
theorem dayNumber_lt (hy : 0 < y) (hm : 0 < m) (h12 : m ≤ 12) (hd : 0 < d)
    (hlen : d ≤ monthLength y m) (hm' : 0 < m') (h12' : m' ≤ 12) (hd' : 0 < d')
    (h : y < y' ∨ y = y' ∧ (m < m' ∨ m = m' ∧ d < d')) :
    dayNumber y m d < dayNumber y' m' d' := by
  have hday := dayNumber_day y m hd
  have hday' := dayNumber_day y' m' hd'
  rcases h with h | ⟨rfl, h | ⟨rfl, h⟩⟩
  · have hyear := dayNumber_year_le hy hm h12 h
    have hmonth : dayNumber y' 1 1 ≤ dayNumber y' m' 1 := by
      by_cases h1 : m' = 1
      · rw [h1]
      · have := dayNumber_month_le (y := y') (m := 1) (by omega) (by decide) (by omega) h12'
        omega
    omega
  · have := dayNumber_month_le hy hm h h12'
    omega
  · omega

end Calendar
