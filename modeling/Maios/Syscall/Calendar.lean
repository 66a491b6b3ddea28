import Mathlib.Algebra.BigOperators.Intervals
import Mathlib.Tactic.IntervalCases

/-!
# The time of the real-time clock

The clock gives a date and a time of day. The system calls turn them into seconds since 1970 with a
closed formula: the year begins in March, so that the leap day is its last day, and one linear
expression counts the days of the months before. The formula is compared with the calendar here.

## Main results

* `rtcToUnixSecs_exact` — the formula counts the seconds of the calendar
-/

namespace Maios.Time

open Finset

/-- `rtc_to_unix_secs`. The divisions truncate, and no value leaves the range of an `i64`. -/
def rtcToUnixSecs (year month day hour min sec : ℕ) : ℤ :=
  let y : ℤ := year
  let m : ℤ := month
  let d : ℤ := day
  let (yAdj, mAdj) := if m ≤ 2 then (y - 1, m + 9) else (y, m - 3)
  let days := 365 * yAdj + yAdj.tdiv 4 - yAdj.tdiv 100 + yAdj.tdiv 400 + (mAdj * 306 + 5).tdiv 10 +
    (d - 1) - 719468
  days * 86400 + hour * 3600 + min * 60 + sec

/-! ### The calendar -/

def IsLeap (year : ℕ) : Prop := year % 4 = 0 ∧ (year % 100 ≠ 0 ∨ year % 400 = 0)

instance (year : ℕ) : Decidable (IsLeap year) := inferInstanceAs (Decidable (_ ∧ _))

def daysInMonth (year month : ℕ) : ℕ :=
  if month = 2 then if IsLeap year then 29 else 28
  else if month = 4 ∨ month = 6 ∨ month = 9 ∨ month = 11 then 30
  else 31

def daysInYear (year : ℕ) : ℕ := if IsLeap year then 366 else 365

structure DateTime where
  year : ℕ
  month : ℕ
  day : ℕ
  hour : ℕ
  min : ℕ
  sec : ℕ

namespace DateTime

variable (t : DateTime)

/-- A date of the proleptic Gregorian calendar whose year the clock can give. -/
structure Valid : Prop where
  year : 1970 ≤ t.year ∧ t.year ≤ 65535
  month : 1 ≤ t.month ∧ t.month ≤ 12
  day : 1 ≤ t.day ∧ t.day ≤ daysInMonth t.year t.month
  hour : t.hour < 24
  min : t.min < 60
  sec : t.sec < 60

/-- The days from the first of January 1970. -/
def days : ℕ :=
  ∑ y ∈ Ico 1970 t.year, daysInYear y + ∑ m ∈ Ico 1 t.month, daysInMonth t.year m + (t.day - 1)

/-- The seconds from the first of January 1970. -/
def seconds : ℕ := 86400 * t.days + (t.hour * 3600 + t.min * 60 + t.sec)

/-- The next second. -/
def next : DateTime :=
  if t.sec < 59 then { t with sec := t.sec + 1 }
  else if t.min < 59 then { t with min := t.min + 1, sec := 0 }
  else if t.hour < 23 then { t with hour := t.hour + 1, min := 0, sec := 0 }
  else if t.day < daysInMonth t.year t.month then ⟨t.year, t.month, t.day + 1, 0, 0, 0⟩
  else if t.month < 12 then ⟨t.year, t.month + 1, 1, 0, 0, 0⟩
  else ⟨t.year + 1, 1, 1, 0, 0, 0⟩

end DateTime

/-! ### The formula -/

/-- The days of whole years. There are 477 leap days before 1970. -/
theorem sum_daysInYear {year : ℕ} (h : 1970 ≤ year) :
    ∑ y ∈ Ico 1970 year, daysInYear y + 365 * 1970 + (year - 1) / 100 + 477 =
      365 * year + (year - 1) / 4 + (year - 1) / 400 := by
  induction year, h using Nat.le_induction with
  | base => rfl
  | succ year h ih =>
    rw [sum_Ico_succ_top h, daysInYear]
    split_ifs with hleap <;> rw [IsLeap] at hleap <;> omega

/-- The days of whole months, by the linear expression for a year that begins in March. -/
theorem sum_daysInMonth (year : ℕ) {month : ℕ} (h : 1 ≤ month ∧ month ≤ 12) :
    ∑ m ∈ Ico 1 month, daysInMonth year m =
      if month ≤ 2 then ((month + 9) * 306 + 5) / 10 - 306
      else ((month - 3) * 306 + 5) / 10 + daysInYear year - 306 := by
  obtain ⟨hpos, hle⟩ := h
  interval_cases month <;> by_cases hleap : IsLeap year <;>
    simp [sum_Ico_succ_top, daysInMonth, daysInYear, hleap]

theorem daysInMonth_le (year month : ℕ) : 28 ≤ daysInMonth year month := by
  rw [daysInMonth]
  split_ifs <;> decide

/-- The months make up the year. -/
theorem sum_year (year : ℕ) : ∑ m ∈ Ico 1 12, daysInMonth year m + 31 = daysInYear year := by
  have hle : 365 ≤ daysInYear year := by
    rw [daysInYear]
    split_ifs <;> decide
  rw [sum_daysInMonth year (by decide), if_neg (by decide)]
  omega

namespace DateTime

variable {t : DateTime}

theorem Valid.next (h : t.Valid) (hyear : t.next.year ≤ 65535) : t.next.Valid := by
  obtain ⟨hy, hm, hd, hh, hmin, hs⟩ := h
  have hnext := daysInMonth_le t.year (t.month + 1)
  have hjanuary := daysInMonth_le (t.year + 1) 1
  rw [DateTime.next] at hyear ⊢
  split_ifs at hyear ⊢ <;> constructor <;> dsimp only at * <;> omega

/-- The calendar counts every second. -/
theorem seconds_next (h : t.Valid) : t.next.seconds = t.seconds + 1 := by
  obtain ⟨hy, hm, hd, hh, hmin, hs⟩ := h
  rw [next]
  split_ifs with h₁ h₂ h₃ h₄ h₅ <;> simp only [seconds, days]
  · omega
  · omega
  · omega
  · omega
  · rw [sum_Ico_succ_top hm.1]
    omega
  · obtain hdec : t.month = 12 := by omega
    have hyear := sum_year t.year
    have hlast : daysInMonth t.year 12 = 31 := rfl
    rw [hdec] at hd h₄
    rw [sum_Ico_succ_top hy.1, hdec, Ico_self, sum_empty]
    omega

theorem rtcToUnixSecs_eq (h : t.Valid) :
    rtcToUnixSecs t.year t.month t.day t.hour t.min t.sec = t.seconds := by
  have hy := sum_daysInYear h.year.1
  have hm := sum_daysInMonth t.year h.month
  obtain ⟨⟨hyear, -⟩, hmonth, ⟨hday, -⟩, -, -, -⟩ := h
  simp only [rtcToUnixSecs, seconds, days, hm]
  by_cases hle : t.month ≤ 2
  · rw [if_pos hle, if_pos (by exact_mod_cast hle)]
    simp only [Int.tdiv_eq_ediv_of_nonneg (show (0 : ℤ) ≤ t.year - 1 by omega),
      Int.tdiv_eq_ediv_of_nonneg (show (0 : ℤ) ≤ (t.month + 9) * 306 + 5 by omega)]
    omega
  · rw [if_neg (by exact_mod_cast hle)]
    simp only [Int.tdiv_eq_ediv_of_nonneg (show (0 : ℤ) ≤ t.year by omega),
      Int.tdiv_eq_ediv_of_nonneg (show (0 : ℤ) ≤ (t.month - 3) * 306 + 5 by omega)]
    rw [daysInYear] at *
    split_ifs with hleap <;> rw [IsLeap] at hleap <;> omega

/-- **The formula is the calendar**: it gives 86400 seconds for every day since 1970 and the seconds
of the day, and the next second is the next number. -/
theorem rtcToUnixSecs_exact (t : DateTime) (h : t.Valid) :
    rtcToUnixSecs t.year t.month t.day t.hour t.min t.sec =
        86400 * t.days + (t.hour * 3600 + t.min * 60 + t.sec) ∧
      (t.next.year ≤ 65535 →
        rtcToUnixSecs t.next.year t.next.month t.next.day t.next.hour t.next.min t.next.sec =
          rtcToUnixSecs t.year t.month t.day t.hour t.min t.sec + 1) := by
  rw [rtcToUnixSecs_eq h]
  refine ⟨by simp [seconds], fun hyear => ?_⟩
  rw [rtcToUnixSecs_eq (h.next hyear), seconds_next h]
  rfl

/-- The last second before a leap day. -/
theorem rtcToUnixSecs_leapDay :
    rtcToUnixSecs 2000 2 28 23 59 59 = 86400 * (DateTime.days ⟨2000, 2, 28, 23, 59, 59⟩) + 86399 :=
  (rtcToUnixSecs_exact ⟨2000, 2, 28, 23, 59, 59⟩
    ⟨by decide, by decide, by decide, by decide, by decide, by decide⟩).1

end DateTime

end Maios.Time
