import Mathlib.Algebra.BigOperators.Group.List.Basic
import Mathlib.Tactic.IntervalCases
import Mathlib.Tactic.Linarith
import Mathlib.Tactic.Ring

/-!
# The calendar

The Gregorian calendar before and after its beginning: leap years, dates and their day numbers, which
count from 1970-01-01, and the arithmetic that goes from dates to day numbers and back. It counts the years
from March, so that a leap day is the last of its year.
-/

namespace Imbh.Lib

/-- Every fourth year, but of the hundreds only every fourth. -/
def IsLeap (y : ℤ) : Prop := 4 ∣ y ∧ (¬ 100 ∣ y ∨ 400 ∣ y)

instance : DecidablePred IsLeap := fun y => inferInstanceAs (Decidable (4 ∣ y ∧ (¬ 100 ∣ y ∨ 400 ∣ y)))

def monthLength (y m : ℤ) : ℤ :=
  if m = 2 then (if IsLeap y then 29 else 28)
  else if m = 4 ∨ m = 6 ∨ m = 9 ∨ m = 11 then 30
  else 31

/-- A day of the calendar. -/
@[ext] structure Date where
  year : ℤ
  month : ℤ
  day : ℤ
  month_mem : 1 ≤ month ∧ month ≤ 12
  day_mem : 1 ≤ day ∧ day ≤ monthLength year month

/-- The days before a year, from the year 1. -/
def daysBeforeYear (y : ℤ) : ℤ := 365 * (y - 1) + (y - 1) / 4 - (y - 1) / 100 + (y - 1) / 400

def daysBeforeMonth (y m : ℤ) : ℤ := ((List.range (m - 1).toNat).map fun k : ℕ => monthLength y (k + 1)).sum

/-- The days from 1970-01-01 to a date. -/
def Date.dayNumber (d : Date) : ℤ := daysBeforeYear d.year + daysBeforeMonth d.year d.month + d.day - 1 - 719162

theorem monthLength_pos (y m : ℤ) : 1 ≤ monthLength y m := by
  unfold monthLength
  split_ifs <;> omega

/-- The day after. -/
def Date.next (d : Date) : Date :=
  if hday : d.day + 1 ≤ monthLength d.year d.month then
    ⟨d.year, d.month, d.day + 1, d.month_mem, by have := d.day_mem; omega, hday⟩
  else if hmonth : d.month + 1 ≤ 12 then
    ⟨d.year, d.month + 1, 1, ⟨by have := d.month_mem; omega, hmonth⟩, le_rfl, monthLength_pos _ _⟩
  else ⟨d.year + 1, 1, 1, by decide, le_rfl, monthLength_pos _ _⟩

/-! ## The order of the dates -/

theorem daysBeforeYear_succ (y : ℤ) :
    daysBeforeYear (y + 1) = daysBeforeYear y + 365 + (if IsLeap y then 1 else 0) := by
  unfold daysBeforeYear IsLeap
  split_ifs <;> omega

theorem daysBeforeMonth_succ {y m : ℤ} (h : 1 ≤ m) :
    daysBeforeMonth y (m + 1) = daysBeforeMonth y m + monthLength y m := by
  unfold daysBeforeMonth
  have hnat : (m + 1 - 1).toNat = (m - 1).toNat + 1 := by omega
  rw [hnat, List.range_succ, List.map_append, List.sum_append]
  simp only [List.map_singleton, List.sum_singleton]
  rw [show (((m - 1).toNat : ℕ) : ℤ) + 1 = m by omega]

theorem daysBeforeMonth_one (y : ℤ) : daysBeforeMonth y 1 = 0 := by
  simp [daysBeforeMonth]

/-- The months of a year, as days before them. -/
theorem daysBeforeMonth_eq {y m : ℤ} (h : 1 ≤ m ∧ m ≤ 12) :
    daysBeforeMonth y m =
      if m ≤ 2 then 31 * (m - 1) else (153 * (m - 3) + 2) / 5 + 59 + (if IsLeap y then 1 else 0) := by
  obtain ⟨hlo, hhi⟩ := h
  interval_cases m <;> by_cases hleap : IsLeap y <;> simp [daysBeforeMonth, monthLength, hleap, List.range_succ]

/-- The day numbers count the dates. -/
theorem dayNumber_next (d : Date) : d.next.dayNumber = d.dayNumber + 1 := by
  obtain ⟨y, m, day, hmonth, hday⟩ := d
  unfold Date.next
  split
  · unfold Date.dayNumber
    simp only
    ring
  · rename_i hlast
    have hend : day = monthLength y m := by
      simp only [not_le] at hlast
      omega
    split
    · unfold Date.dayNumber
      simp only
      rw [daysBeforeMonth_succ hmonth.1, hend]
      ring
    · rename_i hdec
      have htwelve : m = 12 := by
        simp only [not_le] at hdec
        omega
      unfold Date.dayNumber
      simp only
      rw [daysBeforeYear_succ, daysBeforeMonth_one, hend, htwelve, daysBeforeMonth_eq (by decide)]
      simp [monthLength]
      ring

/-! ## Years from March -/

/-- A division that rounds toward zero rounds down if numbers below zero are moved before. -/
theorem tdiv_floor {x n : ℤ} (hn : 0 < n) : (if 0 ≤ x then x else x - (n - 1)).tdiv n = x / n := by
  split
  · rename_i h
    exact Int.tdiv_eq_ediv_of_nonneg h
  · rename_i h
    have hneg : x - (n - 1) = -(n - 1 - x) := by ring
    rw [hneg, Int.neg_tdiv, Int.tdiv_eq_ediv_of_nonneg (by omega)]
    have hsplit := Int.mul_ediv_add_emod (n - 1 - x) n
    have hlo := Int.emod_nonneg (n - 1 - x) hn.ne'
    have hhi := Int.emod_lt_of_pos (n - 1 - x) hn
    symm
    exact (Int.ediv_eq_iff_of_pos hn).mpr ⟨by nlinarith, by nlinarith⟩

/-- The days before the first of March of a year. -/
def marchDays (y : ℤ) : ℤ := 365 * y + y / 4 - y / 100 + y / 400

/-- The days before a month, of the twelve from March. -/
def marchMonth (k : ℤ) : ℤ := (153 * k + 2) / 5

/-- The day number of a date. -/
def fromCivil (y m d : ℤ) : ℤ :=
  marchDays (if m ≤ 2 then y - 1 else y) + (marchMonth ((m + 9) % 12) + d - 1) - 719468

/-- The days before a year, of the four hundred of an era. -/
def eraDays (yoe : ℤ) : ℤ := 365 * yoe + yoe / 4 - yoe / 100

/-- The year of an era by a day of it. -/
def yearOfEra (doe : ℤ) : ℤ := (doe - doe / 1460 + doe / 36524 - doe / 146096) / 365

/-- The date of a day number. -/
def toCivil (z : ℤ) : ℤ × ℤ × ℤ :=
  let era := (z + 719468) / 146097
  let doe := (z + 719468) % 146097
  let yoe := yearOfEra doe
  let doy := doe - eraDays yoe
  let k := (5 * doy + 2) / 153
  let m := if k < 10 then k + 3 else k - 9
  (if m ≤ 2 then yoe + era * 400 + 1 else yoe + era * 400, m, doy - marchMonth k + 1)

/-- The formula for the number of a day. -/
theorem fromCivil_eq (d : Date) : fromCivil d.year d.month d.day = d.dayNumber := by
  obtain ⟨y, m, day, hmonth, hday⟩ := d
  unfold fromCivil Date.dayNumber
  simp only
  rw [daysBeforeMonth_eq hmonth]
  have hmarch := daysBeforeYear_succ y
  have hyear : marchDays y = daysBeforeYear (y + 1) := by
    simp [marchDays, daysBeforeYear]
  unfold marchMonth
  split_ifs with h
  · have hbefore : marchDays (y - 1) = daysBeforeYear y := rfl
    have hmod : (m + 9) % 12 = m + 9 := by omega
    rw [hbefore, hmod]
    obtain rfl | rfl : m = 1 ∨ m = 2 := by omega
    · omega
    · omega
  · rw [hyear, hmarch, if_pos (by assumption)]
    have hmod : (m + 9) % 12 = m - 3 := by omega
    rw [hmod]
    omega
  · rw [hyear, hmarch, if_neg (by assumption)]
    have hmod : (m + 9) % 12 = m - 3 := by omega
    rw [hmod]
    omega

theorem marchDays_era (y : ℤ) : marchDays y = y / 400 * 146097 + eraDays (y % 400) := by
  unfold marchDays eraDays
  omega

/-- The days of an era come in its years, of which the last day may be a leap day. -/
theorem yearOfEra_eq {yoe e : ℤ} (hyoe : 0 ≤ yoe ∧ yoe < 400) (he : 0 ≤ e ∧ e ≤ 365)
    (hleap : e = 365 → IsLeap (yoe + 1)) : yearOfEra (eraDays yoe + e) = yoe := by
  obtain ⟨c, q, r, hc, hq, hr, heq⟩ :
      ∃ c q r, (0 ≤ c ∧ c < 4) ∧ (0 ≤ q ∧ q < 25) ∧ (0 ≤ r ∧ r < 4) ∧ yoe = 100 * c + 4 * q + r :=
    ⟨yoe / 100, yoe % 100 / 4, yoe % 4, by omega, by omega, by omega, by omega⟩
  have hdays : eraDays yoe + e = 36524 * c + 1461 * q + 365 * r + e := by
    unfold eraDays
    omega
  have hlast : e = 365 → r = 3 ∧ (q = 24 → c = 3) := by
    intro h
    obtain ⟨hfour, hhundred⟩ := hleap h
    omega
  rw [hdays, yearOfEra]
  by_cases hend : c = 3 ∧ q = 24 ∧ r = 3 ∧ e = 365
  · obtain ⟨rfl, rfl, rfl, rfl⟩ := hend
    omega
  · -- the last day of the era apart, each quotient is that of the years before
    have hcentury : (36524 * c + 1461 * q + 365 * r + e) / 36524 = c := by omega
    have hera : (36524 * c + 1461 * q + 365 * r + e) / 146096 = 0 := by omega
    have hquad : (36524 * c + 1461 * q + 365 * r + e) / 1460 =
        25 * c + q + (24 * c + q + 365 * r + e) / 1460 := by
      omega
    rw [hcentury, hera, hquad]
    omega

/-- The days of a year from March, and the month that they are in. -/
theorem marchMonth_day (d : Date) :
    let k := (d.month + 9) % 12
    let doy := marchMonth k + d.day - 1
    (0 ≤ doy ∧ doy ≤ 365) ∧ (doy = 365 → d.month = 2 ∧ IsLeap d.year) ∧ (5 * doy + 2) / 153 = k := by
  obtain ⟨y, m, day, ⟨hlo, hhi⟩, hday⟩ := d
  simp only
  unfold monthLength at hday
  unfold marchMonth
  interval_cases m <;> by_cases hleap : IsLeap y <;> simp [hleap] at hday ⊢ <;> omega

/-- The era of a day, the year in it and the day of that year. -/
theorem dayNumber_parts (d : Date) :
    let y := if d.month ≤ 2 then d.year - 1 else d.year
    let doy := marchMonth ((d.month + 9) % 12) + d.day - 1
    (d.dayNumber + 719468) / 146097 = y / 400 ∧ (d.dayNumber + 719468) % 146097 = eraDays (y % 400) + doy ∧
      yearOfEra (eraDays (y % 400) + doy) = y % 400 ∧ 0 ≤ doy ∧ doy ≤ 365 := by
  obtain ⟨hdoy, hleap, -⟩ := marchMonth_day d
  have hnumber := fromCivil_eq d
  simp only
  generalize hy : (if d.month ≤ 2 then d.year - 1 else d.year) = y at *
  generalize he : marchMonth ((d.month + 9) % 12) + d.day - 1 = e at *
  have hz : d.dayNumber + 719468 = y / 400 * 146097 + (eraDays (y % 400) + e) := by
    rw [← hnumber, fromCivil, hy, marchDays_era, he]
    ring
  have hlast : e = 365 → IsLeap (y % 400 + 1) := by
    intro h
    obtain ⟨hfebruary, hfour, hhundred⟩ := hleap h
    rw [if_pos (by omega)] at hy
    exact ⟨by omega, by omega⟩
  have hdoe : 0 ≤ eraDays (y % 400) + e ∧ eraDays (y % 400) + e < 146097 := by
    unfold eraDays
    omega
  exact ⟨by omega, by omega, yearOfEra_eq ⟨by omega, by omega⟩ hdoy hlast, hdoy⟩

/-- The formula for the date of a number. -/
theorem toCivil_dayNumber (d : Date) : toCivil d.dayNumber = (d.year, d.month, d.day) := by
  obtain ⟨hera, hdoe, hyear, -⟩ := dayNumber_parts d
  obtain ⟨-, -, hmonth⟩ := marchMonth_day d
  obtain ⟨hlo, hhi⟩ := d.month_mem
  unfold toCivil
  simp only [hera, hdoe, hyear, add_sub_cancel_left, hmonth]
  generalize hk : (d.month + 9) % 12 = k
  have hm : (if k < 10 then k + 3 else k - 9) = d.month := by
    split <;> omega
  rw [hm]
  refine Prod.ext ?_ (Prod.ext rfl ?_)
  · simp only
    split <;> omega
  · simp only
    ring

/-- Every number is that of a day. -/
theorem exists_dayNumber (z : ℤ) : ∃ d : Date, d.dayNumber = z := by
  -- from a new year before the day, one day after the other
  have hrun : ∀ n : ℕ, ∀ d : Date, ∃ e : Date, e.dayNumber = d.dayNumber + n := by
    intro n
    induction n with
    | zero => exact fun d => ⟨d, by simp⟩
    | succ n ih =>
      intro d
      obtain ⟨e, he⟩ := ih d
      refine ⟨e.next, ?_⟩
      rw [dayNumber_next, he]
      push_cast
      ring
  let start : Date := ⟨min z 0, 1, 1, by decide, le_rfl, monthLength_pos _ _⟩
  have hstart : start.dayNumber ≤ z := by
    have hvalue : start.dayNumber = daysBeforeYear (min z 0) - 719162 := by
      show daysBeforeYear (min z 0) + daysBeforeMonth (min z 0) 1 + 1 - 1 - 719162 = _
      rw [daysBeforeMonth_one]
      ring
    rw [hvalue]
    unfold daysBeforeYear
    omega
  obtain ⟨e, he⟩ := hrun (z - start.dayNumber).toNat start
  exact ⟨e, by omega⟩

/-- A day of an era is in a year of it. -/
theorem yearOfEra_bounds {doe : ℤ} (h : 0 ≤ doe ∧ doe < 146097) :
    (0 ≤ yearOfEra doe ∧ yearOfEra doe < 400) ∧
      0 ≤ doe - eraDays (yearOfEra doe) ∧ doe - eraDays (yearOfEra doe) ≤ 365 := by
  obtain ⟨d, hd⟩ := exists_dayNumber (doe - 719468)
  obtain ⟨-, hdoe, hyear, hdoy⟩ := dayNumber_parts d
  rw [hd, sub_add_cancel, Int.emod_eq_of_lt h.1 h.2] at hdoe
  rw [hdoe, hyear]
  omega

/-- The arithmetic finds the date of every day number. -/
theorem toCivil_eq (z : ℤ) : ∃ d : Date, toCivil z = (d.year, d.month, d.day) ∧ d.dayNumber = z := by
  obtain ⟨d, rfl⟩ := exists_dayNumber z
  exact ⟨d, toCivil_dayNumber d, rfl⟩

end Imbh.Lib
