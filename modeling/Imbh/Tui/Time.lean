import Imbh.Docker.Timestamp
import Imbh.Tui.Window

/-!
# The explorer's dates

How an instant is written in the explorer's header and picker, and what the picker reads.

* `datetime_exact` — round trips, and the texts that are read as a date of the calendar.
-/

namespace Imbh.Tui.Window

open Lib Lib.Checked List Option

/-- The low bits of a number. Source: `as u32` -/
def asU32 (z : ℤ) : ℕ := (z % 2 ^ 32).toNat

/-- Source: `time.rs` `civil_from_days` -/
def civilFromDays (days : ℤ) : Checked (ℤ × ℕ × ℕ) := do
  let z ← add days 719468
  let era := (← (if 0 ≤ z then pure z else sub z 146096 : Checked ℤ)).tdiv 146097
  let doe ← sub z (← mul era 146097)
  let yoe := (← sub (← add (← sub doe (doe.tdiv 1460)) (doe.tdiv 36524)) (doe.tdiv 146096)).tdiv 365
  let year ← add yoe (← mul era 400)
  let doy ← sub doe (← sub (← add (← mul 365 yoe) (yoe.tdiv 4)) (yoe.tdiv 100))
  let mp := (← add (← mul 5 doy) 2).tdiv 153
  let day := asU32 (← add (← sub doy ((← add (← mul 153 mp) 2).tdiv 5)) 1)
  let month := asU32 (← (if mp < 10 then add mp 3 else sub mp 9 : Checked ℤ))
  let year ← (if month ≤ 2 then add year 1 else pure year : Checked ℤ)
  return (year, month, day)

/-- Source: `time.rs` `format_datetime_ns` -/
def formatDatetimeNs (ns : ℤ) : Checked Text := do
  let secs := ns / 1000000000
  let tod := secs % 86400
  let (hours, minutes, seconds) := (tod.tdiv 3600, (tod.tmod 3600).tdiv 60, tod.tmod 60)
  let (year, month, day) ← civilFromDays (secs / 86400)
  return paddedInt 4 year ++ '-' :: padded 2 month ++ '-' :: padded 2 day ++
    ' ' :: paddedInt 2 hours ++ ':' :: paddedInt 2 minutes ++ ':' :: paddedInt 2 seconds

/-! ## Dates with a clock -/

/-- A date of the calendar and a time of its day. -/
structure Moment where
  date : Date
  hour : ℕ
  minute : ℕ
  second : ℕ
  hour_lt : hour < 24
  minute_lt : minute < 60
  second_lt : second < 60

namespace Moment

variable (x : Moment)

/-- The seconds from 1970-01-01. -/
def secs : ℤ := x.date.dayNumber * 86400 + (x.hour * 3600 + x.minute * 60 + x.second)

/-- The nanoseconds from 1970-01-01. -/
def instant : ℤ := x.secs * 1000000000

def printDate : Text := padded 4 x.date.year.toNat ++ '-' :: (padded 2 x.date.month.toNat ++
  '-' :: padded 2 x.date.day.toNat)

def printClock : Text := padded 2 x.hour ++ ':' :: (padded 2 x.minute ++ ':' :: padded 2 x.second)

def print : Text := x.printDate ++ ' ' :: x.printClock

/-- Years of four digits. -/
def FourDigits : Prop := 0 ≤ x.date.year ∧ x.date.year ≤ 9999

end Moment

/-- The date and the time whose fields stand in a text. -/
def Spells (text : Text) (x : Moment) : Prop :=
  dateFields (datetimeParts text).1 = some (x.date.year, x.date.month.toNat, x.date.day.toNat) ∧
    timeFields (datetimeParts text).2 = some (x.hour, x.minute, x.second)

/-- A text is read, without an overflow, as nothing or as the instant of the date and the time that it spells. -/
def ReadsExactly (text : Text) : Prop :=
  parseDatetime text ≠ overflow ∧ ∀ t, parseDatetime text = value t → ∃ x, Spells text x ∧ t = x.instant

/-- The months whose last days are instants of an `i64`. -/
def MonthInRange (year : ℤ) (month : ℕ) : Prop :=
  1677 * 12 + 9 ≤ year * 12 + month ∧ year * 12 + month ≤ 2262 * 12 + 3

/-- The day of a text is a day of its month, at least in the months whose days are instants. -/
def DayExists (text : Text) : Prop :=
  ∀ year month day, dateFields (datetimeParts text).1 = some (year, month, day) →
    (timeFields (datetimeParts text).2).isSome → MonthInRange year month → day ≤ monthLength year month

/-! ## Writing -/

theorem asU32_of {z : ℤ} (h : 0 ≤ z ∧ z < 4294967296) : asU32 z = z.toNat := by
  unfold asU32
  rw [Int.emod_eq_of_lt h.1 (by omega)]

/-- The conversion takes the steps of the other one, and casts the month and the day. -/
theorem civilFromDays_eq {z : ℤ} (h : InI64 (z * 86400)) :
    civilFromDays z = value ((toCivil z).1, (toCivil z).2.1.toNat, (toCivil z).2.2.toNat) := by
  obtain ⟨d, hd, -⟩ := toCivil_eq z
  have hother := Docker.Timestamp.civilFromDays_eq h
  rw [hd] at hother ⊢
  obtain ⟨hmlo, hmhi⟩ := d.month_mem
  obtain ⟨hdlo, hdhi⟩ := d.day_mem
  have hdle : d.day ≤ 31 := by
    unfold monthLength at hdhi
    split_ifs at hdhi <;> omega
  unfold Docker.Timestamp.civilFromDays at hother
  simp only [bind_eq_value_iff] at hother
  obtain ⟨w, hw, w', hw', era, hera, doe, hdoe, e₁, he₁, e₂, he₂, e₃, he₃, ey, hey, y, hy, f₁, hf₁, f₂, hf₂, f₃, hf₃,
    doy, hdoy, g₁, hg₁, mp, hmp, g₂, hg₂, g₃, hg₃, g₄, hg₄, day, hday, m, hm, year, hyear, heq⟩ := hother
  obtain ⟨rfl, rfl, rfl⟩ : year = d.year ∧ m = d.month ∧ day = d.day := by simpa using heq
  have hday' : asU32 d.day = d.day.toNat := asU32_of (by omega)
  have hmonth' : asU32 d.month = d.month.toNat := asU32_of (by omega)
  have hyear' : (if asU32 d.month ≤ 2 then add y 1 else pure y) = value d.year := by
    rw [← hyear, hmonth']
    exact if_congr (by omega) rfl rfl
  unfold civilFromDays
  simp only [bind_eq_value_iff]
  refine ⟨w, hw, w', hw', era, hera, doe, hdoe, e₁, he₁, e₂, he₂, e₃, he₃, ey, hey, y, hy, f₁, hf₁, f₂, hf₂, f₃, hf₃,
    doy, hdoy, g₁, hg₁, mp, hmp, g₂, hg₂, g₃, hg₃, g₄, hg₄, d.day, hday, d.month, hm, d.year, hyear', ?_⟩
  rw [hday', hmonth']
  rfl

/-- An instant is written as its date and its clock. -/
theorem formatDatetimeNs_print {t : ℤ} (h : InI64 t) :
    ∃ x : Moment, x.FourDigits ∧ formatDatetimeNs t = value x.print ∧ x.secs = t / 1000000000 := by
  obtain ⟨d, tod, hd, hnumber, hdays, ⟨hlow, hhigh⟩, htod⟩ := Docker.Timestamp.exists_date h
  have hyear : 0 ≤ d.year ∧ d.year ≤ 9999 := ⟨by omega, hhigh⟩
  let x : Moment :=
    { date := d
      hour := tod / 3600
      minute := tod % 3600 / 60
      second := tod % 60
      hour_lt := by omega
      minute_lt := by omega
      second_lt := by omega }
  have hhour : (tod : ℤ).tdiv 3600 = ((tod / 3600 : ℕ) : ℤ) := rfl
  have hminute : ((tod : ℤ).tmod 3600).tdiv 60 = ((tod % 3600 / 60 : ℕ) : ℤ) := rfl
  have hsecond : (tod : ℤ).tmod 60 = ((tod % 60 : ℕ) : ℤ) := rfl
  refine ⟨x, hyear, ?_, ?_⟩
  · unfold formatDatetimeNs
    simp only [civilFromDays_eq hdays, value_bind, hd, ← htod, hhour, hminute, hsecond, paddedInt_nat,
      paddedInt_toNat hyear.1, pure_eq]
    refine congrArg value ?_
    simp [Moment.print, Moment.printDate, Moment.printClock, x]
  · show d.dayNumber * 86400 +
      (((tod / 3600 : ℕ) : ℤ) * 3600 + ((tod % 3600 / 60 : ℕ) : ℤ) * 60 + ((tod % 60 : ℕ) : ℤ)) = _
    omega

/-! ## Reading -/

theorem parseBelow_padded {bound width n : ℕ} (h : n < bound) : parseBelow bound (padded width n) = some n := by
  have hsign : ∀ c ∈ padded width n, c ≠ '+' := fun c hc => (ne_of_isDigit (isDigit_of_mem_padded hc)).1
  unfold parseBelow
  split
  · rename_i heq
    exact absurd rfl (hsign '+' (by simp [heq]))
  · simp only [parseDigits_eq (padded_ne_nil width n) fun c hc => isDigit_of_mem_padded hc, ofDigitChars_padded,
      bind_some, if_pos h]

theorem trim_padded (width n : ℕ) : trim (padded width n) = padded width n :=
  trim_eq_self
    (fun _ hc => not_isWhitespace_of_isDigit (isDigit_of_mem_padded (mem_of_mem_head? hc)))
    (fun _ hc => not_isWhitespace_of_isDigit (isDigit_of_mem_padded (mem_of_mem_getLast? hc)))

/-- Numbers with a separator between them are split at it. -/
theorem splitOn_padded {separator : Char} (hsep : separator.isDigit = false) (i j k a b c : ℕ) :
    (padded i a ++ separator :: (padded j b ++ separator :: padded k c)).splitOn separator =
      [padded i a, padded j b, padded k c] := by
  have hjoin : padded i a ++ separator :: (padded j b ++ separator :: padded k c) =
      [separator].intercalate [padded i a, padded j b, padded k c] := by
    simp [List.intercalate]
  rw [hjoin]
  refine splitOn_intercalate separator (fun piece hpiece => ?_) (by simp)
  simp only [mem_cons, not_mem_nil, or_false] at hpiece
  obtain rfl | rfl | rfl := hpiece <;> exact not_mem_padded hsep _ _

section

variable {x : Moment}

theorem dateFields_printDate (h : x.FourDigits) :
    dateFields x.printDate = some (x.date.year, x.date.month.toNat, x.date.day.toNat) := by
  obtain ⟨hylo, hyhi⟩ := h
  obtain ⟨hmlo, hmhi⟩ := x.date.month_mem
  obtain ⟨hdlo, hdhi⟩ := x.date.day_mem
  have hdle : x.date.day ≤ 31 := by
    unfold monthLength at hdhi
    split_ifs at hdhi <;> omega
  unfold dateFields Moment.printDate
  rw [splitOn_padded (by rfl)]
  simp only [trim_padded]
  rw [parseInt_padded (by omega), parseBelow_padded (by omega), parseBelow_padded (by omega),
    Int.toNat_of_nonneg hylo]
  simp only [bind_eq_bind, bind_some]
  rw [if_pos (by omega)]

theorem timeFields_printClock : timeFields x.printClock = some (x.hour, x.minute, x.second) := by
  have hhour := x.hour_lt
  have hminute := x.minute_lt
  have hsecond := x.second_lt
  have hne : x.printClock ≠ [] := by simp [Moment.printClock]
  unfold timeFields
  rw [if_neg hne, Moment.printClock, splitOn_padded (by rfl)]
  simp only [getElem?_cons_zero, getElem?_cons_succ, map_some, getD_some]
  rw [parseBelow_padded (by omega), parseBelow_padded (by omega), parseBelow_padded (by omega)]
  simp only [bind_eq_bind, bind_some]
  rw [if_pos ⟨by simp, by omega, by omega, by omega⟩]

theorem datetimeParts_print : datetimeParts x.print = (x.printDate, x.printClock) := by
  have hnot : ∀ c ∈ x.printDate, (c = ' ' || c = 'T') = false := by
    intro c hc
    by_contra hsep
    simp only [Bool.not_eq_false, Bool.or_eq_true, decide_eq_true_eq] at hsep
    obtain rfl | rfl := hsep <;> simp [Moment.printDate, not_mem_padded] at hc
  have hends : ∀ {s : Text} {i j k a b c : ℕ} {separator : Char},
      (∀ d ∈ (padded i a ++ s).head?, isWhitespace d = false) ∧
        ∀ d ∈ (s ++ separator :: padded k c).getLast?, isWhitespace d = false := by
    intro s i j k a b c separator
    refine ⟨fun d hd => ?_, fun d hd => ?_⟩
    · rw [head?_append_of_ne_nil _ (padded_ne_nil i a)] at hd
      exact not_isWhitespace_of_isDigit (isDigit_of_mem_padded (mem_of_mem_head? hd))
    · rw [getLast?_append_cons, getLast?_cons, getLast?_eq_some_getLast (padded_ne_nil k c)] at hd
      cases hd
      exact not_isWhitespace_of_isDigit (isDigit_of_mem_padded (getLast_mem (padded_ne_nil k c)))
  have hclock : trim x.printClock = x.printClock := by
    unfold Moment.printClock
    refine trim_eq_self (@hends _ 2 0 0 _ 0 0 ' ').1 ?_
    have hlast := (@hends (padded 2 x.hour ++ ':' :: padded 2 x.minute) 0 0 2 0 0 x.second ':').2
    simpa using hlast
  have hprint : trim x.print = x.print := by
    unfold Moment.print
    refine trim_eq_self ?_ ?_
    · unfold Moment.printDate
      rw [append_assoc]
      exact (@hends _ 4 0 0 _ 0 0 ' ').1
    · unfold Moment.printClock
      have hlast := (@hends (x.printDate ++ ' ' :: (padded 2 x.hour ++ ':' :: padded 2 x.minute)) 0 0 2 0 0 x.second
        ':').2
      simpa using hlast
  unfold datetimeParts
  rw [hprint, Moment.print, splitAtChar_append hnot (by decide)]
  simp only [hclock]

theorem spells_print (h : x.FourDigits) : Spells x.print x := by
  unfold Spells
  rw [datetimeParts_print]
  exact ⟨dateFields_printDate h, timeFields_printClock⟩

end

/-- The instant of the fields of a text, when they are in range. -/
theorem parseDatetime_fields {text : Text} {year : ℤ} {month day hour minute second : ℕ}
    (hdate : dateFields (datetimeParts text).1 = some (year, month, day))
    (htime : timeFields (datetimeParts text).2 = some (hour, minute, second))
    (hfits : fromCivil year month day + 719468 ≤ maxInstant) :
    parseDatetime text =
      tryOp ((fromCivil year month day * 86400 + (hour * 3600 + minute * 60 + second)) * 1000000000) := by
  obtain ⟨⟨hyi, hy⟩, hm, hd⟩ := dateFields_spec hdate
  obtain ⟨hhour, hminute, hsecond⟩ := timeFields_spec htime
  unfold parseDatetime
  simp only [hdate, htime, lift, value_bind, daysFromCivil_eq hyi hy hm hd, if_pos hfits, add, mul]
  generalize fromCivil year month day = days
  by_cases hdays : InI64 (days * 86400)
  · rw [tryOp_of hdays, value_bind]
    rw [op_bind (inI64_iff.mpr (by omega)), op_bind (inI64_iff.mpr (by omega)), op_bind (inI64_iff.mpr (by omega)),
      op_bind (inI64_iff.mpr (by omega))]
    by_cases hsecs : InI64 (days * 86400 + (hour * 3600 + minute * 60 + second))
    · rw [tryOp_of hsecs, value_bind]
    · rw [tryOp_of_not hsecs, absent_bind, tryOp_of_not]
      rw [inI64_iff] at hsecs ⊢
      omega
  · rw [tryOp_of_not hdays, absent_bind, tryOp_of_not]
    rw [inI64_iff] at hdays ⊢
    omega

/-- A day that its month does not have comes to a day of the next month, which is an instant in some months only. -/
theorem inI64_of_no_day {year : ℤ} {month day hour minute second : ℕ} (hm : 1 ≤ month ∧ month ≤ 12)
    (hd : day ≤ 31) (hno : monthLength year month < day) (hclock : hour ≤ 23 ∧ minute ≤ 59 ∧ second ≤ 59) :
    InI64 ((fromCivil year month day * 86400 + (hour * 3600 + minute * 60 + second)) * 1000000000) ↔
      MonthInRange year month := by
  obtain ⟨hhour, hminute, hsecond⟩ := hclock
  rw [inI64_iff]
  unfold monthLength at hno
  unfold MonthInRange fromCivil marchDays marchMonth
  obtain ⟨hlo, hhi⟩ := hm
  interval_cases month <;> simp at hno ⊢ <;> (try split at hno) <;> omega

/-- An instant is read back as the start of its second, and a text is read exactly where its days can be counted
and its day is one of the month. -/
theorem datetime_exact (t : ℤ) (text : Text) :
    (InI64 t → InI64 (t / 1000000000 * 1000000000) → ∃ written, formatDatetimeNs t = value written ∧
      parseDatetime written = value (t / 1000000000 * 1000000000)) ∧
    (ReadsExactly text ↔ DatetimeFits text ∧ DayExists text) := by
  refine ⟨fun ht hstart => ?_, fun ⟨hno, hexact⟩ => ?_, fun ⟨hfits, hexists⟩ => ?_⟩
  · obtain ⟨x, hyear, hprint, hsecs⟩ := formatDatetimeNs_print ht
    obtain ⟨hdate, htime⟩ := spells_print hyear
    have hcivil : fromCivil x.date.year x.date.month.toNat x.date.day.toNat = x.date.dayNumber := by
      rw [Int.toNat_of_nonneg (by linarith [x.date.month_mem.1]), Int.toNat_of_nonneg (by linarith [x.date.day_mem.1]),
        fromCivil_eq]
    have hhour := x.hour_lt
    have hminute := x.minute_lt
    have hsecond := x.second_lt
    unfold Moment.secs at hsecs
    rw [inI64_iff] at ht
    refine ⟨x.print, hprint, ?_⟩
    rw [parseDatetime_fields hdate htime, hcivil, hsecs, tryOp_of hstart]
    rw [hcivil]
    unfold maxInstant
    omega
  · refine ⟨(parseDatetime_ne_overflow_iff text).mp hno, fun year month day hdate htime hrange => ?_⟩
    obtain ⟨⟨hour, minute, second⟩, htime⟩ := isSome_iff_exists.mp htime
    obtain ⟨-, hm, hd⟩ := dateFields_spec hdate
    by_contra hday
    have hinstant := (inI64_of_no_day hm hd.2 (not_le.mp hday) (timeFields_spec htime)).mpr hrange
    have hfits := (parseDatetime_ne_overflow_iff text).mp hno year month day hdate (by rw [htime]; rfl)
    have hread := parseDatetime_fields hdate htime hfits
    rw [tryOp_of hinstant] at hread
    obtain ⟨x, ⟨hspelled, -⟩, -⟩ := hexact _ hread
    rw [hdate] at hspelled
    cases hspelled
    have hlast := x.date.day_mem
    have hmonth : (x.date.month.toNat : ℤ) = x.date.month := Int.toNat_of_nonneg (by linarith [x.date.month_mem.1])
    rw [hmonth] at hday
    omega
  · have hno := (parseDatetime_ne_overflow_iff text).mpr hfits
    refine ⟨hno, fun t hread => ?_⟩
    obtain ⟨⟨year, month, day⟩, hdate, ⟨hour, minute, second⟩, htime⟩ : ∃ date,
        dateFields (datetimeParts text).1 = some date ∧ ∃ time, timeFields (datetimeParts text).2 = some time := by
      unfold parseDatetime at hread
      obtain ⟨date, hdate, hread⟩ := bind_eq_value_iff.mp hread
      obtain ⟨time, htime, -⟩ := bind_eq_value_iff.mp hread
      exact ⟨date, lift_eq_value_iff.mp hdate, time, lift_eq_value_iff.mp htime⟩
    obtain ⟨-, hm, hd⟩ := dateFields_spec hdate
    obtain ⟨hhour, hminute, hsecond⟩ := timeFields_spec htime
    rw [parseDatetime_fields hdate htime (hfits year month day hdate (by rw [htime]; rfl))] at hread
    have hin := tryOp_eq_value hread
    rw [tryOp_eq_value_iff] at hread
    have hday : day ≤ monthLength year month := by
      by_contra hday
      rw [← hread.2] at hin
      exact hday (hexists year month day hdate (by rw [htime]; rfl)
        ((inI64_of_no_day hm hd.2 (not_le.mp hday) (timeFields_spec htime)).mp hin))
    refine ⟨⟨⟨year, month, day, by omega, by omega, hday⟩, hour, minute, second, by omega, by omega, by omega⟩,
      ⟨by simpa using hdate, htime⟩, ?_⟩
    rw [← hread.2, Moment.instant, Moment.secs, ← fromCivil_eq]

/-- The first instants and the start of their second. -/
theorem datetime_exact_before_epoch : parseDatetime "1969-12-31 23:59:59".toList = value (-1000000000) := by
  obtain ⟨text, hprint, hread⟩ := (datetime_exact (-1) []).1 (by decide) (by decide)
  have htext : formatDatetimeNs (-1) = value "1969-12-31 23:59:59".toList := by rfl
  rw [htext] at hprint
  cases hprint
  exact hread

/-- February has no thirtieth day, and the days of a year may be too many to count. -/
theorem datetime_slips :
    parseDatetime "2021-02-30".toList = parseDatetime "2021-03-02".toList ∧
      parseDatetime "2021-03-02".toList = value 1614643200000000000 ∧ ¬ ReadsExactly "2021-02-30".toList ∧
      parseDatetime "9223372036854775807-01-01".toList = overflow := by
  refine ⟨by decide, by decide, fun ⟨_, hexact⟩ => ?_, by decide⟩
  obtain ⟨x, ⟨hdate, -⟩, -⟩ := hexact 1614643200000000000 (by decide)
  have hfields : dateFields (datetimeParts "2021-02-30".toList).1 = some (2021, 2, 30) := by decide
  rw [hfields] at hdate
  have hday := x.date.day_mem
  have hmonth := x.date.month_mem
  simp only [some.injEq, Prod.mk.injEq] at hdate
  obtain ⟨hy, hm, hd⟩ := hdate
  have hm' : x.date.month = 2 := by omega
  rw [← hy, hm'] at hday
  have hlength : monthLength 2021 2 = 28 := by decide
  omega

end Imbh.Tui.Window
