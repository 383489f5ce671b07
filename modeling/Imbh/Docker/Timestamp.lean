import Imbh.Lib.Calendar
import Imbh.Lib.Checked
import Imbh.Lib.Numerals
import Imbh.Lib.Split

/-!
# Instants as texts

How an instant is written for Docker and read back, by hand and with an `i64`.

* `timestamp_exact` — where instants survive, texts are exact and nothing overflows.
-/

namespace Imbh.Docker.Timestamp

open Lib Lib.Checked List Option

/-- Source: `readlogs.rs` `civil_from_days` -/
def civilFromDays (days : ℤ) : Checked (ℤ × ℤ × ℤ) := do
  let z ← add days 719468
  let era := (← (if 0 ≤ z then pure z else sub z 146096 : Checked ℤ)).tdiv 146097
  let doe ← sub z (← mul era 146097)
  let yoe := (← sub (← add (← sub doe (doe.tdiv 1460)) (doe.tdiv 36524)) (doe.tdiv 146096)).tdiv 365
  let y ← add yoe (← mul era 400)
  let doy ← sub doe (← sub (← add (← mul 365 yoe) (yoe.tdiv 4)) (yoe.tdiv 100))
  let mp := (← add (← mul 5 doy) 2).tdiv 153
  let d ← add (← sub doy ((← add (← mul 153 mp) 2).tdiv 5)) 1
  let m ← (if mp < 10 then add mp 3 else sub mp 9 : Checked ℤ)
  let y ← (if m ≤ 2 then add y 1 else pure y : Checked ℤ)
  return (y, m, d)

/-- Source: `readlogs.rs` `days_from_civil` -/
def daysFromCivil (y m d : ℤ) : Checked ℤ := do
  let y ← (if m ≤ 2 then sub y 1 else pure y : Checked ℤ)
  let era := (← (if 0 ≤ y then pure y else sub y 399 : Checked ℤ)).tdiv 400
  let yoe ← sub y (← mul era 400)
  let mp := (← add m 9).tmod 12
  let doy ← sub (← add ((← add (← mul 153 mp) 2).tdiv 5) d) 1
  let doe ← add (← sub (← add (← mul yoe 365) (yoe.tdiv 4)) (yoe.tdiv 100)) doy
  sub (← add (← mul era 146097) doe) 719468

/-- Source: `readlogs.rs` `rfc3339` -/
def rfc3339 (nanos : ℤ) : Checked Text := do
  let secs := nanos / 1000000000
  let frac := nanos % 1000000000
  let (year, month, day) ← civilFromDays (secs / 86400)
  let tod := secs % 86400
  let (hour, minute, second) := (tod.tdiv 3600, (tod.tdiv 60).tmod 60, tod.tmod 60)
  let clock := paddedInt 4 year ++ '-' :: paddedInt 2 month ++ '-' :: paddedInt 2 day ++
    'T' :: paddedInt 2 hour ++ ':' :: paddedInt 2 minute ++ ':' :: paddedInt 2 second
  return if frac = 0 then clock ++ ['Z'] else clock ++ '.' :: paddedInt 9 frac ++ ['Z']

/-- The year, the month and the day, and what is behind them.
Source: `readlogs.rs` `timestamp`, the fields of the date -/
def dateFields (text : Text) : Option (ℤ × ℤ × ℤ × Text) := do
  let (date, rest) ← splitAtChar (fun c => c = 'T' || c = 't' || c = ' ') text
  match splitn 3 '-' date with
  | [year, month, day] => return (← parseInt year, ← parseInt month, ← parseInt day, rest)
  | _ => none

/-- The clock, and the sign, the hours and the minutes of an offset.
Source: `readlogs.rs` `timestamp`, the fields of the offset -/
def zoneFields (rest : Text) : Option (Text × Option (ℤ × ℤ × ℤ)) :=
  if rest.getLast? = some 'Z' ∨ rest.getLast? = some 'z' then some (rest.dropLast, none)
  else
    match rsplitAtChar (fun c => c = '+' || c = '-') rest with
    | some (clock, sign, offset) => do
        let parts := splitn 2 ':' offset
        let h ← parseInt (parts.headD [])
        let m ← parseInt (parts.getD 1 ['0'])
        return (clock, some (if sign = '-' then -1 else 1, h, m))
    | none => some (rest, none)

/-- Source: `readlogs.rs` `timestamp`, `offset_secs` -/
def offsetSecs : Option (ℤ × ℤ × ℤ) → Checked ℤ
  | none => return 0
  | some (sign, h, m) => do mul sign (← add (← mul h 3600) (← mul m 60))

/-- The hour, the minute and the second, and the first nine digits behind the point.
Source: `readlogs.rs` `timestamp`, the fields of the clock -/
def clockFields (clock : Text) : Option (ℤ × ℤ × ℤ × Text) := do
  let (hms, frac) := (splitAtChar (· = '.') clock).getD (clock, [])
  let parts := splitn 3 ':' hms
  let hour ← parseInt (parts.headD [])
  let minute ← parseInt (parts.getD 1 ['0'])
  let second ← parseInt (parts.getD 2 ['0'])
  return (hour, minute, second, (frac.filter Char.isDigit).take 9)

/-- Source: `readlogs.rs` `timestamp`, `nanos` -/
def fractionNanos (digits : Text) : Checked ℤ :=
  if digits = [] then return 0
  else do mul (← lift (parseInt digits)) (10 ^ (9 - digits.length))

/-- Source: `readlogs.rs` `timestamp` -/
def timestamp (text : Text) : Checked ℤ := do
  let (year, month, day, rest) ← lift (dateFields (trim text))
  if year ≤ 1 then absent
  else do
    let (clock, offset) ← lift (zoneFields rest)
    let offset ← offsetSecs offset
    let (hour, minute, second, digits) ← lift (clockFields clock)
    let nanos ← fractionNanos digits
    let secs ← tryOp ((← daysFromCivil year month day) * 86400)
    let secs ← tryOp (secs + (← sub (← add (← add (← mul hour 3600) (← mul minute 60)) second) offset))
    let ns ← tryOp (secs * 1000000000)
    tryOp (ns + nanos)

/-! ## Dates -/

/-- Dates that are no later than the numbers of an `i64` can count. -/
def DateFits (y m d : ℤ) : Prop :=
  let before := if m ≤ 2 then y - 1 else y
  let doy := marchMonth ((m + 9) % 12) + d - 1
  m ≤ maxInstant - 9 ∧ before / 400 * 146097 ≤ maxInstant ∧ minInstant ≤ doy ∧
    minInstant ≤ fromCivil y m d ∧ fromCivil y m d + 719468 ≤ maxInstant

instance (y m d : ℤ) : Decidable (DateFits y m d) :=
  inferInstanceAs (Decidable (_ ∧ _ ∧ _ ∧ _ ∧ _))

/-- The number of a day, or an overflow where the day does not fit. -/
theorem daysFromCivil_eq {y m d : ℤ} (hyi : InI64 y) (hd : InI64 d) (hy : 1 < y) (hm : 0 ≤ m) :
    daysFromCivil y m d = if DateFits y m d then value (fromCivil y m d) else overflow := by
  rw [inI64_iff] at hyi hd
  obtain ⟨x, hstart⟩ : ∃ x, x = if m ≤ 2 then y - 1 else y := ⟨_, rfl⟩
  have hfirst : (if m ≤ 2 then sub y 1 else pure y) = value x := by
    rw [hstart]
    split
    · exact op_of (inI64_iff.mpr (by omega))
    · rfl
  have hpos : 1 ≤ x ∧ x ≤ y := by
    rw [hstart]
    split <;> omega
  have hx : 0 ≤ x := by omega
  have hyoe : x - x / 400 * 400 = x % 400 := by omega
  have hk : (m + 9).tmod 12 = (m + 9) % 12 := Int.tmod_eq_emod_of_nonneg (by omega)
  have hfour : (x % 400).tdiv 4 = x % 400 / 4 := Int.tdiv_eq_ediv_of_nonneg (by omega)
  have hhundred : (x % 400).tdiv 100 = x % 400 / 100 := Int.tdiv_eq_ediv_of_nonneg (by omega)
  have hmonth : (153 * ((m + 9) % 12) + 2).tdiv 5 = (153 * ((m + 9) % 12) + 2) / 5 :=
    Int.tdiv_eq_ediv_of_nonneg (by omega)
  unfold daysFromCivil
  rw [hfirst]
  simp only [value_bind, if_pos hx, pure_eq, add, sub, mul, op_bind_eq, Int.tdiv_eq_ediv_of_nonneg hx, hyoe, hk,
    hfour, hhundred, hmonth]
  simp only [op, ite_ite_overflow]
  have hvalue : fromCivil y m d =
      x / 400 * 146097 + eraDays (x % 400) + (marchMonth ((m + 9) % 12) + d - 1) - 719468 := by
    rw [fromCivil, ← hstart, marchDays_era]
  refine if_congr ?_ (congrArg value ?_) rfl
  · unfold DateFits
    simp only [hvalue, ← hstart, inI64_iff, minInstant, maxInstant, eraDays, marchMonth]
    omega
  · rw [hvalue, eraDays, marchMonth]
    ring

/-- The year of a day that an `i64` counts in seconds. -/
theorem year_bounds {d : Date} (h : InI64 (d.dayNumber * 86400)) :
    -1000000000000 ≤ d.year ∧ d.year ≤ 1000000000000 := by
  obtain ⟨hlo, hhi⟩ := inI64_iff.mp h
  obtain ⟨hdoy, -, -⟩ := marchMonth_day d
  have hnumber := fromCivil_eq d
  unfold fromCivil marchDays at hnumber
  constructor <;> by_contra hyear <;> split at hnumber <;> omega

/-- The number of a date of the calendar. -/
theorem daysFromCivil_date {d : Date} (h : InI64 (d.dayNumber * 86400)) :
    daysFromCivil d.year d.month d.day = value d.dayNumber := by
  obtain ⟨hylo, hyhi⟩ := year_bounds h
  obtain ⟨hlo, hhi⟩ := d.month_mem
  obtain ⟨hdoy, -, -⟩ := marchMonth_day d
  obtain ⟨x, hstart⟩ : ∃ x, x = if d.month ≤ 2 then d.year - 1 else d.year := ⟨_, rfl⟩
  have hpos : -1000000000001 ≤ x ∧ x ≤ 1000000000000 := by
    rw [hstart]
    split <;> omega
  have hfirst : (if d.month ≤ 2 then sub d.year 1 else pure d.year) = value x := by
    rw [hstart]
    split
    · exact op_of (inI64_iff.mpr (by omega))
    · rfl
  have hera : (if 0 ≤ x then pure x else sub x 399) = value (if 0 ≤ x then x else x - 399) := by
    split
    · rfl
    · exact op_of (inI64_iff.mpr (by omega))
  have hfloor : (if 0 ≤ x then x else x - 399).tdiv 400 = x / 400 := tdiv_floor (n := 400) (by decide)
  have hyoe : x - x / 400 * 400 = x % 400 := by omega
  have hk : (d.month + 9).tmod 12 = (d.month + 9) % 12 := Int.tmod_eq_emod_of_nonneg (by omega)
  have hfour : (x % 400).tdiv 4 = x % 400 / 4 := Int.tdiv_eq_ediv_of_nonneg (by omega)
  have hhundred : (x % 400).tdiv 100 = x % 400 / 100 := Int.tdiv_eq_ediv_of_nonneg (by omega)
  have hmonth : (153 * ((d.month + 9) % 12) + 2).tdiv 5 = (153 * ((d.month + 9) % 12) + 2) / 5 :=
    Int.tdiv_eq_ediv_of_nonneg (by omega)
  rw [← fromCivil_eq, fromCivil, ← hstart, marchDays_era]
  unfold daysFromCivil
  rw [hfirst, value_bind, hera, value_bind, hfloor]
  simp only [add, sub, mul, op_bind_eq, hyoe, hk, hfour, hhundred, hmonth]
  simp only [op, ite_ite_overflow]
  unfold marchMonth at hdoy
  rw [if_pos (by simp only [inI64_iff]; omega), eraDays, marchMonth]
  exact congrArg value (by ring)

/-- The steps of the conversion do not overflow. -/
theorem civilFromDays_eq {z : ℤ} (h : InI64 (z * 86400)) : civilFromDays z = value (toCivil z) := by
  rw [inI64_iff] at h
  obtain ⟨w, hw⟩ : ∃ w, w = z + 719468 := ⟨_, rfl⟩
  have hera : (if 0 ≤ w then pure w else sub w 146096) = value (if 0 ≤ w then w else w - 146096) := by
    split
    · rfl
    · exact op_of (inI64_iff.mpr (by omega))
  have hfloor : (if 0 ≤ w then w else w - 146096).tdiv 146097 = w / 146097 :=
    tdiv_floor (n := 146097) (by decide)
  obtain ⟨doe, hdoe⟩ : ∃ doe, doe = w % 146097 := ⟨_, rfl⟩
  have hrest : w - w / 146097 * 146097 = doe := by omega
  have hdoe_mem : 0 ≤ doe ∧ doe < 146097 := by omega
  obtain ⟨yoe, hyoe⟩ : ∃ yoe, yoe = yearOfEra doe := ⟨_, rfl⟩
  obtain ⟨hyoe_mem, hdoy_mem⟩ := yearOfEra_bounds hdoe_mem
  obtain ⟨doy, hdoy⟩ : ∃ doy, doy = doe - eraDays yoe := ⟨_, rfl⟩
  rw [← hyoe, ← hdoy] at hdoy_mem
  rw [← hyoe] at hyoe_mem
  have hyear : (doe - doe / 1460 + doe / 36524 - doe / 146096).tdiv 365 = yoe := by
    rw [Int.tdiv_eq_ediv_of_nonneg (by omega), hyoe, yearOfEra]
  have hdays : doe - (365 * yoe + yoe / 4 - yoe / 100) = doy := by rw [hdoy, eraDays]
  have hmp : (5 * doy + 2).tdiv 153 = (5 * doy + 2) / 153 := Int.tdiv_eq_ediv_of_nonneg (by omega)
  obtain ⟨k, hk⟩ : ∃ k, k = (5 * doy + 2) / 153 := ⟨_, rfl⟩
  have hk_mem : 0 ≤ k ∧ k < 12 := by omega
  have hday : (153 * k + 2).tdiv 5 = marchMonth k := Int.tdiv_eq_ediv_of_nonneg (by omega)
  have hday_mem : 0 ≤ marchMonth k ∧ marchMonth k ≤ 365 := by
    unfold marchMonth
    omega
  have hm : (if k < 10 then op (k + 3) else op (k - 9)) = value (if k < 10 then k + 3 else k - 9) := by
    split <;> exact op_of (inI64_iff.mpr (by omega))
  have hy (m : ℤ) : (if m ≤ 2 then op (yoe + w / 146097 * 400 + 1) else value (yoe + w / 146097 * 400)) =
      value (if m ≤ 2 then yoe + w / 146097 * 400 + 1 else yoe + w / 146097 * 400) := by
    split
    · exact op_of (inI64_iff.mpr (by omega))
    · rfl
  have hz : add z 719468 = value w := by
    rw [hw]
    exact op_of (inI64_iff.mpr (by omega))
  unfold civilFromDays toCivil
  rw [hz, value_bind, hera, value_bind, hfloor, ← hw]
  simp only [add, sub, mul, op_bind_eq, hrest, Int.tdiv_eq_ediv_of_nonneg hdoe_mem.1, hyear,
    Int.tdiv_eq_ediv_of_nonneg hyoe_mem.1, hdays, hmp, ← hk, hday, hm, value_bind, hy, pure_eq, ← hdoe, ← hyoe,
    ← hdoy]
  simp only [ite_ite_overflow]
  rw [if_pos (by simp only [inI64_iff]; omega)]

/-! ## Overflows -/

/-- What an offset adds, in seconds. -/
def offsetValue : Option (ℤ × ℤ × ℤ) → ℤ
  | none => 0
  | some (sign, h, m) => sign * (h * 3600 + m * 60)

def OffsetFits : Option (ℤ × ℤ × ℤ) → Prop
  | none => True
  | some (_, h, m) => h * 3600 + m * 60 ≤ maxInstant

/-- Clocks whose seconds are those of an `i64`, from the hours on. -/
def ClockFits (hour minute second offset : ℤ) : Prop :=
  InI64 (hour * 3600) ∧ InI64 (minute * 60) ∧ InI64 (hour * 3600 + minute * 60) ∧
    InI64 (hour * 3600 + minute * 60 + second) ∧ InI64 (hour * 3600 + minute * 60 + second - offset)

/-- Texts whose numbers are small enough. -/
def NumbersFit (text : Text) : Prop :=
  ∀ year month day rest, dateFields (trim text) = some (year, month, day, rest) → 1 < year →
    ∀ clock offset, zoneFields rest = some (clock, offset) →
      OffsetFits offset ∧ ∀ hour minute second digits, clockFields clock = some (hour, minute, second, digits) →
        DateFits year month day ∧
          (InI64 (fromCivil year month day * 86400) → ClockFits hour minute second (offsetValue offset))

/-- The fields of a date that was read are in range. -/
theorem dateFields_spec {text rest : Text} {year month day : ℤ}
    (h : dateFields text = some (year, month, day, rest)) : InI64 year ∧ InI64 day ∧ 0 ≤ month := by
  obtain ⟨⟨date, rest'⟩, -, h⟩ := bind_eq_some_iff.mp h
  simp only at h
  split at h
  · rename_i y m d hpieces
    obtain ⟨year', hyear, h⟩ := bind_eq_some_iff.mp h
    obtain ⟨month', hmonth, h⟩ := bind_eq_some_iff.mp h
    obtain ⟨day', hday, h⟩ := bind_eq_some_iff.mp h
    cases h
    have hy := parseInt_bounds hyear
    have hd := parseInt_bounds hday
    exact ⟨inI64_iff.mpr (by omega), inI64_iff.mpr (by omega), parseInt_nonneg (splitn_three hpieces).2 hmonth⟩
  · cases h

/-- Behind the sign of an offset there is no other. -/
theorem zoneFields_spec {rest clock : Text} {sign h m : ℤ}
    (hzone : zoneFields rest = some (clock, some (sign, h, m))) : (sign = 1 ∨ sign = -1) ∧ 0 ≤ h ∧ 0 ≤ m := by
  unfold zoneFields at hzone
  split at hzone
  · cases hzone
  · split at hzone
    · rename_i clock' mark offset hsplit
      obtain ⟨h', hh, hzone⟩ := bind_eq_some_iff.mp hzone
      obtain ⟨m', hm, hzone⟩ := bind_eq_some_iff.mp hzone
      cases hzone
      have hpiece : ∀ piece ∈ splitn 2 ':' offset, '-' ∉ piece := fun piece hpiece hmem => by
        simpa using rsplitAtChar_behind hsplit '-' (mem_of_splitn hpiece hmem)
      refine ⟨by split <;> simp, parseInt_nonneg ?_ hh, parseInt_nonneg ?_ hm⟩
      · rcases hparts : splitn 2 ':' offset with _ | ⟨piece, parts⟩
        · simp
        · exact hpiece piece (by simp [hparts])
      · rcases hparts : splitn 2 ':' offset with _ | ⟨piece, _ | ⟨piece', parts⟩⟩
        · simp
        · simp
        · exact hpiece piece' (by simp [hparts])
    · cases hzone

/-- An offset has a value exactly where it fits. -/
theorem offsetSecs_eq {rest clock : Text} {offset : Option (ℤ × ℤ × ℤ)}
    (h : zoneFields rest = some (clock, offset)) :
    OffsetFits offset ∧ offsetSecs offset = value (offsetValue offset) ∨
      ¬ OffsetFits offset ∧ offsetSecs offset = overflow := by
  rcases offset with _ | ⟨sign, hours, minutes⟩
  · exact .inl ⟨trivial, rfl⟩
  · obtain ⟨hsign, hh, hm⟩ := zoneFields_spec h
    have heq : offsetSecs (some (sign, hours, minutes)) =
        if hours * 3600 + minutes * 60 ≤ maxInstant then value (sign * (hours * 3600 + minutes * 60))
        else overflow := by
      unfold offsetSecs
      simp only [add, mul, op_bind_eq]
      simp only [op, ite_ite_overflow]
      refine if_congr ?_ rfl rfl
      simp only [inI64_iff, maxInstant]
      rcases hsign with rfl | rfl <;> omega
    rw [heq]
    by_cases hfits : hours * 3600 + minutes * 60 ≤ maxInstant
    · exact .inl ⟨hfits, if_pos hfits⟩
    · exact .inr ⟨hfits, if_neg hfits⟩

/-- The digits behind the point are those of less than a second. -/
theorem fractionNanos_eq {digits : Text} (hs : ∀ c ∈ digits, c.isDigit = true) :
    fractionNanos (digits.take 9) =
      value ((Nat.ofDigitChars 10 digits 0 * 10 ^ 9 / 10 ^ digits.length : ℕ) : ℤ) := by
  have htake : ∀ c ∈ digits.take 9, c.isDigit = true := fun c hc => hs c (mem_of_mem_take hc)
  have hlt := ofDigitChars_lt htake
  have hlen : (digits.take 9).length ≤ 9 := by simp
  have hpow : 10 ^ (digits.take 9).length * 10 ^ (9 - (digits.take 9).length) = 10 ^ 9 := by
    rw [← pow_add]
    congr 1
    omega
  have hnine : Nat.ofDigitChars 10 digits 0 * 10 ^ 9 / 10 ^ digits.length =
      Nat.ofDigitChars 10 (digits.take 9) 0 * 10 ^ (9 - (digits.take 9).length) := by
    rw [ofDigitChars_take hs, length_take]
    rcases Nat.le_total digits.length 9 with hle | hle
    · rw [Nat.min_eq_right hle, Nat.sub_eq_zero_of_le hle, pow_zero, Nat.div_one]
      refine Nat.div_eq_of_eq_mul_left (by positivity) ?_
      rw [Nat.mul_assoc, ← pow_add, Nat.sub_add_cancel hle]
    · rw [Nat.min_eq_left hle, Nat.sub_self, pow_zero, Nat.mul_one]
      have hsplit : 10 ^ digits.length = 10 ^ (digits.length - 9) * 10 ^ 9 := by
        rw [← pow_add, Nat.sub_add_cancel hle]
      rw [hsplit, Nat.mul_div_mul_right _ _ (by positivity)]
  rw [hnine]
  unfold fractionNanos
  split
  · rename_i hnil
    rw [hnil]
    simp
  · rename_i hne
    have hbound : Nat.ofDigitChars 10 (digits.take 9) 0 * 10 ^ (9 - (digits.take 9).length) < 10 ^ 9 := by
      rw [← hpow]
      exact Nat.mul_lt_mul_of_pos_right hlt (by positivity)
    have hread := parseInt_digits hne htake (by
      have hle := Nat.pow_le_pow_right (show 0 < 10 by decide) hlen
      omega)
    rw [hread]
    show mul _ _ = _
    rw [mul, op_of]
    · push_cast
      rfl
    · refine inI64_iff.mpr ?_
      have hcast : ((Nat.ofDigitChars 10 (digits.take 9) 0 * 10 ^ (9 - (digits.take 9).length) : ℕ) : ℤ) < 10 ^ 9 := by
        exact_mod_cast hbound
      push_cast at hcast
      have hnonneg : (0 : ℤ) ≤ (Nat.ofDigitChars 10 (digits.take 9) 0 : ℤ) * 10 ^ (9 - (digits.take 9).length) := by
        positivity
      omega

theorem clockFields_digits {clock digits : Text} {hour minute second : ℤ}
    (h : clockFields clock = some (hour, minute, second, digits)) :
    ∃ all : Text, (∀ c ∈ all, c.isDigit = true) ∧ digits = all.take 9 := by
  unfold clockFields at h
  obtain ⟨_, -, h⟩ := bind_eq_some_iff.mp h
  obtain ⟨_, -, h⟩ := bind_eq_some_iff.mp h
  obtain ⟨_, -, h⟩ := bind_eq_some_iff.mp h
  cases h
  exact ⟨_, fun c hc => (mem_filter.mp hc).2, rfl⟩

/-- A text is read without an overflow if its numbers are small enough. -/
theorem timestamp_ne_overflow_iff (text : Text) : timestamp text ≠ overflow ↔ NumbersFit text := by
  unfold timestamp NumbersFit
  simp only [lift_bind_ne_overflow_iff, Prod.forall]
  refine forall₂_congr fun year month => forall₃_congr fun day rest hdate => ?_
  obtain ⟨hyear, hday, hmonth⟩ := dateFields_spec hdate
  split
  · rename_i hle
    simp [hle]
  · rename_i hlt
    rw [not_le] at hlt
    simp only [hlt, forall_const, lift_bind_ne_overflow_iff, Prod.forall]
    refine forall₃_congr fun clock offset hzone => ?_
    obtain ⟨hfits, heq⟩ | ⟨hfits, heq⟩ := offsetSecs_eq hzone
    · rw [heq]
      simp only [value_bind, hfits, true_and, lift_bind_ne_overflow_iff, Prod.forall]
      refine forall₂_congr fun hour minute => forall₃_congr fun second digits hclock => ?_
      obtain ⟨all, hall, rfl⟩ := clockFields_digits hclock
      rw [fractionNanos_eq hall, daysFromCivil_eq hyear hday hlt hmonth]
      split
      · rename_i hdateFits
        simp only [value_bind, hdateFits, true_and, tryOp_bind_ne_overflow_iff, add, sub, mul,
          op_bind_ne_overflow_iff, ClockFits]
        simp [tryOp_ne_overflow]
      · rename_i hdateFits
        simp [hdateFits]
    · simp [hfits, heq]

/-! ## Well-formed texts -/

/-- The zone of a text. -/
inductive Zone
  | utc (mark : Char) (mark_mem : mark = 'Z' ∨ mark = 'z')
  | offset (negative : Bool) (hour minute : ℕ) (hour_lt : hour < 24) (minute_lt : minute < 60)

namespace Zone

def secs : Zone → ℤ
  | utc _ _ => 0
  | offset negative hour minute _ _ => (if negative then -1 else 1) * ((hour : ℤ) * 3600 + minute * 60)

def print : Zone → Text
  | utc mark _ => [mark]
  | offset negative hour minute _ _ =>
      (if negative then '-' else '+') :: (padded 2 hour ++ ':' :: padded 2 minute)

end Zone

/-- What a well-formed text says: a date of a year after the first, a clock, any digits behind its point, and a
zone. A second may be a leap second. -/
structure DateTime where
  date : Date
  year_mem : 1 < date.year ∧ date.year ≤ 9999
  separator : Char
  separator_mem : separator = 'T' ∨ separator = 't' ∨ separator = ' '
  hour : ℕ
  hour_lt : hour < 24
  minute : ℕ
  minute_lt : minute < 60
  second : ℕ
  second_le : second ≤ 60
  digits : Text
  digits_mem : ∀ c ∈ digits, c.isDigit = true
  zone : Zone

namespace DateTime

variable (x : DateTime)

def printDate : Text := padded 4 x.date.year.toNat ++ '-' :: (padded 2 x.date.month.toNat ++
  '-' :: padded 2 x.date.day.toNat)

def printClock : Text := padded 2 x.hour ++ ':' :: (padded 2 x.minute ++ ':' :: padded 2 x.second)

def printFraction : Text := if x.digits = [] then [] else '.' :: x.digits

def print : Text := x.printDate ++ x.separator :: (x.printClock ++ x.printFraction ++ x.zone.print)

/-- The seconds, without their fraction. -/
def secs : ℤ :=
  x.date.dayNumber * 86400 + ((x.hour : ℤ) * 3600 + (x.minute : ℤ) * 60 + (x.second : ℤ) - x.zone.secs)

/-- The nanoseconds of the fraction, rounded down. -/
def nanos : ℕ := Nat.ofDigitChars 10 x.digits 0 * 10 ^ 9 / 10 ^ x.digits.length

/-- The instant, in nanoseconds. -/
def instant : ℤ := x.secs * 1000000000 + x.nanos

theorem nanos_lt : x.nanos < 10 ^ 9 := by
  have hlt := ofDigitChars_lt x.digits_mem
  unfold nanos
  refine (Nat.div_lt_iff_lt_mul (by positivity)).mpr ?_
  rw [Nat.mul_comm (10 ^ 9)]
  exact Nat.mul_lt_mul_of_pos_right hlt (by positivity)

end DateTime

section

variable (x : DateTime)

/-- The date that is written is read back. -/
theorem dateFields_print (rest : Text) : dateFields (x.printDate ++ x.separator :: rest) =
    some (x.date.year, x.date.month, x.date.day, rest) := by
  obtain ⟨hylo, hyhi⟩ := x.year_mem
  obtain ⟨hmlo, hmhi⟩ := x.date.month_mem
  obtain ⟨hdlo, hdhi⟩ := x.date.day_mem
  have hdle : x.date.day ≤ 31 := by
    unfold monthLength at hdhi
    split_ifs at hdhi <;> omega
  have hnot : ∀ {c : Char}, c.isDigit = false → c ≠ '-' → c ∉ x.printDate := by
    intro c hc hdash hmem
    simp [DateTime.printDate, not_mem_padded hc, hdash] at hmem
  have hdate : splitAtChar (fun c => c = 'T' || c = 't' || c = ' ') (x.printDate ++ x.separator :: rest) =
      some (x.printDate, rest) := by
    refine splitAtChar_append (fun c hc => ?_) ?_
    · by_contra hsep
      simp only [Bool.not_eq_false, Bool.or_eq_true, decide_eq_true_eq] at hsep
      obtain (rfl | rfl) | rfl := hsep <;> exact hnot rfl (by decide) hc
    · obtain h | h | h := x.separator_mem <;> simp [h]
  have hpieces : splitn 3 '-' x.printDate =
      [padded 4 x.date.year.toNat, padded 2 x.date.month.toNat, padded 2 x.date.day.toNat] := by
    have hdash (width n : ℕ) : ∀ c ∈ padded width n, (decide (c = '-')) = false := fun c hc => by
      have hne := (ne_of_isDigit (isDigit_of_mem_padded hc)).2
      simpa using hne
    unfold DateTime.printDate
    rw [splitn, splitAtChar_append (hdash _ _) (by decide)]
    simp only
    rw [splitn, splitAtChar_append (hdash _ _) (by decide)]
    rfl
  have hread {width : ℕ} {z : ℤ} (hlo : 0 ≤ z) (hhi : z ≤ 9999) : parseInt (padded width z.toNat) = some z := by
    rw [parseInt_padded (by omega), Int.toNat_of_nonneg hlo]
  unfold dateFields
  rw [hdate, bind_eq_bind, bind_some]
  simp only
  rw [hpieces]
  simp only
  rw [hread (by omega) hyhi, hread (by omega) (by omega), hread (by omega) (by omega)]
  rfl

/-- So is the clock, to the nanosecond. -/
theorem clockFields_print : clockFields (x.printClock ++ x.printFraction) =
    some ((x.hour : ℤ), (x.minute : ℤ), (x.second : ℤ), x.digits.take 9) := by
  have hhour := x.hour_lt
  have hminute := x.minute_lt
  have hsecond := x.second_le
  have hdot : ∀ c ∈ x.printClock, (decide (c = '.')) = false := by
    intro c hc
    rw [decide_eq_false_iff_not]
    rintro rfl
    simp [DateTime.printClock, not_mem_padded (show ('.' : Char).isDigit = false from rfl)] at hc
  have hfraction : (splitAtChar (· = '.') (x.printClock ++ x.printFraction)).getD
      (x.printClock ++ x.printFraction, []) = (x.printClock, x.digits) := by
    unfold DateTime.printFraction
    split
    · rename_i hnil
      rw [append_nil, splitAtChar_eq_none hdot, hnil]
      rfl
    · rw [splitAtChar_append hdot (by decide)]
      rfl
  have hcolon (n : ℕ) : ∀ c ∈ padded 2 n, (decide (c = ':')) = false := fun c hc => by
    rw [decide_eq_false_iff_not]
    rintro rfl
    exact not_mem_padded rfl 2 n hc
  have hpieces : splitn 3 ':' x.printClock = [padded 2 x.hour, padded 2 x.minute, padded 2 x.second] := by
    unfold DateTime.printClock
    rw [splitn, splitAtChar_append (hcolon _) (by decide)]
    simp only
    rw [splitn, splitAtChar_append (hcolon _) (by decide)]
    rfl
  have hdigits : x.digits.filter Char.isDigit = x.digits := filter_eq_self.mpr x.digits_mem
  unfold clockFields
  rw [hfraction]
  simp only [hpieces, headD_cons, getD_cons_succ, getD_cons_zero, hdigits]
  rw [parseInt_padded (by omega), parseInt_padded (by omega), parseInt_padded (by omega)]
  rfl

/-- So is the zone. -/
theorem zoneFields_print (s : Text) : ∃ offset, zoneFields (s ++ x.zone.print) = some (s, offset) ∧
    OffsetFits offset ∧ offsetValue offset = x.zone.secs := by
  cases hzone : x.zone with
  | utc mark hmark =>
    refine ⟨none, ?_, trivial, rfl⟩
    unfold zoneFields Zone.print
    rw [if_pos (by simpa using hmark), dropLast_concat]
  | offset negative hour minute hhour hminute =>
    refine ⟨some (if negative then -1 else 1, hour, minute), ?_, ?_, rfl⟩
    · have hlast : (s ++ (Zone.offset negative hour minute hhour hminute).print).getLast? =
          some ((padded 2 minute).getLast (padded_ne_nil 2 minute)) := by
        unfold Zone.print
        rw [getLast?_append_cons, getLast?_cons, getLast?_append_cons,
          getLast?_cons, getLast?_eq_some_getLast (padded_ne_nil 2 minute)]
        rfl
      have hdigit := isDigit_of_mem_padded (getLast_mem (padded_ne_nil 2 minute))
      have hsign : ∀ c ∈ padded 2 hour ++ ':' :: padded 2 minute, (c = '+' || c = '-') = false := by
        intro c hc
        rw [Bool.eq_false_iff]
        intro hsign
        have hc' : c = '+' ∨ c = '-' := by simpa using hsign
        obtain rfl | rfl := hc' <;> simp [not_mem_padded] at hc
      have hcolon : ∀ c ∈ padded 2 hour, (decide (c = ':')) = false := fun c hc => by
        rw [decide_eq_false_iff_not]
        rintro rfl
        exact not_mem_padded rfl 2 hour hc
      have hpieces : splitn 2 ':' (padded 2 hour ++ ':' :: padded 2 minute) = [padded 2 hour, padded 2 minute] := by
        rw [splitn, splitAtChar_append hcolon (by decide)]
        rfl
      unfold zoneFields
      rw [if_neg, Zone.print, rsplitAtChar_append hsign (by cases negative <;> rfl)]
      · simp only [hpieces, headD_cons, getD_cons_succ, getD_cons_zero]
        rw [parseInt_padded (by omega), parseInt_padded (by omega)]
        cases negative <;> rfl
      · rw [hlast]
        rintro (h | h) <;> rw [some_inj.mp h] at hdigit <;> exact absurd hdigit (by decide)
    · show (hour : ℤ) * 3600 + minute * 60 ≤ maxInstant
      unfold maxInstant
      omega

theorem getLast?_zone_print (zone : Zone) (s : Text) : ∀ c ∈ (s ++ zone.print).getLast?, isWhitespace c = false := by
  intro c hc
  cases zone with
  | utc mark hmark =>
    rw [Zone.print, getLast?_concat] at hc
    cases hc
    obtain rfl | rfl := hmark <;> rfl
  | offset negative hour minute _ _ =>
    rw [Zone.print, getLast?_append_cons, getLast?_cons, getLast?_append_cons, getLast?_cons,
      getLast?_eq_some_getLast (padded_ne_nil 2 minute)] at hc
    cases hc
    exact not_isWhitespace_of_isDigit (isDigit_of_mem_padded (getLast_mem (padded_ne_nil 2 minute)))

/-- A text that is written has nothing to trim. -/
theorem trim_print : trim x.print = x.print := by
  refine trim_eq_self (fun c hc => ?_) (fun c hc => ?_)
  · rcases hyear : padded 4 x.date.year.toNat with _ | ⟨digit, digits⟩
    · exact absurd hyear (padded_ne_nil _ _)
    · simp only [DateTime.print, DateTime.printDate, hyear, cons_append, head?_cons, mem_def,
        some.injEq] at hc
      rw [← hc]
      exact not_isWhitespace_of_isDigit (@isDigit_of_mem_padded 4 x.date.year.toNat _ (by simp [hyear]))
  · refine getLast?_zone_print x.zone (x.printDate ++ x.separator :: (x.printClock ++ x.printFraction)) c ?_
    simpa [DateTime.print] using hc

/-- The days and the seconds of a well-formed text are far from the ends of an `i64`. -/
theorem days_bounds : -1000000 ≤ x.date.dayNumber ∧ x.date.dayNumber ≤ 4000000 := by
  obtain ⟨hylo, hyhi⟩ := x.year_mem
  obtain ⟨hdoy, -, -⟩ := marchMonth_day x.date
  have hnumber := fromCivil_eq x.date
  unfold fromCivil marchDays at hnumber
  constructor <;> split at hnumber <;> omega

theorem zone_secs_bounds (zone : Zone) : -90000 ≤ zone.secs ∧ zone.secs ≤ 90000 := by
  cases zone with
  | utc => simp [Zone.secs]
  | offset negative hour minute hhour hminute =>
    cases negative <;> simp [Zone.secs] <;> omega

/-- A well-formed text is read as its instant, unless that or its whole second is out of range. -/
theorem timestamp_print : timestamp x.print =
    if InI64 (x.secs * 1000000000) ∧ InI64 x.instant then value x.instant else absent := by
  obtain ⟨hylo, hyhi⟩ := x.year_mem
  obtain ⟨hdlo, hdhi⟩ := days_bounds x
  obtain ⟨hzlo, hzhi⟩ := zone_secs_bounds x.zone
  have hhour := x.hour_lt
  have hminute := x.minute_lt
  have hsecond := x.second_le
  obtain ⟨offset, hzone, hfits, hoffset⟩ := zoneFields_print x (x.printClock ++ x.printFraction)
  have hsecs : offsetSecs offset = value x.zone.secs := by
    obtain ⟨-, heq⟩ | ⟨hno, -⟩ := offsetSecs_eq hzone
    · rw [heq, hoffset]
    · exact absurd hfits hno
  have hdays : InI64 (x.date.dayNumber * 86400) := inI64_iff.mpr (by omega)
  have hnanos : fractionNanos (x.digits.take 9) = value (x.nanos : ℤ) := fractionNanos_eq x.digits_mem
  unfold timestamp
  rw [trim_print, DateTime.print, dateFields_print]
  simp only [lift, value_bind, if_neg (not_le.mpr hylo), hzone, hsecs, clockFields_print, hnanos,
    daysFromCivil_date hdays, tryOp_of hdays, add, sub, mul]
  rw [op_bind (inI64_iff.mpr (by omega)), op_bind (inI64_iff.mpr (by omega)), op_bind (inI64_iff.mpr (by omega)),
    op_bind (inI64_iff.mpr (by omega)), op_bind (inI64_iff.mpr (by omega)), ← DateTime.secs,
    tryOp_of (inI64_iff.mpr (by unfold DateTime.secs; omega)), value_bind]
  by_cases hwhole : InI64 (x.secs * 1000000000)
  · rw [tryOp_of hwhole, value_bind, ← DateTime.instant]
    by_cases hin : InI64 x.instant
    · rw [tryOp_of hin, if_pos ⟨hwhole, hin⟩]
    · rw [tryOp_of_not hin, if_neg (fun h => hin h.2)]
  · rw [tryOp_of_not hwhole, absent_bind, if_neg (fun h => hwhole h.1)]

end

/-! ## The inverse -/

/-- The date and the second of the day of an instant. -/
theorem exists_date {t : ℤ} (h : InI64 t) : ∃ (d : Date) (tod : ℕ),
    toCivil (t / 1000000000 / 86400) = (d.year, d.month, d.day) ∧ d.dayNumber = t / 1000000000 / 86400 ∧
    InI64 (t / 1000000000 / 86400 * 86400) ∧ (1 < d.year ∧ d.year ≤ 9999) ∧ (tod : ℤ) = t / 1000000000 % 86400 := by
  rw [inI64_iff] at h
  obtain ⟨d, hd, hnumber⟩ := toCivil_eq (t / 1000000000 / 86400)
  refine ⟨d, _, hd, hnumber, inI64_iff.mpr (by omega), ?_, Int.toNat_of_nonneg (by omega)⟩
  obtain ⟨hdoy, -, -⟩ := marchMonth_day d
  have hcivil := fromCivil_eq d
  rw [hnumber] at hcivil
  unfold fromCivil marchDays at hcivil
  constructor <;> by_contra hno <;> split at hcivil <;> omega

/-- The texts that are written are well-formed. -/
theorem rfc3339_print {t : ℤ} (h : InI64 t) :
    ∃ x : DateTime, rfc3339 t = value x.print ∧ x.instant = t ∧ x.secs = t / 1000000000 := by
  obtain ⟨d, tod, hd, hnumber, hdays, hyear, htod⟩ := exists_date h
  obtain ⟨frac, hfrac⟩ : ∃ frac : ℕ, (frac : ℤ) = t % 1000000000 :=
    ⟨(t % 1000000000).toNat, Int.toNat_of_nonneg (by omega)⟩
  have hfrac_lt : frac < 10 ^ 9 := by omega
  let x : DateTime :=
    { date := d
      year_mem := hyear
      separator := 'T'
      separator_mem := .inl rfl
      hour := tod / 3600
      hour_lt := by omega
      minute := tod / 60 % 60
      minute_lt := by omega
      second := tod % 60
      second_le := by omega
      digits := if frac = 0 then [] else padded 9 frac
      digits_mem := by
        intro c hc
        split at hc
        · cases hc
        · exact isDigit_of_mem_padded hc
      zone := .utc 'Z' (.inl rfl) }
  have hnanos : x.nanos = frac := by
    show Nat.ofDigitChars 10 (if frac = 0 then [] else padded 9 frac) 0 * 10 ^ 9 /
      10 ^ (if frac = 0 then [] else padded 9 frac).length = frac
    split
    · rename_i hzero
      simp [hzero]
    · rw [ofDigitChars_padded, length_padded (by decide) hfrac_lt, Nat.mul_div_cancel _ (by positivity)]
  have hsecs : x.secs = t / 1000000000 := by
    show d.dayNumber * 86400 +
      (((tod / 3600 : ℕ) : ℤ) * 3600 + ((tod / 60 % 60 : ℕ) : ℤ) * 60 + ((tod % 60 : ℕ) : ℤ) - 0) = _
    omega
  have hhour : (tod : ℤ).tdiv 3600 = ((tod / 3600 : ℕ) : ℤ) := rfl
  have hminute : ((tod : ℤ).tdiv 60).tmod 60 = ((tod / 60 % 60 : ℕ) : ℤ) := rfl
  have hsecond : (tod : ℤ).tmod 60 = ((tod % 60 : ℕ) : ℤ) := rfl
  have hylo : 0 ≤ d.year := by omega
  have hmlo : 0 ≤ d.month := by linarith [d.month_mem.1]
  have hdlo : 0 ≤ d.day := by linarith [d.day_mem.1]
  refine ⟨x, ?_, ?_, hsecs⟩
  · unfold rfc3339
    simp only [civilFromDays_eq hdays, value_bind, hd, ← htod, ← hfrac, hhour, hminute, hsecond, paddedInt_nat,
      paddedInt_toNat hylo, paddedInt_toNat hmlo, paddedInt_toNat hdlo, pure_eq, Int.natCast_eq_zero]
    refine congrArg value ?_
    simp only [DateTime.print, DateTime.printDate, DateTime.printClock, DateTime.printFraction, Zone.print, x]
    split <;> simp [padded_ne_nil]
  · rw [DateTime.instant, hsecs, hnanos]
    omega

/-- The least instant whose whole second is an `i64`. -/
def leastWhole : ℤ := -9223372036000000000

/-- Instants survive and well-formed texts are exact, but for the part of the least second that an `i64` has,
and texts with small enough numbers are read without an overflow. The conversions of dates are inverse. -/
theorem timestamp_exact (t z : ℤ) (x : DateTime) (text : Text) (d : Date) :
    (InI64 t → ∃ written, rfc3339 t = value written ∧ (timestamp written = value t ↔ leastWhole ≤ t)) ∧
    (timestamp x.print = (if InI64 x.instant then value x.instant else absent) ↔
      ¬ (InI64 x.instant ∧ x.instant < leastWhole)) ∧
    (timestamp text ≠ overflow ↔ NumbersFit text) ∧
    (InI64 (z * 86400) → ∃ d : Date, civilFromDays z = value (d.year, d.month, d.day) ∧
      daysFromCivil d.year d.month d.day = value z) ∧
    (InI64 (d.dayNumber * 86400) → daysFromCivil d.year d.month d.day = value d.dayNumber ∧
      civilFromDays d.dayNumber = value (d.year, d.month, d.day)) := by
  have hwhole {t : ℤ} (ht : InI64 t) : InI64 (t / 1000000000 * 1000000000) ↔ leastWhole ≤ t := by
    rw [inI64_iff] at ht ⊢
    unfold leastWhole
    omega
  refine ⟨fun ht => ?_, ?_, timestamp_ne_overflow_iff text, fun hz => ?_, fun hd => ?_⟩
  · obtain ⟨x, hprint, hinstant, hsecs⟩ := rfc3339_print ht
    refine ⟨x.print, hprint, ?_⟩
    rw [timestamp_print, hsecs, hinstant, ← hwhole ht]
    simp [ht]
  · have hsecs : x.secs = x.instant / 1000000000 := by
      have hnanos := x.nanos_lt
      unfold DateTime.instant
      omega
    rw [timestamp_print, hsecs]
    by_cases hin : InI64 x.instant
    · simp [hin, hwhole hin]
    · simp [hin]
  · obtain ⟨d, hd, hnumber⟩ := toCivil_eq z
    refine ⟨d, by rw [civilFromDays_eq hz, hd], ?_⟩
    rw [← hnumber] at hz ⊢
    exact daysFromCivil_date hz
  · exact ⟨daysFromCivil_date hd, by rw [civilFromDays_eq hd, toCivil_dayNumber]⟩

/-- The last nanosecond before the epoch. -/
theorem timestamp_exact_before_epoch : timestamp "1969-12-31T23:59:59.999999999Z".toList = value (-1) := by
  obtain ⟨x, -⟩ := rfc3339_print (t := -1) (by decide)
  obtain ⟨text, htext, hread⟩ := (timestamp_exact (-1) 0 x [] x.date).1 (by decide)
  have hprint : rfc3339 (-1) = value "1969-12-31T23:59:59.999999999Z".toList := by rfl
  rw [hprint] at htext
  cases htext
  exact hread.mpr (by decide)

/-- The least instant does not survive, and an hour may be too great. -/
theorem timestamp_slips :
    (∃ text, rfc3339 minInstant = value text ∧ timestamp text ≠ value minInstant) ∧
      timestamp "2024-01-01T9999999999999999:00:00Z".toList = overflow :=
  ⟨⟨"1677-09-21T00:12:43.145224192Z".toList, rfl, by decide⟩, by decide⟩

end Imbh.Docker.Timestamp
