import Mathlib.Data.Rat.Floor
import Imbh.Lib.Calendar
import Imbh.Lib.Checked
import Imbh.Lib.Numerals
import Imbh.Lib.Split
import Imbh.Tui.Refresh

/-!
# The query window under navigation

The window is that of a preset up to now, or one that was committed, panned or zoomed. The scaling by a
fraction is that of rational numbers.

* `window_navigation` — what holds after any steps.
-/

namespace Imbh.Tui.Window

open Lib Lib.Checked Option
open Tui.Refreshing (AbsTarget)

/-! ## Instants from texts -/

/-- Source: `time.rs` `days_from_civil` -/
def daysFromCivil (year : ℤ) (month day : ℕ) : Checked ℤ := do
  let y ← (if month ≤ 2 then sub year 1 else pure year : Checked ℤ)
  let era := (← (if 0 ≤ y then pure y else sub y 399 : Checked ℤ)).tdiv 400
  let yoe ← sub y (← mul era 400)
  let mp : ℤ := if 2 < month then (month - 3 : ℕ) else (month + 9 : ℕ)
  let doy ← sub (← add ((← add (← mul 153 mp) 2).tdiv 5) day) 1
  let doe ← add (← sub (← add (← mul yoe 365) (yoe.tdiv 4)) (yoe.tdiv 100)) doy
  sub (← add (← mul era 146097) doe) 719468

/-- Source: `time.rs` `parse_datetime`, the date -/
def dateFields (date : Text) : Option (ℤ × ℕ × ℕ) :=
  match date.splitOn '-' with
  | [year, month, day] => do
      let year ← parseInt (trim year)
      let month ← parseBelow (2 ^ 32) month
      let day ← parseBelow (2 ^ 32) day
      if (1 ≤ month ∧ month ≤ 12) ∧ 1 ≤ day ∧ day ≤ 31 then some (year, month, day) else none
  | _ => none

/-- Source: `time.rs` `parse_datetime`, the time -/
def timeFields (time : Text) : Option (ℕ × ℕ × ℕ) := do
  let parts := if time = [] then [] else time.splitOn ':'
  let field (i : ℕ) := (parts[i]?.map (parseBelow (2 ^ 32))).getD (some 0)
  let hour ← field 0
  let minute ← field 1
  let second ← field 2
  if parts.length ≤ 3 ∧ hour ≤ 23 ∧ minute ≤ 59 ∧ second ≤ 59 then some (hour, minute, second) else none

/-- The date and the time of a text. Source: `time.rs` `parse_datetime`, the first match -/
def datetimeParts (text : Text) : Text × Text :=
  match splitAtChar (fun c => c = ' ' || c = 'T') (trim text) with
  | some (date, time) => (date, trim time)
  | none => (trim text, [])

/-- Source: `time.rs` `parse_datetime` -/
def parseDatetime (text : Text) : Checked ℤ := do
  let (date, time) := datetimeParts text
  let (year, month, day) ← lift (dateFields date)
  let (hour, minute, second) ← lift (timeFields time)
  let secs ← tryOp ((← daysFromCivil year month day) * 86400)
  let secs ← tryOp (secs + (← add (← add (← mul hour 3600) (← mul minute 60)) second))
  tryOp (secs * 1000000000)

/-- Texts that are no instants, or whose days an `i64` can count. -/
def DatetimeFits (text : Text) : Prop :=
  ∀ year month day, dateFields (datetimeParts text).1 = some (year, month, day) →
    (timeFields (datetimeParts text).2).isSome → fromCivil year month day + 719468 ≤ maxInstant

theorem dateFields_spec {date : Text} {year : ℤ} {month day : ℕ} (h : dateFields date = some (year, month, day)) :
    (InI64 year ∧ 0 ≤ year) ∧ (1 ≤ month ∧ month ≤ 12) ∧ 1 ≤ day ∧ day ≤ 31 := by
  unfold dateFields at h
  split at h
  · rename_i y m d hpieces
    obtain ⟨year', hyear, h⟩ := bind_eq_some_iff.mp h
    obtain ⟨month', -, h⟩ := bind_eq_some_iff.mp h
    obtain ⟨day', -, h⟩ := bind_eq_some_iff.mp h
    split at h
    · rename_i hfields
      cases h
      have hdash : '-' ∉ trim y := fun hmem =>
        not_mem_of_mem_splitOn (hpieces ▸ List.mem_cons_self) (mem_of_trim hmem)
      have hbounds := parseInt_bounds hyear
      exact ⟨⟨inI64_iff.mpr (by omega), parseInt_nonneg hdash hyear⟩, hfields⟩
    · cases h
  · cases h

theorem timeFields_spec {time : Text} {hour minute second : ℕ} (h : timeFields time = some (hour, minute, second)) :
    hour ≤ 23 ∧ minute ≤ 59 ∧ second ≤ 59 := by
  unfold timeFields at h
  obtain ⟨_, -, h⟩ := bind_eq_some_iff.mp h
  obtain ⟨_, -, h⟩ := bind_eq_some_iff.mp h
  obtain ⟨_, -, h⟩ := bind_eq_some_iff.mp h
  obtain ⟨hfields, heq⟩ := ite_none_right_eq_some.mp h
  cases heq
  exact hfields.2

theorem daysFromCivil_eq {year : ℤ} {month day : ℕ} (hyi : InI64 year) (hy : 0 ≤ year)
    (hm : 1 ≤ month ∧ month ≤ 12) (hd : 1 ≤ day ∧ day ≤ 31) :
    daysFromCivil year month day =
      if fromCivil year month day + 719468 ≤ maxInstant then value (fromCivil year month day) else overflow := by
  rw [inI64_iff] at hyi
  obtain ⟨x, hstart⟩ : ∃ x, x = if (month : ℤ) ≤ 2 then year - 1 else year := ⟨_, rfl⟩
  have hfirst : (if month ≤ 2 then sub year 1 else pure year) = value x := by
    rw [hstart]
    split
    · rw [if_pos (by omega)]
      exact op_of (inI64_iff.mpr (by omega))
    · rw [if_neg (by omega)]
      rfl
  have hpos : -1 ≤ x ∧ x ≤ year := by
    rw [hstart]
    split <;> omega
  have hera : (if 0 ≤ x then pure x else sub x 399) = value (if 0 ≤ x then x else x - 399) := by
    split
    · rfl
    · exact op_of (inI64_iff.mpr (by omega))
  have hfloor : (if 0 ≤ x then x else x - 399).tdiv 400 = x / 400 := tdiv_floor (n := 400) (by decide)
  have hyoe : x - x / 400 * 400 = x % 400 := by omega
  obtain ⟨k, hk⟩ : ∃ k : ℕ, k = (if 2 < month then month - 3 else month + 9) := ⟨_, rfl⟩
  have hmp : (if 2 < month then ((month - 3 : ℕ) : ℤ) else ((month + 9 : ℕ) : ℤ)) = k := by
    rw [hk]
    split <;> rfl
  have hk_mod : ((month : ℤ) + 9) % 12 = k := by
    rw [← hmp]
    split <;> omega
  have hk_lt : k < 12 := by omega
  have hfour : (x % 400).tdiv 4 = x % 400 / 4 := Int.tdiv_eq_ediv_of_nonneg (by omega)
  have hhundred : (x % 400).tdiv 100 = x % 400 / 100 := Int.tdiv_eq_ediv_of_nonneg (by omega)
  have hmonth : (153 * (k : ℤ) + 2).tdiv 5 = (153 * (k : ℤ) + 2) / 5 := Int.tdiv_eq_ediv_of_nonneg (by omega)
  have hvalue : fromCivil year month day =
      x / 400 * 146097 + eraDays (x % 400) + (marchMonth k + day - 1) - 719468 := by
    rw [fromCivil, ← hstart, marchDays_era, hk_mod]
  unfold daysFromCivil
  rw [hfirst, value_bind, hera, value_bind, hfloor]
  simp only [add, sub, mul, op_bind_eq, hyoe, hmp, hfour, hhundred, hmonth]
  simp only [op, ite_ite_overflow]
  refine if_congr ?_ (congrArg value ?_) rfl
  · simp only [hvalue, inI64_iff, maxInstant, eraDays, marchMonth]
    omega
  · rw [hvalue, eraDays, marchMonth]
    ring

/-- A text is read without an overflow if its days can be counted. -/
theorem parseDatetime_ne_overflow_iff (text : Text) : parseDatetime text ≠ overflow ↔ DatetimeFits text := by
  unfold parseDatetime DatetimeFits
  simp only [lift_bind_ne_overflow_iff, Prod.forall]
  refine forall₃_congr fun year month day => forall_congr' fun hdate => ?_
  obtain ⟨⟨hyi, hy⟩, hm, hd⟩ := dateFields_spec hdate
  rw [daysFromCivil_eq hyi hy hm hd]
  constructor
  · intro h htime
    obtain ⟨⟨hour, minute, second⟩, htime⟩ := isSome_iff_exists.mp htime
    by_contra hfits
    exact h hour minute second htime (by rw [if_neg hfits]; rfl)
  · intro h hour minute second htime
    obtain ⟨hhour, hminute, hsecond⟩ := timeFields_spec htime
    rw [if_pos (h (by rw [htime]; rfl)), value_bind]
    simp only [tryOp_bind_ne_overflow_iff, add, mul, op_bind_ne_overflow_iff, inI64_iff]
    intro _
    refine ⟨by omega, by omega, by omega, by omega, fun _ => tryOp_ne_overflow _⟩

theorem parseDatetime_inI64 {text : Text} {z : ℤ} (h : parseDatetime text = value z) : InI64 z := by
  unfold parseDatetime at h
  simp only [bind_eq_value_iff] at h
  obtain ⟨_, -, _, -, _, -, _, -, _, -, _, -, _, -, _, -, _, -, h⟩ := h
  exact tryOp_eq_value h

/-! ## The window -/

/-- The lookbacks of the presets, in seconds. Source: `model.rs` `TIME_RANGES` -/
def timeRanges : List ℕ := [300, 900, 3600, 10800, 21600, 43200, 86400, 604800]

/-- Source: `model.rs` `MIN_WINDOW_NS` -/
def minWindowNs : ℤ := 1000000000

/-- Source: `model.rs` `MAX_WINDOW_NS` -/
def maxWindowNs : ℤ := 366 * 24 * 3600 * 1000000000

/-- What the windows are part of. Source: `app/mod.rs` `App` -/
structure App where
  rangeIndex : Fin timeRanges.length
  absWindow : Option (ℤ × ℤ)
  attrWindow : Option (ℤ × ℤ)
  absError : Option Text
  scroll : ℕ
  selected : ℕ

namespace App

/-- Source: `app/mod.rs` `App::new` -/
def new : App := ⟨⟨1, by decide⟩, none, none, none, 0, 0⟩

/-- Source: `app/window.rs` `App::lookback`, in nanoseconds -/
def lookback (app : App) : ℕ := timeRanges.get app.rangeIndex * 1000000000

/-- Source: `app/window.rs` `App::effective_window` -/
def effectiveWindow (app : App) (now : ℤ) : ℤ × ℤ :=
  match app.absWindow with
  | some window => window
  | none => (saturatingSub now app.lookback, now)

/-- Source: `keys.rs`, the picker of presets -/
def selectPreset (app : App) (index : Fin timeRanges.length) : App :=
  let changed := index ≠ app.rangeIndex ∨ app.absWindow.isSome = true
  let next := { app with rangeIndex := index, absWindow := none }
  if changed then { next with scroll := 0, selected := 0 } else next

/-- Source: `app/window.rs` `App::commit_absolute` -/
def commitAbsolute (app : App) (target : AbsTarget) (start stop : Text) : Checked (App × Bool) :=
  if target = .attributes ∧ trim start = [] ∧ trim stop = [] then
    return ({ app with attrWindow := none, absError := none }, true)
  else
    match parseDatetime start, parseDatetime stop with
    | overflow, _ => overflow
    | _, overflow => overflow
    | absent, _ => return ({ app with absError := some "start: expected UTC YYYY-MM-DD HH:MM:SS".toList }, false)
    | _, absent => return ({ app with absError := some "end: expected UTC YYYY-MM-DD HH:MM:SS".toList }, false)
    | value s, value e =>
        if s ≥ e then return ({ app with absError := some "start must be before end".toList }, false)
        else
          match target with
          | .query => return ({ app with absWindow := some (s, e), scroll := 0, selected := 0, absError := none }, true)
          | .attributes => return ({ app with attrWindow := some (s, e), absError := none }, true)

end App

/-- A number as an `i64`, without its fraction. Source: `as i64` -/
def truncI64 (q : ℚ) : ℤ := clampI64 (if 0 ≤ q then ⌊q⌋ else ⌈q⌉)

/-- A number as an `i64`, rounded to the next, and away from zero between two. Source: `round`, then `as i64` -/
def roundI64 (q : ℚ) : ℤ := clampI64 (if 0 ≤ q then ⌊q + 1 / 2⌋ else ⌈q - 1 / 2⌉)

namespace App

/-- Panning, with the clock read at most twice. Source: `app/window.rs` `App::pan_window` -/
def panWindow (app : App) (fraction : ℚ) (now later : ℤ) : Checked (App × Bool) := do
  let (start, stop) := app.effectiveWindow now
  let span := max (← sub stop start) 1
  let delta := truncI64 (span * fraction)
  if 0 < delta then do
    let room := max (← sub later stop) 0
    if room ≤ delta then
      if app.absWindow = none then return (app, false)
      else return ({ app with absWindow := none, scroll := 0, selected := 0 }, true)
    else do
      let start ← add start delta
      let stop ← add stop delta
      return ({ app with absWindow := some (start, stop), scroll := 0, selected := 0 }, true)
  else if delta = 0 then return (app, false)
  else
    return ({ app with
      absWindow := some (saturatingAdd start delta, saturatingAdd stop delta), scroll := 0, selected := 0 }, true)

/-- Source: `app/window.rs` `App::zoom_window` -/
def zoomWindow (app : App) (factor : ℚ) (now : ℤ) : Checked (App × Bool) := do
  let (start, stop) := app.effectiveWindow now
  let span := max (← sub stop start) 1
  let newSpan := max minWindowNs (min maxWindowNs (roundI64 (span * factor)))
  if newSpan = span then return (app, false)
  else do
    let center ← add start (span.tdiv 2)
    let half := newSpan.tdiv 2
    let start ← sub center half
    let stop ← add center half
    return ({ app with absWindow := some (start, stop), scroll := 0, selected := 0 }, true)

end App

/-! ## Scaling by a half and by two -/

section

variable {span : ℤ}

theorem clampI64_of {n : ℤ} (h : InI64 n) : clampI64 n = n := by
  unfold clampI64
  rw [min_eq_right h.2, max_eq_right h.1]

theorem floor_half (n : ℤ) : ⌊(n : ℚ) * (1 / 2)⌋ = n / 2 := by
  rw [mul_one_div]
  exact_mod_cast Rat.floor_intCast_div_natCast n 2

theorem truncI64_half (h : 0 ≤ span ∧ span ≤ maxInstant) : truncI64 (span * (1 / 2)) = span / 2 := by
  obtain ⟨hlo, hhi⟩ := h
  have hpos : (0 : ℚ) ≤ (span : ℚ) * (1 / 2) := by positivity
  unfold maxInstant at hhi
  rw [truncI64, if_pos hpos, floor_half, clampI64_of (inI64_iff.mpr (by omega))]

theorem truncI64_neg_half (h : 1 ≤ span ∧ span ≤ maxInstant) : truncI64 (span * (-(1 / 2))) = -(span / 2) := by
  obtain ⟨hlo, hhi⟩ := h
  have hneg : ¬ (0 : ℚ) ≤ (span : ℚ) * (-(1 / 2)) := by
    have hcast : (1 : ℚ) ≤ (span : ℚ) := by exact_mod_cast hlo
    intro hno
    linarith
  unfold maxInstant at hhi
  rw [truncI64, if_neg hneg, mul_neg, Int.ceil_neg, floor_half, clampI64_of (inI64_iff.mpr (by omega))]

theorem roundI64_half (h : 0 ≤ span ∧ span ≤ maxInstant) : roundI64 (span * (1 / 2)) = (span + 1) / 2 := by
  obtain ⟨hlo, hhi⟩ := h
  have hpos : (0 : ℚ) ≤ (span : ℚ) * (1 / 2) := by positivity
  have hsum : (span : ℚ) * (1 / 2) + 1 / 2 = ((span + 1 : ℤ) : ℚ) * (1 / 2) := by
    push_cast
    ring
  unfold maxInstant at hhi
  rw [roundI64, if_pos hpos, hsum, floor_half, clampI64_of (inI64_iff.mpr (by omega))]

theorem roundI64_two (h : 0 ≤ span) : roundI64 (span * 2) = clampI64 (2 * span) := by
  have hpos : (0 : ℚ) ≤ (span : ℚ) * 2 := by positivity
  have hsum : ⌊(span : ℚ) * 2 + 1 / 2⌋ = 2 * span := by
    rw [Int.floor_eq_iff]
    push_cast
    constructor <;> linarith
  rw [roundI64, if_pos hpos, hsum]

end

/-! ## Steps -/

/-- The fraction of a pan. Source: `keys.rs`, the keys `[` and `]` -/
def panFraction (later : Bool) : ℚ := if later then 1 / 2 else -(1 / 2)

/-- The factor of a zoom. Source: `keys.rs`, the keys `-` and `+` -/
def zoomFactor (out : Bool) : ℚ := if out then 2 else 1 / 2

inductive Action
  | select (index : Fin timeRanges.length)
  | commit (target : AbsTarget) (start stop : Text)
  | pan (later : Bool) (now again : ℤ)
  | zoom (out : Bool) (now : ℤ)

def step (app : App) : Action → Checked App
  | .select index => return app.selectPreset index
  | .commit target start stop => do
      let (app, _) ← app.commitAbsolute target start stop
      return app
  | .pan later now again => do
      let (app, _) ← app.panWindow (panFraction later) now again
      return app
  | .zoom out now => do
      let (app, _) ← app.zoomWindow (zoomFactor out) now
      return app

/-- A wall clock from 1970 to 2100. -/
def ClockOk (now : ℤ) : Prop := 0 ≤ now ∧ now ≤ 4102444800000000000

/-- The clock readings of a step. -/
def Action.InClock : Action → Prop
  | .pan _ now again => ClockOk now ∧ ClockOk again
  | .zoom _ now => ClockOk now
  | _ => True

/-- The width of a zoomed window: the nearest number, not below the least nor above the greatest width. -/
def zoomedWidth (out : Bool) (width : ℤ) : ℤ :=
  max minWindowNs (min maxWindowNs (if out then 2 * width else (width + 1) / 2))

/-- When a step goes well: its numbers are far enough from the ends of an `i64`. -/
def Meets (app : App) : Action → Prop
  | .select _ => True
  | .commit _ start stop => DatetimeFits start ∧ DatetimeFits stop
  | .pan later now again =>
      let (start, stop) := app.effectiveWindow now
      stop - start ≤ maxInstant ∧
        if later then 2 ≤ stop - start → again - stop ≤ maxInstant
        else minInstant ≤ start - (stop - start) / 2
  | .zoom out now =>
      let (start, stop) := app.effectiveWindow now
      let center := start + (stop - start) / 2
      let half := zoomedWidth out (stop - start) / 2
      stop - start ≤ maxInstant ∧
        (zoomedWidth out (stop - start) ≠ stop - start → minInstant ≤ center - half ∧ center + half ≤ maxInstant)

/-- What a step keeps: a pan that does not return to now keeps the width, and a zoom gives the scaled width about
the center, but for a nanosecond. -/
def Keeps (app : App) (action : Action) (next : App) : Prop :=
  match action with
  | .pan _ now _ =>
      next.absWindow = none ∨ ∃ start stop, next.absWindow = some (start, stop) ∧
        stop - start = (app.effectiveWindow now).2 - (app.effectiveWindow now).1
  | .zoom out now =>
      let (start, stop) := app.effectiveWindow now
      let (start', stop') := next.effectiveWindow now
      |((stop' - start' : ℤ) : ℚ) -
        max (minWindowNs : ℚ) (min (maxWindowNs : ℚ) (((stop - start : ℤ) : ℚ) * zoomFactor out))| ≤ 1 ∧
      |((start' + stop' : ℤ) : ℚ) / 2 - ((start + stop : ℤ) : ℚ) / 2| ≤ 1
  | _ => True

/-- The windows of the states that are reached. -/
def Valid (app : App) : Prop :=
  ∀ start stop, app.absWindow = some (start, stop) → (InI64 start ∧ InI64 stop) ∧ start < stop

section

variable {app : App} {now again : ℤ}

theorem effectiveWindow_valid (h : Valid app) (hnow : ClockOk now) {start stop : ℤ}
    (hwindow : app.effectiveWindow now = (start, stop)) : (InI64 start ∧ InI64 stop) ∧ start < stop := by
  unfold App.effectiveWindow at hwindow
  split at hwindow
  · rename_i window habs
    exact h start stop (by rw [habs, hwindow])
  · cases hwindow
    obtain ⟨hlo, hhi⟩ := hnow
    have hback : ∀ i : Fin timeRanges.length,
        300 ≤ timeRanges.get i ∧ timeRanges.get i ≤ 604800 := by decide
    obtain ⟨hblo, hbhi⟩ := hback app.rangeIndex
    have hback : saturatingSub now app.lookback = now - app.lookback := by
      unfold saturatingSub App.lookback
      rw [Nat.min_eq_left (by omega), clampI64_of (inI64_iff.mpr (by omega))]
    rw [hback, App.lookback, inI64_iff, inI64_iff]
    omega

/-- A window at a place, and the list from its start. -/
def App.moved (app : App) (window : Option (ℤ × ℤ)) : App :=
  { app with absWindow := window, scroll := 0, selected := 0 }

variable {start stop : ℤ}

/-- A window that is too wide overflows. -/
theorem step_wide (hwindow : app.effectiveWindow now = (start, stop)) (hwide : ¬ stop - start ≤ maxInstant) :
    (∀ later again, step app (.pan later now again) = overflow) ∧ ∀ out, step app (.zoom out now) = overflow := by
  have hsub : sub stop start = overflow := if_neg fun h => hwide h.2
  constructor
  · intro later again
    simp [step, App.panWindow, hwindow, hsub]
  · intro out
    simp [step, App.zoomWindow, hwindow, hsub]

theorem step_pan_earlier (hwindow : app.effectiveWindow now = (start, stop)) (horder : start < stop)
    (hfits : stop - start ≤ maxInstant) :
    step app (.pan false now again) =
      if stop - start < 2 then value app
      else value (app.moved (some (clampI64 (start - (stop - start) / 2), clampI64 (stop - (stop - start) / 2)))) := by
  have hsub : sub stop start = value (stop - start) := op_of ⟨by unfold minInstant; omega, hfits⟩
  have hmax : max (stop - start) 1 = stop - start := max_eq_left (by omega)
  simp only [step, App.panWindow, hwindow, hsub, value_bind, hmax, panFraction, Bool.false_eq_true, if_false,
    truncI64_neg_half ⟨show 1 ≤ stop - start by omega, hfits⟩]
  rw [if_neg (by omega)]
  by_cases hnarrow : stop - start < 2
  · rw [if_pos (by omega), if_pos hnarrow]
    rfl
  · rw [if_neg (by omega), if_neg hnarrow]
    rfl

theorem step_pan_later (hwindow : app.effectiveWindow now = (start, stop)) (horder : start < stop)
    (hin : InI64 start ∧ InI64 stop) (hfits : stop - start ≤ maxInstant) (hagain : ClockOk again) :
    step app (.pan true now again) =
      if stop - start < 2 then value app
      else if again - stop ≤ maxInstant then
        if max (again - stop) 0 ≤ (stop - start) / 2 then
          (if app.absWindow = none then value app else value (app.moved none))
        else value (app.moved (some (start + (stop - start) / 2, stop + (stop - start) / 2)))
      else overflow := by
  obtain ⟨hlo, hhi⟩ := hagain
  rw [inI64_iff, inI64_iff] at hin
  have hsub : sub stop start = value (stop - start) := op_of ⟨by unfold minInstant; omega, hfits⟩
  have hmax : max (stop - start) 1 = stop - start := max_eq_left (by omega)
  simp only [step, App.panWindow, hwindow, hsub, value_bind, hmax, panFraction, if_true,
    truncI64_half ⟨show 0 ≤ stop - start by omega, hfits⟩]
  by_cases hnarrow : stop - start < 2
  · rw [if_neg (by omega), if_pos (by omega), if_pos hnarrow]
    rfl
  · rw [if_pos (by omega), if_neg hnarrow]
    by_cases hroom : again - stop ≤ maxInstant
    · rw [sub, op_of ⟨by unfold minInstant; omega, hroom⟩, if_pos hroom]
      simp only [value_bind]
      split
      · split <;> rfl
      · rename_i hfar
        rw [add, op_of (inI64_iff.mpr (by omega)), add, value_bind, op_of (inI64_iff.mpr (by omega))]
        rfl
    · rw [sub, op, if_neg fun h => hroom h.2, if_neg hroom]
      rfl

theorem step_zoom {out : Bool} (hwindow : app.effectiveWindow now = (start, stop)) (horder : start < stop)
    (hin : InI64 start ∧ InI64 stop) (hfits : stop - start ≤ maxInstant) :
    step app (.zoom out now) =
      if zoomedWidth out (stop - start) = stop - start then value app
      else if minInstant ≤ start + (stop - start) / 2 - zoomedWidth out (stop - start) / 2 ∧
          start + (stop - start) / 2 + zoomedWidth out (stop - start) / 2 ≤ maxInstant then
        value (app.moved (some (start + (stop - start) / 2 - zoomedWidth out (stop - start) / 2,
          start + (stop - start) / 2 + zoomedWidth out (stop - start) / 2)))
      else overflow := by
  rw [inI64_iff, inI64_iff] at hin
  have hsub : sub stop start = value (stop - start) := op_of ⟨by unfold minInstant; omega, hfits⟩
  have hmax : max (stop - start) 1 = stop - start := max_eq_left (by omega)
  have hwidth : max minWindowNs (min maxWindowNs (roundI64 ((stop - start : ℤ) * zoomFactor out))) =
      zoomedWidth out (stop - start) := by
    cases out
    · rw [show zoomFactor false = 1 / 2 from rfl, roundI64_half ⟨by omega, hfits⟩]
      rfl
    · rw [show zoomFactor true = 2 from rfl, roundI64_two (by omega)]
      simp only [zoomedWidth, clampI64, minInstant, maxInstant, minWindowNs, maxWindowNs, if_true]
      omega
  have hzoomed : 0 ≤ zoomedWidth out (stop - start) ∧ zoomedWidth out (stop - start) ≤ maxWindowNs := by
    unfold zoomedWidth minWindowNs maxWindowNs
    omega
  unfold maxWindowNs at hzoomed
  simp only [step, App.zoomWindow, hwindow, hsub, value_bind, hmax, hwidth]
  generalize zoomedWidth out (stop - start) = width at *
  by_cases hsame : width = stop - start
  · rw [if_pos hsame, if_pos hsame]
    rfl
  · have hcenter : add start ((stop - start).tdiv 2) = value (start + (stop - start) / 2) := by
      rw [Int.tdiv_eq_ediv_of_nonneg (by omega)]
      exact op_of (inI64_iff.mpr (by omega))
    rw [if_neg hsame, if_neg hsame, hcenter, value_bind, Int.tdiv_eq_ediv_of_nonneg hzoomed.1]
    by_cases hlo : minInstant ≤ start + (stop - start) / 2 - width / 2
    · have hfirst : sub (start + (stop - start) / 2) (width / 2) = value (start + (stop - start) / 2 - width / 2) :=
        op_of ⟨hlo, by unfold maxInstant; omega⟩
      rw [hfirst, value_bind]
      by_cases hhi : start + (stop - start) / 2 + width / 2 ≤ maxInstant
      · rw [add, op_of ⟨by unfold minInstant; omega, hhi⟩, if_pos ⟨hlo, hhi⟩]
        rfl
      · rw [add, op, if_neg fun h => hhi h.2, if_neg fun h => hhi h.2]
        rfl
    · rw [sub, op, if_neg fun h => hlo h.1, if_neg fun h => hlo h.1]
      rfl

theorem parseDatetime_empty {text : Text} (h : trim text = []) : parseDatetime text = absent := by
  have hparts : datetimeParts text = ([], []) := by
    unfold datetimeParts
    rw [h]
    rfl
  unfold parseDatetime
  rw [hparts]
  rfl

/-- What a commit leaves. -/
theorem step_commit (app : App) (target : AbsTarget) (start stop : Text) :
    (∃ next, step app (.commit target start stop) = value next ∧
        (next.absWindow = app.absWindow ∨ ∃ s e, parseDatetime start = value s ∧ parseDatetime stop = value e ∧
          s < e ∧ next.absWindow = some (s, e))) ∧
        DatetimeFits start ∧ DatetimeFits stop ∨
      step app (.commit target start stop) = overflow ∧ ¬ (DatetimeFits start ∧ DatetimeFits stop) := by
  rw [← parseDatetime_ne_overflow_iff, ← parseDatetime_ne_overflow_iff]
  simp only [step, App.commitAbsolute]
  split
  · rename_i hempty
    obtain ⟨-, hstart, hstop⟩ := hempty
    refine .inl ⟨⟨_, rfl, .inl rfl⟩, ?_, ?_⟩
    · simp [parseDatetime_empty hstart]
    · simp [parseDatetime_empty hstop]
  · rcases hstart : parseDatetime start with s | _ | _ <;> rcases hstop : parseDatetime stop with e | _ | _
    · refine .inl ⟨?_, by simp, by simp⟩
      by_cases horder : s ≥ e
      · simp only [if_pos horder]
        exact ⟨_, rfl, .inl rfl⟩
      · simp only [if_neg horder]
        cases target
        · exact ⟨_, rfl, .inr ⟨s, e, rfl, rfl, not_le.mp horder, rfl⟩⟩
        · exact ⟨_, rfl, .inl rfl⟩
    · exact .inl ⟨⟨_, rfl, .inl rfl⟩, by simp, by simp⟩
    · exact .inr ⟨rfl, by simp⟩
    · exact .inl ⟨⟨_, rfl, .inl rfl⟩, by simp, by simp⟩
    · exact .inl ⟨⟨_, rfl, .inl rfl⟩, by simp, by simp⟩
    · exact .inr ⟨rfl, by simp⟩
    · exact .inr ⟨rfl, by simp⟩
    · exact .inr ⟨rfl, by simp⟩
    · exact .inr ⟨rfl, by simp⟩

/-- A step that meets its condition leads to windows again. -/
theorem step_valid {action : Action} {next : App} (h : Valid app) (hclock : action.InClock) (hmeets : Meets app action)
    (hstep : step app action = value next) : Valid next := by
  cases action with
  | select index =>
    cases hstep
    intro s e habs
    simp only [App.selectPreset] at habs
    split at habs <;> cases habs
  | commit target first last =>
    obtain ⟨⟨next', hnext, hwindow⟩, -⟩ | ⟨hoverflow, -⟩ := step_commit app target first last
    · rw [hnext] at hstep
      cases hstep
      obtain hsame | ⟨s, e, hs, he, horder, hset⟩ := hwindow
      · intro s e habs
        exact h s e (hsame ▸ habs)
      · intro s' e' habs
        rw [hset] at habs
        cases habs
        exact ⟨⟨parseDatetime_inI64 hs, parseDatetime_inI64 he⟩, horder⟩
    · rw [hoverflow] at hstep
      cases hstep
  | pan later now again =>
    obtain ⟨hnow, hagain⟩ := hclock
    obtain ⟨start, stop, hwindow⟩ : ∃ start stop, app.effectiveWindow now = (start, stop) := ⟨_, _, rfl⟩
    obtain ⟨hin, horder⟩ := effectiveWindow_valid h hnow hwindow
    simp only [Meets, hwindow] at hmeets
    obtain ⟨hfits, hmeets⟩ := hmeets
    rw [inI64_iff, inI64_iff] at hin
    cases later with
    | false =>
      simp only [Bool.false_eq_true, if_false] at hmeets
      unfold minInstant at hmeets
      rw [step_pan_earlier hwindow horder hfits, clampI64_of (inI64_iff.mpr (by omega)),
        clampI64_of (inI64_iff.mpr (by omega))] at hstep
      split at hstep
      · cases hstep
        exact h
      · cases hstep
        intro s e habs
        cases habs
        rw [inI64_iff, inI64_iff]
        omega
    | true =>
      rw [step_pan_later hwindow horder (by rwa [inI64_iff, inI64_iff]) hfits hagain] at hstep
      obtain ⟨-, hhi⟩ := hagain
      split at hstep
      · cases hstep
        exact h
      · split at hstep
        · split at hstep
          · split at hstep
            · cases hstep
              exact h
            · cases hstep
              intro s e habs
              cases habs
          · cases hstep
            intro s e habs
            cases habs
            rw [inI64_iff, inI64_iff]
            omega
        · cases hstep
  | zoom out now =>
    obtain ⟨start, stop, hwindow⟩ : ∃ start stop, app.effectiveWindow now = (start, stop) := ⟨_, _, rfl⟩
    obtain ⟨hin, horder⟩ := effectiveWindow_valid h hclock hwindow
    simp only [Meets, hwindow] at hmeets
    rw [step_zoom hwindow horder hin hmeets.1] at hstep
    rw [inI64_iff, inI64_iff] at hin
    have hleast : minWindowNs ≤ zoomedWidth out (stop - start) := le_max_left _ _
    unfold minWindowNs at hleast
    split at hstep
    · cases hstep
      exact h
    · split at hstep
      · rename_i hends
        cases hstep
        intro s e habs
        cases habs
        unfold minInstant maxInstant at hends
        rw [inI64_iff, inI64_iff]
        omega
      · cases hstep

theorem half_close {a b : ℤ} (h : b - 2 ≤ a ∧ a ≤ b + 2) : |(a : ℚ) / 2 - (b : ℚ) / 2| ≤ 1 := by
  have hlo : ((b - 2 : ℤ) : ℚ) ≤ (a : ℚ) := by exact_mod_cast h.1
  have hhi : (a : ℚ) ≤ ((b + 2 : ℤ) : ℚ) := by exact_mod_cast h.2
  push_cast at hlo hhi
  rw [abs_le]
  constructor <;> linarith

/-- The scaled width between the least and the greatest, in halves of nanoseconds. -/
theorem clamp_scaled (out : Bool) (width : ℤ) :
    max (minWindowNs : ℚ) (min (maxWindowNs : ℚ) ((width : ℚ) * zoomFactor out)) =
      ((max (2 * minWindowNs) (min (2 * maxWindowNs) (if out then 4 * width else width)) : ℤ) : ℚ) / 2 := by
  have hscaled : (((if out then 4 * width else width : ℤ) : ℚ)) = (width : ℚ) * zoomFactor out * 2 := by
    cases out
    · simp [zoomFactor]
    · simp only [zoomFactor, if_true]
      push_cast
      ring
  rw [eq_div_iff (by norm_num), max_mul_of_nonneg _ _ (by norm_num), min_mul_of_nonneg _ _ (by norm_num), ← hscaled]
  push_cast
  ring_nf

/-- A zoom keeps the width and the center, but for a nanosecond. -/
theorem keeps_zoom {out : Bool} {next : App} {start' stop' : ℤ} (hwindow : app.effectiveWindow now = (start, stop))
    (hnext : next.effectiveWindow now = (start', stop'))
    (hwidth : stop' - start' = 2 * (zoomedWidth out (stop - start) / 2) ∨
      stop' - start' = stop - start ∧ zoomedWidth out (stop - start) = stop - start)
    (hcenter : start + stop - 2 ≤ start' + stop' ∧ start' + stop' ≤ start + stop + 2) :
    Keeps app (.zoom out now) next := by
  simp only [Keeps, hwindow, hnext]
  refine ⟨?_, half_close hcenter⟩
  rw [clamp_scaled, show ((stop' - start' : ℤ) : ℚ) = ((2 * (stop' - start') : ℤ) : ℚ) / 2 by push_cast; ring]
  refine half_close ?_
  unfold zoomedWidth minWindowNs maxWindowNs at hwidth
  unfold minWindowNs maxWindowNs
  cases out
  · simp only [Bool.false_eq_true, if_false] at hwidth ⊢
    omega
  · simp only [if_true] at hwidth ⊢
    omega

/-- A pan that leaves the window keeps its width. -/
theorem keeps_still {later : Bool} :
    Keeps app (.pan later now again) app := by
  rcases habs : app.absWindow with _ | ⟨s, e⟩
  · exact .inl habs
  · refine .inr ⟨s, e, habs, ?_⟩
    have heq : app.effectiveWindow now = (s, e) := by
      unfold App.effectiveWindow
      rw [habs]
    rw [heq]

/-- A step goes well and keeps what it is to keep, if and only if it meets its condition. -/
theorem step_meets_iff {action : Action} (h : Valid app) (hclock : action.InClock) :
    (∃ next, step app action = value next ∧ Keeps app action next) ↔ Meets app action := by
  cases action with
  | select index => exact iff_of_true ⟨_, rfl, trivial⟩ trivial
  | commit target first last =>
    obtain ⟨⟨next, hnext, -⟩, hfits⟩ | ⟨hoverflow, hfits⟩ := step_commit app target first last
    · exact iff_of_true ⟨next, hnext, trivial⟩ hfits
    · refine iff_of_false ?_ hfits
      rintro ⟨next, hnext, -⟩
      rw [hoverflow] at hnext
      cases hnext
  | pan later now again =>
    obtain ⟨hnow, hagain⟩ := hclock
    obtain ⟨start, stop, hwindow⟩ : ∃ start stop, app.effectiveWindow now = (start, stop) := ⟨_, _, rfl⟩
    obtain ⟨hin, horder⟩ := effectiveWindow_valid h hnow hwindow
    simp only [Meets, hwindow]
    by_cases hfits : stop - start ≤ maxInstant
    · cases later with
      | false =>
        simp only [Bool.false_eq_true, if_false, hfits, true_and]
        rw [step_pan_earlier hwindow horder hfits]
        rw [inI64_iff, inI64_iff] at hin
        by_cases hnarrow : stop - start < 2
        · rw [if_pos hnarrow]
          refine iff_of_true ⟨app, rfl, keeps_still⟩ ?_
          unfold minInstant
          omega
        · rw [if_neg hnarrow]
          constructor
          · rintro ⟨next, hnext, hkeeps⟩
            cases hnext
            obtain hnone | ⟨s, e, hsome, hwidth⟩ := hkeeps
            · cases hnone
            · cases hsome
              simp only [hwindow, clampI64, minInstant, maxInstant] at hwidth
              unfold minInstant
              omega
          · intro hmeets
            unfold minInstant at hmeets
            refine ⟨_, rfl, .inr ⟨_, _, rfl, ?_⟩⟩
            rw [hwindow, clampI64_of (inI64_iff.mpr (by omega)), clampI64_of (inI64_iff.mpr (by omega))]
            ring
      | true =>
        simp only [if_true, hfits, true_and]
        rw [step_pan_later hwindow horder hin hfits hagain]
        by_cases hnarrow : stop - start < 2
        · rw [if_pos hnarrow]
          exact iff_of_true ⟨app, rfl, keeps_still⟩ fun hwide => absurd hwide (by omega)
        · rw [if_neg hnarrow]
          by_cases hroom : again - stop ≤ maxInstant
          · rw [if_pos hroom]
            refine iff_of_true ?_ fun _ => hroom
            split
            · split
              · rename_i hlive
                exact ⟨app, rfl, .inl hlive⟩
              · exact ⟨_, rfl, .inl rfl⟩
            · refine ⟨_, rfl, .inr ⟨_, _, rfl, ?_⟩⟩
              rw [hwindow]
              ring
          · rw [if_neg hroom]
            refine iff_of_false ?_ fun hmeets => hroom (hmeets (by omega))
            rintro ⟨next, hnext, -⟩
            cases hnext
    · refine iff_of_false ?_ fun hmeets => hfits hmeets.1
      rintro ⟨next, hnext, -⟩
      rw [(step_wide hwindow hfits).1] at hnext
      cases hnext
  | zoom out now =>
    obtain ⟨start, stop, hwindow⟩ : ∃ start stop, app.effectiveWindow now = (start, stop) := ⟨_, _, rfl⟩
    obtain ⟨hin, horder⟩ := effectiveWindow_valid h hclock hwindow
    simp only [Meets, hwindow]
    by_cases hfits : stop - start ≤ maxInstant
    · rw [step_zoom hwindow horder hin hfits]
      by_cases hsame : zoomedWidth out (stop - start) = stop - start
      · rw [if_pos hsame]
        exact iff_of_true ⟨app, rfl, keeps_zoom hwindow hwindow (.inr ⟨rfl, hsame⟩) (by omega)⟩
          ⟨hfits, fun hne => absurd hsame hne⟩
      · rw [if_neg hsame]
        split
        · rename_i hends
          refine iff_of_true ⟨_, rfl, ?_⟩ ⟨hfits, fun _ => hends⟩
          exact keeps_zoom hwindow rfl (.inl (by ring)) (by omega)
        · rename_i hends
          refine iff_of_false ?_ fun hmeets => hends (hmeets.2 hsame)
          rintro ⟨next, hnext, -⟩
          cases hnext
    · refine iff_of_false ?_ fun hmeets => hfits hmeets.1
      rintro ⟨next, hnext, -⟩
      rw [(step_wide hwindow hfits).2] at hnext
      cases hnext

end

/-! ## Runs -/

/-- The states that are reached by steps that meet their conditions. -/
inductive Run : App → Prop
  | new : Run .new
  | step {app next : App} (action : Action) (run : Run app) (clock : action.InClock) (meets : Meets app action)
      (done : step app action = value next) : Run next

theorem run_valid {app : App} (h : Run app) : Valid app := by
  induction h with
  | new => exact fun _ _ habs => nomatch habs
  | step action run clock meets done ih => exact step_valid ih clock meets done

/-- After any steps that met their conditions the window has its start before its end, and the next step goes
well and keeps what it is to keep if and only if it meets its condition. -/
theorem window_navigation {app : App} (h : Run app) :
    (∀ now, ClockOk now → (app.effectiveWindow now).1 < (app.effectiveWindow now).2) ∧
      ∀ action : Action, action.InClock →
        ((∃ next, step app action = value next ∧ Keeps app action next) ↔ Meets app action) :=
  ⟨fun _ hnow => (effectiveWindow_valid (run_valid h) hnow rfl).2, fun _ hclock => step_meets_iff (run_valid h) hclock⟩

/-- A window of two days is committed, and panned by a day to the twenty-ninth of February. -/
theorem window_navigation_leap : ∃ app next,
    step .new (.commit .query "2024-03-01".toList "2024-03-03".toList) = value app ∧
      app.absWindow = some (1709251200000000000, 1709424000000000000) ∧
      step app (.pan false 1709500000000000000 1709500000000000001) = value next ∧
      next.absWindow = some (1709164800000000000, 1709337600000000000) ∧
      Keeps app (.pan false 1709500000000000000 1709500000000000001) next := by
  have hstart : parseDatetime "2024-03-01".toList = value 1709251200000000000 := by decide
  have hstop : parseDatetime "2024-03-03".toList = value 1709424000000000000 := by decide
  let app := App.new.moved (some (1709251200000000000, 1709424000000000000))
  have hcommit : step .new (.commit .query "2024-03-01".toList "2024-03-03".toList) = value app := by
    simp only [step, App.commitAbsolute, hstart, hstop]
    rfl
  have hrun : Run app := by
    refine .step (.commit .query "2024-03-01".toList "2024-03-03".toList) .new trivial ⟨?_, ?_⟩ hcommit
    · exact (parseDatetime_ne_overflow_iff _).mp (by rw [hstart]; exact nofun)
    · exact (parseDatetime_ne_overflow_iff _).mp (by rw [hstop]; exact nofun)
  obtain ⟨next, hnext, hkeeps⟩ := ((window_navigation hrun).2 (.pan false 1709500000000000000 1709500000000000001)
    ⟨⟨by decide, by decide⟩, by decide, by decide⟩).mpr ⟨by decide, by decide⟩
  refine ⟨app, next, hcommit, rfl, hnext, ?_, hkeeps⟩
  rw [step_pan_earlier rfl (by decide) (by decide)] at hnext
  cases hnext
  rfl

/-- A window over most of the instants is committed, and panning overflows. -/
theorem window_overflow : ∃ app, step .new (.commit .query "1678-01-01".toList "2262-01-01".toList) = value app ∧
    step app (.pan false 0 0) = overflow := by
  have hstart : parseDatetime "1678-01-01".toList = value (-9214560000000000000) := by decide
  have hstop : parseDatetime "2262-01-01".toList = value 9214646400000000000 := by decide
  refine ⟨App.new.moved (some (-9214560000000000000, 9214646400000000000)), ?_, rfl⟩
  simp only [step, App.commitAbsolute, hstart, hstop]
  rfl

end Imbh.Tui.Window
