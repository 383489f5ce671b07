import Imbh.Lib.Numerals
import Imbh.Segments.Files

/-!
# The paths of segments

A segment is written to `<table>/<day>/<now>-<seq>.parquet`, the day being that of its least time.
-/

namespace Imbh.Segments

open Lib
open Storage (Table tableName)

/-- The year, the month and the day of a day since the epoch. Source: `lib.rs` `civil_from_days` -/
def civilFromDays (z : ℤ) : ℤ × ℕ × ℕ :=
  let z := z + 719468
  let era := (if 0 ≤ z then z else z - 146096).tdiv 146097
  let doe := z - era * 146097
  let yoe := (doe - doe.tdiv 1460 + doe.tdiv 36524 - doe.tdiv 146096).tdiv 365
  let y := yoe + era * 400
  let doy := doe - (365 * yoe + yoe.tdiv 4 - yoe.tdiv 100)
  let mp := (5 * doy + 2).tdiv 153
  let d := (doy - (153 * mp + 2).tdiv 5 + 1).toNat
  let m := (if mp < 10 then mp + 3 else mp - 9).toNat
  (if m ≤ 2 then y + 1 else y, m, d)

/-- Source: `lib.rs` `utc_date_string` -/
def utcDateString (unixNanos : ℤ) : Text :=
  let (y, m, d) := civilFromDays (unixNanos.ediv 86400000000000)
  paddedInt 4 y ++ '-' :: padded 2 m ++ '-' :: padded 2 d

example : utcDateString (-1) = "1969-12-31".toList := by decide

/-- The name of a segment file. -/
def fileName (now seq : ℕ) : Text := padded 20 now ++ '-' :: padded 6 seq ++ ".parquet".toList

/-- Source: `lib.rs` `write_segment_parquet` -/
def segmentPath (t : Table) (minTime : ℤ) (now seq : ℕ) : Text :=
  tableName t ++ '/' :: (utcDateString minTime ++ '/' :: fileName now seq)

theorem slash_not_mem_utcDateString (x : ℤ) : '/' ∉ utcDateString x := by
  have hpadded (width n : ℕ) : '/' ∉ padded width n := not_mem_padded rfl width n
  unfold utcDateString paddedInt
  intro h
  simp only at h
  split at h
  · simp [hpadded] at h
  · simp [hpadded] at h

theorem slash_not_mem_tableName (t : Table) : '/' ∉ tableName t := by
  cases t <;> decide

theorem tableName_inj {t t' : Table} (h : tableName t = tableName t') : t = t' := by
  revert h
  cases t <;> cases t' <;> decide

theorem splitOn_segmentPath (t : Table) (minTime : ℤ) (now seq : ℕ) :
    (segmentPath t minTime now seq).splitOn '/' =
      tableName t :: utcDateString minTime :: (fileName now seq).splitOn '/' := by
  rw [segmentPath, List.splitOn_append_cons_self_of_not_mem (slash_not_mem_tableName t),
    List.splitOn_append_cons_self_of_not_mem (slash_not_mem_utcDateString minTime)]

/-- A path has the day of its time. -/
theorem dayOfPath_segmentPath (t : Table) (minTime : ℤ) (now seq : ℕ) :
    dayOfPath (segmentPath t minTime now seq) = utcDateString minTime := by
  rw [dayOfPath, splitOn_segmentPath]
  rfl

theorem fileName_inj {now now' seq seq' : ℕ} (h : fileName now seq = fileName now' seq') : seq = seq' := by
  have hnow : '-' ∉ padded 20 now := not_mem_padded rfl 20 now
  have hrest : '-' ∉ padded 6 seq ++ ".parquet".toList := by
    rw [List.mem_append, not_or]
    exact ⟨not_mem_padded rfl 6 seq, by decide⟩
  unfold fileName at h
  rw [List.append_assoc, List.append_assoc, List.cons_append, List.cons_append,
    List.append_cons_inj_of_notMem hnow hrest] at h
  have hseq : padded 6 seq = padded 6 seq' := List.append_cancel_right h.2.2
  rw [← ofDigitChars_padded 6 seq, hseq, ofDigitChars_padded]

/-- A path determines the table and the counter. -/
theorem segmentPath_inj {t t' : Table} {minTime minTime' : ℤ} {now now' seq seq' : ℕ}
    (h : segmentPath t minTime now seq = segmentPath t' minTime' now' seq') : t = t' ∧ seq = seq' := by
  have hsplit := congrArg (List.splitOn '/') h
  rw [splitOn_segmentPath, splitOn_segmentPath] at hsplit
  obtain ⟨htable, hrest⟩ := List.cons.inj hsplit
  refine ⟨tableName_inj htable, ?_⟩
  rw [segmentPath, segmentPath, htable, List.cons.inj hrest |>.1] at h
  have hname := List.append_cancel_left h
  exact fileName_inj (List.append_cancel_left (List.cons.inj hname).2 |> List.cons.inj |>.2)

end Imbh.Segments
