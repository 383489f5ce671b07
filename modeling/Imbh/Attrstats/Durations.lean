import Imbh.Core.Literals
import Imbh.Lib.Checked

/-!
# Windows of the attribute statistics

A duration is a number and one letter; it is an `i64` of nanoseconds.

* `literals_exact` — where the literals of the configuration and of the statistics are exact.
-/

namespace Imbh.Attrstats

open Lib Option
open Imbh.Core (Failure Exact)

/-- Source: `imbh-attrstats` `NANOS_PER_SEC` -/
def nanosPerSec : Int64 := 1000000000

/-- `*` of `i64` -/
def mulI64 (overflowChecks : Bool) (a b : Int64) : Except Failure Int64 :=
  if overflowChecks ∧ ¬InI64 (a.toInt * b.toInt) then .error .panic else .ok (a * b)

/-- The number and the seconds of its unit.
Source: `imbh-attrstats` `parse_duration`, the `match` -/
def splitDuration (s : Text) : Text × Int64 :=
  match s.getLast? with
  | some 's' => (s.dropLast, 1)
  | some 'm' => (s.dropLast, 60)
  | some 'h' => (s.dropLast, 3600)
  | some 'd' => (s.dropLast, 86400)
  | _ => (s, 1)

section

-- How a text is written in a message, and the build.
variable (quoted : Text → Text) (overflowChecks : Bool)

/-- Source: `imbh-attrstats` `parse_duration` -/
def parseDuration (s : Text) : Except Failure Int64 :=
  let s := trim s
  let (digits, mult) := splitDuration s
  match parseI64 digits with
  | none => .error (.config ("bad duration ".toList ++ quoted s ++ " — expected e.g. 30s, 5m, 1h, 7d".toList))
  | some n =>
      if n.toInt ≤ 0 then .error (.config ("duration ".toList ++ quoted s ++ " must be positive".toList))
      else do mulI64 overflowChecks (← mulI64 overflowChecks n mult) nanosPerSec

end

/-- A number with a sign, of which there is no bound. -/
def parseInteger (s : Text) : Option ℤ :=
  match s with
  | '-' :: rest => (parseDigits rest).map fun n : ℕ => -(n : ℤ)
  | '+' :: rest => (parseDigits rest).map Int.ofNat
  | _ => (parseDigits s).map Int.ofNat

/-- The nanoseconds that are meant, of which there is no bound. -/
def windowLiteral (s : Text) : Option ℤ :=
  (parseInteger (splitDuration (trim s)).1).map fun n => n * (splitDuration (trim s)).2.toInt * 1000000000

/-- The nanoseconds of a number above zero are a number of an `i64`. -/
def WindowFits (s : Text) : Prop :=
  ∀ n, parseI64 (splitDuration (trim s)).1 = some n → 0 < n.toInt →
    n.toInt * (splitDuration (trim s)).2.toInt * 1000000000 < 2 ^ 63

theorem parseInteger_of_parseI64 {s : Text} {n : Int64} (h : parseI64 s = some n) : parseInteger s = some n.toInt := by
  have hpos {digits : Text} (hdigits : ((parseDigits digits).bind fun m =>
      if m < 2 ^ 63 then some (Int64.ofInt m) else none) = some n) :
      (parseDigits digits).map Int.ofNat = some n.toInt := by
    obtain ⟨m, hm, hn⟩ := bind_eq_some_iff.mp hdigits
    split at hn
    · cases hn
      rw [hm, map_some, Int64.toInt_ofInt_of_le (by omega) (by omega)]
      rfl
    · cases hn
  unfold parseI64 at h
  split at h
  · obtain ⟨m, hm, hn⟩ := bind_eq_some_iff.mp h
    split at hn
    · cases hn
      show (parseDigits _).map _ = _
      rw [hm, map_some, Int64.toInt_ofInt_of_le (by omega) (by omega)]
    · cases hn
  · exact hpos h
  · rename_i hminus hplus
    unfold parseInteger
    split
    · exact absurd rfl (hminus _)
    · exact absurd rfl (hplus _)
    · exact hpos h

theorem splitDuration_pos (s : Text) : 0 < (splitDuration s).2.toInt := by
  unfold splitDuration
  split <;> simp

section

variable {overflowChecks : Bool}

/-- A product of numbers that are not negative. -/
theorem mulI64_nonneg {a b : Int64} (ha : 0 ≤ a.toInt) (hb : 0 ≤ b.toInt) (h : a.toInt * b.toInt < 2 ^ 63) :
    mulI64 overflowChecks a b = .ok (a * b) ∧ (a * b).toInt = a.toInt * b.toInt := by
  have hnonneg := Int.mul_nonneg ha hb
  have hin : InI64 (a.toInt * b.toInt) := inI64_iff.mpr ⟨by omega, by omega⟩
  refine ⟨if_neg fun hover => hover.2 hin, ?_⟩
  rw [Int64.toInt_mul]
  exact Int.bmod_eq_of_le (by omega) (by omega)

/-- A result of two multiplications is exact exactly if the product is a number of an `i64`. -/
theorem exact_mulI64 {n mult : Int64} (hn : 0 < n.toInt) (hmult : 0 < mult.toInt) :
    Exact ((do mulI64 overflowChecks (← mulI64 overflowChecks n mult) nanosPerSec).map Int64.toInt)
      (some (n.toInt * mult.toInt * 1000000000)) ↔ n.toInt * mult.toInt * 1000000000 < 2 ^ 63 := by
  have hsecs : 0 < n.toInt * mult.toInt := Int.mul_pos hn hmult
  have hnanos : nanosPerSec.toInt = 1000000000 := by decide
  have hsmall : n.toInt * mult.toInt < 2 ^ 63 → mulI64 overflowChecks n mult = .ok (n * mult) ∧
      (n * mult).toInt = n.toInt * mult.toInt := mulI64_nonneg hn.le hmult.le
  by_cases hfits : n.toInt * mult.toInt * 1000000000 < 2 ^ 63
  · obtain ⟨hfirst, hvalue⟩ := hsmall (by omega)
    obtain ⟨hsecond, hresult⟩ := @mulI64_nonneg overflowChecks (n * mult) nanosPerSec (by omega) (by omega)
      (by rw [hvalue, hnanos]; exact hfits)
    refine iff_of_true ?_ hfits
    rw [hfirst]
    show Exact ((mulI64 overflowChecks (n * mult) nanosPerSec).map Int64.toInt) _
    rw [hsecond]
    show some _ = some (n * mult * nanosPerSec).toInt
    rw [hresult, hvalue, hnanos]
  · refine iff_of_false (fun hexact => hfits ?_) hfits
    cases overflowChecks
    · -- the product wraps
      have hwrap : some (n.toInt * mult.toInt * 1000000000) = some (n * mult * nanosPerSec).toInt := hexact
      rw [some.inj hwrap]
      exact Int64.toInt_lt _
    · by_cases hp : n.toInt * mult.toInt < 2 ^ 63
      · obtain ⟨hfirst, hvalue⟩ := hsmall hp
        have hover : ¬InI64 ((n * mult).toInt * nanosPerSec.toInt) := by
          rw [hvalue, hnanos, inI64_iff]
          omega
        rw [hfirst] at hexact
        have hsecond : mulI64 true (n * mult) nanosPerSec = .error .panic := if_pos ⟨rfl, hover⟩
        change Exact ((mulI64 true (n * mult) nanosPerSec).map Int64.toInt) _ at hexact
        rw [hsecond] at hexact
        exact hexact.elim
      · have hover : ¬InI64 (n.toInt * mult.toInt) := by
          rw [inI64_iff]
          omega
        have hfirst : mulI64 true n mult = .error .panic := if_pos ⟨rfl, hover⟩
        rw [hfirst] at hexact
        exact hexact.elim

/-- A window is read as what it says, if and only if that fits. -/
theorem parseDuration_exact_iff (quoted : Text → Text) (s : Text) :
    Exact ((parseDuration quoted overflowChecks s).map Int64.toInt) (windowLiteral s) ↔ WindowFits s := by
  unfold parseDuration windowLiteral WindowFits
  dsimp only
  rcases hn : parseI64 (splitDuration (trim s)).1 with _ | n
  · simp [Exact, Except.map]
  · simp only [parseInteger_of_parseI64 hn, map_some, some.injEq, forall_eq']
    split
    · rename_i hle
      simp [Exact, Except.map, Int.not_lt.mpr hle]
    · rename_i hpos
      rw [exact_mulI64 (by omega) (splitDuration_pos _)]
      simp [Int.not_le.mp hpos]

end

/-- A duration of the configuration is exact, or an error, exactly if its seconds are a number of a `u64`; a size
always is; and a window of the statistics exactly if its nanoseconds are a number of an `i64`. -/
theorem literals_exact (quoted : Text → Text) (overflowChecks : Bool) (s : Text) :
    (Exact (Core.parseDuration overflowChecks s) (Core.literal Core.durationUnit s) ↔ Core.DurationFits s) ∧
    Exact ((Core.parseBytes s).map UInt64.toNat) (Core.literal (fun unit => (Core.byteScale unit).map UInt64.toNat) s) ∧
    (Exact ((parseDuration quoted overflowChecks s).map Int64.toInt) (windowLiteral s) ↔ WindowFits s) :=
  ⟨Core.parseDuration_exact_iff s, Core.parseBytes_exact s, parseDuration_exact_iff quoted s⟩

/-- Minutes beyond the seconds of a `u64`, and seconds beyond the nanoseconds of an `i64`: a build with overflow checks
panics, and one without gives another value than the one that is meant. -/
theorem literals_overflow :
    Core.parseDuration true "307445734561825861m".toList = .error .panic ∧
    Core.parseDuration false "307445734561825861m".toList = .ok 44000000000 ∧
    Core.literal Core.durationUnit "307445734561825861m".toList = some 18446744073709551660000000000 ∧
    parseDuration id true "9223372037s".toList = .error .panic ∧
    parseDuration id false "9223372037s".toList = .ok (-9223372036709551616) ∧
    windowLiteral "9223372037s".toList = some 9223372037000000000 := by
  decide

end Imbh.Attrstats
