import Imbh.Lib.Split

/-!
# Durations and sizes in the configuration (`config.rs`)

A number, in which underscores are dropped, and a unit. Durations are in nanoseconds. A multiplication that is not
checked panics where it overflows in a build that checks it, and wraps in one that does not.
-/

namespace Imbh.Core

open Lib Option

/-- Why there is no result. -/
inductive Failure
  | config (message : Text)
  | panic
  deriving DecidableEq

/-- The texts between backquotes in a message. -/
def quote (s : Text) : Text := '\x60' :: (s ++ ['\x60'])

/-- Source: `str::to_ascii_lowercase` -/
def lower (s : Text) : Text := s.map Char.toLower

/-- One of the words of an arm of a `match`. -/
def oneOf (s : Text) (words : List String) : Bool := words.any fun w => decide (s = w.toList)

/-- Source: `Duration::from_secs` -/
def fromSecs (n : UInt64) : ℕ := n.toNat * 1000000000

/-- Source: `Duration::from_millis` -/
def fromMillis (n : UInt64) : ℕ := n.toNat * 1000000

/-- Source: `Duration::as_millis` -/
def asMillis (d : ℕ) : ℕ := d / 1000000

/-- `*` of `u64` -/
def mulU64 (overflowChecks : Bool) (a b : UInt64) : Except Failure UInt64 :=
  if overflowChecks ∧ 2 ^ 64 ≤ a.toNat * b.toNat then .error .panic else .ok (a * b)

/-- Source: `u64::checked_mul` -/
def checkedMul (a b : UInt64) : Option UInt64 := if a.toNat * b.toNat < 2 ^ 64 then some (a * b) else none

/-- The digits, without underscores, and the unit behind them.
Source: `config.rs` `split_unit` -/
def splitUnit (s : Text) : Text × Text :=
  ((s.takeWhile fun c => c.isDigit || c = '_').filter (· ≠ '_'), trim (s.dropWhile fun c => c.isDigit || c = '_'))

section

variable (overflowChecks : Bool)

/-- Source: `config.rs` `parse_duration` -/
def parseDuration (s : Text) : Except Failure ℕ :=
  let s := trim s
  let (digits, unit) := splitUnit s
  match parseU64 digits with
  | none => .error (.config (quote s ++ " is not a duration (expected e.g. 500ms, 5s, 2m, 1h)".toList))
  | some n =>
      let unit := lower unit
      if oneOf unit ["", "s", "sec", "secs"] then .ok (fromSecs n)
      else if oneOf unit ["ms"] then .ok (fromMillis n)
      else if oneOf unit ["m", "min", "mins"] then (mulU64 overflowChecks n 60).map fromSecs
      else if oneOf unit ["h", "hr", "hrs"] then (mulU64 overflowChecks n 3600).map fromSecs
      else .error (.config (quote s ++ " has an unknown duration unit ".toList ++ quote unit ++
        " (expected ms, s, m or h)".toList))

end

/-- Source: `config.rs` `parse_bytes`, `scale` -/
def byteScale (unit : Text) : Option UInt64 :=
  if oneOf unit ["", "b"] then some 1
  else if oneOf unit ["k", "kib"] then some 1024
  else if oneOf unit ["m", "mib"] then some 1048576
  else if oneOf unit ["g", "gib"] then some 1073741824
  else if oneOf unit ["kb"] then some 1000
  else if oneOf unit ["mb"] then some 1000000
  else if oneOf unit ["gb"] then some 1000000000
  else none

/-- Source: `config.rs` `parse_bytes` -/
def parseBytes (s : Text) : Except Failure UInt64 :=
  let s := trim s
  let (digits, unit) := splitUnit s
  match parseU64 digits with
  | none => .error (.config (quote s ++ " is not a byte size (expected e.g. 8388608, 16MiB, 1GB)".toList))
  | some n =>
      match byteScale (lower unit) with
      | none => .error (.config (quote s ++ " has an unknown size unit ".toList ++ quote (lower unit) ++
          " (expected KiB, MiB, GiB, KB, MB or GB)".toList))
      | some scale =>
          match checkedMul n scale with
          | some n => .ok n
          | none => .error (.config (quote s ++ " overflows a byte count".toList))

/-- Source: `config.rs` `parse_count` -/
def parseCount (s : Text) : Except Failure UInt64 :=
  match parseU64 (trim (s.filter (· ≠ '_'))) with
  | some n => .ok n
  | none => .error (.config (quote s ++ " is not a row count".toList))

/-- A duration in the coarsest unit that is exact.
Source: `config.rs` `impl Display for DurationSpec` -/
def durationSpec (d : ℕ) : Text :=
  let ms := asMillis d
  if ms = 0 then "0s".toList
  else if ms % 3600000 = 0 then decimal (ms / 3600000) ++ ['h']
  else if ms % 60000 = 0 then decimal (ms / 60000) ++ ['m']
  else if ms % 1000 = 0 then decimal (ms / 1000) ++ ['s']
  else decimal ms ++ "ms".toList

/-! ## What is meant -/

/-- The nanoseconds of a unit. -/
def durationUnit (unit : Text) : Option ℕ :=
  if oneOf unit ["", "s", "sec", "secs"] then some 1000000000
  else if oneOf unit ["ms"] then some 1000000
  else if oneOf unit ["m", "min", "mins"] then some 60000000000
  else if oneOf unit ["h", "hr", "hrs"] then some 3600000000000
  else none

/-- The number of a literal times its unit, of which there is no bound. -/
def literal (scale : Text → Option ℕ) (s : Text) : Option ℕ :=
  let (digits, unit) := splitUnit (trim s)
  (parseDigits digits).bind fun n => (scale (lower unit)).map (n * ·)

/-- The result is the value that is meant, or an error of the configuration. -/
def Exact {α : Type} (result : Except Failure α) (meaning : Option α) : Prop :=
  match result with
  | .ok value => meaning = some value
  | .error (.config _) => True
  | .error .panic => False

/-- The number of seconds in a number of minutes or hours is one of a `u64`. -/
def DurationFits (s : Text) : Prop :=
  ∀ n scale, parseU64 (splitUnit (trim s)).1 = some n → durationUnit (lower (splitUnit (trim s)).2) = some scale →
    n.toNat * scale < 2 ^ 64 * 1000000000

/-! ## A number and a unit -/

/-- A letter of a unit. -/
def isUnitLetter (c : Char) : Bool := !(c.isDigit || c = '_') && !isWhitespace c

section

variable {unit : Text}

theorem getLast?_append_unit (hunit : ∀ c ∈ unit, isUnitLetter c = true) {s : Text} :
    (∀ x ∈ s.getLast?, isWhitespace x = false) → ∀ x ∈ (s ++ unit).getLast?, isWhitespace x = false := by
  intro hs x hx
  rw [List.getLast?_append] at hx
  rcases hlast : unit.getLast? with _ | y
  · rw [hlast] at hx
    exact hs x hx
  · rw [hlast] at hx
    obtain rfl : y = x := by simpa using hx
    have hy := hunit y (List.mem_of_getLast? hlast)
    unfold isUnitLetter at hy
    simpa using (Bool.and_eq_true_iff.mp hy).2

theorem not_whitespace_decimal (n : ℕ) : ∀ x ∈ decimal n, isWhitespace x = false := fun _ hx =>
  not_isWhitespace_of_isDigit (isDigit_of_mem_decimal hx)

theorem trim_literal (hunit : ∀ c ∈ unit, isUnitLetter c = true) (n : ℕ) : trim (decimal n ++ unit) = decimal n ++ unit := by
  apply trim_eq_self
  · intro x hx
    obtain ⟨c, rest, hd, -⟩ := decimal_cases n
    rw [hd] at hx
    obtain rfl : c = x := by simpa using hx
    exact not_whitespace_decimal n c (hd ▸ List.mem_cons_self)
  · exact getLast?_append_unit hunit fun x hx => not_whitespace_decimal n x (List.mem_of_getLast? hx)

/-- A literal is split into its digits and its unit. -/
theorem splitUnit_literal (hunit : ∀ c ∈ unit, isUnitLetter c = true) (n : ℕ) :
    splitUnit (decimal n ++ unit) = (decimal n, unit) := by
  have hletter (c : Char) (hc : c ∈ unit) : (c.isDigit || decide (c = '_')) = false ∧ isWhitespace c = false := by
    simpa [isUnitLetter] using hunit c hc
  obtain ⟨htake, hdrop⟩ := @takeWhile_append_stop (fun c => c.isDigit || c = '_') (decimal n) unit
    (fun c hc => by simp [isDigit_of_mem_decimal hc]) fun c hc => (hletter c (List.mem_of_mem_head? hc)).1
  have hkeep : (decimal n).filter (· ≠ '_') = decimal n := by
    rw [List.filter_eq_self]
    intro c hc
    have hdigit := isDigit_of_mem_decimal hc
    rw [decide_eq_true_eq]
    rintro rfl
    exact absurd hdigit (by simp)
  have htrim : trim unit = unit := trim_eq_self (fun c hc => (hletter c (List.mem_of_mem_head? hc)).2)
    fun c hc => (hletter c (List.mem_of_getLast? hc)).2
  unfold splitUnit
  rw [htake, hdrop, hkeep, htrim]

/-- The digits of a literal have no sign. -/
theorem parseDigits_of_parseU64 {s : Text} {n : UInt64} (h : parseU64 (splitUnit s).1 = some n) :
    parseDigits (splitUnit s).1 = some n.toNat := by
  have hdigit : ∀ c ∈ (splitUnit s).1, c.isDigit = true := by
    intro c hc
    obtain ⟨hmem, hne⟩ := List.mem_filter.mp hc
    have hhead : (c.isDigit || decide (c = '_')) = true := List.mem_takeWhile_imp (p := fun c => c.isDigit || c = '_') hmem
    simp only [decide_eq_true_eq] at hne
    simpa [hne] using hhead
  unfold parseU64 at h
  split at h
  · rename_i rest heq
    exact absurd (hdigit '+' (heq ▸ List.mem_cons_self)) (by simp)
  · obtain ⟨m, hm, hn⟩ := bind_eq_some_iff.mp h
    split at hn
    · rename_i hlt
      cases hn
      rw [hm, UInt64.toNat_ofNat', Nat.mod_eq_of_lt hlt]
    · cases hn

theorem parseU64_decimal {n : ℕ} (h : n < 2 ^ 64) : parseU64 (decimal n) = some (UInt64.ofNat n) := by
  have hn : (UInt64.ofNat n).toNat = n := by
    rw [UInt64.toNat_ofNat', Nat.mod_eq_of_lt h]
  have hread := parseU64_textU64 (UInt64.ofNat n)
  rwa [textU64, hn] at hread

end

/-! ## Exact results -/

section

variable {overflowChecks : Bool}

theorem mulU64_of_fits {a b : UInt64} (h : a.toNat * b.toNat < 2 ^ 64) : mulU64 overflowChecks a b = .ok (a * b) :=
  if_neg fun hover => absurd hover.2 (Nat.not_le_of_lt h)

/-- A multiplication is exact exactly if the product is a number of a `u64`. -/
theorem exact_mulU64 (a b : UInt64) {scale : ℕ} (hscale : scale = b.toNat * 1000000000) :
    Exact ((mulU64 overflowChecks a b).map fromSecs) (some (a.toNat * scale)) ↔
      a.toNat * scale < 2 ^ 64 * 1000000000 := by
  have hfits : a.toNat * scale < 2 ^ 64 * 1000000000 ↔ a.toNat * b.toNat < 2 ^ 64 := by
    rw [hscale, ← Nat.mul_assoc]
    omega
  rw [hfits, hscale, ← Nat.mul_assoc]
  by_cases hproduct : a.toNat * b.toNat < 2 ^ 64
  · rw [mulU64_of_fits hproduct]
    refine iff_of_true ?_ hproduct
    show some _ = some (fromSecs (a * b))
    rw [fromSecs, UInt64.toNat_mul, Nat.mod_eq_of_lt hproduct]
  · refine iff_of_false (fun hexact => hproduct ?_) hproduct
    unfold mulU64 at hexact
    split at hexact
    · exact hexact.elim
    · -- the product wraps
      have heq : a.toNat * b.toNat * 1000000000 = fromSecs (a * b) := some.inj hexact
      rw [fromSecs, UInt64.toNat_mul] at heq
      have hlt := Nat.mod_lt (a.toNat * b.toNat) (show 0 < 2 ^ 64 by simp)
      omega

/-- A duration is read as what it says, if and only if that fits. -/
theorem parseDuration_exact_iff (s : Text) :
    Exact (parseDuration overflowChecks s) (literal durationUnit s) ↔ DurationFits s := by
  unfold parseDuration literal DurationFits
  dsimp only
  rcases hn : parseU64 (splitUnit (trim s)).1 with _ | n
  · simp [Exact]
  · have hlt := n.toNat_lt
    simp only [parseDigits_of_parseU64 hn, bind_some, some.injEq, forall_eq', forall_comm (α := UInt64)]
    unfold durationUnit
    split
    · simp [Exact, fromSecs]
      omega
    split
    · simp [Exact, fromMillis]
      omega
    split
    · simpa using exact_mulU64 n 60 rfl
    split
    · simpa using exact_mulU64 n 3600 rfl
    · simp [Exact]

/-- A size is read as what it says, wherever it is read. -/
theorem parseBytes_exact (s : Text) :
    Exact ((parseBytes s).map UInt64.toNat) (literal (fun unit => (byteScale unit).map UInt64.toNat) s) := by
  unfold parseBytes literal
  dsimp only
  rcases hn : parseU64 (splitUnit (trim s)).1 with _ | n
  · trivial
  · have hdigits := parseDigits_of_parseU64 hn
    rcases hscale : byteScale (lower (splitUnit (trim s)).2) with _ | scale
    · trivial
    · dsimp only
      rw [hdigits]
      unfold checkedMul
      split
      · rename_i product hproduct
        split at hproduct
        · rename_i hfits
          cases hproduct
          show some _ = some (n * scale).toNat
          rw [UInt64.toNat_mul, Nat.mod_eq_of_lt hfits]
        · cases hproduct
      · trivial

end

/-! ## Durations of whole milliseconds -/

/-- A duration that a literal can have. -/
def Spelt (d : ℕ) : Prop := ∃ n : UInt64, d = fromSecs n ∨ d = fromMillis n

section

variable {overflowChecks : Bool}

theorem map_eq_ok {α β ε : Type} {r : Except ε α} {f : α → β} {b : β} : r.map f = .ok b ↔ ∃ a, r = .ok a ∧ f a = b := by
  cases r <;> simp [Except.map]

/-- A duration that is read can be spelt. -/
theorem spelt_of_parseDuration {s : Text} {d : ℕ} (h : parseDuration overflowChecks s = .ok d) : Spelt d := by
  have hmap {r : Except Failure UInt64} (hr : r.map fromSecs = .ok d) : Spelt d := by
    obtain ⟨n, -, rfl⟩ := map_eq_ok.mp hr
    exact ⟨n, .inl rfl⟩
  unfold parseDuration at h
  dsimp only at h
  split at h
  · cases h
  · rename_i n _
    split at h
    · cases h
      exact ⟨n, .inl rfl⟩
    split at h
    · cases h
      exact ⟨n, .inr rfl⟩
    split at h
    · exact hmap h
    split at h
    · exact hmap h
    · cases h

/-- A number and a unit of which the value fits. -/
theorem parseDuration_literal {unit : Text} (hunit : ∀ c ∈ unit, isUnitLetter c = true) {n scale : ℕ} (hn : n < 2 ^ 64)
    (hscale : durationUnit (lower unit) = some scale) (hfits : n * scale < 2 ^ 64 * 1000000000) :
    parseDuration overflowChecks (decimal n ++ unit) = .ok (n * scale) := by
  have hto : (UInt64.ofNat n).toNat = n := by
    rw [UInt64.toNat_ofNat', Nat.mod_eq_of_lt hn]
  have hmul (k : UInt64) (hk : scale = k.toNat * 1000000000) :
      (mulU64 overflowChecks (UInt64.ofNat n) k).map fromSecs = .ok (n * scale) := by
    have hproduct : n * k.toNat < 2 ^ 64 := by
      rw [hk, ← Nat.mul_assoc] at hfits
      omega
    rw [mulU64_of_fits (by rwa [hto])]
    show Except.ok (fromSecs _) = _
    rw [fromSecs, UInt64.toNat_mul, hto, Nat.mod_eq_of_lt hproduct, hk, Nat.mul_assoc]
  unfold parseDuration
  dsimp only
  rw [trim_literal hunit, splitUnit_literal hunit]
  dsimp only
  rw [parseU64_decimal hn]
  dsimp only
  unfold durationUnit at hscale
  split at hscale
  · rename_i hseconds
    cases hscale
    rw [if_pos hseconds, fromSecs, hto]
  rename_i hseconds
  rw [if_neg hseconds]
  split at hscale
  · rename_i hmillis
    cases hscale
    rw [if_pos hmillis, fromMillis, hto]
  rename_i hmillis
  rw [if_neg hmillis]
  split at hscale
  · rename_i hminutes
    rw [if_pos hminutes]
    exact hmul 60 (some.inj hscale).symm
  rename_i hminutes
  rw [if_neg hminutes]
  split at hscale
  · rename_i hhours
    rw [if_pos hhours]
    exact hmul 3600 (some.inj hscale).symm
  · cases hscale

/-- A duration is read back as it is written. -/
theorem parseDuration_durationSpec {d : ℕ} (h : Spelt d) : parseDuration overflowChecks (durationSpec d) = .ok d := by
  obtain ⟨n, h⟩ := h
  have hlt := n.toNat_lt
  -- a number of milliseconds, and its size unless it is one of seconds
  obtain ⟨ms, rfl, hms⟩ : ∃ ms, d = ms * 1000000 ∧ (ms < 2 ^ 64 ∨ ms % 1000 = 0 ∧ ms / 1000 < 2 ^ 64) := by
    rcases h with rfl | rfl
    · refine ⟨n.toNat * 1000, by rw [fromSecs]; omega, .inr ?_⟩
      omega
    · exact ⟨n.toNat, rfl, .inl hlt⟩
  have hmillis : asMillis (ms * 1000000) = ms := Nat.mul_div_cancel ms (by simp)
  have hread {unit : Text} (hunit : ∀ c ∈ unit, isUnitLetter c = true) {k scale : ℕ} (hk : k < 2 ^ 64)
      (hscale : durationUnit (lower unit) = some scale) (hvalue : k * scale = ms * 1000000)
      (hfits : k * scale < 2 ^ 64 * 1000000000) :
      parseDuration overflowChecks (decimal k ++ unit) = .ok (ms * 1000000) := by
    rw [parseDuration_literal hunit hk hscale hfits, hvalue]
  unfold durationSpec
  dsimp only
  rw [hmillis]
  split
  · rename_i hzero
    rw [hzero]
    exact @parseDuration_literal overflowChecks ['s'] (by simp [isUnitLetter, isWhitespace]) 0 1000000000 (by simp) rfl
      (by simp)
  split
  · exact hread (by simp [isUnitLetter, isWhitespace]) (by omega) rfl (by omega) (by omega)
  split
  · exact hread (by simp [isUnitLetter, isWhitespace]) (by omega) rfl (by omega) (by omega)
  split
  · exact hread (by simp [isUnitLetter, isWhitespace]) (by omega) rfl (by omega) (by omega)
  · exact hread (by simp [isUnitLetter, isWhitespace]) (by omega) rfl (by omega) (by omega)

end

end Imbh.Core
