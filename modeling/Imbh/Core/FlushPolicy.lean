import Imbh.Core.Literals
import Imbh.Lib.Checked

/-!
# Flush policies (`config.rs`)

When the scheduler seals the buffer, and the text of it: fields of a key and a value with commas between them, or one
word for the policy that never seals.

* `fromStr_display_iff` — the policies that are read back as they are written.
-/

namespace Imbh.Core

open Lib List Option

/-- Source: `config.rs` `FlushSize` -/
inductive FlushSize
  | budget
  | bytes (n : UInt64)
  | off
  deriving DecidableEq

/-- Durations are in nanoseconds, and a `usize` has 64 bits.
Source: `config.rs` `FlushPolicy` -/
structure FlushPolicy where
  size : FlushSize
  interval : Option ℕ
  rows : Option UInt64
  walBytes : Option UInt64
  idle : Option ℕ
  tick : ℕ
  deriving DecidableEq

namespace FlushPolicy

/-- Source: `FlushPolicy::DEFAULT_TICK` -/
def defaultTick : ℕ := fromSecs 1

/-- Source: `FlushPolicy::MIN_TICK` -/
def minTick : ℕ := fromMillis 5

/-- Source: `FlushPolicy::MAX_TICK` -/
def maxTick : ℕ := fromSecs 60

/-- Source: `FlushPolicy::manual` -/
def manual : FlushPolicy := ⟨.off, none, none, none, none, defaultTick⟩

/-- Source: `impl Default for FlushPolicy` -/
def default : FlushPolicy := ⟨.budget, none, none, none, none, defaultTick⟩

section

variable (policy : FlushPolicy)

/-- Source: `FlushPolicy::every` -/
def every (d : ℕ) : FlushPolicy := { policy with interval := some d }

/-- Source: `FlushPolicy::size` -/
def setSize (size : FlushSize) : FlushPolicy := { policy with size := size }

/-- Source: `FlushPolicy::at_buffer_rows` -/
def atBufferRows (rows : UInt64) : FlushPolicy := { policy with rows := some rows }

/-- Source: `FlushPolicy::at_wal_bytes` -/
def atWalBytes (bytes : UInt64) : FlushPolicy := { policy with walBytes := some bytes }

/-- Source: `FlushPolicy::after_idle` -/
def afterIdle (d : ℕ) : FlushPolicy := { policy with idle := some d }

/-- Source: `FlushPolicy::tick` -/
def setTick (d : ℕ) : FlushPolicy := { policy with tick := min (max d minTick) maxTick }

/-- Source: `FlushPolicy::is_manual` -/
def isManual : Bool :=
  decide (policy.size = .off) && policy.interval.isNone && policy.rows.isNone && policy.walBytes.isNone &&
    policy.idle.isNone

end

/-! ## Reading -/

section

variable (overflowChecks : Bool)

/-- Source: `impl FromStr for FlushPolicy`, the `match` -/
def setField (policy : FlushPolicy) (key value : Text) : Except Failure FlushPolicy :=
  if oneOf key ["interval", "every"] then (parseDuration overflowChecks value).map policy.every
  else if oneOf key ["buffer", "bytes"] then
    if oneOf (lower value) ["budget", "default"] then .ok (policy.setSize .budget)
    else if oneOf (lower value) ["off", "none"] then .ok (policy.setSize .off)
    else (parseBytes value).map fun n => policy.setSize (.bytes n)
  else if oneOf key ["rows"] then (parseCount value).map policy.atBufferRows
  else if oneOf key ["wal"] then (parseBytes value).map policy.atWalBytes
  else if oneOf key ["idle"] then (parseDuration overflowChecks value).map policy.afterIdle
  else if oneOf key ["tick"] then (parseDuration overflowChecks value).map policy.setTick
  else .error (.config ("flush policy: unknown key ".toList ++ quote key ++
    " (expected interval/buffer/rows/wal/idle/tick)".toList))

/-- Source: `impl FromStr for FlushPolicy`, the body of the `for` -/
def readField (policy : FlushPolicy) (field : Text) : Except Failure FlushPolicy :=
  let field := trim field
  if field = [] then .ok policy
  else
    match splitAtChar (· = '=') field with
    | none => .error (.config ("flush policy: expected \x60key=value\x60 in ".toList ++ quote field ++
        " (or the single word \x60manual\x60)".toList))
    | some (key, value) => policy.setField overflowChecks (lower (trim key)) (trim value)

/-- Source: `impl FromStr for FlushPolicy` -/
def fromStr (s : Text) : Except Failure FlushPolicy :=
  let spec := trim s
  if spec = [] then .ok default
  else if oneOf (lower spec) ["manual", "off", "none", "never"] then .ok manual
  else (spec.splitOn ',').foldlM (readField overflowChecks) default

end

/-! ## Writing -/

/-- Source: `impl Display for FlushPolicy`, the `match` -/
def sizeText : FlushSize → Text
  | .budget => "budget".toList
  | .bytes n => textU64 n
  | .off => "off".toList

theorem sizeText_bytes (n : UInt64) : sizeText (.bytes n) = textU64 n := rfl

/-- The keys and the values that are written.
Source: `impl Display for FlushPolicy` -/
def fieldTexts (policy : FlushPolicy) : List (Text × Text) :=
  (policy.interval.map fun d => ("interval".toList, durationSpec d)).toList ++
    ("buffer".toList, sizeText policy.size) ::
    ((policy.rows.map fun n => ("rows".toList, textU64 n)).toList ++
      ((policy.walBytes.map fun n => ("wal".toList, textU64 n)).toList ++
        ((policy.idle.map fun d => ("idle".toList, durationSpec d)).toList ++
          [("tick".toList, durationSpec policy.tick)])))

/-- A field. -/
def fieldText (field : Text × Text) : Text := field.1 ++ '=' :: field.2

/-- Source: `impl Display for FlushPolicy` -/
def display (policy : FlushPolicy) : Text :=
  if policy.isManual then "manual".toList else [','].intercalate (policy.fieldTexts.map fieldText)

/-! ## What a text can say -/

/-- The durations are ones that a literal can have, and the tick is in its range. -/
structure Spelt (policy : FlushPolicy) : Prop where
  interval : ∀ d ∈ policy.interval, Core.Spelt d
  idle : ∀ d ∈ policy.idle, Core.Spelt d
  tick : Core.Spelt policy.tick
  tick_ge : minTick ≤ policy.tick
  tick_le : policy.tick ≤ maxTick

section

variable {overflowChecks : Bool} {policy policy' : FlushPolicy}

theorem spelt_default : default.Spelt where
  interval := by simp [default]
  idle := by simp [default]
  tick := ⟨1, .inl rfl⟩
  tick_ge := by decide
  tick_le := by decide

/-- A tick that can be spelt keeps the policy one that can be. -/
theorem Spelt.setTick (h : policy.Spelt) {d : ℕ} (hd : Core.Spelt d) : (policy.setTick d).Spelt where
  interval := h.interval
  idle := h.idle
  tick := by
    show Core.Spelt (min (max d minTick) maxTick)
    rcases min_choice (max d minTick) maxTick with heq | heq
    · rw [heq]
      rcases max_choice d minTick with heq | heq
      · rwa [heq]
      · rw [heq]
        exact ⟨5, .inr rfl⟩
    · rw [heq]
      exact ⟨60, .inl rfl⟩
  tick_ge := le_min (le_max_right _ _) (by decide)
  tick_le := min_le_right _ _

/-- A field that is read keeps it. -/
theorem Spelt.setField (h : policy.Spelt) {key value : Text}
    (hset : policy.setField overflowChecks key value = .ok policy') : policy'.Spelt := by
  have hsize (size : FlushSize) : (policy.setSize size).Spelt := ⟨h.interval, h.idle, h.tick, h.tick_ge, h.tick_le⟩
  unfold FlushPolicy.setField at hset
  split at hset
  · obtain ⟨d, hd, rfl⟩ := map_eq_ok.mp hset
    refine ⟨fun d' hd' => ?_, h.idle, h.tick, h.tick_ge, h.tick_le⟩
    obtain rfl : d = d' := some.inj hd'
    exact spelt_of_parseDuration hd
  split at hset
  · split at hset
    · cases hset
      exact hsize _
    split at hset
    · cases hset
      exact hsize _
    · obtain ⟨n, -, rfl⟩ := map_eq_ok.mp hset
      exact hsize _
  split at hset
  · obtain ⟨n, -, rfl⟩ := map_eq_ok.mp hset
    exact ⟨h.interval, h.idle, h.tick, h.tick_ge, h.tick_le⟩
  split at hset
  · obtain ⟨n, -, rfl⟩ := map_eq_ok.mp hset
    exact ⟨h.interval, h.idle, h.tick, h.tick_ge, h.tick_le⟩
  split at hset
  · obtain ⟨d, hd, rfl⟩ := map_eq_ok.mp hset
    refine ⟨h.interval, fun d' hd' => ?_, h.tick, h.tick_ge, h.tick_le⟩
    obtain rfl : d = d' := some.inj hd'
    exact spelt_of_parseDuration hd
  split at hset
  · obtain ⟨d, hd, rfl⟩ := map_eq_ok.mp hset
    exact h.setTick (spelt_of_parseDuration hd)
  · cases hset

/-- So does one with its key. -/
theorem Spelt.readField (h : policy.Spelt) {field : Text}
    (hread : policy.readField overflowChecks field = .ok policy') : policy'.Spelt := by
  unfold FlushPolicy.readField at hread
  dsimp only at hread
  split at hread
  · cases hread
    exact h
  split at hread
  · cases hread
  · exact h.setField hread

/-- What is read of any fields can be spelt. -/
theorem Spelt.foldlM (h : policy.Spelt) {fields : List Text}
    (hread : fields.foldlM (FlushPolicy.readField overflowChecks) policy = .ok policy') : policy'.Spelt := by
  induction fields generalizing policy with
  | nil =>
    cases hread
    exact h
  | cons field fields ih =>
    rw [foldlM_cons] at hread
    obtain ⟨next, hnext, hrest⟩ := bind_eq_ok.mp hread
    exact ih (h.readField hnext) hrest

/-- What the text of a policy can say. -/
theorem fromStr_spelt {s : Text} (h : fromStr overflowChecks s = .ok policy) : policy.Spelt := by
  unfold fromStr at h
  dsimp only at h
  split at h
  · cases h
    exact spelt_default
  split at h
  · cases h
    exact ⟨spelt_default.interval, spelt_default.idle, spelt_default.tick, spelt_default.tick_ge, spelt_default.tick_le⟩
  · exact spelt_default.foldlM h

end

/-! ## Fields -/

/-- A field without whitespace and commas, the key of which is in lower case. -/
structure Clean (field : Text × Text) : Prop where
  key : ∀ c ∈ field.1, isWhitespace c = false ∧ c ≠ ',' ∧ c ≠ '=' ∧ c.toLower = c
  value : ∀ c ∈ field.2, isWhitespace c = false ∧ c ≠ ','

theorem trim_of_forall {s : Text} (h : ∀ c ∈ s, isWhitespace c = false) : trim s = s :=
  trim_eq_self (fun c hc => h c (mem_of_mem_head? hc)) fun c hc => h c (mem_of_getLast? hc)

section

variable {overflowChecks : Bool} {field : Text × Text}

theorem Clean.not_whitespace (h : Clean field) : ∀ c ∈ fieldText field, isWhitespace c = false := by
  intro c hc
  rcases mem_append.mp hc with hc | hc
  · exact (h.key c hc).1
  · rcases mem_cons.mp hc with rfl | hc
    · rfl
    · exact (h.value c hc).1

theorem Clean.not_comma (h : Clean field) : ',' ∉ fieldText field := by
  intro hc
  rcases mem_append.mp hc with hc | hc
  · exact (h.key _ hc).2.1 rfl
  · rcases mem_cons.mp hc with heq | hc
    · exact absurd heq (by simp)
    · exact (h.value _ hc).2 rfl

/-- A clean field is split at its own sign. -/
theorem Clean.readField (h : Clean field) (policy : FlushPolicy) :
    policy.readField overflowChecks (fieldText field) = policy.setField overflowChecks field.1 field.2 := by
  have hlower : lower field.1 = field.1 :=
    (map_congr_left fun c hc => (h.key c hc).2.2.2).trans (map_id _)
  have hsplit : splitAtChar (· = '=') (fieldText field) = some (field.1, field.2) :=
    splitAtChar_append (fun c hc => by simpa using (h.key c hc).2.2.1) (by simp)
  unfold FlushPolicy.readField
  dsimp only
  rw [trim_of_forall h.not_whitespace, if_neg (by simp [fieldText]), hsplit]
  dsimp only
  rw [trim_of_forall fun c hc => (h.key c hc).1, trim_of_forall fun c hc => (h.value c hc).1, hlower]

/-- Clean fields are read one after another. -/
theorem foldlM_readField {fields : List (Text × Text)} (h : ∀ field ∈ fields, Clean field) (policy : FlushPolicy) :
    (fields.map fieldText).foldlM (FlushPolicy.readField overflowChecks) policy =
      fields.foldlM (fun policy field => policy.setField overflowChecks field.1 field.2) policy := by
  induction fields generalizing policy with
  | nil => rfl
  | cons field fields ih =>
    rw [map_cons, foldlM_cons, foldlM_cons, (h field mem_cons_self).readField]
    exact congrArg (_ >>= ·) (funext fun next => ih (fun f hf => h f (mem_cons_of_mem _ hf)) next)

end

theorem clean_digits (n : ℕ) : ∀ c ∈ decimal n, isWhitespace c = false ∧ c ≠ ',' := by
  intro c hc
  have hdigit := isDigit_of_mem_decimal hc
  refine ⟨not_isWhitespace_of_isDigit hdigit, ?_⟩
  rintro rfl
  exact absurd hdigit (by simp)

/-- A duration is written without whitespace and commas. -/
theorem clean_durationSpec (d : ℕ) : ∀ c ∈ durationSpec d, isWhitespace c = false ∧ c ≠ ',' := by
  have hunit (n : ℕ) {unit : Text} (hunit : ∀ c ∈ unit, isWhitespace c = false ∧ c ≠ ',') :
      ∀ c ∈ decimal n ++ unit, isWhitespace c = false ∧ c ≠ ',' := fun c hc =>
    (mem_append.mp hc).elim (clean_digits n c) (hunit c)
  unfold durationSpec
  dsimp only
  split
  · simp [isWhitespace]
  split
  · exact hunit _ (by simp [isWhitespace])
  split
  · exact hunit _ (by simp [isWhitespace])
  split
  · exact hunit _ (by simp [isWhitespace])
  · exact hunit _ (by simp [isWhitespace])

theorem clean_sizeText (size : FlushSize) : ∀ c ∈ sizeText size, isWhitespace c = false ∧ c ≠ ',' := by
  have hbudget : ∀ c ∈ "budget".toList, isWhitespace c = false ∧ c ≠ ',' := by simp [isWhitespace]
  have hoff : ∀ c ∈ "off".toList, isWhitespace c = false ∧ c ≠ ',' := by simp [isWhitespace]
  cases size with
  | budget => exact hbudget
  | bytes n => exact clean_digits _
  | off => exact hoff

/-- The fields that a policy writes are clean. -/
theorem clean_fieldTexts (policy : FlushPolicy) : ∀ field ∈ policy.fieldTexts, Clean field := by
  intro field hfield
  have hcases : (∃ d, field = ("interval".toList, durationSpec d)) ∨ field = ("buffer".toList, sizeText policy.size) ∨
      (∃ n, field = ("rows".toList, textU64 n)) ∨ (∃ n, field = ("wal".toList, textU64 n)) ∨
      (∃ d, field = ("idle".toList, durationSpec d)) ∨ field = ("tick".toList, durationSpec policy.tick) := by
    unfold fieldTexts at hfield
    simp only [mem_append, mem_cons, mem_toList, map_eq_some_iff, not_mem_nil,
      or_false] at hfield
    rcases hfield with ⟨d, -, h⟩ | h | ⟨n, -, h⟩ | ⟨n, -, h⟩ | ⟨d, -, h⟩ | h
    · exact .inl ⟨d, h.symm⟩
    · exact .inr (.inl h)
    · exact .inr (.inr (.inl ⟨n, h.symm⟩))
    · exact .inr (.inr (.inr (.inl ⟨n, h.symm⟩)))
    · exact .inr (.inr (.inr (.inr (.inl ⟨d, h.symm⟩))))
    · exact .inr (.inr (.inr (.inr (.inr h))))
  rcases hcases with ⟨d, rfl⟩ | rfl | ⟨n, rfl⟩ | ⟨n, rfl⟩ | ⟨d, rfl⟩ | rfl
  · exact ⟨by simp [isWhitespace], clean_durationSpec d⟩
  · exact ⟨by simp [isWhitespace], clean_sizeText _⟩
  · exact ⟨by simp [isWhitespace], clean_digits _⟩
  · exact ⟨by simp [isWhitespace], clean_digits _⟩
  · exact ⟨by simp [isWhitespace], clean_durationSpec d⟩
  · exact ⟨by simp [isWhitespace], clean_durationSpec _⟩

/-! ## Reading back -/

section

variable {overflowChecks : Bool} {policy : FlushPolicy}

/-- A number of bytes is read back. -/
theorem parseBytes_textU64 (n : UInt64) : parseBytes (textU64 n) = .ok n := by
  have htrim : trim (textU64 n) = textU64 n := trim_of_forall fun c hc => (clean_digits _ c hc).1
  have hsplit : splitUnit (textU64 n) = (textU64 n, []) := by
    have h := @splitUnit_literal [] (by simp) n.toNat
    rwa [append_nil] at h
  have hmul : checkedMul n 1 = some n := by
    rw [checkedMul, if_pos (by simpa using n.toNat_lt), UInt64.mul_one]
  unfold parseBytes
  dsimp only
  rw [htrim, hsplit]
  dsimp only
  rw [parseU64_textU64]
  simp [byteScale, oneOf, lower, hmul]

/-- A count is read back. -/
theorem parseCount_textU64 (n : UInt64) : parseCount (textU64 n) = .ok n := by
  have htrim : trim (textU64 n) = textU64 n := trim_of_forall fun c hc => (clean_digits _ c hc).1
  have hkeep : (textU64 n).filter (· ≠ '_') = textU64 n := by
    rw [filter_eq_self]
    intro c hc
    have hdigit := isDigit_of_mem_decimal hc
    rw [decide_eq_true_eq]
    rintro rfl
    exact absurd hdigit (by simp)
  unfold parseCount
  rw [hkeep, htrim, parseU64_textU64]

theorem Spelt.setTick_self (h : policy.Spelt) (p : FlushPolicy) : p.setTick policy.tick = { p with tick := policy.tick } := by
  unfold FlushPolicy.setTick
  rw [max_eq_left h.tick_ge, min_eq_left h.tick_le]

/-! Each key sets its field. -/

theorem setField_interval (p : FlushPolicy) (v : Text) :
    p.setField overflowChecks "interval".toList v = (parseDuration overflowChecks v).map p.every := by
  unfold FlushPolicy.setField
  rw [if_pos (by decide)]

theorem setField_rows (p : FlushPolicy) (v : Text) :
    p.setField overflowChecks "rows".toList v = (parseCount v).map p.atBufferRows := by
  unfold FlushPolicy.setField
  rw [if_neg (by decide), if_neg (by decide), if_pos (by decide)]

theorem setField_wal (p : FlushPolicy) (v : Text) :
    p.setField overflowChecks "wal".toList v = (parseBytes v).map p.atWalBytes := by
  unfold FlushPolicy.setField
  rw [if_neg (by decide), if_neg (by decide), if_neg (by decide), if_pos (by decide)]

theorem setField_idle (p : FlushPolicy) (v : Text) :
    p.setField overflowChecks "idle".toList v = (parseDuration overflowChecks v).map p.afterIdle := by
  unfold FlushPolicy.setField
  rw [if_neg (by decide), if_neg (by decide), if_neg (by decide), if_neg (by decide), if_pos (by decide)]

theorem setField_tick (p : FlushPolicy) (v : Text) :
    p.setField overflowChecks "tick".toList v = (parseDuration overflowChecks v).map p.setTick := by
  unfold FlushPolicy.setField
  rw [if_neg (by decide), if_neg (by decide), if_neg (by decide), if_neg (by decide), if_neg (by decide),
    if_pos (by decide)]

/-- Digits are not a word. -/
theorem oneOf_digits (n : UInt64) {words : List String}
    (hwords : (words.all fun w => w.toList.all fun c => !c.isDigit) = true) : oneOf (lower (textU64 n)) words = false := by
  obtain ⟨c, rest, hdigits, hc⟩ := decimal_cases n.toNat
  have hlower : c.toLower = c := by
    have hhi : c.toNat ≤ 57 := (Char.isDigit_iff_toNat.mp hc).2
    unfold Char.toLower
    rw [dif_neg]
    rintro ⟨hlo, -⟩
    have hlo : 65 ≤ c.toNat := hlo
    omega
  rw [oneOf, List.any_eq_false]
  intro w hw heq
  have hmem : c ∈ w.toList := by
    rw [← of_decide_eq_true heq, lower, textU64, hdigits, List.map_cons, hlower]
    exact List.mem_cons_self
  have hnot := List.all_eq_true.mp (List.all_eq_true.mp hwords w hw) c hmem
  rw [hc] at hnot
  exact absurd hnot (by simp)

/-- The size that is written for the buffer is read back. -/
theorem setField_buffer (p : FlushPolicy) (size : FlushSize) :
    p.setField overflowChecks "buffer".toList (sizeText size) = .ok (p.setSize size) := by
  unfold FlushPolicy.setField
  rw [if_neg (by decide), if_pos (by decide)]
  cases size with
  | budget => rw [if_pos (by decide)]
  | off => rw [if_neg (by decide), if_pos (by decide)]
  | bytes n =>
    have hword (words : List String) (hwords : (words.all fun w => w.toList.all fun c => !c.isDigit) = true) :
        ¬oneOf (lower (sizeText (.bytes n))) words = true := by
      rw [sizeText_bytes, oneOf_digits n hwords]
      exact Bool.false_ne_true
    rw [if_neg (hword _ (by decide)), if_neg (hword _ (by decide)), sizeText_bytes, parseBytes_textU64]
    rfl

/-- The fields of a policy, read from the default one. -/
theorem foldlM_fieldTexts (h : policy.Spelt) :
    policy.fieldTexts.foldlM (fun p field => p.setField overflowChecks field.1 field.2) default = .ok policy := by
  -- a field that is not written is the one of the default policy
  have hoption {α : Type} (key : Text) (write : α → Text) (set : FlushPolicy → Option α → FlushPolicy) (o : Option α)
      (p : FlushPolicy) (hnone : set p none = p)
      (hsome : ∀ a ∈ o, p.setField overflowChecks key (write a) = .ok (set p (some a))) :
      (o.map fun a => (key, write a)).toList.foldlM (fun p field => p.setField overflowChecks field.1 field.2) p =
        .ok (set p o) := by
    cases o with
    | none =>
      rw [hnone]
      rfl
    | some a =>
      rw [map_some, toList_some, foldlM_cons, hsome a rfl]
      rfl
  have hread {d : ℕ} (hd : Core.Spelt d) : parseDuration overflowChecks (durationSpec d) = .ok d :=
    parseDuration_durationSpec hd
  have hinterval := hoption "interval".toList durationSpec (fun p o => { p with interval := o }) policy.interval default
    rfl fun d hd => by rw [setField_interval, hread (h.interval d hd)]; rfl
  have hrows (p : FlushPolicy) (hp : p.rows = none) := hoption "rows".toList textU64 (fun p o => { p with rows := o })
    policy.rows p (by rw [← hp]) fun n _ => by rw [setField_rows, parseCount_textU64]; rfl
  have hwal (p : FlushPolicy) (hp : p.walBytes = none) := hoption "wal".toList textU64
    (fun p o => { p with walBytes := o }) policy.walBytes p (by rw [← hp]) fun n _ => by
      rw [setField_wal, parseBytes_textU64]; rfl
  have hidle (p : FlushPolicy) (hp : p.idle = none) := hoption "idle".toList durationSpec
    (fun p o => { p with idle := o }) policy.idle p (by rw [← hp]) fun d hd => by
      rw [setField_idle, hread (h.idle d hd)]; rfl
  have htick (p : FlushPolicy) : p.setField overflowChecks "tick".toList (durationSpec policy.tick) =
      .ok { p with tick := policy.tick } := by
    rw [setField_tick, hread h.tick, ← h.setTick_self]
    rfl
  rw [fieldTexts, foldlM_append, hinterval, ok_bind, foldlM_cons, setField_buffer, ok_bind,
    foldlM_append, hrows _ rfl, ok_bind, foldlM_append, hwal _ rfl, ok_bind, foldlM_append, hidle _ rfl,
    ok_bind, foldlM_cons, htick]
  rfl

/-- A policy is read back as it is written, unless it has no trigger and another tick than the default one. -/
theorem fromStr_display (h : policy.Spelt) : fromStr overflowChecks policy.display =
    .ok (if policy.isManual then manual else policy) := by
  unfold display
  split
  · rfl
  · have hclean := clean_fieldTexts policy
    have hne : policy.fieldTexts.map fieldText ≠ [] := by simp [fieldTexts]
    have hchars : ∀ c ∈ [','].intercalate (policy.fieldTexts.map fieldText), isWhitespace c = false := by
      intro c hc
      rcases mem_intercalate hc with rfl | ⟨field, hfield, hc⟩
      · rfl
      · obtain ⟨f, hf, rfl⟩ := List.mem_map.mp hfield
        exact (hclean f hf).not_whitespace c hc
    have hequals : '=' ∈ [','].intercalate (policy.fieldTexts.map fieldText) := by
      obtain ⟨f, hf⟩ := List.exists_mem_of_ne_nil _ (by simp [fieldTexts] : policy.fieldTexts ≠ [])
      exact mem_intercalate_of_mem (List.mem_map_of_mem hf) (List.mem_append_right _ List.mem_cons_self)
    have hcommas : ∀ field ∈ policy.fieldTexts.map fieldText, ',' ∉ field := by
      intro field hfield
      obtain ⟨f, hf, rfl⟩ := List.mem_map.mp hfield
      exact (hclean f hf).not_comma
    have hword : oneOf (lower ([','].intercalate (policy.fieldTexts.map fieldText)))
        ["manual", "off", "none", "never"] = false := by
      have hlower : '=' ∈ lower ([','].intercalate (policy.fieldTexts.map fieldText)) := List.mem_map.mpr ⟨'=', hequals, rfl⟩
      have hwords : ∀ w ∈ ["manual", "off", "none", "never"], '=' ∉ w.toList := by simp
      rw [oneOf, List.any_eq_false]
      intro w hw heq
      rw [of_decide_eq_true heq] at hlower
      exact hwords w hw hlower
    unfold fromStr
    dsimp only
    rw [trim_of_forall hchars, if_neg (List.ne_nil_of_mem hequals), hword, if_neg Bool.false_ne_true,
      List.splitOn_intercalate ',' hcommas hne, foldlM_readField hclean, foldlM_fieldTexts h]

/-- A policy is read back, unless it is manual with a tick of its own. -/
theorem fromStr_display_eq_iff (h : policy.Spelt) : fromStr overflowChecks policy.display = .ok policy ↔
    (policy.isManual = true → policy.tick = defaultTick) := by
  rw [fromStr_display h]
  split
  · rename_i hmanual
    have hfields : policy = { manual with tick := policy.tick } := by
      obtain ⟨size, interval, rows, walBytes, idle, tick⟩ := policy
      simp only [isManual, Bool.and_eq_true, decide_eq_true_eq, isNone_iff_eq_none] at hmanual
      obtain ⟨⟨⟨⟨rfl, rfl⟩, rfl⟩, rfl⟩, rfl⟩ := hmanual
      rfl
    simp only [hmanual, forall_const]
    constructor
    · intro heq
      exact congrArg FlushPolicy.tick (Except.ok.inj heq).symm
    · intro htick
      rw [htick] at hfields
      exact congrArg Except.ok hfields.symm
  · rename_i hmanual
    exact iff_of_true rfl fun h => absurd h hmanual

end

/-- A policy that a text can say is read back from the text that it is written as exactly if it has a trigger or the
default tick. The words for no trigger are read as the policy that is written as one of them. -/
theorem fromStr_display_iff (overflowChecks : Bool) :
    (∀ s policy, fromStr overflowChecks s = .ok policy → (fromStr overflowChecks policy.display = .ok policy ↔
      (policy.isManual = true → policy.tick = defaultTick))) ∧
    ∀ word ∈ ["manual", "off", "none", "never"], fromStr overflowChecks word.toList = .ok manual ∧
      manual.display = "manual".toList :=
  ⟨fun _ _ h => fromStr_display_eq_iff (fromStr_spelt h), by
    simp only [forall_mem_cons, not_mem_nil, false_imp_iff, implies_true, and_true]
    exact ⟨⟨rfl, rfl⟩, ⟨rfl, rfl⟩, ⟨rfl, rfl⟩, ⟨rfl, rfl⟩⟩⟩

/-- A policy of every trigger, in the words of an operator and as it is written. -/
theorem fromStr_display_full :
    let policy : FlushPolicy :=
      ⟨.bytes 67108864, some (fromSecs 30), some 5000, some 1048576, some (fromMillis 1500), fromMillis 250⟩
    fromStr true " rows=5000, buffer=64MiB,every=30s, wal=1MiB,idle=1500ms ,tick=250ms".toList = .ok policy ∧
      policy.display = "interval=30s,buffer=67108864,rows=5000,wal=1048576,idle=1500ms,tick=250ms".toList ∧
      fromStr true policy.display = .ok policy := by
  intro policy
  have hread : fromStr true " rows=5000, buffer=64MiB,every=30s, wal=1MiB,idle=1500ms ,tick=250ms".toList = .ok policy := by
    decide +kernel
  exact ⟨hread, by decide +kernel, ((fromStr_display_iff true).1 _ policy hread).mpr nofun⟩

/-- Without a trigger the tick is lost. -/
theorem fromStr_display_slips : fromStr true "buffer=off,tick=5s".toList = .ok { manual with tick := fromSecs 5 } ∧
    display { manual with tick := fromSecs 5 } = "manual".toList ∧
    fromStr true "manual".toList = .ok manual := by
  refine ⟨?_, by decide, rfl⟩
  have hsplit : (trim "buffer=off,tick=5s".toList).splitOn ',' = ["buffer=off".toList, "tick=5s".toList] := by decide
  have hbuffer : default.readField true "buffer=off".toList = .ok (default.setSize .off) := rfl
  have htick : (default.setSize .off).readField true "tick=5s".toList = .ok { manual with tick := fromSecs 5 } := by
    have hfield : "tick=5s".toList = fieldText ("tick".toList, durationSpec (fromSecs 5)) := by decide
    have hclean : Clean ("tick".toList, durationSpec (fromSecs 5)) :=
      clean_fieldTexts { manual with tick := fromSecs 5 } _ (by simp [fieldTexts])
    rw [hfield, hclean.readField, setField_tick, parseDuration_durationSpec ⟨5, .inl rfl⟩]
    have hspelt : { manual with tick := fromSecs 5 }.Spelt :=
      ⟨spelt_default.interval, spelt_default.idle, ⟨5, .inl rfl⟩, by decide, by decide⟩
    exact congrArg Except.ok (hspelt.setTick_self _)
  unfold fromStr
  dsimp only
  rw [if_neg (by decide), if_neg (by decide), hsplit, foldlM_cons, hbuffer, ok_bind, foldlM_cons, htick]
  rfl

end FlushPolicy

end Imbh.Core
