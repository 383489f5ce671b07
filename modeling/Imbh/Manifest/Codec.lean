import Imbh.Manifest.Edit

/-!
# The text of an edit (`manifest.rs`)

A frame of the manifest log holds an edit as lines of tab-separated fields: `R`, `W`, one `-` line
for each path that is removed and one `+` line for each segment that is added. The whole-file
manifest of older databases is a text of the same kind.
-/

namespace Imbh.ManifestLog

open Lib List
open Storage (Table tableName)

/-- The errors of the manifest.
Source: `imbh-core` `Error::corrupt_manifest`, `Error::storage_io`, `Error::open_ctx`,
`Error::storage_msg` -/
inductive ManifestError
  | corruptManifest (line : Option ℕ) (what : Text)
  | storageIo
  | openCtx (what : Text)
  | storageMsg (msg : Text)
  deriving DecidableEq

/-- Source: `lib.rs` `table_from_manifest_name` -/
def tableFromManifestName (s : Text) : Option Table :=
  if s = "metrics_gauge".toList then some .metricsGauge
  else if s = "metrics_sum".toList then some .metricsSum
  else if s = "metrics_histogram".toList then some .metricsHistogram
  else if s = "metrics_exp_histogram".toList then some .metricsExpHistogram
  else if s = "metrics_summary".toList then some .metricsSummary
  else none

/-- Source: `manifest.rs` `name_to_table` -/
def nameToTable (s : Text) : Option Table :=
  if s = "logs".toList then some .logs
  else if s = "spans".toList then some .spans
  else tableFromManifestName s

/-- The line of a path that is removed. -/
def removedLine (r : Table × Text) : Text := unfields [['-'], tableName r.1, r.2]

/-- The line of a segment that is added. -/
def addedLine (a : Table × SegmentRef) : Text :=
  unfields [['+'], tableName a.1, a.2.relativePath, textI64 a.2.minTimeUnixNano,
    textI64 a.2.maxTimeUnixNano, textU64 a.2.rows]

/-- Source: `manifest.rs` `encode_edit` -/
def encodeEdit (e : Edit) : Bytes :=
  encodeText (unlines (
    (if e.reset then [['R']] else []) ++
    (match e.watermark with
      | some w => [unfields [['W'], textU64 w]]
      | none => []) ++
    e.removed.map removedLine ++ e.added.map addedLine))

/-- `ok_or_else(|| corrupt(what))` at a line. -/
def orCorrupt {α : Type} (i : ℕ) (what : String) : Option α → Except ManifestError α
  | some x => .ok x
  | none => .error (.corruptManifest (some (i + 1)) what.toList)

/-- One line.
Source: `manifest.rs` `decode_edit`, the body of the `for` -/
def decodeLine (i : ℕ) (line : Text) (e : Edit) : Except ManifestError Edit :=
  if line.isEmpty then .ok e else
  match fields line with
  | ['R'] :: _ => .ok { e with reset := true }
  | ['W'] :: p => do
      let w ← orCorrupt i "invalid watermark" (p[0]?.bind parseU64)
      .ok { e with watermark := some w }
  | ['+'] :: p => do
      let table ← orCorrupt i "invalid add: table" (p[0]?.bind nameToTable)
      let path ← orCorrupt i "invalid add: path" p[1]?
      let min ← orCorrupt i "invalid add: min_time" (p[2]?.bind parseI64)
      let max ← orCorrupt i "invalid add: max_time" (p[3]?.bind parseI64)
      let rows ← orCorrupt i "invalid add: rows" (p[4]?.bind parseU64)
      .ok { e with added := e.added ++ [(table, ⟨path, min, max, rows⟩)] }
  | ['-'] :: p => do
      let table ← orCorrupt i "invalid remove: table" (p[0]?.bind nameToTable)
      let path ← orCorrupt i "invalid remove: path" p[1]?
      .ok { e with removed := e.removed ++ [(table, path)] }
  | _ => orCorrupt i "unknown manifest record" none

/-- The loop over the lines. -/
def decodeLines : ℕ → List Text → Edit → Except ManifestError Edit
  | _, [], e => .ok e
  | i, line :: rest, e => do decodeLines (i + 1) rest (← decodeLine i line e)

/-- Source: `manifest.rs` `decode_edit` -/
def decodeEdit (payload : Bytes) : Except ManifestError Edit :=
  match decodeText payload with
  | none => .error (.corruptManifest none "non-UTF-8 manifest frame".toList)
  | some text => decodeLines 0 (lines text) {}

/-! ## The whole-file manifest -/

/-- One line.
Source: `manifest.rs` `load_legacy`, the body of the `for` -/
def legacyLine (i : ℕ) (line : Text) (m : Manifest) : Except ManifestError Manifest :=
  if line.isEmpty then .ok m else
  match "#watermark ".toList.isPrefixOf? line with
  | some rest => do
      let w ← orCorrupt i "invalid watermark" (parseU64 (trim rest))
      .ok { m with watermark := w }
  | none =>
      match fields line with
      | [table, path, min, max, rows] => do
          let min ← orCorrupt i "invalid min_time" (parseI64 min)
          let max ← orCorrupt i "invalid max_time" (parseI64 max)
          let rows ← orCorrupt i "invalid rows" (parseU64 rows)
          let t ← orCorrupt i ("unknown table `" ++ String.ofList table ++ "`") (nameToTable table)
          .ok (m.push (t, ⟨path, min, max, rows⟩))
      | _ => orCorrupt i "expected 5 fields" none

/-- The loop over the lines. -/
def legacyLines : ℕ → List Text → Manifest → Except ManifestError Manifest
  | _, [], m => .ok m
  | i, line :: rest, m => do legacyLines (i + 1) rest (← legacyLine i line m)

/-- Source: `manifest.rs` `load_legacy` -/
def loadLegacy (file : Bytes) : Except ManifestError Manifest :=
  match decodeText file with
  | none => .error (.openCtx "read manifest".toList)
  | some text => legacyLines 0 (lines text) {}

/-! ## Reading an edit back -/

theorem nameToTable_tableName (t : Table) : nameToTable (tableName t) = some t := by
  cases t <;> decide

theorem tableName_plain (t : Table) : '\t' ∉ tableName t ∧ '\n' ∉ tableName t := by
  cases t <;> decide

/-- A path that a line can hold at its end: no tab, no line end. -/
def PathOk (p : Text) : Prop := '\t' ∉ p ∧ '\n' ∉ p ∧ p.getLast? ≠ some '\r'

instance (p : Text) : Decidable (PathOk p) :=
  inferInstanceAs (Decidable (_ ∧ _ ∧ _))

/-- A path that a line can hold before its end: no tab, no line end. -/
def FieldOk (p : Text) : Prop := '\t' ∉ p ∧ '\n' ∉ p

instance (p : Text) : Decidable (FieldOk p) :=
  inferInstanceAs (Decidable (_ ∧ _))

theorem PathOk.fieldOk {p : Text} (h : PathOk p) : FieldOk p := ⟨h.1, h.2.1⟩

/-- The paths of an edit can be written where they stand. -/
structure Edit.Writable (e : Edit) : Prop where
  removed : ∀ r ∈ e.removed, PathOk r.2
  added : ∀ a ∈ e.added, FieldOk a.2.relativePath

/-- The paths of an edit can be written. -/
structure Edit.Plain (e : Edit) : Prop where
  removed : ∀ r ∈ e.removed, PathOk r.2
  added : ∀ a ∈ e.added, PathOk a.2.relativePath

/-- The paths of a manifest can be written. -/
def Manifest.Plain (m : Manifest) : Prop := ∀ t, ∀ s ∈ m.segments t, PathOk s.relativePath

theorem textU64_plain (n : UInt64) :
    '\t' ∉ textU64 n ∧ '\n' ∉ textU64 n ∧ (textU64 n).getLast? ≠ some '\r' :=
  ⟨fun h => absurd (mem_textU64 h) (by decide), fun h => absurd (mem_textU64 h) (by decide),
    fun h => absurd (mem_textU64 (mem_of_getLast? h)) (by decide)⟩

theorem textI64_plain (z : Int64) : '\t' ∉ textI64 z ∧ '\n' ∉ textI64 z :=
  ⟨fun h => absurd (mem_textI64 h) (by decide), fun h => absurd (mem_textI64 h) (by decide)⟩

theorem lineOk_removedLine {r : Table × Text} (h : PathOk r.2) : LineOk (removedLine r) := by
  refine lineOk_unfields (fun f hf => ?_) fun f hf => ?_
  · simp only [mem_cons, not_mem_nil, or_false] at hf
    rcases hf with rfl | rfl | rfl
    · decide
    · exact (tableName_plain r.1).2
    · exact h.2.1
  · obtain rfl : r.2 = f := Option.some.inj hf
    exact h.2.2

/-- The line of an addition is one line. -/
theorem lineOk_addedLine {a : Table × SegmentRef} (h : FieldOk a.2.relativePath) :
    LineOk (addedLine a) := by
  refine lineOk_unfields (fun f hf => ?_) fun f hf => ?_
  · simp only [mem_cons, not_mem_nil, or_false] at hf
    rcases hf with rfl | rfl | rfl | rfl | rfl | rfl
    · decide
    · exact (tableName_plain a.1).2
    · exact h.2
    · exact (textI64_plain _).2
    · exact (textI64_plain _).2
    · exact (textU64_plain _).2.1
  · obtain rfl : textU64 a.2.rows = f := Option.some.inj hf
    exact (textU64_plain _).2.2

/-- The line of a removal is read back. -/
theorem decodeLine_removedLine (i : ℕ) {r : Table × Text} (h : PathOk r.2) (e : Edit) :
    decodeLine i (removedLine r) e = .ok { e with removed := e.removed ++ [r] } := by
  have hfields : fields (removedLine r) = [['-'], tableName r.1, r.2] := by
    refine fields_unfields (fun f hf => ?_) (by simp)
    simp only [mem_cons, not_mem_nil, or_false] at hf
    rcases hf with rfl | rfl | rfl
    · decide
    · exact (tableName_plain r.1).1
    · exact h.1
  have hne : (removedLine r).isEmpty = false := rfl
  unfold decodeLine
  simp only [hne, hfields, Bool.false_eq_true, if_false]
  simp [orCorrupt, nameToTable_tableName, bind, Except.bind]

/-- So is that of an addition. -/
theorem decodeLine_addedLine (i : ℕ) {a : Table × SegmentRef} (h : FieldOk a.2.relativePath)
    (e : Edit) : decodeLine i (addedLine a) e = .ok { e with added := e.added ++ [a] } := by
  have hfields : fields (addedLine a) = [['+'], tableName a.1, a.2.relativePath,
      textI64 a.2.minTimeUnixNano, textI64 a.2.maxTimeUnixNano, textU64 a.2.rows] := by
    refine fields_unfields (fun f hf => ?_) (by simp)
    simp only [mem_cons, not_mem_nil, or_false] at hf
    rcases hf with rfl | rfl | rfl | rfl | rfl | rfl
    · decide
    · exact (tableName_plain a.1).1
    · exact h.1
    · exact (textI64_plain _).1
    · exact (textI64_plain _).1
    · exact (textU64_plain _).1
  have hne : (addedLine a).isEmpty = false := rfl
  unfold decodeLine
  simp only [hne, hfields, Bool.false_eq_true, if_false]
  simp [orCorrupt, nameToTable_tableName, bind, Except.bind]

/-- Lines are read one part after the other. -/
theorem decodeLines_append (as bs : List Text) (i : ℕ) (e : Edit) :
    decodeLines i (as ++ bs) e = decodeLines i as e >>= decodeLines (i + as.length) bs := by
  induction as generalizing i e with
  | nil => rfl
  | cons a as ih =>
      rw [cons_append, decodeLines, decodeLines]
      rcases decodeLine i a e with err | e'
      · rfl
      · show decodeLines (i + 1) (as ++ bs) e' = _
        rw [ih]
        have hlen : i + (a :: as).length = i + 1 + as.length := by simp; omega
        rw [hlen]
        rfl

theorem decodeLines_removed {rs : List (Table × Text)} (h : ∀ r ∈ rs, PathOk r.2) (i : ℕ)
    (e : Edit) : decodeLines i (rs.map removedLine) e = .ok { e with removed := e.removed ++ rs } := by
  induction rs generalizing i e with
  | nil => simp [decodeLines]
  | cons r rs ih =>
      rw [map_cons, decodeLines, decodeLine_removedLine i (h r mem_cons_self)]
      show decodeLines (i + 1) _ _ = _
      rw [ih fun x hx => h x (mem_cons_of_mem _ hx)]
      simp

/-- All additions are read back, in their order. -/
theorem decodeLines_added {as : List (Table × SegmentRef)} (h : ∀ a ∈ as, FieldOk a.2.relativePath)
    (i : ℕ) (e : Edit) :
    decodeLines i (as.map addedLine) e = .ok { e with added := e.added ++ as } := by
  induction as generalizing i e with
  | nil => simp [decodeLines]
  | cons a as ih =>
      rw [map_cons, decodeLines, decodeLine_addedLine i (h a mem_cons_self)]
      show decodeLines (i + 1) _ _ = _
      rw [ih fun x hx => h x (mem_cons_of_mem _ hx)]
      simp

/-- The lines before the paths. -/
def headLines (e : Edit) : List Text :=
  (if e.reset then [['R']] else []) ++
    match e.watermark with
    | some w => [unfields [['W'], textU64 w]]
    | none => []

/-- The head is made of lines. -/
theorem lineOk_headLines (e : Edit) : ∀ l ∈ headLines e, LineOk l := by
  intro l hl
  rcases mem_append.mp hl with hl | hl
  · split at hl
    · rw [mem_singleton.mp hl]
      exact ⟨by decide, by decide⟩
    · cases hl
  · split at hl
    · rename_i w _
      rw [mem_singleton.mp hl]
      refine lineOk_unfields (fun f hf => ?_) fun f hf => ?_
      · simp only [mem_cons, not_mem_nil, or_false] at hf
        rcases hf with rfl | rfl
        · decide
        · exact (textU64_plain w).2.1
      · obtain rfl : textU64 w = f := Option.some.inj hf
        exact (textU64_plain w).2.2
    · cases hl

/-- The head is read back. -/
theorem decodeLines_headLines (e : Edit) :
    decodeLines 0 (headLines e) {} = .ok { reset := e.reset, watermark := e.watermark } := by
  have hwatermark : ∀ (i : ℕ) (w : UInt64) (e : Edit),
      decodeLine i (unfields [['W'], textU64 w]) e = .ok { e with watermark := some w } := by
    intro i w e
    have hfields : fields (unfields [['W'], textU64 w]) = [['W'], textU64 w] := by
      refine fields_unfields (fun f hf => ?_) (by simp)
      simp only [mem_cons, not_mem_nil, or_false] at hf
      rcases hf with rfl | rfl
      · decide
      · exact (textU64_plain w).1
    have hne : (unfields [['W'], textU64 w]).isEmpty = false := rfl
    unfold decodeLine
    simp only [hne, hfields, Bool.false_eq_true, if_false]
    simp [orCorrupt, bind, Except.bind]
  have hreset : ∀ i e, decodeLine i ['R'] e = .ok { e with reset := true } := fun _ _ => rfl
  unfold headLines
  cases e.reset <;> rcases e.watermark with _ | w <;>
    simp [decodeLines, hreset, hwatermark, bind, Except.bind]

/-- **An edit is read back.** -/
theorem decodeEdit_of_writable {e : Edit} (h : e.Writable) : decodeEdit (encodeEdit e) = .ok e := by
  have hlines : ∀ l ∈ headLines e ++ e.removed.map removedLine ++ e.added.map addedLine,
      LineOk l := by
    intro l hl
    rcases mem_append.mp hl with hl | hl
    · rcases mem_append.mp hl with hl | hl
      · exact lineOk_headLines e l hl
      · obtain ⟨r, hr, rfl⟩ := mem_map.mp hl
        exact lineOk_removedLine (h.removed r hr)
    · obtain ⟨a, ha, rfl⟩ := mem_map.mp hl
      exact lineOk_addedLine (h.added a ha)
  unfold decodeEdit
  show (match decodeText (encodeText (unlines
    (headLines e ++ e.removed.map removedLine ++ e.added.map addedLine))) with
    | none => _
    | some text => decodeLines 0 (lines text) {}) = _
  rw [decodeText_encodeText]
  simp only [lines_unlines hlines]
  rw [decodeLines_append, decodeLines_append, decodeLines_headLines]
  simp only [bind, Except.bind]
  rw [decodeLines_removed h.removed]
  simp only
  rw [decodeLines_added h.added]
  simp

/-- An edit whose paths hold no tab and no line end is read back. -/
theorem decodeEdit_encodeEdit {e : Edit} (h : e.Plain) : decodeEdit (encodeEdit e) = .ok e :=
  decodeEdit_of_writable ⟨h.removed, fun a ha => (h.added a ha).fieldOk⟩

end Imbh.ManifestLog
