import Imbh.Lib.Hex
import Imbh.Lib.Split
import Imbh.Manifest.Codec
import Imbh.Storage.Info

/-!
# The text of a pending rewrite (`pending.rs`)

A record is lines of a key and a value with a tab between them: the version and the table, the promoted keys and
the inputs in their order, and the output. Keys and paths are escaped.

* `decode_encode_iff` — the records that are read back as they were.
-/

namespace Imbh.Pending

open Lib List Option
open Storage (Table Promote tableName)
open ManifestLog (SegmentRef)

/-- Source: `pending.rs` `PendingRewrite` -/
structure PendingRewrite where
  table : Table
  inputs : List Text
  output : SegmentRef
  outputDigest : UInt64
  promote : Promote
  deriving DecidableEq

/-- Source: `pending.rs` `VERSION` -/
def version : ℕ := 1

/-- Source: `pending.rs` `escape` -/
def escape (s : Text) : Text := Storage.escapeField s

/-- Source: `pending.rs` `unescape` -/
def unescape (s : Text) : Text := Storage.unescapeField s

/-- A line. -/
def entry (key : String) (value : Text) : Text := unfields [key.toList, value]

def recordLines (table : Table) (keys inputs : List Text) (output : SegmentRef) (digest : UInt64) : List Text :=
  [entry "version" (decimal version), entry "table" (tableName table)] ++
    keys.map (fun k => entry "promote" (escape k)) ++ inputs.map (fun i => entry "input" (escape i)) ++
    [entry "output" (escape output.relativePath), entry "rows" (textU64 output.rows),
      entry "min_time" (textI64 output.minTimeUnixNano), entry "max_time" (textI64 output.maxTimeUnixNano),
      entry "digest" (hexFixed 16 digest.toNat)]

/-- Source: `pending.rs` `PendingRewrite::encode` -/
def PendingRewrite.encode (rec : PendingRewrite) : Bytes :=
  encodeText (unlines (recordLines rec.table rec.promote.keys rec.inputs rec.output rec.outputDigest))

/-- Source: `pending.rs` `PendingRewrite::decode`, its variables -/
structure Found where
  version : Option ℕ := none
  table : Option Table := none
  promote : List Text := []
  inputs : List Text := []
  output : Option Text := none
  rows : Option UInt64 := none
  minTime : Option Int64 := none
  maxTime : Option Int64 := none
  digest : Option UInt64 := none

namespace Found

/-- Source: `pending.rs` `PendingRewrite::decode`, the `match` -/
def set (f : Found) (k v : Text) : Found :=
  if k = "version".toList then { f with version := parseBelow (2 ^ 32) v }
  else if k = "table".toList then { f with table := Table.all.find? fun t => tableName t = v }
  else if k = "promote".toList then { f with promote := f.promote ++ [unescape v] }
  else if k = "input".toList then { f with inputs := f.inputs ++ [unescape v] }
  else if k = "output".toList then { f with output := some (unescape v) }
  else if k = "rows".toList then { f with rows := parseU64 v }
  else if k = "min_time".toList then { f with minTime := parseI64 v }
  else if k = "max_time".toList then { f with maxTime := parseI64 v }
  else if k = "digest".toList then { f with digest := parseHex v }
  else f

/-- Source: `pending.rs` `PendingRewrite::decode`, the body of the `for` -/
def read (f : Found) (line : Text) : Found :=
  let (k, v) := (splitAtChar (· = '\t') line).getD (line, [])
  f.set k v

/-- Source: `pending.rs` `PendingRewrite::decode`, behind the `for` -/
def finish (f : Found) : Option PendingRewrite := do
  let v ← f.version
  if v ≠ Pending.version ∨ f.inputs = [] then none
  else
    let table ← f.table
    let path ← f.output
    let minTime ← f.minTime
    let maxTime ← f.maxTime
    let rows ← f.rows
    let digest ← f.digest
    return ⟨table, f.inputs, ⟨path, minTime, maxTime, rows⟩, digest, Promote.new f.promote⟩

end Found

/-- Source: `pending.rs` `PendingRewrite::decode` -/
def decode (payload : Bytes) : Option PendingRewrite :=
  (decodeText payload).bind fun text => ((lines text).foldl Found.read {}).finish

/-! ## Lines -/

theorem find?_tableName (t : Table) : (Table.all.find? fun u => tableName u = tableName t) = some t := by
  cases t <;> decide

section

variable {key : String} {value : Text}

/-- A line loses a carriage return at the end of its value. -/
theorem stripCr_entry (key : String) (value : Text) :
    stripCr (entry key (escape value)) = entry key (escape (stripCr value)) := by
  unfold entry escape
  rw [stripCr_unfields, Storage.stripCr_escapeField]

/-- A line keeps a value that ends in no carriage return. -/
theorem stripCr_entry_of (h : value.getLast? ≠ some '\r') : stripCr (entry key value) = entry key value := by
  unfold entry
  rw [stripCr_unfields, stripCr_eq_self_iff.mpr h]

theorem not_mem_entry (hkey : '\n' ∉ key.toList) (hvalue : '\n' ∉ value) : '\n' ∉ entry key value := by
  intro h
  rcases mem_unfields h with h | ⟨f, hf, h⟩
  · exact absurd h (by decide)
  · rcases mem_cons.mp hf with rfl | hf
    · exact hkey h
    · rw [mem_singleton.mp hf] at h
      exact hvalue h

theorem read_entry (f : Found) (hkey : '\t' ∉ key.toList) : f.read (entry key value) = f.set key.toList value := by
  have hentry : entry key value = key.toList ++ '\t' :: value := by simp [entry, unfields, List.intercalate]
  unfold Found.read
  rw [hentry, splitAtChar_append (fun c hc => ?_) (by simp)]
  · rfl
  · rw [decide_eq_false_iff_not]
    rintro rfl
    exact hkey hc

end

theorem unescape_escape (s : Text) : unescape (escape s) = s := Storage.unescapeField_escapeField s

/-- The keys, and the inputs, are read in their order. -/
theorem foldl_entry (key : String) (hkey : '\t' ∉ key.toList) (append : Found → List Text → Found)
    (hnil : ∀ f, append f [] = f) (hcons : ∀ f x xs, append (f.set key.toList (escape x)) xs = append f (x :: xs))
    (xs : List Text) (f : Found) : (xs.map fun x => entry key (escape x)).foldl Found.read f = append f xs := by
  induction xs generalizing f with
  | nil => exact (hnil f).symm
  | cons x xs ih => rw [map_cons, foldl_cons, read_entry f hkey, ih, hcons]

section

variable (table : Table) (keys inputs : List Text) (output : SegmentRef) (digest : UInt64)

theorem stripCr_recordLines : (recordLines table keys inputs output digest).map stripCr =
    recordLines table (keys.map stripCr) (inputs.map stripCr)
      { output with relativePath := stripCr output.relativePath } digest := by
  have htable : (tableName table).getLast? ≠ some '\r' := by
    cases table <;> decide
  have hversion : (decimal version).getLast? ≠ some '\r' := by decide
  have hrows : (textU64 output.rows).getLast? ≠ some '\r' := (ManifestLog.textU64_plain _).2.2
  have htime (z : Int64) : (textI64 z).getLast? ≠ some '\r' := by
    intro h
    rcases mem_textI64 (List.mem_of_getLast? h) with h | h
    · exact absurd h (by decide)
    · exact absurd h (by decide)
  have hdigest : (hexFixed 16 digest.toNat).getLast? ≠ some '\r' := fun h =>
    (mem_hexFixed (List.mem_of_getLast? h)).2.2 rfl
  unfold recordLines
  simp only [List.map_append, List.map_cons, List.map_nil, List.map_map, Function.comp_def, stripCr_entry,
    stripCr_entry_of htable, stripCr_entry_of hversion, stripCr_entry_of hrows, stripCr_entry_of (htime _),
    stripCr_entry_of hdigest]

theorem not_mem_recordLines : ∀ line ∈ recordLines table keys inputs output digest, '\n' ∉ line := by
  have hescape (s : Text) : '\n' ∉ escape s := fun h => (Storage.mem_escapeField h).2 rfl
  have hdigest : '\n' ∉ hexFixed 16 digest.toNat := fun h => (mem_hexFixed h).2.1 rfl
  intro line hline
  unfold recordLines at hline
  simp only [List.mem_append, List.mem_cons, List.mem_map, List.not_mem_nil, or_false] at hline
  rcases hline with (((rfl | rfl) | ⟨k, -, rfl⟩) | ⟨i, -, rfl⟩) | rfl | rfl | rfl | rfl | rfl
  · exact not_mem_entry (by decide) (by decide)
  · exact not_mem_entry (by decide) (ManifestLog.tableName_plain table).2
  · exact not_mem_entry (by decide) (hescape k)
  · exact not_mem_entry (by decide) (hescape i)
  · exact not_mem_entry (by decide) (hescape _)
  · exact not_mem_entry (by decide) (ManifestLog.textU64_plain _).2.1
  · exact not_mem_entry (by decide) (ManifestLog.textI64_plain _).2
  · exact not_mem_entry (by decide) (ManifestLog.textI64_plain _).2
  · exact not_mem_entry (by decide) hdigest

/-- The lines of the output are read field by field. -/
theorem foldl_outputLines (f : Found) :
    [entry "output" (escape output.relativePath), entry "rows" (textU64 output.rows),
      entry "min_time" (textI64 output.minTimeUnixNano), entry "max_time" (textI64 output.maxTimeUnixNano),
      entry "digest" (hexFixed 16 digest.toNat)].foldl Found.read f =
    { f with
      output := some output.relativePath
      rows := some output.rows
      minTime := some output.minTimeUnixNano
      maxTime := some output.maxTimeUnixNano
      digest := some digest } := by
  have houtput (f : Found) (v : Text) : f.read (entry "output" v) = { f with output := some (unescape v) } := by
    rw [read_entry f (by decide)]
    simp [Found.set]
  have hrows (f : Found) (v : Text) : f.read (entry "rows" v) = { f with rows := parseU64 v } := by
    rw [read_entry f (by decide)]
    simp [Found.set]
  have hmin (f : Found) (v : Text) : f.read (entry "min_time" v) = { f with minTime := parseI64 v } := by
    rw [read_entry f (by decide)]
    simp [Found.set]
  have hmax (f : Found) (v : Text) : f.read (entry "max_time" v) = { f with maxTime := parseI64 v } := by
    rw [read_entry f (by decide)]
    simp [Found.set]
  have hdigest (f : Found) (v : Text) : f.read (entry "digest" v) = { f with digest := parseHex v } := by
    rw [read_entry f (by decide)]
    simp [Found.set]
  rw [foldl_cons, houtput, unescape_escape, foldl_cons, hrows, parseU64_textU64, foldl_cons, hmin,
    parseI64_textI64, foldl_cons, hmax, parseI64_textI64, foldl_cons, hdigest, parseHex_hexFixed,
    foldl_nil]

/-- The lines are read field by field. -/
theorem foldl_recordLines : (recordLines table keys inputs output digest).foldl Found.read {} =
    { version := some version, table := some table, promote := keys, inputs := inputs
      output := some output.relativePath, rows := some output.rows, minTime := some output.minTimeUnixNano
      maxTime := some output.maxTimeUnixNano, digest := some digest } := by
  have hversion (f : Found) : f.read (entry "version" (decimal version)) = { f with version := some version } := by
    rw [read_entry f (by decide)]
    simp [Found.set, parseBelow_decimal (show version < 4294967296 by decide)]
  have htable (f : Found) : f.read (entry "table" (tableName table)) = { f with table := some table } := by
    rw [read_entry f (by decide)]
    simp [Found.set, find?_tableName]
  have hkeys : ∀ (xs : List Text) (f : Found), (xs.map fun x => entry "promote" (escape x)).foldl Found.read f =
      { f with promote := f.promote ++ xs } := by
    refine foldl_entry "promote" (by decide) (fun f xs => { f with promote := f.promote ++ xs }) (fun f => ?_)
      fun f x xs => ?_
    · simp
    · simp [Found.set, unescape_escape]
  have hinputs : ∀ (xs : List Text) (f : Found), (xs.map fun x => entry "input" (escape x)).foldl Found.read f =
      { f with inputs := f.inputs ++ xs } := by
    refine foldl_entry "input" (by decide) (fun f xs => { f with inputs := f.inputs ++ xs }) (fun f => ?_)
      fun f x xs => ?_
    · simp
    · simp [Found.set, unescape_escape]
  unfold recordLines
  rw [foldl_append, foldl_append, foldl_append, foldl_outputLines]
  simp only [foldl_cons, foldl_nil]
  rw [hversion, htable, hkeys, hinputs]
  rfl

end

/-- What is read back of a record: no key and no path keeps a carriage return at its end. -/
def PendingRewrite.stripped (rec : PendingRewrite) : PendingRewrite :=
  { rec with
    inputs := rec.inputs.map stripCr
    output := { rec.output with relativePath := stripCr rec.output.relativePath }
    promote := Promote.new (rec.promote.keys.map stripCr) }

/-- What is read back of any record with inputs. -/
theorem decode_encode (rec : PendingRewrite) :
    decode rec.encode = if rec.inputs = [] then none else some rec.stripped := by
  unfold decode PendingRewrite.encode
  rw [decodeText_encodeText, bind_some, lines_unlines_map (not_mem_recordLines _ _ _ _ _), stripCr_recordLines,
    foldl_recordLines]
  unfold Found.finish
  simp only [bind_eq_bind, bind_some, map_eq_nil_iff]
  split
  · rename_i h
    rw [if_pos (by simpa using h)]
  · rename_i h
    rw [if_neg (by simpa using h)]
    rfl

/-- No key and no path of the record ends in a carriage return. -/
structure PendingRewrite.Clean (rec : PendingRewrite) : Prop where
  inputs : ∀ i ∈ rec.inputs, i.getLast? ≠ some '\r'
  output : rec.output.relativePath.getLast? ≠ some '\r'
  promote : rec.promote.Clean

theorem stripped_eq_iff (rec : PendingRewrite) : rec.stripped = rec ↔ rec.Clean := by
  have hfields : rec.stripped = rec ↔ rec.inputs.map stripCr = rec.inputs ∧
      stripCr rec.output.relativePath = rec.output.relativePath ∧
      Promote.new (rec.promote.keys.map stripCr) = rec.promote := by
    obtain ⟨table, inputs, ⟨path, minTime, maxTime, rows⟩, digest, promote⟩ := rec
    simp [PendingRewrite.stripped]
  rw [hfields, map_stripCr_iff, stripCr_eq_self_iff, Promote.new_map_eq_iff, map_stripCr_iff]
  exact ⟨fun ⟨hinputs, houtput, hpromote⟩ => ⟨hinputs, houtput, hpromote⟩,
    fun ⟨hinputs, houtput, hpromote⟩ => ⟨hinputs, houtput, hpromote⟩⟩

/-- A record is read back as it was exactly if it has inputs and none of its keys and paths ends in a carriage
return. -/
theorem decode_encode_iff (rec : PendingRewrite) : decode rec.encode = some rec ↔ rec.inputs ≠ [] ∧ rec.Clean := by
  rw [decode_encode]
  split
  · rename_i h
    simp [h]
  · rename_i h
    rw [some_inj, stripped_eq_iff]
    exact (and_iff_right h).symm

/-- A merge of one segment of logs. -/
def mergeOf (key path : Text) : PendingRewrite :=
  ⟨.logs, [path], ⟨['o'], 5, 900, 42⟩, 7, ⟨[key], nodup_singleton _⟩⟩

/-- A promoted key, and a path, that ends in a carriage return. -/
theorem decode_encode_slips : decode (mergeOf ['k', '\r'] ['a']).encode = some (mergeOf ['k'] ['a']) ∧
    decode (mergeOf ['k'] ['a', '\r']).encode = some (mergeOf ['k'] ['a']) := by
  rw [decode_encode, decode_encode]
  decide

end Imbh.Pending
