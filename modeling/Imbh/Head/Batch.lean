import Imbh.Lib.Float64
import Imbh.Lib.Text

/-!
# Result batches (imbh-head `ipc.rs`)

A batch is columns of one length and the metadata of its schema. How the library frames a batch as a stream of bytes is
a parameter.
-/

namespace Imbh.Head

open Lib

/-- Source: imbh-head `HeadError` -/
inductive HeadError where
  | api (status : UInt16) (kind : Option String) (message : String)
  | transport (message : String)
deriving DecidableEq, Repr

/-- Source: `ipc.rs` `internal` -/
def internal (message : String) : HeadError := .api 500 none message

/-- Source: `ipc.rs` `malformed` -/
def malformed (message : String) : HeadError := .transport message

/-- The array of a column; a null has no value. -/
inductive Column where
  | map (rows : List (List (Text × Text)))
  | timestamp (rows : List (Option Int64))
  | float64 (rows : List F64)
deriving DecidableEq

namespace Column

def length : Column → ℕ
  | .map rows => rows.length
  | .timestamp rows => rows.length
  | .float64 rows => rows.length

def map? : Column → Option (List (List (Text × Text)))
  | .map rows => some rows
  | _ => none

def timestamp? : Column → Option (List (Option Int64))
  | .timestamp rows => some rows
  | _ => none

def float64? : Column → Option (List F64)
  | .float64 rows => some rows
  | _ => none

end Column

/-- The columns have one length. -/
structure RecordBatch where
  columns : List (String × Column)
  metadata : List (String × Text)
  numRows : ℕ
  aligned : ∀ c ∈ columns, c.2.length = numRows

/-- Columns of several lengths are refused, and the library panics.
Source: `ipc.rs` `batch_with_metadata` -/
def batchWithMetadata (columns : List (String × Column)) (metadata : List (String × Text)) : Option RecordBatch :=
  match columns with
  | [] => none
  | c :: cs =>
    if h : ∀ d ∈ c :: cs, d.2.length = c.2.length then some ⟨c :: cs, metadata, c.2.length, h⟩ else none

/-- A batch of columns of one length is built. -/
theorem batchWithMetadata_eq_some {name : String} {c : Column} {cs : List (String × Column)}
    (metadata : List (String × Text)) (h : ∀ d ∈ (name, c) :: cs, d.2.length = c.length) :
    batchWithMetadata ((name, c) :: cs) metadata = some ⟨(name, c) :: cs, metadata, c.length, h⟩ := dif_pos h

/-! ## Reading -/

/-- The array of a column, as one of its type. Source: `ipc.rs` `column` -/
def column {α : Type} (batch : RecordBatch) (name : String) (downcast : Column → Option α) : Except HeadError α :=
  match batch.columns.lookup name with
  | none => .error (malformed s!"the result batch has no `{name}` column")
  | some array =>
    match downcast array with
    | none => .error (malformed s!"the result batch's `{name}` column has the wrong type")
    | some rows => .ok rows

/-- The instant of a row, which is zero for a null. Source: `TimestampNanosecondArray::value` -/
def timeValue (array : List (Option Int64)) (row : ℕ) : Int64 := (array.getD row none).getD 0

/-! ## Framing -/

/-- The library's streams. A schema is the batch of it that has no rows. -/
structure ArrowIpc where
  start : RecordBatch → Except String Bytes
  write : RecordBatch → Bytes → Except String Bytes
  finish : Bytes → Except String Bytes
  reader : Bytes → Except String RecordBatch
  batches : Bytes → Except String (List RecordBatch)
  concat : RecordBatch → List RecordBatch → Except String RecordBatch

section

variable (ipc : ArrowIpc)

/-- Source: `ipc.rs` `encode` -/
def encode (batch : RecordBatch) : Except HeadError Bytes := do
  let writer ← (ipc.start batch).mapError fun e => internal s!"cannot start an Arrow IPC stream: {e}"
  let writer ← (ipc.write batch writer).mapError fun e => internal s!"cannot write an Arrow IPC batch: {e}"
  (ipc.finish writer).mapError fun e => internal s!"cannot finish an Arrow IPC stream: {e}"

/-- Source: `ipc.rs` `decode` -/
def decode (bytes : Bytes) : Except HeadError RecordBatch := do
  let schema ← (ipc.reader bytes).mapError fun e => malformed s!"not an Arrow IPC stream: {e}"
  let batches ← (ipc.batches bytes).mapError fun e => malformed s!"malformed Arrow IPC stream: {e}"
  match batches with
  | [batch] => return batch
  | [] => return schema
  | _ => (ipc.concat schema batches).mapError fun e => malformed s!"cannot concatenate Arrow IPC batches: {e}"

/-- What a remote head makes of the body of an answer. Source: `client.rs` `HeadClient::post_ipc` -/
def postIpc {α : Type} (read : RecordBatch → Except HeadError α) (body : Bytes) : Except HeadError α := do
  read (← decode ipc body)

/-- A stream of one batch is read as that batch. -/
structure ArrowIpc.Lawful : Prop where
  opens : ∀ batch bytes, encode ipc batch = .ok bytes → ∃ schema, ipc.reader bytes = .ok schema
  reads : ∀ batch bytes, encode ipc batch = .ok bytes → ipc.batches bytes = .ok [batch]

end

/-- A framed batch is read back. -/
theorem ArrowIpc.Lawful.postIpc_eq {ipc : ArrowIpc} (h : ipc.Lawful) {batch : RecordBatch} {bytes : Bytes}
    (hbytes : encode ipc batch = .ok bytes) {α : Type} (read : RecordBatch → Except HeadError α) :
    postIpc ipc read bytes = read batch := by
  obtain ⟨schema, hschema⟩ := h.opens batch bytes hbytes
  rw [postIpc, decode, hschema, h.reads batch bytes hbytes]
  rfl

/-- The library, when it writes one batch. -/
def oneBatch (batch : RecordBatch) : ArrowIpc where
  start b :=
    if b.columns = batch.columns ∧ b.metadata = batch.metadata ∧ b.numRows = batch.numRows then .ok [255, 255, 255, 255]
    else .error "another batch"
  write _ writer := .ok writer
  finish writer := .ok writer
  reader _ := .ok batch
  batches _ := .ok [batch]
  concat _ _ := .ok batch

theorem lawful_oneBatch (batch : RecordBatch) : (oneBatch batch).Lawful := by
  refine ⟨fun b bytes _ => ⟨batch, rfl⟩, fun b bytes h => ?_⟩
  by_cases heq : b.columns = batch.columns ∧ b.metadata = batch.metadata ∧ b.numRows = batch.numRows
  · obtain ⟨columns, metadata, numRows, aligned⟩ := b
    obtain ⟨rfl, rfl, rfl⟩ := heq
    rfl
  · rw [encode, show (oneBatch batch).start b = .error "another batch" from if_neg heq] at h
    cases h

theorem encode_oneBatch (batch : RecordBatch) : encode (oneBatch batch) batch = .ok [255, 255, 255, 255] := by
  rw [encode, show (oneBatch batch).start batch = .ok [255, 255, 255, 255] from if_pos ⟨rfl, rfl, rfl⟩]
  rfl

end Imbh.Head
