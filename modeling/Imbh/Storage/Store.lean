import Imbh.Storage.Engine
import Imbh.Wal.Durability

/-!
# The store on disk

The engine over its directory: the log, and what the manifest on disk lists. The manifest is one
durable register here; `Storage::open` loads it and replays the records above its watermark.

An event is a lock section of a call, or a crash, which may interrupt an append, a sync, a reclaim
or an open anywhere. A registration whose manifest edit reaches the disk may still return an error
(`stored` without `ok`).

`acked` is kept by no code: the records whose ingest returned `Ok`. A crash takes those out whose
fsync had not completed and that no persisted segment holds; the WAL modes other than `Always`
allow this loss.
-/

namespace Imbh.Storage

open Lib
open WriteAhead (WalRecord Faults exec readAllFrames)

variable {D P : Type}

/-- The log, the engine while a process is up, and the manifest on disk. -/
structure Store (D P : Type) where
  wal : WriteAhead.Sys
  engine : Option (Engine D P)
  segments : Table → List (Segment D)
  watermark : ℕ
  acked : List WalRecord

/-- The call a crash interrupts, as far as it gets. -/
inductive Cut
  | none
  | open (rotateBytes : ℕ) (fs : Faults)
  | append (signal : UInt8) (payload : Bytes) (fs : Faults)
  | sync (fs : Faults)
  | reclaim (call : ℕ) (fs : Faults)

/-- What happens to the store. -/
inductive StoreEvent
  | open (rotateBytes : ℕ)
  | ingest (signal : UInt8) (payload : Bytes) (sync : Bool) (appendFaults syncFaults : Faults)
      (fails : Table → Bool)
  | syncWal (fs : Faults)
  | freeze (call : ℕ)
  | write (call : ℕ) (ok : Bool) (path : Table → ℕ)
  | register (call : ℕ) (stored ok : Bool)
  | reclaim (call : ℕ) (fs : Faults)
  | crash (cut : Cut) (keep : ℕ → ℕ) (drop : ℕ → Bool)

namespace Store

/-- An empty directory. -/
def init : Store D P := ⟨.init, none, fun _ => [], 0, []⟩

section system

variable (xxh3 : Bytes → UInt64) (decode : UInt8 → Bytes → Request D) (promote : P)

/-- Does the append of an open log return `Ok`? -/
def appendOk (wal : WriteAhead.Sys) (signal : UInt8) (payload : Bytes) (fs : Faults) : Bool :=
  match wal.live with
  | none => false
  | some (w, n) => (w.append xxh3 fs n signal payload wal.dir).2.2.isOk

/-- Does the sync of an open log return `Ok`? -/
def syncOk (wal : WriteAhead.Sys) (fs : Faults) : Bool :=
  match wal.live with
  | none => false
  | some (w, _) => (w.sync fs wal.dir).2.isOk

/-- Does the reclaim of an open log return `Ok`? -/
def reclaimOk (wal : WriteAhead.Sys) (watermark : ℕ) (fs : Faults) : Bool :=
  match wal.live with
  | none => false
  | some (w, _) => (w.reclaim fs watermark wal.dir).2.2.isOk

/-- Append a frame to the log, sync it when asked to, and say whether both succeeded.
Source: `lib.rs` `wal_append_assign` -/
def logged (wal : WriteAhead.Sys) (signal : UInt8) (payload : Bytes) (sync : Bool)
    (appendFaults syncFaults : Faults) : Option (WriteAhead.Sys × Bool) :=
  match exec xxh3 wal (.append signal payload) appendFaults with
  | none => none
  | some wal' =>
      let ok := appendOk xxh3 wal signal payload appendFaults
      if ok && sync then
        match exec xxh3 wal' .sync syncFaults with
        | none => none
        | some wal'' => some (wal'', syncOk wal' syncFaults)
      else some (wal', ok)

/-- The records above the persisted watermark.
Source: `lib.rs` `Storage::open`, `pending_replay` -/
def pendingReplay (s : Store D P) : List WalRecord :=
  (readAllFrames xxh3 s.wal.dir).filter (s.watermark < ·.lsn)

/-- The rows the manifest on disk lists. -/
def listedRows (s : Store D P) (t : Table) : List (Row D) := segmentRows (s.segments t)

/-- The rows of a record. -/
def recordRows (r : WalRecord) (t : Table) : List (Row D) :=
  (decode r.signal r.payload).tagged r.lsn t

/-- The rows a replay gives. -/
def replayedRows (s : Store D P) (t : Table) : List (Row D) :=
  (s.pendingReplay xxh3).flatMap fun r => recordRows decode r t

/-- Load the manifest, open the log, replay.
Source: `lib.rs` `Storage::open`; `imbh` `lib.rs` `replay_record` -/
def reopen (rotateBytes : ℕ) (s : Store D P) : Option (Store D P) :=
  match s.engine with
  | some _ => none
  | none =>
      match exec xxh3 { s.wal with watermark := s.watermark } (.open rotateBytes) Faults.none with
      | none => none
      | some wal => some { s with
          wal := wal
          engine := wal.live.map fun l =>
            .opened promote ((Inner.loaded s.segments s.watermark l.2).replayAll promote
              ((s.pendingReplay xxh3).map fun r => (r.lsn, decode r.signal r.payload))) }

/-- Log a request, decode it, push its rows.
Source: `lib.rs` `ingest`, `ingest_traces`, `ingest_metrics` -/
def ingest (signal : UInt8) (payload : Bytes) (sync : Bool) (appendFaults syncFaults : Faults)
    (fails : Table → Bool) (s : Store D P) : Option (Store D P) :=
  match s.engine with
  | none => none
  | some e =>
      match logged xxh3 s.wal signal payload sync appendFaults syncFaults with
      | none => none
      | some (wal, ok) =>
          let req := decode signal payload
          let lsn := e.inner.nextLsn
          some { s with
            wal := wal
            engine := some (e.ingest ok req fails)
            acked := s.acked ++
              if ok && (req.groups lsn).all (encodes fails) then [⟨lsn, signal, payload⟩] else [] }

/-- A section of a seal that leaves log and manifest alone. -/
def sealStep (ev : Event D) (s : Store D P) : Option (Store D P) :=
  match s.engine with
  | none => none
  | some e => (e.step ev).map fun e' => { s with engine := some e' }

/-- Register and persist: the edit lists what the engine lists.
Source: `lib.rs` `Storage::seal`, the registration, `persist_manifest` -/
def register (c : ℕ) (stored ok : Bool) (s : Store D P) : Option (Store D P) :=
  if ok && !stored then none
  else
    match s.engine with
    | none => none
    | some e => (e.step (.register c ok)).map fun e' =>
        { s with
          engine := some e'
          segments := if stored then e'.inner.segments else s.segments
          watermark := if stored then e'.inner.watermark else s.watermark }

/-- Reclaim the log at the watermark of the seal.
Source: `lib.rs` `Storage::seal`, after the registration -/
def reclaim (c : ℕ) (fs : Faults) (s : Store D P) : Option (Store D P) :=
  match s.engine with
  | none => none
  | some e =>
      match e.seals c with
      | none => none
      | some x =>
          match exec xxh3 s.wal (.reclaim x.watermark) fs with
          | none => none
          | some wal => (e.step (.reclaim c (reclaimOk s.wal x.watermark fs))).map fun e' =>
              { s with wal := wal, engine := some e' }

/-- The call on the log that a cut interrupts; `none` when the cut is not enabled. -/
def cutCall (s : Store D P) : Cut → Option (Option (WriteAhead.Call × Faults))
  | .none => some none
  | .open rotateBytes fs => some (some (.open rotateBytes, fs))
  | .append signal payload fs => some (some (.append signal payload, fs))
  | .sync fs => some (some (.sync, fs))
  | .reclaim c fs =>
      match s.engine.bind fun e => e.seals c with
      | none => none
      | some x =>
          match x.stage with
          | .reclaim => some (some (.reclaim x.watermark, fs))
          | _ => none

/-- The process goes, and what was acknowledged without being durable. -/
def crash (cut : Cut) (keep : ℕ → ℕ) (drop : ℕ → Bool) (s : Store D P) : Option (Store D P) :=
  match s.cutCall cut with
  | none => none
  | some call =>
      (WriteAhead.step xxh3 { s.wal with watermark := s.watermark } (.crash call keep drop)).map
        fun wal => { s with
          wal := wal
          engine := none
          acked := s.acked.filter fun r => r.lsn ≤ s.watermark || r ∈ s.wal.must }

/-- One event. -/
def step (s : Store D P) : StoreEvent → Option (Store D P)
  | .open rotateBytes => s.reopen xxh3 decode promote rotateBytes
  | .ingest signal payload sync appendFaults syncFaults fails =>
      s.ingest xxh3 decode signal payload sync appendFaults syncFaults fails
  | .syncWal fs => (exec xxh3 s.wal .sync fs).map fun wal => { s with wal := wal }
  | .freeze c => s.sealStep (.freeze c)
  | .write c ok path => s.sealStep (.write c ok path)
  | .register c stored ok => s.register c stored ok
  | .reclaim c fs => s.reclaim xxh3 c fs
  | .crash cut keep drop => s.crash xxh3 cut keep drop

end system

/-! ## The conditions -/

/-- The registration of a seal is in order: every row that is still buffered or staged by another seal is above its
watermark, and no registered row is. -/
structure InOrder (e : Engine D P) (x : SealCall D P) : Prop where
  buffered : ∀ t, ∀ row ∈ batchRows (e.inner.buffers t), x.watermark < row.lsn
  staged : ∀ p ∈ e.inner.sealing, p.1 ≠ x.sealGen → ∀ t, ∀ row ∈ batchRows (p.2 t),
    x.watermark < row.lsn
  registered : ∀ t, ∀ row ∈ segmentRows (e.inner.segments t), row.lsn ≤ x.watermark

/-- Registrations that reach the disk are in order. -/
def RegisterOk (s : Store D P) : StoreEvent → Prop
  | .register c true _ => ∀ e x, s.engine = some e → e.seals c = some x → InOrder e x
  | _ => True

/-- The log is not torn, and its append target is not listed as closed. -/
def LogClean (xxh3 : Bytes → UInt64) (s : Store D P) : Prop :=
  WriteAhead.CleanDir xxh3 s.wal.dir ∧
    ∀ w n, s.wal.live = some (w, n) → ∀ p ∈ w.closed, p.1 ≠ w.seq

/-- Appends are made to a clean log. -/
def LogOk (xxh3 : Bytes → UInt64) (s : Store D P) : StoreEvent → Prop
  | .ingest .. => LogClean xxh3 s
  | .crash (.append ..) _ _ => LogClean xxh3 s
  | _ => True

end Store

end Imbh.Storage
