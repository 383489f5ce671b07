import Imbh.Lib.FrameScan
import Imbh.Manifest.Codec

/-!
# The manifest files (`manifest.rs`)

`CURRENT` names the active log `MANIFEST-<n>`, whose frames `| len(4) | xxh3(8) | payload |` are
edits. A persist appends one frame, or rolls: it writes a log of a single checkpoint and then lets
`CURRENT` name it.

A file has the bytes a reader of it sees, of which the first `synced` are on stable storage. A
directory operation takes effect at once; the renames of `CURRENT` behind the last fsync of the
directory may still be lost, and then `CURRENT` is one of `earlier`. A temporary file, and a file that
`CURRENT` does not name, does not matter to any of the functions below.
-/

namespace Imbh.ManifestLog

open Lib List
open Storage (Table)

/-- Fold the delta log into a fresh checkpoint once it reaches this size.
Source: `manifest.rs` `CHECKPOINT_BYTES` -/
def checkpointBytes : ℕ := 2 ^ 18

/-- Fixed frame header: len(4) + xxh3(8).
Source: `manifest.rs` `HEADER` -/
def header : ℕ := 4 + 8

/-- Source: `manifest.rs` `CURRENT_READ_TRIES` -/
def currentReadTries : ℕ := 6

/-! ## Frames -/

section frames

variable (xxh3 : Bytes → UInt64)

/-- `payload.len() as u32` keeps the low 32 bits of the length.
Source: `manifest.rs` `frame` -/
def frame (payload : Bytes) : Bytes :=
  leBytes 4 (payload.length % 2 ^ 32) ++ leBytes 8 (xxh3 payload).toNat ++ payload

/-- One round of the scan, at the bytes that are left: the payload and the bytes it takes; `none` in
each of the cases in which the loop ends.
Source: `manifest.rs` `scan_frames`, the body of the `while` -/
def nextFrame (bytes : Bytes) : Option (Bytes × ℕ × Unit) :=
  if bytes.length < header then none else
  let len := ofLe (bytes.take 4)
  let ck := ofLe ((bytes.drop 4).take 8)
  if bytes.length < header + len then none else -- torn tail
  let payload := (bytes.drop header).take len
  if (xxh3 payload).toNat ≠ ck then none else -- corrupt tail
  some (payload, header + len, ())

@[simp] theorem frame_length (payload : Bytes) :
    (frame xxh3 payload).length = header + payload.length := by
  simp [frame, header]
  omega

/-- The length field of a frame, in any bytes that begin with it. -/
theorem ofLe_take_frame {payload t : Bytes} (hp : payload.length < 2 ^ 32)
    (ht : leBytes 4 payload.length <+: t) : ofLe (t.take 4) = payload.length := by
  obtain ⟨u, rfl⟩ := ht
  rw [take_append_of_length (by simp)]
  exact ofLe_leBytes_of_lt (by simpa using hp)

theorem frame_eq {payload : Bytes} (hp : payload.length < 2 ^ 32) : frame xxh3 payload =
    leBytes 4 payload.length ++ (leBytes 8 (xxh3 payload).toNat ++ payload) := by
  rw [frame, Nat.mod_eq_of_lt hp, append_assoc]

/-- A written frame is read back, whatever bytes follow it. -/
theorem nextFrame_frame (payload rest : Bytes) (hp : payload.length < 2 ^ 32) :
    nextFrame xxh3 (frame xxh3 payload ++ rest) =
      some (payload, (frame xxh3 payload).length, ()) := by
  have henc : frame xxh3 payload ++ rest = leBytes 4 payload.length ++
      (leBytes 8 (xxh3 payload).toNat ++ (payload ++ rest)) := by
    rw [frame_eq xxh3 hp, append_assoc, append_assoc]
  have hlen : ofLe ((frame xxh3 payload ++ rest).take 4) = payload.length :=
    ofLe_take_frame hp (henc ▸ prefix_append _ _)
  have hd4 : (frame xxh3 payload ++ rest).drop 4 =
      leBytes 8 (xxh3 payload).toNat ++ (payload ++ rest) := by
    rw [henc]
    exact drop_append_of_length (m := 0) (by simp)
  have hd12 : (frame xxh3 payload ++ rest).drop header = payload ++ rest := by
    rw [show header = 4 + 8 by rfl, ← drop_drop, hd4]
    exact drop_append_of_length (m := 0) (by simp)
  have hck : ofLe (((frame xxh3 payload ++ rest).drop 4).take 8) = (xxh3 payload).toNat := by
    rw [hd4, take_append_of_length (by simp)]
    exact ofLe_leBytes_of_lt (UInt64.toNat_lt _)
  have htotal : (frame xxh3 payload ++ rest).length = header + payload.length + rest.length := by
    simp
  unfold nextFrame
  rw [if_neg (by omega)]
  simp only [hlen, hck, hd12, take_left]
  rw [if_neg (by omega), if_neg (by simp)]
  simp

/-- A frame that was cut short is not read as a frame. -/
theorem nextFrame_torn (payload t : Bytes) (hp : payload.length < 2 ^ 32)
    (ht : t <+: frame xxh3 payload) (hne : t ≠ frame xxh3 payload) : nextFrame xxh3 t = none := by
  have hlt : t.length < header + payload.length := by
    have hle := ht.length_le
    have : t.length ≠ (frame xxh3 payload).length := fun h => hne (ht.eq_of_length h)
    simp only [frame_length] at hle this
    omega
  unfold nextFrame
  by_cases hh : t.length < header
  · rw [if_pos hh]
  · have h4 : leBytes 4 payload.length <+: t := by
      refine prefix_of_prefix_length_le ?_ ht ?_
      · rw [frame_eq xxh3 hp]
        exact prefix_append _ _
      · simp only [header] at hh
        simp
        omega
    rw [if_neg hh, ofLe_take_frame hp h4]
    simp only [hlt, if_true]

/-- The manifest log as an instance of the framing library. -/
def manifestFraming : Framing UInt8 Bytes Unit where
  enc := frame xxh3
  item _ := nextFrame xxh3
  Valid payload := payload.length < 2 ^ 32
  Fits _ _ := True
  next _ _ := ()
  enc_ne_nil payload h := by
    have := congrArg List.length h
    simp [header] at this
  item_enc _ payload rest hp _ := nextFrame_frame xxh3 payload rest hp
  item_torn _ payload t hp ht hne := nextFrame_torn xxh3 payload t hp ht hne
  item_nil _ := rfl

/-- The payloads of the intact frames, and how many bytes they take.
Source: `manifest.rs` `scan_frames` -/
def scanFrames (bytes : Bytes) : List Bytes × ℕ := (manifestFraming xxh3).scan () bytes

/-- Apply the edits of the frames one after the other.
Source: `manifest.rs` `replay`, the `for` -/
def replayPayloads : List Bytes → Manifest → Except ManifestError Manifest
  | [], m => .ok m
  | payload :: rest, m =>
      match decodeEdit payload with
      | .error e => .error e
      | .ok e => replayPayloads rest (m.applyEdit e)

end frames

/-! ## The directory -/

/-- A manifest log. -/
structure LogFile where
  bytes : Bytes
  synced : ℕ

/-- The files of the manifest: what `CURRENT` holds and may fall back to, the logs by number, and
the whole-file manifest of an older database. -/
structure Dir where
  current : Option Text
  earlier : List (Option Text)
  logs : ℕ → Option LogFile
  legacy : Option Bytes

/-- What the name of a log begins with. -/
def namePrefix : Text := "MANIFEST-".toList

/-- Source: `manifest.rs` `manifest_name` -/
def manifestName (n : ℕ) : Text :=
  namePrefix ++ (List.replicate (6 - (decimal n).length) '0' ++ decimal n)

/-- What `CURRENT` holds. -/
def currentText (n : ℕ) : Text := manifestName n ++ ['\n']

/-- The file operations of one call that fail: creating or opening the log, writing it after that
many bytes, its fsync, everything up to the rename of `CURRENT`, the fsync of the directory, and
unlinking a file that is not needed any more. -/
structure Faults where
  create : Bool := false
  write : Option ℕ := none
  sync : Bool := false
  rename : Bool := false
  dirFsync : Bool := false
  unlink : Bool := false

/-- Append-only writer: the active log (0 when there is none yet), the bytes it takes to be in it,
and the state it takes to be the last one persisted.
Source: `manifest.rs` `ManifestWriter` -/
structure ManifestWriter where
  currentNum : ℕ := 0
  logBytes : ℕ := 0
  last : Manifest := {}

/-- One log is replaced, or unlinked. -/
def Dir.setLog (d : Dir) (n : ℕ) (f : Option LogFile) : Dir :=
  { d with logs := Function.update d.logs n f }

/-- A write that fails leaves a proper prefix. -/
def written (fs : Faults) (bytes : Bytes) : Bytes :=
  match fs.write with
  | some k => bytes.take (min k (bytes.length - 1))
  | none => bytes

/-- Do the writing and its fsync succeed? -/
def Faults.writeOk (fs : Faults) : Bool := fs.write.isNone && !fs.sync

/-- Create or truncate a log, write one frame and fsync it.
Source: `manifest.rs` `write_manifest_file` -/
def writeManifestFile (fs : Faults) (n : ℕ) (bytes : Bytes) (d : Dir) :
    Dir × Except ManifestError Unit :=
  if fs.create then (d, .error .storageIo) else
  let bytes := written fs bytes
  if fs.writeOk then (d.setLog n (some ⟨bytes, bytes.length⟩), .ok ())
  else (d.setLog n (some ⟨bytes, 0⟩), .error .storageIo)

/-- Atomically point `CURRENT` at a log.
Source: `manifest.rs` `write_current` -/
def writeCurrent (fs : Faults) (n : ℕ) (d : Dir) : Dir × Except ManifestError Unit :=
  if fs.rename then (d, .error .storageIo) else
  let d := { d with current := some (currentText n), earlier := d.current :: d.earlier }
  if fs.dirFsync then (d, .error .storageIo) else ({ d with earlier := [] }, .ok ())

/-- Source: `manifest.rs` `read_current` -/
def readCurrent (d : Dir) : Except ManifestError (Option ℕ) :=
  match d.current with
  | none => .ok none
  | some s =>
      let name := trim s
      match (namePrefix.isPrefixOf? name).bind parseU64 with
      | some n => .ok (some n.toNat)
      | none =>
          .error (.corruptManifest none ("invalid CURRENT: " ++ (String.ofList name).quote).toList)

/-- What `CURRENT` names is read back. -/
theorem readCurrent_currentText {d : Dir} {n : ℕ} (hn : n < 2 ^ 64)
    (hd : d.current = some (currentText n)) : readCurrent d = .ok (some n) := by
  have hprefix : namePrefix = 'M' :: "ANIFEST-".toList := by decide
  have htrim : trim (currentText n) = manifestName n := by
    refine trim_concat (by decide) (fun x hx => ?_) (fun x hx => ?_) ?_
    · rw [manifestName, hprefix] at hx
      obtain rfl : 'M' = x := Option.some.inj hx
      decide
    · have hne : List.replicate (6 - (decimal n).length) '0' ++ decimal n ≠ [] :=
        append_ne_nil_of_right_ne_nil _ (decimal_ne_nil n)
      have hlast : (manifestName n).getLast? = (decimal n).getLast? := by
        rw [manifestName, getLast?_append_of_ne_nil _ hne,
          getLast?_append_of_ne_nil _ (decimal_ne_nil n)]
      have hmem : x ∈ decimal n := mem_of_getLast? (hlast ▸ hx)
      exact not_isWhitespace_of_isDigit (isDigit_of_mem_decimal hmem)
    · rw [manifestName, hprefix]
      exact cons_ne_nil _ _
  unfold readCurrent
  rw [hd]
  simp only [htrim, manifestName, isPrefixOf?_append, Option.bind_some, parseU64_zeros _ hn]
  rw [UInt64.toNat_ofNat_of_lt' hn]

theorem currentText_injective {m n : ℕ} (hm : m < 2 ^ 64) (hn : n < 2 ^ 64)
    (h : currentText m = currentText n) : m = n := by
  have hread := readCurrent_currentText (d := ⟨some (currentText m), [], fun _ => none, none⟩) hm rfl
  rw [readCurrent_currentText hn (congrArg some h)] at hread
  exact (Option.some.inj (Except.ok.inj hread)).symm

section writer

variable (xxh3 : Bytes → UInt64)

/-- Replay one log; `none` if the file is gone.
Source: `manifest.rs` `replay` -/
def replay (d : Dir) (n : ℕ) : Except ManifestError (Option Manifest) :=
  match d.logs n with
  | none => .ok none
  | some f => (replayPayloads (scanFrames xxh3 f.bytes).1 {}).map some

/-- Append one frame to the active log and fsync it.
Source: `manifest.rs` `ManifestWriter::append_frame` -/
def appendFrame (fs : Faults) (bytes : Bytes) (d : Dir) (w : ManifestWriter) :
    Dir × Except ManifestError Unit :=
  match d.logs w.currentNum with
  | none => (d, .error .storageIo)
  | some f =>
      if fs.create then (d, .error .storageIo) else
      let bytes := f.bytes ++ written fs bytes
      if fs.writeOk then (d.setLog w.currentNum (some ⟨bytes, bytes.length⟩), .ok ())
      else (d.setLog w.currentNum (some ⟨bytes, f.synced⟩), .error .storageIo)

/-- Write a log of a single checkpoint, flip `CURRENT` to it, then unlink the previous one.
Source: `manifest.rs` `ManifestWriter::write_checkpoint` -/
def writeCheckpoint (fs : Faults) (state : Manifest) (num : ℕ) (d : Dir) (w : ManifestWriter) :
    Dir × ManifestWriter × Except ManifestError Unit :=
  let payload := encodeEdit state.checkpointEdit
  match writeManifestFile fs num (frame xxh3 payload) d with
  | (d, .error e) => (d, w, .error e)
  | (d, .ok ()) =>
      match writeCurrent fs num d with
      | (d, .error e) => (d, w, .error e)
      | (d, .ok ()) =>
          let prev := w.currentNum
          let d := if prev ≠ 0 ∧ prev ≠ num ∧ ¬ fs.unlink then d.setLog prev none else d
          (d, { w with currentNum := num, logBytes := header + payload.length }, .ok ())

/-- The edit of a persist, as bytes. -/
def deltaPayload (w : ManifestWriter) (view : Manifest) : Bytes := encodeEdit (w.last.diff view)

/-- Source: `manifest.rs` `ManifestWriter::persist` -/
def persist (fs : Faults) (view : Manifest) (d : Dir) (w : ManifestWriter) :
    Dir × ManifestWriter × Except ManifestError Unit :=
  if (w.last.diff view).isEmpty then (d, w, .ok ()) else
  let done : Dir × ManifestWriter × Except ManifestError Unit :=
    if w.currentNum = 0 then writeCheckpoint xxh3 fs view 1 d w else
    let payload := deltaPayload w view
    let frameLen := header + payload.length
    if checkpointBytes < w.logBytes + frameLen then
      writeCheckpoint xxh3 fs view (w.currentNum + 1) d w
    else
      match appendFrame fs (frame xxh3 payload) d w with
      | (d, .error e) => (d, w, .error e)
      | (d, .ok ()) => (d, { w with logBytes := w.logBytes + frameLen }, .ok ())
  match done with
  | (d, w, .ok ()) => (d, { w with last := view }, .ok ())
  | (d, w, .error e) => (d, w, .error e)

/-- Open the manifest for a writer. The writer of a database that was just migrated has the empty
state as its last one.
Source: `manifest.rs` `open` -/
def openManifest (fs : Faults) (d : Dir) : Dir × Except ManifestError (Manifest × ManifestWriter) :=
  match readCurrent d with
  | .error e => (d, .error e)
  | .ok (some n) =>
      match replay xxh3 d n with
      | .error e => (d, .error e)
      | .ok none =>
          (d, .error (.corruptManifest none
            "CURRENT names a manifest log that does not exist".toList))
      | .ok (some m) =>
          let logBytes := ((d.logs n).map (·.bytes.length)).getD 0
          (d, .ok (m, ⟨n, logBytes, m⟩))
  | .ok none =>
      match d.legacy with
      | none => (d, .ok ({}, {}))
      | some file =>
          match loadLegacy file with
          | .error e => (d, .error e)
          | .ok state =>
              match writeCheckpoint xxh3 fs state 1 d {} with
              | (d, _, .error e) => (d, .error e)
              | (d, w, .ok ()) =>
                  (if fs.unlink then d else { d with legacy := none }, .ok (state, w))

/-- The loop of `read`. -/
def readLoop : ℕ → Dir → Except ManifestError Manifest
  | 0, _ => .error (.storageMsg
      "manifest read: CURRENT kept moving (writer rolling continuously)".toList)
  | tries + 1, d =>
      match readCurrent d with
      | .error e => .error e
      | .ok (some n) =>
          match replay xxh3 d n with
          | .error e => .error e
          | .ok (some m) => .ok m
          | .ok none => readLoop tries d
      | .ok none =>
          match d.legacy with
          | some file => loadLegacy file
          | none => .ok {}

/-- Read the manifest for a reader.
Source: `manifest.rs` `read` -/
def read (d : Dir) : Except ManifestError Manifest := readLoop xxh3 currentReadTries d

end writer

/-- What a crash leaves: of every log a prefix that has all of its synced bytes, and `CURRENT` as it
is or as it was before a rename that was not on stable storage. -/
def crashDir (keep : ℕ → ℕ) (back : Option ℕ) (d : Dir) : Dir where
  current := (back.bind fun i => d.earlier[i]?).getD d.current
  earlier := if back.isSome then [] else d.earlier
  logs n := (d.logs n).map fun f => { f with bytes := f.bytes.take (max f.synced (keep n)) }
  legacy := d.legacy

end Imbh.ManifestLog
