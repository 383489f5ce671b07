import Imbh.Lib.Bytes
import Imbh.Lib.FrameScan

/-!
# WAL frames (`wal.rs`)

A frame is `(len, xxh3, lsn, signal, payload)`: a 21-byte header and the payload. The checksum
covers the length, the LSN, the signal tag and the payload. `scanFrames` is the recovery scan: it
takes frames off the front of a segment's bytes and stops at the first one that is torn, fails
its checksum or does not raise the LSN.

The checksum function is a third-party one; it is the parameter `xxh3` throughout. Nothing below
needs a property of it: a frame that was written carries the value the scan recomputes, and a
frame that was cut short is recognised by its length field.

`walFraming` is the instance of the framing library: the laws say that the scan reads written
frames back and takes nothing off a frame that was cut short. `scan_cut_exact` is what a scan of a log
gives that is whole or cut anywhere.
-/

namespace Imbh.WriteAhead

open Lib List

/-- One decoded WAL frame.
Source: `wal.rs` `WalRecord` -/
structure WalRecord where
  lsn : ℕ
  signal : UInt8
  payload : Bytes
  deriving DecidableEq, Repr

/-- Fixed frame header size: len(4) + xxh3(8) + lsn(8) + signal(1).
Source: `wal.rs` `HEADER` -/
def header : ℕ := 4 + 8 + 8 + 1

section frames

variable (xxh3 : Bytes → UInt64)

/-- The checksum an intact frame must carry; it covers the `len` prefix too.
Source: `wal.rs` `checksum` -/
def checksum (len lsn : ℕ) (signal : UInt8) (payload : Bytes) : ℕ :=
  (xxh3 (leBytes 4 len ++ leBytes 8 lsn ++ [signal] ++ payload)).toNat

/-- Serialize one frame. `payload.len() as u32` keeps the low 32 bits of the length.
Source: `wal.rs` `encode_frame` -/
def encodeFrame (lsn : ℕ) (signal : UInt8) (payload : Bytes) : Bytes :=
  let len := payload.length % 2 ^ 32
  let ck := checksum xxh3 len lsn signal payload
  leBytes 4 len ++ leBytes 8 ck ++ leBytes 8 lsn ++ [signal] ++ payload

/-- One round of the recovery scan, at the bytes that are left: the frame, the bytes it takes and
the new last LSN; `none` in each of the cases in which the loop ends.
Source: `wal.rs` `scan_frames`, the body of the `while` -/
def nextFrame (last_lsn : Option ℕ) (bytes : Bytes) : Option (WalRecord × ℕ × Option ℕ) :=
  if bytes.length < header then none else
  let len := ofLe (bytes.take 4)
  let ck := ofLe ((bytes.drop 4).take 8)
  let lsn := ofLe ((bytes.drop 12).take 8)
  let signal := (bytes.drop 20).headD 0
  if bytes.length < header + len then none else -- torn tail
  let payload := (bytes.drop header).take len
  if checksum xxh3 len lsn signal payload ≠ ck then none else -- corrupt tail
  if last_lsn.any (lsn ≤ ·) then none else -- LSNs are strictly increasing
  some (⟨lsn, signal, payload⟩, header + len, some lsn)

/-- The frames of a log as the framing library sees them. -/
def WalRecord.encode (r : WalRecord) : Bytes := encodeFrame xxh3 r.lsn r.signal r.payload

/-- The records a frame can hold: `Wal::append` refuses longer payloads and an LSN is a `u64`. -/
def WalRecord.Valid (r : WalRecord) : Prop := r.payload.length < 2 ^ 32 ∧ r.lsn < 2 ^ 64

@[simp] theorem encodeFrame_length (lsn : ℕ) (signal : UInt8) (payload : Bytes) :
    (encodeFrame xxh3 lsn signal payload).length = header + payload.length := by
  simp [encodeFrame, header]
  omega

/-- The length field of a frame, in any prefix that contains it. -/
theorem ofLe_take_of_prefix {r : WalRecord} (hr : r.Valid) {t : Bytes}
    (ht : t <+: r.encode xxh3) (hlen : 4 ≤ t.length) :
    ofLe (t.take 4) = r.payload.length := by
  have hpre : t <+: leBytes 4 (r.payload.length % 2 ^ 32) ++
      (leBytes 8 (checksum xxh3 (r.payload.length % 2 ^ 32) r.lsn r.signal r.payload) ++
        leBytes 8 r.lsn ++ [r.signal] ++ r.payload) := by
    simpa [WalRecord.encode, encodeFrame] using ht
  rw [take_of_prefix_append (by simp) hpre hlen, Nat.mod_eq_of_lt hr.1]
  exact ofLe_leBytes_of_lt (by simpa using hr.1)

/-- A written frame is read back, whatever bytes follow it. -/
theorem nextFrame_encode (last_lsn : Option ℕ) (r : WalRecord) (rest : Bytes) (hr : r.Valid)
    (hlast : ∀ l ∈ last_lsn, l < r.lsn) :
    nextFrame xxh3 last_lsn (r.encode xxh3 ++ rest) =
      some (r, (r.encode xxh3).length, some r.lsn) := by
  obtain ⟨hp, hl⟩ := hr
  have hmod : r.payload.length % 2 ^ 32 = r.payload.length := Nat.mod_eq_of_lt hp
  set ck := checksum xxh3 r.payload.length r.lsn r.signal r.payload with hck
  have henc : r.encode xxh3 ++ rest = leBytes 4 r.payload.length ++ (leBytes 8 ck ++
      (leBytes 8 r.lsn ++ (r.signal :: (r.payload ++ rest)))) := by
    rw [WalRecord.encode, encodeFrame, hmod, hck]
    simp only [append_assoc, cons_append, nil_append]
  have hlen : ofLe ((r.encode xxh3 ++ rest).take 4) = r.payload.length := by
    rw [henc, take_append_of_length (by simp)]
    exact ofLe_leBytes_of_lt (by simpa using hp)
  have hd4 : (r.encode xxh3 ++ rest).drop 4 = leBytes 8 ck ++
      (leBytes 8 r.lsn ++ (r.signal :: (r.payload ++ rest))) := by
    rw [henc]
    exact drop_append_of_length (m := 0) (by simp)
  have hd12 : (r.encode xxh3 ++ rest).drop 12 =
      leBytes 8 r.lsn ++ (r.signal :: (r.payload ++ rest)) := by
    rw [show 12 = 4 + 8 by rfl, ← drop_drop, hd4]
    exact drop_append_of_length (m := 0) (by simp)
  have hd20 : (r.encode xxh3 ++ rest).drop 20 = r.signal :: (r.payload ++ rest) := by
    rw [show 20 = 12 + 8 by rfl, ← drop_drop, hd12]
    exact drop_append_of_length (m := 0) (by simp)
  have hd21 : (r.encode xxh3 ++ rest).drop header = r.payload ++ rest := by
    rw [show header = 20 + 1 by rfl, ← drop_drop, hd20]
    rfl
  have hckr : ofLe (((r.encode xxh3 ++ rest).drop 4).take 8) = ck := by
    rw [hd4, take_append_of_length (by simp)]
    exact ofLe_leBytes_of_lt (by rw [hck]; exact UInt64.toNat_lt _)
  have hlsn : ofLe (((r.encode xxh3 ++ rest).drop 12).take 8) = r.lsn := by
    rw [hd12, take_append_of_length (by simp)]
    exact ofLe_leBytes_of_lt (by simpa using hl)
  have hsig : ((r.encode xxh3 ++ rest).drop 20).headD 0 = r.signal := by rw [hd20]; rfl
  have htotal : (r.encode xxh3 ++ rest).length = header + r.payload.length + rest.length := by
    simp [WalRecord.encode]
  have hany : last_lsn.any (r.lsn ≤ ·) = false := by
    cases last_lsn with
    | none => rfl
    | some l => simpa using hlast l rfl
  unfold nextFrame
  rw [if_neg (by omega)]
  simp only [hlen, hckr, hlsn, hsig, hd21, take_left]
  rw [if_neg (by omega), if_neg (by simp [hck]), if_neg (by simp [hany])]
  simp [WalRecord.encode]

/-- A frame that was cut short is not read as a frame. -/
theorem nextFrame_torn (last_lsn : Option ℕ) (r : WalRecord) (t : Bytes) (hr : r.Valid)
    (ht : t <+: r.encode xxh3) (hne : t ≠ r.encode xxh3) : nextFrame xxh3 last_lsn t = none := by
  have hlt : t.length < header + r.payload.length := by
    have hle := ht.length_le
    have : t.length ≠ (r.encode xxh3).length := fun h => hne (ht.eq_of_length h)
    simp only [WalRecord.encode, encodeFrame_length] at hle this
    omega
  unfold nextFrame
  by_cases hh : t.length < header
  · rw [if_pos hh]
  · have h4 : 4 ≤ t.length := by simp only [header] at hh; omega
    rw [if_neg hh, ofLe_take_of_prefix xxh3 hr ht h4]
    simp only [hlt, if_true]

/-- The WAL as an instance of the framing library: the reader's state is the last LSN. -/
def walFraming : Framing UInt8 WalRecord (Option ℕ) where
  enc := WalRecord.encode xxh3
  item := nextFrame xxh3
  Valid := WalRecord.Valid
  Fits last r := ∀ l ∈ last, l < r.lsn
  next _ r := some r.lsn
  enc_ne_nil r h := by
    have := congrArg List.length h
    simp [WalRecord.encode, header] at this
  item_enc last r rest hr hfit := nextFrame_encode xxh3 last r rest hr hfit
  item_torn last r t hr ht hne := nextFrame_torn xxh3 last r t hr ht hne
  item_nil _ := rfl

/-- Scan the intact frames out of one segment's bytes, seeded with `last_lsn`: the frames, the
bytes consumed, and whether the whole buffer parsed cleanly to EOF. At each early return the
position is before the end of the buffer, so the third component is `pos == bytes.len()` at
every exit.
Source: `wal.rs` `scan_frames` -/
def scanFrames (bytes : Bytes) (last_lsn : Option ℕ) : List WalRecord × ℕ × Bool :=
  let r := (walFraming xxh3).scan last_lsn bytes
  (r.1, r.2, r.2 == bytes.length)

/-! ## Logs of records -/

/-- The bytes of a list of records. -/
abbrev encodeRecords (rs : List WalRecord) : Bytes := (walFraming xxh3).encodeAll rs

theorem encodeRecords_append (rs ss : List WalRecord) :
    encodeRecords xxh3 (rs ++ ss) = encodeRecords xxh3 rs ++ encodeRecords xxh3 ss :=
  (walFraming xxh3).encodeAll_append rs ss

theorem encodeRecords_singleton (r : WalRecord) : encodeRecords xxh3 [r] = r.encode xxh3 :=
  append_nil _

/-- The bytes a write cut short leaves behind the last whole frame. -/
abbrev TornTail (t : Bytes) : Prop := (walFraming xxh3).Torn t

/-- Records with valid sizes, LSNs strictly increasing and above the seed. -/
def LsnOrdered (last_lsn : Option ℕ) (rs : List WalRecord) : Prop :=
  (∀ r ∈ rs, r.Valid) ∧ (∀ l ∈ last_lsn, ∀ r ∈ rs, l < r.lsn) ∧
    rs.Pairwise fun a b => a.lsn < b.lsn

/-- The scan accepts LSN-ordered records. -/
theorem accepts_of_lsnOrdered {last_lsn : Option ℕ} {rs : List WalRecord}
    (h : LsnOrdered last_lsn rs) : (walFraming xxh3).Accepts last_lsn rs := by
  induction rs generalizing last_lsn with
  | nil => trivial
  | cons r rs ih =>
      obtain ⟨hv, hl, hp⟩ := h
      obtain ⟨hr, hp'⟩ := pairwise_cons.mp hp
      refine ⟨hv r mem_cons_self, fun l hl' => hl l hl' r mem_cons_self, ih ?_⟩
      refine ⟨fun x hx => hv x (mem_cons_of_mem _ hx), ?_, hp'⟩
      intro l hl' x hx
      obtain rfl : r.lsn = l := by simpa [walFraming] using hl'
      exact hr x hx

/-- **The recovery scan of a written log.** The frames come back in order, exactly their bytes are
consumed, and the scan is complete when nothing was cut short. -/
theorem scanFrames_encodeRecords {last_lsn : Option ℕ} {rs : List WalRecord} {t : Bytes}
    (h : LsnOrdered last_lsn rs) (ht : TornTail xxh3 t) :
    scanFrames xxh3 (encodeRecords xxh3 rs ++ t) last_lsn =
      (rs, (encodeRecords xxh3 rs).length, t.isEmpty) := by
  have := (walFraming xxh3).scan_encodeAll (accepts_of_lsnOrdered xxh3 h) ht
  simp only [scanFrames, this]
  cases t with
  | nil => simp
  | cons b t => simp

/-- What a frame says is checked against the last LSN. -/
theorem nextFrame_lsn {last_lsn next : Option ℕ} {bytes : Bytes} {r : WalRecord} {n : ℕ}
    (h : nextFrame xxh3 last_lsn bytes = some (r, n, next)) : (∀ l ∈ last_lsn, l < r.lsn) ∧ next = some r.lsn := by
  unfold nextFrame at h
  split at h
  · cases h
  dsimp only at h
  split at h
  · cases h
  split at h
  · cases h
  split at h
  · cases h
  · rename_i hany
    cases h
    refine ⟨fun l hl => ?_, rfl⟩
    obtain rfl := Option.mem_def.mp hl
    simpa using hany

/-- Of whatever bytes, the scan reads records with increasing LSNs. -/
theorem scanFrames_increasing (bytes : Bytes) (last_lsn : Option ℕ) :
    (∀ l ∈ last_lsn, ∀ r ∈ (scanFrames xxh3 bytes last_lsn).1, l < r.lsn) ∧
      (scanFrames xxh3 bytes last_lsn).1.Pairwise fun a b => a.lsn < b.lsn := by
  show (∀ l ∈ last_lsn, ∀ r ∈ ((walFraming xxh3).scanLoop bytes.length last_lsn bytes).1, l < r.lsn) ∧
    ((walFraming xxh3).scanLoop bytes.length last_lsn bytes).1.Pairwise fun a b => a.lsn < b.lsn
  generalize bytes.length = fuel
  induction fuel generalizing bytes last_lsn with
  | zero => exact ⟨fun _ _ r hr => absurd hr not_mem_nil, Pairwise.nil⟩
  | succ fuel ih =>
      rw [Framing.scanLoop]
      rcases hitem : (walFraming xxh3).item last_lsn bytes with _ | ⟨r, n, next⟩
      · exact ⟨fun _ _ r hr => absurd hr not_mem_nil, Pairwise.nil⟩
      · obtain ⟨hlast, rfl⟩ := nextFrame_lsn xxh3 hitem
        obtain ⟨habove, hpairwise⟩ := ih (bytes.drop n) (some r.lsn)
        refine ⟨fun l hl x hx => ?_, pairwise_cons.mpr ⟨habove r.lsn rfl, hpairwise⟩⟩
        rcases mem_cons.mp hx with rfl | hx
        · exact hlast l hl
        · exact (hlast l hl).trans (habove r.lsn rfl x hx)

/-! ## Cut logs -/

/-- The records whose frames are within so many bytes of the log. -/
def framesWithin : List WalRecord → ℕ → List WalRecord
  | [], _ => []
  | r :: rs, n =>
      if (r.encode xxh3).length ≤ n then r :: framesWithin rs (n - (r.encode xxh3).length) else []

/-- They are the longest run of records from the first one that fits. -/
theorem framesWithin_eq_take {rs : List WalRecord} {n k : ℕ} (hk : k ≤ rs.length)
    (hfit : (encodeRecords xxh3 (rs.take k)).length ≤ n)
    (hmax : ∀ j ≤ rs.length, (encodeRecords xxh3 (rs.take j)).length ≤ n → j ≤ k) :
    framesWithin xxh3 rs n = rs.take k := by
  have hcons (r : WalRecord) (rs : List WalRecord) : (encodeRecords xxh3 (r :: rs)).length =
      (r.encode xxh3).length + (encodeRecords xxh3 rs).length := length_append
  induction rs generalizing n k with
  | nil => rw [framesWithin, take_nil]
  | cons r rs ih =>
      rw [framesWithin]
      split
      · rename_i hr
        obtain ⟨k, rfl⟩ : ∃ k', k = k' + 1 := by
          have hone := hmax 1 (by simp) (by rw [take_succ_cons, take_zero, hcons]; simpa using hr)
          exact ⟨k - 1, by omega⟩
        rw [take_succ_cons, hcons] at hfit
        rw [take_succ_cons, ih (by simpa using hk) (by omega)]
        intro j hj hle
        have hnext := hmax (j + 1) (by simpa using hj) (by rw [take_succ_cons, hcons]; omega)
        omega
      · rename_i hr
        cases k with
        | zero => rfl
        | succ k =>
            rw [take_succ_cons, hcons] at hfit
            omega

/-- **The recovery scan of a cut log.** Of the frames of records with increasing LSNs all are read back, and of any
prefix of their bytes those that are within it; the bytes consumed end with the last of them. -/
theorem scan_cut_exact (last_lsn : Option ℕ) (rs : List WalRecord) (h : LsnOrdered last_lsn rs) :
    scanFrames xxh3 (encodeRecords xxh3 rs) last_lsn = (rs, (encodeRecords xxh3 rs).length, true) ∧
      ∀ n, ∃ clean, scanFrames xxh3 ((encodeRecords xxh3 rs).take n) last_lsn =
        (framesWithin xxh3 rs n, (encodeRecords xxh3 (framesWithin xxh3 rs n)).length, clean) := by
  constructor
  · have hscan := scanFrames_encodeRecords xxh3 h (walFraming xxh3).torn_nil
    rwa [append_nil] at hscan
  · intro n
    have hpart : (encodeRecords xxh3 rs).take n <+: encodeRecords xxh3 rs ++ [] := by
      rw [append_nil]
      exact take_prefix n _
    obtain ⟨k, u, hk, hu, hcut, hmax⟩ := (walFraming xxh3).prefix_encodeAll h.1 (walFraming xxh3).torn_nil hpart
    have hlen : ((encodeRecords xxh3 rs).take n).length ≤ n := length_take_le n _
    have hwithin : framesWithin xxh3 rs n = rs.take k := by
      refine framesWithin_eq_take xxh3 hk ?_ fun j hj hle => hmax j hj ?_
      · have hle : (encodeRecords xxh3 (rs.take k)).length ≤ ((encodeRecords xxh3 rs).take n).length := by
          rw [hcut, length_append]
          exact Nat.le_add_right _ _
        exact hle.trans hlen
      · -- the frames of the first records are a part of the log
        have htotal := @Framing.encodeAll_take_length_le _ _ _ (walFraming xxh3) rs _ _ hj
        rw [take_length] at htotal
        rw [length_take]
        exact le_min hle htotal
    have htake : LsnOrdered last_lsn (rs.take k) :=
      ⟨fun r hr => h.1 r (mem_of_mem_take hr), fun l hl r hr => h.2.1 l hl r (mem_of_mem_take hr),
        h.2.2.sublist (take_sublist k rs)⟩
    refine ⟨u.isEmpty, ?_⟩
    rw [hwithin, hcut]
    exact scanFrames_encodeRecords xxh3 htake hu

end frames

theorem scan_cut_exact_two : ∃ clean, scanFrames (fun _ => 0)
    ((encodeRecords (fun _ => 0) [⟨1, 0, [7]⟩, ⟨2, 0, []⟩]).take 30) none = ([⟨1, 0, [7]⟩], 22, clean) :=
  (scan_cut_exact (fun _ => 0) none [⟨1, 0, [7]⟩, ⟨2, 0, []⟩]
    ⟨by simp [WalRecord.Valid], by simp, by simp⟩).2 30

/-- The scan does not read a second frame of one LSN. -/
theorem scan_repeated_lsn : ¬∃ xxh3 : Bytes → UInt64, ∀ rs : List WalRecord, (∀ r ∈ rs, r.Valid) →
    (scanFrames xxh3 (encodeRecords xxh3 rs) none).1 = rs := by
  rintro ⟨xxh3, h⟩
  have hincreasing := (scanFrames_increasing xxh3 (encodeRecords xxh3 [⟨1, 0, []⟩, ⟨1, 0, []⟩]) none).2
  rw [h _ (by simp [WalRecord.Valid])] at hincreasing
  simp at hincreasing

end Imbh.WriteAhead
