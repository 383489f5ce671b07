import Imbh.Docker.Container
import Imbh.Lib.Cut
import Imbh.Lib.Keyed

/-!
# Reassembling split lines (`entry.rs`)

The chunks of a line are kept under a key until one of them ends the line, or its bytes reach the cap. The key of a
modern chunk is the id that its line has; a chunk without metadata has the empty key, as has a whole line.

* `reassembled_iff` — the lines come out as they are exactly if those of the empty key come one after another, and no
  line is full before its last chunk.
-/

namespace Imbh.Docker

open Lib List

/-! ## Frames -/

/-- Source: `entry.rs` `PartialLogEntryMetadata` -/
structure PartialLogEntryMetadata where
  last : Bool
  id : Text
  ordinal : ℤ
  deriving DecidableEq

/-- An entry as it is on the wire.
Source: `entry.rs` `LogEntry` -/
structure LogFrame extends LogEntry where
  partialLogMetadata : Option PartialLogEntryMetadata

/-- The buffered lines by their keys. Source: `entry.rs` `PartialAssembler` -/
abbrev PartialAssembler : Type := List (Text × LogFrame)

namespace PartialAssembler

/-- Source: `entry.rs` `MAX_ASSEMBLED_BYTES` -/
def maxAssembledBytes : ℕ := 1024 * 1024

/-- Source: `entry.rs` `PartialAssembler::push`, `key` -/
def keyOf (entry : LogFrame) : Text := (entry.partialLogMetadata.map PartialLogEntryMetadata.id).getD []

/-- Source: `entry.rs` `PartialAssembler::has` -/
def has (a : PartialAssembler) (key : Text) : Bool := a.any fun kv => kv.1 = key

/-- The first line of a key is replaced. -/
def setFirst (key : Text) (held : LogFrame) : PartialAssembler → PartialAssembler
  | [] => []
  | kv :: a => if kv.1 = key then (kv.1, held) :: a else kv :: setFirst key held a

/-- The held line with the bytes of an entry, as far as there is room.
Source: `entry.rs` `PartialAssembler::append` -/
def extend (held entry : LogFrame) : LogFrame :=
  { held with
    line := held.line ++ entry.line.take (min (maxAssembledBytes - held.line.length) entry.line.length)
    isPartial := entry.isPartial
    partialLogMetadata := entry.partialLogMetadata }

/-- Source: `entry.rs` `PartialAssembler::append` -/
def append (a : PartialAssembler) (key : Text) (entry : LogFrame) : PartialAssembler × Bool × ℕ :=
  match a.find? fun kv => kv.1 = key with
  | some kv =>
      let held := extend kv.2 entry
      (setFirst key held a, held.isPartial, held.line.length)
  | none => (a ++ [(key, entry)], entry.isPartial, entry.line.length)

/-- Source: `entry.rs` `PartialAssembler::take` -/
def take (a : PartialAssembler) (key : Text) : PartialAssembler × Option LogFrame :=
  match a.find? fun kv => kv.1 = key with
  | some kv => (a.eraseP fun kv => kv.1 = key, some kv.2)
  | none => (a, none)

/-- Source: `entry.rs` `PartialAssembler::push` -/
def push (a : PartialAssembler) (entry : LogFrame) : PartialAssembler × Option LogFrame :=
  let key := keyOf entry
  let last := entry.partialLogMetadata.map PartialLogEntryMetadata.last
  if !entry.isPartial && !a.has key then (a, some entry)
  else
    let (a, stillPartial, len) := a.append key entry
    if last = some true ∨ !stillPartial ∨ maxAssembledBytes ≤ len then a.take key else (a, none)

/-- Source: `entry.rs` `PartialAssembler::drain` -/
def drain (a : PartialAssembler) : List LogFrame := a.map Prod.snd

/-- The entries are pushed, and what is left is drained. -/
def assembleAll (entries : List LogFrame) : List LogFrame :=
  let s := entries.foldl (fun (s : PartialAssembler × List LogFrame) entry =>
    ((s.1.push entry).1, s.2 ++ (s.1.push entry).2.toList)) ([], [])
  s.2 ++ s.1.drain

end PartialAssembler

open PartialAssembler

/-! ## What went into a line -/

/-- A frame and the number of the line that it belongs to. -/
abbrev Chunk : Type := ℕ × LogFrame

/-- The assembler, with the chunks that went into each line that it holds and each line that it gave out. -/
structure Trace where
  pending : PartialAssembler
  held : Text → List Chunk
  out : List (List Chunk × LogFrame)

def Trace.push (t : Trace) (c : Chunk) : Trace :=
  let key := keyOf c.2
  match t.pending.push c.2 with
  | (pending, some line) => ⟨pending, Function.update t.held key [], t.out ++ [(t.held key ++ [c], line)]⟩
  | (pending, none) => ⟨pending, Function.update t.held key (t.held key ++ [c]), t.out⟩

def Trace.drain (t : Trace) : List (List Chunk × LogFrame) :=
  t.out ++ t.pending.map fun kv => (t.held kv.1, kv.2)

def trace (feed : List Chunk) : Trace := feed.foldl Trace.push ⟨[], fun _ => [], []⟩

theorem trace_concat (feed : List Chunk) (c : Chunk) : trace (feed ++ [c]) = (trace feed).push c := by
  rw [trace, foldl_append]
  rfl

/-! ## Pieces -/

/-- The frame ends its line. -/
def ends (entry : LogFrame) : Bool :=
  entry.partialLogMetadata.map PartialLogEntryMetadata.last = some true || !entry.isPartial

/-- The bytes of chunks. -/
def bytesOf (chunks : List Chunk) : Bytes := chunks.flatMap fun c => c.2.line

/-- A piece is over if its last chunk ends the line, or if the bytes reach the cap. -/
def isOver (chunks : List Chunk) : Bool :=
  (chunks.getLast?.any fun c => ends c.2) || maxAssembledBytes ≤ (bytesOf chunks).length

/-- The source, the time and the bytes of a line. -/
abbrev LineView : Type := Text × Int64 × Bytes

def viewOf (entry : LogFrame) : LineView := (entry.source, entry.timeNano, entry.line)

/-- What chunks that are put together give. -/
def pieceView : List Chunk → Option LineView
  | [] => none
  | c :: cs => some (c.2.source, c.2.timeNano,
      cs.foldl (fun held e => held ++ e.2.line.take (maxAssembledBytes - held.length)) c.2.line)

/-- What a line is to be: the source and the time of its first chunk and all of its bytes up to the cap. -/
def lineOf : List Chunk → Option LineView
  | [] => none
  | c :: cs => some (c.2.source, c.2.timeNano, (bytesOf (c :: cs)).take maxAssembledBytes)

theorem bytesOf_concat (chunks : List Chunk) (c : Chunk) : bytesOf (chunks ++ [c]) = bytesOf chunks ++ c.2.line := by
  simp [bytesOf]

/-- Bytes are put to bytes that are not over the cap. -/
theorem foldl_held {held : Bytes} (hheld : held.length ≤ maxAssembledBytes) (cs : List Chunk) :
    cs.foldl (fun held e => held ++ e.2.line.take (maxAssembledBytes - held.length)) held =
      (held ++ bytesOf cs).take maxAssembledBytes := by
  induction cs generalizing held with
  | nil =>
    rw [bytesOf, flatMap_nil, append_nil, take_of_length_le hheld]
    rfl
  | cons e cs ih =>
    have hnext : (held ++ e.2.line.take (maxAssembledBytes - held.length)).length ≤ maxAssembledBytes := by
      rw [length_append, length_take]
      omega
    have hall : bytesOf (e :: cs) = e.2.line ++ bytesOf cs := flatMap_cons
    rw [foldl_cons, ih hnext, hall, ← append_assoc]
    by_cases hroom : e.2.line.length ≤ maxAssembledBytes - held.length
    · rw [take_of_length_le hroom]
    · -- the cap is reached within the bytes of this chunk
      have hlength : (held ++ e.2.line.take (maxAssembledBytes - held.length)).length = maxAssembledBytes := by
        rw [length_append, length_take]
        omega
      have hmore : maxAssembledBytes ≤ (held ++ e.2.line).length := by
        rw [length_append]
        omega
      rw [take_append_of_le_length hlength.ge, take_append_of_le_length hmore,
        take_of_length_le hlength.le, take_append, take_of_length_le hheld]

variable {chunks : List Chunk} {key : Text} {a : PartialAssembler}

/-- A line is what its chunks give, if the bytes reach the cap with the last of several chunks only. -/
theorem pieceView_eq_lineOf (hfront : (bytesOf chunks.dropLast).length < maxAssembledBytes) :
    pieceView chunks = lineOf chunks ↔ ∀ c, chunks = [c] → c.2.line.length ≤ maxAssembledBytes := by
  rcases chunks with _ | ⟨c, cs⟩
  · simp [pieceView, lineOf]
  rcases cs with _ | ⟨d, cs⟩
  · have hbytes : bytesOf [c] = c.2.line := flatMap_singleton _ _
    rw [pieceView, lineOf, hbytes]
    constructor
    · intro heq c' hc'
      obtain ⟨rfl, -⟩ := List.cons.inj hc'
      have hline : c.2.line = c.2.line.take maxAssembledBytes :=
        congrArg (fun v => v.2.2) (Option.some.inj heq)
      rw [hline, length_take]
      exact Nat.min_le_left _ _
    · intro h
      rw [take_of_length_le (h c rfl)]
      rfl
  · have hhead : c.2.line.length ≤ maxAssembledBytes := by
      have hall : bytesOf (c :: d :: cs).dropLast = c.2.line ++ bytesOf (d :: cs).dropLast := flatMap_cons
      rw [hall, length_append] at hfront
      omega
    have hall : bytesOf (c :: d :: cs) = c.2.line ++ bytesOf (d :: cs) := flatMap_cons
    rw [pieceView, lineOf, foldl_held hhead, hall]
    simp

/-- A piece that is not over has all of its bytes. -/
theorem pieceView_length {v : LineView} (hview : pieceView chunks = some v) (hover : isOver chunks = false) :
    v.2.2.length = (bytesOf chunks).length := by
  rcases chunks with _ | ⟨c, cs⟩
  · exact nomatch hview
  have hall : bytesOf (c :: cs) = c.2.line ++ bytesOf cs := flatMap_cons
  unfold isOver at hover
  rw [Bool.or_eq_false_iff, decide_eq_false_iff_not, hall] at hover
  have hlength : c.2.line.length ≤ maxAssembledBytes := by
    rw [length_append] at hover
    omega
  rw [← Option.some.inj hview, foldl_held hlength, ← hall, take_of_length_le (by rw [hall]; omega)]

/-- One more chunk is put to a piece. -/
theorem pieceView_concat {v : LineView} (hview : pieceView chunks = some v) (c : Chunk) :
    pieceView (chunks ++ [c]) = some (v.1, v.2.1, v.2.2 ++ c.2.line.take (maxAssembledBytes - v.2.2.length)) := by
  rcases chunks with _ | ⟨c', cs⟩
  · exact nomatch hview
  rw [← Option.some.inj hview, cons_append, pieceView, foldl_append]
  rfl

/-! ## One push -/

/-- Setting a key changes what is found at it only. -/
theorem find?_setFirst (key : Text) (held : LogFrame) (a : PartialAssembler) (x : Text) :
    (setFirst key held a).find? (fun kv => kv.1 = x) =
      if x = key then (a.find? fun kv => kv.1 = x).map fun kv => (kv.1, held) else a.find? fun kv => kv.1 = x := by
  induction a with
  | nil => simp [setFirst]
  | cons kv a ih =>
    rw [setFirst]
    split
    · rename_i hkey
      by_cases hx : x = key
      · simp [hx, hkey]
      · have hne : kv.1 ≠ x := fun h => hx (h.symm.trans hkey)
        simp [hx, hne]
    · rename_i hkey
      rw [find?_cons, find?_cons, ih]
      by_cases hx : kv.1 = x
      · have hne : x ≠ key := fun h => hkey (hx.trans h)
        simp [hx, hne]
      · simp [hx]

theorem map_fst_setFirst (key : Text) (held : LogFrame) (a : PartialAssembler) :
    (setFirst key held a).map Prod.fst = a.map Prod.fst := by
  induction a with
  | nil => rfl
  | cons kv a ih =>
    rw [setFirst]
    split
    · rfl
    · rw [map_cons, map_cons, ih]

/-- The view of the line that is held under a key. -/
def heldView (a : PartialAssembler) (key : Text) : Option LineView :=
  (a.find? fun kv => kv.1 = key).map fun kv => viewOf kv.2

theorem pieceView_eq_none : pieceView chunks = none ↔ chunks = [] := by
  rcases chunks with _ | ⟨c, cs⟩ <;> simp [pieceView]

theorem find?_eq_none_of_not_mem (h : key ∉ a.map Prod.fst) : (a.find? fun kv => kv.1 = key) = none := by
  apply find?_eq_none.mpr
  intro kv hkv hkey
  exact h (of_decide_eq_true hkey ▸ mem_map_of_mem hkv)

/-- What `append` does to the lines that are held. -/
theorem append_spec (hnodup : (a.map Prod.fst).Nodup) (hview : heldView a key = pieceView chunks)
    (hover : chunks ≠ [] → isOver chunks = false) (c : Chunk) :
    ∃ a' len, a.append key c.2 = (a', c.2.isPartial, len) ∧ (a'.map Prod.fst).Nodup ∧
      (∀ x, x ≠ key → heldView a' x = heldView a x) ∧ heldView a' key = pieceView (chunks ++ [c]) ∧
      (maxAssembledBytes ≤ len ↔ maxAssembledBytes ≤ (bytesOf (chunks ++ [c])).length) := by
  unfold PartialAssembler.append
  rcases hfind : a.find? fun kv => kv.1 = key with _ | kv
  · have hnone : heldView a key = none := by rw [heldView, hfind]; rfl
    have hchunks : chunks = [] := pieceView_eq_none.mp (hview.symm.trans hnone)
    subst hchunks
    have hnew : key ∉ a.map Prod.fst := by
      intro hmem
      obtain ⟨kv, hkv, hkey⟩ := mem_map.mp hmem
      exact absurd (find?_eq_none.mp hfind kv hkv) (by simp [hkey])
    rw [hfind]
    refine ⟨_, _, rfl, ?_, fun x hx => ?_, ?_, ?_⟩
    · rw [map_append, nodup_append_comm]
      exact nodup_cons.mpr ⟨hnew, hnodup⟩
    · rw [heldView, heldView, find?_append]
      simp [Ne.symm hx]
    · rw [heldView, find?_append, hfind]
      simp [pieceView, viewOf]
    · rw [nil_append, bytesOf, flatMap_singleton]
  · have hsome : pieceView chunks = some (viewOf kv.2) := by
      rw [← hview, heldView, hfind]
      rfl
    have hne : chunks ≠ [] := by
      rintro rfl
      exact nomatch hsome
    have hlength := pieceView_length hsome (hover hne)
    have hroom := hover hne
    unfold isOver at hroom
    rw [Bool.or_eq_false_iff, decide_eq_false_iff_not] at hroom
    rw [hfind]
    refine ⟨_, _, rfl, ?_, fun x hx => ?_, ?_, ?_⟩
    · rw [map_fst_setFirst]
      exact hnodup
    · rw [heldView, heldView, find?_setFirst, if_neg hx]
    · rw [heldView, find?_setFirst, if_pos rfl, hfind, pieceView_concat hsome c]
      simp [extend, viewOf, take_eq_take_iff]
    · rw [bytesOf_concat, length_append]
      simp only [extend, viewOf, length_append, length_take] at hlength ⊢
      omega

/-- What `take` does to the lines that are held. -/
theorem take_spec (hnodup : (a.map Prod.fst).Nodup) {v : LineView} (hview : heldView a key = some v) :
    ∃ a' line, a.take key = (a', some line) ∧ (a'.map Prod.fst).Nodup ∧ (∀ x, x ≠ key → heldView a' x = heldView a x) ∧
      heldView a' key = none ∧ viewOf line = v := by
  unfold heldView at hview
  rw [Option.map_eq_some_iff] at hview
  obtain ⟨kv, hfind, hv⟩ := hview
  unfold PartialAssembler.take
  rw [hfind]
  refine ⟨_, _, rfl, hnodup.sublist (eraseP_sublist.map _), fun x hx => ?_, ?_, hv⟩
  · unfold heldView
    clear hfind hv hnodup
    induction a with
    | nil => rfl
    | cons kv' a ih =>
      by_cases hkey : kv'.1 = key
      · have hne : kv'.1 ≠ x := fun h => hx (h.symm.trans hkey)
        rw [eraseP_cons_of_pos (by simpa using hkey), find?_cons_of_neg (by simpa using hne)]
      · rw [eraseP_cons_of_neg (by simpa using hkey), find?_cons, find?_cons]
        split
        · rfl
        · exact ih
  · unfold heldView
    rw [find?_eq_none_of_not_mem, Option.map_none]
    clear hv
    induction a with
    | nil => exact nomatch hfind
    | cons kv' a ih =>
      rw [map_cons, nodup_cons] at hnodup
      by_cases hkey : kv'.1 = key
      · rw [eraseP_cons_of_pos (by simpa using hkey), ← hkey]
        exact hnodup.1
      · rw [eraseP_cons_of_neg (by simpa using hkey), map_cons, mem_cons, not_or]
        rw [find?_cons_of_neg (by simpa using hkey)] at hfind
        exact ⟨Ne.symm hkey, ih hnodup.2 hfind⟩

/-- What a push does: the chunk is put to the piece of its key, which comes out if it is over. -/
theorem push_spec (hnodup : (a.map Prod.fst).Nodup) {c : Chunk} (hview : heldView a (keyOf c.2) = pieceView chunks)
    (hover : chunks ≠ [] → isOver chunks = false) :
    ∃ a' line, a.push c.2 = (a', line) ∧ (a'.map Prod.fst).Nodup ∧
      (∀ x, x ≠ keyOf c.2 → heldView a' x = heldView a x) ∧
      if isOver (chunks ++ [c]) then heldView a' (keyOf c.2) = none ∧ line.isSome ∧
          line.map viewOf = pieceView (chunks ++ [c])
        else heldView a' (keyOf c.2) = pieceView (chunks ++ [c]) ∧ line = none := by
  have hhas : a.has (keyOf c.2) = true ↔ chunks ≠ [] := by
    rw [← not_iff_not, Bool.not_eq_true, not_not, ← pieceView_eq_none, ← hview]
    simp [PartialAssembler.has, heldView]
  unfold PartialAssembler.push
  dsimp only
  by_cases hwhole : (!c.2.isPartial && !a.has (keyOf c.2)) = true
  · rw [if_pos hwhole]
    rw [Bool.and_eq_true, Bool.not_eq_true', Bool.not_eq_true'] at hwhole
    have hchunks : chunks = [] := by
      by_contra hne
      rw [hhas.mpr hne] at hwhole
      exact Bool.false_ne_true hwhole.2.symm
    subst hchunks
    have hends : isOver ([] ++ [c]) = true := by simp [isOver, ends, hwhole.1]
    refine ⟨_, _, rfl, hnodup, fun _ _ => rfl, ?_⟩
    rw [if_pos hends]
    exact ⟨hview, rfl, rfl⟩
  · obtain ⟨a', len, happend, hnodup', hothers, hview', hlen⟩ := append_spec hnodup hview hover c
    have hover' : isOver (chunks ++ [c]) = true ↔
        c.2.partialLogMetadata.map PartialLogEntryMetadata.last = some true ∨ (!c.2.isPartial) = true ∨
          maxAssembledBytes ≤ len := by
      rw [hlen]
      simp [isOver, ends, or_assoc]
    rw [if_neg hwhole, happend]
    dsimp only
    obtain ⟨v, hv⟩ := Option.ne_none_iff_exists'.mp (mt pieceView_eq_none.mp (by simp : chunks ++ [c] ≠ []))
    by_cases hcond : c.2.partialLogMetadata.map PartialLogEntryMetadata.last = some true ∨
        (!c.2.isPartial) = true ∨ maxAssembledBytes ≤ len
    · rw [if_pos hcond]
      rw [hv] at hview'
      obtain ⟨a'', line, htake, hnodup'', hothers', hnone, hline⟩ := take_spec hnodup' hview'
      rw [htake]
      refine ⟨_, _, rfl, hnodup'', fun x hx => (hothers' x hx).trans (hothers x hx), ?_⟩
      rw [if_pos (hover'.mpr hcond), hv]
      exact ⟨hnone, rfl, congrArg some hline⟩
    · rw [if_neg hcond]
      refine ⟨_, _, rfl, hnodup', hothers, ?_⟩
      rw [if_neg (mt hover'.mp hcond)]
      exact ⟨hview', rfl⟩

/-! ## The whole feed -/

/-- The key of the first chunk. -/
def pieceKey (chunks : List Chunk) : Text := (chunks.head?.map fun c => keyOf c.2).getD []

/-- The chunks of a key. -/
def keyed (feed : List Chunk) (key : Text) : List Chunk := feed.filter fun c => keyOf c.2 = key

theorem pieceKey_eq (hne : chunks ≠ []) (h : ∀ c ∈ chunks, keyOf c.2 = key) : pieceKey chunks = key := by
  rcases chunks with _ | ⟨c, cs⟩
  · exact absurd rfl hne
  · exact h c mem_cons_self

/-- What the trace is after a feed: what came out under a key, and what is held under it, are the chunks of the key,
cut where a piece is over. -/
structure TraceInv (feed : List Chunk) (t : Trace) : Prop where
  nodup : (t.pending.map Prod.fst).Nodup
  held_view : ∀ key, heldView t.pending key = pieceView (t.held key)
  out_view : ∀ o ∈ t.out, some (viewOf o.2) = pieceView o.1
  cut : ∀ key, ((t.out.map Prod.fst).filter (fun p => pieceKey p = key), t.held key) = cut isOver (keyed feed key)

variable {feed : List Chunk}

/-- The chunks that are held under a key are of the key. -/
theorem TraceInv.keyOf_held {t : Trace} (h : TraceInv feed t) {c : Chunk} (hc : c ∈ t.held key) :
    keyOf c.2 = key := by
  have hflatten := (cutting isOver (keyed feed key)).flatten
  rw [← h.cut key] at hflatten
  have hmem : c ∈ keyed feed key := by
    rw [← hflatten]
    exact mem_append_right _ hc
  exact of_decide_eq_true (mem_filter.mp hmem).2

/-- A chunk keeps the invariant of the trace. -/
theorem TraceInv.push {t : Trace} (h : TraceInv feed t) (c : Chunk) : TraceInv (feed ++ [c]) (t.push c) := by
  have hcut := h.cut (keyOf c.2)
  have hopen := (cutting isOver (keyed feed (keyOf c.2))).not_stops_open
  rw [← hcut] at hopen
  obtain ⟨pending, line, hpush, hnodup, hothers, hkey⟩ := push_spec h.nodup (h.held_view (keyOf c.2)) hopen
  have hpiece : pieceKey (t.held (keyOf c.2) ++ [c]) = keyOf c.2 := by
    apply pieceKey_eq (by simp)
    intro d hd
    rcases mem_append.mp hd with hd | hd
    · exact h.keyOf_held hd
    · rw [mem_singleton.mp hd]
  have hself : keyed (feed ++ [c]) (keyOf c.2) = keyed feed (keyOf c.2) ++ [c] := by
    simp [keyed, filter_append]
  have hother {key : Text} (hne : key ≠ keyOf c.2) : keyed (feed ++ [c]) key = keyed feed key := by
    simp [keyed, filter_append, Ne.symm hne]
  have hstep : Lib.cut isOver (keyed (feed ++ [c]) (keyOf c.2)) =
      cutStep isOver ((t.out.map Prod.fst).filter (fun p => pieceKey p = keyOf c.2), t.held (keyOf c.2)) c := by
    rw [hself, cut_concat, ← hcut]
  unfold Trace.push
  dsimp only
  rw [hpush]
  by_cases hover : isOver (t.held (keyOf c.2) ++ [c]) = true
  · rw [if_pos hover] at hkey
    obtain ⟨hnone, hsome, hline⟩ := hkey
    obtain ⟨line, rfl⟩ := Option.isSome_iff_exists.mp hsome
    refine ⟨hnodup, fun key => ?_, ?_, fun key => ?_⟩
    · dsimp only
      rw [Function.update_apply]
      split
      · rename_i heq
        rw [heq, hnone]
        rfl
      · rename_i hne
        rw [hothers key hne, h.held_view]
    · intro o ho
      rcases mem_append.mp ho with ho | ho
      · exact h.out_view o ho
      · rw [mem_singleton.mp ho]
        exact hline
    · dsimp only
      rw [map_append, filter_append, Function.update_apply]
      split
      · rename_i heq
        rw [heq, hstep, cutStep, if_pos hover]
        simp [hpiece]
      · rename_i hne
        rw [hother hne, ← h.cut key]
        simp [hpiece, Ne.symm hne]
  · rw [if_neg hover] at hkey
    obtain ⟨hview, rfl⟩ := hkey
    refine ⟨hnodup, fun key => ?_, h.out_view, fun key => ?_⟩
    · dsimp only
      rw [Function.update_apply]
      split
      · rename_i heq
        rw [heq, hview]
      · rename_i hne
        rw [hothers key hne, h.held_view]
    · dsimp only
      rw [Function.update_apply]
      split
      · rename_i heq
        rw [heq, hstep, cutStep, if_neg hover]
      · rename_i hne
        rw [hother hne, ← h.cut key]

theorem traceInv (feed : List Chunk) : TraceInv feed (trace feed) := by
  induction feed using List.reverseRecOn with
  | nil => exact ⟨nodup_nil, fun _ => rfl, fun _ ho => absurd ho not_mem_nil, fun _ => rfl⟩
  | append_singleton feed c ih =>
    rw [trace_concat]
    exact ih.push c

/-- The pieces that come out. -/
def outPieces (feed : List Chunk) : List (List Chunk) := (trace feed).drain.map Prod.fst

/-- What comes out is what its chunks give. -/
theorem drain_view {o : List Chunk × LogFrame} (ho : o ∈ (trace feed).drain) : some (viewOf o.2) = pieceView o.1 := by
  have h := traceInv feed
  rcases mem_append.mp ho with ho | ho
  · exact h.out_view o ho
  · obtain ⟨kv, hkv, rfl⟩ := mem_map.mp ho
    have hview := h.held_view kv.1
    have hfind : (trace feed).pending.find? (fun kv' => kv'.1 = kv.1) = some kv := by
      rcases hfind : (trace feed).pending.find? fun kv' => kv'.1 = kv.1 with _ | kv'
      · exact absurd (find?_eq_none.mp hfind kv hkv) (by simp)
      · have hkey := find?_some hfind
        rw [decide_eq_true_eq] at hkey
        exact hfind.trans (congrArg some
          (inj_on_of_nodup_map h.nodup (mem_of_find?_eq_some hfind) hkv hkey))
    rw [heldView, hfind] at hview
    exact hview

/-- What comes out of a key is what goes into it, cut where a piece is over. -/
theorem trace_pieces (feed : List Chunk) (key : Text) :
    (outPieces feed).filter (fun p => pieceKey p = key) = pieces isOver (keyed feed key) := by
  have h := traceInv feed
  have hcut := h.cut key
  have hkey (kv : Text × LogFrame) (hkv : kv ∈ (trace feed).pending) : pieceKey ((trace feed).held kv.1) = kv.1 := by
    apply pieceKey_eq _ fun c hc => h.keyOf_held hc
    intro hnil
    have hview := h.held_view kv.1
    rw [hnil, heldView, pieceView, Option.map_eq_none_iff] at hview
    exact absurd (find?_eq_none.mp hview kv hkv) (by simp)
  have hpending : (((trace feed).pending.map fun kv => (trace feed).held kv.1).filter fun p => pieceKey p = key) =
      if (trace feed).held key = [] then [] else [(trace feed).held key] := by
    have hfilter : ((trace feed).pending.filter fun kv => decide (pieceKey ((trace feed).held kv.1) = key)) =
        (trace feed).pending.filter (·.1 = key) :=
      filter_congr fun kv hkv => by rw [hkey kv hkv]
    have hview := h.held_view key
    rw [filter_map]
    change List.map _ ((trace feed).pending.filter fun kv => decide (pieceKey ((trace feed).held kv.1) = key)) = _
    rw [hfilter, filter_eq_find?_toList h.nodup]
    rcases hfind : (trace feed).pending.find? (·.1 = key) with _ | kv
    · rw [heldView, hfind] at hview
      rw [hfind, if_pos (pieceView_eq_none.mp hview.symm)]
      rfl
    · have hfst := find?_some hfind
      rw [decide_eq_true_eq] at hfst
      rw [heldView, hfind] at hview
      have hne : (trace feed).held key ≠ [] := by
        intro hnil
        rw [hnil] at hview
        exact nomatch hview
      rw [hfind, if_neg hne, ← hfst]
      rfl
  unfold outPieces Trace.drain pieces
  rw [← hcut, map_append, filter_append, map_map]
  exact congrArg _ hpending

/-! ## Lines -/

/-- The chunks of a line, in the order of the feed. -/
def chunksOf (feed : List Chunk) (k : ℕ) : List Chunk := feed.filter fun c => c.1 = k

def lineNumbers (feed : List Chunk) : List ℕ := (feed.map Prod.fst).dedup

/-- The chunks of a line of a modern daemon, as far as the stream goes: of one id, and none but the last is marked as
the last. -/
structure IsModern (id : Text) (chunks : List Chunk) : Prop where
  id_ne : id ≠ []
  chunk : ∀ c ∈ chunks, c.2.isPartial = true ∧ ∃ last ordinal, c.2.partialLogMetadata = some ⟨last, id, ordinal⟩
  front : ∀ c ∈ chunks.dropLast, ∀ m, c.2.partialLogMetadata = some m → m.last = false

/-- The chunks of a line without metadata, as far as the stream goes: all but the last are partial. A line of one
chunk that is not partial is a whole line. -/
structure IsLegacy (chunks : List Chunk) : Prop where
  chunk : ∀ c ∈ chunks, c.2.partialLogMetadata = none
  front : ∀ c ∈ chunks.dropLast, c.2.isPartial = true

/-- A feed of lines whose chunks come in any order of the lines. No two lines have one id. -/
structure WellFormed (feed : List Chunk) : Prop where
  line : ∀ k ∈ lineNumbers feed, IsLegacy (chunksOf feed k) ∨ ∃ id, IsModern id (chunksOf feed k)
  ids : ∀ j ∈ lineNumbers feed, ∀ k ∈ lineNumbers feed, ∀ id, IsModern id (chunksOf feed j) →
    IsModern id (chunksOf feed k) → j = k

/-- Each line comes out once: of exactly its chunks, with the source and the time of the first one and all bytes up to
the cap. -/
def Reassembled (feed : List Chunk) : Prop :=
  ((trace feed).drain.map fun o => (o.1, some (viewOf o.2))).Perm
    ((lineNumbers feed).map fun k => (chunksOf feed k, lineOf (chunksOf feed k)))

/-- The chunks without metadata are those of one line after another, and each line but the last is over. -/
def LineByLine (feed : List Chunk) : Prop :=
  ∃ order : List ℕ, order.Nodup ∧ (∀ k, k ∈ order ↔ ∃ c ∈ feed, c.1 = k ∧ keyOf c.2 = []) ∧
    order.flatMap (chunksOf feed) = keyed feed [] ∧ ∀ k ∈ order.dropLast, isOver (chunksOf feed k) = true

/-- The bytes of a line reach the cap with its last chunk at the earliest, and a single chunk is not over the cap. -/
def Fits (chunks : List Chunk) : Prop :=
  (bytesOf chunks.dropLast).length < maxAssembledBytes ∧
    ∀ c, chunks = [c] → c.2.line.length ≤ maxAssembledBytes

theorem mem_lineNumbers {k : ℕ} : k ∈ lineNumbers feed ↔ ∃ c ∈ feed, c.1 = k := by
  unfold lineNumbers
  rw [mem_dedup, mem_map]

theorem chunksOf_ne_nil {k : ℕ} : chunksOf feed k ≠ [] ↔ k ∈ lineNumbers feed := by
  rw [mem_lineNumbers, Ne, chunksOf, filter_eq_nil_iff]
  simp

/-- The chunks of a line have one key. -/
theorem WellFormed.keyOf_eq (h : WellFormed feed) {c : Chunk} (hc : c ∈ feed) :
    keyOf c.2 = pieceKey (chunksOf feed c.1) := by
  have hmem : c ∈ chunksOf feed c.1 := mem_filter.mpr ⟨hc, decide_eq_true rfl⟩
  have hne := ne_nil_of_mem hmem
  rcases h.line c.1 (chunksOf_ne_nil.mp hne) with hline | ⟨id, hline⟩
  · have hkey : ∀ d ∈ chunksOf feed c.1, keyOf d.2 = [] := fun d hd => by rw [keyOf, hline.chunk d hd]; rfl
    rw [pieceKey_eq hne hkey, hkey c hmem]
  · have hkey : ∀ d ∈ chunksOf feed c.1, keyOf d.2 = id := by
      intro d hd
      obtain ⟨-, last, ordinal, hmeta⟩ := hline.chunk d hd
      rw [keyOf, hmeta]
      rfl
    rw [pieceKey_eq hne hkey, hkey c hmem]

/-- No chunk but the last ends its line. -/
theorem WellFormed.ends_eq_false (h : WellFormed feed) {k : ℕ} {c : Chunk} (hc : c ∈ (chunksOf feed k).dropLast) :
    ends c.2 = false := by
  have hmem := dropLast_subset _ hc
  rcases h.line k (chunksOf_ne_nil.mp (ne_nil_of_mem hmem)) with hline | ⟨id, hline⟩
  · simp [ends, hline.chunk c hmem, hline.front c hc]
  · obtain ⟨hpart, last, ordinal, hmeta⟩ := hline.chunk c hmem
    have hlast : last = false := hline.front c hc _ hmeta
    simp [ends, hmeta, hpart, hlast]

/-- A line is one piece exactly if its bytes do not reach the cap before its last chunk. -/
theorem WellFormed.unstopped_iff (h : WellFormed feed) (k : ℕ) :
    Unstopped isOver (chunksOf feed k) ↔ (bytesOf (chunksOf feed k).dropLast).length < maxAssembledBytes := by
  constructor
  · intro hunstopped
    rcases eq_nil_or_concat (chunksOf feed k) with hnil | ⟨front, last, heq⟩
    · rw [hnil]
      decide
    · rw [heq, concat_eq_append, dropLast_concat]
      by_cases hfront : front = []
      · rw [hfront]
        decide
      · have hover := hunstopped front [last] (by rw [heq, concat_eq_append]) hfront (cons_ne_nil _ _)
        unfold isOver at hover
        rw [Bool.or_eq_false_iff, decide_eq_false_iff_not] at hover
        omega
  · intro hfits q r heq hq hr
    obtain ⟨r, last, rfl⟩ := eq_nil_or_concat r |>.resolve_left hr
    rw [concat_eq_append, ← append_assoc] at heq
    have hfront : (chunksOf feed k).dropLast = q ++ r := by rw [heq, dropLast_concat]
    unfold isOver
    rw [Bool.or_eq_false_iff, decide_eq_false_iff_not]
    constructor
    · rcases hlast : q.getLast? with _ | c
      · rfl
      · have hc : c ∈ (chunksOf feed k).dropLast := by
          rw [hfront]
          exact mem_append_left r (mem_of_getLast? hlast)
        exact h.ends_eq_false hc
    · have hbytes : bytesOf (q ++ r) = bytesOf q ++ bytesOf r := flatMap_append
      rw [hfront, hbytes, length_append] at hfits
      omega

/-- The pieces and the bytes of the lines can be looked at apart. -/
theorem reassembled_split (feed : List Chunk) :
    Reassembled feed ↔ (outPieces feed).Perm ((lineNumbers feed).map (chunksOf feed)) ∧
      ∀ k ∈ lineNumbers feed, pieceView (chunksOf feed k) = lineOf (chunksOf feed k) := by
  have hleft : ((trace feed).drain.map fun o => (o.1, some (viewOf o.2))) =
      (outPieces feed).map fun p => (p, pieceView p) := by
    rw [outPieces, map_map]
    exact map_congr_left fun o ho => by rw [drain_view ho]; rfl
  have hright : ((lineNumbers feed).map fun k => (chunksOf feed k, lineOf (chunksOf feed k))) =
      ((lineNumbers feed).map (chunksOf feed)).map fun p => (p, lineOf p) := by
    rw [map_map]
    rfl
  unfold Reassembled
  rw [hleft, hright]
  constructor
  · intro hperm
    have hpieces := hperm.map Prod.fst
    rw [map_map, map_map] at hpieces
    refine ⟨by simpa [Function.comp_def] using hpieces, fun k hk => ?_⟩
    have hmem : (chunksOf feed k, lineOf (chunksOf feed k)) ∈ (outPieces feed).map fun p => (p, pieceView p) :=
      hperm.mem_iff.mpr (mem_map_of_mem (mem_map_of_mem hk))
    obtain ⟨p, -, heq⟩ := mem_map.mp hmem
    obtain ⟨rfl, hview⟩ := Prod.mk.inj heq
    exact hview
  · rintro ⟨hpieces, hviews⟩
    refine (hpieces.map _).trans (Perm.of_eq (map_congr_left fun p hp => ?_))
    obtain ⟨k, hk, rfl⟩ := mem_map.mp hp
    rw [hviews k hk]

/-- The lines of a key. -/
def linesOf (feed : List Chunk) (key : Text) : List ℕ :=
  (lineNumbers feed).filter fun k => pieceKey (chunksOf feed k) = key

/-- The lines of a feed are whole, if and only if those of each key are. -/
theorem perm_lines_iff (feed : List Chunk) :
    (outPieces feed).Perm ((lineNumbers feed).map (chunksOf feed)) ↔
      ∀ key, (pieces isOver (keyed feed key)).Perm ((linesOf feed key).map (chunksOf feed)) := by
  have hlines (key : Text) : ((lineNumbers feed).map (chunksOf feed)).filter (fun p => pieceKey p = key) =
      (linesOf feed key).map (chunksOf feed) := by
    rw [filter_map]
    rfl
  constructor
  · intro hperm key
    rw [← trace_pieces, ← hlines]
    exact hperm.filter _
  · intro h
    apply perm_of_filter_perm (f := pieceKey)
    intro key
    rw [trace_pieces, hlines]
    exact h key

theorem WellFormed.mem_linesOf (h : WellFormed feed) {k : ℕ} :
    k ∈ linesOf feed key ↔ ∃ c ∈ feed, c.1 = k ∧ keyOf c.2 = key := by
  unfold linesOf
  rw [mem_filter, mem_lineNumbers, decide_eq_true_eq]
  constructor
  · rintro ⟨⟨c, hc, rfl⟩, hkey⟩
    exact ⟨c, hc, rfl, (h.keyOf_eq hc).trans hkey⟩
  · rintro ⟨c, hc, rfl, hkey⟩
    exact ⟨⟨c, hc, rfl⟩, (h.keyOf_eq hc).symm.trans hkey⟩

/-- A modern id is that of one line. -/
theorem WellFormed.linesOf_modern (h : WellFormed feed) (hkey : key ≠ []) :
    linesOf feed key = [] ∧ keyed feed key = [] ∨
      ∃ k, linesOf feed key = [k] ∧ keyed feed key = chunksOf feed k ∧ k ∈ lineNumbers feed := by
  have hmodern {c : Chunk} (hc : c ∈ feed) (hckey : keyOf c.2 = key) : IsModern key (chunksOf feed c.1) := by
    have hmem : c ∈ chunksOf feed c.1 := mem_filter.mpr ⟨hc, decide_eq_true rfl⟩
    rcases h.line c.1 (mem_lineNumbers.mpr ⟨c, hc, rfl⟩) with hline | ⟨id, hline⟩
    · rw [keyOf, hline.chunk c hmem] at hckey
      exact absurd hckey.symm hkey
    · obtain ⟨-, last, ordinal, hmeta⟩ := hline.chunk c hmem
      rw [keyOf, hmeta] at hckey
      exact hckey ▸ hline
  have hlines : ∀ j ∈ linesOf feed key, ∀ k ∈ linesOf feed key, j = k := by
    intro j hj k hk
    obtain ⟨c, hc, rfl, hckey⟩ := h.mem_linesOf.mp hj
    obtain ⟨d, hd, rfl, hdkey⟩ := h.mem_linesOf.mp hk
    exact h.ids _ (mem_lineNumbers.mpr ⟨c, hc, rfl⟩) _ (mem_lineNumbers.mpr ⟨d, hd, rfl⟩) key (hmodern hc hckey)
      (hmodern hd hdkey)
  have hnodup : (linesOf feed key).Nodup := (nodup_dedup _).filter _
  rcases hall : linesOf feed key with _ | ⟨k, rest⟩
  · refine .inl ⟨rfl, filter_eq_nil_iff.mpr fun c hc hckey => ?_⟩
    have hmem : c.1 ∈ linesOf feed key := h.mem_linesOf.mpr ⟨c, hc, rfl, of_decide_eq_true hckey⟩
    rw [hall] at hmem
    exact not_mem_nil hmem
  · have hrest : rest = [] := by
      apply eq_nil_iff_forall_not_mem.mpr
      intro j hj
      rw [hall] at hnodup hlines
      rw [hlines j (mem_cons_of_mem k hj) k mem_cons_self] at hj
      exact (nodup_cons.mp hnodup).1 hj
    have hk : k ∈ linesOf feed key := hall ▸ mem_cons_self
    refine .inr ⟨k, by rw [hrest], filter_congr fun c hc => decide_eq_decide.mpr ⟨fun hckey => ?_, ?_⟩,
      mem_of_mem_filter hk⟩
    · exact hlines _ (h.mem_linesOf.mpr ⟨c, hc, rfl, hckey⟩) _ hk
    · rintro rfl
      rw [h.keyOf_eq hc]
      exact of_decide_eq_true (mem_filter.mp hk).2

/-- The lines of the empty key come out as they are exactly if they come one after another. -/
theorem WellFormed.pieces_perm_iff (h : WellFormed feed)
    (hunstopped : ∀ k ∈ lineNumbers feed, Unstopped isOver (chunksOf feed k)) :
    (pieces isOver (keyed feed [])).Perm ((linesOf feed []).map (chunksOf feed)) ↔ LineByLine feed := by
  have hnumber {k : ℕ} (hk : k ∈ linesOf feed []) : k ∈ lineNumbers feed := mem_of_mem_filter hk
  constructor
  · intro hperm
    let number (p : List Chunk) : ℕ := (p.head?.map Prod.fst).getD 0
    have hchunks {k : ℕ} (hk : k ∈ lineNumbers feed) : number (chunksOf feed k) = k := by
      rcases hc : chunksOf feed k with _ | ⟨c, cs⟩
      · exact absurd hc (chunksOf_ne_nil.mpr hk)
      · have hmem : c ∈ chunksOf feed k := hc ▸ mem_cons_self
        exact of_decide_eq_true (mem_filter.mp hmem).2
    have hpieces : ((pieces isOver (keyed feed [])).map number).map (chunksOf feed) =
        pieces isOver (keyed feed []) := by
      rw [map_map]
      refine (map_congr_left fun p hp => ?_).trans (map_id _)
      obtain ⟨k, hk, rfl⟩ := mem_map.mp (hperm.mem_iff.mp hp)
      exact congrArg (chunksOf feed) (hchunks (hnumber hk))
    have horder : ((pieces isOver (keyed feed [])).map number).Perm (linesOf feed []) := by
      refine (hperm.map number).trans (Perm.of_eq ?_)
      rw [map_map]
      exact (map_congr_left fun k hk => hchunks (hnumber hk)).trans (map_id _)
    refine ⟨_, horder.nodup_iff.mpr ((nodup_dedup _).filter _), fun k => ?_, ?_, fun k hk => ?_⟩
    · rw [horder.mem_iff, h.mem_linesOf]
    · rw [flatMap_def, hpieces, flatten_pieces]
    · apply (@pieces_isCut _ isOver (keyed feed [])).closed
      rw [← hpieces, ← map_dropLast]
      exact mem_map_of_mem hk
  · rintro ⟨order, hnodup, hmem, hflatten, hclosed⟩
    have horder : order.Perm (linesOf feed []) :=
      (perm_ext_iff_of_nodup hnodup ((nodup_dedup _).filter _)).mpr fun k => by
        rw [hmem, ← h.mem_linesOf]
        rfl
    have hcut : IsCut isOver (order.map (chunksOf feed)) := by
      refine ⟨fun p hp => ?_, fun p hp => ?_, fun p hp => ?_⟩
      · obtain ⟨k, hk, rfl⟩ := mem_map.mp hp
        exact chunksOf_ne_nil.mpr (hnumber (horder.mem_iff.mp hk))
      · obtain ⟨k, hk, rfl⟩ := mem_map.mp hp
        exact hunstopped k (hnumber (horder.mem_iff.mp hk))
      · rw [← map_dropLast] at hp
        obtain ⟨k, hk, rfl⟩ := mem_map.mp hp
        exact hclosed k hk
    rw [← hflatten, flatMap_def, hcut.pieces_eq]
    exact horder.map _

/-- The lines of a feed come out as they are exactly if those without metadata come one after another, and the bytes
of each line fit. -/
theorem reassembled_iff {feed : List Chunk} (h : WellFormed feed) :
    Reassembled feed ↔ LineByLine feed ∧ ∀ k ∈ lineNumbers feed, Fits (chunksOf feed k) := by
  rw [reassembled_split, perm_lines_iff]
  constructor
  · rintro ⟨hperm, hviews⟩
    have hunstopped : ∀ k ∈ lineNumbers feed, Unstopped isOver (chunksOf feed k) := by
      intro k hk
      have hline : k ∈ linesOf feed (pieceKey (chunksOf feed k)) := mem_filter.mpr ⟨hk, decide_eq_true rfl⟩
      exact (pieces_isCut _).unstopped _ ((hperm _).mem_iff.mpr (mem_map_of_mem hline))
    refine ⟨(h.pieces_perm_iff hunstopped).mp (hperm []), fun k hk => ?_⟩
    have hfront := (h.unstopped_iff k).mp (hunstopped k hk)
    exact ⟨hfront, (pieceView_eq_lineOf hfront).mp (hviews k hk)⟩
  · rintro ⟨hlines, hfits⟩
    have hunstopped : ∀ k ∈ lineNumbers feed, Unstopped isOver (chunksOf feed k) :=
      fun k hk => (h.unstopped_iff k).mpr (hfits k hk).1
    refine ⟨fun key => ?_, fun k hk => (pieceView_eq_lineOf (hfits k hk).1).mpr (hfits k hk).2⟩
    by_cases hkey : key = []
    · rw [hkey]
      exact (h.pieces_perm_iff hunstopped).mpr hlines
    · rcases h.linesOf_modern hkey with ⟨hnone, hempty⟩ | ⟨k, hone, hchunks, hk⟩
      · rw [hnone, hempty]
        exact Perm.refl _
      · rw [hone, hchunks, (pieces_eq_singleton (chunksOf_ne_nil.mpr hk)).mpr (hunstopped k hk)]
        exact Perm.refl _

/-- A line of the empty key in two chunks, then a whole line of the other stream. A modern line is around them. -/
def apartFeed : List Chunk :=
  [(2, ⟨⟨streamName false, 1, [97], true⟩, some ⟨false, "a".toList, 1⟩⟩),
    (0, ⟨⟨streamName false, 2, [104, 101], true⟩, none⟩),
    (0, ⟨⟨streamName false, 3, [108, 108, 111], false⟩, none⟩),
    (1, ⟨⟨streamName true, 4, [101, 114, 114], false⟩, none⟩),
    (2, ⟨⟨streamName false, 5, [98], true⟩, some ⟨true, "a".toList, 2⟩⟩)]

/-- The whole line of the other stream is between the two chunks. -/
def crossedFeed : List Chunk :=
  [(0, ⟨⟨streamName false, 2, [104, 101], true⟩, none⟩),
    (1, ⟨⟨streamName true, 4, [101, 114, 114], false⟩, none⟩),
    (0, ⟨⟨streamName false, 3, [108, 108, 111], false⟩, none⟩)]

theorem IsLegacy.not_isModern (h : IsLegacy chunks) (hne : chunks ≠ []) {id : Text} : ¬IsModern id chunks := by
  intro hmodern
  rcases chunks with _ | ⟨c, cs⟩
  · exact hne rfl
  · obtain ⟨-, last, ordinal, hmeta⟩ := hmodern.chunk c mem_cons_self
    rw [h.chunk c mem_cons_self] at hmeta
    exact nomatch hmeta

theorem apartFeed_wellFormed : WellFormed apartFeed := by
  have hnumbers : lineNumbers apartFeed = [0, 1, 2] := by decide
  have hlegacy : ∀ k ∈ [0, 1], IsLegacy (chunksOf apartFeed k) ∧ chunksOf apartFeed k ≠ [] := by
    intro k hk
    rcases mem_pair.mp hk with rfl | rfl
    · exact ⟨⟨by simp [chunksOf, apartFeed], by simp [chunksOf, apartFeed]⟩, by simp [chunksOf, apartFeed]⟩
    · exact ⟨⟨by simp [chunksOf, apartFeed], by simp [chunksOf, apartFeed]⟩, by simp [chunksOf, apartFeed]⟩
  have hmodern : IsModern "a".toList (chunksOf apartFeed 2) :=
    ⟨by simp, by simp [chunksOf, apartFeed], by simp [chunksOf, apartFeed]⟩
  have hcases {k : ℕ} (hk : k ∈ lineNumbers apartFeed) : k ∈ [0, 1] ∨ k = 2 := by
    rw [hnumbers] at hk
    simpa [or_assoc] using hk
  have honly {k : ℕ} {id : Text} (hk : k ∈ lineNumbers apartFeed) (h : IsModern id (chunksOf apartFeed k)) : k = 2 :=
    (hcases hk).resolve_left fun hk => (hlegacy k hk).1.not_isModern (hlegacy k hk).2 h
  refine ⟨fun k hk => ?_, fun j hj k hk id h h' => (honly hj h).trans (honly hk h').symm⟩
  rcases hcases hk with hk | rfl
  · exact .inl (hlegacy k hk).1
  · exact .inr ⟨_, hmodern⟩

/-- Lines that do not cross are put together again. -/
theorem reassembled_apart : Reassembled apartFeed := by
  have hlines : LineByLine apartFeed := by
    refine ⟨[0, 1], by simp, fun k => ?_, by simp [chunksOf, keyed, apartFeed, keyOf], by
      simp [chunksOf, apartFeed, isOver, ends]⟩
    simp [apartFeed, keyOf]
    omega
  have hfits : ∀ k ∈ lineNumbers apartFeed, Fits (chunksOf apartFeed k) := by
    have hnumbers : lineNumbers apartFeed = [0, 1, 2] := by decide
    rw [hnumbers]
    simp [Fits, chunksOf, apartFeed, bytesOf, maxAssembledBytes]
  exact (reassembled_iff apartFeed_wellFormed).mpr ⟨hlines, hfits⟩

/-- Lines of two streams that cross are cut and mixed. -/
theorem crossed_mixed : WellFormed crossedFeed ∧
    (assembleAll (crossedFeed.map Prod.snd)).map viewOf =
      [(streamName false, 2, [104, 101, 101, 114, 114]), (streamName false, 3, [108, 108, 111])] ∧
    ¬Reassembled crossedFeed := by
  have hnumbers : lineNumbers crossedFeed = [1, 0] := by decide
  refine ⟨⟨fun k hk => ?_, fun j hj k hk id h _ => ?_⟩, by decide, fun h => ?_⟩
  · rw [hnumbers] at hk
    rcases mem_pair.mp hk with rfl | rfl
    · exact .inl ⟨by simp [chunksOf, crossedFeed], by simp [chunksOf, crossedFeed]⟩
    · exact .inl ⟨by simp [chunksOf, crossedFeed], by simp [chunksOf, crossedFeed]⟩
  · obtain ⟨c, hc, -⟩ := mem_lineNumbers.mp hj
    have hnone : ∀ c ∈ crossedFeed, c.2.partialLogMetadata = none := by simp [crossedFeed]
    obtain ⟨d, hd⟩ := exists_mem_of_ne_nil _ (chunksOf_ne_nil.mpr hj)
    obtain ⟨-, last, ordinal, hmeta⟩ := h.chunk d hd
    rw [hnone d (mem_of_mem_filter hd)] at hmeta
    exact nomatch hmeta
  · exact absurd (h.map fun p => p.1.map Prod.fst) (by decide)

end Imbh.Docker
