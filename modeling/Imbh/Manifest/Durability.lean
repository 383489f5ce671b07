import Imbh.Lib.Runs
import Imbh.Manifest.Calls

/-!
# Durability of the manifest

The system is the directory and, while a process is up, its writer. An event is a call, any of whose
file operations may fail, or a crash, which may come in the middle of a call.

The state has two things that no code keeps: `acked` — the view of the last persist that returned Ok
— and `later` — the views of the persists after it that failed with their frame complete.

* `reconstructs_acked` — what is read back is `acked` or one of `later`, under `CallOk`.
* `torn_append_loses_persist` — the behaviour that `CallOk` leaves out.
-/

namespace Imbh.ManifestLog

open Lib
open Storage (Table)

/-- The calls on the manifest. -/
inductive Call
  | open
  | persist (view : Manifest)

/-- What happens: a call, or a crash with the call it interrupts, how much of each log's unsynced
bytes it keeps, and which rename of `CURRENT` it takes back. -/
inductive Event
  | call (c : Call) (fs : Faults)
  | crash (cut : Option (Call × Faults)) (keep : ℕ → ℕ) (back : Option ℕ)

/-- The directory and the writer. -/
structure Sys where
  dir : Dir
  writer : Option ManifestWriter
  acked : Manifest
  later : List Manifest

/-- A directory with at most a whole-file manifest, which holds the state `m`. -/
def Sys.init (legacy : Option Bytes) (m : Manifest) : Sys :=
  ⟨⟨none, [], fun _ => none, legacy⟩, none, m, []⟩

section system

variable (xxh3 : Bytes → UInt64)

/-- One call. It is not enabled when there is no writer (or there is one, for `open`), and when the
number of the log would overflow. -/
def exec (s : Sys) : Call → Faults → Option Sys
  | .open, fs =>
      match s.writer with
      | some _ => none
      | none =>
          match openManifest xxh3 fs s.dir with
          | (d, .error _) => some { s with dir := d }
          | (d, .ok (_, w)) => some { s with dir := d, writer := some w }
  | .persist view, fs =>
      match s.writer with
      | none => none
      | some w =>
          if ¬ (w.last.diff view).isEmpty ∧ Rolls w view ∧ 2 ^ 64 ≤ w.currentNum + 1 then none else
          let (d, w', res) := persist xxh3 fs view s.dir w
          some {
            dir := d
            writer := some w'
            acked := if res.isOk then view else s.acked
            later := if res.isOk then [] else s.later ++ fs.maybe view }

/-- The process is gone and the directory is what the crash left of it. -/
def Sys.down (keep : ℕ → ℕ) (back : Option ℕ) (s : Sys) : Sys :=
  { s with dir := crashDir keep back s.dir, writer := none }

/-- One event. -/
def step (s : Sys) : Event → Option Sys
  | .call c fs => exec xxh3 s c fs
  | .crash none keep back => some (s.down keep back)
  | .crash (some (c, fs)) keep back => (exec xxh3 s c fs).map (Sys.down keep back)

/-- The call of an event, also when a crash interrupts it. -/
def Event.call? : Event → Option Call
  | .call c _ => some c
  | .crash cut _ _ => cut.map Prod.fst

/-- What the call of an event needs. -/
def CallOk (s : Sys) (e : Event) : Prop :=
  match e.call? with
  | none => True
  | some .open => OpenOk s.dir
  | some (.persist view) => ∀ w, s.writer = some w → PersistOk xxh3 s.dir w view

/-- A reader and the next open reconstruct the view of the last persist that returned Ok, or of one
after it that failed with its frame complete. -/
def Reconstructs (s : Sys) : Prop :=
  ∃ m ∈ s.acked :: s.later, read xxh3 s.dir = .ok m ∧
    (openManifest xxh3 {} s.dir).2.map Prod.fst = .ok m

/-- The invariant. -/
structure Inv (s : Sys) : Prop where
  holds : DirHolds xxh3 s.dir (s.acked :: s.later)
  writer : ∀ w, s.writer = some w → WriterOk s.dir w

end system

variable {xxh3 : Bytes → UInt64}

theorem inv_init {legacy : Option Bytes} {m : Manifest}
    (h : legacyState (Sys.init legacy m).dir = .ok m) : Inv xxh3 (Sys.init legacy m) := by
  refine ⟨⟨⟨m, List.mem_cons_self, h⟩, fun c hc => absurd hc List.not_mem_nil, fun _ => rfl⟩, ?_⟩
  intro w hw
  cases hw

/-- A call keeps the invariant, wherever it fails. -/
theorem exec_inv {s s' : Sys} {c : Call} {fs : Faults} (h : Inv xxh3 s)
    (hok : CallOk xxh3 s (.call c fs)) (hs : exec xxh3 s c fs = some s') : Inv xxh3 s' := by
  rcases c with _ | view
  · rcases hw : s.writer with _ | w
    · simp only [exec, hw] at hs
      rcases hopen : openManifest xxh3 fs s.dir with ⟨d, res⟩
      obtain ⟨hd, hwriter⟩ := openManifest_holds h.holds hok hopen
      rw [hopen] at hs
      rcases res with e | ⟨m, w⟩
      · cases hs
        exact ⟨hd, fun w hw' => by cases hw'⟩
      · cases hs
        refine ⟨hd, fun w' hw' => ?_⟩
        cases hw'
        exact (hwriter m w rfl).2
    · simp [exec, hw] at hs
  · rcases hw : s.writer with _ | w
    · simp [exec, hw] at hs
    · simp only [exec, hw] at hs
      split at hs
      · cases hs
      · rename_i hnum
        rcases hp : persist xxh3 fs view s.dir w with ⟨d, w', res⟩
        have hlt : ¬ (w.last.diff view).isEmpty → Rolls w view → w.currentNum + 1 < 2 ^ 64 :=
          fun hempty hroll => not_le.mp fun hle => hnum ⟨hempty, hroll, hle⟩
        obtain ⟨hd, hwriter⟩ := persist_holds h.holds (h.writer w hw) (hok w hw) hlt hp
        rw [hp] at hs
        cases hs
        refine ⟨?_, fun w'' hw'' => ?_⟩
        · rcases hres : res.isOk with _ | _
          · simp only [hres, if_false, Bool.false_eq_true] at hd ⊢
            exact hd
          · simp only [hres, if_true] at hd ⊢
            exact hd
        · cases hw''
          exact hwriter

theorem Inv.down {s : Sys} (h : Inv xxh3 s) (keep : ℕ → ℕ) (back : Option ℕ) :
    Inv xxh3 (s.down keep back) :=
  ⟨h.holds.crash keep back, fun w hw => by cases hw⟩

/-- Every event keeps the invariant. -/
theorem step_inv {s s' : Sys} {e : Event} (h : Inv xxh3 s) (hok : CallOk xxh3 s e)
    (hs : step xxh3 s e = some s') : Inv xxh3 s' := by
  rcases e with ⟨c, fs⟩ | ⟨_ | ⟨c, fs⟩, keep, back⟩
  · exact exec_inv h hok hs
  · cases hs
    exact h.down keep back
  · obtain ⟨t, ht, rfl⟩ := Option.map_eq_some_iff.mp hs
    exact (exec_inv h hok ht).down keep back

/-- **Durability of the manifest.** After any history of persists, reopens and crashes, any of whose
calls may fail at any of their file operations, all of whose calls are made in a state in which
`CallOk` holds. -/
theorem reconstructs_acked (xxh3 : Bytes → UInt64) (legacy : Option Bytes) (m : Manifest)
    (es : List Event) (s : Sys) (hlegacy : legacyState (Sys.init legacy m).dir = .ok m)
    (hok : Guarded (step xxh3) (CallOk xxh3) (Sys.init legacy m) es)
    (hrun : run (step xxh3) (Sys.init legacy m) es = some s) : Reconstructs xxh3 s := by
  have hinv : Inv xxh3 s :=
    run_induction (Inv xxh3) (fun _ _ _ hi ho hs => step_inv hi ho hs) (inv_init hlegacy) hok hrun
  obtain ⟨x, hx, hread, hopen⟩ := hinv.holds.open
  exact ⟨x, hx, hread, hopen⟩

/-! ## A torn append -/

/-- A view with a watermark and no segments. -/
def atWatermark (n : UInt64) : Manifest := { watermark := n }

/-- A view with one segment. -/
def oneSegment : Manifest where
  segments t := if t = .logs then [⟨"logs/1.seg".toList, 0, 0, 1⟩] else []
  watermark := 1

theorem plain_atWatermark (n : UInt64) : (atWatermark n).Plain :=
  fun _ _ hs => absurd hs List.not_mem_nil

theorem plain_oneSegment : oneSegment.Plain := by
  intro t s hs
  unfold oneSegment at hs
  simp only at hs
  split at hs
  · rw [List.mem_singleton.mp hs]
    decide
  · cases hs

/-- A persist, and a second one that a crash cuts off after four bytes of its frame. -/
def tornPersist : List Event :=
  [.call .open {}, .call (.persist (atWatermark 1)) {},
    .crash (some (.persist oneSegment, { write := some 4 })) (fun _ => 100) none]

/-- A torn persist is passed over, and what was acknowledged is read. -/
theorem reconstructs_acked_tornPersist :
    ∃ s, run (step fun _ => 0) (Sys.init none {}) tornPersist = some s ∧
      s.acked = atWatermark 1 ∧ Reconstructs (fun _ => 0) s := by
  have hok : Guarded (step fun _ => 0) (CallOk fun _ => 0) (Sys.init none {}) tornPersist := by
    refine ⟨fun file m _ h => (by cases h), fun w hw => ?_, fun w hw => ?_, trivial⟩
    · cases hw
      refine Agree.persistOk ?_ (plain_atWatermark 1) (by decide +kernel) fun t => rfl
      exact ⟨rfl, rfl, fun h => absurd rfl h⟩
    · cases hw
      refine Agree.persistOk ?_ plain_oneSegment (by decide +kernel) fun t => by cases t <;> rfl
      have hat : LogAt (fun _ => 0) _ _ _ _ :=
        logAt_checkpointFile (plain_atWatermark 1) (by decide +kernel)
      refine ⟨rfl, rfl, fun _ => ⟨_, rfl, ?_, hat.scan_length, le_rfl⟩⟩
      rw [← replayEdits_checkpointEdit (atWatermark 1)]
      exact hat.replay
  obtain ⟨s, hrun, hacked⟩ : ∃ s, run (step fun _ => 0) (Sys.init none {}) tornPersist = some s ∧
      s.acked = atWatermark 1 := ⟨_, rfl, rfl⟩
  exact ⟨s, hrun, hacked, reconstructs_acked _ none {} tornPersist s rfl hok hrun⟩

/-- A persist, a second one whose append fails after four bytes, and a third one that returns Ok. -/
def tornAppend : List Event :=
  [.call .open {}, .call (.persist (atWatermark 1)) {},
    .call (.persist oneSegment) { write := some 4 },
    .call (.persist (atWatermark 3)) {}]

/-- A failed append leaves the first bytes of its frame in the log, and the next persist appends
behind them: its delta is not read back, whatever the checksum function. -/
theorem torn_append_loses_persist :
    ¬ ∃ xxh3 : Bytes → UInt64, ∀ es s, run (step xxh3) (Sys.init none {}) es = some s →
      Reconstructs xxh3 s := by
  rintro ⟨xxh3, h⟩
  obtain ⟨s, hrun, hacked, hlater, hcur, f, hf, hbytes⟩ :
      ∃ s, run (step xxh3) (Sys.init none {}) tornAppend = some s ∧ s.acked = atWatermark 3 ∧
        s.later = [] ∧ s.dir.current = some (currentText 1) ∧ ∃ f, s.dir.logs 1 = some f ∧
          f.bytes = logBytes xxh3 [(atWatermark 1).checkpointEdit] ++
            ((frame xxh3 (encodeEdit ((atWatermark 1).diff oneSegment))).take 4 ++
              frame xxh3 (encodeEdit ((atWatermark 1).diff (atWatermark 3)))) :=
    ⟨_, rfl, rfl, rfl, rfl, _, rfl, rfl⟩
  -- the torn frame says that it is longer than what follows
  have hstop : ∀ u, (manifestFraming xxh3).item u
      ((frame xxh3 (encodeEdit ((atWatermark 1).diff oneSegment))).take 4 ++
        frame xxh3 (encodeEdit ((atWatermark 1).diff (atWatermark 3)))) = none := fun _ => rfl
  have hgood : ∀ e ∈ [(atWatermark 1).checkpointEdit], e.Good := by
    intro e he
    rw [List.mem_singleton.mp he]
    exact ⟨plain_checkpointEdit (plain_atWatermark 1), by decide +kernel⟩
  have hreplay : replayPayloads (scanFrames xxh3 f.bytes).1 {} = .ok (atWatermark 1) := by
    have hscan := (manifestFraming xxh3).scan_encodeAll_of_item (accepts_encodeEdit hgood) hstop
    rw [hbytes, scanFrames, logBytes, hscan, replayPayloads_encodeEdit hgood]
    exact congrArg Except.ok (replayEdits_checkpointEdit (atWatermark 1))
  have hread : read xxh3 s.dir = .ok (atWatermark 1) := by
    unfold read currentReadTries readLoop
    rw [readCurrent_currentText (by decide) hcur]
    simp only [replay, hf, hreplay, Except.map]
  obtain ⟨m, hm, hread', -⟩ := h tornAppend s hrun
  rw [hacked, hlater, List.mem_singleton] at hm
  rw [hread, hm] at hread'
  have hwatermark := congrArg Manifest.watermark (Except.ok.inj hread')
  exact absurd hwatermark (by decide)

end Imbh.ManifestLog
