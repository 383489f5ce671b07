import Imbh.Manifest.Log

/-!
# What the calls on the manifest preserve

A persist that succeeds leaves a directory from which the view is read, whatever a crash takes. One
that fails may leave the view beside the states that could be read before. This is under `PersistOk`:
the writer and the files agree, and a delta goes right behind the last frame that is read.
-/

namespace Imbh.ManifestLog

open Lib List Option Function
open Storage (Table)

section

variable {xxh3 : Bytes → UInt64} {ms ms' : List Manifest} {f : LogFile} {d : Dir} {n : ℕ}

/-! ## Rolls -/

variable {w w' : ManifestWriter} {fs : Faults} {d' : Dir} {res : Except ManifestError Unit}

/-- The frame of the call is complete in its file. -/
def Faults.frameComplete (fs : Faults) : Bool := !fs.create && fs.write.isNone

/-- What a call that fails may have put on the disk. -/
def Faults.maybe (fs : Faults) (m : Manifest) : List Manifest :=
  if fs.frameComplete then [m] else []

/-- What a roll can do: fail before `CURRENT` is renamed, fail behind that, or succeed. -/
theorem writeCheckpoint_cases {m : Manifest}
    (h : writeCheckpoint xxh3 fs m n d w = (d', w', res)) :
    (res.isOk = false ∧ w' = w ∧ (d' = d ∨ ∃ f, d' = d.setLog n f)) ∨
    (res.isOk = false ∧ w' = w ∧ fs.frameComplete = true ∧
      d' = { d with
        current := some (currentText n)
        earlier := d.current :: d.earlier
        logs := (d.setLog n (some (checkpointFile xxh3 m))).logs }) ∨
    (res.isOk = true ∧
      w' = { w with
        currentNum := n
        logBytes := (checkpointFile xxh3 m).bytes.length } ∧
      d'.current = some (currentText n) ∧ d'.earlier = [] ∧
      d'.logs n = some (checkpointFile xxh3 m) ∧ d'.legacy = d.legacy) := by
  unfold writeCheckpoint writeManifestFile at h
  by_cases hcreate : fs.create = true
  · simp only [hcreate, if_true] at h
    cases h
    exact .inl ⟨rfl, rfl, .inl rfl⟩
  · simp only [hcreate] at h
    by_cases hok : fs.writeOk = true
    · have hnone : fs.write = none := by
        unfold Faults.writeOk at hok
        rw [Bool.and_eq_true] at hok
        exact isNone_iff_eq_none.mp hok.1
      have hwritten : ∀ b, written fs b = b := by
        intro b
        unfold written
        rw [hnone]
      simp only [hok, if_true, hwritten] at h
      unfold writeCurrent at h
      by_cases hrename : fs.rename = true
      · simp only [hrename, if_true] at h
        cases h
        exact .inl ⟨rfl, rfl, .inr ⟨_, rfl⟩⟩
      · simp only [hrename] at h
        by_cases hsync : fs.dirFsync = true
        · simp only [hsync, if_true] at h
          cases h
          refine .inr (.inl ⟨rfl, rfl, ?_, rfl⟩)
          unfold Faults.frameComplete
          rw [hnone, Bool.not_eq_true _ |>.mp hcreate]
          rfl
        · simp only [hsync, if_false, Bool.false_eq_true] at h
          right
          right
          have hself : ∀ f, (d.setLog n f).logs n = f := fun f => update_self _ _ _
          split at h
          · rename_i hprev
            cases h
            refine ⟨rfl, ?_, rfl, rfl, ?_, rfl⟩
            · rw [checkpointFile, frame_length]
            · exact (update_of_ne (Ne.symm hprev.2.1) _ _).trans (hself _)
          · cases h
            refine ⟨rfl, ?_, rfl, rfl, hself _, rfl⟩
            rw [checkpointFile, frame_length]
    · simp only [hok, if_false, Bool.false_eq_true] at h
      cases h
      exact .inl ⟨rfl, rfl, .inr ⟨_, rfl⟩⟩

/-- **A roll** to a log that `CURRENT` does not name, and did not before a rename that may be
lost. -/
theorem writeCheckpoint_holds {m : Manifest} (hd : DirHolds xxh3 d ms) (hn : n < 2 ^ 64)
    (hnamed : ∀ c ∈ d.current :: d.earlier, c ≠ some (currentText n)) (hm : m.Plain)
    (hlen : (encodeEdit m.checkpointEdit).length < 2 ^ 32)
    (h : writeCheckpoint xxh3 fs m n d w = (d', w', res)) :
    DirHolds xxh3 d' (if res.isOk then [m] else ms ++ fs.maybe m) := by
  have hfile : LogHolds xxh3 (checkpointFile xxh3 m) [m] := logHolds_checkpointFile hm hlen
  have hset : ∀ f, ∀ c ∈ d.current :: d.earlier, CurrentHolds xxh3 (d.setLog n f) ms c := by
    intro f c hc
    refine CurrentHolds.setLog ?_ (hnamed c hc) f
    rcases mem_cons.mp hc with rfl | hc
    · exact hd.current
    · exact hd.earlier c hc
  have hleft : ms ⊆ ms ++ fs.maybe m := subset_append_left _ _
  rcases writeCheckpoint_cases h with ⟨hres, -, hd'⟩ | ⟨hres, -, hcomplete, rfl⟩ |
    ⟨hres, -, hcur, hear, hlog, -⟩
  · rw [hres, if_neg Bool.false_ne_true]
    rcases hd' with rfl | ⟨f, rfl⟩
    · exact hd.mono hleft
    · refine ⟨(hset f _ mem_cons_self).mono hleft, fun c hc => ?_, hd.fresh⟩
      exact (hset f c (mem_cons_of_mem _ hc)).mono hleft
  · have hmaybe : fs.maybe m = [m] := by rw [Faults.maybe, if_pos hcomplete]
    rw [hres, if_neg Bool.false_ne_true, hmaybe]
    refine ⟨?_, fun c hc => ?_, fun hnone => by cases hnone⟩
    · exact currentHolds_setLog (d := d) hn (hfile.mono (subset_append_right _ _))
    · exact (hset _ c hc).mono (hmaybe ▸ hleft)
  · rw [hres, if_pos rfl]
    refine ⟨?_, fun c hc => ?_, fun _ => hear⟩
    · rw [hcur]
      exact ⟨n, _, rfl, hn, hlog, hfile⟩
    · rw [hear] at hc
      exact absurd hc not_mem_nil

/-! ## Persists -/

/-- What `CURRENT` holds when the writer's log is the active one. -/
def ManifestWriter.activeText (w : ManifestWriter) : Option Text :=
  if w.currentNum = 0 then none else some (currentText w.currentNum)

/-- A persist that has something to write rolls. -/
def Rolls (w : ManifestWriter) (view : Manifest) : Prop :=
  w.currentNum = 0 ∨ checkpointBytes < w.logBytes + (header + (deltaPayload w view).length)

instance (w : ManifestWriter) (view : Manifest) : Decidable (Rolls w view) :=
  inferInstanceAs (Decidable (_ ∨ _))

/-- What a persist does that is not a roll: the state read back from the writer's log is the one the
writer takes it for, the new one keeps the segments of that in their order, and the frame goes right
behind the last one that is read; or there is nothing to write, and every frame that is read is on
stable storage. -/
structure DeltaOk (xxh3 : Bytes → UInt64) (w : ManifestWriter) (view : Manifest) (f : LogFile) :
    Prop where
  last : replayPayloads (scanFrames xxh3 f.bytes).1 {} = .ok w.last
  retained : Manifest.Retained w.last view
  tail : if (w.last.diff view).isEmpty then (scanFrames xxh3 f.bytes).2 ≤ f.synced
    else (scanFrames xxh3 f.bytes).2 = f.bytes.length

/-- What a persist needs: the paths of the view can be written, `CURRENT` names the writer's log and
is on stable storage, a checkpoint fits into a frame, and a delta is one of `DeltaOk`. -/
structure PersistOk (xxh3 : Bytes → UInt64) (d : Dir) (w : ManifestWriter) (view : Manifest) :
    Prop where
  plain : view.Plain
  active : d.current = w.activeText
  durable : d.earlier = []
  checkpoint : Rolls w view → (encodeEdit view.checkpointEdit).length < 2 ^ 32
  delta : w.currentNum ≠ 0 → (w.last.diff view).isEmpty ∨ ¬ Rolls w view →
    ∃ f, d.logs w.currentNum = some f ∧ DeltaOk xxh3 w view f

/-- What holds of every writer. -/
structure WriterOk (d : Dir) (w : ManifestWriter) : Prop where
  num : w.currentNum < 2 ^ 64
  fresh : w.currentNum = 0 → d.current = none → w.last = {} ∧ d.legacy = none

variable {view : Manifest}

theorem persist_of_isEmpty (h : (w.last.diff view).isEmpty) :
    persist xxh3 fs view d w = (d, w, .ok ()) := by
  unfold persist
  rw [if_pos h]

/-- The number of the log that a roll writes is the next one. -/
theorem persist_roll (h : ¬ (w.last.diff view).isEmpty) (hroll : Rolls w view) :
    persist xxh3 fs view d w =
      match writeCheckpoint xxh3 fs view (w.currentNum + 1) d w with
      | (d, w, .ok ()) => (d, { w with last := view }, .ok ())
      | (d, w, .error e) => (d, w, .error e) := by
  rcases hwrite : writeCheckpoint xxh3 fs view (w.currentNum + 1) d w with ⟨d', w', e | u⟩
  all_goals
    unfold persist
    rw [if_neg h]
    by_cases hzero : w.currentNum = 0
    · rw [hzero, Nat.zero_add] at hwrite
      simp only [hzero, if_true, hwrite]
    · simp only [hzero, if_false, hroll.resolve_left hzero, if_true, hwrite]

/-- A persist that is not a roll appends the delta. -/
theorem persist_delta (h : ¬ (w.last.diff view).isEmpty) (hroll : ¬ Rolls w view) :
    persist xxh3 fs view d w =
      match appendFrame fs (frame xxh3 (deltaPayload w view)) d w with
      | (d, .ok ()) => (d, { w with
          logBytes := w.logBytes + (header + (deltaPayload w view).length)
          last := view }, .ok ())
      | (d, .error e) => (d, w, .error e) := by
  obtain ⟨hzero, hsmall⟩ := not_or.mp hroll
  unfold persist
  rw [if_neg h]
  simp only [hzero, if_false, hsmall]
  rcases appendFrame fs (frame xxh3 (deltaPayload w view)) d w with ⟨d', e | u⟩
  · rfl
  · rfl

/-- What an append of a frame to a log can do: fail before anything is written, fail in the write or
in the fsync, or succeed. -/
theorem appendFrame_cases {bytes : Bytes} (hb : bytes ≠ []) (hf : d.logs w.currentNum = some f)
    (h : appendFrame fs bytes d w = (d', res)) :
    (res.isOk = false ∧ d' = d) ∨
    (∃ k < bytes.length, res.isOk = false ∧
      d' = d.setLog w.currentNum (some ⟨f.bytes ++ bytes.take k, f.synced⟩)) ∨
    (res.isOk = false ∧ fs.frameComplete = true ∧
      d' = d.setLog w.currentNum (some ⟨f.bytes ++ bytes, f.synced⟩)) ∨
    (res.isOk = true ∧
      d' = d.setLog w.currentNum (some ⟨f.bytes ++ bytes, (f.bytes ++ bytes).length⟩)) := by
  unfold appendFrame at h
  rw [hf] at h
  by_cases hcreate : fs.create = true
  · simp only [hcreate, if_true] at h
    cases h
    exact .inl ⟨rfl, rfl⟩
  · simp only [hcreate] at h
    unfold written Faults.writeOk at h
    rcases hw : fs.write with _ | k
    · rw [hw] at h
      have hcomplete : fs.frameComplete = true := by
        unfold Faults.frameComplete
        rw [hw, Bool.not_eq_true _ |>.mp hcreate]
        rfl
      by_cases hsync : fs.sync = true
      · simp [hsync] at h
        exact .inr (.inr (.inl ⟨h.2 ▸ rfl, hcomplete, h.1.symm⟩))
      · simp [hsync] at h
        exact .inr (.inr (.inr ⟨h.2 ▸ rfl, by simpa using h.1.symm⟩))
    · rw [hw] at h
      simp at h
      have hpos : 0 < bytes.length := length_pos_of_ne_nil hb
      exact .inr (.inl ⟨min k (bytes.length - 1), by omega, h.2 ▸ rfl, h.1.symm⟩)

/-- The delta of a persist that does not roll fits into a frame. -/
theorem good_delta (hlast : w.last.Plain) (hview : view.Plain) (hroll : ¬ Rolls w view) :
    (w.last.diff view).Good := by
  refine ⟨plain_diff hlast hview, ?_⟩
  have hsmall := (not_or.mp hroll).2
  unfold deltaPayload checkpointBytes at hsmall
  have hbound : (2 : ℕ) ^ 18 < 2 ^ 32 := by decide
  omega

/-- An append to the active log, when that is the only one that `CURRENT` may name. -/
theorem DirHolds.setActive (h : DirHolds xxh3 d ms) (hn : n < 2 ^ 64)
    (hcur : d.current = some (currentText n)) (hear : d.earlier = []) {f' : LogFile}
    (hf : LogHolds xxh3 f' ms') : DirHolds xxh3 (d.setLog n (some f')) ms' := by
  refine ⟨?_, fun c hc => ?_, h.fresh⟩
  · show CurrentHolds xxh3 _ ms' d.current
    rw [hcur]
    exact currentHolds_setLog hn hf
  · rw [show (d.setLog n (some f')).earlier = d.earlier by rfl, hear] at hc
    exact absurd hc not_mem_nil

/-- A persist that has nothing to write. -/
theorem persist_holds_of_isEmpty (hd : DirHolds xxh3 d ms) (hw : WriterOk d w)
    (hok : PersistOk xxh3 d w view) (hempty : (w.last.diff view).isEmpty) :
    DirHolds xxh3 d [view] := by
  have hear : ∀ c ∈ d.earlier, CurrentHolds xxh3 d [view] c := by
    intro c hc
    rw [hok.durable] at hc
    exact absurd hc not_mem_nil
  refine ⟨?_, hear, hd.fresh⟩
  by_cases hzero : w.currentNum = 0
  · have hnone : d.current = none := by rw [hok.active, ManifestWriter.activeText, if_pos hzero]
    obtain ⟨hlast, hlegacy⟩ := hw.fresh hzero hnone
    have hretained : Manifest.Retained {} view := fun t => by simp [paths]
    have hview : view = {} := Manifest.eq_of_diff_isEmpty hretained (hlast ▸ hempty)
    rw [hnone, hview]
    exact ⟨{}, mem_singleton.mpr rfl, by rw [legacyState, hlegacy]⟩
  · obtain ⟨f, hf, hdelta⟩ := hok.delta hzero (.inl hempty)
    have hcur : d.current = some (currentText w.currentNum) := by
      rw [hok.active, ManifestWriter.activeText, if_neg hzero]
    have hview : view = w.last := Manifest.eq_of_diff_isEmpty hdelta.retained hempty
    have htail := hdelta.tail
    rw [if_pos hempty] at htail
    obtain ⟨g, hg, hlog⟩ := hd.log hw.num hcur
    obtain rfl : f = g := some.inj (hf.symm.trans hg)
    rw [hcur, hview]
    exact ⟨w.currentNum, f, rfl, hw.num, hf, hlog.settle htail hdelta.last⟩

/-- A persist that appends a delta. -/
theorem persist_holds_of_delta (hd : DirHolds xxh3 d ms) (hw : WriterOk d w)
    (hok : PersistOk xxh3 d w view) (hempty : ¬ (w.last.diff view).isEmpty)
    (hroll : ¬ Rolls w view)
    (h : appendFrame fs (frame xxh3 (deltaPayload w view)) d w = (d', res)) :
    DirHolds xxh3 d' (if res.isOk then [view] else ms ++ fs.maybe view) := by
  have hzero : w.currentNum ≠ 0 := (not_or.mp hroll).1
  obtain ⟨f, hf, hdelta⟩ := hok.delta hzero (.inr hroll)
  have hcur : d.current = some (currentText w.currentNum) := by
    rw [hok.active, ManifestWriter.activeText, if_neg hzero]
  obtain ⟨g, hg, hlog⟩ := hd.log hw.num hcur
  obtain rfl : f = g := some.inj (hf.symm.trans hg)
  have hclean := hdelta.tail
  rw [if_neg hempty] at hclean
  have hgood : (w.last.diff view).Good := good_delta (hlog.plain hdelta.last) hok.plain hroll
  have hview : w.last.applyEdit (w.last.diff view) = view :=
    (Manifest.applyEdit_diff_iff _ _).mpr hdelta.retained
  have hne : frame xxh3 (deltaPayload w view) ≠ [] := (manifestFraming xxh3).enc_ne_nil _
  have hleft : ms ⊆ ms ++ fs.maybe view := subset_append_left _ _
  rcases appendFrame_cases hne hf h with ⟨hres, rfl⟩ | ⟨k, hk, hres, rfl⟩ |
    ⟨hres, hcomplete, rfl⟩ | ⟨hres, rfl⟩
  all_goals rw [hres]
  · exact hd.mono hleft
  · exact (hd.setActive hw.num hcur hok.durable (hlog.appendTorn hclean hgood hk)).mono hleft
  · have hmaybe : fs.maybe view = [view] := by rw [Faults.maybe, if_pos hcomplete]
    have hlog' := hlog.appendUnsynced hclean hdelta.last hgood
    rw [hview] at hlog'
    rw [hmaybe]
    exact hd.setActive hw.num hcur hok.durable hlog'
  · have hlog' := hlog.append hclean hdelta.last hgood
    rw [hview] at hlog'
    exact hd.setActive hw.num hcur hok.durable hlog'

/-- **A persist**, wherever it fails. -/
theorem persist_holds (hd : DirHolds xxh3 d ms) (hw : WriterOk d w)
    (hok : PersistOk xxh3 d w view)
    (hnum : ¬ (w.last.diff view).isEmpty → Rolls w view → w.currentNum + 1 < 2 ^ 64)
    (h : persist xxh3 fs view d w = (d', w', res)) :
    DirHolds xxh3 d' (if res.isOk then [view] else ms ++ fs.maybe view) ∧ WriterOk d' w' := by
  by_cases hempty : (w.last.diff view).isEmpty
  · rw [persist_of_isEmpty hempty] at h
    cases h
    exact ⟨persist_holds_of_isEmpty hd hw hok hempty, hw⟩
  by_cases hroll : Rolls w view
  · rw [persist_roll hempty hroll] at h
    have hlt := hnum hempty hroll
    have hnamed : ∀ c ∈ d.current :: d.earlier, c ≠ some (currentText (w.currentNum + 1)) := by
      intro c hc
      rw [hok.durable] at hc
      rw [mem_singleton.mp hc, hok.active, ManifestWriter.activeText]
      split
      · exact some_ne_none _ |>.symm
      · intro heq
        have := currentText_injective hw.num hlt (some.inj heq)
        omega
    rcases hwrite : writeCheckpoint xxh3 fs view (w.currentNum + 1) d w with ⟨d₁, w₁, r⟩
    have hholds := writeCheckpoint_holds hd hlt hnamed hok.plain (hok.checkpoint hroll) hwrite
    have hcases := writeCheckpoint_cases hwrite
    rw [hwrite] at h
    rcases r with e | u
    · cases h
      rcases hcases with ⟨-, rfl, hd'⟩ | ⟨-, rfl, -, rfl⟩ | ⟨hres, -⟩
      · refine ⟨hholds, hw.num, fun hz hnone => ?_⟩
        rcases hd' with rfl | ⟨f, rfl⟩
        · exact hw.fresh hz hnone
        · exact hw.fresh hz hnone
      · exact ⟨hholds, hw.num, fun _ hnone => by cases hnone⟩
      · cases hres
    · cases h
      rcases hcases with ⟨hres, -⟩ | ⟨hres, -⟩ | ⟨-, rfl, hcur, -⟩
      · cases hres
      · cases hres
      · exact ⟨hholds, hlt, fun _ hnone => by rw [hcur] at hnone; cases hnone⟩
  · rw [persist_delta hempty hroll] at h
    have hzero : w.currentNum ≠ 0 := (not_or.mp hroll).1
    rcases happend : appendFrame fs (frame xxh3 (deltaPayload w view)) d w with ⟨d₁, r⟩
    have hholds := persist_holds_of_delta hd hw hok hempty hroll happend
    rw [happend] at h
    rcases r with e | u
    · cases h
      exact ⟨hholds, hw.num, fun hz => absurd hz hzero⟩
    · cases h
      exact ⟨hholds, hw.num, fun hz => absurd hz hzero⟩

/-! ## Agreement -/

/-- The writer and the files agree: `CURRENT` names the writer's log, which is replayed to the state
the writer takes it for, and all of it is on stable storage. -/
structure Agree (xxh3 : Bytes → UInt64) (d : Dir) (w : ManifestWriter) : Prop where
  active : d.current = w.activeText
  durable : d.earlier = []
  log : w.currentNum ≠ 0 → ∃ f, d.logs w.currentNum = some f ∧
    replayPayloads (scanFrames xxh3 f.bytes).1 {} = .ok w.last ∧
    (scanFrames xxh3 f.bytes).2 = f.bytes.length ∧ f.bytes.length ≤ f.synced

/-- What is left to ask of the view when the writer and the files agree. -/
theorem Agree.persistOk (h : Agree xxh3 d w) (hplain : view.Plain)
    (hlen : (encodeEdit view.checkpointEdit).length < 2 ^ 32)
    (hret : Manifest.Retained w.last view) : PersistOk xxh3 d w view := by
  refine ⟨hplain, h.active, h.durable, fun _ => hlen, fun hzero _ => ?_⟩
  obtain ⟨f, hf, hlast, hclean, hsynced⟩ := h.log hzero
  refine ⟨f, hf, hlast, hret, ?_⟩
  split
  · exact hclean.trans_le hsynced
  · exact hclean

/-- **A persist that succeeds leaves them in agreement.** -/
theorem persist_agrees (hd : DirHolds xxh3 d ms) (hw : WriterOk d w) (ha : Agree xxh3 d w)
    (hok : PersistOk xxh3 d w view) (h : persist xxh3 fs view d w = (d', w', res))
    (hres : res.isOk = true) : Agree xxh3 d' w' := by
  by_cases hempty : (w.last.diff view).isEmpty
  · rw [persist_of_isEmpty hempty] at h
    cases h
    exact ha
  by_cases hroll : Rolls w view
  · rw [persist_roll hempty hroll] at h
    rcases hwrite : writeCheckpoint xxh3 fs view (w.currentNum + 1) d w with ⟨d₁, w₁, r⟩
    have hcases := writeCheckpoint_cases hwrite
    rw [hwrite] at h
    rcases r with e | u
    · cases h
      cases hres
    · cases h
      rcases hcases with ⟨hbad, -⟩ | ⟨hbad, -⟩ | ⟨-, rfl, hcur, hear, hlog, -⟩
      · cases hbad
      · cases hbad
      · have hat : LogAt xxh3 _ _ _ _ := logAt_checkpointFile hok.plain (hok.checkpoint hroll)
        refine ⟨?_, hear, fun _ => ⟨_, hlog, ?_, hat.scan_length, le_rfl⟩⟩
        · rw [hcur, ManifestWriter.activeText, if_neg (Nat.succ_ne_zero _)]
        · rw [hat.replay, append_nil, replayEdits_checkpointEdit]
  · have hzero : w.currentNum ≠ 0 := (not_or.mp hroll).1
    have hcur : d.current = some (currentText w.currentNum) := by
      rw [hok.active, ManifestWriter.activeText, if_neg hzero]
    obtain ⟨f, hf, hlast, hclean, -⟩ := ha.log hzero
    obtain ⟨f', hf', hdelta⟩ := hok.delta hzero (.inr hroll)
    obtain ⟨g, hg, hlog⟩ := hd.log hw.num hcur
    obtain rfl : f = g := some.inj (hf.symm.trans hg)
    have hgood : (w.last.diff view).Good := good_delta (hlog.plain hlast) hok.plain hroll
    obtain ⟨es, gs, t, hat, -⟩ := hlog
    have ht := hat.clean hclean
    subst ht
    have hat' := hat.append hgood
    rw [persist_delta hempty hroll] at h
    rcases happend : appendFrame fs (frame xxh3 (deltaPayload w view)) d w with ⟨d₁, r⟩
    have hcases := appendFrame_cases ((manifestFraming xxh3).enc_ne_nil _) hf happend
    rw [happend] at h
    rcases r with e | u
    · cases h
      cases hres
    · cases h
      rcases hcases with ⟨hbad, -⟩ | ⟨k, -, hbad, -⟩ | ⟨hbad, -⟩ | ⟨-, rfl⟩
      · cases hbad
      · cases hbad
      · cases hbad
      · refine ⟨hok.active, hok.durable, fun _ => ⟨_, update_self _ _ _, ?_,
          hat'.scan_length, le_rfl⟩⟩
        have heq : replayEdits (es ++ gs) = w.last := Except.ok.inj (hat.replay.symm.trans hlast)
        refine hat'.replay.trans ?_
        rw [append_nil, replayEdits_concat, heq]
        exact congrArg Except.ok ((Manifest.applyEdit_diff_iff _ _).mpr hdelta.retained)

/-! ## Opening -/

/-- A whole-file manifest that is migrated has paths that can be written, and its checkpoint fits
into a frame. -/
def OpenOk (d : Dir) : Prop :=
  ∀ file m, d.current = none → d.legacy = some file → loadLegacy file = .ok m →
    m.Plain ∧ (encodeEdit m.checkpointEdit).length < 2 ^ 32

variable {opened : Except ManifestError (Manifest × ManifestWriter)}

/-- **An open**, wherever it fails. -/
theorem openManifest_holds (hd : DirHolds xxh3 d ms) (hok : OpenOk d)
    (h : openManifest xxh3 fs d = (d', opened)) :
    DirHolds xxh3 d' ms ∧ ∀ m w, opened = .ok (m, w) → m ∈ ms ∧ WriterOk d' w := by
  have hc := hd.current
  unfold openManifest at h
  rcases hcur : d.current with _ | s
  · rw [hcur] at hc
    obtain ⟨m, hm, hstate⟩ := hc
    have hread : readCurrent d = .ok none := by rw [readCurrent, hcur]
    simp only [hread] at h
    unfold legacyState at hstate
    rcases hl : d.legacy with _ | file
    · simp only [hl] at h hstate
      cases h
      refine ⟨hd, fun m' w' heq => ?_⟩
      cases heq
      cases hstate
      exact ⟨hm, by decide, fun _ _ => ⟨rfl, hl⟩⟩
    · simp only [hl] at h hstate
      simp only [hstate] at h
      have hone : [m] ⊆ ms := fun x hx => by rwa [mem_singleton.mp hx]
      obtain ⟨hplain, hlen⟩ := hok file m hcur hl hstate
      have hnamed : ∀ c ∈ d.current :: d.earlier, c ≠ some (currentText 1) := by
        intro c hc
        rw [hd.fresh hcur, hcur] at hc
        rw [mem_singleton.mp hc]
        exact (some_ne_none _).symm
      rcases hwrite : writeCheckpoint xxh3 fs m 1 d {} with ⟨d₁, w₁, r⟩
      have hholds := writeCheckpoint_holds hd (by decide) hnamed hplain hlen hwrite
      have hcases := writeCheckpoint_cases hwrite
      rw [hwrite] at h
      rcases r with e | u
      · cases h
        refine ⟨hholds.mono ?_, fun m' w' heq => by cases heq⟩
        intro x hx
        rcases mem_append.mp hx with hx | hx
        · exact hx
        · unfold Faults.maybe at hx
          split at hx
          · rw [mem_singleton.mp hx]
            exact hm
          · cases hx
      · cases h
        rcases hcases with ⟨hbad, -⟩ | ⟨hbad, -⟩ | ⟨-, rfl, hcur', hear, hlog, -⟩
        · cases hbad
        · cases hbad
        · have hname : CurrentHolds xxh3 d₁ ms (some (currentText 1)) :=
            ⟨1, _, rfl, by decide, hlog, (logHolds_checkpointFile hplain hlen).mono
              hone⟩
          refine ⟨?_, fun m' w' heq => ?_⟩
          · split
            · exact hholds.mono hone
            · refine ⟨?_, fun c hc => ?_, fun _ => hear⟩
              · show CurrentHolds xxh3 _ ms d₁.current
                rw [hcur']
                exact hname
              · rw [show ({ d₁ with legacy := none } : Dir).earlier = d₁.earlier by rfl, hear] at hc
                exact absurd hc not_mem_nil
          · cases heq
            exact ⟨hm, (by decide : 1 < 2 ^ 64), fun hz => absurd hz Nat.one_ne_zero⟩
  · rw [hcur] at hc
    obtain ⟨n, f, rfl, hn, hf, hlog⟩ := hc
    obtain ⟨m, hm, hreplay⟩ := hlog.replay
    simp only [readCurrent_currentText hn hcur, replay, hf, hreplay, Except.map] at h
    cases h
    refine ⟨hd, fun m' w' heq => ?_⟩
    cases heq
    exact ⟨hm, hn, fun _ hnone => by rw [hcur] at hnone; cases hnone⟩

/-- An open none of whose file operations fails gives what a reader reads. -/
theorem DirHolds.open (h : DirHolds xxh3 d ms) :
    ∃ m ∈ ms, ManifestLog.read xxh3 d = .ok m ∧
      (openManifest xxh3 {} d).2.map Prod.fst = .ok m := by
  obtain ⟨m, hm, hread⟩ := h.read
  refine ⟨m, hm, hread, ?_⟩
  have hc := h.current
  unfold ManifestLog.read currentReadTries readLoop at hread
  unfold openManifest
  rcases hcur : d.current with _ | s
  · have hnone : readCurrent d = .ok none := by rw [readCurrent, hcur]
    simp only [hnone] at hread ⊢
    rcases hl : d.legacy with _ | file
    · simp only [hl] at hread ⊢
      exact hread
    · simp only [hl] at hread ⊢
      simp only [hread, writeCheckpoint, writeManifestFile, writeCurrent, Faults.writeOk]
      rfl
  · rw [hcur] at hc
    obtain ⟨n, f, rfl, hn, hf, hlog⟩ := hc
    obtain ⟨m', -, hreplay⟩ := hlog.replay
    simp only [readCurrent_currentText hn hcur, replay, hf, hreplay, Except.map] at hread ⊢
    exact hread

end

end Imbh.ManifestLog
