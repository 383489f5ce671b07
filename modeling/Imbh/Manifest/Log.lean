import Imbh.Manifest.Files

/-!
# What the manifest files hold

A manifest log is frames of edits and a torn tail. Of the edits, some are on stable storage; the
others a crash may cut off, the last one first. `LogHolds f ms` says that whatever a crash leaves of
the log is replayed to one of the states `ms`, and `DirHolds d ms` says this of the directory, also
when a rename of `CURRENT` is lost.
-/

namespace Imbh.ManifestLog

open Lib List
open Storage (Table)

section

variable {xxh3 : Bytes → UInt64}

/-! ## Edits of a log -/

/-- An edit that a frame can hold. -/
structure Edit.Good (e : Edit) : Prop where
  plain : e.Plain
  short : (encodeEdit e).length < 2 ^ 32

/-- The state after a list of edits. -/
def replayEdits (es : List Edit) : Manifest := es.foldl Manifest.applyEdit {}

/-- The frames of a list of edits. -/
def logBytes (xxh3 : Bytes → UInt64) (es : List Edit) : Bytes :=
  (manifestFraming xxh3).encodeAll (es.map encodeEdit)

@[simp] theorem logBytes_append (es fs : List Edit) :
    logBytes xxh3 (es ++ fs) = logBytes xxh3 es ++ logBytes xxh3 fs := by
  unfold logBytes
  rw [map_append, Framing.encodeAll_append]

theorem logBytes_singleton (e : Edit) : logBytes xxh3 [e] = frame xxh3 (encodeEdit e) :=
  append_nil _

@[simp] theorem replayEdits_concat (es : List Edit) (e : Edit) :
    replayEdits (es ++ [e]) = (replayEdits es).applyEdit e := by
  simp [replayEdits]

theorem replayPayloads_encodeEdit {es : List Edit} (h : ∀ e ∈ es, e.Good) (m : Manifest) :
    replayPayloads (es.map encodeEdit) m = .ok (es.foldl Manifest.applyEdit m) := by
  induction es generalizing m with
  | nil => rfl
  | cons e es ih =>
      rw [map_cons, replayPayloads, decodeEdit_encodeEdit (h e mem_cons_self).plain]
      exact ih (fun x hx => h x (mem_cons_of_mem _ hx)) _

theorem accepts_encodeEdit {es : List Edit} (h : ∀ e ∈ es, e.Good) :
    (manifestFraming xxh3).Accepts () (es.map encodeEdit) := by
  induction es with
  | nil => trivial
  | cons e es ih =>
      exact ⟨(h e mem_cons_self).short, trivial,
        ih fun x hx => h x (mem_cons_of_mem _ hx)⟩

/-! ## A log -/

/-- The log holds the edits `fs`, which are on stable storage, the edits `gs` behind them, and a
torn tail. -/
structure LogAt (xxh3 : Bytes → UInt64) (f : LogFile) (fs gs : List Edit) (t : Bytes) : Prop where
  bytes : f.bytes = logBytes xxh3 (fs ++ gs) ++ t
  torn : (manifestFraming xxh3).Torn t
  good : ∀ e ∈ fs ++ gs, e.Good
  synced : (logBytes xxh3 fs).length ≤ f.synced

/-- Whatever a crash leaves of the log is replayed to one of the states. -/
def LogHolds (xxh3 : Bytes → UInt64) (f : LogFile) (ms : List Manifest) : Prop :=
  ∃ fs gs t, LogAt xxh3 f fs gs t ∧ ∀ k ≤ gs.length, replayEdits (fs ++ gs.take k) ∈ ms

variable {f : LogFile} {fs gs : List Edit} {t : Bytes} {ms ms' : List Manifest} {m : Manifest}

/-- What a scan of the log finds. -/
theorem LogAt.scan (h : LogAt xxh3 f fs gs t) :
    scanFrames xxh3 f.bytes = ((fs ++ gs).map encodeEdit, (logBytes xxh3 (fs ++ gs)).length) := by
  rw [h.bytes]
  exact (manifestFraming xxh3).scan_encodeAll (accepts_encodeEdit h.good) h.torn

theorem LogAt.replay (h : LogAt xxh3 f fs gs t) :
    replayPayloads (scanFrames xxh3 f.bytes).1 {} = .ok (replayEdits (fs ++ gs)) := by
  rw [h.scan]
  exact replayPayloads_encodeEdit h.good {}

/-- A scan takes every byte of a log without a torn tail. -/
theorem LogAt.scan_length (h : LogAt xxh3 f fs gs []) :
    (scanFrames xxh3 f.bytes).2 = f.bytes.length := by
  rw [h.scan, h.bytes, append_nil]

/-- A scan that takes every byte leaves no torn tail. -/
theorem LogAt.clean (h : LogAt xxh3 f fs gs t)
    (hc : (scanFrames xxh3 f.bytes).2 = f.bytes.length) : t = [] := by
  rw [h.scan, h.bytes, length_append] at hc
  exact length_eq_zero_iff.mp (by simp only at hc; omega)

theorem LogHolds.mono (h : LogHolds xxh3 f ms) (hsub : ms ⊆ ms') : LogHolds xxh3 f ms' := by
  obtain ⟨fs, gs, t, hat, hms⟩ := h
  exact ⟨fs, gs, t, hat, fun k hk => hsub (hms k hk)⟩

/-- The log as it is replayed to one of the states. -/
theorem LogHolds.replay (h : LogHolds xxh3 f ms) :
    ∃ m ∈ ms, replayPayloads (scanFrames xxh3 f.bytes).1 {} = .ok m := by
  obtain ⟨fs, gs, t, hat, hms⟩ := h
  refine ⟨_, ?_, hat.replay⟩
  have hall := hms gs.length le_rfl
  rwa [take_length] at hall

/-- **A crash.** What is left are the edits that were synced and some of those behind them. -/
theorem LogHolds.crash (h : LogHolds xxh3 f ms) (n : ℕ) :
    LogHolds xxh3 { f with bytes := f.bytes.take (max f.synced n) } ms := by
  obtain ⟨fs, gs, t, hat, hms⟩ := h
  have hvalid : ∀ p ∈ (fs ++ gs).map encodeEdit, (manifestFraming xxh3).Valid p := by
    intro p hp
    obtain ⟨e, he, rfl⟩ := mem_map.mp hp
    exact (hat.good e he).short
  have hprefix : f.bytes.take (max f.synced n) <+: (manifestFraming xxh3).encodeAll
      ((fs ++ gs).map encodeEdit) ++ t := by
    have hb := take_prefix (max f.synced n) f.bytes
    rwa [hat.bytes] at hb ⊢
  obtain ⟨k, u, hk, hu, hbytes, hmax⟩ :=
    (manifestFraming xxh3).prefix_encodeAll hvalid hat.torn hprefix
  rw [length_map] at hk
  -- every synced edit is left
  have hfs : fs.length ≤ k := by
    refine hmax fs.length (by simp) ?_
    have htake : ((fs ++ gs).map encodeEdit).take fs.length = fs.map encodeEdit := by
      rw [← map_take, take_left]
    have hlen : (logBytes xxh3 fs).length ≤ f.bytes.length := by
      rw [hat.bytes, logBytes_append]
      simp only [length_append]
      omega
    rw [htake, length_take]
    exact le_min ((hat.synced).trans (le_max_left _ _)) hlen
  have hsplit : (fs ++ gs).take k = fs ++ gs.take (k - fs.length) := by
    rw [take_append, take_of_length_le hfs]
  refine ⟨fs, gs.take (k - fs.length), u, ⟨?_, hu, fun e he => ?_, hat.synced⟩, fun j hj => ?_⟩
  · rw [← hsplit]
    show f.bytes.take (max f.synced n) = _
    rw [hbytes, ← map_take]
    rfl
  · rw [← hsplit] at he
    exact hat.good e (mem_of_mem_take he)
  · rw [take_take]
    refine hms _ ((min_le_left _ _).trans ?_)
    exact hj.trans (by rw [length_take]; exact min_le_right _ _)

/-- A write cut short behind a clean log. -/
theorem LogHolds.appendTorn (h : LogHolds xxh3 f ms)
    (hc : (scanFrames xxh3 f.bytes).2 = f.bytes.length) {e : Edit} (he : e.Good) {k : ℕ}
    (hk : k < (frame xxh3 (encodeEdit e)).length) :
    LogHolds xxh3 ⟨f.bytes ++ (frame xxh3 (encodeEdit e)).take k, f.synced⟩ ms := by
  obtain ⟨fs, gs, t, hat, hms⟩ := h
  have ht := hat.clean hc
  subst ht
  refine ⟨fs, gs, _, ⟨?_, (manifestFraming xxh3).torn_take he.short hk, hat.good, hat.synced⟩, hms⟩
  rw [hat.bytes, append_nil]
  rfl

/-- A frame behind a clean log that is not synced. -/
theorem LogHolds.appendUnsynced (h : LogHolds xxh3 f ms)
    (hc : (scanFrames xxh3 f.bytes).2 = f.bytes.length) {last : Manifest}
    (hlast : replayPayloads (scanFrames xxh3 f.bytes).1 {} = .ok last) {e : Edit} (he : e.Good) :
    LogHolds xxh3 ⟨f.bytes ++ frame xxh3 (encodeEdit e), f.synced⟩ (ms ++ [last.applyEdit e]) := by
  obtain ⟨fs, gs, t, hat, hms⟩ := h
  have ht := hat.clean hc
  subst ht
  have heq : replayEdits (fs ++ gs) = last := Except.ok.inj (hat.replay.symm.trans hlast)
  refine ⟨fs, gs ++ [e], [], ⟨?_, (manifestFraming xxh3).torn_nil, fun x hx => ?_, hat.synced⟩,
    fun k hk => ?_⟩
  · rw [hat.bytes, ← append_assoc, logBytes_append (fs ++ gs), logBytes_singleton]
    simp
  · rw [← append_assoc] at hx
    rcases mem_append.mp hx with hx | hx
    · exact hat.good x hx
    · rw [mem_singleton.mp hx]
      exact he
  · rcases Nat.lt_or_ge gs.length k with hlt | hle
    · have htake : (gs ++ [e]).take k = gs ++ [e] :=
        take_of_length_le (by simp only [length_append, length_singleton]; omega)
      rw [htake, ← append_assoc, replayEdits_concat, heq]
      exact mem_append_right _ mem_cons_self
    · rw [take_append_of_le_length hle]
      exact mem_append_left _ (hms k hle)

/-- A frame behind a clean log that is synced with it. -/
theorem LogAt.append (h : LogAt xxh3 f fs gs []) {e : Edit} (he : e.Good) :
    LogAt xxh3 ⟨f.bytes ++ frame xxh3 (encodeEdit e),
      (f.bytes ++ frame xxh3 (encodeEdit e)).length⟩ (fs ++ gs ++ [e]) [] [] := by
  have hbytes : f.bytes ++ frame xxh3 (encodeEdit e) = logBytes xxh3 (fs ++ gs ++ [e]) := by
    rw [logBytes_append, logBytes_singleton, h.bytes, append_nil]
  refine ⟨?_, (manifestFraming xxh3).torn_nil, fun x hx => ?_, ?_⟩
  · rw [append_nil, append_nil]
    exact hbytes
  · rw [append_nil] at hx
    rcases mem_append.mp hx with hx | hx
    · exact h.good x hx
    · rw [mem_singleton.mp hx]
      exact he
  · rw [hbytes]

/-- A frame right behind the last one adds its state. -/
theorem LogHolds.append (h : LogHolds xxh3 f ms)
    (hc : (scanFrames xxh3 f.bytes).2 = f.bytes.length) {last : Manifest}
    (hlast : replayPayloads (scanFrames xxh3 f.bytes).1 {} = .ok last) {e : Edit} (he : e.Good) :
    LogHolds xxh3 ⟨f.bytes ++ frame xxh3 (encodeEdit e),
      (f.bytes ++ frame xxh3 (encodeEdit e)).length⟩ [last.applyEdit e] := by
  obtain ⟨fs, gs, t, hat, -⟩ := h
  have ht := hat.clean hc
  subst ht
  have heq : replayEdits (fs ++ gs) = last := Except.ok.inj (hat.replay.symm.trans hlast)
  refine ⟨fs ++ gs ++ [e], [], [], hat.append he, fun k _ => ?_⟩
  rw [take_nil, append_nil, replayEdits_concat, heq]
  exact mem_cons_self

/-- A log all of whose frames are on stable storage. -/
theorem LogHolds.settle (h : LogHolds xxh3 f ms)
    (hs : (scanFrames xxh3 f.bytes).2 ≤ f.synced) {last : Manifest}
    (hlast : replayPayloads (scanFrames xxh3 f.bytes).1 {} = .ok last) :
    LogHolds xxh3 f [last] := by
  obtain ⟨fs, gs, t, hat, -⟩ := h
  have heq : replayEdits (fs ++ gs) = last := Except.ok.inj (hat.replay.symm.trans hlast)
  rw [hat.scan] at hs
  refine ⟨fs ++ gs, [], t, ⟨?_, hat.torn, ?_, hs⟩, fun k _ => ?_⟩
  · rw [append_nil]
    exact hat.bytes
  · rw [append_nil]
    exact hat.good
  · rw [take_nil, append_nil, heq]
    exact mem_cons_self

/-! ## Paths that can be written -/

theorem Manifest.plain_empty : Manifest.Plain {} := fun _ _ hs => absurd hs not_mem_nil

/-- A plain edit keeps the manifest plain. -/
theorem Manifest.Plain.applyEdit (h : m.Plain) {e : Edit} (he : e.Plain) : (m.applyEdit e).Plain := by
  intro t s hs
  rw [Manifest.applyEdit_segments] at hs
  rcases mem_append.mp hs with hs | hs
  · have hmem := mem_of_mem_filter hs
    split at hmem
    · exact absurd hmem not_mem_nil
    · exact h t s hmem
  · obtain ⟨a, ha, rfl⟩ := mem_map.mp hs
    exact he.added a (mem_of_mem_filter ha)

theorem plain_foldl_applyEdit {es : List Edit} (h : ∀ e ∈ es, e.Plain) (hm : m.Plain) :
    (es.foldl Manifest.applyEdit m).Plain := by
  induction es generalizing m with
  | nil => exact hm
  | cons e es ih =>
      apply ih fun x hx => h x (mem_cons_of_mem _ hx)
      exact hm.applyEdit (h e mem_cons_self)

/-- What a log is replayed to has paths that can be written. -/
theorem LogHolds.plain (h : LogHolds xxh3 f ms) {last : Manifest}
    (hlast : replayPayloads (scanFrames xxh3 f.bytes).1 {} = .ok last) : last.Plain := by
  obtain ⟨fs, gs, t, hat, -⟩ := h
  rw [← Except.ok.inj (hat.replay.symm.trans hlast)]
  exact plain_foldl_applyEdit (fun e he => (hat.good e he).plain) Manifest.plain_empty

theorem plain_checkpointEdit (h : m.Plain) : m.checkpointEdit.Plain := by
  refine ⟨fun r hr => absurd hr not_mem_nil, fun a ha => ?_⟩
  obtain ⟨t, -, ha⟩ := mem_flatMap.mp ha
  obtain ⟨s, hs, rfl⟩ := mem_map.mp ha
  exact h t s hs

theorem plain_diff {m' : Manifest} (h : m.Plain) (h' : m'.Plain) : (m.diff m').Plain := by
  refine ⟨fun r hr => ?_, fun a ha => ?_⟩
  · obtain ⟨t, -, hr⟩ := mem_flatMap.mp hr
    obtain ⟨s, hs, rfl⟩ := mem_map.mp hr
    exact h t s (mem_of_mem_filter hs)
  · obtain ⟨t, -, ha⟩ := mem_flatMap.mp ha
    obtain ⟨s, hs, rfl⟩ := mem_map.mp ha
    exact h' t s (mem_of_mem_filter hs)

/-- The log that a roll writes. -/
def checkpointFile (xxh3 : Bytes → UInt64) (m : Manifest) : LogFile :=
  let bytes := frame xxh3 (encodeEdit m.checkpointEdit)
  ⟨bytes, bytes.length⟩

/-- A checkpoint file reads as its one edit. -/
theorem logAt_checkpointFile (h : m.Plain) (hlen : (encodeEdit m.checkpointEdit).length < 2 ^ 32) :
    LogAt xxh3 (checkpointFile xxh3 m) [m.checkpointEdit] [] [] := by
  refine ⟨?_, (manifestFraming xxh3).torn_nil, fun e he => ?_, ?_⟩
  · rw [append_nil, append_nil, logBytes_singleton]
    rfl
  · rw [append_nil] at he
    rw [mem_singleton.mp he]
    exact ⟨plain_checkpointEdit h, hlen⟩
  · rw [logBytes_singleton]
    exact le_rfl

theorem replayEdits_checkpointEdit (m : Manifest) : replayEdits [m.checkpointEdit] = m :=
  Manifest.applyEdit_checkpointEdit {} m

theorem logHolds_checkpointFile (h : m.Plain) (hlen : (encodeEdit m.checkpointEdit).length < 2 ^ 32) :
    LogHolds xxh3 (checkpointFile xxh3 m) [m] := by
  refine ⟨_, _, _, logAt_checkpointFile h hlen, fun k _ => ?_⟩
  rw [take_nil, append_nil, replayEdits_checkpointEdit]
  exact mem_cons_self

/-! ## The directory -/

variable {d : Dir}

/-- What a directory without `CURRENT` is opened with. -/
def legacyState (d : Dir) : Except ManifestError Manifest :=
  match d.legacy with
  | none => .ok {}
  | some file => loadLegacy file

/-- Were `c` what `CURRENT` holds, then one of the states would be read. -/
def CurrentHolds (xxh3 : Bytes → UInt64) (d : Dir) (ms : List Manifest) : Option Text → Prop
  | none => ∃ m ∈ ms, legacyState d = .ok m
  | some s => ∃ n f, s = currentText n ∧ n < 2 ^ 64 ∧ d.logs n = some f ∧ LogHolds xxh3 f ms

/-- Whatever a crash leaves of the directory, one of the states is read. -/
structure DirHolds (xxh3 : Bytes → UInt64) (d : Dir) (ms : List Manifest) : Prop where
  current : CurrentHolds xxh3 d ms d.current
  earlier : ∀ c ∈ d.earlier, CurrentHolds xxh3 d ms c
  fresh : d.current = none → d.earlier = []

variable {c : Option Text} {n : ℕ}

theorem CurrentHolds.mono (h : CurrentHolds xxh3 d ms c) (hsub : ms ⊆ ms') :
    CurrentHolds xxh3 d ms' c := by
  rcases c with _ | s
  · obtain ⟨m, hm, heq⟩ := h
    exact ⟨m, hsub hm, heq⟩
  · obtain ⟨n, f, hs, hn, hf, hlog⟩ := h
    exact ⟨n, f, hs, hn, hf, hlog.mono hsub⟩

theorem DirHolds.mono (h : DirHolds xxh3 d ms) (hsub : ms ⊆ ms') : DirHolds xxh3 d ms' :=
  ⟨h.current.mono hsub, fun c hc => (h.earlier c hc).mono hsub, h.fresh⟩

/-- A log that `CURRENT` would not name does not matter. -/
theorem CurrentHolds.setLog (h : CurrentHolds xxh3 d ms c) (hne : c ≠ some (currentText n))
    (f : Option LogFile) : CurrentHolds xxh3 (d.setLog n f) ms c := by
  rcases c with _ | s
  · exact h
  · obtain ⟨k, g, hs, hk, hg, hlog⟩ := h
    have hkn : k ≠ n := fun heq => hne (by rw [hs, heq])
    exact ⟨k, g, hs, hk, (Function.update_of_ne hkn _ _).trans hg, hlog⟩

/-- A log that `CURRENT` names. -/
theorem currentHolds_setLog (hn : n < 2 ^ 64) (h : LogHolds xxh3 f ms) :
    CurrentHolds xxh3 (d.setLog n (some f)) ms (some (currentText n)) :=
  ⟨n, f, rfl, hn, Function.update_self _ _ _, h⟩

/-- The log that `CURRENT` names. -/
theorem DirHolds.log (h : DirHolds xxh3 d ms) (hn : n < 2 ^ 64)
    (hd : d.current = some (currentText n)) :
    ∃ f, d.logs n = some f ∧ LogHolds xxh3 f ms := by
  have hc := h.current
  rw [hd] at hc
  obtain ⟨k, f, hk, hlt, hf, hlog⟩ := hc
  rw [currentText_injective hn hlt hk]
  exact ⟨f, hf, hlog⟩

/-- **A crash of the directory.** -/
theorem DirHolds.crash (h : DirHolds xxh3 d ms) (keep : ℕ → ℕ) (back : Option ℕ) :
    DirHolds xxh3 (crashDir keep back d) ms := by
  have hkept : ∀ c, CurrentHolds xxh3 d ms c → CurrentHolds xxh3 (crashDir keep back d) ms c := by
    intro c hc
    rcases c with _ | s
    · exact hc
    · obtain ⟨n, f, hs, hn, hf, hlog⟩ := hc
      refine ⟨n, _, hs, hn, ?_, hlog.crash (keep n)⟩
      show (d.logs n).map _ = _
      rw [hf]
      rfl
  rcases back with _ | i
  · exact ⟨hkept _ h.current, fun c hc => hkept c (h.earlier c hc), h.fresh⟩
  · refine ⟨?_, fun c hc => absurd hc not_mem_nil, fun _ => rfl⟩
    show CurrentHolds xxh3 _ ms ((d.earlier[i]?).getD d.current)
    rcases he : d.earlier[i]? with _ | c
    · exact hkept _ h.current
    · exact hkept c (h.earlier c (mem_of_getElem? he))

/-- **What is read back.** -/
theorem DirHolds.read (h : DirHolds xxh3 d ms) :
    ∃ m ∈ ms, ManifestLog.read xxh3 d = .ok m := by
  have hc := h.current
  rcases hd : d.current with _ | s
  · rw [hd] at hc
    obtain ⟨m, hm, heq⟩ := hc
    refine ⟨m, hm, ?_⟩
    have hread : readCurrent d = .ok none := by rw [readCurrent, hd]
    unfold ManifestLog.read currentReadTries readLoop
    rw [hread]
    unfold legacyState at heq
    rcases hl : d.legacy with _ | file
    · rw [hl] at heq
      exact heq
    · rw [hl] at heq
      exact heq
  · rw [hd] at hc
    obtain ⟨n, f, rfl, hn, hf, hlog⟩ := hc
    obtain ⟨m, hm, hreplay⟩ := hlog.replay
    refine ⟨m, hm, ?_⟩
    unfold ManifestLog.read currentReadTries readLoop
    rw [readCurrent_currentText hn hd]
    simp only [replay, hf, hreplay, Except.map]

end

end Imbh.ManifestLog
