import Imbh.Storage.Store

/-!
# What recovery finds of the acknowledged rows

The rows of an acknowledged record are in the store once while a process is up; what the manifest
on disk does not list is above its watermark, and promised by the log. A crash and an open carry
this over.

* `acked_rows_once` — the result; `overtaken_seal_loses_row` is what happens when a seal registers
  before an older one.
-/

namespace Imbh.Storage

open Lib List Option
open WriteAhead (WalRecord Faults exec readAllFrames)

variable {D P : Type} {r : WalRecord}

/-! ## Rows of one LSN -/

/-- The rows of one record in a replay. -/
theorem filter_flatMap_records {recs : List WalRecord} (rows : WalRecord → List (Row D))
    (hlsn : ∀ r ∈ recs, ∀ row ∈ rows r, row.lsn = r.lsn) (hpair : recs.Pairwise fun a b => a.lsn < b.lsn)
    (hr : r ∈ recs) : (recs.flatMap rows).filter (·.lsn = r.lsn) = rows r := by
  have hnone : ∀ rs : List WalRecord, (∀ x ∈ rs, x ∈ recs ∧ x.lsn ≠ r.lsn) →
      (rs.flatMap rows).filter (·.lsn = r.lsn) = [] := by
    intro rs hrs
    rw [filter_eq_nil_iff]
    intro row hrow heq
    obtain ⟨x, hx, hrow⟩ := mem_flatMap.mp hrow
    rw [hlsn x (hrs x hx).1 row hrow] at heq
    exact (hrs x hx).2 (by simpa using heq)
  obtain ⟨as, bs, rfl⟩ := append_of_mem hr
  obtain ⟨-, hbs, hab⟩ := pairwise_append.mp hpair
  have ha := hnone as fun x hx => ⟨mem_append_left _ hx, (hab x hx r mem_cons_self).ne⟩
  have hb := hnone bs fun x hx => ⟨by simp [hx], ((pairwise_cons.mp hbs).1 x hx).ne'⟩
  have hself : (rows r).filter (·.lsn = r.lsn) = rows r := by
    rw [filter_eq_self]
    intro row hrow
    simpa using hlsn r hr row hrow
  rw [flatMap_append, flatMap_cons, filter_append, filter_append, ha, hb, hself,
    nil_append, append_nil]

/-- Rows of other LSNs are filtered out. -/
theorem filter_lsn_eq_nil {rows : List (Row D)} {lsn : ℕ} (h : ∀ row ∈ rows, row.lsn ≠ lsn) :
    rows.filter (·.lsn = lsn) = [] := by
  rw [filter_eq_nil_iff]
  intro row hrow
  simpa using h row hrow

/-! ## The replay -/

/-- **A replay pushes the rows of its records**, and moves the counters to their highest LSN. -/
theorem Inner.replayAll_spec (promote : P) (recs : List (ℕ × Request D)) {i : Inner D P}
    (hmax : i.bufferMaxLsn < i.nextLsn) (hlt : ∀ rec ∈ recs, rec.1 < i.nextLsn) :
    ∃ added bytes m, i.replayAll promote recs = { i.grow added bytes with bufferMaxLsn := m } ∧
      (∀ t, batchRows (added t) = recs.flatMap fun rec => rec.2.tagged rec.1 t) ∧
      i.bufferMaxLsn ≤ m ∧ m < i.nextLsn ∧ ∀ rec ∈ recs, rec.1 ≤ m := by
  unfold replayAll
  induction recs generalizing i with
  | nil =>
      refine ⟨fun _ => [], 0, i.bufferMaxLsn, ?_, fun _ => rfl, le_rfl, hmax, fun _ h => nomatch h⟩
      simp [Inner.grow]
  | cons rec recs ih =>
      obtain ⟨n, heq⟩ := replay_eq promote rec.1 rec.2 i
      have hrec := hlt rec mem_cons_self
      have hnext : (i.replay promote rec.1 rec.2).nextLsn = i.nextLsn := by
        rw [heq]
        exact max_eq_left hrec
      have hm : (i.replay promote rec.1 rec.2).bufferMaxLsn = max i.bufferMaxLsn rec.1 := by
        rw [heq]
      obtain ⟨added, bytes, m, hall, hrows, hle, hlt', hrecs⟩ :=
        ih (i := i.replay promote rec.1 rec.2) (by rw [hnext, hm]; exact max_lt hmax hrec)
          (fun x hx => by rw [hnext]; exact hlt x (mem_cons_of_mem _ hx))
      rw [hm] at hle
      rw [hnext] at hlt'
      refine ⟨fun t => groupBatches promote (rec.2.groups rec.1) t ++ added t, n + bytes, m, ?_,
        fun t => ?_, (le_max_left _ _).trans hle, hlt', fun x hx => ?_⟩
      · show List.foldl _ (i.replay promote rec.1 rec.2) recs = _
        rw [hall, heq]
        simp only [Inner.grow, Nat.add_assoc, append_assoc]
        rw [max_eq_left (Nat.succ_le_of_lt hrec)]
      · rw [batchRows_append, batchRows_groupBatches, Request.groupRows_groups, hrows,
          flatMap_cons]
      · rcases mem_cons.mp hx with rfl | hx
        · exact (le_max_right _ _).trans hle
        · exact hrecs x hx

namespace Store

variable {xxh3 : Bytes → UInt64} {decode : UInt8 → Bytes → Request D} {promote : P}

/-! ## The invariant -/

/-- A process is up. Rows that the manifest on disk does not list are above its watermark, and what
it does list is not. -/
structure Up (xxh3 : Bytes → UInt64) (decode : UInt8 → Bytes → Request D) (s : Store D P)
    (e : Engine D P) : Prop where
  wal : WriteAhead.Inv xxh3 s.wal
  live : ∃ w, s.wal.live = some (w, e.inner.nextLsn)
  engine : e.Inv
  stamped : e.Stamped
  watermark_lt : s.watermark < e.inner.nextLsn
  listed_le : ∀ t, ∀ row ∈ s.listedRows t, row.lsn ≤ s.watermark
  unlisted : ∃ extra : Table → List (Segment D), ∀ t,
    e.inner.segments t = s.segments t ++ extra t ∧
      ∀ row ∈ batchRows (e.inner.buffers t) ++ (stagedRows e.inner t ++ segmentRows (extra t)),
        s.watermark < row.lsn
  acked : ∀ r ∈ s.acked, r.lsn < e.inner.nextLsn ∧
    ∀ t, ((snapshotRows e.inner t).filter (·.lsn = r.lsn)).Perm (recordRows decode r t)
  logged : ∀ r ∈ s.acked, s.watermark < r.lsn → r ∈ s.wal.must ∨ r ∈ s.wal.pending
  reclaiming : ∀ c x, e.seals c = some x → x.stage = .reclaim → x.watermark ≤ s.watermark

/-- No process is up. -/
structure Down (xxh3 : Bytes → UInt64) (decode : UInt8 → Bytes → Request D) (s : Store D P) :
    Prop where
  wal : WriteAhead.Inv xxh3 s.wal
  live : s.wal.live = none
  listed_le : ∀ t, ∀ row ∈ s.listedRows t, row.lsn ≤ s.watermark
  listed : ∀ r ∈ s.acked, r.lsn ≤ s.watermark →
    ∀ t, ((s.listedRows t).filter (·.lsn = r.lsn)).Perm (recordRows decode r t)
  logged : ∀ r ∈ s.acked, s.watermark < r.lsn → r ∈ s.wal.must

/-- The invariant. -/
def Inv (xxh3 : Bytes → UInt64) (decode : UInt8 → Bytes → Request D) (s : Store D P) : Prop :=
  match s.engine with
  | none => Down xxh3 decode s
  | some e => Up xxh3 decode s e

variable {s s' : Store D P} {e e' : Engine D P}

theorem lsn_of_mem_recordRows {t : Table} {row : Row D} (h : row ∈ recordRows decode r t) : row.lsn = r.lsn :=
  Request.lsn_of_mem_tagged h

/-- What the manifest lists of a record that it covers. -/
theorem Up.listed (h : Up xxh3 decode s e) (hr : r ∈ s.acked) (hle : r.lsn ≤ s.watermark) (t : Table) :
    ((s.listedRows t).filter (·.lsn = r.lsn)).Perm (recordRows decode r t) := by
  obtain ⟨extra, hextra⟩ := h.unlisted
  obtain ⟨hseg, hrows⟩ := hextra t
  have hnil := filter_lsn_eq_nil fun row hrow => (hle.trans_lt (hrows row hrow)).ne'
  have hsnap : (snapshotRows e.inner t).Perm (s.listedRows t ++
      (batchRows (e.inner.buffers t) ++ (stagedRows e.inner t ++ segmentRows (extra t)))) := by
    rw [snapshotRows_eq, hseg, segmentRows_append, ← Multiset.coe_eq_coe]
    simp only [← Multiset.coe_add, listedRows]
    abel
  refine Perm.trans ?_ ((h.acked r hr).2 t)
  refine Perm.trans ?_ (hsnap.filter _).symm
  rw [filter_append, hnil, append_nil]

/-- **Segments and frames that a watermark divides hold a record once**, when the segments hold it
if the watermark covers it and it is one of the frames if not. -/
theorem rows_once {rows : List (Row D)} {recs : List WalRecord} {watermark : ℕ} {t : Table}
    (hle : ∀ row ∈ rows, row.lsn ≤ watermark) (hlt : ∀ x ∈ recs, watermark < x.lsn)
    (hpair : recs.Pairwise fun a b => a.lsn < b.lsn)
    (hlisted : r.lsn ≤ watermark → (rows.filter (·.lsn = r.lsn)).Perm (recordRows decode r t))
    (hmem : watermark < r.lsn → r ∈ recs) :
    ((rows ++ recs.flatMap fun x => recordRows decode x t).filter (·.lsn = r.lsn)).Perm
      (recordRows decode r t) := by
  rw [filter_append]
  rcases Nat.lt_or_ge watermark r.lsn with habove | hbelow
  · have hnil : rows.filter (·.lsn = r.lsn) = [] :=
      filter_lsn_eq_nil fun row hrow => ((hle row hrow).trans_lt habove).ne
    have hrecs := filter_flatMap_records (fun x => recordRows decode x t)
      (fun x _ row hrow => lsn_of_mem_recordRows hrow) hpair (hmem habove)
    rw [hnil, nil_append]
    exact Perm.of_eq hrecs
  · have hnil : (recs.flatMap fun x => recordRows decode x t).filter (·.lsn = r.lsn) = [] := by
      refine filter_lsn_eq_nil fun row hrow => ?_
      obtain ⟨x, hx, hrow⟩ := mem_flatMap.mp hrow
      rw [lsn_of_mem_recordRows hrow]
      exact (hbelow.trans_lt (hlt x hx)).ne'
    rw [hnil, append_nil]
    exact hlisted hbelow

/-- **Recovery finds every acknowledged record once**, in a listed segment or in the replay. -/
theorem Down.once (h : Down xxh3 decode s) (hr : r ∈ s.acked) (t : Table) :
    ((s.listedRows t ++ s.replayedRows xxh3 decode t).filter (·.lsn = r.lsn)).Perm
      (recordRows decode r t) := by
  obtain ⟨hpair, hcount⟩ := h.wal.recovered
  refine rows_once (h.listed_le t) (fun x hx => ?_) (hpair.filter _)
    (fun hle => h.listed r hr hle t) fun hlt => ?_
  · simpa using (mem_filter.mp hx).2
  · have hone := hcount r (mem_append_left _ (h.logged r hr hlt))
    exact mem_filter.mpr ⟨count_pos_iff.mp (by omega), by simpa using hlt⟩

/-! ## Sections of the engine -/

/-- What the manifest does not list stays the same rows, wherever they move. -/
theorem unlisted_perm {i i' : Inner D P} {listed extra extra' : List (Segment D)} {t : Table}
    (hrows : (snapshotRows i' t).Perm (snapshotRows i t)) (hseg : i.segments t = listed ++ extra)
    (hseg' : i'.segments t = listed ++ extra') :
    (batchRows (i'.buffers t) ++ (stagedRows i' t ++ segmentRows extra')).Perm
      (batchRows (i.buffers t) ++ (stagedRows i t ++ segmentRows extra)) := by
  rw [snapshotRows_eq, snapshotRows_eq, hseg, hseg', segmentRows_append, segmentRows_append,
    ← Multiset.coe_eq_coe] at hrows
  rw [← Multiset.coe_eq_coe]
  simp only [← Multiset.coe_add] at hrows ⊢
  refine add_left_cancel (a := (segmentRows listed : Multiset (Row D))) ?_
  convert hrows using 1 <;> abel

/-- A section that moves rows, and changes neither the log nor the manifest. -/
theorem Up.moved (h : Up xxh3 decode s e) (hi : e'.Inv) (hst : e'.Stamped)
    (hrows : ∀ t, (snapshotRows e'.inner t).Perm (snapshotRows e.inner t))
    (hnext : e'.inner.nextLsn = e.inner.nextLsn)
    (hseg : ∃ new : Table → List (Segment D), ∀ t,
      e'.inner.segments t = e.inner.segments t ++ new t)
    (hreclaim : ∀ c x, e'.seals c = some x → x.stage = .reclaim → e.seals c = some x) :
    Up xxh3 decode { s with engine := some e' } e' where
  wal := h.wal
  live := by
    rw [hnext]
    exact h.live
  engine := hi
  stamped := hst
  watermark_lt := by
    rw [hnext]
    exact h.watermark_lt
  listed_le := h.listed_le
  unlisted := by
    obtain ⟨extra, hextra⟩ := h.unlisted
    obtain ⟨new, hnew⟩ := hseg
    have hall : ∀ t, e'.inner.segments t = s.segments t ++ (extra t ++ new t) := by
      intro t
      rw [hnew t, (hextra t).1, append_assoc]
    refine ⟨fun t => extra t ++ new t, fun t => ⟨hall t, fun row hrow => ?_⟩⟩
    exact (hextra t).2 row ((unlisted_perm (hrows t) (hextra t).1 (hall t)).mem_iff.mp hrow)
  acked r hr := by
    obtain ⟨hlt, hperm⟩ := h.acked r hr
    exact ⟨hnext ▸ hlt, fun t => ((hrows t).filter _).trans (hperm t)⟩
  logged := h.logged
  reclaiming c x hc hx := h.reclaiming c x (hreclaim c x hc hx) hx

/-- A freeze or a write. -/
theorem Up.sealStep {ev : Event D} (h : Up xxh3 decode s e) (hev : (∃ c, ev = .freeze c) ∨
    ∃ c ok path, ev = .write c ok path) (hs : e.step ev = some e') :
    Up xxh3 decode { s with engine := some e' } e' := by
  have hi := Engine.step_inv h.engine hs
  have hst := Engine.step_stamped h.engine h.stamped hs
  rcases Engine.stepFrom_of_step hs with ⟨appended, req, fails⟩ | ⟨c, hc⟩ | ⟨c, path, x, hc, hx⟩ |
    ⟨c, path, x, hc, hx⟩ | ⟨c, persisted, x, written, hc, hx⟩ | ⟨c, ok, x, hc, hx⟩ | drop
  · simp at hev
  · refine h.moved hi hst (Engine.snapshotRows_freeze e c) ?_ ⟨fun _ => [], fun t => ?_⟩ ?_
    · unfold Engine.freeze
      split <;> rfl
    · rw [append_nil]
      unfold Engine.freeze
      split <;> rfl
    · intro c' y hy hyst
      unfold Engine.freeze at hy
      split at hy
      · exact hy
      · rcases Engine.update_eq_some hy with ⟨-, hy'⟩ | ⟨-, hy'⟩
        · rw [← some.inj hy'] at hyst
          cases hyst
        · exact hy'
  · refine h.moved hi hst (fun t => Perm.refl _) rfl
      ⟨fun _ => [], fun t => (append_nil _).symm⟩ fun c' y hy hyst => ?_
    rcases Engine.update_eq_some hy with ⟨-, hy'⟩ | ⟨-, hy'⟩
    · rw [← some.inj hy'] at hyst
      cases hyst
    · exact hy'
  · refine h.moved hi hst (h.engine.snapshotRows_failed hc (Engine.staged_of_write hx)) rfl
      ⟨fun _ => [], fun t => (append_nil _).symm⟩ fun c' y hy hyst => ?_
    rcases Engine.update_eq_some hy with ⟨-, hy'⟩ | ⟨-, hy'⟩
    · cases hy'
    · exact hy'
  · simp at hev
  · simp at hev
  · simp at hev

/-- A registration whose edit does not reach the disk. -/
theorem Up.register_lost {c : ℕ} {x : SealCall D P} {written : Table → List (Segment D)}
    (h : Up xxh3 decode s e) (hc : e.seals c = some x) (hx : x.stage = .register written)
    (hs : e.step (.register c false) = some (e.registered c x written false)) :
    Up xxh3 decode { s with engine := some (e.registered c x written false) }
      (e.registered c x written false) := by
  refine h.moved (Engine.step_inv h.engine hs) (Engine.step_stamped h.engine h.stamped hs)
    (h.engine.snapshotRows_registered hc hx false) rfl ⟨written, fun t => rfl⟩ ?_
  intro c' y hy hyst
  rcases Engine.update_eq_some hy with ⟨-, hy'⟩ | ⟨-, hy'⟩
  · cases hy'
  · exact hy'

/-- The watermark of a seal in flight is above the persisted one: it holds a row that is. -/
theorem Up.lt_of_staged {k : ℕ} {x : SealCall D P} (h : Up xxh3 decode s e)
    (hk : e.seals k = some x) (hx : x.Staged) : s.watermark < x.watermark := by
  obtain ⟨-, hle, t, hne⟩ := h.stamped.taken k x hk
  obtain ⟨row, hrow⟩ := exists_mem_of_ne_nil _ hne
  obtain ⟨extra, hextra⟩ := h.unlisted
  have hstaged : row ∈ stagedRows e.inner t :=
    mem_flatMap.mpr ⟨_, h.engine.staged k x hk hx, hrow⟩
  have hlt := (hextra t).2 row (mem_append_right _ (mem_append_left _ hstaged))
  exact hlt.trans_le (hle t row hrow)

/-- A registration in order whose edit reaches the disk. -/
theorem Up.register_stored {c : ℕ} {x : SealCall D P} {written : Table → List (Segment D)}
    {ok : Bool} (h : Up xxh3 decode s e) (hord : InOrder e x) (hc : e.seals c = some x)
    (hx : x.stage = .register written)
    (hs : e.step (.register c ok) = some (e.registered c x written ok)) :
    Up xxh3 decode { s with
      engine := some (e.registered c x written ok)
      segments := (e.registered c x written ok).inner.segments
      watermark := x.watermark } (e.registered c x written ok) where
  wal := h.wal
  live := h.live
  engine := Engine.step_inv h.engine hs
  stamped := Engine.step_stamped h.engine h.stamped hs
  watermark_lt := (h.stamped.taken c x hc).1.trans_lt h.stamped.maxLsn
  listed_le t row hrow := by
    have hrow : row ∈ segmentRows (e.inner.segments t ++ written t) := hrow
    rw [segmentRows_append] at hrow
    rcases mem_append.mp hrow with hrow | hrow
    · exact hord.registered t row hrow
    · exact (h.stamped.taken c x hc).2.1 t row ((h.engine.wrote c x written hc hx t).mem_iff.mp hrow)
  unlisted := by
    refine ⟨fun _ => [], fun t => ⟨(append_nil _).symm, fun row hrow => ?_⟩⟩
    rcases mem_append.mp hrow with hrow | hrow
    · exact hord.buffered t row hrow
    rcases mem_append.mp hrow with hrow | hrow
    · obtain ⟨p, hp, hrow⟩ := mem_flatMap.mp hrow
      obtain ⟨hp, hne⟩ := mem_filter.mp hp
      exact hord.staged p hp (by simpa using hne) t row hrow
    · cases hrow
  acked r hr := by
    obtain ⟨hlt, hperm⟩ := h.acked r hr
    exact ⟨hlt, fun t =>
      ((h.engine.snapshotRows_registered hc hx ok t).filter _).trans (hperm t)⟩
  logged r hr hlt := h.logged r hr ((h.lt_of_staged hc (Engine.staged_of_register hx)).trans hlt)
  reclaiming c' y hy hyst := by
    rcases Engine.update_eq_some hy with ⟨-, hy'⟩ | ⟨-, hy'⟩
    · split at hy'
      · rw [← some.inj hy']
      · cases hy'
    · exact (h.reclaiming c' y hy' hyst).trans (h.lt_of_staged hc (Engine.staged_of_register hx)).le

/-! ## Ingest and the calls on the log -/

/-- A call on an open log other than an append keeps its invariant. -/
theorem wal_inv {wal wal' : WriteAhead.Sys} {c : WriteAhead.Call} {fs : Faults}
    (h : WriteAhead.Inv xxh3 wal) (hopen : ∀ rotateBytes, c ≠ .open rotateBytes)
    (happend : ∀ signal payload, c ≠ .append signal payload)
    (hs : exec xxh3 wal c fs = some wal') : WriteAhead.Inv xxh3 wal' := by
  refine WriteAhead.step_inv (e := .call c fs) h ?_ ?_ hs
  · rintro ⟨signal, payload, hc⟩
    exact absurd (some.inj hc) (happend signal payload)
  · cases c with
    | «open» rotateBytes => exact absurd rfl (hopen rotateBytes)
    | append | sync | rotate | reclaim => trivial

/-- **The log of an ingest.** The frame is promised when the call says so, and no promise is
withdrawn. -/
theorem logged_spec {wal wal' : WriteAhead.Sys} {signal : UInt8} {payload : Bytes} {sync ok : Bool}
    {appendFaults syncFaults : Faults} {w : WriteAhead.Wal} {n : ℕ} (h : WriteAhead.Inv xxh3 wal)
    (hl : wal.live = some (w, n)) (hclean : WriteAhead.CleanDir xxh3 wal.dir)
    (hclosed : ∀ p ∈ w.closed, p.1 ≠ w.seq)
    (hs : logged xxh3 wal signal payload sync appendFaults syncFaults = some (wal', ok)) :
    WriteAhead.Inv xxh3 wal' ∧ (∃ w', wal'.live = some (w', n + 1)) ∧
      (∀ r, r ∈ wal.must ∨ r ∈ wal.pending → r ∈ wal'.must ∨ r ∈ wal'.pending) ∧
      (ok = true → ⟨n, signal, payload⟩ ∈ wal'.must ∨ ⟨n, signal, payload⟩ ∈ wal'.pending) := by
  unfold logged at hs
  rcases happ : exec xxh3 wal (.append signal payload) appendFaults with _ | wal₁ <;>
    simp only [happ, reduceCtorEq] at hs
  have hinv : WriteAhead.Inv xxh3 wal₁ := by
    refine WriteAhead.step_inv (e := .call (.append signal payload) appendFaults) h ?_ trivial happ
    intro _
    refine ⟨hclean, fun w' n' hl' => ?_⟩
    rw [hl] at hl'
    cases hl'
    exact hclosed
  obtain ⟨⟨w₁, hl₁⟩, hmust, hpending⟩ := WriteAhead.exec_append_promises hl happ
  have hold : ∀ r, r ∈ wal.must ∨ r ∈ wal.pending → r ∈ wal₁.must ∨ r ∈ wal₁.pending := by
    rintro r (hr | hr)
    · exact .inl (hmust ▸ hr)
    · exact .inr (hpending ▸ mem_append_left _ hr)
  have hnew : appendOk xxh3 wal signal payload appendFaults = true →
      ⟨n, signal, payload⟩ ∈ wal₁.pending := by
    intro hok
    simp only [appendOk, hl] at hok
    rw [hpending, if_pos hok]
    exact mem_append_right _ mem_cons_self
  split at hs
  · rename_i hboth
    rcases hsync : exec xxh3 wal₁ .sync syncFaults with _ | wal₂ <;>
      simp only [hsync, reduceCtorEq] at hs
    cases hs
    obtain ⟨hl₂, hmust₂, hpending₂⟩ := WriteAhead.exec_sync_promises hl₁ hsync
    have happok : appendOk xxh3 wal signal payload appendFaults = true := by
      simpa using (Bool.and_eq_true_iff.mp hboth).1
    refine ⟨wal_inv hinv (by simp) (by simp) hsync, hl₂, fun r hr => ?_, fun _ => ?_⟩
    · rcases hold r hr with hr | hr
      · exact .inl (hmust₂ r hr)
      · exact hpending₂ r hr
    · exact hpending₂ _ (hnew happok)
  · cases hs
    exact ⟨hinv, ⟨w₁, hl₁⟩, hold, fun hok => .inr (hnew hok)⟩

/-- An ingest. -/
theorem Up.ingest {signal : UInt8} {payload : Bytes} {sync : Bool}
    {appendFaults syncFaults : Faults} {fails : Table → Bool} (h : Up xxh3 decode s e)
    (he : s.engine = some e) (hclean : LogClean xxh3 s)
    (hs : s.ingest xxh3 decode signal payload sync appendFaults syncFaults fails = some s') :
    Inv xxh3 decode s' ∧ s'.watermark = s.watermark := by
  obtain ⟨w, hl⟩ := h.live
  unfold Store.ingest at hs
  rcases hlog : Store.logged xxh3 s.wal signal payload sync appendFaults syncFaults with
    _ | ⟨wal, ok⟩ <;> simp only [he, hlog, reduceCtorEq] at hs
  obtain ⟨hwal, hlive, hold, hnew⟩ := logged_spec h.wal hl hclean.1 (hclean.2 w _ hl) hlog
  obtain ⟨added, bytes, heq, hrows, -⟩ :=
    Engine.ingest_eq ok (decode signal payload) fails e
  have hst := h.stamped.ingest ok (decode signal payload) fails
  have hi := h.engine.ingest ok (decode signal payload) fails
  rw [← some.inj hs]
  refine ⟨?_, rfl⟩
  have hadded : ∀ t, ∀ row ∈ batchRows (added t), row.lsn = e.inner.nextLsn := by
    intro t row hrow
    rw [hrows t] at hrow
    split at hrow
    · exact Request.lsn_of_mem_tagged (Request.mem_tagged_of_mem_encoded hrow)
    · cases hrow
  have hsnap : ∀ t, (snapshotRows (e.ingest ok (decode signal payload) fails).inner t).Perm
      (snapshotRows e.inner t ++ batchRows (added t)) := by
    intro t
    rw [heq]
    exact Engine.snapshotRows_ingest_grow _ t
  show Up xxh3 decode _ (e.ingest ok (decode signal payload) fails)
  refine ⟨hwal, ?_, hi, hst, ?_, h.listed_le, ?_, ?_, ?_, ?_⟩
  · rw [heq]
    exact hlive
  · rw [heq]
    exact Nat.lt_succ_of_lt h.watermark_lt
  · obtain ⟨extra, hextra⟩ := h.unlisted
    refine ⟨extra, fun t => ?_⟩
    rw [heq]
    refine ⟨(hextra t).1, fun row hrow => ?_⟩
    simp only [Inner.grow, batchRows_append, append_assoc] at hrow
    rcases mem_append.mp hrow with hrow | hrow
    · exact (hextra t).2 row (mem_append_left _ hrow)
    rcases mem_append.mp hrow with hrow | hrow
    · rw [hadded t row hrow]
      exact h.watermark_lt
    · exact (hextra t).2 row (mem_append_right _ hrow)
  · intro r hr
    rw [heq]
    rcases mem_append.mp hr with hr | hr
    · obtain ⟨hlt, hperm⟩ := h.acked r hr
      refine ⟨Nat.lt_succ_of_lt hlt, fun t => ?_⟩
      have hnil : (batchRows (added t)).filter (·.lsn = r.lsn) = [] :=
        filter_lsn_eq_nil fun row hrow => by rw [hadded t row hrow]; exact hlt.ne'
      refine (((heq ▸ hsnap t)).filter _).trans ?_
      rw [filter_append, hnil, append_nil]
      exact hperm t
    · split at hr
      · rename_i hok
        rw [mem_singleton.mp hr]
        obtain ⟨rfl, hall⟩ := Bool.and_eq_true_iff.mp hok
        refine ⟨Nat.lt_succ_self _, fun t => ?_⟩
        have hnil : (snapshotRows e.inner t).filter (·.lsn = e.inner.nextLsn) = [] :=
          filter_lsn_eq_nil fun row hrow => (h.stamped.below t row hrow).ne
        have hself : (batchRows (added t)).filter (·.lsn = e.inner.nextLsn) =
            batchRows (added t) := by
          rw [filter_eq_self]
          exact fun row hrow => by simpa using hadded t row hrow
        refine (((heq ▸ hsnap t)).filter _).trans ?_
        rw [filter_append, hnil, hself, nil_append, hrows t, if_pos rfl,
          encoded_of_all hall, Request.groupRows_groups]
        exact Perm.refl _
      · cases hr
  · intro r hr hlt
    rcases mem_append.mp hr with hr | hr
    · exact hold r (h.logged r hr hlt)
    · split at hr
      · rename_i hok
        rw [mem_singleton.mp hr]
        exact hnew (Bool.and_eq_true_iff.mp hok).1
      · cases hr
  · rw [heq]
    exact h.reclaiming

/-- A sync. -/
theorem Up.syncWal {fs : Faults} {wal : WriteAhead.Sys} (h : Up xxh3 decode s e)
    (hs : exec xxh3 s.wal .sync fs = some wal) :
    Up xxh3 decode { s with
      wal := wal
      engine := some e } e := by
  obtain ⟨w, hl⟩ := h.live
  obtain ⟨hlive, hmust, hpending⟩ := WriteAhead.exec_sync_promises hl hs
  refine { h with
    wal := wal_inv h.wal (by simp) (by simp) hs
    live := hlive
    logged := fun r hr hlt => ?_ }
  rcases h.logged r hr hlt with hr | hr
  · exact .inl (hmust r hr)
  · exact hpending r hr

/-- A reclaim: what it may drop is at or below the persisted watermark. -/
theorem Up.reclaim {c : ℕ} {fs : Faults} (h : Up xxh3 decode s e) (he : s.engine = some e)
    (hs : s.reclaim xxh3 c fs = some s') : Inv xxh3 decode s' ∧ s'.watermark = s.watermark := by
  obtain ⟨w, hl⟩ := h.live
  unfold Store.reclaim at hs
  rcases hc : e.seals c with _ | x <;> simp only [he, hc, reduceCtorEq] at hs
  rcases hexec : exec xxh3 s.wal (.reclaim x.watermark) fs with _ | wal <;>
    simp only [hexec, reduceCtorEq] at hs
  obtain ⟨e', hstep, rfl⟩ := map_eq_some_iff.mp hs
  obtain ⟨y, hy, hyst, rfl⟩ := Engine.step_reclaim hstep
  obtain rfl : x = y := some.inj (hc.symm.trans hy)
  obtain ⟨hlive, hmust, hpending⟩ := WriteAhead.exec_reclaim_promises hl hexec
  have hle := h.reclaiming c x hc hyst
  refine ⟨?_, rfl⟩
  refine { h with
    wal := wal_inv h.wal (by simp) (by simp) hexec
    live := hlive
    engine := Engine.step_inv h.engine hstep
    stamped := Engine.step_stamped h.engine h.stamped hstep
    logged := fun r hr hlt => ?_
    reclaiming := fun c' z hz hzst => ?_ }
  · exact (h.logged r hr hlt).imp (fun hr => hmust r hr (hle.trans_lt hlt))
      fun hr => hpending r hr (hle.trans_lt hlt)
  · rcases Engine.update_eq_some hz with ⟨-, hz'⟩ | ⟨-, hz'⟩
    · cases hz'
    · exact h.reclaiming c' z hz' hzst

/-! ## Crash and open -/

/-- A cut of a reclaim interrupts the reclaim of a seal that has registered. -/
theorem cutCall_reclaim_eq {c : ℕ} {fs : Faults} {call : Option (WriteAhead.Call × Faults)}
    (hcut : s.cutCall (.reclaim c fs) = some call) :
    ∃ x : SealCall D P, (∀ e, s.engine = some e → e.seals c = some x ∧ x.stage = .reclaim) ∧
      s.engine ≠ none ∧ call = some (.reclaim x.watermark, fs) := by
  rcases he : s.engine with _ | e <;> simp only [cutCall, he, bind_none, bind_some,
    reduceCtorEq] at hcut
  rcases hc : e.seals c with _ | x <;> simp only [hc, reduceCtorEq] at hcut
  rcases hst : x.stage with _ | written | _ <;> simp only [hst, reduceCtorEq] at hcut
  refine ⟨x, fun e' he' => ?_, by simp, (some.inj hcut).symm⟩
  cases he'
  exact ⟨hc, hst⟩

/-- The watermark of a reclaim that a crash may interrupt. -/
theorem cutCall_reclaim {cut : Cut} {call : Option (WriteAhead.Call × Faults)} {watermark : ℕ}
    {fs : Faults} (h : Inv xxh3 decode s) (hcut : s.cutCall cut = some call)
    (hcall : call = some (.reclaim watermark, fs)) : watermark ≤ s.watermark := by
  subst hcall
  cases cut with
  | none => cases hcut
  | «open» rotateBytes fs' => cases hcut
  | append signal payload fs' => cases hcut
  | sync fs' => cases hcut
  | reclaim c fs' =>
      obtain ⟨x, hx, hne, hcall⟩ := cutCall_reclaim_eq hcut
      obtain ⟨e, he⟩ := ne_none_iff_exists'.mp hne
      obtain ⟨hc, hst⟩ := hx e he
      unfold Inv at h
      rw [he] at h
      cases hcall
      exact Up.reclaiming h c x hc hst

theorem Inv.wal (h : Inv xxh3 decode s) : WriteAhead.Inv xxh3 s.wal := by
  unfold Inv at h
  split at h
  · exact Down.wal h
  · exact Up.wal h

theorem Inv.listed_le (h : Inv xxh3 decode s) (t : Table) :
    ∀ row ∈ s.listedRows t, row.lsn ≤ s.watermark := by
  unfold Inv at h
  split at h
  · exact Down.listed_le h t
  · exact Up.listed_le h t

/-- **Every acknowledged row at or below the persisted watermark is in a listed segment.** -/
theorem Inv.listed (h : Inv xxh3 decode s) (hr : r ∈ s.acked) (hle : r.lsn ≤ s.watermark) (t : Table) :
    ((s.listedRows t).filter (·.lsn = r.lsn)).Perm (recordRows decode r t) := by
  unfold Inv at h
  split at h
  · exact Down.listed h r hr hle t
  · exact Up.listed h hr hle t

/-- A crash. -/
theorem Inv.crash {cut : Cut} {keep : ℕ → ℕ} {drop : ℕ → Bool} (h : Inv xxh3 decode s)
    (hok : LogOk xxh3 s (.crash cut keep drop)) (hs : s.crash xxh3 cut keep drop = some s') :
    Inv xxh3 decode s' ∧ s'.watermark = s.watermark := by
  unfold Store.crash at hs
  rcases hcut : s.cutCall cut with _ | call <;> simp only [hcut, reduceCtorEq] at hs
  obtain ⟨wal, hstep, rfl⟩ := map_eq_some_iff.mp hs
  obtain ⟨hlive, hmust⟩ := WriteAhead.crash_promises s.watermark
    (fun w fs hcall => cutCall_reclaim h hcut hcall) hstep
  have hwal : WriteAhead.Inv xxh3 wal := by
    refine WriteAhead.step_inv (e := .crash call keep drop) (h.wal.withWatermark s.watermark) ?_
      trivial hstep
    rintro ⟨signal, payload, hcall⟩
    cases cut with
    | append signal' payload' fs => exact hok
    | none => cases hcut; cases hcall
    | «open» rotateBytes fs => cases hcut; cases hcall
    | sync fs => cases hcut; cases hcall
    | reclaim c fs =>
        obtain ⟨x, -, -, rfl⟩ := cutCall_reclaim_eq hcut
        cases hcall
  refine ⟨⟨hwal, hlive, h.listed_le, fun r hr hle t => ?_, fun r hr hlt => ?_⟩, rfl⟩
  · exact h.listed (mem_of_mem_filter hr) hle t
  · have hmem := (mem_filter.mp hr).2
    rw [Bool.or_eq_true, decide_eq_true_eq, decide_eq_true_eq] at hmem
    rcases hmem with hle | hmem
    · exact absurd hle (Nat.not_le_of_lt hlt)
    · exact hmust r hmem hlt

/-- The records an open replays are below its next LSN. -/
theorem lsn_lt_nextLsn {watermark : ℕ} {dir : WriteAhead.Dir} (hr : r ∈ readAllFrames xxh3 dir) :
    r.lsn < WriteAhead.nextLsn xxh3 watermark dir := by
  have hle : r.lsn ≤ ((readAllFrames xxh3 dir).map (·.lsn)).foldl max 0 :=
    WriteAhead.le_foldl_max (Or.inl (mem_map_of_mem hr))
  unfold WriteAhead.nextLsn
  omega

/-- The store an open leaves: what the manifest lists, and the rows of the replay. -/
theorem Down.opened {n : ℕ} {wal : WriteAhead.Sys} {i : Inner D P} (h : Down xxh3 decode s)
    (hn : n = WriteAhead.nextLsn xxh3 s.watermark s.wal.dir) (hwal : WriteAhead.Inv xxh3 wal)
    (hlive : ∃ w, wal.live = some (w, n)) (hmust : wal.must = s.wal.must)
    (hi : i = (Inner.loaded s.segments s.watermark n).replayAll promote
      ((s.pendingReplay xxh3).map fun r => (r.lsn, decode r.signal r.payload))) :
    Up xxh3 decode { s with
      wal := wal
      engine := some (.opened promote i) } (.opened promote i) := by
  have hwm : s.watermark < n := by
    rw [hn]
    unfold WriteAhead.nextLsn
    omega
  have hframes : ∀ r ∈ readAllFrames xxh3 s.wal.dir, r.lsn < n :=
    fun r hr => hn ▸ lsn_lt_nextLsn hr
  have hrecs : ∀ rec ∈ (s.pendingReplay xxh3).map fun r => (r.lsn, decode r.signal r.payload),
      rec.1 < n := by
    intro rec hrec
    obtain ⟨r, hr, rfl⟩ := mem_map.mp hrec
    exact hframes r (mem_of_mem_filter hr)
  obtain ⟨added, bytes, m, heq, hrows, -, hlt, hle⟩ :=
    Inner.replayAll_spec promote _ (i := Inner.loaded s.segments s.watermark n) hwm hrecs
  have hadded : ∀ t, batchRows (added t) = s.replayedRows xxh3 decode t := by
    intro t
    rw [hrows t, flatMap_map]
    rfl
  -- a replayed row carries the LSN of its record
  have hrow : ∀ t, ∀ row ∈ batchRows (added t), s.watermark < row.lsn ∧ row.lsn < n ∧
      row.lsn ≤ m := by
    intro t row hrow
    rw [hadded t] at hrow
    obtain ⟨r, hr, hrow⟩ := mem_flatMap.mp hrow
    obtain ⟨hr', hlt⟩ := mem_filter.mp hr
    rw [lsn_of_mem_recordRows hrow]
    exact ⟨by simpa using hlt, hframes r hr', hle _ (mem_map_of_mem hr)⟩
  rw [heq] at hi
  have hnext : i.nextLsn = n := by rw [hi]; rfl
  have hmax : i.bufferMaxLsn = m := by rw [hi]
  have hbuffers : ∀ t, i.buffers t = added t := fun t => by rw [hi]; rfl
  have hsegments : i.segments = s.segments := by rw [hi]; rfl
  have hsnap : ∀ t, snapshotRows (Engine.opened promote i).inner t =
      batchRows (added t) ++ s.listedRows t := by
    intro t
    rw [snapshotRows_eq, ← hbuffers t, listedRows, ← hsegments]
    rfl
  refine ⟨hwal, ?_, Engine.inv_opened promote i, ⟨?_, ?_, ?_, fun _ _ hc => nomatch hc⟩, ?_,
    h.listed_le, ⟨fun _ => [], fun t => ⟨?_, ?_⟩⟩, ?_, ?_, fun _ _ hc => nomatch hc⟩
  · exact hnext ▸ hlive
  · show i.bufferMaxLsn < i.nextLsn
    rw [hmax, hnext]
    exact hlt
  · intro t row hr
    show row.lsn < i.nextLsn
    rw [hnext]
    rw [hsnap t] at hr
    rcases mem_append.mp hr with hr | hr
    · exact (hrow t row hr).2.1
    · exact (h.listed_le t row hr).trans_lt hwm
  · intro t row hr
    show row.lsn ≤ i.bufferMaxLsn
    rw [hmax]
    exact (hrow t row (hbuffers t ▸ hr)).2.2
  · show s.watermark < i.nextLsn
    rw [hnext]
    exact hwm
  · rw [append_nil]
    exact congrFun hsegments t
  · intro row hr
    rcases mem_append.mp hr with hr | hr
    · exact (hrow t row (hbuffers t ▸ hr)).1
    · cases hr
  · intro r hr
    show r.lsn < i.nextLsn ∧ _
    rw [hnext]
    refine ⟨?_, fun t => ?_⟩
    · rcases Nat.lt_or_ge s.watermark r.lsn with hlt | hle
      · have hone := h.wal.recovered.2 r (mem_append_left _ (h.logged r hr hlt))
        exact hframes r (count_pos_iff.mp (by omega))
      · exact hle.trans_lt hwm
    · rw [hsnap t, hadded t]
      exact (perm_append_comm.filter _).trans (h.once hr t)
  · intro r hr hlt
    exact .inl (hmust ▸ h.logged r hr hlt)

/-- An open. -/
theorem Inv.reopen {rotateBytes : ℕ} (h : Inv xxh3 decode s)
    (hs : s.reopen xxh3 decode promote rotateBytes = some s') :
    Inv xxh3 decode s' ∧ s'.watermark = s.watermark := by
  unfold Store.reopen at hs
  rcases he : s.engine with _ | e <;> simp only [he, reduceCtorEq] at hs
  rcases hexec : exec xxh3 { s.wal with watermark := s.watermark } (.open rotateBytes)
    Faults.none with _ | wal <;> simp only [hexec, reduceCtorEq] at hs
  unfold Inv at h
  rw [he] at h
  have h : Down xxh3 decode s := h
  have hwalinv := h.wal.withWatermark s.watermark
  obtain ⟨gs, hgs⟩ := hwalinv.down h.live
  obtain ⟨w, n, F, hl, hF, -⟩ := WriteAhead.exec_open hgs h.live hexec
  obtain ⟨hmust, hn⟩ := WriteAhead.exec_open_promises hexec
  rw [← some.inj hs]
  simp only [Inv, hl, map_some]
  exact ⟨h.opened (hn w n hl) (hF.inv hl) ⟨w, hl⟩ hmust rfl, trivial⟩

/-! ## Every event -/

theorem Up.inv (h : Up xxh3 decode s e) (he : s.engine = some e) : Inv xxh3 decode s := by
  unfold Inv
  rw [he]
  exact h

/-- **The step lemma.** Every event keeps the invariant, and the persisted watermark does not
decrease, when registrations are in order and appends are made to a clean log. -/
theorem step_inv {ev : StoreEvent} (h : Inv xxh3 decode s) (hreg : RegisterOk s ev)
    (hlog : LogOk xxh3 s ev) (hs : step xxh3 decode promote s ev = some s') :
    Inv xxh3 decode s' ∧ s.watermark ≤ s'.watermark := by
  have hsame : ∀ {s' : Store D P}, Inv xxh3 decode s' ∧ s'.watermark = s.watermark →
      Inv xxh3 decode s' ∧ s.watermark ≤ s'.watermark := fun h => ⟨h.1, h.2.ge⟩
  have hup : ∀ e, s.engine = some e → Up xxh3 decode s e := by
    intro e he
    unfold Inv at h
    rw [he] at h
    exact h
  have hseal : ∀ ev, ((∃ c, ev = .freeze c) ∨ ∃ c ok path, ev = .write c ok path) →
      s.sealStep ev = some s' → Inv xxh3 decode s' ∧ s.watermark ≤ s'.watermark := by
    intro ev hev hs
    unfold Store.sealStep at hs
    rcases he : s.engine with _ | e <;> simp only [he, reduceCtorEq] at hs
    obtain ⟨e', hstep, rfl⟩ := map_eq_some_iff.mp hs
    exact ⟨((hup e he).sealStep hev hstep).inv rfl, le_rfl⟩
  cases ev with
  | «open» rotateBytes => exact hsame (h.reopen hs)
  | ingest signal payload sync appendFaults syncFaults fails =>
      rcases he : s.engine with _ | e
      · simp [step, Store.ingest, he] at hs
      · exact hsame ((hup e he).ingest he hlog hs)
  | syncWal fs =>
      obtain ⟨wal, hexec, rfl⟩ := map_eq_some_iff.mp hs
      rcases he : s.engine with _ | e
      · have hdown : Down xxh3 decode s := by
          unfold Inv at h
          rw [he] at h
          exact h
        have hl := hdown.live
        simp [exec, hl] at hexec
      · exact ⟨(hup e he).syncWal hexec, le_rfl⟩
  | freeze c => exact hseal _ (.inl ⟨c, rfl⟩) hs
  | write c ok path => exact hseal _ (.inr ⟨c, ok, path, rfl⟩) hs
  | register c stored ok =>
      simp only [step, Store.register] at hs
      split at hs
      · cases hs
      rename_i hflags
      rcases he : s.engine with _ | e <;> simp only [he, reduceCtorEq] at hs
      obtain ⟨e', hstep, rfl⟩ := map_eq_some_iff.mp hs
      obtain ⟨x, written, hc, hx, rfl⟩ := Engine.step_register hstep
      cases stored with
      | true =>
          exact ⟨((hup e he).register_stored (hreg e x he hc) hc hx hstep).inv rfl,
            ((hup e he).lt_of_staged hc (Engine.staged_of_register hx)).le⟩
      | false =>
          obtain rfl : ok = false := by simpa using hflags
          exact ⟨((hup e he).register_lost hc hx hstep).inv rfl, le_rfl⟩
  | reclaim c fs =>
      rcases he : s.engine with _ | e
      · simp [step, Store.reclaim, he] at hs
      · exact hsame ((hup e he).reclaim he hs)
  | crash cut keep drop => exact hsame (h.crash hlog hs)

/-- What the claims of recovery are about: each acknowledged row is in the store once, in a listed
segment or in the replay when no process is up; and in a listed segment when the persisted
watermark covers it. -/
def AckedOnce (xxh3 : Bytes → UInt64) (decode : UInt8 → Bytes → Request D) (s : Store D P) :
    Prop :=
  ∀ r ∈ s.acked, ∀ t,
    (match s.engine with
      | none => ((s.listedRows t ++ s.replayedRows xxh3 decode t).filter (·.lsn = r.lsn)).Perm
          (recordRows decode r t)
      | some e => ((snapshotRows e.inner t).filter (·.lsn = r.lsn)).Perm
          (recordRows decode r t)) ∧
      (r.lsn ≤ s.watermark →
        ((s.listedRows t).filter (·.lsn = r.lsn)).Perm (recordRows decode r t))

theorem Inv.ackedOnce (h : Inv xxh3 decode s) : AckedOnce xxh3 decode s := by
  refine fun r hr t => ⟨?_, fun hle => h.listed hr hle t⟩
  unfold Inv at h
  split at h
  · exact Down.once h hr t
  · exact (Up.acked h r hr).2 t

theorem inv_init (xxh3 : Bytes → UInt64) (decode : UInt8 → Bytes → Request D) :
    Inv xxh3 decode (init : Store D P) :=
  ⟨WriteAhead.inv_init, rfl, fun _ _ h => absurd h not_mem_nil,
    fun _ h => absurd h not_mem_nil, fun _ h => absurd h not_mem_nil⟩

/-- **No acknowledged row is lost or duplicated**, and the persisted watermark never decreases, in
every history of ingests, seals in any interleaving, and crashes, whose registrations are in order
and whose appends are made to a clean log. -/
theorem acked_rows_once (xxh3 : Bytes → UInt64) (decode : UInt8 → Bytes → Request D) (promote : P)
    (es : List StoreEvent) (s : Store D P)
    (hok : Guarded (step xxh3 decode promote) (fun s ev => RegisterOk s ev ∧ LogOk xxh3 s ev)
      init es)
    (hrun : run (step xxh3 decode promote) init es = some s) :
    AckedOnce xxh3 decode s ∧
      ∀ ev s', RegisterOk s ev → LogOk xxh3 s ev → step xxh3 decode promote s ev = some s' →
        s.watermark ≤ s'.watermark := by
  have hinv : Inv xxh3 decode s := by
    refine run_induction (Inv xxh3 decode) ?_ (inv_init xxh3 decode) hok hrun
    exact fun s ev s' hi hok hs => (step_inv hi hok.1 hok.2 hs).1
  exact ⟨hinv.ackedOnce, fun ev s' hreg hlog hs => (step_inv hinv hreg hlog hs).2⟩

/-- Every record is one log row. -/
def oneLogRow : UInt8 → Bytes → Request Unit := fun _ _ => .logs [⟨0, 1, ()⟩]

/-- A synced ingest. -/
def ingestOne : StoreEvent := .ingest 0 [7] true Faults.none Faults.none fun _ => false

/-- A row is sealed, a second one is not; then the process goes. -/
def sealedAndPending : List StoreEvent :=
  [.open 1000, ingestOne, .freeze 0, .write 0 true fun _ => 0, .register 0 true true,
    .reclaim 0 Faults.none, ingestOne, .crash .none (fun _ => 0) fun _ => false]

theorem acked_rows_once_sealedAndPending :
    ∃ s : Store Unit Unit, run (step (fun _ => 0) oneLogRow ()) init sealedAndPending = some s ∧
      s.acked = [⟨1, 0, [7]⟩, ⟨2, 0, [7]⟩] ∧ s.watermark = 1 ∧
      AckedOnce (fun _ => 0) oneLogRow s := by
  obtain ⟨s, hrun, hacked, hwm⟩ : ∃ s : Store Unit Unit,
      run (step (fun _ => 0) oneLogRow ()) init sealedAndPending = some s ∧
        s.acked = [⟨1, 0, [7]⟩, ⟨2, 0, [7]⟩] ∧ s.watermark = 1 := ⟨_, rfl, rfl, rfl⟩
  have hok : Guarded (step (fun _ => 0) oneLogRow ())
      (fun s ev => RegisterOk s ev ∧ LogOk (fun _ => 0) s ev) (init : Store Unit Unit)
      sealedAndPending := by
    refine ⟨⟨trivial, trivial⟩, ⟨trivial, ?_⟩, ⟨trivial, trivial⟩, ⟨trivial, trivial⟩, ⟨?_, trivial⟩,
      ⟨trivial, trivial⟩, ⟨trivial, ?_⟩, ⟨trivial, trivial⟩, trivial⟩
    · refine ⟨by decide +kernel, fun w n hl p hp => ?_⟩
      cases hl
      exact absurd hp not_mem_nil
    · intro e x he hx
      cases he
      cases hx
      refine ⟨fun t row hrow => absurd hrow not_mem_nil, fun p hp hne => ?_,
        fun t row hrow => absurd hrow not_mem_nil⟩
      exact absurd (congrArg Prod.fst (mem_singleton.mp hp)) hne
    · refine ⟨by decide +kernel, fun w n hl p hp => ?_⟩
      cases hl
      exact absurd hp not_mem_nil
  exact ⟨s, hrun, hacked, hwm, (acked_rows_once _ oneLogRow () sealedAndPending s hok hrun).1⟩

/-- The second of two seals in flight registers first. -/
def overtakenSeal : List StoreEvent :=
  [.open 1000, ingestOne, .freeze 0, ingestOne, .freeze 1, .write 1 true fun _ => 0,
    .register 1 true true, .crash .none (fun _ => 0) fun _ => false]

/-- The watermark a seal persists covers the rows that an older seal still has in flight: after a
crash they are in no listed segment, and not replayed. -/
theorem overtaken_seal_loses_row :
    ¬ ∃ xxh3 : Bytes → UInt64, ∀ es (s : Store Unit Unit),
      run (step xxh3 oneLogRow ()) init es = some s → AckedOnce xxh3 oneLogRow s := by
  rintro ⟨xxh3, h⟩
  obtain ⟨s, hrun, hacked, hwm, hlisted⟩ : ∃ s : Store Unit Unit,
      run (step xxh3 oneLogRow ()) init overtakenSeal = some s ∧
        s.acked = [⟨1, 0, [7]⟩, ⟨2, 0, [7]⟩] ∧ s.watermark = 2 ∧
        s.listedRows .logs = [⟨⟨0, 1, ()⟩, 2⟩] := ⟨_, rfl, rfl, rfl, rfl⟩
  have hperm := (h overtakenSeal s hrun ⟨1, 0, [7]⟩ (by simp [hacked]) .logs).2 (by simp [hwm])
  rw [hlisted] at hperm
  exact absurd hperm.length_eq (by decide)

end Store

end Imbh.Storage
