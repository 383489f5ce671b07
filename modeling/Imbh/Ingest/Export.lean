import Mathlib.Algebra.Order.Group.Multiset
import Imbh.Ingest.Channel
import Imbh.Ingest.Replay

/-!
# Metric exports through the guard, the queue and the storage

Any number of producers export; a call passes the guard on its own thread, and then sends its job or
writes it to the storage itself. One worker writes the jobs of the queue. The steps of the system are
the places at which a call can be overtaken: between the guard and the send or the write, while it is
parked, and between the worker's pop and its write.

What the storage wrote is a list of points. A write may fail in the log, with nothing written, or in
the encoding of one row kind, with the row kinds before it written.

* `refused_accepted` — a refused point was accepted before, as long as no step drops a job whose
  points only it holds.
-/

namespace Imbh.Ingest

open Lib List Function
open Storage (Table)

variable {V : Type}

/-- One decoded request awaiting the write.
Source: `ingest_queue.rs` `IngestJob` -/
inductive IngestJob (V : Type)
  | logs
  | traces
  | metrics (d : DecodedMetrics V)

/-- The points of an export by row kind, in the order in which they are encoded.
Source: `imbh-storage` `Storage::ingest_metrics`, `push_scalar_metric_batches` -/
def DecodedMetrics.groups (d : DecodedMetrics V) : List (Table × List (Point V)) :=
  (Table.all.map fun t => (t, (d.rows.filter (·.table = t)).map .scalar)) ++
    [(.metricsHistogram, d.histograms.map .histogram),
      (.metricsExpHistogram, d.expHistograms.map .expHistogram),
      (.metricsSummary, d.summaries.map .summary)]

variable {job : IngestJob V}

namespace IngestJob

/-- What the storage writes of a job, and whether the ingest succeeds. `appended` is whether the
append to the log does, and `fails` says of which tables the encoding fails.
Source: `lib.rs` `process_ingest_job`, `imbh-storage` `Storage::ingest`, `ingest_traces`,
`ingest_metrics` -/
def write (appended : Bool) (fails : Table → Bool) : IngestJob V → List (Point V) × Bool
  | .logs => ([], appended && !fails .logs)
  | .traces => ([], appended && !fails .spans)
  | .metrics d =>
      let encodes := fun g : Table × List (Point V) => g.2.isEmpty || !fails g.1
      if appended then ((d.groups.takeWhile encodes).flatMap Prod.snd, d.groups.all encodes)
      else ([], false)

/-- The points of a job. -/
def points : IngestJob V → List (Point V)
  | .metrics d => d.points
  | _ => []

/-- A write that succeeds writes every point. -/
theorem mem_write {appended : Bool} {fails : Table → Bool} {x : Point V} (hok : (job.write appended fails).2 = true)
    (hx : x ∈ job.points) : x ∈ (job.write appended fails).1 := by
  rcases job with _ | _ | d
  · cases hx
  · cases hx
  · rcases appended with _ | _
    · cases hok
    · have hall : d.groups.takeWhile (fun g => g.2.isEmpty || !fails g.1) = d.groups :=
        takeWhile_eq_self_iff.mpr fun g hg => all_eq_true.mp hok g hg
      show x ∈ (d.groups.takeWhile _).flatMap Prod.snd
      rw [hall]
      unfold points DecodedMetrics.points at hx
      unfold DecodedMetrics.groups
      rw [flatMap_append, mem_append]
      simp only [mem_append, mem_map] at hx
      rcases hx with ((⟨row, hrow, rfl⟩ | hx) | hx) | hx
      · refine .inl (mem_flatMap.mpr
          ⟨(row.table, _), mem_map.mpr ⟨row.table, Table.mem_all _, rfl⟩, ?_⟩)
        exact mem_map.mpr ⟨row, mem_filter.mpr ⟨hrow, decide_eq_true rfl⟩, rfl⟩
      · exact .inr (by simp [hx])
      · exact .inr (by simp [hx])
      · exact .inr (by simp [hx])

end IngestJob

namespace IngestChannel

variable {J : Type}

/-- One round of the awaiting path.
Source: `ingest_queue.rs` `IngestChannel::send` -/
def sendRound (c : IngestChannel J) (job : J) : IngestChannel J × OfferOutcome J :=
  match c.overflow with
  | .dropOldest => c.pushDroppingOldest job
  | .fail | .block => c.offer job

/-- Whether an attempt that finds the queue full waits for a slot. -/
def parks (c : IngestChannel J) (await : Bool) : Bool := await && c.overflow = .block

theorem sendRound_spec (c : IngestChannel J) (job : J) :
    Offered c job (c.sendRound job).1 (c.sendRound job).2 := by
  unfold sendRound
  rcases hover : c.overflow with _ | _ | _
  · exact offer_spec c job
  · exact offer_spec c job
  · exact pushDroppingOldest_spec c job hover

/-- Only a policy that does not evict finds the queue full. -/
theorem overflow_of_full {c : IngestChannel J} {job job' : J} (h : (c.sendRound job).2 = .full job') :
    c.overflow ≠ .dropOldest := by
  intro hover
  simp only [sendRound, hover] at h
  exact c.pushDroppingOldest_not_full job job' h

theorem trySend_fst (c : IngestChannel J) (job : J) : (c.trySend job).1 = (c.sendRound job).1 := by
  unfold trySend sendRound
  rcases c.overflow with _ | _ | _ <;> rfl

end IngestChannel

/-- Where a producer's call is: past the guard, or waiting for a slot. -/
inductive Call (V : Type)
  | idle
  | decoded (await : Bool) (job : IngestJob V)
  | parked (job : IngestJob V)

/-- The job a call holds. -/
def Call.held : Call V → Option (IngestJob V)
  | .idle => none
  | .decoded _ job | .parked job => some job

/-- Whether the call awaits a slot. -/
def Call.await : Call V → Bool
  | .idle => false
  | .decoded await _ => await
  | .parked _ => true

/-- The database, as far as a metric export sees it. `ingest` is `none` when the writes are made on
the caller's thread.
Source: `lib.rs` `Db` -/
structure Exports (V : Type) where
  dedup : DedupGuard
  ingest : Option (IngestChannel (IngestJob V))
  calls : ℕ → Call V
  /-- The job that the worker popped and has not written yet. -/
  worker : Option (IngestJob V)
  stored : List (Point V)

/-- What happens to the database: a call decodes its request and passes the guard; it goes on (an
awaiting call also after it was parked); it is dropped while it is parked; the queue is closed; the
worker pops a job, or writes it. -/
inductive Action (V : Type)
  | decode (p : ℕ) (await : Bool) (job : IngestJob V)
  | send (p : ℕ) (appended : Bool) (fails : Table → Bool)
  | cancel (p : ℕ)
  | close
  | pop
  | process (appended : Bool) (fails : Table → Bool)

namespace Exports

variable (seriesHash : UInt8 → Text → Option Text → Text → UInt64 × UInt64)

/-- An open database: the guard has seen the records of the log that were replayed.
Source: `lib.rs` `Db::open` -/
def opened (policy : Duplicates) (queue : Option (ℕ × Overflow)) (tail : List (DecodedMetrics V)) :
    Exports V :=
  let (guard, replayed) := (DedupGuard.new policy).admitAll seriesHash tail
  { dedup := guard
    ingest := queue.map fun q => IngestChannel.new q.1 q.2
    calls := fun _ => .idle
    worker := none
    stored := replayed.flatMap (·.points) }

/-- A call goes on. -/
def setCall (s : Exports V) (p : ℕ) (x : Call V) : Exports V :=
  { s with calls := update s.calls p x }

/-- The storage writes what it can of a job. -/
def store (s : Exports V) (appended : Bool) (fails : Table → Bool) (job : IngestJob V) : Exports V :=
  { s with stored := s.stored ++ (job.write appended fails).1 }

/-- A call that holds a job sends it, or writes it.
Source: `lib.rs` `Db::ingest_otlp_metrics`, `ingest_metrics_inner`, `ingest_queue.rs`
`IngestChannel::send`, `try_send` -/
def send (s : Exports V) (p : ℕ) (appended : Bool) (fails : Table → Bool) (job : IngestJob V) :
    Exports V :=
  match s.ingest with
  | none => (s.setCall p .idle).store appended fails job
  | some c =>
      if (s.calls p).await then
        match c.sendRound job with
        | (c', .full job) =>
            { s.setCall p (if c.overflow = .block then .parked job else .idle) with
              ingest := some c' }
        | (c', _) => { s.setCall p .idle with ingest := some c' }
      else { s.setCall p .idle with ingest := some (c.trySend job).1 }

end Exports

section guard

variable (seriesHash : UInt8 → Text → Option Text → Text → UInt64 × UInt64)

open Exports

/-- One step.
Source: `lib.rs` `decode_metrics_job`, `Db::ingest_otlp_metrics`, `ingest_metrics_inner`,
`drain_ingest_burst`, `process_ingest_job` -/
def exportStep (s : Exports V) : Action V → Option (Exports V)
  | .decode p await job =>
      match s.calls p with
      | .idle =>
          match job with
          | .metrics d =>
              let (guard, d) := guardDecoded seriesHash d s.dedup
              some ({ s with dedup := guard }.setCall p (.decoded await (.metrics d)))
          | job => some (s.setCall p (.decoded await job))
      | _ => none
  | .send p appended fails => (s.calls p).held.map (s.send p appended fails)
  | .cancel p =>
      match s.calls p with
      | .parked _ => some (s.setCall p .idle)
      | _ => none
  | .close => some { s with ingest := s.ingest.map (·.close) }
  | .pop =>
      match s.worker, s.ingest with
      | none, some c => some { s with ingest := some c.pop.1, worker := c.pop.2 }
      | _, _ => none
  | .process appended fails =>
      s.worker.map fun job => { s.store appended fails job with
        worker := none
        ingest := if (job.write appended fails).2 then s.ingest else s.ingest.map (·.recordError) }

namespace Exports

/-- The jobs that are still to be written. -/
def queued (s : Exports V) : List (IngestJob V) :=
  s.worker.toList ++ (s.ingest.map (·.q)).getD []

/-- A point with the key was written, or is in a job still to be written. -/
def Accepted (s : Exports V) (k : SeenKey) : Prop :=
  (∃ x ∈ s.stored, x.key seriesHash = k) ∨
    ∃ job ∈ s.queued, ∃ x ∈ job.points, x.key seriesHash = k

/-- A call past the guard holds a point with the key. -/
def Pending (s : Exports V) (k : SeenKey) : Prop :=
  ∃ p job, (s.calls p).held = some job ∧ ∃ x ∈ job.points, x.key seriesHash = k

/-- A point with the key is somewhere. -/
def Backed (s : Exports V) (k : SeenKey) : Prop := s.Accepted seriesHash k ∨ s.Pending seriesHash k

/-- The keys that the guard remembers. -/
def remembered (s : Exports V) : Finset SeenKey := (s.dedup.state.map Window.remembered).getD ∅

/-- The points of an export that the guard drops. -/
def refused [DecidableEq V] (s : Exports V) (d : DecodedMetrics V) : Multiset (Point V) :=
  ↑d.points - ↑(guardDecoded seriesHash d s.dedup).2.points

/-- The job that a step drops, and the database without it: the enqueue is refused, a queued job is
evicted, the ingest fails, or the call is dropped while it waits. -/
def drops (s : Exports V) : Action V → Option (IngestJob V × Exports V)
  | .send p appended fails =>
      (s.calls p).held.bind fun job =>
        match s.ingest with
        | none =>
            if (job.write appended fails).2 then none
            else some (job, (s.setCall p .idle).store appended fails job)
        | some c =>
            if c.closed then some (job, s.setCall p .idle)
            else if c.q.length < c.capacity then none
            else if c.overflow = .dropOldest then
              c.q.head?.map fun oldest => (oldest, { s with ingest := some c.pop.1 })
            else if c.parks (s.calls p).await then none
            else some (job, s.setCall p .idle)
  | .cancel p => (s.calls p).held.map fun job => (job, s.setCall p .idle)
  | .process appended fails =>
      s.worker.bind fun job =>
        if (job.write appended fails).2 then none
        else some (job, { s.store appended fails job with worker := none })
  | _ => none

/-- What must hold before a step: the job it drops, if any, has no point that the guard remembers and
that is nowhere else; and an export shares no point with a call that has passed the guard and has not
reached the queue or the storage yet, nor has it the same new point twice. -/
def Sound (s : Exports V) (e : Action V) : Prop :=
  (∀ job rest, s.drops e = some (job, rest) →
    ∀ x ∈ job.points, x.key seriesHash ∈ s.remembered → rest.Backed seriesHash (x.key seriesHash)) ∧
  ∀ p await d, e = .decode p await (.metrics d) → s.dedup.state.isSome →
    ∀ x ∈ d.points,
      (s.Pending seriesHash (x.key seriesHash) → s.Accepted seriesHash (x.key seriesHash)) ∧
      (x.key seriesHash ∉ s.remembered →
        (d.keys seriesHash).count (x.key seriesHash) ≤ 1)

end Exports

/-! ## Where the points are -/

namespace Exports

/-- A job that is queued, or that a call holds. -/
def Holds (s : Exports V) (job : IngestJob V) : Prop :=
  (s.worker = some job ∨ ∃ c, s.ingest = some c ∧ job ∈ c.q) ∨ ∃ p, (s.calls p).held = some job

variable {seriesHash} {s s' : Exports V} {e : Action V}

theorem mem_queued : job ∈ s.queued ↔ s.worker = some job ∨ ∃ c, s.ingest = some c ∧ job ∈ c.q := by
  unfold queued
  rw [mem_append, Option.mem_toList]
  rcases s.ingest with _ | c <;> simp

/-- A key is backed by a stored row or by a job in flight. -/
theorem backed_iff {k : SeenKey} : s.Backed seriesHash k ↔
    (∃ x ∈ s.stored, x.key seriesHash = k) ∨
      ∃ job, s.Holds job ∧ ∃ x ∈ job.points, x.key seriesHash = k := by
  unfold Backed Accepted Pending Holds
  constructor
  · rintro ((hx | ⟨job, hjob, hx⟩) | ⟨p, job, hp, hx⟩)
    · exact .inl hx
    · exact .inr ⟨job, .inl (mem_queued.mp hjob), hx⟩
    · exact .inr ⟨job, .inr ⟨p, hp⟩, hx⟩
  · rintro (hx | ⟨job, hjob | ⟨p, hp⟩, hx⟩)
    · exact .inl (.inl hx)
    · exact .inl (.inr ⟨job, mem_queued.mpr hjob, hx⟩)
    · exact .inr ⟨p, job, hp, hx⟩

/-- What is backed stays so, or is a point of the one job that is gone. -/
theorem Backed.leave {j : IngestJob V} {k : SeenKey} (h : s.Backed seriesHash k)
    (hstored : s.stored ⊆ s'.stored)
    (hjobs : ∀ job, s.Holds job → s'.Holds job ∨ job.points ⊆ s'.stored ∨ job = j) :
    s'.Backed seriesHash k ∨ ∃ x ∈ j.points, x.key seriesHash = k := by
  rcases backed_iff.mp h with ⟨x, hx, hk⟩ | ⟨job, hjob, x, hx, hk⟩
  · exact .inl (backed_iff.mpr (.inl ⟨x, hstored hx, hk⟩))
  · rcases hjobs job hjob with hjob | hsub | rfl
    · exact .inl (backed_iff.mpr (.inr ⟨job, hjob, x, hx, hk⟩))
    · exact .inl (backed_iff.mpr (.inl ⟨x, hsub hx, hk⟩))
    · exact .inr ⟨x, hx, hk⟩

/-- What is backed stays so when every job is kept or stored. -/
theorem Backed.mono {k : SeenKey} (h : s.Backed seriesHash k) (hstored : s.stored ⊆ s'.stored)
    (hjobs : ∀ job, s.Holds job → s'.Holds job ∨ job.points ⊆ s'.stored) :
    s'.Backed seriesHash k := by
  -- a job without points is never missed
  have hleave : s'.Backed seriesHash k ∨ ∃ x ∈ (IngestJob.logs : IngestJob V).points,
      x.key seriesHash = k := by
    refine h.leave hstored fun job hjob => ?_
    rcases hjobs job hjob with hjob | hsub
    · exact .inl hjob
    · exact .inr (.inl hsub)
  rcases hleave with hs | ⟨x, hx, -⟩
  · exact hs
  · exact absurd hx not_mem_nil

theorem held_setCall (p : ℕ) (x : Call V) {p' : ℕ} (h : (s.calls p').held = some job) :
    p' = p ∨ ((s.setCall p x).calls p').held = some job := by
  by_cases heq : p' = p
  · exact .inl heq
  · refine .inr ?_
    show (update s.calls p x p').held = some job
    rw [update_of_ne heq]
    exact h

/-- The jobs without the one a call held. -/
theorem Holds.setCall {p : ℕ} {x : Call V} {j : IngestJob V} (hp : (s.calls p).held = some j) (h : s.Holds job) :
    (s.setCall p x).Holds job ∨ job = j := by
  rcases h with hq | ⟨p', hp'⟩
  · exact .inl (.inl hq)
  · rcases held_setCall p x hp' with rfl | hheld
    · exact .inr (Option.some.inj (hp'.symm.trans hp))
    · exact .inl (.inr ⟨p', hheld⟩)

/-- The jobs after a call put its own at the end of the queue, which may have lost its front. -/
theorem Holds.enqueue {p : ℕ} {j : IngestJob V} {c c' : IngestChannel (IngestJob V)} (front : List (IngestJob V))
    (hp : (s.calls p).held = some j) (hc : s.ingest = some c) {kept : List (IngestJob V)}
    (hfront : c.q = front ++ kept) (hq : c'.q = kept ++ [j]) (h : s.Holds job) :
    ({ s.setCall p .idle with ingest := some c' } : Exports V).Holds job ∨
      job ∈ front := by
  have hlast : ({ s.setCall p .idle with ingest := some c' } : Exports V).Holds j := by
    refine .inl (.inr ⟨c', rfl, ?_⟩)
    rw [hq]
    exact mem_append_right _ mem_cons_self
  rcases h with (hw | ⟨d, hd, hmem⟩) | ⟨p', hp'⟩
  · exact .inl (.inl (.inl hw))
  · rw [hc] at hd
    cases hd
    rw [hfront] at hmem
    rcases mem_append.mp hmem with hmem | hmem
    · exact .inr hmem
    · refine .inl (.inl (.inr ⟨c', rfl, ?_⟩))
      rw [hq]
      exact mem_append_left _ hmem
  · rcases held_setCall p .idle hp' with rfl | hheld
    · rw [← Option.some.inj (hp.symm.trans hp')]
      exact .inl hlast
    · exact .inl (.inr ⟨p', hheld⟩)

/-- What a step keeps: everything but the job it drops. -/
def Keeps (seriesHash : UInt8 → Text → Option Text → Text → UInt64 × UInt64) (s s' : Exports V)
    (e : Action V) : Prop :=
  ∀ k, s.Backed seriesHash k → s'.Backed seriesHash k ∨
    ∃ job rest, s.drops e = some (job, rest) ∧ (∃ x ∈ job.points, x.key seriesHash = k) ∧
      (rest.Backed seriesHash k → s'.Backed seriesHash k)

/-- A step that drops a job and does nothing else. -/
theorem Keeps.of_leave {j : IngestJob V} (hdrops : s.drops e = some (j, s')) (hstored : s.stored ⊆ s'.stored)
    (hjobs : ∀ job, s.Holds job → s'.Holds job ∨ job.points ⊆ s'.stored ∨ job = j) : Keeps seriesHash s s' e := by
  intro k hk
  rcases hk.leave hstored hjobs with hs | hx
  · exact .inl hs
  · exact .inr ⟨j, s', hdrops, hx, id⟩

/-- A step that drops no job. -/
theorem Keeps.of_mono (hstored : s.stored ⊆ s'.stored)
    (hjobs : ∀ job, s.Holds job → s'.Holds job ∨ job.points ⊆ s'.stored) : Keeps seriesHash s s' e :=
  fun _ hk => .inl (hk.mono hstored hjobs)

/-- What a send leads to: the call returns, or it is parked. -/
theorem send_cases (p : ℕ) (job : IngestJob V) {c : IngestChannel (IngestJob V)}
    (hc : s.ingest = some c) (appended : Bool) (fails : Table → Bool) :
    (∃ c' out, c.Offered job c' out ∧
      s.send p appended fails job = { s.setCall p .idle with ingest := some c' } ∧
      ∀ job', out = .full job' → c.overflow ≠ .dropOldest ∧ c.parks (s.calls p).await = false) ∨
    s.send p appended fails job = { s.setCall p (.parked job) with ingest := some c } := by
  have hspec := c.sendRound_spec job
  unfold send
  rw [hc]
  by_cases hawait : (s.calls p).await = true
  · simp only [hawait, if_true]
    rcases hround : c.sendRound job with ⟨c', _ | job' | _⟩
    · rw [hround] at hspec
      exact .inl ⟨c', .enqueued, hspec, rfl, fun _ h => by cases h⟩
    · rw [hround] at hspec
      obtain ⟨rfl, rfl, hopen, hfull⟩ := hspec.of_full
      by_cases hblock : c'.overflow = .block
      · refine .inr ?_
        simp only [hblock, if_true]
      · refine .inl ⟨c', .full job', .full hopen hfull, ?_, fun _ _ => ⟨?_, ?_⟩⟩
        · simp only [hblock, if_false]
        · exact IngestChannel.overflow_of_full (congrArg Prod.snd hround)
        · simp [IngestChannel.parks, hblock]
    · rw [hround] at hspec
      exact .inl ⟨c', .closed, hspec, rfl, fun _ h => by cases h⟩
  · have hno : (s.calls p).await = false := Bool.not_eq_true _ |>.mp hawait
    simp only [hno, Bool.false_eq_true, if_false]
    rw [c.trySend_fst]
    refine .inl ⟨_, _, hspec, rfl, fun job' hfull => ⟨?_, ?_⟩⟩
    · exact IngestChannel.overflow_of_full hfull
    · simp [IngestChannel.parks]

/-- A write keeps what a call held: it writes it, or drops it. -/
theorem keeps_store (j : IngestJob V) (appended : Bool) (fails : Table → Bool)
    (hstored : s'.stored = s.stored ++ (j.write appended fails).1)
    (hdrops : (j.write appended fails).2 = false → ∃ rest, s.drops e = some (j, rest) ∧
      ∀ k, rest.Backed seriesHash k → s'.Backed seriesHash k)
    (hjobs : ∀ job, s.Holds job → s'.Holds job ∨ job = j) : Keeps seriesHash s s' e := by
  have hsub : s.stored ⊆ s'.stored := by
    rw [hstored]
    exact subset_append_left _ _
  rcases hok : (j.write appended fails).2 with _ | _
  · obtain ⟨rest, hrest, hback⟩ := hdrops hok
    intro k hk
    have hleave := hk.leave (j := j) hsub fun job hjob => (hjobs job hjob).imp_right .inr
    rcases hleave with hs | hx
    · exact .inl hs
    · exact .inr ⟨j, rest, hrest, hx, hback k⟩
  · refine .of_mono hsub fun job hjob => ?_
    rcases hjobs job hjob with hjob | rfl
    · exact .inl hjob
    · refine .inr fun x hx => ?_
      rw [hstored]
      exact mem_append_right _ (IngestJob.mem_write hok hx)

/-- A call that sends its job keeps what is backed. -/
theorem keeps_send {p : ℕ} (hp : (s.calls p).held = some job) (appended : Bool) (fails : Table → Bool) :
    Keeps seriesHash s (s.send p appended fails job) (.send p appended fails) := by
  rcases hc : s.ingest with _ | c
  · have hsend : s.send p appended fails job = (s.setCall p .idle).store appended fails job := by
      simp only [send, hc]
    rw [hsend]
    refine keeps_store job appended fails rfl (fun hok => ?_)
      fun job' hjob' => hjob'.setCall hp
    refine ⟨_, ?_, fun k hk => hk⟩
    simp only [drops, hp, hc, hok, Option.bind_some, Bool.false_eq_true, if_false]
  · have hdrops : s.drops (.send p appended fails) =
        if c.closed then some (job, s.setCall p .idle)
        else if c.q.length < c.capacity then none
        else if c.overflow = .dropOldest then
          c.q.head?.map fun oldest => (oldest, { s with ingest := some c.pop.1 })
        else if c.parks (s.calls p).await then none
        else some (job, s.setCall p .idle) := by
      simp only [drops, hp, hc, Option.bind_some]
    -- the call returns without its job, and the queue is as it was
    have hrefused : s.send p appended fails job = { s.setCall p .idle with ingest := some c } →
        s.drops (.send p appended fails) = some (job, s.setCall p .idle) →
        Keeps seriesHash s (s.send p appended fails job) (.send p appended fails) := by
      intro hsend hdrop
      have hsame : s.send p appended fails job = s.setCall p .idle := by
        rw [hsend, ← hc]
        rfl
      rw [hsame]
      exact .of_leave hdrop (List.Subset.refl _)
        fun job' hjob' => (hjob'.setCall hp).imp_right .inr
    rcases send_cases p job hc appended fails with
      ⟨c', out, hoffer, hsend, hnopark⟩ | hsend
    · rcases hoffer with hclosed | ⟨hopen, hfull⟩ | ⟨hopen, hq, -⟩ | ⟨hopen, hold, hfull, hfront, hq, -⟩
      · apply hrefused hsend
        rw [hdrops, if_pos hclosed]
      · obtain ⟨hover, hpark⟩ := hnopark job rfl
        apply hrefused hsend
        rw [hdrops, hopen, if_neg Bool.false_ne_true, if_neg (not_lt.mpr hfull), if_neg hover,
          hpark, if_neg Bool.false_ne_true]
      · rw [hsend]
        refine .of_mono (List.Subset.refl _) fun job' hjob' => ?_
        rcases hjob'.enqueue [] hp hc rfl hq with hheld | hmem
        · exact .inl hheld
        · exact absurd hmem not_mem_nil
      · rename_i oldest rest
        rw [hsend]
        intro k hk
        have hleave : ({ s.setCall p .idle with ingest := some c' } : Exports V).Backed seriesHash k ∨
            ∃ x ∈ oldest.points, x.key seriesHash = k :=
          hk.leave (List.Subset.refl _) fun job' hjob' => by
            rcases hjob'.enqueue [oldest] hp hc hfront hq with hheld | hmem
            · exact .inl hheld
            · exact .inr (.inr (mem_singleton.mp hmem))
        rcases hleave with hs | hx
        · exact .inl hs
        · refine .inr ⟨oldest, { s with ingest := some c.pop.1 }, ?_, hx, fun hrest => ?_⟩
          · rw [hdrops, hopen, if_neg Bool.false_ne_true, if_neg (not_lt.mpr hfull), if_pos hold,
              hfront]
            rfl
          · obtain ⟨c'', hpop, hrestq, -⟩ := IngestChannel.pop_of_cons hfront
            rw [hpop] at hrest
            refine hrest.mono (List.Subset.refl _) fun job' hjob' => .inl ?_
            have hheld : ({ s.setCall p .idle with ingest := some c' } : Exports V).Holds job' ∨
                job' ∈ [] := Holds.enqueue (s := { s with ingest := some c'' }) [] hp rfl hrestq hq hjob'
            exact hheld.resolve_right not_mem_nil
    · rw [hsend]
      refine .of_mono (List.Subset.refl _) fun job' hjob' => .inl ?_
      rcases hjob' with (hw | ⟨d, hd, hmem⟩) | ⟨p', hp'⟩
      · exact .inl (.inl hw)
      · rw [hc] at hd
        cases hd
        exact .inl (.inr ⟨c, rfl, hmem⟩)
      · rcases held_setCall p (.parked job) hp' with rfl | hheld
        · refine .inr ⟨p', ?_⟩
          show (update s.calls p' (.parked job) p').held = some job'
          rw [update_self, ← hp', hp]
          rfl
        · exact .inr ⟨p', hheld⟩

/-- What is remembered is backed. -/
def Inv (seriesHash : UInt8 → Text → Option Text → Text → UInt64 × UInt64) (s : Exports V) : Prop :=
  ∀ k ∈ s.remembered, s.Backed seriesHash k

/-- A step that is not an export keeps the invariant, when it loses no point. -/
theorem Inv.of_keeps (hi : Inv seriesHash s) (hs : s.Sound seriesHash e) (hkeeps : Keeps seriesHash s s' e)
    (hguard : s'.dedup = s.dedup) : Inv seriesHash s' := by
  intro k hk
  have hmem : k ∈ s.remembered := by
    unfold remembered at hk ⊢
    rw [hguard] at hk
    exact hk
  rcases hkeeps k (hi k hmem) with hback | ⟨job, rest, hdrops, ⟨x, hx, rfl⟩, hrest⟩
  · exact hback
  · exact hrest (hs.1 job rest hdrops x hx hmem)

theorem remembered_of_state {state : GuardState} (h : s.dedup.state = some state) :
    s.remembered = state.remembered := by
  unfold remembered
  rw [h]
  rfl

/-- What an export leaves remembered was so before, or is a point of it that is kept. -/
theorem mem_remembered_decode {d : DecodedMetrics V} {k : SeenKey}
    (h : k ∈ ({ s with dedup := (guardDecoded seriesHash d s.dedup).1 } : Exports V).remembered) :
    k ∈ s.remembered ∨
      ∃ x ∈ (guardDecoded seriesHash d s.dedup).2.points, x.key seriesHash = k := by
  rcases hstate : s.dedup.state with _ | state
  · refine .inl ?_
    have hsame : (guardDecoded seriesHash d s.dedup).1 = s.dedup := by
      simp only [guardDecoded, DedupGuard.retain, hstate]
    rw [hsame] at h
    exact h
  · obtain ⟨hafter, hpoints⟩ := guardDecoded_spec seriesHash hstate d
    rw [remembered_of_state hafter] at h
    rw [remembered_of_state hstate, hpoints]
    rcases Window.mem_remembered_after h with hold | ⟨i, hi, hv⟩
    · exact .inl hold
    · obtain ⟨x, hx, hk⟩ : ∃ x, d.points[i]? = some x ∧ x.key seriesHash = k := by
        unfold DecodedMetrics.keys at hi
        rw [getElem?_map, Option.map_eq_some_iff] at hi
        exact hi
      exact .inr ⟨x, mem_keep_iff.mpr ⟨i, hx, hv⟩, hk⟩

/-- A call that was idle holds nothing that could be lost. -/
theorem Holds.begin {p : ℕ} {x : Call V} (hp : s.calls p = .idle) (h : s.Holds job) : (s.setCall p x).Holds job := by
  rcases h with hq | ⟨p', hp'⟩
  · exact .inl hq
  · rcases held_setCall p x hp' with rfl | hheld
    · rw [hp] at hp'
      cases hp'
    · exact .inr ⟨p', hheld⟩

/-- **One step.** -/
theorem Inv.step (hi : Inv seriesHash s) (hs : s.Sound seriesHash e) (h : exportStep seriesHash s e = some s') :
    Inv seriesHash s' := by
  rcases e with ⟨p, await, job⟩ | ⟨p, appended, fails⟩ | p | _ | _ | ⟨appended, fails⟩
  · rcases hp : s.calls p with _ | _ | _ <;> simp only [exportStep, hp, reduceCtorEq] at h
    have hother : ∀ x : Call V, Inv seriesHash (s.setCall p x) := fun x k hk =>
      (hi k hk).mono (List.Subset.refl _) fun job hjob => .inl (hjob.begin hp)
    rcases job with _ | _ | d
    · rw [← Option.some.inj h]
      exact hother _
    · rw [← Option.some.inj h]
      exact hother _
    · rw [← Option.some.inj h]
      intro k hk
      rcases mem_remembered_decode hk with hold | ⟨x, hx, hkey⟩
      · exact (hi k hold).mono (List.Subset.refl _) fun job hjob => .inl (hjob.begin hp)
      · refine .inr ⟨p, .metrics (guardDecoded seriesHash d s.dedup).2, ?_, x, hx, hkey⟩
        show (update s.calls p _ p).held = _
        rw [update_self]
        rfl
  · obtain ⟨job, hp, rfl⟩ := Option.map_eq_some_iff.mp h
    refine hi.of_keeps hs (keeps_send hp appended fails) ?_
    unfold send
    split
    · rfl
    · split
      · split <;> rfl
      · rfl
  · rcases hp : s.calls p with _ | _ | job <;> simp only [exportStep, hp, reduceCtorEq] at h
    rw [← Option.some.inj h]
    have hheld : (s.calls p).held = some job := by rw [hp]; rfl
    refine hi.of_keeps hs (.of_leave (j := job) ?_ (List.Subset.refl _) ?_) rfl
    · simp only [drops, hheld, Option.map_some]
    · exact fun job' hjob' => (hjob'.setCall hheld).imp_right .inr
  · rw [← Option.some.inj h]
    refine hi.of_keeps hs (.of_mono (List.Subset.refl _) fun job hjob => .inl ?_) rfl
    rcases hjob with (hw | ⟨c, hc, hmem⟩) | hp
    · exact .inl (.inl hw)
    · exact .inl (.inr ⟨c.close, congrArg (Option.map _) hc, hmem⟩)
    · exact .inr hp
  · rcases hw : s.worker with _ | job <;> rcases hc : s.ingest with _ | c <;>
      simp only [exportStep, hw, hc, reduceCtorEq] at h
    rw [← Option.some.inj h]
    refine hi.of_keeps hs (.of_mono (List.Subset.refl _) fun job hjob => .inl ?_) rfl
    rcases hjob with (hw' | ⟨d, hd, hmem⟩) | hp
    · rw [hw] at hw'
      cases hw'
    · rw [hc] at hd
      cases hd
      rcases hq : c.q with _ | ⟨front, rest⟩
      · rw [hq] at hmem
        cases hmem
      · obtain ⟨c', hpop, hrest, -⟩ := IngestChannel.pop_of_cons hq
        rw [hpop]
        rw [hq] at hmem
        rcases mem_cons.mp hmem with rfl | hmem
        · exact .inl (.inl rfl)
        · exact .inl (.inr ⟨c', rfl, hrest ▸ hmem⟩)
    · exact .inr hp
  · obtain ⟨job, hw, rfl⟩ := Option.map_eq_some_iff.mp h
    refine hi.of_keeps hs (keeps_store job appended fails rfl
      (fun hok => ?_) fun job' hjob' => ?_) rfl
    · refine ⟨{ s.store appended fails job with worker := none }, ?_, fun k hk => ?_⟩
      · simp only [drops, hw, hok, Option.bind_some, Bool.false_eq_true, if_false]
      · refine hk.mono (List.Subset.refl _) fun job' hjob' => .inl ?_
        rcases hjob' with (hw' | ⟨c, hc, hmem⟩) | hp
        · cases hw'
        · refine .inl (.inr ⟨c.recordError, ?_, hmem⟩)
          simp only [hok, Bool.false_eq_true, if_false]
          exact congrArg (Option.map _) hc
        · exact .inr hp
    · rcases hjob' with (hw' | ⟨c, hc, hmem⟩) | hp
      · exact .inr (Option.some.inj (hw'.symm.trans hw))
      · refine .inl (.inl (.inr ?_))
        rcases hok : (job.write appended fails).2 with _ | _
        · exact ⟨c.recordError, congrArg (Option.map _) hc, hmem⟩
        · exact ⟨c, hc, hmem⟩
      · exact .inl (.inr hp)

/-- A guard without a state gets none. -/
theorem admitAll_none {g : DedupGuard} (h : g.state = none) (ds : List (DecodedMetrics V)) :
    (g.admitAll seriesHash ds).1.state = none := by
  induction ds generalizing g with
  | nil => exact h
  | cons d ds ih =>
      have hstate : (guardDecoded seriesHash d g).1.state = none := by
        simp only [guardDecoded, DedupGuard.retain, h]
      exact ih hstate

/-- A store that is opened has the invariant. -/
theorem inv_opened (policy : Duplicates) (queue : Option (ℕ × Overflow))
    (tail : List (DecodedMetrics V)) : Inv seriesHash (opened seriesHash policy queue tail) := by
  intro k hk
  rcases hstate : (DedupGuard.new policy).state with _ | state
  · unfold remembered opened at hk
    rw [admitAll_none hstate] at hk
    cases hk
  · rw [remembered_of_state (s := opened seriesHash policy queue tail)
      (admitAll_state hstate tail)] at hk
    rcases Window.mem_remembered_after hk with hnew | ⟨i, hi, hv⟩
    · have hempty : state.remembered = ∅ := by
        obtain ⟨n, -, hn⟩ := Option.map_eq_some_iff.mp hstate
        rw [← hn]
        rfl
      rw [hempty] at hnew
      cases hnew
    · refine .inl (.inl ?_)
      show ∃ x ∈ ((DedupGuard.new policy).admitAll seriesHash tail).2.flatMap (·.points), _
      rw [admitAll_points hstate]
      have hkeys : keysOf seriesHash tail =
          (tail.flatMap (·.points)).map (Point.key seriesHash) := by
        unfold keysOf DecodedMetrics.keys
        rw [map_flatMap]
      rw [hkeys, getElem?_map, Option.map_eq_some_iff] at hi
      obtain ⟨x, hx, hkey⟩ := hi
      exact ⟨x, mem_keep_iff.mpr ⟨i, hx, hv⟩, hkey⟩

/-- A refused point was remembered, or its export has it twice. -/
theorem mem_refused [DecidableEq V] {d : DecodedMetrics V} {x : Point V}
    (hx : x ∈ s.refused seriesHash d) : s.dedup.state.isSome ∧ x ∈ d.points ∧
      (x.key seriesHash ∈ s.remembered ∨ 2 ≤ (d.keys seriesHash).count (x.key seriesHash)) := by
  unfold refused at hx
  rcases hstate : s.dedup.state with _ | state
  · have hsame : (guardDecoded seriesHash d s.dedup).2.points = d.points := by
      simp only [guardDecoded, DedupGuard.retain, hstate]
      rfl
    have hzero := add_tsub_cancel_left (d.points : Multiset (Point V)) 0
    rw [add_zero] at hzero
    rw [hsame, hzero] at hx
    exact absurd hx (Multiset.notMem_zero x)
  · obtain ⟨-, hpoints⟩ := guardDecoded_spec seriesHash hstate d
    have hlen : (state.verdicts (d.keys seriesHash)).length = d.points.length := by
      simp [DecodedMetrics.keys]
    have hsum := Multiset.coe_eq_coe.mpr (keep_perm d.points hlen)
    rw [hpoints, hsum, ← Multiset.coe_add, add_tsub_cancel_left, Multiset.mem_coe] at hx
    obtain ⟨i, hi, hv⟩ := mem_keep_iff.mp hx
    have hkey : (d.keys seriesHash)[i]? = some (x.key seriesHash) := by
      unfold DecodedMetrics.keys
      rw [getElem?_map, hi, Option.map_some]
    have hfalse : (state.verdicts (d.keys seriesHash))[i]? = some false := by
      rw [getElem?_map, Option.map_eq_some_iff] at hv
      obtain ⟨b, hb, hnot⟩ := hv
      rw [hb, (Bool.not_eq_true' b).mp hnot]
    refine ⟨rfl, mem_of_getElem? hi, ?_⟩
    rw [remembered_of_state hstate]
    rcases Window.mem_of_refused hkey hfalse with hmem | hearlier
    · exact .inl hmem
    · refine .inr ?_
      rw [← take_append_drop i (d.keys seriesHash), count_append]
      have hone := one_le_count_iff.mpr hearlier
      have hlate : x.key seriesHash ∈ (d.keys seriesHash).drop i := by
        refine mem_of_getElem? (i := 0) ?_
        rw [getElem?_drop, Nat.add_zero]
        exact hkey
      have htwo := one_le_count_iff.mpr hlate
      omega

end Exports

end guard

open Exports

/-- **A point is refused only if an equal point of an earlier export was accepted**, in every run of
exports, of other requests, of the worker and of closes, each step of which is sound. -/
theorem refused_accepted [DecidableEq V]
    (seriesHash : UInt8 → Text → Option Text → Text → UInt64 × UInt64) (policy : Duplicates)
    (queue : Option (ℕ × Overflow)) (tail : List (DecodedMetrics V)) (es : List (Action V))
    (p : ℕ) (await : Bool) (d : DecodedMetrics V) {s : Exports V}
    (hg : Guarded (exportStep seriesHash) (Sound seriesHash) (opened seriesHash policy queue tail)
      (es ++ [.decode p await (.metrics d)]))
    (hrun : run (exportStep seriesHash) (opened seriesHash policy queue tail) es = some s) :
    ∀ x ∈ s.refused seriesHash d, s.Accepted seriesHash (x.key seriesHash) := by
  intro x hx
  have hinv : Exports.Inv seriesHash s := run_induction (Exports.Inv seriesHash)
    (fun s e s' hi hs hstep => hi.step hs hstep) (inv_opened policy queue tail) hg.of_append hrun
  obtain ⟨hstate, hmem, hremembered⟩ := mem_refused hx
  obtain ⟨hpending, hcount⟩ := (hg.last hrun).2 p await d rfl hstate x hmem
  have hold : x.key seriesHash ∈ s.remembered := by
    by_contra hnot
    have htwo := hremembered.resolve_left hnot
    have hone := hcount hnot
    omega
  rcases hinv _ hold with haccepted | hheld
  · exact haccepted
  · exact hpending hheld

/-- The point of an export of one gauge point. -/
def gaugePoint (ts : Int64) : Point Unit := .scalar ⟨⟨[], none, [], ts, ()⟩, .metricsGauge⟩

/-- A point that is remembered is refused. -/
theorem refused_gaugeAt {seriesHash : UInt8 → Text → Option Text → Text → UInt64 × UInt64}
    {s : Exports Unit} {state : GuardState} (hstate : s.dedup.state = some state) {ts : Int64}
    (hmem : (gaugePoint ts).key seriesHash ∈ state.remembered) :
    gaugePoint ts ∈ s.refused seriesHash (gaugeAt ts) := by
  obtain ⟨-, hpoints⟩ := guardDecoded_spec seriesHash hstate (gaugeAt ts)
  have hnone : (guardDecoded seriesHash (gaugeAt ts) s.dedup).2.points = [] := by
    rw [hpoints]
    show keep _ [(state.admits ((gaugePoint ts).key seriesHash)).2] = []
    rw [Window.admits_of_mem hmem]
    rfl
  unfold refused
  rw [hnone, Multiset.coe_nil, Multiset.sub_zero]
  exact mem_cons_self

/-- A point is accepted, its retry refused, and the job of the first then evicted. -/
theorem refused_accepted_queued :
    ∃ s, run (exportStep fun _ _ _ _ => (0, 0))
        (opened (fun _ _ _ _ => (0, 0)) (.reject 4) (some (1, .dropOldest)) [])
        [.decode 0 true (.metrics (gaugeAt 1)), .send 0 true fun _ => false] = some s ∧
      gaugePoint 1 ∈ s.refused (fun _ _ _ _ => (0, 0)) (gaugeAt 1) ∧
      ∀ x ∈ s.refused (fun _ _ _ _ => (0, 0)) (gaugeAt 1),
        s.Accepted (fun _ _ _ _ => (0, 0)) (x.key fun _ _ _ _ => (0, 0)) := by
  refine ⟨_, rfl, refused_gaugeAt rfl (Finset.mem_union_left _ (Finset.mem_insert_self _ _)),
    refused_accepted (fun _ _ _ _ => (0, 0)) (.reject 4) (some (1, .dropOldest)) []
      [.decode 0 true (.metrics (gaugeAt 1)), .send 0 true fun _ => false] 1 true (gaugeAt 1) ?_ rfl⟩
  refine guarded_cons.mpr ⟨⟨fun _ _ h => (by cases h), ?_⟩, fun _ h₁ => ?_⟩
  · rintro p await d h - x hx
    cases h
    rw [mem_singleton.mp hx]
    refine ⟨?_, fun _ => by decide⟩
    rintro ⟨p, job, hp, -⟩
    cases hp
  cases h₁
  refine guarded_cons.mpr ⟨⟨fun _ _ h => (by cases h), fun _ _ _ h => (by cases h)⟩, fun _ h₂ => ?_⟩
  cases h₂
  refine guarded_cons.mpr ⟨⟨fun _ _ h => (by cases h), ?_⟩, fun _ _ => trivial⟩
  rintro p await d h - x hx
  cases h
  rw [mem_singleton.mp hx]
  refine ⟨fun _ => ?_, fun _ => by decide⟩
  exact .inr ⟨_, mem_cons_self, gaugePoint 1, mem_cons_self, rfl⟩

/-- An export passes the guard, its write fails in the log, and the retry is refused. Nothing was
written, and nothing is queued. -/
theorem failed_export_refuses_retry :
    ¬ ∃ seriesHash : UInt8 → Text → Option Text → Text → UInt64 × UInt64,
      ∀ policy queue, ∀ tail : List (DecodedMetrics Unit), ∀ es s d,
        run (exportStep seriesHash) (opened seriesHash policy queue tail) es = some s →
          ∀ x ∈ s.refused seriesHash d, s.Accepted seriesHash (x.key seriesHash) := by
  rintro ⟨seriesHash, h⟩
  have haccepted := h (.reject 4) none [] [.decode 0 true (.metrics (gaugeAt 1)),
    .send 0 false fun _ => false] _ (gaugeAt 1) rfl (gaugePoint 1)
    (refused_gaugeAt rfl (Finset.mem_union_left _ (Finset.mem_insert_self _ _)))
  rcases haccepted with ⟨x, hx, -⟩ | ⟨job, hjob, -⟩
  · cases hx
  · cases hjob

end Imbh.Ingest
