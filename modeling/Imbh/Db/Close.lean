import Mathlib.Data.List.Flatten
import Imbh.Ingest.Delivery
import Imbh.Storage.Promote

/-!
# Closing a database

The handles of a database that is kept in a directory share one `Db`: its store, its flag `closed`,
its ingest queue with a worker when ingest is asynchronous, and its maintenance worker. Calls are
named by numbers. The maintenance worker makes the seals, commits and retention passes of a `maintain`,
and is the call 0. Only the first `close` finds the flag unset; it alone goes through the steps of the
shutdown.

`written`, `landed`, `reported` and `covered` are kept by no code: the synchronous ingests that returned
`Ok`, the queued jobs the worker wrote, each with its LSN, the jobs the worker counted as errors, and
the synchronous ingests from before the final seal.

* `close_barrier` — what a `close` that returns `Ok` leaves behind.
-/

namespace Imbh.Db

open Lib Storage List Option Function

variable {D P : Type}

/-- A call in progress: an ingest past `ensure_writable`, or a `flush` or `maintain` past it. -/
inductive Call (D : Type)
  | idle
  | ingest (req : Request D)
  | maintain

/-- What was acknowledged: the synchronous ingests and the queued jobs. -/
structure Acks (D : Type) where
  written : List (ℕ × Request D)
  accepted : List (ℕ × Request D)

/-- Where the `close` is that set the flag. -/
inductive Stage
  | closeQueue
  | awaitIngest
  | awaitMaintenance
  | seal
  | sealing
  | sealed
  deriving DecidableEq

/-- No `close` has begun; one has set the flag, after the acknowledgements `before`; it has
returned, without an error or with one. -/
inductive Shutdown (D : Type)
  | running
  | closing (call : ℕ) (before : Acks D) (stage : Stage)
  | over (ok : Bool)

/-- A database that is open for writing. `listed` is what the persisted manifest lists, and `hand`
the job that the ingest worker has popped and not yet written.
Source: `lib.rs` `Db` -/
structure Handle (D P : Type) where
  engine : Engine D P
  listed : Table → List (Segment D)
  queue : Option (Ingest.Sys (Request D))
  hand : Option (ℕ × Request D)
  calls : ℕ → Call D
  shutdown : Shutdown D
  written : List (ℕ × Request D)
  landed : List (ℕ × ℕ × Request D)
  reported : List (ℕ × Request D)
  covered : List (ℕ × Request D)

/-- What happens. A `start` is a call past `ensure_writable`; `ingest`, `send` and `trySend` are what
an ingest does then, `producer` is a step of an ingest that waits for a slot, `work` one of the
worker, and `process` its write. `seal` is a step of a seal; `commitPending` and `retain` are the other parts of a
`maintain`. `advance` is the next step of the shutdown. -/
inductive Event (D : Type)
  | startIngest (call : ℕ) (req : Request D)
  | startMaintain (call : ℕ)
  | ingest (call : ℕ) (appended : Bool) (fails : Table → Bool)
  | send (call : ℕ)
  | trySend (call : ℕ)
  | producer (e : Ingest.Event (Request D))
  | work
  | process (appended : Bool) (fails : Table → Bool)
  | seal (e : Storage.Event D)
  | commitPending (call : ℕ) (t : Table) (inputs : ℕ → Bool) (path : ℕ) (persisted : Bool)
  | retain (call : ℕ) (drop : ℕ → Bool) (persisted : Bool)
  | finish (call : ℕ)
  | close (call : ℕ)
  | advance

/-- Is the event one of an ingest that waits for a slot? -/
def waits : Ingest.Event (Request D) → Bool
  | .offer _ | .wake _ | .cancel _ => true
  | _ => false

/-- The output of a rewrite: the rows of its inputs, sorted by time. -/
def merged (path : ℕ) (inputs : List (Segment D)) : Segment D :=
  ⟨path, (segmentRows inputs).insertionSort fun a b => a.time ≤ b.time⟩

/-- Replace the segments of a table that a rewrite took as its inputs by its output.
Source: `lib.rs` `commit_pending`, the swap -/
def commitPending (t : Table) (inputs : ℕ → Bool) (path : ℕ) (i : Storage.Inner D P) : Storage.Inner D P :=
  { i with
    segments := update i.segments t
      ((i.segments t).filter (fun g => !inputs g.relativePath) ++
        [merged path ((i.segments t).filter fun g => inputs g.relativePath)]) }

namespace Handle

/-- A database as its open leaves it; `queue` is the capacity and the policy of the queue, if ingest
is asynchronous, and `scheduled` says whether there is a maintenance worker. -/
def opened (promote : P) (inner : Storage.Inner D P) (queue : Option (ℕ × Ingest.Overflow))
    (scheduled : Bool) : Handle D P where
  engine := .opened promote inner
  listed := inner.segments
  queue := queue.map fun q => .init q.1 q.2
  hand := none
  calls := fun p => if p = 0 ∧ scheduled then .maintain else .idle
  shutdown := .running
  written := []
  landed := []
  reported := []
  covered := []

/-- Is the flag `closed` set? -/
def closed (s : Handle D P) : Bool :=
  match s.shutdown with
  | .running => false
  | _ => true

/-- What is acknowledged so far. -/
def acks (s : Handle D P) : Acks D where
  written := s.written
  accepted := (s.queue.map (·.accepted)).getD []

def setCall (s : Handle D P) (c : ℕ) (x : Call D) : Handle D P :=
  { s with calls := update s.calls c x }

theorem setCall_self (s : Handle D P) (c : ℕ) (x : Call D) : (s.setCall c x).calls c = x :=
  update_self _ _ _

theorem setCall_ne (s : Handle D P) {c c' : ℕ} (h : c' ≠ c) (x : Call D) :
    (s.setCall c x).calls c' = s.calls c' := update_of_ne h _ _

/-- Does an ingest of `req` return `Ok`?
Source: `lib.rs` (storage) `ingest`, `ingest_traces`, `ingest_metrics` -/
def writes (s : Handle D P) (req : Request D) (appended : Bool) (fails : Table → Bool) : Bool :=
  appended && (req.groups s.engine.inner.nextLsn).all (encodes fails)

/-- A synchronous ingest writes and returns.
Source: `lib.rs` `ingest_logs_inner`, `ingest_traces_inner`, `ingest_metrics_inner` -/
def ingested (s : Handle D P) (c : ℕ) (req : Request D) (appended : Bool) (fails : Table → Bool) :
    Handle D P :=
  { s.setCall c .idle with
    engine := s.engine.ingest appended req fails
    written := if s.writes req appended fails then s.written ++ [(s.engine.inner.nextLsn, req)]
      else s.written }

/-- A queue whose worker counts an error. -/
def errored (q : Ingest.Sys (Request D)) : Ingest.Sys (Request D) :=
  { q with chan := q.chan.recordError }

/-- The worker writes the job it holds, or counts an error.
Source: `lib.rs` `drain_ingest_burst`, `process_ingest_job` -/
def processed (s : Handle D P) (job : ℕ × Request D) (appended : Bool) (fails : Table → Bool) :
    Handle D P :=
  let ok := s.writes job.2 appended fails
  { s with
    engine := s.engine.ingest appended job.2 fails
    queue := if ok then s.queue else s.queue.map errored
    hand := none
    landed := if ok then s.landed ++ [(s.engine.inner.nextLsn, job)] else s.landed
    reported := if ok then s.reported else s.reported ++ [job] }

/-- The queue takes a step.
Source: `ingest_queue.rs` `IngestChannel::send`, `try_send` -/
def queued (s : Handle D P) (e : Ingest.Event (Request D)) : Option (Handle D P) :=
  s.queue.bind fun q => (Ingest.step q e).map fun q' => { s with queue := some q' }

/-- Is there no call under the name? -/
def free (s : Handle D P) (c : ℕ) : Bool :=
  match s.calls c with
  | .idle => c ≠ 0
  | _ => false

/-- Is a `flush` or a `maintain` in progress under the name? -/
def maintains (s : Handle D P) (c : ℕ) : Bool :=
  match s.calls c with
  | .maintain => true
  | _ => false

/-- Is it the `close` under the name that is about to commit the prepared rewrites and return? -/
def committing (s : Handle D P) (c : ℕ) : Bool :=
  match s.shutdown with
  | .closing c' _ .sealed => c' = c
  | _ => false

/-- May the step of a seal be one of a `flush`, a `maintain` or a seal in flight? -/
def mayStep (s : Handle D P) : Storage.Event D → Bool
  | .freeze c => s.maintains c
  | .write .. | .register .. | .reclaim .. => true
  | .ingest .. | .retain _ => false

/-- What the manifest lists after a step of a seal. -/
def listedAfter (s : Handle D P) (engine : Engine D P) : Storage.Event D → Table → List (Segment D)
  | .register _ true => engine.inner.segments
  | _ => s.listed

/-- The final seal returns: the `close` goes on, or returns its error.
Source: `lib.rs` `Db::close`, `self.storage.seal()?` -/
def sealReturned : Shutdown D → Option (ℕ × Bool) → Shutdown D
  | .closing c before .sealing, some (c', ok) =>
      if c' = c then (if ok then .closing c before .sealed else .over false)
      else .closing c before .sealing
  | x, _ => x

/-- A step of a seal. -/
def stored (s : Handle D P) (e : Storage.Event D) (engine : Engine D P) : Handle D P :=
  { s with
    engine := engine
    listed := s.listedAfter engine e
    shutdown := sealReturned s.shutdown (s.engine.sealResult e) }

/-- A rewrite is swapped in, and the manifest is persisted or not.
Source: `lib.rs` `commit_pending` -/
def committed (s : Handle D P) (t : Table) (inputs : ℕ → Bool) (path : ℕ) (persisted : Bool) :
    Handle D P :=
  { s with
    engine := { s.engine with inner := commitPending t inputs path s.engine.inner }
    listed := if persisted then (commitPending t inputs path s.engine.inner).segments else s.listed }

/-- Segments are dropped, and the manifest is persisted or not; with nothing to drop it is not.
Source: `lib.rs` `retain` -/
def retained (s : Handle D P) (drop : ℕ → Bool) (persisted : Bool) : Handle D P :=
  let drops := Table.all.any fun t => (s.engine.inner.segments t).any fun g => drop g.relativePath
  { s with
    engine := s.engine.retain drop
    listed := if drops && persisted then (s.engine.retain drop).inner.segments else s.listed }

/-- The next step of the shutdown. The ingest worker is waited for when there is one.
Source: `lib.rs` `Db::close` -/
def advance (s : Handle D P) : Option (Handle D P) :=
  match s.shutdown with
  | .closing c before .closeQueue =>
      some { s with
        queue := s.queue.map fun q => { q with chan := q.chan.close }
        shutdown := .closing c before .awaitIngest }
  | .closing c before .awaitIngest =>
      if s.queue.all (·.worker = .exited) then
        some { s with shutdown := .closing c before .awaitMaintenance }
      else none
  | .closing c before .awaitMaintenance =>
      if s.maintains 0 then none else some { s with shutdown := .closing c before .seal }
  | .closing c before .seal =>
      match s.engine.step (.freeze c) with
      | none => none
      | some engine =>
          some { s with
            engine := engine
            shutdown := .closing c before (if s.engine.inner.buffersEmpty then .sealed else .sealing)
            covered := s.written }
  | .closing _ _ .sealed => some { s with shutdown := .over true }
  | _ => none

/-- One step.
Source: `lib.rs` `Db::close`, `run_ingest_worker`, `run_maintenance`, `Db::flush`, `Db::maintain`,
`Db::ingest_otlp_logs`, `Db::try_ingest_otlp_logs` and the like -/
def step (s : Handle D P) : Event D → Option (Handle D P)
  | .startIngest c req => if s.free c && !s.closed then some (s.setCall c (.ingest req)) else none
  | .startMaintain c => if s.free c && !s.closed then some (s.setCall c .maintain) else none
  | .ingest c appended fails =>
      match s.calls c, s.queue with
      | .ingest req, none => some (s.ingested c req appended fails)
      | _, _ => none
  | .send c =>
      match s.calls c with
      | .ingest req => (s.setCall c .idle).queued (.send c req)
      | _ => none
  | .trySend c =>
      match s.calls c with
      | .ingest req => (s.setCall c .idle).queued (.trySend req)
      | _ => none
  | .producer e => if waits e then s.queued e else none
  | .work =>
      match s.hand with
      | none => (s.queued .work).map fun s' => { s' with hand := s.queue.bind (·.popping) }
      | some _ => none
  | .process appended fails =>
      match s.hand with
      | some job => some (s.processed job appended fails)
      | none => none
  | .seal e => if s.mayStep e then (s.engine.step e).map (s.stored e) else none
  | .commitPending c t inputs path persisted =>
      if s.maintains c || s.committing c then some (s.committed t inputs path persisted) else none
  | .retain c drop persisted =>
      if s.maintains c then some (s.retained drop persisted) else none
  | .finish c =>
      if s.maintains c && (s.engine.seals c).isNone && !(c = 0 && !s.closed) then
        some (s.setCall c .idle)
      else none
  | .close c =>
      if s.free c then
        if s.closed then some s else some { s with shutdown := .closing c s.acks .closeQueue }
      else none
  | .advance => s.advance

/-- The acknowledgements from before a `close` that returns `Ok` in the step. -/
def returnsOk (s : Handle D P) : Event D → Option (Acks D)
  | .close _ => if s.closed then some s.acks else none
  | .advance =>
      match s.shutdown with
      | .closing _ before .sealed => some before
      | _ => none
  | _ => none

/-! ## What is known -/

/-- The rows of a table in a list of ingests. -/
def writeRows (ws : List (ℕ × Request D)) (t : Table) : List (Row D) :=
  ws.flatMap fun w => w.2.tagged w.1 t

theorem writeRows_append (ws us : List (ℕ × Request D)) (t : Table) :
    writeRows (ws ++ us) t = writeRows ws t ++ writeRows us t := by
  unfold writeRows
  rw [flatMap_append]

/-- The rows of a part of the ingests. -/
theorem writeRows_sublist {ws us : List (ℕ × Request D)} (h : ws.Sublist us) (t : Table) :
    (writeRows ws t).Sublist (writeRows us t) := by
  unfold writeRows
  exact h.flatMap _

/-- The ingests of the worker. -/
def landedWrites (s : Handle D P) : List (ℕ × Request D) := s.landed.map fun x => (x.1, x.2.2)

/-- The rows of a list of segments, next to those that retention dropped. -/
def kept (e : Engine D P) (segments : Table → List (Segment D)) (t : Table) : List (Row D) :=
  segmentRows (segments t) ++ e.retained t

/-- The worker popped the job, and has written it or counted an error. -/
def Settled (s : Handle D P) (job : ℕ × Request D) : Prop :=
  job ∈ s.reported ∨ ∃ lsn, (lsn, job) ∈ s.landed

/-- The ingest worker, if there is one, has come to its end. -/
def WorkerEnded (s : Handle D P) : Prop := ∀ q, s.queue = some q → q.worker = .exited

/-- The rows the final seal has to leave behind. -/
def coveredRows (s : Handle D P) (t : Table) : List (Row D) :=
  writeRows (s.covered ++ s.landedWrites) t

/-- They are in the registered segments, and in those the manifest lists. -/
structure Listed (s : Handle D P) : Prop where
  registered : ∀ t, (s.coveredRows t).Subperm (kept s.engine s.engine.inner.segments t)
  persisted : ∀ t, (s.coveredRows t).Subperm (kept s.engine s.listed t)

/-- They are in the registered segments and in the batches of the seal. -/
structure Holds (s : Handle D P) (x : SealCall D P) : Prop where
  staged : x.Staged → ∀ t,
    (s.coveredRows t).Subperm (batchRows (x.batches t) ++ kept s.engine s.engine.inner.segments t)
  reclaim : x.stage = .reclaim → s.Listed

end Handle

/-- The ingest worker was waited for. -/
def Shutdown.pastIngest : Shutdown D → Bool
  | .running | .closing _ _ .closeQueue | .closing _ _ .awaitIngest => false
  | _ => true

/-- The maintenance worker was waited for. -/
def Shutdown.pastMaintenance : Shutdown D → Bool
  | .running | .closing _ _ .closeQueue | .closing _ _ .awaitIngest |
    .closing _ _ .awaitMaintenance => false
  | _ => true

/-- The final seal returned `Ok`. -/
def Shutdown.isSealed : Shutdown D → Bool
  | .closing _ _ .sealed => true
  | .over ok => ok
  | _ => false

namespace Handle

/-- What is known of the store, the queue, the job in hand and the shutdown. -/
structure Inv (s : Handle D P) : Prop where
  engine : s.engine.Inv
  rows : s.engine.RowsOnce
  acked : ∀ t, (writeRows (s.written ++ s.landedWrites) t).Subperm (s.engine.accepted t)
  queue : ∀ q, s.queue = some q → ∃ cap, Ingest.Inv cap q
  jobs : ∀ q, s.queue = some q → ∀ job, (job, Ingest.Fate.popped) ∈ q.gone →
    s.hand = some job ∨ s.Settled job
  hand : s.WorkerEnded → s.hand = none
  ended : s.shutdown.pastIngest → s.WorkerEnded
  maintenance : s.shutdown.pastMaintenance → s.maintains 0 = false
  before : ∀ c before stage, s.shutdown = .closing c before stage →
    before.written <+: s.written ∧ before.accepted ⊆ s.acks.accepted
  covered : ∀ c before stage, s.shutdown = .closing c before stage → stage = .sealing ∨ stage = .sealed →
    before.written <+: s.covered
  sealing : ∀ c before, s.shutdown = .closing c before .sealing →
    ∃ x, s.engine.seals c = some x ∧ s.Holds x
  listed : s.shutdown.isSealed → s.Listed

/-! ## The rows of the final seal stay where they are -/

/-- What a step leaves in the registered segments and in the listed ones. -/
structure Grows (s s' : Handle D P) : Prop where
  covered : s'.covered = s.covered
  landed : s'.landed = s.landed
  registered : ∀ t, (kept s.engine s.engine.inner.segments t).Subperm
    (kept s'.engine s'.engine.inner.segments t)
  listed : s'.listed = s'.engine.inner.segments ∨
    s'.listed = s.listed ∧ ∀ t, (s.engine.retained t).Sublist (s'.engine.retained t)

variable {s s' : Handle D P} {e : Engine D P} {ev : Storage.Event D}

theorem Grows.coveredRows (g : Grows s s') : s'.coveredRows = s.coveredRows := by
  funext t
  unfold Handle.coveredRows landedWrites
  rw [g.covered, g.landed]

/-- What is listed stays so in a store that grows. -/
theorem Listed.grows (h : s.Listed) (g : Grows s s') : s'.Listed := by
  constructor
  · intro t
    rw [g.coveredRows]
    exact (h.registered t).trans (g.registered t)
  · intro t
    rw [g.coveredRows]
    rcases g.listed with hl | ⟨hl, hret⟩
    · rw [hl]
      exact (h.registered t).trans (g.registered t)
    · rw [hl]
      exact (h.persisted t).trans ((hret t).append_left _).subperm

/-- A seal holds on to its batches in a store that grows. -/
theorem Holds.grows {x y : SealCall D P} (h : s.Holds x) (g : Grows s s')
    (hbatches : y.batches = x.batches) (hstaged : y.Staged → x.Staged)
    (hreclaim : y.stage = .reclaim → x.stage = .reclaim) : s'.Holds y := by
  constructor
  · intro hy t
    rw [g.coveredRows, hbatches]
    refine (h.staged (hstaged hy) t).trans ?_
    rw [← Multiset.coe_le, ← Multiset.coe_add, ← Multiset.coe_add]
    exact add_le_add_right (Multiset.coe_le.mpr (g.registered t)) _
  · exact fun hy => (h.reclaim (hreclaim hy)).grows g

/-- A step of the engine adds to the segments, or moves rows to those dropped. -/
theorem kept_step {e' : Engine D P} (h : Engine.step e ev = some e') :
    (∀ t, (kept e e.inner.segments t).Subperm (kept e' e'.inner.segments t)) ∧
      ∀ t, (e.retained t).Sublist (e'.retained t) := by
  rcases Engine.stepFrom_of_step h with ⟨appended, req, fails⟩ | ⟨c, hc⟩ | ⟨c, path, x, hc, hx⟩ |
    ⟨c, path, x, hc, hx⟩ | ⟨c, persisted, x, written, hc, hx⟩ | ⟨c, ok, x, hc, hx⟩ | drop
  · obtain ⟨added, bytes, heq, -, -⟩ := Engine.ingest_eq appended req fails e
    rw [heq]
    exact ⟨fun t => Subperm.refl _, fun t => Sublist.refl _⟩
  · unfold Engine.freeze
    split
    · exact ⟨fun t => Subperm.refl _, fun t => Sublist.refl _⟩
    · exact ⟨fun t => Subperm.refl _, fun t => Sublist.refl _⟩
  · exact ⟨fun t => Subperm.refl _, fun t => Sublist.refl _⟩
  · exact ⟨fun t => Subperm.refl _, fun t => Sublist.refl _⟩
  · refine ⟨fun t => ?_, fun t => Sublist.refl _⟩
    show (segmentRows (e.inner.segments t) ++ e.retained t).Subperm
      (segmentRows (e.inner.segments t ++ written t) ++ e.retained t)
    rw [segmentRows_append]
    exact ((sublist_append_left _ _).append_right _).subperm
  · exact ⟨fun t => Subperm.refl _, fun t => Sublist.refl _⟩
  · refine ⟨fun t => Perm.subperm ?_, fun t => sublist_append_left _ _⟩
    have hsplit := Engine.segmentRows_perm_dropped drop (e.inner.segments t)
    refine (hsplit.append_right _).trans ?_
    show List.Perm _ (segmentRows ((e.inner.segments t).filter fun g => !drop g.relativePath) ++
      (e.retained t ++ droppedRows drop (e.inner.segments t)))
    rw [append_assoc, ← append_assoc _ (e.retained t)]
    exact perm_append_comm

/-- A rewrite keeps the rows. -/
theorem segmentRows_commitPending (t : Table) (inputs : ℕ → Bool) (path : ℕ) (i : Storage.Inner D P)
    (u : Table) :
    (segmentRows ((commitPending t inputs path i).segments u)).Perm (segmentRows (i.segments u)) := by
  by_cases hu : u = t
  · subst hu
    simp only [commitPending, update_self, segmentRows_append]
    refine perm_append_comm.trans ?_
    refine Perm.trans ?_ (Engine.segmentRows_perm_dropped inputs (i.segments u)).symm
    apply Perm.append_right
    show ((merged path ((i.segments u).filter fun g => inputs g.relativePath)).rows ++ []).Perm _
    rw [append_nil]
    exact perm_insertionSort _ _
  · simp only [commitPending, update_of_ne hu]
    exact Perm.refl _

/-! ## The steps of the store -/

/-- A step of the store that leaves the shutdown where it is. -/
theorem Inv.storage (hi : s.Inv) {l : Table → List (Segment D)} (he : e.Inv)
    (hr : e.RowsOnce) (ha : e.accepted = s.engine.accepted)
    (g : Grows s { s with engine := e, listed := l })
    (hseals : ∀ c before, s.shutdown = .closing c before .sealing →
      ∃ x, e.seals c = some x ∧ Holds { s with engine := e, listed := l } x) :
    Inv { s with engine := e, listed := l } where
  engine := he
  rows := hr
  acked := by rw [ha]; exact hi.acked
  queue := hi.queue
  jobs := hi.jobs
  hand := hi.hand
  ended := hi.ended
  maintenance := hi.maintenance
  before := hi.before
  covered := hi.covered
  sealing := hseals
  listed h := (hi.listed h).grows g

theorem grows_step (h : Engine.step s.engine ev = some e) :
    Grows s { s with engine := e, listed := s.listedAfter e ev } := by
  obtain ⟨hkept, hret⟩ := kept_step h
  refine ⟨rfl, rfl, hkept, ?_⟩
  show s.listedAfter e ev = e.inner.segments ∨ s.listedAfter e ev = s.listed ∧ _
  unfold listedAfter
  split
  · exact .inl rfl
  · exact .inr ⟨rfl, hret⟩

/-- The seal of the `close` is in flight, and does not return in a step of the engine. -/
theorem Inv.seals_step (hi : s.Inv) (h : Engine.step s.engine ev = some e) {c : ℕ} {before : Acks D}
    (hc : s.shutdown = .closing c before .sealing) (hres : ∀ ok, s.engine.sealResult ev ≠ some (c, ok)) :
    ∃ x, e.seals c = some x ∧ Holds { s with engine := e, listed := s.listedAfter e ev } x := by
  obtain ⟨x, hx, hold⟩ := hi.sealing c before hc
  have g := grows_step h
  have hkeep : e.seals c = some x →
      ∃ x, e.seals c = some x ∧ Holds { s with engine := e, listed := s.listedAfter e ev } x :=
    fun hsame => ⟨x, hsame, hold.grows g rfl id id⟩
  rcases Engine.stepFrom_of_step h with ⟨appended, req, fails⟩ | ⟨c', hc'⟩ | ⟨c', path, y, hc', hy⟩ |
    ⟨c', path, y, hc', hy⟩ | ⟨c', persisted, y, written, hc', hy⟩ | ⟨c', ok, y, hc', hy⟩ | drop
  · apply hkeep
    obtain ⟨added, bytes, heq, -, -⟩ := Engine.ingest_eq appended req fails s.engine
    rw [heq]
    exact hx
  · apply hkeep
    have hne : c ≠ c' := by
      rintro rfl
      rw [hc'] at hx
      cases hx
    unfold Engine.freeze
    split
    · exact hx
    · exact (update_of_ne hne _ _).trans hx
  · by_cases hne : c = c'
    · subst hne
      rw [some.inj (hx.symm.trans hc')] at hold
      refine ⟨_, update_self _ _ _, hold.grows g rfl (fun _ => ?_) fun hst => ?_⟩
      · exact Engine.staged_of_write hy
      · cases hst
    · exact hkeep ((update_of_ne hne _ _).trans hx)
  · by_cases hne : c = c'
    · subst hne
      exact absurd rfl (hres false)
    · exact hkeep ((update_of_ne hne _ _).trans hx)
  · by_cases hne : c = c'
    · subst hne
      cases persisted with
      | false => exact absurd rfl (hres false)
      | true =>
          rw [some.inj (hx.symm.trans hc')] at hold
          -- the rows of its batches are in the segments it wrote, and these are listed
          have hlisted : ∀ t, (s.coveredRows t).Subperm
              (kept (s.engine.registered c y written true)
                (s.engine.registered c y written true).inner.segments t) := by
            intro t
            refine (hold.staged (Engine.staged_of_register hy) t).trans (Perm.subperm ?_)
            have hwrote := Multiset.coe_eq_coe.mpr (hi.engine.wrote c y written hc' hy t)
            show List.Perm _ (segmentRows (s.engine.inner.segments t ++ written t) ++
              s.engine.retained t)
            rw [← Multiset.coe_eq_coe, segmentRows_append]
            simp only [kept, ← Multiset.coe_add]
            rw [hwrote]
            abel
          refine ⟨_, update_self _ _ _, fun hst => absurd rfl hst, fun _ => ?_⟩
          exact ⟨hlisted, hlisted⟩
    · exact hkeep ((update_of_ne hne _ _).trans hx)
  · by_cases hne : c = c'
    · subst hne
      exact absurd rfl (hres ok)
    · exact hkeep ((update_of_ne hne _ _).trans hx)
  · exact hkeep hx

/-- A seal returns: it is the final one, or nothing happens to the shutdown. -/
theorem sealReturned_cases (sd : Shutdown D) (r : Option (ℕ × Bool)) :
    (∃ c before ok, sd = .closing c before .sealing ∧ r = some (c, ok) ∧
      sealReturned sd r = if ok then .closing c before .sealed else .over false) ∨
    sealReturned sd r = sd ∧ ∀ c before ok, sd = .closing c before .sealing → r ≠ some (c, ok) := by
  rcases sd with _ | ⟨c, before, stage⟩ | ok
  · exact .inr ⟨rfl, fun _ _ _ h => by cases h⟩
  · by_cases hstage : stage = .sealing
    · subst hstage
      rcases r with _ | ⟨c', ok⟩
      · exact .inr ⟨rfl, fun _ _ _ _ h => by cases h⟩
      · by_cases hc : c' = c
        · subst hc
          exact .inl ⟨c', before, ok, rfl, rfl, by simp only [sealReturned, if_true]⟩
        · refine .inr ⟨by simp only [sealReturned, if_neg hc], fun _ _ _ h hr => hc ?_⟩
          cases h
          cases hr
          rfl
    · refine .inr ⟨?_, fun _ _ _ h => by cases h; exact absurd rfl hstage⟩
      rcases stage with _ | _ | _ | _ | _ | _
      all_goals first | rfl | exact absurd rfl hstage
  · exact .inr ⟨rfl, fun _ _ _ h => by cases h⟩

/-- The final seal returns. -/
theorem Inv.sealReturned (hi : s.Inv) {c : ℕ} {before : Acks D} {ok : Bool}
    (hc : s.shutdown = .closing c before .sealing) (hok : ok = true → s.Listed) :
    Inv { s with shutdown := if ok then .closing c before .sealed else .over false } := by
  have hended : s.WorkerEnded := hi.ended (by rw [hc]; rfl)
  have hmaint : s.maintains 0 = false := hi.maintenance (by rw [hc]; rfl)
  cases ok with
  | true =>
      refine ⟨hi.engine, hi.rows, hi.acked, hi.queue, hi.jobs, hi.hand, fun _ => hended, fun _ => hmaint,
        fun c' before' stage h => ?_, fun c' before' stage h _ => ?_, fun c' before' h => ?_, fun _ => ?_⟩
      · cases h
        exact hi.before c before .sealing hc
      · cases h
        exact hi.covered c before .sealing hc (.inl rfl)
      · cases h
      · exact ⟨(hok rfl).registered, (hok rfl).persisted⟩
  | false =>
      refine ⟨hi.engine, hi.rows, hi.acked, hi.queue, hi.jobs, hi.hand, fun _ => hended, fun _ => hmaint,
        fun c' before' stage h => ?_, fun c' before' stage h _ => ?_, fun c' before' h => ?_, fun h => ?_⟩
      · cases h
      · cases h
      · cases h
      · cases h

/-- A seal that returns without an error, if it is not one that found nothing to do, has persisted the
manifest. -/
theorem reclaim_of_sealResult {e' : Engine D P} {c : ℕ} {x : SealCall D P} (h : Engine.step e ev = some e')
    (hx : e.seals c = some x) (hres : e.sealResult ev = some (c, true)) : x.stage = .reclaim := by
  rcases Engine.stepFrom_of_step h with ⟨appended, req, fails⟩ | ⟨c', hc'⟩ | ⟨c', path, y, hc', hy⟩ |
    ⟨c', path, y, hc', hy⟩ | ⟨c', persisted, y, written, hc', hy⟩ | ⟨c', ok, y, hc', hy⟩ | drop
  · cases hres
  · simp only [Engine.sealResult] at hres
    split at hres
    · cases hres
      rw [hc'] at hx
      cases hx
    · cases hres
  · cases hres
  · cases hres
  · cases persisted <;> cases hres
  · cases hres
    rw [some.inj (hx.symm.trans hc')]
    exact hy
  · cases hres

/-- A step of a seal. -/
theorem Inv.stored (hi : s.Inv) (hmay : s.mayStep ev) (h : Engine.step s.engine ev = some e) :
    Inv (s.stored ev e) := by
  have haccepted : e.accepted = s.engine.accepted := by
    rcases Engine.stepFrom_of_step h with ⟨appended, req, fails⟩ | ⟨c, hc⟩ | ⟨c, path, x, hc, hx⟩ |
      ⟨c, path, x, hc, hx⟩ | ⟨c, persisted, x, written, hc, hx⟩ | ⟨c, ok, x, hc, hx⟩ | drop
    · cases hmay
    · exact Engine.freeze_accepted _ _
    · rfl
    · rfl
    · rfl
    · rfl
    · rfl
  have he := Engine.step_inv hi.engine h
  have hr := Engine.step_rowsOnce hi.engine hi.rows h
  rcases sealReturned_cases s.shutdown (s.engine.sealResult ev) with
    ⟨c, before, ok, hc, hres, hnext⟩ | ⟨hnext, hother⟩
  · obtain ⟨x, hx, hold⟩ := hi.sealing c before hc
    have hmid := hi.sealReturned hc fun hok : ok = true => by
      subst hok
      exact hold.reclaim (reclaim_of_sealResult h hx hres)
    have hnone : ∀ c' before', { s with
        shutdown := if ok then .closing c before .sealed else .over false }.shutdown ≠
          .closing c' before' .sealing := by
      intro c' before' h
      cases ok <;> cases h
    have hfinal := hmid.storage he hr haccepted (grows_step h) fun c' before' hc' =>
      absurd hc' (hnone c' before')
    unfold Handle.stored
    rw [hnext]
    exact hfinal
  · unfold Handle.stored
    rw [hnext]
    exact hi.storage he hr haccepted (grows_step h) fun c before hc =>
      hi.seals_step h hc fun ok => hother c before ok hc

/-- A step of the store that is none of the final seal. -/
theorem Inv.other (hi : s.Inv) {l : Table → List (Segment D)} (he : e.Inv) (hr : e.RowsOnce)
    (ha : e.accepted = s.engine.accepted) (g : Grows s { s with engine := e, listed := l })
    (hseals : e.seals = s.engine.seals) : Inv { s with engine := e, listed := l } := by
  apply hi.storage he hr ha g
  intro c before hc
  obtain ⟨x, hx, hold⟩ := hi.sealing c before hc
  exact ⟨x, by rw [hseals]; exact hx, hold.grows g rfl id id⟩

/-- A rewrite that is committed keeps the invariant. -/
theorem Inv.committed (hi : s.Inv) (t : Table) (inputs : ℕ → Bool) (path : ℕ) (persisted : Bool) :
    Inv (s.committed t inputs path persisted) := by
  have hsegs := segmentRows_commitPending t inputs path s.engine.inner
  refine hi.other (hi.engine.congr rfl rfl rfl) (fun u => ?_) rfl ⟨rfl, rfl, fun u => ?_, ?_⟩ rfl
  · refine Perm.trans (Perm.append_right _ ?_) (hi.rows u)
    rw [snapshotRows_eq, snapshotRows_eq]
    exact ((hsegs u).append_left _).append_left _
  · exact ((hsegs u).symm.append_right _).subperm
  · cases persisted with
    | true => exact .inl rfl
    | false => exact .inr ⟨rfl, fun _ => Sublist.refl _⟩

theorem Inv.retained (hi : s.Inv) (drop : ℕ → Bool) (persisted : Bool) :
    Inv (s.retained drop persisted) := by
  obtain ⟨hkept, hret⟩ := kept_step (show s.engine.step (.retain drop) = some _ from rfl)
  refine hi.other (hi.engine.congr rfl rfl rfl) (hi.rows.retain drop) rfl ⟨rfl, rfl, hkept, ?_⟩ rfl
  split
  · exact .inl rfl
  · exact .inr ⟨rfl, hret⟩

/-! ## The other steps -/

/-- Nothing of the store changes. -/
theorem Grows.of_eq (hengine : s'.engine = s.engine) (hlisted : s'.listed = s.listed)
    (hcovered : s'.covered = s.covered) (hlanded : s'.landed = s.landed) : Grows s s' where
  covered := hcovered
  landed := hlanded
  registered t := by rw [hengine]
  listed := .inr ⟨hlisted, fun t => by rw [hengine]⟩

/-- A call begins or returns; no `maintain` begins under the name of the maintenance worker. -/
theorem Inv.setCall (hi : s.Inv) (c : ℕ) (x : Call D) (hx : c = 0 → x = .idle) :
    Inv (s.setCall c x) := by
  have g : Grows s (s.setCall c x) := .of_eq rfl rfl rfl rfl
  refine ⟨hi.engine, hi.rows, hi.acked, hi.queue, hi.jobs, hi.hand, hi.ended, fun h => ?_, hi.before,
    hi.covered, fun c' before hc => ?_, fun h => (hi.listed h).grows g⟩
  · unfold maintains
    by_cases hc : c = 0
    · subst hc
      rw [setCall_self, hx rfl]
    · rw [setCall_ne s (Ne.symm hc)]
      exact hi.maintenance h
  · obtain ⟨y, hy, hold⟩ := hi.sealing c' before hc
    exact ⟨y, hy, hold.grows g rfl id id⟩

/-- The rows an ingest of the store accepts. -/
theorem subperm_accepted_ingest {rows : Table → List (Row D)}
    (h : ∀ t, (rows t).Subperm (s.engine.accepted t)) (req : Request D) (appended : Bool)
    (fails : Table → Bool) (t : Table) :
    (rows t ++ if s.writes req appended fails then req.tagged s.engine.inner.nextLsn t else []).Subperm
      ((s.engine.ingest appended req fails).accepted t) := by
  cases appended with
  | false =>
      show (rows t ++ []).Subperm (s.engine.accepted t)
      rw [append_nil]
      exact h t
  | true =>
      show List.Subperm _ (s.engine.accepted t ++
        groupRows (encoded fails (req.groups s.engine.inner.nextLsn)) t)
      rw [← Multiset.coe_le, ← Multiset.coe_add, ← Multiset.coe_add]
      refine add_le_add (Multiset.coe_le.mpr (h t)) (Multiset.coe_le.mpr ?_)
      split
      · rename_i hw
        rw [encoded_of_all (by simpa only [Handle.writes, Bool.true_and] using hw),
          Request.groupRows_groups]
      · exact nil_subperm

/-- An ingest only adds to the store. -/
theorem grows_ingest (appended : Bool) (req : Request D) (fails : Table → Bool) {s' : Handle D P}
    (hengine : s'.engine = s.engine.ingest appended req fails) (hlisted : s'.listed = s.listed)
    (hcovered : s'.covered = s.covered) (hlanded : s'.landed = s.landed) : Grows s s' := by
  obtain ⟨hkept, hret⟩ :=
    kept_step (show s.engine.step (.ingest appended req fails) = some _ from rfl)
  refine ⟨hcovered, hlanded, fun t => ?_, .inr ⟨hlisted, fun t => ?_⟩⟩
  · rw [hengine]
    exact hkept t
  · rw [hengine]
    exact hret t

theorem seals_ingest (appended : Bool) (req : Request D) (fails : Table → Bool) (e : Engine D P) :
    (e.ingest appended req fails).seals = e.seals := by
  obtain ⟨added, bytes, heq, -, -⟩ := Engine.ingest_eq appended req fails e
  rw [heq]

/-- An ingest of any caller keeps the invariant. -/
theorem Inv.ingested (hi : s.Inv) (c : ℕ) (req : Request D) (appended : Bool) (fails : Table → Bool) :
    Inv (s.ingested c req appended fails) := by
  have hcall := hi.setCall c .idle fun _ => rfl
  have g : Grows s (s.ingested c req appended fails) := grows_ingest appended req fails rfl rfl rfl rfl
  refine ⟨hi.engine.ingest appended req fails, hi.rows.ingest appended req fails, fun t => ?_, hi.queue,
    hi.jobs, hi.hand, hi.ended, hcall.maintenance, fun c' before stage hc => ?_, hi.covered,
    fun c' before hc => ?_, fun h => (hi.listed h).grows g⟩
  · refine Subperm.trans ?_ (subperm_accepted_ingest hi.acked req appended fails t)
    apply Perm.subperm
    show (writeRows ((if s.writes req appended fails then
      s.written ++ [(s.engine.inner.nextLsn, req)] else s.written) ++ s.landedWrites) t).Perm _
    split
    · simp only [writeRows_append]
      have hone : writeRows [(s.engine.inner.nextLsn, req)] t = req.tagged s.engine.inner.nextLsn t :=
        flatMap_singleton _ _
      rw [hone, append_assoc, append_assoc]
      exact perm_append_comm.append_left _
    · rw [append_nil]
  · refine ⟨(hi.before c' before stage hc).1.trans ?_, (hi.before c' before stage hc).2⟩
    show s.written <+: if s.writes req appended fails then _ else _
    split
    · exact prefix_append _ _
    · exact prefix_refl _
  · obtain ⟨y, hy, hold⟩ := hi.sealing c' before hc
    exact ⟨y, by rw [← hy]; exact congrFun (seals_ingest appended req fails s.engine) c',
      hold.grows g rfl id id⟩

/-- The worker has a job in hand: the shutdown has not waited for it yet. -/
theorem Inv.not_pastIngest (hi : s.Inv) {job : ℕ × Request D} (h : s.hand = some job)
    (hpast : s.shutdown.pastIngest = true) {Q : Prop} : Q := by
  rw [hi.hand (hi.ended hpast)] at h
  cases h

theorem pastIngest_of_isSealed {sd : Shutdown D} (h : sd.isSealed = true) : sd.pastIngest = true := by
  rcases sd with _ | ⟨c, before, stage⟩ | ok
  · cases h
  · cases stage <;> first | rfl | cases h
  · rfl

/-- A job of the worker keeps it. -/
theorem Inv.processed (hi : s.Inv) {job : ℕ × Request D} (hjob : s.hand = some job) (appended : Bool)
    (fails : Table → Bool) : Inv (s.processed job appended fails) := by
  have hqueue : ∀ q, (s.processed job appended fails).queue = some q →
      ∃ q₀, s.queue = some q₀ ∧ (q = q₀ ∨ q = errored q₀) := by
    intro q hq
    change (if s.writes job.2 appended fails then s.queue else s.queue.map errored) = some q at hq
    split at hq
    · exact ⟨q, hq, .inl rfl⟩
    · obtain ⟨q₀, hq₀, rfl⟩ := Option.map_eq_some_iff.mp hq
      exact ⟨q₀, hq₀, .inr rfl⟩
  have haccepted : (s.processed job appended fails).acks.accepted = s.acks.accepted := by
    show ((if s.writes job.2 appended fails then s.queue else s.queue.map errored).map _).getD [] = _
    split
    · rfl
    · rw [Option.map_map]
      rfl
  have hsettled : (s.processed job appended fails).Settled job := by
    by_cases hw : s.writes job.2 appended fails
    · refine .inr ⟨s.engine.inner.nextLsn, ?_⟩
      simp only [Handle.processed, hw, if_true]
      exact List.mem_append_right _ List.mem_cons_self
    · refine .inl ?_
      simp only [Handle.processed, hw, if_false, Bool.false_eq_true]
      exact List.mem_append_right _ List.mem_cons_self
  have hstays : ∀ x, s.Settled x → (s.processed job appended fails).Settled x := by
    rintro x (hx | ⟨lsn, hx⟩)
    · refine .inl ?_
      simp only [Handle.processed]
      split
      · exact hx
      · exact List.mem_append_left _ hx
    · refine .inr ⟨lsn, ?_⟩
      simp only [Handle.processed]
      split
      · exact List.mem_append_left _ hx
      · exact hx
  refine ⟨hi.engine.ingest appended job.2 fails, hi.rows.ingest appended job.2 fails, fun t => ?_,
    fun q hq => ?_, fun q hq x hx => .inr ?_, fun _ => rfl, fun h => hi.not_pastIngest hjob h,
    hi.maintenance,
    fun c before stage hc => ?_, hi.covered, fun c before hc => ?_, fun h => ?_⟩
  · refine List.Subperm.trans (List.Perm.subperm ?_)
      (subperm_accepted_ingest hi.acked job.2 appended fails t)
    show (writeRows (s.written ++ (if s.writes job.2 appended fails then
      s.landed ++ [(s.engine.inner.nextLsn, job)] else s.landed).map fun x => (x.1, x.2.2)) t).Perm _
    split
    · have hone : writeRows [(s.engine.inner.nextLsn, job.2)] t =
          job.2.tagged s.engine.inner.nextLsn t := List.flatMap_singleton _ _
      rw [List.map_append, ← List.append_assoc, writeRows_append]
      exact (congrArg (_ ++ ·) hone) ▸ List.Perm.refl _
    · rw [List.append_nil]
      exact List.Perm.refl _
  · obtain ⟨q₀, hq₀, rfl | rfl⟩ := hqueue q hq
    · exact hi.queue q hq₀
    · obtain ⟨cap, h⟩ := hi.queue q₀ hq₀
      exact ⟨cap, h.capacity, h.accounted, h.nodup, h.issued, h.refused, h.held, h.alone, h.dropped,
        h.evicts, h.closed, h.empty⟩
  · obtain ⟨q₀, hq₀, hq'⟩ := hqueue q hq
    have hx' : (x, Ingest.Fate.popped) ∈ q₀.gone := by
      rcases hq' with rfl | rfl <;> exact hx
    rcases hi.jobs q₀ hq₀ x hx' with hhand | hx'
    · rw [← Option.some.inj (hjob.symm.trans hhand)]
      exact hsettled
    · exact hstays x hx'
  · rw [haccepted]
    exact hi.before c before stage hc
  · exact hi.not_pastIngest hjob (by rw [show s.shutdown = _ from hc]; rfl)
  · exact hi.not_pastIngest hjob (pastIngest_of_isSealed h)

/-- The queue takes a step; in a step of the worker, what it pops is in its hand. -/
theorem Inv.queue_step (hi : s.Inv) {q q' : Ingest.Sys (Request D)} {e : Ingest.Event (Request D)}
    (hq : s.queue = some q) (hstep : Ingest.step q e = some q') {hand : Option (ℕ × Request D)}
    (hhand : e ≠ .work ∧ hand = s.hand ∨ e = .work ∧ s.hand = none ∧ hand = q.popping) :
    Inv { s with queue := some q', hand := hand } := by
  have hleaves := Ingest.step_leaves hstep
  have g : Grows s { s with queue := some q', hand := hand } := .of_eq rfl rfl rfl rfl
  have hended : q.worker = .exited → s.WorkerEnded := by
    intro hw p hp
    rw [← some.inj (hq.symm.trans hp)]
    exact hw
  refine ⟨hi.engine, hi.rows, hi.acked, fun p hp => ?_, fun p hp job hjob => ?_, fun h => ?_,
    fun h p hp => ?_, hi.maintenance, fun c before stage hc => ?_, hi.covered, fun c before hc => ?_,
    fun h => (hi.listed h).grows g⟩
  · obtain ⟨cap, hinv⟩ := hi.queue q hq
    rw [← some.inj hp]
    exact ⟨cap, Ingest.step_inv hinv hstep⟩
  · rw [← some.inj hp] at hjob
    rcases hleaves.gone _ hjob with hold | ⟨hevicted, -⟩ | ⟨hwork, hpopping⟩
    · rcases hhand with ⟨-, rfl⟩ | ⟨-, hnone, -⟩
      · exact hi.jobs q hq job hold
      · rcases hi.jobs q hq job hold with hjob' | hsettled
        · rw [hnone] at hjob'
          cases hjob'
        · exact .inr hsettled
    · cases hevicted
    · rcases hhand with ⟨hne, -⟩ | ⟨-, -, rfl⟩
      · exact absurd hwork hne
      · exact .inl hpopping
  · have hexit : q'.worker = .exited := h q' rfl
    rcases hhand with ⟨hne, rfl⟩ | ⟨rfl, -, rfl⟩
    · rcases hleaves.worker with hsame | hwork
      · exact hi.hand (hended (hsame ▸ hexit))
      · exact absurd hwork hne
    · exact Ingest.popping_of_exited hstep hexit
  · rw [← some.inj hp]
    exact Ingest.step_exited hstep (hi.ended h q hq)
  · refine ⟨(hi.before c before stage hc).1, List.Subset.trans (hi.before c before stage hc).2 ?_⟩
    show (s.queue.map _).getD [] ⊆ q'.accepted
    rw [hq]
    exact hleaves.accepted
  · obtain ⟨y, hy, hold⟩ := hi.sealing c before hc
    exact ⟨y, hy, hold.grows g rfl id id⟩

theorem Inv.queued (hi : s.Inv) {e : Ingest.Event (Request D)} (hne : e ≠ .work)
    (h : s.queued e = some s') : Inv s' := by
  obtain ⟨q, hq, h⟩ := bind_eq_some_iff.mp h
  obtain ⟨q', hstep, rfl⟩ := map_eq_some_iff.mp h
  exact hi.queue_step hq hstep (.inl ⟨hne, rfl⟩)

theorem Inv.work (hi : s.Inv) (hhand : s.hand = none) {u : Handle D P}
    (h : s.queued .work = some u) : Inv { u with hand := s.queue.bind (·.popping) } := by
  obtain ⟨q, hq, h⟩ := bind_eq_some_iff.mp h
  obtain ⟨q', hstep, rfl⟩ := map_eq_some_iff.mp h
  rw [hq]
  exact hi.queue_step hq hstep (.inr ⟨rfl, hhand, rfl⟩)

/-! ## The steps of the shutdown -/

/-- Orderly: the final seal finds no other seal in flight, and when it finds nothing to seal, the manifest lists every
registered segment. -/
def Orderly (s : Handle D P) : Event D → Prop
  | .advance =>
      match s.shutdown with
      | .closing _ _ .seal =>
          s.engine.inner.sealing = [] ∧
            (s.engine.inner.buffersEmpty → s.listed = s.engine.inner.segments)
      | _ => True
  | _ => True

/-- If it is a `close` that finds the flag set, then the shutdown is over without an error, and every ingest was
acknowledged before its final seal. -/
def Late (s : Handle D P) : Event D → Prop
  | .close _ =>
      match s.shutdown with
      | .over true => s.written = s.covered
      | _ => False
  | _ => True

/-- With no seal in flight, what is acknowledged and not dropped is buffered or registered. -/
theorem Inv.subperm_of_alone (hi : s.Inv) (hnone : s.engine.inner.sealing = []) (t : Table) :
    (writeRows (s.written ++ s.landedWrites) t).Subperm
      (batchRows (s.engine.inner.buffers t) ++ kept s.engine s.engine.inner.segments t) := by
  refine (hi.acked t).trans (Perm.subperm ?_)
  refine (hi.rows t).symm.trans ?_
  have hstaged : stagedRows s.engine.inner t = [] := by
    unfold stagedRows
    rw [hnone, flatMap_nil]
  rw [snapshotRows_eq, hstaged, nil_append, append_assoc]
  exact Perm.refl _

/-- The final seal begins. -/
theorem Inv.advance_seal (hi : s.Inv) {c : ℕ} {before : Acks D} (hc : s.shutdown = .closing c before .seal)
    (hstep : s.engine.step (.freeze c) = some e) (hnone : s.engine.inner.sealing = [])
    (hcurrent : s.engine.inner.buffersEmpty → s.listed = s.engine.inner.segments) :
    Inv { s with
      engine := e
      shutdown := .closing c before (if s.engine.inner.buffersEmpty then .sealed else .sealing)
      covered := s.written } := by
  have hrows := hi.subperm_of_alone hnone
  have hended : s.WorkerEnded := hi.ended (by rw [hc]; rfl)
  have hmaint : s.maintains 0 = false := hi.maintenance (by rw [hc]; rfl)
  have hbefore := hi.before c before .seal hc
  have he := Engine.step_inv hi.engine hstep
  have hr := Engine.step_rowsOnce hi.engine hi.rows hstep
  obtain ⟨-, rfl⟩ := Engine.step_freeze hstep
  refine ⟨he, hr, ?_, hi.queue, hi.jobs, hi.hand, fun _ => hended, fun _ => hmaint,
    fun c' before' stage h => ?_, fun c' before' stage h _ => ?_, fun c' before' h => ?_, fun h => ?_⟩
  · show ∀ t, List.Subperm _ ((s.engine.freeze c).accepted t)
    rw [Engine.freeze_accepted]
    exact hi.acked
  · cases h
    exact hbefore
  · cases h
    exact hbefore.1
  · by_cases hempty : s.engine.inner.buffersEmpty = true
    · simp only [hempty, if_true] at h
      cases h
    · simp only [hempty, if_false, Bool.false_eq_true] at h
      cases h
      refine ⟨.frozen s.engine.inner, ?_, fun _ t => ?_, fun h => ?_⟩
      · simp only [Engine.freeze, hempty, if_false, Bool.false_eq_true, update_self]
      · simp only [Engine.freeze, hempty, if_false, Bool.false_eq_true]
        exact hrows t
      · cases h
  · by_cases hempty : s.engine.inner.buffersEmpty = true
    · have hlisted : ∀ t, (writeRows (s.written ++ s.landedWrites) t).Subperm
          (kept (s.engine.freeze c) (s.engine.freeze c).inner.segments t) := by
        intro t
        have hbuffer : s.engine.inner.buffers t = [] := buffersEmpty_iff.mp hempty t
        have := hrows t
        rw [hbuffer, batchRows_nil, nil_append] at this
        rw [Engine.freeze, if_pos hempty]
        exact this
      refine ⟨hlisted, fun t => ?_⟩
      have := hlisted t
      rw [Engine.freeze, if_pos hempty] at this ⊢
      show List.Subperm _ (kept s.engine s.listed t)
      rw [hcurrent hempty]
      exact this
    · simp only [hempty, if_false, Bool.false_eq_true] at h
      cases h

/-- The shutdown is at another stage, which is none of the final seal's. -/
theorem Inv.setShutdown (hi : s.Inv) (sd : Shutdown D) (hended : sd.pastIngest → s.WorkerEnded)
    (hmaint : sd.pastMaintenance → s.maintains 0 = false)
    (hclosing : ∀ c before stage, sd = .closing c before stage →
      (before.written <+: s.written ∧ before.accepted ⊆ s.acks.accepted) ∧
        stage ≠ .sealing ∧ stage ≠ .sealed)
    (hlisted : sd.isSealed → s.Listed) : Inv { s with shutdown := sd } := by
  have g : Grows s { s with shutdown := sd } := .of_eq rfl rfl rfl rfl
  refine ⟨hi.engine, hi.rows, hi.acked, hi.queue, hi.jobs, hi.hand, hended, hmaint,
    fun c before stage hc => (hclosing c before stage hc).1, fun c before stage hc hst => ?_,
    fun c before hc => ?_, fun h => (hlisted h).grows g⟩
  · rcases hst with hst | hst
    · exact absurd hst (hclosing c before stage hc).2.1
    · exact absurd hst (hclosing c before stage hc).2.2
  · exact absurd rfl (hclosing c before .sealing hc).2.1

theorem Inv.closeQueue (hi : s.Inv) :
    Inv { s with queue := s.queue.map fun q => { q with chan := q.chan.close } } := by
  rcases hq : s.queue with _ | q
  · rw [map_none, ← hq]
    exact hi
  · exact hi.queue_step hq (e := .close) rfl (.inl ⟨by simp, rfl⟩)

/-- The next step of the shutdown keeps it. -/
theorem Inv.advance (hi : s.Inv) (hok : Orderly s .advance) (h : s.advance = some s') : Inv s' := by
  rcases hc : s.shutdown with _ | ⟨c, before, stage⟩ | ok <;>
    simp only [Handle.advance, hc, reduceCtorEq] at h
  have hbefore := hi.before c before stage hc
  rcases stage with _ | _ | _ | _ | _ | _ <;> simp only [reduceCtorEq] at h
  · rw [← Option.some.inj h]
    refine hi.closeQueue.setShutdown _ (fun h => ?_) (fun h => ?_) (fun c' before' stage' h => ?_)
      (fun h => ?_)
    · cases h
    · cases h
    · cases h
      refine ⟨⟨hbefore.1, List.Subset.trans hbefore.2 ?_⟩, by decide, by decide⟩
      show (s.queue.map _).getD [] ⊆ ((s.queue.map _).map _).getD []
      rw [Option.map_map]
      exact List.Subset.refl _
    · cases h
  · split at h
    · rename_i hexit
      rw [← Option.some.inj h]
      refine hi.setShutdown _ (fun _ q hq => ?_) (fun h => ?_) (fun c' before' stage' h => ?_)
        (fun h => ?_)
      · rw [hq] at hexit
        simpa using hexit
      · cases h
      · cases h
        exact ⟨hbefore, by decide, by decide⟩
      · cases h
    · cases h
  · split at h
    · cases h
    · rename_i hmaint
      rw [← Option.some.inj h]
      refine hi.setShutdown _ (fun _ => hi.ended (by rw [hc]; rfl)) (fun _ => by simpa using hmaint)
        (fun c' before' stage' h => ?_) (fun h => ?_)
      · cases h
        exact ⟨hbefore, by decide, by decide⟩
      · cases h
  · rcases hstep : s.engine.step (.freeze c) with _ | e <;> simp only [hstep, reduceCtorEq] at h
    rw [← Option.some.inj h]
    simp only [Orderly, hc] at hok
    exact hi.advance_seal hc hstep hok.1 hok.2
  · rw [← Option.some.inj h]
    refine hi.setShutdown _ (fun _ => hi.ended (by rw [hc]; rfl))
      (fun _ => hi.maintenance (by rw [hc]; rfl)) (fun c' before' stage' h => ?_)
      (fun _ => hi.listed (by rw [hc]; rfl))
    cases h

/-- A call that begins is not the maintenance worker's. -/
theorem ne_zero_of_free {c : ℕ} (h : s.free c = true) : c ≠ 0 := by
  unfold free at h
  split at h
  · simpa using h
  · cases h

/-- **Every step of an orderly run keeps the invariant.** -/
theorem step_inv {e : Event D} (hi : s.Inv) (hok : Orderly s e) (h : step s e = some s') : Inv s' := by
  rcases e with ⟨c, req⟩ | c | ⟨c, appended, fails⟩ | c | c | e | _ | ⟨appended, fails⟩ | e |
    ⟨c, t, inputs, path, persisted⟩ | ⟨c, drop, persisted⟩ | c | c | _
  · simp only [step, ite_none_right_eq_some, Bool.and_eq_true] at h
    rw [← some.inj h.2]
    exact hi.setCall c _ fun hc => absurd hc (ne_zero_of_free h.1.1)
  · simp only [step, ite_none_right_eq_some, Bool.and_eq_true] at h
    rw [← some.inj h.2]
    exact hi.setCall c _ fun hc => absurd hc (ne_zero_of_free h.1.1)
  · rcases hcall : s.calls c with _ | req | _ <;> simp only [step, hcall, reduceCtorEq] at h
    rcases hq : s.queue with _ | q <;> simp only [hq, reduceCtorEq] at h
    rw [← some.inj h]
    exact hi.ingested c req appended fails
  · rcases hcall : s.calls c with _ | req | _ <;> simp only [step, hcall, reduceCtorEq] at h
    exact (hi.setCall c .idle fun _ => rfl).queued (by simp) h
  · rcases hcall : s.calls c with _ | req | _ <;> simp only [step, hcall, reduceCtorEq] at h
    exact (hi.setCall c .idle fun _ => rfl).queued (by simp) h
  · simp only [step, ite_none_right_eq_some] at h
    refine hi.queued ?_ h.2
    rintro rfl
    cases h.1
  · rcases hhand : s.hand with _ | job <;> simp only [step, hhand, reduceCtorEq] at h
    obtain ⟨u, hu, rfl⟩ := map_eq_some_iff.mp h
    exact hi.work hhand hu
  · rcases hhand : s.hand with _ | job <;> simp only [step, hhand, reduceCtorEq] at h
    rw [← some.inj h]
    exact hi.processed hhand appended fails
  · simp only [step, ite_none_right_eq_some] at h
    obtain ⟨hmay, h⟩ := h
    obtain ⟨engine, hengine, rfl⟩ := map_eq_some_iff.mp h
    exact hi.stored hmay hengine
  · simp only [step, ite_none_right_eq_some] at h
    rw [← some.inj h.2]
    exact hi.committed t inputs path persisted
  · simp only [step, ite_none_right_eq_some] at h
    rw [← some.inj h.2]
    exact hi.retained drop persisted
  · simp only [step, ite_none_right_eq_some] at h
    rw [← some.inj h.2]
    exact hi.setCall c .idle fun _ => rfl
  · simp only [step, ite_none_right_eq_some] at h
    obtain ⟨-, h⟩ := h
    split at h
    · rw [← some.inj h]
      exact hi
    · rw [← some.inj h]
      refine hi.setShutdown _ (fun h => ?_) (fun h => ?_) (fun c' before stage h => ?_) (fun h => ?_)
      · cases h
      · cases h
      · cases h
        exact ⟨⟨prefix_refl _, List.Subset.refl _⟩, by decide, by decide⟩
      · cases h
  · exact hi.advance hok h

/-! ## The barrier -/

/-- The job was evicted from the queue by the policy `dropOldest`. -/
def Evicted (s : Handle D P) (job : ℕ × Request D) : Prop :=
  ∃ q, s.queue = some q ∧ (job, Ingest.Fate.evicted) ∈ q.gone ∧ q.chan.overflow = .dropOldest

/-- What a `close` leaves behind of what was acknowledged before it. Of the rows written before,
and of all that the worker wrote, the manifest lists each, but for those that retention dropped. -/
structure Barrier (before : Acks D) (s : Handle D P) : Prop where
  rows : ∀ t, (writeRows (before.written ++ s.landedWrites) t).Subperm
    (segmentRows (s.listed t) ++ s.engine.retained t)
  jobs : ∀ job ∈ before.accepted, s.Settled job ∨ s.Evicted job
  queue : ∀ q, s.queue = some q → q.chan.q = [] ∧ q.worker = .exited
  maintenance : s.maintains 0 = false

/-- The workers have ended, and the rows of the final seal are listed. -/
theorem Inv.barrier (hi : s.Inv) (hsealed : s.shutdown.isSealed = true)
    (hmaint : s.maintains 0 = false) {before : Acks D} (hwritten : before.written <+: s.covered)
    (haccepted : before.accepted ⊆ s.acks.accepted) : Barrier before s := by
  have hended := hi.ended (pastIngest_of_isSealed hsealed)
  refine ⟨fun t => ?_, fun job hjob => ?_, fun q hq => ?_, hmaint⟩
  · refine Subperm.trans (Sublist.subperm ?_) ((hi.listed hsealed).persisted t)
    exact writeRows_sublist (hwritten.sublist.append_right _) t
  · have hmem : job ∈ (s.queue.map (·.accepted)).getD [] := haccepted hjob
    rcases hq : s.queue with _ | q
    · rw [hq] at hmem
      cases hmem
    · obtain ⟨cap, hinv⟩ := hi.queue q hq
      rw [hq] at hmem
      have hacc : job ∈ q.accepted := hmem
      rw [hinv.accounted.order, hinv.empty (hended q hq), append_nil] at hacc
      obtain ⟨⟨x, fate⟩, hgone, rfl⟩ := mem_map.mp hacc
      cases fate with
      | popped =>
          rcases hi.jobs q hq x hgone with hhand | hsettled
          · rw [hi.hand hended] at hhand
            cases hhand
          · exact .inl hsettled
      | evicted =>
          have hne : leftAs .evicted q.gone ≠ [] := ne_nil_of_mem (mem_leftAs.mpr hgone)
          exact .inr ⟨q, hq, hgone, hinv.evicts hne⟩
  · obtain ⟨cap, hinv⟩ := hi.queue q hq
    exact ⟨hinv.empty (hended q hq), hended q hq⟩

/-- A database that was opened has it. -/
theorem inv_opened (promote : P) (inner : Storage.Inner D P) (queue : Option (ℕ × Ingest.Overflow))
    (scheduled : Bool) : Inv (opened promote inner queue scheduled) where
  engine := Engine.inv_opened promote inner
  rows := Engine.run_rowsOnce
    (show run Engine.step (Engine.opened promote inner) [] = some _ from rfl)
  acked t := nil_subperm
  queue q hq := by
    obtain ⟨x, -, rfl⟩ := map_eq_some_iff.mp hq
    exact ⟨_, Ingest.inv_init x.1 x.2⟩
  jobs q hq job hjob := by
    obtain ⟨x, -, rfl⟩ := map_eq_some_iff.mp hq
    cases hjob
  hand _ := rfl
  ended h := by cases h
  maintenance h := by cases h
  before c before stage h := by cases h
  covered c before stage h := by cases h
  sealing c before h := by cases h
  listed h := by cases h

/-- **`close` is a barrier**, in every run of any number of calls whose final seal is orderly: where the `close` that
returns `Ok` set the flag, or finds it set late, what was acknowledged before it began is listed or reported as an
error of the worker, but for jobs evicted by policy and rows dropped by retention, and the queue and the workers are
at their end. -/
theorem close_barrier (promote : P) (inner : Storage.Inner D P) (queue : Option (ℕ × Ingest.Overflow))
    (scheduled : Bool) (es : List (Event D)) (e : Event D) (s s' : Handle D P) (before : Acks D)
    (hg : Guarded step Orderly (opened promote inner queue scheduled) es)
    (hrun : run step (opened promote inner queue scheduled) es = some s)
    (hlate : s.Late e) (hstep : step s e = some s') (hret : s.returnsOk e = some before) : Barrier before s' := by
  have hi : s.Inv := run_induction Inv (fun s e s' hi hok h => step_inv hi hok h)
    (inv_opened promote inner queue scheduled) hg hrun
  rcases e with ⟨c, req⟩ | c | ⟨c, appended, fails⟩ | c | c | e | _ | ⟨appended, fails⟩ | e |
    ⟨c, t, inputs, path, persisted⟩ | ⟨c, drop, persisted⟩ | c | c | _
  all_goals try (simp only [returnsOk, reduceCtorEq] at hret)
  · -- the flag is set: the shutdown is over
    simp only [ite_none_right_eq_some] at hret
    obtain ⟨hclosed, hbefore⟩ := hret
    simp only [step, hclosed, if_true, ite_none_right_eq_some] at hstep
    rw [← some.inj hstep.2, ← some.inj hbefore]
    rcases hsd : s.shutdown with _ | _ | ok
    · rw [closed, hsd] at hclosed
      cases hclosed
    · simp only [Late, hsd] at hlate
    · rcases ok with _ | _
      · simp only [Late, hsd] at hlate
      simp only [Late, hsd] at hlate
      have hsealed : s.shutdown.isSealed = true := by rw [hsd]; rfl
      refine hi.barrier hsealed (hi.maintenance (by rw [hsd]; rfl)) ?_ (List.Subset.refl _)
      show s.written <+: s.covered
      exact hlate ▸ prefix_refl s.written
  · -- the `close` that set the flag
    rcases hsd : s.shutdown with _ | ⟨c, before', stage⟩ | ok <;> simp only [hsd, reduceCtorEq] at hret
    rcases stage with _ | _ | _ | _ | _ | _ <;> simp only [reduceCtorEq] at hret
    have hi' : s'.Inv := step_inv hi (by simp only [Orderly, hsd]) hstep
    rw [← some.inj hret]
    simp only [step, Handle.advance, hsd] at hstep
    rw [← some.inj hstep] at hi' ⊢
    refine hi'.barrier rfl (hi.maintenance (by rw [hsd]; rfl)) ?_ (hi.before c before' .sealed hsd).2
    exact hi.covered c before' .sealed hsd (.inr rfl)

/-! ## Runs -/

/-- A database without rows; ingest is synchronous and there is no maintenance worker. -/
def quiet : Handle Unit Unit := opened () (Storage.Inner.empty) none false

/-- One log row. -/
def oneRow : Request Unit := .logs [⟨0, 1, ()⟩]

/-- The rest of a shutdown, from its seal on, of the `close` 2. -/
def finalSeal : List (Event Unit) :=
  [.advance, .advance, .advance, .advance, .seal (.write 2 true fun _ => 0), .seal (.register 2 true),
    .seal (.reclaim 2 true)]

/-- An ingest and a `close`, beside which another `close` returns. -/
def ingestAndClose : List (Event Unit) :=
  [.startIngest 1 oneRow, .ingest 1 true fun _ => false, .close 2, .close 3] ++ finalSeal

theorem close_barrier_ingestAndClose :
    ∃ s s' : Handle Unit Unit, run step quiet ingestAndClose = some s ∧ step s .advance = some s' ∧
      s'.written = [(1, oneRow)] ∧ Barrier ⟨[(1, oneRow)], []⟩ s' := by
  have hg : Guarded step Orderly quiet ingestAndClose :=
    ⟨trivial, trivial, trivial, trivial, trivial, trivial, trivial, ⟨rfl, fun h => (by cases h)⟩, trivial,
      trivial, trivial, trivial⟩
  exact ⟨_, _, rfl, rfl, rfl,
    close_barrier () Storage.Inner.empty none false ingestAndClose .advance _ _ _ hg rfl trivial rfl rfl⟩

/-- A `close` beside another one. -/
def closeBeside : List (Event Unit) :=
  [.startIngest 1 oneRow, .ingest 1 true fun _ => false, .close 2]

/-- A `close` whose final seal fails. -/
def closeFails : List (Event Unit) :=
  [.startIngest 1 oneRow, .ingest 1 true fun _ => false, .close 2, .advance, .advance, .advance, .advance,
    .seal (.write 2 false fun _ => 0)]

/-- A `close` beside a `flush` that has frozen the buffers. -/
def flushBeside : List (Event Unit) :=
  [.startIngest 1 oneRow, .ingest 1 true fun _ => false, .startMaintain 3, .seal (.freeze 3), .close 2, .advance,
    .advance, .advance, .advance]

/-- A queue of one, in which the second job evicts the first one. -/
def evictive : Handle Unit Unit := opened () (Storage.Inner.empty) (some (1, .dropOldest)) false

/-- Two jobs, of which the worker writes the second one, and a `close` that nothing runs beside. -/
def evictAndClose : List (Event Unit) :=
  [.startIngest 1 oneRow, .send 1, .startIngest 1 oneRow, .send 1, .close 2, .advance, .work,
    .process true fun _ => false, .work, .work, .work] ++ finalSeal.tail

/-- The next `close` returns at once, with the row of the first ingest listed nowhere. So does the first `close` beside
the `flush`. A `close` that nothing runs beside returns with the evicted job neither written nor reported. -/
theorem closes_without_barrier :
    (∀ es ∈ [closeBeside, closeFails], ∃ s : Handle Unit Unit, run step quiet es = some s ∧
      step s (.close 3) = some s ∧ s.returnsOk (.close 3) = some ⟨[(1, oneRow)], []⟩ ∧
        ⟨⟨0, 1, ()⟩, 1⟩ ∈ writeRows [(1, oneRow)] .logs ∧ s.listed .logs = []) ∧
    (∃ s s' : Handle Unit Unit, run step quiet flushBeside = some s ∧ step s .advance = some s' ∧
      s.returnsOk .advance = some ⟨[(1, oneRow)], []⟩ ∧ s'.listed .logs = []) ∧
    ∃ (s s' : Handle Unit Unit) (before : Acks Unit), run step evictive evictAndClose = some s ∧
      step s .advance = some s' ∧ s.returnsOk .advance = some before ∧
        (0, oneRow) ∈ before.accepted ∧ ¬ s'.Settled (0, oneRow) := by
  refine ⟨fun es hes => ?_, ⟨_, _, rfl, rfl, rfl, rfl⟩, ?_⟩
  · simp only [mem_cons, not_mem_nil, or_false] at hes
    rcases hes with rfl | rfl
    · exact ⟨_, rfl, rfl, rfl, mem_cons_self, rfl⟩
    · exact ⟨_, rfl, rfl, rfl, mem_cons_self, rfl⟩
  · refine ⟨_, _, _, rfl, rfl, rfl, mem_cons_self, ?_⟩
    rintro (h | ⟨lsn, h⟩)
    · cases h
    · rcases mem_singleton.mp h with h
      cases h

end Handle

end Imbh.Db
