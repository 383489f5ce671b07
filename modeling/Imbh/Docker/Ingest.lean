import Mathlib.Data.List.Nodup
import Imbh.Lib.Grouping
import Imbh.Lib.Runs

/-!
# The ingest worker of the log driver

Reader threads queue records, the worker batches them and hands each batch to the database as one request
of groups, and a shutdown refuses new records, queues a sentinel and waits for the worker.

* `shutdown_drains` — when the shutdown has returned, the database was handed the records whose `send`
  returned true, each once, and no other; those of one sender in their order within a group. It holds of
  the runs in which no record is queued behind the sentinel.
-/

namespace Imbh.Docker

open Lib List Function

/-- Source: `ingest.rs` `IngestConfig` -/
structure IngestConfig where
  batchMax : ℕ
  queueCapacity : ℕ

/-- A record with its container and the resource that a script produced for it, both by the address of
the allocation. Source: `ingest.rs` `Item` -/
structure Item (ρ : Type) where
  container : ℕ
  resource : Option ℕ
  record : ρ
  deriving DecidableEq

/-- The `index`-th call of `send` by a reader thread. -/
structure Call (ρ : Type) where
  sender : ℕ
  index : ℕ
  item : Item ρ
  deriving DecidableEq

/-- Source: `ingest.rs` `Queued` -/
inductive Queued (ρ : Type)
  | record (call : Call ρ)
  | stop

/-! ## Encoding -/

section

variable {ρ R : Type} [BEq R] (heap : ℕ → R)

/-- Source: `ingest.rs` `MAX_GROUPS` -/
def maxGroups : ℕ := 64

/-- Source: `ingest.rs` `same_resource` -/
def sameResource : Option ℕ → Option ℕ → Bool
  | none, none => true
  | some a, some b => a == b || heap a == heap b
  | _, _ => false

def Call.key (c : Call ρ) : ℕ × Option ℕ := (c.item.container, c.item.resource)

def sameGroup (a b : ℕ × Option ℕ) : Bool := a.1 == b.1 && sameResource heap a.2 b.2

/-- One request: for each group its resource and its records. `current` has the resources of the
containers at the time. Source: `ingest.rs` `encode` -/
def encode (current : ℕ → R) (batch : List (Call ρ)) : List (R × List (Call ρ)) :=
  (group Call.key (sameGroup heap) maxGroups batch).map fun g =>
    (match g.1.2 with
      | some overridden => heap overridden
      | none => current g.1.1, g.2)

end

/-! ## The worker and its queue -/

/-- Where the worker loop is; `leaving` has the batch in hand when the sentinel came. -/
inductive Worker (ρ : Type)
  | idle
  | filling (batch : List (Call ρ))
  | leaving (batch : List (Call ρ))
  | gone

inductive ShutdownPhase
  | notCalled
  | refusing
  | stopQueued
  | returned
  deriving DecidableEq

/-- `pending` has the item of a thread between the check and the queue, parked or not, and `started` the
number of calls it has made before. `outcomes` are what the calls returned, and `handed` what the
database was handed: the batches, each with the resources of the containers at that time. -/
structure IngestState (ρ R : Type) where
  queue : List (Queued ρ)
  pending : ℕ → Option (Item ρ)
  started : ℕ → ℕ
  worker : Worker ρ
  shutdown : ShutdownPhase
  outcomes : List (Call ρ × Bool)
  handed : List ((ℕ → R) × List (Call ρ))

def IngestState.init {ρ R : Type} : IngestState ρ R :=
  ⟨[], fun _ => none, fun _ => 0, .idle, .notCalled, [], []⟩

inductive IngestEvent (ρ R : Type)
  | check (sender : ℕ) (item : Item ρ)
  | enqueue (sender : ℕ)
  | refuse
  | queueStop
  | join
  | recv
  | ingest (current : ℕ → R)

section

variable {ρ R : Type}

/-- The call ends. -/
def IngestState.answer (s : IngestState ρ R) (call : Call ρ) (accepted : Bool) : IngestState ρ R :=
  { s with
    pending := update s.pending call.sender none
    started := update s.started call.sender (s.started call.sender + 1)
    outcomes := s.outcomes ++ [(call, accepted)] }

/-- There is a free slot. A queue of capacity 0 has the slot of the receiver that takes the message. -/
def IngestState.hasRoom (config : IngestConfig) (s : IngestState ρ R) : Prop :=
  s.queue.length < max 1 config.queueCapacity

instance (config : IngestConfig) (s : IngestState ρ R) : Decidable (s.hasRoom config) :=
  inferInstanceAs (Decidable (_ < _))

/-- Source: `ingest.rs` `Ingestor::send`, `Ingestor::shutdown`, `run` -/
def ingestStep (config : IngestConfig) (s : IngestState ρ R) : IngestEvent ρ R → Option (IngestState ρ R)
  | .check sender item =>
      match s.pending sender with
      | some _ => none
      | none =>
          if s.shutdown = .notCalled then
            some { s with pending := update s.pending sender (some item) }
          else some (s.answer ⟨sender, s.started sender, item⟩ false)
  | .enqueue sender =>
      match s.pending sender with
      | none => none
      | some item =>
          let call : Call ρ := ⟨sender, s.started sender, item⟩
          match s.worker with
          | .gone => some (s.answer call false)
          | _ =>
              if s.hasRoom config then
                some { s.answer call true with queue := s.queue ++ [.record call] }
              else none
  | .refuse => if s.shutdown = .notCalled then some { s with shutdown := .refusing } else none
  | .queueStop =>
      if s.shutdown = .refusing ∧ s.hasRoom config then
        some { s with queue := s.queue ++ [.stop], shutdown := .stopQueued }
      else none
  | .join =>
      match s.worker with
      | .gone => if s.shutdown = .stopQueued then some { s with shutdown := .returned } else none
      | _ => none
  | .recv =>
      match s.worker, s.queue with
      | .idle, .record call :: rest => some { s with worker := .filling [call], queue := rest }
      | .idle, .stop :: _ => some { s with worker := .gone, queue := [] }
      | .filling batch, .record call :: rest =>
          if batch.length < config.batchMax then
            some { s with worker := .filling (batch ++ [call]), queue := rest }
          else none
      | .filling batch, .stop :: rest =>
          if batch.length < config.batchMax then some { s with worker := .leaving batch, queue := rest }
          else none
      | _, _ => none
  | .ingest current =>
      match s.worker with
      | .filling batch => some { s with worker := .idle, handed := s.handed ++ [(current, batch)] }
      | .leaving batch =>
          some { s with worker := .gone, queue := [], handed := s.handed ++ [(current, batch)] }
      | _ => none

/-- The worker has ended, and with it the queue. -/
def Worker.isGone : Worker ρ → Bool
  | .gone => true
  | _ => false

/-- No record is queued behind the sentinel: it is queued before it, or refused as the worker is gone. -/
def Ahead (s : IngestState ρ R) : IngestEvent ρ R → Prop
  | .enqueue _ => s.shutdown = .stopQueued → s.worker.isGone = true
  | _ => True

instance (s : IngestState ρ R) : (e : IngestEvent ρ R) → Decidable (Ahead s e)
  | .enqueue _ => inferInstanceAs (Decidable (_ → _))
  | .check .. | .refuse | .queueStop | .join | .recv | .ingest _ => .isTrue trivial

/-! ## The invariant -/

/-- The batch in hand. -/
def Worker.batch : Worker ρ → List (Call ρ)
  | .filling batch | .leaving batch => batch
  | .idle | .gone => []

/-- The sentinel was received. -/
def Worker.stopped : Worker ρ → Bool
  | .leaving _ | .gone => true
  | .idle | .filling _ => false

def Queued.record? : Queued ρ → Option (Call ρ)
  | .record call => some call
  | .stop => none

/-- The calls that returned true, in the order of the queue. -/
def IngestState.accepted (s : IngestState ρ R) : List (Call ρ) :=
  (s.outcomes.filter Prod.snd).map Prod.fst

/-- The sentinel is where the shutdown has it: nowhere, at the end of the queue, or received. -/
def SentinelPlaced (worker : Worker ρ) (queue : List (Queued ρ)) : ShutdownPhase → Prop
  | .notCalled | .refusing => worker.stopped = false ∧ ∃ calls : List (Call ρ), queue = calls.map .record
  | .stopQueued =>
      (worker.stopped = false ∧ ∃ calls : List (Call ρ), queue = calls.map .record ++ [.stop]) ∨
        worker.stopped = true ∧ queue = []
  | .returned => worker = .gone ∧ queue = []

/-- What was accepted is handed over, in hand or queued, in this order; the calls of a thread return one
after another. -/
structure IngestInv (s : IngestState ρ R) : Prop where
  flow : s.accepted = (s.handed.map Prod.snd).flatten ++ s.worker.batch ++ s.queue.filterMap Queued.record?
  order : s.outcomes.Pairwise fun a b => a.1.sender = b.1.sender → a.1.index < b.1.index
  below : ∀ o ∈ s.outcomes, o.1.index < s.started o.1.sender
  sentinel : SentinelPlaced s.worker s.queue s.shutdown

variable {config : IngestConfig} {s s' : IngestState ρ R} {worker : Worker ρ} {rest : List (Queued ρ)}
  {phase : ShutdownPhase}

theorem accepted_answer (call : Call ρ) (accepted : Bool) :
    (s.answer call accepted).accepted = s.accepted ++ if accepted then [call] else [] := by
  cases accepted <;> simp [IngestState.accepted, IngestState.answer, filter_append]

/-- An answer to the next call of a thread keeps the order of the calls. -/
theorem answer_order {sender : ℕ} {item : Item ρ} {accepted : Bool} (h : IngestInv s) :
    (s.answer ⟨sender, s.started sender, item⟩ accepted).outcomes.Pairwise
        (fun a b => a.1.sender = b.1.sender → a.1.index < b.1.index) ∧
      ∀ o ∈ (s.answer ⟨sender, s.started sender, item⟩ accepted).outcomes,
        o.1.index < (s.answer ⟨sender, s.started sender, item⟩ accepted).started o.1.sender := by
  unfold IngestState.answer
  dsimp only
  constructor
  · refine pairwise_append.mpr ⟨h.order, pairwise_singleton _ _, ?_⟩
    intro a ha b hb hsender
    rw [mem_singleton.mp hb] at hsender ⊢
    rw [← show a.1.sender = sender from hsender]
    exact h.below a ha
  · intro o ho
    rcases mem_append.mp ho with ho | ho
    · have hlt := h.below o ho
      by_cases hsender : o.1.sender = sender
      · rw [hsender] at hlt ⊢
        rw [update_self]
        exact Nat.lt_succ_of_lt hlt
      · rw [update_of_ne hsender]
        exact hlt
    · rw [mem_singleton.mp ho]
      dsimp only
      rw [update_self]
      exact Nat.lt_succ_self _

/-- A refused call changes nothing that is handed over, in hand or queued. -/
theorem refuse_inv {sender : ℕ} {item : Item ρ} (h : IngestInv s) :
    IngestInv (s.answer ⟨sender, s.started sender, item⟩ false) where
  flow := by
    rw [accepted_answer, if_neg Bool.false_ne_true, append_nil]
    exact h.flow
  order := (answer_order h).1
  below := (answer_order h).2
  sentinel := h.sentinel

/-- An item that is queued keeps the invariant. -/
theorem enqueue_inv {sender : ℕ} {item : Item ρ} (h : IngestInv s)
    (hopen : s.shutdown = .notCalled ∨ s.shutdown = .refusing) :
    IngestInv { s.answer ⟨sender, s.started sender, item⟩ true with
      queue := s.queue ++ [.record ⟨sender, s.started sender, item⟩] } where
  flow := by
    have haccepted := accepted_answer (s := s) ⟨sender, s.started sender, item⟩ true
    rw [if_pos rfl] at haccepted
    rw [filterMap_append, ← append_assoc]
    exact haccepted.trans (congrArg (· ++ _) h.flow)
  order := (answer_order h).1
  below := (answer_order h).2
  sentinel := by
    have hplaced := h.sentinel
    rcases hopen with hopen | hopen <;>
    · rw [hopen] at hplaced
      obtain ⟨hworker, calls, hqueue⟩ := hplaced
      dsimp only [IngestState.answer]
      rw [hopen]
      refine ⟨hworker, calls ++ [⟨sender, s.started sender, item⟩], ?_⟩
      rw [hqueue, map_append]
      rfl

/-- The sentinel is queued behind what is queued. -/
theorem queueStop_inv (h : IngestInv s) (hshutdown : s.shutdown = .refusing) :
    IngestInv { s with queue := s.queue ++ [.stop], shutdown := .stopQueued } where
  flow := by
    rw [filterMap_append]
    exact h.flow.trans (congrArg _ (append_nil _).symm)
  order := h.order
  below := h.below
  sentinel := by
    have hplaced := h.sentinel
    rw [hshutdown] at hplaced
    obtain ⟨hworker, calls, hqueue⟩ := hplaced
    exact .inl ⟨hworker, calls, congrArg (· ++ _) hqueue⟩

/-- A record at the head of the queue: the rest is placed as the queue was. -/
theorem SentinelPlaced.tail {worker' : Worker ρ} {call : Call ρ}
    (h : SentinelPlaced worker (.record call :: rest) phase) (hworker : worker'.stopped = false) :
    SentinelPlaced worker' rest phase := by
  have htail : ∀ {calls : List (Call ρ)} {last : List (Queued ρ)}, last.filterMap Queued.record? = [] →
      .record call :: rest = calls.map .record ++ last → ∃ calls' : List (Call ρ), rest = calls'.map .record ++ last := by
    intro calls last hlast heq
    cases calls with
    | nil =>
      rw [← show .record call :: rest = last from heq] at hlast
      exact absurd hlast (cons_ne_nil _ _)
    | cons c calls => exact ⟨calls, (List.cons.inj heq).2⟩
  have hopen : (∃ calls : List (Call ρ), .record call :: rest = calls.map .record) →
      ∃ calls' : List (Call ρ), rest = calls'.map .record := by
    rintro ⟨calls, heq⟩
    rw [← append_nil (calls.map _)] at heq
    obtain ⟨calls', heq'⟩ := htail rfl heq
    exact ⟨calls', heq'.trans (append_nil _)⟩
  cases phase with
  | notCalled => exact ⟨hworker, hopen h.2⟩
  | refusing => exact ⟨hworker, hopen h.2⟩
  | stopQueued =>
    rcases h with ⟨-, calls, heq⟩ | ⟨-, heq⟩
    · exact .inl ⟨hworker, htail rfl heq⟩
    · exact absurd heq (cons_ne_nil _ _)
  | returned => exact absurd h.2 (cons_ne_nil _ _)

/-- The sentinel at the head of the queue is the last message. -/
theorem SentinelPlaced.stop {worker' : Worker ρ} (h : SentinelPlaced worker (.stop :: rest) phase)
    (hworker : worker'.stopped = true) : rest = [] ∧ SentinelPlaced worker' [] phase := by
  have hopen : ¬ ∃ calls : List (Call ρ), .stop :: rest = calls.map .record := by
    rintro ⟨calls, heq⟩
    cases calls with
    | nil => exact absurd heq (cons_ne_nil _ _)
    | cons c calls => exact absurd (List.cons.inj heq).1 (by simp)
  cases phase with
  | notCalled => exact absurd h.2 hopen
  | refusing => exact absurd h.2 hopen
  | stopQueued =>
    rcases h with ⟨-, calls, heq⟩ | ⟨-, heq⟩
    · cases calls with
      | nil => exact ⟨(List.cons.inj heq).2, .inr ⟨hworker, rfl⟩⟩
      | cons c calls => exact absurd (List.cons.inj heq).1 (by simp)
    · exact absurd heq (cons_ne_nil _ _)
  | returned => exact absurd h.2 (cons_ne_nil _ _)

/-- A record is taken into the batch in hand. -/
theorem take_inv {call : Call ρ} (h : IngestInv s) (hqueue : s.queue = .record call :: rest)
    (hbatch : worker.batch = s.worker.batch ++ [call]) (hworker : worker.stopped = false) :
    IngestInv { s with worker := worker, queue := rest } where
  flow := by
    have hflow := h.flow
    rw [hqueue] at hflow
    dsimp only
    rw [hbatch, ← append_assoc, append_assoc]
    exact hflow
  order := h.order
  below := h.below
  sentinel := by
    have hplaced := h.sentinel
    rw [hqueue] at hplaced
    exact hplaced.tail hworker

/-- The sentinel is received, with the batch in hand. -/
theorem leave_inv (h : IngestInv s) (hqueue : s.queue = .stop :: rest) (hbatch : worker.batch = s.worker.batch)
    (hworker : worker.stopped = true) : rest = [] ∧ IngestInv { s with worker := worker, queue := [] } := by
  have hplaced := h.sentinel
  rw [hqueue] at hplaced
  obtain ⟨rfl, hplaced'⟩ := hplaced.stop hworker
  refine ⟨rfl, ?_, h.order, h.below, hplaced'⟩
  have hflow := h.flow
  rw [hqueue] at hflow
  dsimp only
  rw [hbatch]
  exact hflow

/-- The batch in hand is handed over. -/
theorem ingest_inv {batch : List (Call ρ)} {current : ℕ → R} (h : IngestInv s) (hbatch : s.worker.batch = batch)
    (hworker : worker.batch = []) (hplaced : SentinelPlaced worker s.queue s.shutdown) :
    IngestInv { s with worker := worker, handed := s.handed ++ [(current, batch)] } where
  flow := by
    have hflow := h.flow
    rw [hbatch] at hflow
    dsimp only
    rw [hworker, append_nil, map_append, flatten_append]
    rw [show (List.map Prod.snd [(current, batch)]).flatten = batch from append_nil _]
    exact hflow
  order := h.order
  below := h.below
  sentinel := hplaced

theorem SentinelPlaced.of_stopped {worker' : Worker ρ} {queue : List (Queued ρ)}
    (h : SentinelPlaced worker queue phase) (heq : worker.stopped = worker'.stopped) (hgone : worker ≠ .gone) :
    SentinelPlaced worker' queue phase := by
  cases phase with
  | notCalled => exact ⟨heq ▸ h.1, h.2⟩
  | refusing => exact ⟨heq ▸ h.1, h.2⟩
  | stopQueued => exact h.imp (And.imp_left (heq ▸ ·)) (And.imp_left (heq ▸ ·))
  | returned => exact absurd h.1 hgone

/-- The sentinel is the last message that is received. -/
theorem SentinelPlaced.queue_nil {queue : List (Queued ρ)} (h : SentinelPlaced worker queue phase)
    (hworker : worker.stopped = true) : queue = [] := by
  cases phase with
  | notCalled => exact absurd (hworker.symm.trans h.1) (by simp)
  | refusing => exact absurd (hworker.symm.trans h.1) (by simp)
  | stopQueued =>
    rcases h with ⟨hrunning, -⟩ | ⟨-, hqueue⟩
    · exact absurd (hworker.symm.trans hrunning) (by simp)
    · exact hqueue
  | returned => exact h.2

/-- Every step keeps it, as long as the bound holds. -/
theorem ingest_step_inv {e : IngestEvent ρ R} (h : IngestInv s) (hok : Ahead s e)
    (hstep : ingestStep config s e = some s') : IngestInv s' := by
  cases e with
  | check sender item =>
    rw [ingestStep] at hstep
    split at hstep
    · cases hstep
    · split at hstep
      · cases hstep
        exact ⟨h.flow, h.order, h.below, h.sentinel⟩
      · cases hstep
        exact refuse_inv h
  | enqueue sender =>
    rw [ingestStep] at hstep
    split at hstep
    · cases hstep
    · dsimp only at hstep
      split at hstep
      · cases hstep
        exact refuse_inv h
      · rename_i hgone
        split at hstep
        · cases hstep
          apply enqueue_inv h
          -- The worker runs, so the sentinel is not queued yet.
          have hplaced := h.sentinel
          cases hphase : s.shutdown with
          | notCalled => exact .inl rfl
          | refusing => exact .inr rfl
          | stopQueued =>
            have hended := hok hphase
            unfold Worker.isGone at hended
            split at hended
            · rename_i heq
              exact absurd heq hgone
            · cases hended
          | returned =>
            rw [hphase] at hplaced
            exact absurd hplaced.1 hgone
        · cases hstep
  | refuse =>
    rw [ingestStep] at hstep
    split at hstep
    · rename_i hphase
      cases hstep
      have hplaced := h.sentinel
      rw [hphase] at hplaced
      exact ⟨h.flow, h.order, h.below, hplaced⟩
    · cases hstep
  | queueStop =>
    rw [ingestStep] at hstep
    split at hstep
    · rename_i hphase
      cases hstep
      exact queueStop_inv h hphase.1
    · cases hstep
  | join =>
    rw [ingestStep] at hstep
    split at hstep
    · rename_i hgone
      split at hstep
      · rename_i hphase
        cases hstep
        have hplaced := h.sentinel
        rw [hphase, hgone] at hplaced
        rcases hplaced with ⟨hworker, -⟩ | ⟨-, hqueue⟩
        · cases hworker
        · exact ⟨h.flow, h.order, h.below, hgone, hqueue⟩
      · cases hstep
    · cases hstep
  | recv =>
    rw [ingestStep] at hstep
    split at hstep
    · rename_i hworker hqueue
      cases hstep
      exact take_inv h hqueue (by rw [hworker]; rfl) rfl
    · rename_i hworker hqueue
      cases hstep
      exact (leave_inv h hqueue (by rw [hworker]; rfl) rfl).2
    · rename_i hworker hqueue
      split at hstep
      · cases hstep
        exact take_inv h hqueue (by rw [hworker]; rfl) rfl
      · cases hstep
    · rename_i batch rest hworker hqueue
      split at hstep
      · cases hstep
        have hleave : rest = [] ∧ IngestInv { s with worker := .leaving batch, queue := [] } :=
          leave_inv h hqueue (by rw [hworker]; rfl) rfl
        rw [hleave.1]
        exact hleave.2
      · cases hstep
    · cases hstep
  | ingest current =>
    rw [ingestStep] at hstep
    split at hstep
    · rename_i batch hworker
      cases hstep
      apply ingest_inv h (by rw [hworker]; rfl) rfl
      exact h.sentinel.of_stopped (by rw [hworker]; rfl) (by rw [hworker]; simp)
    · rename_i batch hworker
      cases hstep
      have hplaced : SentinelPlaced .gone s.queue s.shutdown :=
        h.sentinel.of_stopped (by rw [hworker]; rfl) (by rw [hworker]; simp)
      have hinv : IngestInv { s with worker := .gone, handed := s.handed ++ [(current, batch)] } :=
        ingest_inv h (by rw [hworker]; rfl) rfl hplaced
      rw [← hplaced.queue_nil rfl]
      exact hinv
    · cases hstep

theorem ingest_init_inv : IngestInv (IngestState.init : IngestState ρ R) where
  flow := rfl
  order := .nil
  below _ ho := absurd ho not_mem_nil
  sentinel := ⟨rfl, [], rfl⟩

/-- The calls that returned true are in the order in which each thread made them. -/
theorem accepted_pairwise (h : IngestInv s) :
    s.accepted.Pairwise fun a b => a.sender = b.sender → a.index < b.index :=
  pairwise_map.mpr (h.order.filter _)

/-- No two calls are the same one. -/
theorem outcomes_nodup (h : IngestInv s) : (s.outcomes.map Prod.fst).Nodup := by
  apply pairwise_map.mpr
  apply h.order.imp
  intro a b hlt heq
  rw [heq] at hlt
  exact absurd (hlt rfl) (lt_irrefl _)

theorem mem_accepted {call : Call ρ} : call ∈ s.accepted ↔ (call, true) ∈ s.outcomes := by
  simp [IngestState.accepted]

/-- When the shutdown has returned, all that was accepted is handed over. -/
theorem accepted_of_returned (h : IngestInv s) (hreturned : s.shutdown = .returned) :
    s.accepted = (s.handed.map Prod.snd).flatten := by
  have hplaced := h.sentinel
  rw [hreturned] at hplaced
  have hflow := h.flow
  rw [hplaced.1, hplaced.2] at hflow
  simpa [Worker.batch] using hflow

end

/-! ## After the shutdown -/

section

variable {ρ R : Type} [BEq R] (heap : ℕ → R)

/-- The requests that the database was handed. -/
def IngestState.requests (s : IngestState ρ R) : List (List (R × List (Call ρ))) :=
  s.handed.map fun h => encode heap h.1 h.2

/-- The records of the requests. -/
def IngestState.records (s : IngestState ρ R) : List (Call ρ) :=
  (s.requests heap).flatMap fun request => request.flatMap Prod.snd

variable {heap}

theorem encode_records (current : ℕ → R) (batch : List (Call ρ)) :
    (encode heap current batch).flatMap Prod.snd =
      (group Call.key (sameGroup heap) maxGroups batch).flatMap Prod.snd := by
  rw [encode, flatMap_map]

variable {s : IngestState ρ R}

theorem records_eq : s.records heap =
    (s.handed.map Prod.snd).flatMap fun batch =>
      (group Call.key (sameGroup heap) maxGroups batch).flatMap Prod.snd := by
  simp only [IngestState.records, IngestState.requests, flatMap_map, encode_records]

variable [PartialEquivBEq R]

/-- Records of one group are an equivalence class. -/
theorem sameGroup_equivalence : Equivalence fun a b => sameGroup heap a b = true where
  refl a := by
    obtain ⟨container, _ | resource⟩ := a <;> simp [sameGroup, sameResource]
  symm := by
    rintro ⟨c, _ | r⟩ ⟨c', _ | r'⟩ h <;> simp only [sameGroup, sameResource, Bool.and_eq_true,
      Bool.or_eq_true, beq_iff_eq, Bool.and_false, Bool.false_eq_true, and_true] at h ⊢
    · exact h.symm
    · exact ⟨h.1.symm, h.2.imp Eq.symm PartialEquivBEq.symm⟩
  trans := by
    rintro ⟨c, _ | r⟩ ⟨c', _ | r'⟩ ⟨c'', _ | r''⟩ h h' <;> simp only [sameGroup, sameResource,
      Bool.and_eq_true, Bool.or_eq_true, beq_iff_eq, Bool.and_false, Bool.false_eq_true, and_true] at h h' ⊢
    · exact h.trans h'
    · refine ⟨h.1.trans h'.1, ?_⟩
      rcases h.2 with rfl | hvalue
      · exact h'.2
      · rcases h'.2 with rfl | hvalue'
        · exact .inr hvalue
        · exact .inr (PartialEquivBEq.trans hvalue hvalue')

theorem records_perm : (s.records heap).Perm (s.handed.map Prod.snd).flatten := by
  rw [records_eq, ← flatMap_id]
  apply Perm.flatMap_left
  intro batch _
  exact group_perm sameGroup_equivalence batch

/-- The records of a group are in the order in which they were batched. -/
theorem records_filter (key : ℕ × Option ℕ) :
    (s.records heap).filter (fun c => sameGroup heap key c.key) =
      (s.handed.map Prod.snd).flatten.filter fun c => sameGroup heap key c.key := by
  rw [records_eq, filter_flatMap, ← flatMap_id, filter_flatMap]
  apply flatMap_congr
  intro batch _
  exact group_filter sameGroup_equivalence batch key

end

/-- When the shutdown has returned, the database was handed the records whose call returned true, each
once, and none whose call returned false; the records of a thread are in the order of its calls within a
group, and a group has one container and one resource. -/
theorem shutdown_drains {ρ R : Type} [BEq R] [PartialEquivBEq R] (heap : ℕ → R) {config : IngestConfig}
    {es : List (IngestEvent ρ R)} {s : IngestState ρ R} (hrun : run (ingestStep config) .init es = some s)
    (hok : Guarded (ingestStep config) Ahead .init es) (hreturned : s.shutdown = .returned) :
    (s.records heap).Nodup ∧
      (∀ call, (call, true) ∈ s.outcomes → call ∈ s.records heap) ∧
      (∀ call, (call, false) ∈ s.outcomes → call ∉ s.records heap) ∧
      (∀ sender key, ((s.records heap).filter fun c => c.sender == sender && sameGroup heap key c.key).Pairwise
        fun a b => a.index < b.index) ∧
      ∀ request ∈ s.requests heap, ∀ g ∈ request, ∀ a ∈ g.2, ∀ b ∈ g.2, sameGroup heap a.key b.key = true := by
  have hinv : IngestInv s :=
    run_induction IngestInv (fun _ _ _ h hok hstep => ingest_step_inv h hok hstep) ingest_init_inv hok hrun
  have haccepted := accepted_of_returned hinv hreturned
  have hperm : (s.records heap).Perm s.accepted := haccepted ▸ records_perm
  refine ⟨?_, ?_, ?_, ?_, ?_⟩
  · apply hperm.nodup_iff.mpr
    exact (outcomes_nodup hinv).sublist (filter_sublist.map _)
  · intro call htrue
    exact hperm.mem_iff.mpr (mem_accepted.mpr htrue)
  · intro call hfalse hmem
    have htrue := mem_accepted.mp (hperm.mem_iff.mp hmem)
    have heq := inj_on_of_nodup_map (outcomes_nodup hinv) htrue hfalse rfl
    exact absurd (congrArg Prod.snd heq) (by simp)
  · intro sender key
    rw [← filter_filter, records_filter, ← haccepted, filter_filter]
    apply ((accepted_pairwise hinv).filter _).imp_of_mem
    intro a b ha hb hlt
    apply hlt
    have hof : ∀ {c : Call ρ}, c ∈ s.accepted.filter (fun c => c.sender == sender &&
        sameGroup heap key c.key) → c.sender = sender := by
      intro c hc
      exact beq_iff_eq.mp (Bool.and_eq_true_iff.mp (mem_filter.mp hc).2).1
    rw [hof ha, hof hb]
  · intro request hrequest g hg a ha b hb
    obtain ⟨handed, -, rfl⟩ := mem_map.mp hrequest
    obtain ⟨g', hg', rfl⟩ := mem_map.mp hg
    have hequiv : Equivalence fun a b => sameGroup heap a b = true := sameGroup_equivalence
    exact hequiv.trans (hequiv.symm (group_key hequiv hg' ha)) (group_key hequiv hg' hb)

/-- One record is queued before the sentinel. A second thread is past the check then, and its record comes
when the worker is gone. -/
theorem shutdown_drains_two_threads :
    ∃ s : IngestState ℕ ℕ, run (ingestStep ⟨512, 8192⟩) .init
        [.check 0 ⟨1, none, 7⟩, .enqueue 0, .check 1 ⟨1, none, 8⟩, .refuse, .queueStop, .recv, .recv,
          .ingest fun _ => 0, .enqueue 1, .join] = some s ∧
      ⟨0, 0, 1, none, 7⟩ ∈ s.records (fun _ => 0) ∧ ⟨1, 0, 1, none, 8⟩ ∉ s.records (fun _ => 0) := by
  obtain ⟨s, hs, hreturned, houtcomes⟩ : ∃ s : IngestState ℕ ℕ, run (ingestStep ⟨512, 8192⟩) .init
        [.check 0 ⟨1, none, 7⟩, .enqueue 0, .check 1 ⟨1, none, 8⟩, .refuse, .queueStop, .recv, .recv,
          .ingest fun _ => 0, .enqueue 1, .join] = some s ∧ s.shutdown = .returned ∧
      s.outcomes = [(⟨0, 0, 1, none, 7⟩, true), (⟨1, 0, 1, none, 8⟩, false)] := ⟨_, rfl, rfl, rfl⟩
  have hdrained := shutdown_drains (fun _ => 0) hs (by decide) hreturned
  refine ⟨s, hs, hdrained.2.1 _ ?_, hdrained.2.2.1 _ ?_⟩
  · rw [houtcomes]
    decide
  · rw [houtcomes]
    decide

/-- A thread that is past the check queues its record behind the sentinel: its call returns true, and the
record is dropped with the queue. -/
theorem record_behind_sentinel_lost :
    ¬ ∀ (config : IngestConfig) (es : List (IngestEvent ℕ ℕ)) (s : IngestState ℕ ℕ),
      run (ingestStep config) .init es = some s → s.shutdown = .returned →
      ∀ call, (call, true) ∈ s.outcomes → call ∈ s.records fun _ => 0 := by
  intro h
  have hlost := h ⟨512, 8192⟩
    [.check 0 ⟨1, none, 7⟩, .refuse, .queueStop, .enqueue 0, .recv, .join] _ rfl rfl
    ⟨0, 0, 1, none, 7⟩ (by decide)
  exact absurd hlost (by decide)

end Imbh.Docker
