import Imbh.Lib.Ledger
import Imbh.Lib.Runs

/-!
# The bounded ingest queue (`ingest_queue.rs`)

A queue of jobs with one consumer and an overflow policy. Every operation here is what the code does
under the queue's lock, so it is one step of the system. The two `Notify`s that wake the consumer and
the parked producers hold no jobs: when they wake someone is left open in the systems that use the
channel.

A channel carries two invariants: it has room for one job at least, and it never holds more jobs than
it has room for.
-/

namespace Imbh.Ingest

open Lib

/-- Source: `imbh-core` `Overflow` -/
inductive Overflow
  | block
  | fail
  | dropOldest
  deriving DecidableEq

/-- The errors of an enqueue.
Source: `imbh-core` `Error::queue_full`, `Error::ingest_msg` -/
inductive IngestError
  | queueFull (queued cap : ℕ)
  | ingestMsg (message : String)
  deriving DecidableEq

/-- A bounded, single-consumer queue with a configurable overflow policy.
Source: `ingest_queue.rs` `IngestChannel` -/
structure IngestChannel (J : Type) where
  q : List J
  capacity : ℕ
  overflow : Overflow
  closed : Bool
  /-- Count of jobs evicted by `dropOldest`. -/
  dropped : UInt64
  /-- Count of worker-side ingest failures. -/
  errors : UInt64
  capacity_pos : 0 < capacity
  depth_le : q.length ≤ capacity

/-- The result of a single enqueue attempt.
Source: `ingest_queue.rs` `OfferOutcome` -/
inductive OfferOutcome (J : Type)
  | enqueued
  | full (job : J)
  | closed

variable {J : Type}

namespace IngestChannel

/-- Source: `ingest_queue.rs` `IngestChannel::new` -/
def new (capacity : ℕ) (overflow : Overflow) : IngestChannel J where
  q := []
  capacity := max capacity 1
  overflow := overflow
  closed := false
  dropped := 0
  errors := 0
  capacity_pos := lt_of_lt_of_le Nat.one_pos (le_max_right _ _)
  depth_le := Nat.zero_le _

/-- Source: `ingest_queue.rs` `IngestChannel::full_error` -/
def fullError (c : IngestChannel J) : IngestError := .queueFull c.capacity c.capacity

/-- Source: `ingest_queue.rs` `IngestChannel::closed_error` -/
def closedError : IngestError := .ingestMsg "async ingest queue is closed"

/-- Source: `ingest_queue.rs` `IngestChannel::offer` -/
def offer (c : IngestChannel J) (job : J) : IngestChannel J × OfferOutcome J :=
  if c.closed then (c, .closed)
  else if h : c.q.length < c.capacity then
    ({ c with
        q := c.q ++ [job]
        depth_le := by rw [List.length_append]; exact h }, .enqueued)
  else (c, .full job)

/-- Evict the oldest job if at capacity, then enqueue.
Source: `ingest_queue.rs` `IngestChannel::push_dropping_oldest` -/
def pushDroppingOldest (c : IngestChannel J) (job : J) : IngestChannel J × OfferOutcome J :=
  if c.closed then (c, .closed)
  else
    match hq : c.q with
    | oldest :: rest =>
        if h : c.capacity ≤ (oldest :: rest).length then
          ({ c with
              q := rest ++ [job]
              dropped := c.dropped + 1
              depth_le := by
                have := c.depth_le
                rw [hq] at this
                rw [List.length_append]
                exact this }, .enqueued)
        else
          ({ c with
              q := (oldest :: rest) ++ [job]
              depth_le := by rw [List.length_append]; exact not_le.mp h }, .enqueued)
    | [] => ({ c with
              q := [job]
              depth_le := c.capacity_pos }, .enqueued)

/-- Source: `ingest_queue.rs` `OfferOutcome::into_send_result` -/
def intoSendResult (c : IngestChannel J) : OfferOutcome J → Except IngestError Unit
  | .enqueued => .ok ()
  | .full _ => .error c.fullError
  | .closed => .error closedError

/-- Enqueue from the non-blocking path.
Source: `ingest_queue.rs` `IngestChannel::try_send` -/
def trySend (c : IngestChannel J) (job : J) : IngestChannel J × Except IngestError Unit :=
  match c.overflow with
  | .dropOldest =>
      let (c, out) := c.pushDroppingOldest job
      (c, c.intoSendResult out)
  | .block | .fail =>
      let (c, out) := c.offer job
      (c, c.intoSendResult out)

/-- Pop the next job.
Source: `ingest_queue.rs` `IngestChannel::pop` -/
def pop (c : IngestChannel J) : IngestChannel J × Option J :=
  match hq : c.q with
  | [] => (c, none)
  | job :: rest =>
      ({ c with
          q := rest
          depth_le := by
            have := c.depth_le
            rw [hq] at this
            exact (Nat.le_succ _).trans this }, some job)

/-- Source: `ingest_queue.rs` `IngestChannel::close` -/
def close (c : IngestChannel J) : IngestChannel J := { c with closed := true }

/-- Source: `ingest_queue.rs` `IngestChannel::depth` -/
def depth (c : IngestChannel J) : ℕ := c.q.length

/-- Source: `ingest_queue.rs` `IngestChannel::record_error` -/
def recordError (c : IngestChannel J) : IngestChannel J := { c with errors := c.errors + 1 }

/-! ## What the operations do -/

/-- What an attempt to enqueue can do. -/
inductive Offered (c : IngestChannel J) (job : J) : IngestChannel J → OfferOutcome J → Prop
  | closed (h : c.closed = true) : Offered c job c .closed
  | full (h : c.closed = false) (hfull : c.capacity ≤ c.q.length) : Offered c job c (.full job)
  | enqueued {c'} (h : c.closed = false) (hq : c'.q = c.q ++ [job])
      (hsame : c'.closed = false ∧ c'.overflow = c.overflow ∧ c'.capacity = c.capacity ∧
        c'.dropped = c.dropped) : Offered c job c' .enqueued
  | evicted {c' oldest rest} (h : c.closed = false) (hold : c.overflow = .dropOldest)
      (hfull : c.capacity ≤ c.q.length) (hfront : c.q = oldest :: rest)
      (hq : c'.q = rest ++ [job])
      (hsame : c'.closed = false ∧ c'.overflow = c.overflow ∧ c'.capacity = c.capacity ∧
        c'.dropped = c.dropped + 1) : Offered c job c' .enqueued

theorem Offered.of_full {c c' : IngestChannel J} {job job' : J} (h : Offered c job c' (.full job')) :
    c' = c ∧ job' = job ∧ c.closed = false ∧ c.capacity ≤ c.q.length := by
  cases h with
  | full hopen hfull => exact ⟨rfl, rfl, hopen, hfull⟩

/-- What an offer may do. -/
theorem offer_spec (c : IngestChannel J) (job : J) :
    Offered c job (c.offer job).1 (c.offer job).2 := by
  unfold offer
  by_cases hclosed : c.closed = true
  · rw [if_pos hclosed]
    exact .closed hclosed
  · rw [if_neg hclosed]
    have hopen : c.closed = false := Bool.not_eq_true _ |>.mp hclosed
    by_cases h : c.q.length < c.capacity
    · rw [dif_pos h]
      exact .enqueued hopen rfl ⟨hopen, rfl, rfl, rfl⟩
    · rw [dif_neg h]
      exact .full hopen (not_lt.mp h)

/-- Pushing the oldest out is an offer that is accepted. -/
theorem pushDroppingOldest_spec (c : IngestChannel J) (job : J)
    (hold : c.overflow = .dropOldest) :
    Offered c job (c.pushDroppingOldest job).1 (c.pushDroppingOldest job).2 := by
  unfold pushDroppingOldest
  by_cases hclosed : c.closed = true
  · rw [if_pos hclosed]
    exact .closed hclosed
  · rw [if_neg hclosed]
    have hopen : c.closed = false := Bool.not_eq_true _ |>.mp hclosed
    split
    · rename_i oldest rest hq
      split
      · rename_i hfull
        exact .evicted hopen hold (hq ▸ hfull) hq rfl ⟨hopen, rfl, rfl, rfl⟩
      · refine .enqueued hopen ?_ ⟨hopen, rfl, rfl, rfl⟩
        rw [hq]
    · rename_i hq
      refine .enqueued hopen ?_ ⟨hopen, rfl, rfl, rfl⟩
      rw [hq]
      rfl

/-- An attempt that evicts never finds the queue full. -/
theorem pushDroppingOldest_not_full (c : IngestChannel J) (job job' : J) :
    (c.pushDroppingOldest job).2 ≠ .full job' := by
  unfold pushDroppingOldest
  split
  · exact fun h => by cases h
  · split
    · split
      · exact fun h => by cases h
      · exact fun h => by cases h
    · exact fun h => by cases h

theorem pop_of_nil {c : IngestChannel J} (h : c.q = []) : c.pop = (c, none) := by
  unfold pop
  split
  · rfl
  · rename_i hq
    rw [h] at hq
    cases hq

/-- A pop takes the first job and leaves the rest. -/
theorem pop_of_cons {c : IngestChannel J} {job : J} {rest : List J} (h : c.q = job :: rest) :
    ∃ c', c.pop = (c', some job) ∧ c'.q = rest ∧ c'.closed = c.closed ∧
      c'.overflow = c.overflow ∧ c'.capacity = c.capacity ∧ c'.dropped = c.dropped := by
  unfold pop
  split
  · rename_i hq
    rw [h] at hq
    cases hq
  · rename_i hq
    rw [h] at hq
    cases hq
    exact ⟨_, rfl, rfl, rfl, rfl, rfl, rfl⟩

end IngestChannel

end Imbh.Ingest
