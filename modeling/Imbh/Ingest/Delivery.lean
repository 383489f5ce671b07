import Imbh.Ingest.Channel

/-!
# What becomes of the jobs of a channel

Any number of producers send, one worker pops, and anyone closes. Every call of `send` or `try_send`
gets a ticket, which no code keeps, so that the jobs of two calls are never the same. The state also
has, for the proofs only, the jobs whose send reported acceptance, in the order of acceptance, the
jobs whose send reported refusal, and what left the queue.

A parked producer and a waiting worker may wake at any time. A producer's call may be dropped while
it waits. A handle of the database lives as long as the worker drains.

* `exactly_once` — every accepted job is popped once, in the order of acceptance, or evicted once and
  counted, or still queued; a refused job never is.
* `close_drains` — once the channel is closed the worker comes to its end in a bounded number of its steps.
-/

namespace Imbh.Ingest

open Lib List Option Function

/-- Where a producer is in `send`, under the policy `block`: about to offer its job, or waiting for a
slot. -/
inductive Producer (J : Type)
  | idle
  | armed (job : J)
  | parked (job : J)

/-- The job a producer holds. -/
def Producer.held {J : Type} : Producer J → Option J
  | .idle => none
  | .armed job | .parked job => some job

/-- Where the worker is in its loop: draining the queue, about to read `closed`, draining it a last
time, waiting for an item, or at its end.
Source: `lib.rs` `run_ingest_worker` -/
inductive Worker
  | draining
  | checking
  | finalDrain
  | waiting
  | exited
  deriving DecidableEq

/-- How a job left the queue. -/
inductive Fate
  | popped
  | evicted
  deriving DecidableEq

/-- The channel, its producers and its worker. -/
structure Sys (J : Type) where
  chan : IngestChannel (ℕ × J)
  producers : ℕ → Producer (ℕ × J)
  worker : Worker
  issued : ℕ
  accepted : List (ℕ × J)
  refused : List (ℕ × J)
  gone : List ((ℕ × J) × Fate)

/-- One step of a producer, of someone who closes, or of the worker. -/
inductive Event (J : Type)
  | send (p : ℕ) (job : J)
  | offer (p : ℕ)
  | wake (p : ℕ)
  | cancel (p : ℕ)
  | trySend (job : J)
  | close
  | work

variable {J : Type} {cap : ℕ} {s s' : Sys J} {job : ℕ × J}

namespace Sys

/-- Nothing was sent yet, and the worker starts. -/
def init (capacity : ℕ) (overflow : Overflow) : Sys J :=
  ⟨IngestChannel.new capacity overflow, fun _ => .idle, .draining, 0, [], [], []⟩

/-- The jobs at the front of `c` that `c'`, which has one more at the end, has no more. -/
def evictedBy (c c' : IngestChannel (ℕ × J)) : List (ℕ × J) :=
  c.q.take (c.q.length + 1 - c'.q.length)

/-- A call returns. -/
def returned (s : Sys J) (job : ℕ × J) (c : IngestChannel (ℕ × J)) :
    Except IngestError Unit → Sys J
  | .ok () => { s with
      chan := c
      accepted := s.accepted ++ [job]
      gone := s.gone ++ (evictedBy s.chan c).map (·, .evicted) }
  | .error _ => { s with
      chan := c
      refused := s.refused ++ [job] }

/-- A producer goes on. -/
def setProducer (s : Sys J) (p : ℕ) (x : Producer (ℕ × J)) : Sys J :=
  { s with producers := update s.producers p x }

theorem setProducer_self (s : Sys J) (p : ℕ) (x : Producer (ℕ × J)) :
    (s.setProducer p x).producers p = x := update_self _ _ _

theorem setProducer_ne (s : Sys J) {p p' : ℕ} (h : p' ≠ p) (x : Producer (ℕ × J)) :
    (s.setProducer p x).producers p' = s.producers p' := update_of_ne h _ _

/-- The worker pops, and does with the job what it is there for; without a job it goes on. -/
def drain (s : Sys J) (next : Worker) : Sys J :=
  match s.chan.pop with
  | (c, some job) => { s with
      chan := c
      gone := s.gone ++ [(job, .popped)] }
  | (c, none) => { s with
      chan := c
      worker := next }

end Sys

/-- One step.
Source: `ingest_queue.rs` `IngestChannel::send`, `try_send`, `close`, `lib.rs` `run_ingest_worker`,
`drain_ingest_burst` -/
def step (s : Sys J) : Event J → Option (Sys J)
  | .send p job =>
      match s.producers p with
      | .idle =>
          let job := (s.issued, job)
          let s := { s with issued := s.issued + 1 }
          match s.chan.overflow with
          | .dropOldest =>
              let (c, out) := s.chan.pushDroppingOldest job
              some (s.returned job c (c.intoSendResult out))
          | .fail =>
              let (c, out) := s.chan.offer job
              some (s.returned job c (c.intoSendResult out))
          | .block => some (s.setProducer p (.armed job))
      | _ => none
  | .offer p =>
      match s.producers p with
      | .armed job =>
          match s.chan.offer job with
          | (c, .enqueued) => some ((s.setProducer p .idle).returned job c (.ok ()))
          | (c, .closed) =>
              some ((s.setProducer p .idle).returned job c (.error IngestChannel.closedError))
          | (_, .full job) => some (s.setProducer p (.parked job))
      | _ => none
  | .wake p =>
      match s.producers p with
      | .parked job => some (s.setProducer p (.armed job))
      | _ => none
  | .cancel p => some (s.setProducer p .idle)
  | .trySend job =>
      let job := (s.issued, job)
      let s := { s with issued := s.issued + 1 }
      let (c, res) := s.chan.trySend job
      some (s.returned job c res)
  | .close => some { s with chan := s.chan.close }
  | .work =>
      match s.worker with
      | .draining => some (s.drain .checking)
      | .checking =>
          some { s with worker := if s.chan.closed then .finalDrain else .waiting }
      | .finalDrain => some (s.drain .exited)
      | .waiting => some { s with worker := .draining }
      | .exited => none

/-! ## The invariant -/

/-- What is known of the jobs, the counter and the worker. -/
structure Inv (cap : ℕ) (s : Sys J) : Prop where
  capacity : s.chan.capacity = cap
  accounted : Accounted s.accepted s.gone s.chan.q
  nodup : s.accepted.Nodup
  issued : ∀ x ∈ s.accepted, x.1 < s.issued
  refused : ∀ x ∈ s.refused, x ∉ s.accepted ∧ x.1 < s.issued
  held : ∀ p x, (s.producers p).held = some x →
    x ∉ s.accepted ∧ x ∉ s.refused ∧ x.1 < s.issued
  alone : ∀ p p' x, (s.producers p).held = some x → (s.producers p').held = some x → p = p'
  dropped : s.chan.dropped = UInt64.ofNat (leftAs .evicted s.gone).length
  evicts : leftAs .evicted s.gone ≠ [] → s.chan.overflow = .dropOldest
  closed : s.worker = .finalDrain ∨ s.worker = .exited → s.chan.closed = true
  empty : s.worker = .exited → s.chan.q = []

/-- A new channel has the invariant. -/
theorem inv_init (capacity : ℕ) (overflow : Overflow) :
    Inv (max capacity 1) (Sys.init capacity overflow : Sys J) where
  capacity := rfl
  accounted := .nil
  nodup := nodup_nil
  issued x hx := absurd hx not_mem_nil
  refused x hx := absurd hx not_mem_nil
  held p x hx := by cases hx
  alone p p' x hx := by cases hx
  dropped := rfl
  evicts h := absurd rfl h
  closed h := by rcases h with h | h <;> cases h
  empty h := by cases h

/-- A job that nobody has heard of but the call that sends it. -/
structure Fresh (s : Sys J) (job : ℕ × J) : Prop where
  issued : job.1 < s.issued
  accepted : job ∉ s.accepted
  refused : job ∉ s.refused
  held : ∀ p, (s.producers p).held ≠ some job

/-- A new ticket. -/
theorem Inv.ticket (h : Inv cap s) (job : J) :
    Inv cap { s with issued := s.issued + 1 } ∧ Fresh { s with issued := s.issued + 1 } (s.issued, job) := by
  have hlt : ∀ {n : ℕ}, n < s.issued → n < s.issued + 1 := fun h => Nat.lt_succ_of_lt h
  constructor
  · refine ⟨h.capacity, h.accounted, h.nodup, fun x hx => hlt (h.issued x hx), fun x hx => ?_, fun p x hx => ?_,
      h.alone, h.dropped, h.evicts, h.closed, h.empty⟩
    · exact ⟨(h.refused x hx).1, hlt (h.refused x hx).2⟩
    · obtain ⟨ha, hr, hi⟩ := h.held p x hx
      exact ⟨ha, hr, hlt hi⟩
  · refine ⟨Nat.lt_succ_self _, fun hx => ?_, fun hx => ?_, fun p hx => ?_⟩
    · exact absurd (h.issued _ hx) (Nat.lt_irrefl _)
    · exact absurd (h.refused _ hx).2 (Nat.lt_irrefl _)
    · exact absurd (h.held p _ hx).2.2 (Nat.lt_irrefl _)

/-- A producer lets go of its job. -/
theorem Inv.release (h : Inv cap s) (p : ℕ) (hp : (s.producers p).held = some job) :
    Inv cap (s.setProducer p .idle) ∧ Fresh (s.setProducer p .idle) job := by
  have hheld : ∀ p' x, ((s.setProducer p .idle).producers p').held = some x →
      p' ≠ p ∧ (s.producers p').held = some x := by
    intro p' x hx
    by_cases heq : p' = p
    · subst heq
      rw [Sys.setProducer_self] at hx
      cases hx
    · rw [Sys.setProducer_ne s heq] at hx
      exact ⟨heq, hx⟩
  constructor
  · refine ⟨h.capacity, h.accounted, h.nodup, h.issued, h.refused, fun p' x hx => ?_, fun p' q x hx hy => ?_,
      h.dropped, h.evicts, h.closed, h.empty⟩
    · exact h.held p' x (hheld p' x hx).2
    · exact h.alone p' q x (hheld p' x hx).2 (hheld q x hy).2
  · obtain ⟨ha, hr, hi⟩ := h.held p job hp
    refine ⟨hi, ha, hr, fun p' hx => ?_⟩
    obtain ⟨hne, hx⟩ := hheld p' job hx
    exact hne (h.alone p' p job hx hp)

/-- A producer takes hold of a job. -/
theorem Inv.hold (h : Inv cap s) {p : ℕ} {x : Producer (ℕ × J)} (hfresh : Fresh s job) (hx : x.held = some job) :
    Inv cap (s.setProducer p x) := by
  have hheld : ∀ p' y, ((s.setProducer p x).producers p').held = some y →
      p' = p ∧ y = job ∨ p' ≠ p ∧ (s.producers p').held = some y := by
    intro p' y hy
    by_cases heq : p' = p
    · subst heq
      rw [Sys.setProducer_self, hx] at hy
      exact .inl ⟨rfl, (some.inj hy).symm⟩
    · rw [Sys.setProducer_ne s heq] at hy
      exact .inr ⟨heq, hy⟩
  refine ⟨h.capacity, h.accounted, h.nodup, h.issued, h.refused, fun p' y hy => ?_, fun p' q y hy hz => ?_,
    h.dropped, h.evicts, h.closed, h.empty⟩
  · rcases hheld p' y hy with ⟨-, rfl⟩ | ⟨-, hy⟩
    · exact ⟨hfresh.accepted, hfresh.refused, hfresh.issued⟩
    · exact h.held p' y hy
  · rcases hheld p' y hy with ⟨rfl, rfl⟩ | ⟨-, hy⟩
    · rcases hheld q y hz with ⟨rfl, -⟩ | ⟨-, hz⟩
      · rfl
      · exact absurd hz (hfresh.held q)
    · rcases hheld q y hz with ⟨-, rfl⟩ | ⟨-, hz⟩
      · exact absurd hy (hfresh.held p')
      · exact h.alone p' q y hy hz

/-- A producer keeps its job from one place in `send` to another. -/
theorem Inv.move (h : Inv cap s) {p : ℕ} {x : Producer (ℕ × J)} (hp : (s.producers p).held = some job)
    (hx : x.held = some job) : Inv cap (s.setProducer p x) := by
  obtain ⟨hidle, hfresh⟩ := h.release p hp
  have hset : (s.setProducer p .idle).setProducer p x = s.setProducer p x := by
    unfold Sys.setProducer
    simp only [update_idem]
  rw [← hset]
  exact hidle.hold hfresh hx

/-- **A call returns**, with whatever the attempt to enqueue did. -/
theorem Inv.returned (h : Inv cap s) (hfresh : Fresh s job) {c : IngestChannel (ℕ × J)} {out : OfferOutcome (ℕ × J)}
    (ho : IngestChannel.Offered s.chan job c out) : Inv cap (s.returned job c (c.intoSendResult out)) := by
  have hopen : s.chan.closed = false → ∀ {P : Prop}, s.worker = .finalDrain ∨ s.worker = .exited → P := by
    intro hclosed P hw
    rw [h.closed hw] at hclosed
    cases hclosed
  have hrefuse : ∀ e, c = s.chan → Inv cap (s.returned job c (.error e)) := by
    rintro e rfl
    refine ⟨h.capacity, h.accounted, h.nodup, h.issued, fun x hx => ?_, fun p x hx => ?_, h.alone, h.dropped,
      h.evicts, h.closed, h.empty⟩
    · rcases mem_append.mp hx with hx | hx
      · exact h.refused x hx
      · rw [mem_singleton.mp hx]
        exact ⟨hfresh.accepted, hfresh.issued⟩
    · obtain ⟨ha, hr, hi⟩ := h.held p x hx
      refine ⟨ha, fun hmem => ?_, hi⟩
      rcases mem_append.mp hmem with hmem | hmem
      · exact hr hmem
      · exact hfresh.held p (hx.trans (congrArg some (mem_singleton.mp hmem)))
  -- what an accepted job does to the rest, whether or not another one is evicted for it
  have haccept : ∀ gone, c.capacity = s.chan.capacity →
      Accounted (s.accepted ++ [job]) gone c.q →
      c.dropped = UInt64.ofNat (leftAs .evicted gone).length →
      (leftAs .evicted gone ≠ [] → c.overflow = .dropOldest) → s.chan.closed = false →
      Inv cap { s with
        chan := c
        accepted := s.accepted ++ [job]
        gone := gone } := by
    intro gone hcap hacc hdropped hevicts hclosed
    refine ⟨hcap.trans h.capacity, hacc, ?_, fun x hx => ?_, fun x hx => ?_, fun p x hx => ?_, h.alone, hdropped, hevicts,
      hopen hclosed, fun hw => hopen hclosed (.inr hw)⟩
    · refine nodup_append.mpr ⟨h.nodup, nodup_singleton _, fun x hx y hy heq => ?_⟩
      rw [mem_singleton.mp hy] at heq
      exact hfresh.accepted (heq ▸ hx)
    · rcases mem_append.mp hx with hx | hx
      · exact h.issued x hx
      · rw [mem_singleton.mp hx]
        exact hfresh.issued
    · refine ⟨fun hmem => ?_, (h.refused x hx).2⟩
      rcases mem_append.mp hmem with hmem | hmem
      · exact (h.refused x hx).1 hmem
      · exact hfresh.refused (mem_singleton.mp hmem ▸ hx)
    · obtain ⟨ha, hr, hi⟩ := h.held p x hx
      refine ⟨fun hmem => ?_, hr, hi⟩
      rcases mem_append.mp hmem with hmem | hmem
      · exact ha hmem
      · exact hfresh.held p (hx.trans (congrArg some (mem_singleton.mp hmem)))
  rcases ho with hclosed | ⟨hclosed, hfull⟩ | ⟨hclosed, hq, hsame⟩ | ⟨hclosed, hold, -, hfront, hq, hsame⟩
  · exact hrefuse _ rfl
  · exact hrefuse _ rfl
  · obtain ⟨-, hover, hcap, hdropped⟩ := hsame
    have hnone : Sys.evictedBy s.chan c = [] := by
      unfold Sys.evictedBy
      rw [hq, length_append, length_singleton, Nat.sub_self, take_zero]
    have hgone : s.gone ++ (Sys.evictedBy s.chan c).map (·, Fate.evicted) = s.gone := by
      rw [hnone, map_nil, append_nil]
    show Inv cap { s with
      chan := c
      accepted := s.accepted ++ [job]
      gone := s.gone ++ (Sys.evictedBy s.chan c).map (·, Fate.evicted) }
    rw [hgone]
    apply haccept _ hcap _ _ _ hclosed
    · rw [hq]
      exact h.accounted.enter job
    · rw [hdropped]
      exact h.dropped
    · rw [hover]
      exact h.evicts
  · rename_i oldest rest
    obtain ⟨-, hover, hcap, hdropped⟩ := hsame
    have hone : Sys.evictedBy s.chan c = [oldest] := by
      unfold Sys.evictedBy
      rw [hq, hfront, length_append, length_cons, length_singleton,
        Nat.add_sub_cancel_left]
      rfl
    show Inv cap { s with
      chan := c
      accepted := s.accepted ++ [job]
      gone := s.gone ++ (Sys.evictedBy s.chan c).map (·, Fate.evicted) }
    rw [hone]
    apply haccept _ hcap _ _ _ hclosed
    · rw [hq]
      have hacc := h.accounted
      rw [hfront] at hacc
      exact (hacc.leave .evicted).enter job
    · rw [hdropped, h.dropped]
      simp
    · intro _
      rw [hover]
      exact hold

/-- The worker pops a job, or goes on when there is none. -/
theorem Inv.drain (h : Inv cap s) {next : Worker}
    (hw : s.worker = .draining ∧ next = .checking ∨ s.worker = .finalDrain ∧ next = .exited) :
    Inv cap (s.drain next) := by
  unfold Sys.drain
  rcases hq : s.chan.q with _ | ⟨job, rest⟩
  · rw [IngestChannel.pop_of_nil hq]
    refine ⟨h.capacity, h.accounted, h.nodup, h.issued, h.refused, h.held, h.alone, h.dropped, h.evicts,
      fun hnext => ?_, fun _ => hq⟩
    rcases hw with ⟨-, rfl⟩ | ⟨hw, -⟩
    · rcases hnext with hnext | hnext <;> cases hnext
    · exact h.closed (.inl hw)
  · obtain ⟨c', hpop, hq', hclosed, hover, hcap, hdropped⟩ := IngestChannel.pop_of_cons hq
    rw [hpop]
    have hacc := h.accounted
    rw [hq] at hacc
    refine ⟨hcap.trans h.capacity, ?_, h.nodup, h.issued, h.refused, h.held, h.alone, ?_, ?_,
      fun hx => ?_, fun hx => ?_⟩
    · show Accounted _ _ c'.q
      rw [hq']
      exact hacc.leave .popped
    · rw [leftAs_concat_ne (by decide)]
      exact hdropped.trans h.dropped
    · rw [leftAs_concat_ne (by decide)]
      exact fun hne => hover.trans (h.evicts hne)
    · exact hclosed.trans (h.closed hx)
    · have hexit : s.worker = .exited := hx
      rcases hw with ⟨hw, -⟩ | ⟨hw, -⟩
      · rw [hw] at hexit
        cases hexit
      · rw [hw] at hexit
        cases hexit

/-- Every step keeps the invariant. -/
theorem step_inv {e : Event J} (h : Inv cap s) (hs : step s e = some s') : Inv cap s' := by
  rcases e with ⟨p, job⟩ | p | p | p | job | _ | _
  · rcases hp : s.producers p with _ | _ | _
    · obtain ⟨hinv, hfresh⟩ := h.ticket job
      simp only [step, hp] at hs
      rcases hover : s.chan.overflow with _ | _ | _
      · simp only [hover] at hs
        cases hs
        exact hinv.hold hfresh rfl
      · simp only [hover] at hs
        cases hs
        exact hinv.returned hfresh (IngestChannel.offer_spec s.chan (s.issued, job))
      · simp only [hover] at hs
        cases hs
        exact hinv.returned hfresh (IngestChannel.pushDroppingOldest_spec s.chan (s.issued, job) hover)
    · simp [step, hp] at hs
    · simp [step, hp] at hs
  · rcases hp : s.producers p with _ | job | _
    · simp [step, hp] at hs
    · have hheld : (s.producers p).held = some job := by rw [hp]; rfl
      obtain ⟨hinv, hfresh⟩ := h.release p hheld
      have ho := IngestChannel.offer_spec s.chan job
      simp only [step, hp] at hs
      rcases hout : s.chan.offer job with ⟨c, out⟩
      rw [hout] at ho hs
      rcases out with _ | job' | _
      · cases hs
        exact hinv.returned hfresh ho
      · cases ho
        cases hs
        exact h.move hheld rfl
      · cases hs
        exact hinv.returned hfresh ho
    · simp [step, hp] at hs
  · rcases hp : s.producers p with _ | _ | job
    · simp [step, hp] at hs
    · simp [step, hp] at hs
    · have hheld : (s.producers p).held = some job := by rw [hp]; rfl
      simp only [step, hp] at hs
      cases hs
      exact h.move hheld rfl
  · cases hs
    rcases hp : (s.producers p).held with _ | job
    · have hidle : s.producers p = .idle := by
        rcases hx : s.producers p with _ | _ | _
        · rfl
        · rw [hx] at hp
          cases hp
        · rw [hx] at hp
          cases hp
      unfold Sys.setProducer
      rw [← hidle, update_eq_self]
      exact h
    · exact (h.release p hp).1
  · obtain ⟨hinv, hfresh⟩ := h.ticket job
    simp only [step, IngestChannel.trySend] at hs
    rcases hover : s.chan.overflow with _ | _ | _
    · simp only [hover] at hs
      cases hs
      exact hinv.returned hfresh (IngestChannel.offer_spec s.chan (s.issued, job))
    · simp only [hover] at hs
      cases hs
      exact hinv.returned hfresh (IngestChannel.offer_spec s.chan (s.issued, job))
    · simp only [hover] at hs
      cases hs
      exact hinv.returned hfresh (IngestChannel.pushDroppingOldest_spec s.chan (s.issued, job) hover)
  · cases hs
    exact ⟨h.capacity, h.accounted, h.nodup, h.issued, h.refused, h.held, h.alone, h.dropped, h.evicts,
      fun _ => rfl, h.empty⟩
  · rcases hw : s.worker with _ | _ | _ | _ | _
    · simp only [step, hw] at hs
      cases hs
      exact h.drain (.inl ⟨hw, rfl⟩)
    · simp only [step, hw] at hs
      cases hs
      refine ⟨h.capacity, h.accounted, h.nodup, h.issued, h.refused, h.held, h.alone, h.dropped, h.evicts,
        fun hx => ?_, fun hx => ?_⟩
      · by_cases hclosed : s.chan.closed = true
        · exact hclosed
        · simp only [hclosed, if_false, Bool.false_eq_true] at hx
          rcases hx with hx | hx <;> cases hx
      · simp only at hx
        split at hx <;> cases hx
    · simp only [step, hw] at hs
      cases hs
      exact h.drain (.inr ⟨hw, rfl⟩)
    · simp only [step, hw] at hs
      cases hs
      exact ⟨h.capacity, h.accounted, h.nodup, h.issued, h.refused, h.held, h.alone, h.dropped, h.evicts,
        fun hx => (by rcases hx with hx | hx <;> cases hx), fun hx => (by cases hx)⟩
    · simp [step, hw] at hs

/-! ## What leaves the queue in a step -/

/-- An attempt to enqueue evicts. -/
def Sys.Evicting (s : Sys J) : Prop :=
  s.chan.closed = false ∧ s.chan.overflow = .dropOldest ∧ s.chan.capacity ≤ s.chan.q.length

instance (s : Sys J) : Decidable s.Evicting := inferInstanceAs (Decidable (_ ∧ _))

/-- The job that the worker's next step pops. -/
def Sys.popping (s : Sys J) : Option (ℕ × J) :=
  match s.worker with
  | .draining | .finalDrain => s.chan.q.head?
  | _ => none

/-- A job leaves in a step of a system because it is evicted, or because the worker pops it. -/
structure Leaves (s s' : Sys J) (e : Event J) : Prop where
  accepted : s.accepted ⊆ s'.accepted
  worker : s'.worker = s.worker ∨ e = .work
  gone : ∀ x ∈ s'.gone, x ∈ s.gone ∨ x.2 = .evicted ∧ s.Evicting ∨
    e = .work ∧ s.popping = some x.1

theorem Leaves.same {e : Event J} (ha : s'.accepted = s.accepted) (hg : s'.gone = s.gone)
    (hw : s'.worker = s.worker ∨ e = .work) : Leaves s s' e where
  accepted := by rw [ha]; exact List.Subset.refl _
  worker := hw
  gone x hx := .inl (hg ▸ hx)

/-- A call returns, from a state that has the channel and the lists of `s`. -/
theorem Leaves.returned (s u : Sys J) (hchan : u.chan = s.chan) (ha : u.accepted = s.accepted) (hg : u.gone = s.gone)
    (hw : u.worker = s.worker) {c : IngestChannel (ℕ × J)} {out : OfferOutcome (ℕ × J)}
    (ho : IngestChannel.Offered s.chan job c out) (e : Event J) :
    Leaves s (u.returned job c (c.intoSendResult out)) e := by
  rcases ho with hclosed | ⟨hclosed, hfull⟩ | ⟨hclosed, hq, -⟩ | ⟨hclosed, hold, hfull, -, -, -⟩
  · exact .same ha hg (.inl hw)
  · exact .same ha hg (.inl hw)
  · refine ⟨ha ▸ subset_append_left _ _, .inl hw, fun x hx => .inl ?_⟩
    have hnone : Sys.evictedBy u.chan c = [] := by
      unfold Sys.evictedBy
      rw [hchan, hq, length_append, length_singleton, Nat.sub_self, take_zero]
    rcases mem_append.mp hx with hx | hx
    · exact hg ▸ hx
    · rw [hnone] at hx
      cases hx
  · refine ⟨ha ▸ subset_append_left _ _, .inl hw, fun x hx => ?_⟩
    rcases mem_append.mp hx with hx | hx
    · exact .inl (hg ▸ hx)
    · obtain ⟨job', -, rfl⟩ := mem_map.mp hx
      exact .inr (.inl ⟨rfl, hclosed, hold, hfull⟩)

/-- A drain takes one job off. -/
theorem Leaves.drain {next : Worker} (hw : s.worker = .draining ∨ s.worker = .finalDrain) :
    Leaves s (s.drain next) .work := by
  have hpopping : s.popping = s.chan.q.head? := by
    unfold Sys.popping
    rcases hw with hw | hw <;> rw [hw]
  unfold Sys.drain
  rcases hq : s.chan.q with _ | ⟨job, rest⟩
  · rw [IngestChannel.pop_of_nil hq]
    exact .same rfl rfl (.inr rfl)
  · obtain ⟨c', hpop, -⟩ := IngestChannel.pop_of_cons hq
    rw [hpop]
    refine ⟨List.Subset.refl _, .inr rfl, fun x hx => ?_⟩
    rcases mem_append.mp hx with hx | hx
    · exact .inl hx
    · rw [mem_singleton.mp hx]
      exact .inr (.inr ⟨rfl, by rw [hpopping, hq]; rfl⟩)

/-- What a step takes off and adds. -/
theorem step_leaves {e : Event J} (hs : step s e = some s') : Leaves s s' e := by
  rcases e with ⟨p, job⟩ | p | p | p | job | _ | _
  · rcases hp : s.producers p with _ | _ | _ <;> simp only [step, hp, reduceCtorEq] at hs
    rcases hover : s.chan.overflow with _ | _ | _ <;> simp only [hover] at hs <;>
      rw [← some.inj hs]
    · exact .same rfl rfl (.inl rfl)
    · exact .returned s { s with issued := s.issued + 1 } rfl rfl rfl rfl
        (IngestChannel.offer_spec s.chan (s.issued, job)) _
    · exact .returned s { s with issued := s.issued + 1 } rfl rfl rfl rfl
        (IngestChannel.pushDroppingOldest_spec s.chan (s.issued, job) hover) _
  · rcases hp : s.producers p with _ | job | _ <;> simp only [step, hp, reduceCtorEq] at hs
    have ho := IngestChannel.offer_spec s.chan job
    rcases hout : s.chan.offer job with ⟨c, out⟩
    rw [hout] at ho hs
    rcases out with _ | job' | _ <;> rw [← some.inj hs]
    · exact .returned s (s.setProducer p .idle) rfl rfl rfl rfl ho _
    · exact .same rfl rfl (.inl rfl)
    · exact .returned s (s.setProducer p .idle) rfl rfl rfl rfl ho _
  · rcases hp : s.producers p with _ | _ | job <;> simp only [step, hp, reduceCtorEq] at hs
    rw [← some.inj hs]
    exact .same rfl rfl (.inl rfl)
  · rw [← some.inj hs]
    exact .same rfl rfl (.inl rfl)
  · simp only [step, IngestChannel.trySend] at hs
    rcases hover : s.chan.overflow with _ | _ | _ <;> simp only [hover] at hs <;>
      rw [← some.inj hs]
    · exact .returned s { s with issued := s.issued + 1 } rfl rfl rfl rfl
        (IngestChannel.offer_spec s.chan (s.issued, job)) _
    · exact .returned s { s with issued := s.issued + 1 } rfl rfl rfl rfl
        (IngestChannel.offer_spec s.chan (s.issued, job)) _
    · exact .returned s { s with issued := s.issued + 1 } rfl rfl rfl rfl
        (IngestChannel.pushDroppingOldest_spec s.chan (s.issued, job) hover) _
  · rw [← some.inj hs]
    exact .same rfl rfl (.inl rfl)
  · rcases hw : s.worker with _ | _ | _ | _ | _ <;> simp only [step, hw, reduceCtorEq] at hs <;>
      rw [← some.inj hs]
    · exact Leaves.drain (.inl hw)
    · exact .same rfl rfl (.inr rfl)
    · exact Leaves.drain (.inr hw)
    · exact .same rfl rfl (.inr rfl)

/-- The worker comes to its end in a step that pops nothing. -/
theorem popping_of_exited (hs : step s .work = some s') (hw : s'.worker = .exited) : s.popping = none := by
  rcases hold : s.worker with _ | _ | _ | _ | _ <;> simp only [step, hold, reduceCtorEq] at hs
  · rcases hq : s.chan.q with _ | ⟨job, rest⟩
    · simp only [Sys.popping, hold, hq, head?_nil]
    · obtain ⟨c', hpop, -⟩ := IngestChannel.pop_of_cons hq
      rw [← some.inj hs, Sys.drain, hpop] at hw
      exact absurd (hold.symm.trans hw) (by decide)
  · simp only [Sys.popping, hold]
  · rcases hq : s.chan.q with _ | ⟨job, rest⟩
    · simp only [Sys.popping, hold, hq, head?_nil]
    · obtain ⟨c', hpop, -⟩ := IngestChannel.pop_of_cons hq
      rw [← some.inj hs, Sys.drain, hpop] at hw
      exact absurd (hold.symm.trans hw) (by decide)
  · simp only [Sys.popping, hold]

/-- Once it is there, it stays there. -/
theorem step_exited {e : Event J} (hs : step s e = some s') (hw : s.worker = .exited) : s'.worker = .exited := by
  rcases (step_leaves hs).worker with h | rfl
  · exact h.trans hw
  · simp only [step, hw, reduceCtorEq] at hs

/-! ## Exactly once -/

/-- What becomes of the jobs. -/
structure ExactlyOnce (capacity : ℕ) (s : Sys J) : Prop where
  /-- The accepted jobs, in the order of acceptance, are those that left the queue, in the order in
  which they left, and then those that wait. -/
  accounted : s.accepted = s.gone.map Prod.fst ++ s.chan.q
  once : s.accepted.Nodup
  popped : (leftAs .popped s.gone).Sublist s.accepted
  fates : (leftAs .popped s.gone).Disjoint (leftAs .evicted s.gone)
  dropped : s.chan.dropped = UInt64.ofNat (leftAs .evicted s.gone).length
  evicted : leftAs .evicted s.gone ≠ [] → s.chan.overflow = .dropOldest
  refused : ∀ x ∈ s.refused, x ∉ s.accepted ∧ x ∉ leftAs .popped s.gone
  depth : s.chan.depth ≤ max capacity 1
  drained : s.worker = .exited → s.chan.closed = true ∧ s.accepted = s.gone.map Prod.fst

/-- Each accepted job is in one place. -/
theorem Inv.exactlyOnce {capacity : ℕ} (h : Inv (max capacity 1) s) :
    ExactlyOnce capacity s where
  accounted := h.accounted.order
  once := h.nodup
  popped := h.accounted.sublist_entered .popped
  fates := h.accounted.leftAs_disjoint h.nodup (by decide)
  dropped := h.dropped
  evicted := h.evicts
  refused x hx := by
    obtain ⟨hnot, -⟩ := h.refused x hx
    exact ⟨hnot, fun hp => hnot ((h.accounted.sublist_entered .popped).subset hp)⟩
  depth := h.capacity ▸ s.chan.depth_le
  drained hw := by
    refine ⟨h.closed (.inr hw), ?_⟩
    rw [h.accounted.order, h.empty hw, append_nil]

/-- **The channel loses and duplicates nothing**, whatever the capacity and the policy, in every
interleaving of any number of producers, the worker and calls of `close`. -/
theorem exactly_once (capacity : ℕ) (overflow : Overflow) (es : List (Event J)) (s : Sys J)
    (hrun : run step (Sys.init capacity overflow) es = some s) : ExactlyOnce capacity s :=
  (run_invariant (Inv (max capacity 1)) (fun _ _ _ h hs => step_inv h hs)
    (inv_init capacity overflow) hrun).exactlyOnce

/-- Three sends into a queue of two under `dropOldest`, a pop, a close, a refused send, and the
worker's last steps. -/
def evictAndClose : List (Event ℕ) :=
  [.send 0 10, .send 1 20, .trySend 30, .work, .close, .send 2 40, .work, .work, .work, .work]

theorem exactly_once_evictAndClose :
    ∃ s : Sys ℕ, run step (Sys.init 2 .dropOldest) evictAndClose = some s ∧
      leftAs .popped s.gone = [(1, 20), (2, 30)] ∧ leftAs .evicted s.gone = [(0, 10)] ∧
      s.refused = [(3, 40)] ∧ s.worker = .exited ∧ ExactlyOnce 2 s := by
  obtain ⟨s, hrun, hrest⟩ : ∃ s : Sys ℕ, run step (Sys.init 2 .dropOldest) evictAndClose = some s ∧
      leftAs .popped s.gone = [(1, 20), (2, 30)] ∧ leftAs .evicted s.gone = [(0, 10)] ∧
      s.refused = [(3, 40)] ∧ s.worker = .exited := ⟨_, rfl, rfl, rfl, rfl, rfl⟩
  obtain ⟨hpopped, hevicted, hrefused, hworker⟩ := hrest
  exact ⟨s, hrun, hpopped, hevicted, hrefused, hworker, exactly_once 2 .dropOldest _ s hrun⟩

/-! ## The worker's end -/

/-- How many steps the worker has before it, but for the jobs. -/
def Worker.left : Worker → ℕ
  | .exited => 0
  | .finalDrain => 1
  | .checking => 2
  | .draining => 3
  | .waiting => 4

/-- The steps that the worker of a closed channel has before it. -/
def Sys.left (s : Sys J) : ℕ := s.chan.q.length + s.worker.left

/-- Is this a step of the worker? -/
def Event.ofWorker : Event J → Bool
  | .work => true
  | _ => false

/-- What a step does when the channel is closed. -/
structure Winds (s s' : Sys J) (e : Event J) : Prop where
  closed : s'.chan.closed = true
  accepted : s'.accepted = s.accepted
  evicted : leftAs .evicted s'.gone = leftAs .evicted s.gone
  left : s'.left + (if e.ofWorker then 1 else 0) ≤ s.left

theorem IngestChannel.offer_of_closed {c : IngestChannel J} (h : c.closed = true) (job : J) :
    c.offer job = (c, .closed) := if_pos h

theorem IngestChannel.pushDroppingOldest_of_closed {c : IngestChannel J} (h : c.closed = true) (job : J) :
    c.pushDroppingOldest job = (c, .closed) := if_pos h

/-- A drain of a closed channel brings the worker nearer to its end. -/
theorem Winds.drain {next : Worker} (hclosed : s.chan.closed = true) (hnext : next.left < s.worker.left) :
    Winds s (s.drain next) .work := by
  unfold Sys.drain
  rcases hq : s.chan.q with _ | ⟨job, rest⟩
  · rw [IngestChannel.pop_of_nil hq]
    exact ⟨hclosed, rfl, rfl, Nat.add_lt_add_left hnext _⟩
  · obtain ⟨c', hpop, hq', hclosed', -⟩ := IngestChannel.pop_of_cons hq
    rw [hpop]
    refine ⟨hclosed'.trans hclosed, rfl, leftAs_concat_ne (by simp) _ _, ?_⟩
    show c'.q.length + s.worker.left + 1 ≤ s.chan.q.length + s.worker.left
    rw [hq, hq', length_cons]
    omega

/-- On a closed channel, the worker's steps come to an end, and nobody else gives it more of them. -/
theorem step_winds {e : Event J} (hclosed : s.chan.closed = true) (hs : step s e = some s') : Winds s s' e := by
  have hoffer := IngestChannel.offer_of_closed hclosed
  have hpush := IngestChannel.pushDroppingOldest_of_closed hclosed
  rcases e with ⟨p, job⟩ | p | p | p | job | _ | _
  · rcases hp : s.producers p with _ | _ | _ <;> simp only [step, hp, reduceCtorEq] at hs
    rcases hover : s.chan.overflow with _ | _ | _ <;> simp only [hover, hoffer, hpush] at hs
    all_goals exact some.inj hs ▸ ⟨hclosed, rfl, rfl, le_rfl⟩
  · rcases hp : s.producers p with _ | job | _ <;> simp only [step, hp, reduceCtorEq, hoffer] at hs
    exact some.inj hs ▸ ⟨hclosed, rfl, rfl, le_rfl⟩
  · rcases hp : s.producers p with _ | _ | job <;> simp only [step, hp, reduceCtorEq] at hs
    exact some.inj hs ▸ ⟨hclosed, rfl, rfl, le_rfl⟩
  · exact some.inj hs ▸ ⟨hclosed, rfl, rfl, le_rfl⟩
  · simp only [step, IngestChannel.trySend] at hs
    rcases hover : s.chan.overflow with _ | _ | _ <;> simp only [hover, hoffer, hpush] at hs
    all_goals exact some.inj hs ▸ ⟨hclosed, rfl, rfl, le_rfl⟩
  · exact some.inj hs ▸ ⟨rfl, rfl, rfl, le_rfl⟩
  · rcases hw : s.worker with _ | _ | _ | _ | _ <;> simp only [step, hw, reduceCtorEq] at hs <;>
      rw [← some.inj hs]
    · exact .drain hclosed (by rw [hw]; exact Nat.lt_succ_self 2)
    · refine ⟨hclosed, rfl, rfl, ?_⟩
      rw [Sys.left, Sys.left, hclosed, hw]
      exact le_rfl
    · exact .drain hclosed (by rw [hw]; exact Nat.zero_lt_one)
    · refine ⟨hclosed, rfl, rfl, ?_⟩
      rw [Sys.left, Sys.left, hw]
      exact le_rfl

/-- A run on a closed channel. -/
theorem run_winds {fs : List (Event J)} (hclosed : s.chan.closed = true) (hrun : run step s fs = some s') :
    s'.accepted = s.accepted ∧ leftAs .evicted s'.gone = leftAs .evicted s.gone ∧
      s'.left + fs.countP Event.ofWorker ≤ s.left := by
  induction fs generalizing s with
  | nil =>
    obtain rfl := some.inj hrun
    exact ⟨rfl, rfl, le_rfl⟩
  | cons e fs ih =>
    obtain ⟨m, hstep, hrest⟩ := run_cons_eq_some.mp hrun
    have hwinds := step_winds hclosed hstep
    obtain ⟨haccepted, hevicted, hleft⟩ := ih hwinds.closed hrest
    refine ⟨haccepted.trans hwinds.accepted, hevicted.trans hwinds.evicted, ?_⟩
    have hone := hwinds.left
    rw [countP_cons]
    omega

/-- A worker that is not at its end has a step. -/
theorem exists_work (hw : s.worker ≠ .exited) : ∃ s', step s .work = some s' := by
  rcases hold : s.worker with _ | _ | _ | _ | _ <;> simp only [step, hold]
  · exact ⟨_, rfl⟩
  · exact ⟨_, rfl⟩
  · exact ⟨_, rfl⟩
  · exact ⟨_, rfl⟩
  · exact absurd hold hw

/-- **A closed channel is drained in a bounded number of the worker's steps**, however the producers and other calls of
`close` come between them: nothing more is accepted or evicted, the worker always has a step until it is at its end,
it has at most four more than there were jobs, and at its end every accepted job has been popped or had been evicted
before. -/
theorem close_drains (capacity : ℕ) (overflow : Overflow) (es fs : List (Event J)) (s s' : Sys J)
    (hrun : run step (Sys.init capacity overflow) es = some s) (hclosed : s.chan.closed = true)
    (hrest : run step s fs = some s') :
    s'.accepted = s.accepted ∧ leftAs .evicted s'.gone = leftAs .evicted s.gone ∧
      fs.countP Event.ofWorker ≤ s.chan.q.length + 4 ∧
      (fs.countP Event.ofWorker = s.chan.q.length + 4 → s'.worker = .exited) ∧
      (s'.worker ≠ .exited → ∃ s'', step s' .work = some s'') ∧
      (s'.worker = .exited → s'.chan.q = [] ∧ s.accepted = s'.gone.map Prod.fst) := by
  obtain ⟨haccepted, hevicted, hleft⟩ := run_winds hclosed hrest
  have hinv : Inv (max capacity 1) s' := by
    have hwhole : run step (Sys.init capacity overflow) (es ++ fs) = some s' := by
      rw [run_append, hrun]
      exact hrest
    exact run_invariant (Inv (max capacity 1)) (fun _ _ _ h hs => step_inv h hs) (inv_init capacity overflow) hwhole
  have hstage : s.worker.left ≤ 4 := by rcases s.worker <;> simp [Worker.left]
  have htotal : s'.chan.q.length + s'.worker.left + fs.countP Event.ofWorker ≤ s.chan.q.length + s.worker.left := hleft
  refine ⟨haccepted, hevicted, by omega, fun hall => ?_, exists_work, fun hw => ?_⟩
  · have hzero : s'.worker.left = 0 := by omega
    rcases hw : s'.worker with _ | _ | _ | _ | _ <;> rw [hw] at hzero <;> first | rfl | cases hzero
  · refine ⟨hinv.empty hw, ?_⟩
    rw [← haccepted, hinv.accounted.order, hinv.empty hw, append_nil]

theorem close_drains_evictAndClose : ∃ s s' : Sys ℕ,
    run step (Sys.init 2 .dropOldest) (evictAndClose.take 5) = some s ∧ s.chan.q.length = 1 ∧
      run step s (evictAndClose.drop 5) = some s' ∧ s'.worker = .exited ∧ s.accepted = s'.gone.map Prod.fst := by
  obtain ⟨s, s', hrun, hclosed, hlen, hrest, hw⟩ : ∃ s s' : Sys ℕ,
      run step (Sys.init 2 .dropOldest) (evictAndClose.take 5) = some s ∧ s.chan.closed = true ∧
        s.chan.q.length = 1 ∧ run step s (evictAndClose.drop 5) = some s' ∧ s'.worker = .exited :=
    ⟨_, _, rfl, rfl, rfl, rfl, rfl⟩
  have hall := close_drains 2 .dropOldest _ _ s s' hrun hclosed hrest
  exact ⟨s, s', hrun, hlen, hrest, hw, (hall.2.2.2.2.2 hw).2⟩

end Imbh.Ingest
