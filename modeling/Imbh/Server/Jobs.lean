import Imbh.Lib.Keyed
import Imbh.Lib.Runs
import Imbh.Lib.Text

/-!
# The housekeeping registry

Submitted passes with their records, and a task for each that waits for the one permit, marks its record,
runs its pass and finishes the record.

* `registry_sound` — of every state that is reached: the records, their order and their ids, what a step may
  change, and what a coalesced submission waits for.

The counter of the ids is a number; that of the source has 64 bits, which is as good for fewer than 2^64 jobs.
-/

namespace Imbh.Server

open Lib List Option Function

/-- Source: `jobs.rs` `HISTORY` -/
def historyLimit : ℕ := 32

/-- Source: `jobs.rs` `JobState` -/
inductive JobState
  | queued
  | running
  | succeeded
  | failed
  deriving DecidableEq

/-- Source: `jobs.rs` `JobState::is_terminal` -/
def JobState.isTerminal : JobState → Bool
  | .succeeded | .failed => true
  | .queued | .running => false

/-- A state goes on: from queued to running, and from running to a terminal one. -/
inductive JobState.Moves : JobState → JobState → Prop
  | stays (state : JobState) : Moves state state
  | starts : Moves .queued .running
  | ends {state : JobState} (h : state.isTerminal = true) : Moves .running state

/-- Source: `jobs.rs` `Job` -/
structure Job (ν : Type) where
  id : Text
  state : JobState
  compact : Bool
  maxJobs : Option ℕ
  submittedUnixNano : ℤ
  startedUnixNano : Option ℤ
  finishedUnixNano : Option ℤ
  report : Option ν
  error : Option Text

/-- The records, a map that has each under its id, and the order of their submission. Source: `jobs.rs` `Jobs` -/
structure Jobs (ν : Type) where
  entries : List (Job ν)
  order : List Text
  next : ℕ

/-- Source: `jobs.rs` `Submission` -/
inductive Submission (ν : Type)
  | created (job : Job ν)
  | coalesced (job : Job ν)

/-- The id of a submission. Source: `jobs.rs` `Jobs::insert_unless_queued` -/
def jobId (nonce : UInt64) (n : ℕ) : Text := Nat.toDigits 16 nonce.toNat ++ '-' :: decimal n

section

variable {ν : Type} {id : Text}

def lookup (entries : List (Job ν)) (id : Text) : Option (Job ν) := entries.find? fun j => j.id = id

def remove (entries : List (Job ν)) (id : Text) : List (Job ν) := entries.filter fun j => j.id ≠ id

/-- While there are too many records, the oldest finished one is taken out. Source: `jobs.rs`
`Jobs::insert_unless_queued` -/
def evict : ℕ → List Text → List (Job ν) → List Text × List (Job ν)
  | 0, order, entries => (order, entries)
  | fuel + 1, order, entries =>
      if historyLimit < entries.length then
        match order.find? fun id => (lookup entries id).any fun j => j.state.isTerminal with
        | none => (order, entries)
        | some id => evict fuel (order.erase id) (remove entries id)
      else (order, entries)

/-- Source: `jobs.rs` `Jobs::insert_unless_queued` -/
def insertUnlessQueued (nonce : UInt64) (jobs : Jobs ν) (job : Job ν) : Submission ν × Jobs ν :=
  match jobs.order.reverse.findSome? fun id => (lookup jobs.entries id).filter fun candidate =>
      candidate.state = .queued ∧ candidate.compact = job.compact ∧ candidate.maxJobs = job.maxJobs with
  | some existing => (.coalesced existing, jobs)
  | none =>
      let job := { job with id := jobId nonce jobs.next }
      let kept := evict (jobs.entries.length + 1) (jobs.order ++ [job.id])
        (remove jobs.entries job.id ++ [job])
      (.created job, ⟨kept.2, kept.1, jobs.next + 1⟩)

/-- Source: `jobs.rs` `Jobs::update` -/
def Jobs.update (jobs : Jobs ν) (id : Text) (edit : Job ν → Job ν) : Jobs ν :=
  { jobs with entries := jobs.entries.map fun j => if j.id = id then edit j else j }

/-- Source: `jobs.rs` `Jobs::submit` -/
def Job.mark (now : ℤ) (job : Job ν) : Job ν := { job with state := .running, startedUnixNano := some now }

/-- Source: `jobs.rs` `Jobs::finish` -/
def Job.finish (now : ℤ) (outcome : Except Text ν) (job : Job ν) : Job ν :=
  match outcome with
  | .ok report =>
      { job with finishedUnixNano := some now, state := .succeeded, report := some report }
  | .error error => { job with finishedUnixNano := some now, state := .failed, error := some error }

/-- The record of a new submission. Source: `jobs.rs` `Jobs::submit` -/
def Job.new (compact : Bool) (maxJobs : Option ℕ) (now : ℤ) : Job ν :=
  ⟨[], .queued, compact, maxJobs, now, none, none, none, none⟩

/-! ## Tasks -/

/-- How far a spawned task is. It holds the permit from `granted` to `finished`. -/
inductive Stage
  | waiting
  | granted
  | marked
  | passing
  | finished
  | ended
  deriving DecidableEq

/-- A task, with the parameters that its pass is run with. -/
structure Task where
  compact : Bool
  maxJobs : Option ℕ
  stage : Stage
  deriving DecidableEq

/-- The registry with its tasks. `issued` are the ids of the submissions so far, and `passes` the passes
that were begun, with their parameters. -/
structure Registry (ν : Type) where
  jobs : Jobs ν
  permits : ℕ
  tasks : Text → Option Task
  issued : List Text
  passes : List (Text × Bool × Option ℕ)

def Registry.init : Registry ν := ⟨⟨[], [], 1⟩, 1, fun _ => none, [], []⟩

inductive RegistryEvent (ν : Type)
  | submit (compact : Bool) (maxJobs : Option ℕ) (now : ℤ)
  | grant (id : Text)
  | mark (id : Text) (now : ℤ)
  | pass (id : Text)
  | finish (id : Text) (now : ℤ) (outcome : Except Text ν)
  | release (id : Text)

/-- The task of the id goes from a stage to another one. -/
def Registry.advance (s : Registry ν) (id : Text) (before after : Stage) : Option (Task × Registry ν) :=
  match s.tasks id with
  | some task =>
      if task.stage = before then
        some (task, { s with tasks := update s.tasks id (some { task with stage := after }) })
      else none
  | none => none

/-- Source: `jobs.rs` `Jobs::submit` -/
def registryStep (nonce : UInt64) (s : Registry ν) : RegistryEvent ν → Option (Registry ν)
  | .submit compact maxJobs now =>
      match insertUnlessQueued nonce s.jobs (.new compact maxJobs now) with
      | (.coalesced _, _) => some s
      | (.created job, jobs) =>
          some { s with
            jobs := jobs
            tasks := update s.tasks job.id (some ⟨compact, maxJobs, .waiting⟩)
            issued := s.issued ++ [job.id] }
  | .grant id =>
      if 0 < s.permits then
        (s.advance id .waiting .granted).map fun r => { r.2 with permits := s.permits - 1 }
      else none
  | .mark id now =>
      (s.advance id .granted .marked).map fun r => { r.2 with jobs := s.jobs.update id (.mark now) }
  | .pass id =>
      (s.advance id .marked .passing).map fun r =>
        { r.2 with passes := s.passes ++ [(id, r.1.compact, r.1.maxJobs)] }
  | .finish id now outcome =>
      (s.advance id .passing .finished).map fun r =>
        { r.2 with jobs := s.jobs.update id (.finish now outcome) }
  | .release id =>
      (s.advance id .finished .ended).map fun r => { r.2 with permits := s.permits + 1 }

/-! ## Ids -/

theorem jobId_injective (nonce : UInt64) {m n : ℕ} (h : jobId nonce m = jobId nonce n) : m = n := by
  have hdecimal : decimal m = decimal n := (List.cons.inj (append_cancel_left h)).2
  have hparsed := congrArg parseDigits hdecimal
  rw [parseDigits_decimal, parseDigits_decimal] at hparsed
  exact some.inj hparsed

theorem lookup_eq_some {entries : List (Job ν)} {job : Job ν} (h : lookup entries id = some job) :
    job ∈ entries ∧ job.id = id := by
  refine ⟨mem_of_find?_eq_some h, ?_⟩
  simpa using find?_some h

/-- A record is found under its id. -/
theorem lookup_of_mem {entries : List (Job ν)} (hnodup : (entries.map Job.id).Nodup) {job : Job ν}
    (hjob : job ∈ entries) : lookup entries job.id = some job := by
  rcases hfound : lookup entries job.id with _ | found
  · have hne := find?_eq_none.mp hfound job hjob
    exact absurd (decide_eq_true rfl) hne
  · obtain ⟨hmem, hid⟩ := lookup_eq_some hfound
    rw [inj_on_of_nodup_map hnodup hmem hjob hid]

/-! ## Eviction -/

/-- Eviction takes out finished records, with their ids, until there is room or none is finished. -/
theorem evict_spec {fuel : ℕ} {order : List Text} {entries : List (Job ν)}
    (hnodup : (entries.map Job.id).Nodup) (horder : order.Perm (entries.map Job.id)) :
    (evict fuel order entries).2.Sublist entries ∧
      (∀ j ∈ entries, j.state.isTerminal = false → j ∈ (evict fuel order entries).2) ∧
      (evict fuel order entries).1.Perm ((evict fuel order entries).2.map Job.id) ∧
      (entries.length ≤ fuel → (evict fuel order entries).2.length ≤ historyLimit ∨
        ∀ j ∈ (evict fuel order entries).2, j.state.isTerminal = false) := by
  induction fuel generalizing order entries with
  | zero =>
    refine ⟨Sublist.refl _, fun j hj _ => hj, horder, ?_⟩
    intro hlength
    exact .inl (hlength.trans (Nat.zero_le _))
  | succ fuel ih =>
    rw [evict]
    split
    · split
      · rename_i hnone
        refine ⟨Sublist.refl _, fun j hj _ => hj, horder, ?_⟩
        intro _
        right
        intro j hj
        have hne := find?_eq_none.mp hnone j.id (horder.mem_iff.mpr (mem_map_of_mem hj))
        rw [lookup_of_mem hnodup hj] at hne
        exact eq_false_of_ne_true hne
      · rename_i id hsome
        have hfound := find?_some hsome
        obtain ⟨job, hlookup, hterminal⟩ := (any_eq_true _ _).mp hfound
        obtain ⟨hjob, hid⟩ := lookup_eq_some hlookup
        have hrest : ((remove entries id).map Job.id).Nodup := nodup_map_filter hnodup _
        have herase : (order.erase id).Perm ((remove entries id).map Job.id) := by
          have hcons : (entries.map Job.id).Perm (id :: (remove entries id).map Job.id) := by
            rw [← hid]
            exact (perm_cons_filter_ne hnodup hjob).map Job.id
          exact ((horder.trans hcons).erase id).trans (by rw [erase_cons_head])
        obtain ⟨hsub, hkept, hperm, hfew⟩ := ih hrest herase
        refine ⟨hsub.trans filter_sublist, ?_, hperm, ?_⟩
        · intro j hj hlive
          apply hkept j _ hlive
          refine mem_filter.mpr ⟨hj, decide_eq_true ?_⟩
          intro heq
          rw [inj_on_of_nodup_map hnodup hj hjob (heq.trans hid.symm), hterminal] at hlive
          exact Bool.false_ne_true hlive.symm
        · intro hlength
          apply hfew
          have hshort := (perm_cons_filter_ne hnodup hjob).length_eq
          rw [hid, length_cons] at hshort
          unfold remove
          omega
    · rename_i hroom
      exact ⟨Sublist.refl _, fun j hj _ => hj, horder, fun _ => .inl (not_lt.mp hroom)⟩

/-! ## Insertion -/

/-- What an insertion does: it finds a queued record with the parameters, or there is none and it records
the job under the next id. -/
theorem insertUnlessQueued_cases {nonce : UInt64} {jobs : Jobs ν} (job : Job ν)
    (horder : jobs.order.Perm (jobs.entries.map Job.id)) (hnodup : (jobs.entries.map Job.id).Nodup)
    (hnew : jobId nonce jobs.next ∉ jobs.entries.map Job.id) :
    (∃ existing ∈ jobs.entries, insertUnlessQueued nonce jobs job = (.coalesced existing, jobs) ∧
      existing.state = .queued ∧ existing.compact = job.compact ∧ existing.maxJobs = job.maxJobs) ∨
    ((∀ j ∈ jobs.entries, j.state = .queued → j.compact = job.compact → j.maxJobs ≠ job.maxJobs) ∧
      ∃ order entries, insertUnlessQueued nonce jobs job =
          (.created { job with id := jobId nonce jobs.next }, ⟨entries, order, jobs.next + 1⟩) ∧
        entries.Sublist (jobs.entries ++ [{ job with id := jobId nonce jobs.next }]) ∧
        (∀ j ∈ jobs.entries ++ [{ job with id := jobId nonce jobs.next }],
          j.state.isTerminal = false → j ∈ entries) ∧
        order.Perm (entries.map Job.id) ∧
        (entries.length ≤ historyLimit ∨ ∀ j ∈ entries, j.state.isTerminal = false)) := by
  unfold insertUnlessQueued
  split
  · rename_i existing hfound
    obtain ⟨id, -, hfilter⟩ := exists_of_findSome?_eq_some hfound
    obtain ⟨hlookup, hmatch⟩ := filter_eq_some_iff.mp hfilter
    exact .inl ⟨existing, (lookup_eq_some hlookup).1, rfl, by simpa using hmatch⟩
  · rename_i hnone
    refine .inr ⟨?_, ?_⟩
    · intro j hj hqueued hcompact hmaxJobs
      have hid : j.id ∈ jobs.order.reverse :=
        mem_reverse.mpr (horder.mem_iff.mpr (mem_map_of_mem hj))
      have hmiss := findSome?_eq_none_iff.mp hnone j.id hid
      rw [lookup_of_mem hnodup hj, filter_some, if_pos (by simp [hqueued, hcompact, hmaxJobs])] at hmiss
      cases hmiss
    · have hremove : remove jobs.entries (jobId nonce jobs.next) = jobs.entries := filter_ne_of_not_mem hnew
      have hnodup' : ((jobs.entries ++ [{ job with id := jobId nonce jobs.next }]).map Job.id).Nodup := by
        rw [map_append]
        apply Nodup.append hnodup (nodup_singleton _)
        intro id hid hid'
        rw [mem_singleton.mp hid'] at hid
        exact hnew hid
      have horder' : (jobs.order ++ [jobId nonce jobs.next]).Perm
          ((jobs.entries ++ [{ job with id := jobId nonce jobs.next }]).map Job.id) := by
        rw [map_append]
        exact horder.append_right _
      obtain ⟨hsub, hkept, hperm, hfew⟩ := @evict_spec _ (jobs.entries.length + 1) _ _ hnodup' horder'
      dsimp only
      rw [hremove]
      exact ⟨_, _, rfl, hsub, hkept, hperm, hfew (by simp)⟩

/-! ## The invariant -/

/-- The state of the record of a task at the stage. -/
def Stage.fits : Stage → JobState → Bool
  | .waiting, .queued | .granted, .queued => true
  | .marked, .running | .passing, .running => true
  | .finished, .succeeded | .finished, .failed | .ended, .succeeded | .ended, .failed => true
  | _, _ => false

/-- The task holds the permit. -/
def Stage.holds : Stage → Bool
  | .granted | .marked | .passing | .finished => true
  | .waiting | .ended => false

/-- The record of the task is not finished. -/
def Stage.live : Stage → Bool
  | .waiting | .granted | .marked | .passing => true
  | .finished | .ended => false

/-- The pass of the task was begun. -/
def Stage.begun : Stage → Bool
  | .passing | .finished | .ended => true
  | .waiting | .granted | .marked => false

/-- The records have distinct ids, in the order list too, and each has its task, at the stage of its
state; at most one task holds the permit. -/
structure RegistryInv (nonce : UInt64) (s : Registry ν) : Prop where
  nodup : (s.jobs.entries.map Job.id).Nodup
  order : s.jobs.order.Perm (s.jobs.entries.map Job.id)
  issuedNodup : s.issued.Nodup
  issuedBelow : ∀ id ∈ s.issued, ∃ n < s.jobs.next, id = jobId nonce n
  task : ∀ j ∈ s.jobs.entries, ∃ t, s.tasks j.id = some t ∧ t.compact = j.compact ∧ t.maxJobs = j.maxJobs ∧
    t.stage.fits j.state = true
  recorded : ∀ id t, s.tasks id = some t →
    id ∈ s.issued ∧ (t.stage.live = true → ∃ j ∈ s.jobs.entries, j.id = id)
  holder : ∀ id t id' t', s.tasks id = some t → s.tasks id' = some t' → t.stage.holds = true →
    t'.stage.holds = true → id = id'
  permit : s.permits ≤ 1 ∧ ∀ id t, s.tasks id = some t → t.stage.holds = true → s.permits = 0
  queued : ∀ a ∈ s.jobs.entries, ∀ b ∈ s.jobs.entries, a.state = .queued → b.state = .queued →
    a.compact = b.compact → a.maxJobs = b.maxJobs → a.id = b.id
  passed : ∀ p ∈ s.passes, ∃ t, s.tasks p.1 = some t ∧ t.compact = p.2.1 ∧ t.maxJobs = p.2.2 ∧
    t.stage.begun = true

theorem registry_init_inv (nonce : UInt64) : RegistryInv nonce (Registry.init : Registry ν) where
  nodup := .nil
  order := .nil
  issuedNodup := .nil
  issuedBelow _ h := absurd h not_mem_nil
  task _ h := absurd h not_mem_nil
  recorded _ _ h := absurd h (by simp [Registry.init])
  holder _ _ _ _ h := absurd h (by simp [Registry.init])
  permit := ⟨le_refl _, fun _ _ h => absurd h (by simp [Registry.init])⟩
  queued _ h := absurd h not_mem_nil
  passed _ h := absurd h not_mem_nil

variable {nonce : UInt64} {s s' : Registry ν} {e : RegistryEvent ν}

/-- The next id is new. -/
theorem RegistryInv.fresh (h : RegistryInv nonce s) : jobId nonce s.jobs.next ∉ s.issued := by
  intro hmem
  obtain ⟨n, hn, heq⟩ := h.issuedBelow _ hmem
  exact absurd (jobId_injective nonce heq) hn.ne'

/-- A record has an id that was issued. -/
theorem RegistryInv.issued_of_mem (h : RegistryInv nonce s) {j : Job ν} (hj : j ∈ s.jobs.entries) :
    j.id ∈ s.issued := by
  obtain ⟨t, ht, -⟩ := h.task j hj
  exact (h.recorded j.id t ht).1

theorem RegistryInv.fresh_entries (h : RegistryInv nonce s) :
    jobId nonce s.jobs.next ∉ s.jobs.entries.map Job.id := by
  intro hmem
  obtain ⟨j, hj, hid⟩ := mem_map.mp hmem
  exact h.fresh (hid ▸ h.issued_of_mem hj)

theorem advance_eq_some {before after : Stage} {r : Task × Registry ν} (h : s.advance id before after = some r) :
    s.tasks id = some r.1 ∧ r.1.stage = before ∧
      r.2 = { s with tasks := update s.tasks id (some { r.1 with stage := after }) } := by
  unfold Registry.advance at h
  split at h
  · rename_i task htask
    split at h
    · rename_i hstage
      cases h
      exact ⟨htask, hstage, rfl⟩
    · cases h
  · cases h

/-! ## Steps -/

/-- A new record is queued under the next id, with its task. -/
theorem created_inv {job : Job ν} {order : List Text} {entries : List (Job ν)} (h : RegistryInv nonce s)
    (hid : job.id = jobId nonce s.jobs.next) (hqueued : job.state = .queued)
    (hnone : ∀ j ∈ s.jobs.entries, j.state = .queued → j.compact = job.compact → j.maxJobs ≠ job.maxJobs)
    (hsub : entries.Sublist (s.jobs.entries ++ [job]))
    (hkept : ∀ j ∈ s.jobs.entries ++ [job], j.state.isTerminal = false → j ∈ entries)
    (hperm : order.Perm (entries.map Job.id)) :
    RegistryInv nonce { s with
      jobs := ⟨entries, order, s.jobs.next + 1⟩
      tasks := update s.tasks job.id (some ⟨job.compact, job.maxJobs, .waiting⟩)
      issued := s.issued ++ [job.id] } := by
  have hfresh : job.id ∉ s.issued := hid ▸ h.fresh
  -- The tasks that were there are not that of the new id.
  have hne : ∀ {id t}, s.tasks id = some t → id ≠ job.id := by
    rintro id t ht rfl
    exact hfresh (h.recorded _ t ht).1
  have hmem : ∀ j ∈ entries, j ∈ s.jobs.entries ∨ j = job := by
    intro j hj
    exact (mem_append.mp (hsub.subset hj)).imp_right mem_singleton.mp
  have htask : ∀ {id t}, update s.tasks job.id
      (some ⟨job.compact, job.maxJobs, .waiting⟩) id = some t → s.tasks id = some t ∨
      id = job.id ∧ t = ⟨job.compact, job.maxJobs, .waiting⟩ := by
    intro id t ht
    by_cases heq : id = job.id
    · rw [heq, update_self] at ht
      exact .inr ⟨heq, (some.inj ht).symm⟩
    · rw [update_of_ne heq] at ht
      exact .inl ht
  refine ⟨?_, hperm, ?_, ?_, ?_, ?_, ?_, ⟨h.permit.1, ?_⟩, ?_, ?_⟩
  · apply Nodup.sublist (hsub.map Job.id)
    rw [map_append]
    apply Nodup.append h.nodup (nodup_singleton _)
    intro id hmem' hid'
    rw [mem_singleton.mp hid', hid] at hmem'
    exact h.fresh_entries hmem'
  · apply Nodup.append h.issuedNodup (nodup_singleton _)
    intro id hmem' hid'
    rw [mem_singleton.mp hid'] at hmem'
    exact hfresh hmem'
  · intro id hmem'
    rcases mem_append.mp hmem' with hmem' | hmem'
    · obtain ⟨n, hn, heq⟩ := h.issuedBelow id hmem'
      exact ⟨n, Nat.lt_succ_of_lt hn, heq⟩
    · exact ⟨s.jobs.next, Nat.lt_succ_self _, (mem_singleton.mp hmem').trans hid⟩
  · intro j hj
    rcases hmem j hj with hj | rfl
    · obtain ⟨t, ht, hparams⟩ := h.task j hj
      exact ⟨t, (update_of_ne (hne ht) _ _).trans ht, hparams⟩
    · exact ⟨_, update_self _ _ _, rfl, rfl, by rw [hqueued]; rfl⟩
  · intro id t ht
    rcases htask ht with ht | ⟨rfl, rfl⟩
    · obtain ⟨hissued, hlive⟩ := h.recorded id t ht
      refine ⟨mem_append_left _ hissued, ?_⟩
      intro hstage
      obtain ⟨j, hj, rfl⟩ := hlive hstage
      obtain ⟨t', ht', -, -, hfits⟩ := h.task j hj
      rw [some.inj (ht'.symm.trans ht)] at hfits
      refine ⟨j, hkept j (mem_append_left _ hj) ?_, rfl⟩
      revert hstage hfits
      cases t.stage <;> cases j.state <;> simp [Stage.live, Stage.fits, JobState.isTerminal]
    · refine ⟨mem_append_right _ (mem_singleton_self _), ?_⟩
      intro _
      exact ⟨job, hkept job (mem_append_right _ (mem_singleton_self _)) (by rw [hqueued]; rfl), rfl⟩
  · intro id t id' t' ht ht' hholds hholds'
    rcases htask ht with ht | ⟨rfl, rfl⟩
    · rcases htask ht' with ht' | ⟨rfl, rfl⟩
      · exact h.holder id t id' t' ht ht' hholds hholds'
      · cases hholds'
    · cases hholds
  · intro id t ht hholds
    rcases htask ht with ht | ⟨rfl, rfl⟩
    · exact h.permit.2 id t ht hholds
    · cases hholds
  · intro a ha b hb haq hbq hcompact hmaxJobs
    rcases hmem a ha with hold | rfl
    · rcases hmem b hb with hold' | rfl
      · exact h.queued a hold b hold' haq hbq hcompact hmaxJobs
      · exact absurd hmaxJobs (hnone a hold haq hcompact)
    · rcases hmem b hb with hold' | rfl
      · exact absurd hmaxJobs.symm (hnone b hold' hbq hcompact.symm)
      · rfl
  · intro p hp
    obtain ⟨t, ht, hparams⟩ := h.passed p hp
    exact ⟨t, (update_of_ne (hne ht) _ _).trans ht, hparams⟩

/-- A task goes to its next stage, and its record is edited to fit. The holder of the permit is this task,
or there was none. -/
theorem advance_inv {t : Task} {before : Stage} {permits : ℕ} {passes : List (Text × Bool × Option ℕ)} (after : Stage)
    (edit : Job ν → Job ν) (h : RegistryInv nonce s) (ht : s.tasks id = some t) (hstage : t.stage = before)
    (hedit : ∀ j, (edit j).id = j.id ∧ (edit j).compact = j.compact ∧ (edit j).maxJobs = j.maxJobs)
    (hfits : ∀ j, before.fits j.state = true → after.fits (edit j).state = true ∧
      ((edit j).state = .queued → j.state = .queued))
    (hlive : after.live = true → before.live = true) (hbegun : before.begun = true → after.begun = true)
    (hsole : before.holds = true ∨ 0 < s.permits) (hpermits : permits ≤ 1 ∧ (after.holds = true → permits = 0))
    (hpasses : ∀ p ∈ passes, p ∈ s.passes ∨ p = (id, t.compact, t.maxJobs) ∧ after.begun = true) :
    RegistryInv nonce
      ⟨s.jobs.update id edit, permits, update s.tasks id (some { t with stage := after }),
        s.issued, passes⟩ := by
  have hids : (s.jobs.update id edit).entries.map Job.id = s.jobs.entries.map Job.id := by
    unfold Jobs.update
    rw [List.map_map]
    apply List.map_congr_left
    intro j _
    dsimp only [Function.comp_apply]
    split
    · exact (hedit j).1
    · rfl
  have hmem : ∀ j ∈ (s.jobs.update id edit).entries, ∃ j' ∈ s.jobs.entries,
      j'.id = j.id ∧ j'.compact = j.compact ∧ j'.maxJobs = j.maxJobs ∧
        (j.state = .queued → j'.state = .queued) ∧ (j.id ≠ id → j = j') ∧ (j.id = id → j = edit j') := by
    intro j hj
    obtain ⟨j', hj', rfl⟩ := List.mem_map.mp hj
    refine ⟨j', hj', ?_⟩
    split
    · rename_i hid
      obtain ⟨hid', hcompact, hmaxJobs⟩ := hedit j'
      refine ⟨hid'.symm, hcompact.symm, hmaxJobs.symm, ?_, fun hne => absurd (hid'.trans hid) hne,
        fun _ => rfl⟩
      obtain ⟨t', ht', -, -, hfit⟩ := h.task j' hj'
      rw [hid] at ht'
      rw [Option.some.inj (ht'.symm.trans ht), hstage] at hfit
      exact (hfits j' hfit).2
    · rename_i hid
      exact ⟨rfl, rfl, rfl, fun hq => hq, fun _ => rfl, fun heq => absurd heq hid⟩
  have htask : ∀ {id' t'}, update s.tasks id (some { t with stage := after }) id' = some t' →
      id' ≠ id ∧ s.tasks id' = some t' ∨ id' = id ∧ t' = { t with stage := after } := by
    intro id' t' ht'
    by_cases hid : id' = id
    · rw [hid, update_self] at ht'
      exact .inr ⟨hid, (Option.some.inj ht').symm⟩
    · rw [update_of_ne hid] at ht'
      exact .inl ⟨hid, ht'⟩
  -- Nobody else holds the permit.
  have hsole' : ∀ {id' t'}, id' ≠ id → s.tasks id' = some t' → t'.stage.holds ≠ true := by
    intro id' t' hne ht' hholds
    rcases hsole with hbefore | hfree
    · exact hne (h.holder id' t' id t ht' ht hholds (hstage ▸ hbefore))
    · exact absurd (h.permit.2 id' t' ht' hholds) hfree.ne'
  refine ⟨hids ▸ h.nodup, hids ▸ h.order, h.issuedNodup, h.issuedBelow, ?_, ?_, ?_,
    ⟨hpermits.1, ?_⟩, ?_, ?_⟩
  · intro j hj
    obtain ⟨j', hj', hid, hcompact, hmaxJobs, -, hother, hown⟩ := hmem j hj
    obtain ⟨t', ht', hcompact', hmaxJobs', hfit⟩ := h.task j' hj'
    by_cases heq : j.id = id
    · rw [hid, heq] at ht'
      rw [← Option.some.inj (ht.symm.trans ht')] at hcompact' hmaxJobs' hfit
      rw [hstage] at hfit
      refine ⟨{ t with stage := after }, ?_, hcompact'.trans hcompact, hmaxJobs'.trans hmaxJobs, ?_⟩
      · dsimp only
        rw [heq, update_self]
      · rw [hown heq]
        exact (hfits j' hfit).1
    · rw [hother heq]
      rw [hother heq] at heq
      exact ⟨t', (update_of_ne heq _ _).trans ht', hcompact', hmaxJobs', hfit⟩
  · intro id' t' ht'
    have hback : ∀ {id'}, (∃ j ∈ s.jobs.entries, j.id = id') →
        ∃ j ∈ (s.jobs.update id edit).entries, j.id = id' := by
      rintro id' ⟨j, hj, rfl⟩
      have hin : j.id ∈ (s.jobs.update id edit).entries.map Job.id := hids ▸ List.mem_map_of_mem hj
      exact List.mem_map.mp hin
    rcases htask ht' with ⟨-, ht'⟩ | ⟨rfl, rfl⟩
    · exact (h.recorded id' t' ht').imp_right fun hrecord hstage' => hback (hrecord hstage')
    · obtain ⟨hissued, hrecord⟩ := h.recorded id' t ht
      exact ⟨hissued, fun hstage' => hback (hrecord (hstage ▸ hlive hstage'))⟩
  · intro a ta b tb hta htb hholds hholds'
    rcases htask hta with ⟨hne, hta⟩ | ⟨rfl, -⟩
    · exact absurd hholds (hsole' hne hta)
    · rcases htask htb with ⟨hne, htb⟩ | ⟨rfl, -⟩
      · exact absurd hholds' (hsole' hne htb)
      · rfl
  · intro id' t' ht' hholds
    rcases htask ht' with ⟨hne, ht'⟩ | ⟨-, rfl⟩
    · exact absurd hholds (hsole' hne ht')
    · exact hpermits.2 hholds
  · intro a ha b hb haq hbq hcompact hmaxJobs
    obtain ⟨a', ha', haid, hac, ham, haq', -, -⟩ := hmem a ha
    obtain ⟨b', hb', hbid, hbc, hbm, hbq', -, -⟩ := hmem b hb
    rw [← haid, ← hbid]
    exact h.queued a' ha' b' hb' (haq' haq) (hbq' hbq) (hac.trans (hcompact.trans hbc.symm))
      (ham.trans (hmaxJobs.trans hbm.symm))
  · intro p hp
    rcases hpasses p hp with hp | ⟨rfl, hafter⟩
    · obtain ⟨t', ht', hcompact, hmaxJobs, hbegan⟩ := h.passed p hp
      by_cases heq : p.1 = id
      · rw [heq] at ht'
        rw [← Option.some.inj (ht.symm.trans ht')] at hcompact hmaxJobs hbegan
        rw [hstage] at hbegan
        refine ⟨{ t with stage := after }, ?_, hcompact, hmaxJobs, hbegun hbegan⟩
        dsimp only
        rw [heq, update_self]
      · exact ⟨t', (update_of_ne heq _ _).trans ht', hcompact, hmaxJobs, hbegan⟩
    · exact ⟨_, update_self _ _ _, rfl, rfl, hafter⟩

theorem update_self (jobs : Jobs ν) (id : Text) : jobs.update id (fun j => j) = jobs := by
  unfold Jobs.update
  simp only [ite_self, List.map_id']

/-- A submission coalesces and changes nothing, or it records a job. -/
theorem submit_cases {compact : Bool} {maxJobs : Option ℕ} {now : ℤ} (h : RegistryInv nonce s)
    (hstep : registryStep nonce s (.submit compact maxJobs now) = some s') :
    s' = s ∨ ∃ job order entries, job.id = jobId nonce s.jobs.next ∧ job.state = .queued ∧
      entries.Sublist (s.jobs.entries ++ [job]) ∧
      (∀ j ∈ s.jobs.entries ++ [job], j.state.isTerminal = false → j ∈ entries) ∧
      s' = { s with
        jobs := ⟨entries, order, s.jobs.next + 1⟩
        tasks := update s.tasks job.id (some ⟨job.compact, job.maxJobs, .waiting⟩)
        issued := s.issued ++ [job.id] } ∧
      RegistryInv nonce s' := by
  rw [registryStep] at hstep
  rcases insertUnlessQueued_cases (.new compact maxJobs now) h.order h.nodup h.fresh_entries with
    ⟨existing, -, hinsert, -⟩ | ⟨hnone, order, entries, hinsert, hsub, hkept, hperm, -⟩
  · rw [hinsert] at hstep
    exact .inl (some.inj hstep).symm
  · rw [hinsert] at hstep
    have heq := (some.inj hstep).symm
    refine .inr ⟨_, order, entries, rfl, rfl, hsub, hkept, heq, ?_⟩
    rw [heq]
    exact created_inv h rfl rfl hnone hsub hkept hperm

/-- A step of a task that keeps its record. -/
theorem advance_same_inv {t : Task} {before : Stage} {permits : ℕ} {passes : List (Text × Bool × Option ℕ)}
    (after : Stage) (h : RegistryInv nonce s) (ht : s.tasks id = some t) (hstage : t.stage = before)
    (hfits : ∀ state, before.fits state = true → after.fits state = true)
    (hlive : after.live = true → before.live = true) (hbegun : before.begun = true → after.begun = true)
    (hsole : before.holds = true ∨ 0 < s.permits) (hpermits : permits ≤ 1 ∧ (after.holds = true → permits = 0))
    (hpasses : ∀ p ∈ passes, p ∈ s.passes ∨ p = (id, t.compact, t.maxJobs) ∧ after.begun = true) :
    RegistryInv nonce
      ⟨s.jobs, permits, update s.tasks id (some { t with stage := after }), s.issued, passes⟩ := by
  have hinv := advance_inv after (fun j => j) h ht hstage (fun _ => ⟨rfl, rfl, rfl⟩)
    (fun j hj => ⟨hfits j.state hj, fun hq => hq⟩) hlive hbegun hsole hpermits hpasses
  rwa [update_self] at hinv

/-- Any other step takes a task to its next stage, and edits at most its record. -/
theorem task_step_cases (h : RegistryInv nonce s) (hsubmit : ∀ compact maxJobs now, e ≠ .submit compact maxJobs now)
    (hstep : registryStep nonce s e = some s') :
    ∃ id t stage edit, s.tasks id = some t ∧
      (∀ j : Job ν, (edit j).id = j.id ∧ (edit j).compact = j.compact ∧ (edit j).maxJobs = j.maxJobs) ∧
      (∀ j : Job ν, t.stage.fits j.state = true → j.state.Moves (edit j).state) ∧
      s'.jobs = s.jobs.update id edit ∧ s'.issued = s.issued ∧
      s'.tasks = update s.tasks id (some { t with stage := stage }) ∧ RegistryInv nonce s' := by
  cases e with
  | submit compact maxJobs now => exact absurd rfl (hsubmit compact maxJobs now)
  | grant id =>
    rw [registryStep] at hstep
    split at hstep
    · rename_i hfree
      obtain ⟨r, hr, rfl⟩ := map_eq_some_iff.mp hstep
      obtain ⟨ht, hstage, heq⟩ := advance_eq_some hr
      rw [heq]
      refine ⟨id, r.1, .granted, fun j => j, ht, fun _ => ⟨rfl, rfl, rfl⟩, fun _ _ => .stays _,
        (update_self _ _).symm, rfl, rfl, ?_⟩
      apply advance_same_inv .granted h ht hstage
      · intro state
        cases state <;> simp [Stage.fits]
      · exact fun _ => rfl
      · exact fun hbegun => absurd hbegun (by simp [Stage.begun])
      · exact .inr hfree
      · have hone := h.permit.1
        omega
      · exact fun p hp => .inl hp
    · cases hstep
  | mark id now =>
    obtain ⟨r, hr, rfl⟩ := map_eq_some_iff.mp hstep
    obtain ⟨ht, hstage, heq⟩ := advance_eq_some hr
    rw [heq]
    refine ⟨id, r.1, .marked, .mark now, ht, fun _ => ⟨rfl, rfl, rfl⟩, ?_, rfl, rfl, rfl, ?_⟩
    · intro j hj
      rw [hstage] at hj
      have hqueued : j.state = .queued := by
        revert hj
        cases j.state <;> simp [Stage.fits]
      rw [hqueued]
      exact .starts
    · apply advance_inv .marked (.mark now) h ht hstage (fun _ => ⟨rfl, rfl, rfl⟩)
      · exact fun j _ => ⟨rfl, fun hq => absurd hq (by simp [Job.mark])⟩
      · exact fun _ => rfl
      · exact fun hbegun => absurd hbegun (by simp [Stage.begun])
      · exact .inl rfl
      · exact ⟨h.permit.1, fun _ => h.permit.2 id r.1 ht (hstage ▸ rfl)⟩
      · exact fun p hp => .inl hp
  | pass id =>
    obtain ⟨r, hr, rfl⟩ := map_eq_some_iff.mp hstep
    obtain ⟨ht, hstage, heq⟩ := advance_eq_some hr
    rw [heq]
    refine ⟨id, r.1, .passing, fun j => j, ht, fun _ => ⟨rfl, rfl, rfl⟩, fun _ _ => .stays _,
      (update_self _ _).symm, rfl, rfl, ?_⟩
    apply advance_same_inv .passing h ht hstage
    · intro state
      cases state <;> simp [Stage.fits]
    · exact fun _ => rfl
    · exact fun _ => rfl
    · exact .inl rfl
    · exact ⟨h.permit.1, fun _ => h.permit.2 id r.1 ht (hstage ▸ rfl)⟩
    · intro p hp
      exact (mem_append.mp hp).imp_right fun hp => ⟨mem_singleton.mp hp, rfl⟩
  | finish id now outcome =>
    obtain ⟨r, hr, rfl⟩ := map_eq_some_iff.mp hstep
    obtain ⟨ht, hstage, heq⟩ := advance_eq_some hr
    rw [heq]
    have hedit : ∀ j : Job ν, (Job.finish now outcome j).id = j.id ∧
        (Job.finish now outcome j).compact = j.compact ∧ (Job.finish now outcome j).maxJobs = j.maxJobs := by
      intro j
      cases outcome <;> exact ⟨rfl, rfl, rfl⟩
    have hterminal : ∀ j : Job ν, (Job.finish now outcome j).state.isTerminal = true := by
      intro j
      cases outcome <;> rfl
    refine ⟨id, r.1, .finished, .finish now outcome, ht, hedit, ?_, rfl, rfl, rfl, ?_⟩
    · intro j hj
      rw [hstage] at hj
      have hrunning : j.state = .running := by
        revert hj
        cases j.state <;> simp [Stage.fits]
      rw [hrunning]
      exact .ends (hterminal j)
    · apply advance_inv .finished (.finish now outcome) h ht hstage hedit
      · intro j _
        have hend := hterminal j
        revert hend
        cases (Job.finish now outcome j).state <;> simp [Stage.fits, JobState.isTerminal]
      · exact fun hlive => absurd hlive (by simp [Stage.live])
      · exact fun _ => rfl
      · exact .inl rfl
      · exact ⟨h.permit.1, fun _ => h.permit.2 id r.1 ht (hstage ▸ rfl)⟩
      · exact fun p hp => .inl hp
  | release id =>
    obtain ⟨r, hr, rfl⟩ := map_eq_some_iff.mp hstep
    obtain ⟨ht, hstage, heq⟩ := advance_eq_some hr
    rw [heq]
    refine ⟨id, r.1, .ended, fun j => j, ht, fun _ => ⟨rfl, rfl, rfl⟩, fun _ _ => .stays _,
      (update_self _ _).symm, rfl, rfl, ?_⟩
    have hheld : s.permits = 0 := h.permit.2 id r.1 ht (hstage ▸ rfl)
    apply advance_same_inv .ended h ht hstage
    · intro state
      cases state <;> simp [Stage.fits]
    · exact fun hlive => absurd hlive (by simp [Stage.live])
    · exact fun _ => rfl
    · exact .inl rfl
    · exact ⟨by rw [hheld], fun hholds => absurd hholds (by simp [Stage.holds])⟩
    · exact fun p hp => .inl hp

theorem registry_step_inv (h : RegistryInv nonce s) (hstep : registryStep nonce s e = some s') :
    RegistryInv nonce s' := by
  by_cases hsubmit : ∃ compact maxJobs now, e = .submit compact maxJobs now
  · obtain ⟨compact, maxJobs, now, rfl⟩ := hsubmit
    rcases submit_cases h hstep with rfl | ⟨job, order, entries, -, -, -, -, -, hinv⟩
    · exact h
    · exact hinv
  · have hother : ∀ compact maxJobs now, e ≠ .submit compact maxJobs now :=
      fun compact maxJobs now heq => hsubmit ⟨compact, maxJobs, now, heq⟩
    obtain ⟨-, -, -, -, -, -, -, -, -, -, hinv⟩ := task_step_cases h hother hstep
    exact hinv

/-- What a step may change: a record goes on, or is new and queued; and one that is not finished stays. -/
theorem step_entries (h : RegistryInv nonce s) (hstep : registryStep nonce s e = some s') :
    (∀ b ∈ s'.jobs.entries, (∃ a ∈ s.jobs.entries, a.id = b.id ∧ a.compact = b.compact ∧
        a.maxJobs = b.maxJobs ∧ a.state.Moves b.state) ∨ b.id ∉ s.issued ∧ b.state = .queued) ∧
      ∀ a ∈ s.jobs.entries, a.state.isTerminal = false → ∃ b ∈ s'.jobs.entries, b.id = a.id := by
  by_cases hsubmit : ∃ compact maxJobs now, e = .submit compact maxJobs now
  · obtain ⟨compact, maxJobs, now, rfl⟩ := hsubmit
    rcases submit_cases h hstep with rfl | ⟨job, order, entries, hid, hqueued, hsub, hkept, rfl, -⟩
    · exact ⟨fun b hb => .inl ⟨b, hb, rfl, rfl, rfl, .stays _⟩, fun a ha _ => ⟨a, ha, rfl⟩⟩
    · constructor
      · intro b hb
        rcases mem_append.mp (hsub.subset hb) with hb | hb
        · exact .inl ⟨b, hb, rfl, rfl, rfl, .stays _⟩
        · rw [mem_singleton.mp hb, hid]
          exact .inr ⟨h.fresh, hqueued⟩
      · intro a ha hlive
        exact ⟨a, hkept a (mem_append_left _ ha) hlive, rfl⟩
  · have hother : ∀ compact maxJobs now, e ≠ .submit compact maxJobs now :=
      fun compact maxJobs now heq => hsubmit ⟨compact, maxJobs, now, heq⟩
    obtain ⟨id, t, stage, edit, ht, hedit, hmoves, hjobs, -, -, -⟩ := task_step_cases h hother hstep
    rw [hjobs]
    constructor
    · intro b hb
      obtain ⟨a, ha, rfl⟩ := mem_map.mp hb
      refine .inl ⟨a, ha, ?_⟩
      split
      · rename_i hid
        obtain ⟨hid', hcompact, hmaxJobs⟩ := hedit a
        refine ⟨hid'.symm, hcompact.symm, hmaxJobs.symm, hmoves a ?_⟩
        obtain ⟨t', ht', -, -, hfits⟩ := h.task a ha
        rw [hid] at ht'
        rwa [some.inj (ht'.symm.trans ht)] at hfits
      · exact ⟨rfl, rfl, rfl, .stays _⟩
    · intro a ha _
      refine ⟨_, mem_map_of_mem ha, ?_⟩
      split
      · exact (hedit a).1
      · rfl

/-- A task keeps its parameters. -/
theorem step_task (h : RegistryInv nonce s) (hstep : registryStep nonce s e = some s') {t : Task}
    (ht : s.tasks id = some t) : ∃ t', s'.tasks id = some t' ∧ t'.compact = t.compact ∧ t'.maxJobs = t.maxJobs := by
  by_cases hsubmit : ∃ compact maxJobs now, e = .submit compact maxJobs now
  · obtain ⟨compact, maxJobs, now, rfl⟩ := hsubmit
    rcases submit_cases h hstep with rfl | ⟨job, order, entries, hid, -, -, -, rfl, -⟩
    · exact ⟨t, ht, rfl, rfl⟩
    · have hne : id ≠ job.id := by
        rintro rfl
        exact h.fresh (hid ▸ (h.recorded _ t ht).1)
      exact ⟨t, (update_of_ne hne _ _).trans ht, rfl, rfl⟩
  · have hother : ∀ compact maxJobs now, e ≠ .submit compact maxJobs now :=
      fun compact maxJobs now heq => hsubmit ⟨compact, maxJobs, now, heq⟩
    obtain ⟨id', t', stage, edit, ht', -, -, -, -, htasks, -⟩ := task_step_cases h hother hstep
    rw [htasks]
    by_cases heq : id = id'
    · subst heq
      rw [Function.update_self]
      rw [← some.inj (ht.symm.trans ht')]
      exact ⟨_, rfl, rfl, rfl⟩
    · exact ⟨t, (update_of_ne heq _ _).trans ht, rfl, rfl⟩

/-- A task has a begun pass only with its parameters, in every state that is reached after. -/
theorem passes_of_run {es : List (RegistryEvent ν)} (h : RegistryInv nonce s) {t : Task} (ht : s.tasks id = some t)
    (hrun : run (registryStep nonce) s es = some s') : ∀ p ∈ s'.passes, p.1 = id → p.2 = (t.compact, t.maxJobs) := by
  have hkept : RegistryInv nonce s' ∧
      ∃ t', s'.tasks id = some t' ∧ t'.compact = t.compact ∧ t'.maxJobs = t.maxJobs := by
    refine run_invariant (fun s => RegistryInv nonce s ∧
      ∃ t', s.tasks id = some t' ∧ t'.compact = t.compact ∧ t'.maxJobs = t.maxJobs) ?_
      ⟨h, t, ht, rfl, rfl⟩ hrun
    rintro a e b ⟨ha, t', ht', hcompact, hmaxJobs⟩ hstep
    obtain ⟨t'', ht'', hcompact', hmaxJobs'⟩ := step_task ha hstep ht'
    exact ⟨registry_step_inv ha hstep, t'', ht'', hcompact'.trans hcompact, hmaxJobs'.trans hmaxJobs⟩
  obtain ⟨hinv, t', ht', hcompact, hmaxJobs⟩ := hkept
  intro p hp hid
  obtain ⟨t'', ht'', hcompact', hmaxJobs', -⟩ := hinv.passed p hp
  rw [hid] at ht''
  rw [some.inj (ht''.symm.trans ht')] at hcompact' hmaxJobs'
  exact Prod.ext (hcompact'.symm.trans hcompact) (hmaxJobs'.symm.trans hmaxJobs)

/-- At most one record is running. -/
theorem RegistryInv.running_unique (h : RegistryInv nonce s) :
    ∀ a ∈ s.jobs.entries, ∀ b ∈ s.jobs.entries, a.state = .running → b.state = .running → a.id = b.id := by
  intro a ha b hb harunning hbrunning
  obtain ⟨ta, hta, -, -, hafits⟩ := h.task a ha
  obtain ⟨tb, htb, -, -, hbfits⟩ := h.task b hb
  rw [harunning] at hafits
  rw [hbrunning] at hbfits
  have hholds : ∀ {stage : Stage}, stage.fits .running = true → stage.holds = true := by
    intro stage hfits
    revert hfits
    cases stage <;> simp [Stage.fits, Stage.holds]
  exact h.holder _ ta _ tb hta htb (hholds hafits) (hholds hbfits)

/-- A coalesced submission names a record whose pass is not begun. -/
theorem coalesced_spec {compact : Bool} {maxJobs : Option ℕ} {now : ℤ} {existing : Job ν} {jobs : Jobs ν}
    (h : RegistryInv nonce s)
    (hinsert : insertUnlessQueued nonce s.jobs (.new compact maxJobs now) = (.coalesced existing, jobs)) :
    existing ∈ s.jobs.entries ∧ (∀ p ∈ s.passes, p.1 ≠ existing.id) ∧
      s.tasks existing.id ∈ [Stage.waiting, Stage.granted].map fun stage => some ⟨compact, maxJobs, stage⟩ := by
  rcases insertUnlessQueued_cases (.new compact maxJobs now) h.order h.nodup h.fresh_entries with
    ⟨found, hfound, heq, hqueued, hcompact, hmaxJobs⟩ | ⟨-, order, entries, heq, -⟩
  · obtain rfl : found = existing := by
      rw [heq] at hinsert
      exact Submission.coalesced.inj (congrArg Prod.fst hinsert)
    obtain ⟨t, ht, hc, hm, hfits⟩ := h.task found hfound
    rw [hqueued] at hfits
    refine ⟨hfound, ?_, ?_⟩
    · intro p hp hid
      obtain ⟨t', ht', -, -, hbegun⟩ := h.passed p hp
      rw [hid] at ht'
      rw [some.inj (ht'.symm.trans ht)] at hbegun
      revert hfits hbegun
      cases t.stage <;> simp [Stage.fits, Stage.begun]
    · rw [ht]
      obtain ⟨c, m, stage⟩ := t
      dsimp only at hc hm hfits
      rw [show c = compact from hc.trans hcompact, show m = maxJobs from hm.trans hmaxJobs]
      revert hfits
      cases stage <;> simp [Stage.fits]
  · rw [heq] at hinsert
    exact absurd (congrArg Prod.fst hinsert) (by simp)

end

/-- Of every state that is reached: at most one record is running, no id was issued twice, no two queued
records have the same parameters, the order list has the ids of the records; a step only takes records on
and keeps those that are not finished; an insertion leaves room or no finished record; and the record of a
coalesced submission begins its pass later, with the parameters of the submission. -/
theorem registry_sound {ν : Type} {nonce : UInt64} {es : List (RegistryEvent ν)} {s : Registry ν}
    (hrun : run (registryStep nonce) .init es = some s) :
    (∀ a ∈ s.jobs.entries, ∀ b ∈ s.jobs.entries, a.state = .running → b.state = .running → a.id = b.id) ∧
      s.issued.Nodup ∧
      (∀ a ∈ s.jobs.entries, ∀ b ∈ s.jobs.entries, a.state = .queued → b.state = .queued →
        a.compact = b.compact → a.maxJobs = b.maxJobs → a.id = b.id) ∧
      (s.jobs.order.Nodup ∧ s.jobs.order.Perm (s.jobs.entries.map Job.id)) ∧
      (∀ e s', registryStep nonce s e = some s' →
        (∀ b ∈ s'.jobs.entries, (∃ a ∈ s.jobs.entries, a.id = b.id ∧ a.compact = b.compact ∧
            a.maxJobs = b.maxJobs ∧ a.state.Moves b.state) ∨ b.id ∉ s.issued ∧ b.state = .queued) ∧
          ∀ a ∈ s.jobs.entries, a.state.isTerminal = false → ∃ b ∈ s'.jobs.entries, b.id = a.id) ∧
      (∀ job created jobs, insertUnlessQueued nonce s.jobs job = (.created created, jobs) →
        jobs.entries.length ≤ historyLimit ∨ ∀ j ∈ jobs.entries, j.state.isTerminal = false) ∧
      ∀ compact maxJobs now existing jobs,
        insertUnlessQueued nonce s.jobs (.new compact maxJobs now) = (.coalesced existing, jobs) →
          (∀ p ∈ s.passes, p.1 ≠ existing.id) ∧
            ∀ later s', run (registryStep nonce) s later = some s' →
              ∀ p ∈ s'.passes, p.1 = existing.id → p.2 = (compact, maxJobs) := by
  have hinv : RegistryInv nonce s :=
    run_invariant (RegistryInv nonce) (fun _ _ _ h hstep => registry_step_inv h hstep)
      (registry_init_inv nonce) hrun
  refine ⟨hinv.running_unique, hinv.issuedNodup, hinv.queued,
    ⟨hinv.order.nodup_iff.mpr hinv.nodup, hinv.order⟩, fun e s' => step_entries hinv, ?_, ?_⟩
  · intro job created jobs hinsert
    rcases insertUnlessQueued_cases job hinv.order hinv.nodup hinv.fresh_entries with
      ⟨existing, -, heq, -⟩ | ⟨-, order, entries, heq, -, -, -, hfew⟩
    · rw [heq] at hinsert
      exact absurd (congrArg Prod.fst hinsert) (by simp)
    · rw [heq] at hinsert
      cases hinsert
      exact hfew
  · intro compact maxJobs now existing jobs hinsert
    obtain ⟨-, hpasses, htask⟩ := coalesced_spec hinv hinsert
    refine ⟨hpasses, ?_⟩
    intro later s' hlater
    obtain ⟨stage, -, ht⟩ := mem_map.mp htask
    exact passes_of_run hinv ht.symm hlater

/-- A pass runs, and two more submissions with its parameters are made: the first is queued, the second
coalesces. -/
theorem registry_sound_coalesce :
    ∃ s : Registry ℕ, run (registryStep 0) .init [.submit true none 1, .grant "0-1".toList,
        .mark "0-1".toList 2, .pass "0-1".toList, .submit true none 3, .submit true none 4] = some s ∧
      s.issued = ["0-1".toList, "0-2".toList] ∧ s.issued.Nodup := by
  obtain ⟨s, hs, hissued⟩ : ∃ s : Registry ℕ, run (registryStep 0) .init [.submit true none 1,
      .grant "0-1".toList, .mark "0-1".toList 2, .pass "0-1".toList, .submit true none 3,
      .submit true none 4] = some s ∧ s.issued = ["0-1".toList, "0-2".toList] :=
    ⟨_, rfl, rfl⟩
  exact ⟨s, hs, hissued, (registry_sound hs).2.1⟩

end Imbh.Server
