import Mathlib.Algebra.Order.Group.Multiset
import Mathlib.Tactic.Abel
import Imbh.Lib.Keyed
import Imbh.Lib.Runs
import Imbh.Storage.Inner

/-!
# Ingest and the seals in flight

`Storage::seal` takes the lock twice: once to freeze the buffers, once to register the segments it
wrote in between, or to hand the batches back when the write failed. The lock is free in between,
so that any number of seals may be in flight. A step of the engine is one of these sections.

A seal is named by its caller. `accepted` and `retained` are kept by no code: the rows each table
took from ingest calls, and those that `retain` dropped.
-/

namespace Imbh.Storage

open Lib List Option Function

variable {D P : Type}

/-- How far a seal is: it writes its segments, has to register them, or has to reclaim the log. -/
inductive Stage (D : Type)
  | write
  | register (written : Table → List (Segment D))
  | reclaim

/-- A seal in flight: what its freeze took, and how far it is.
Source: `lib.rs` `Storage::seal`, its locals -/
structure SealCall (D P : Type) where
  sealGen : ℕ
  batches : Buffers D P
  takenBytes : ℕ
  watermark : ℕ
  stage : Stage D

/-- What a freeze takes.
Source: `lib.rs` `Storage::seal`, the locals of the freeze -/
def SealCall.frozen (i : Inner D P) : SealCall D P :=
  ⟨i.nextSealGen, i.buffers, i.bufferBytes, i.bufferMaxLsn, .write⟩

/-- The batches of the seal are staged. -/
def SealCall.Staged (x : SealCall D P) : Prop := x.stage ≠ .reclaim

/-- The store and the calls on it. -/
structure Engine (D P : Type) where
  inner : Inner D P
  promote : P
  seals : ℕ → Option (SealCall D P)
  accepted : Table → List (Row D)
  retained : Table → List (Row D)

/-- What happens to the engine. `appended` is whether the append to the log succeeds and `fails`
says of which tables the encoding does; the seal of a call freezes, writes (`ok` or not, to files
of the given paths), registers (and then persists the manifest or not) and reclaims (`ok` or
not). -/
inductive Event (D : Type)
  | ingest (appended : Bool) (req : Request D) (fails : Table → Bool)
  | freeze (call : ℕ)
  | write (call : ℕ) (ok : Bool) (path : Table → ℕ)
  | register (call : ℕ) (persisted : Bool)
  | reclaim (call : ℕ) (ok : Bool)
  | retain (drop : ℕ → Bool)

/-- The rows of a segment list that `retain` drops. -/
def droppedRows (drop : ℕ → Bool) (ss : List (Segment D)) : List (Row D) :=
  segmentRows (ss.filter fun s => drop s.relativePath)

namespace Engine

/-- An open store, with the segments its manifest lists and the batches it replayed. -/
def opened (promote : P) (inner : Inner D P) : Engine D P where
  inner := { inner with sealing := [] }
  promote := promote
  seals := fun _ => none
  accepted := fun t => batchRows (inner.buffers t) ++ segmentRows (inner.segments t)
  retained := fun _ => []

/-- Assign the LSN, append to the log, push the rows. A failed append uses the LSN up.
Source: `lib.rs` `wal_append_assign`, `ingest`, `ingest_traces`, `ingest_metrics` -/
def ingest (appended : Bool) (req : Request D) (fails : Table → Bool) (s : Engine D P) :
    Engine D P :=
  let lsn := s.inner.nextLsn
  let inner := { s.inner with nextLsn := lsn + 1 }
  if appended then
    { s with
      inner := (Inner.pushRequest s.promote fails lsn req { inner with bufferMaxLsn := lsn }).1
      accepted := fun t => s.accepted t ++ groupRows (encoded fails (req.groups lsn)) t }
  else { s with inner := inner }

/-- The freeze; with nothing buffered the call returns.
Source: `lib.rs` `Storage::seal`, the freeze -/
def freeze (c : ℕ) (s : Engine D P) : Engine D P :=
  if s.inner.buffersEmpty then s
  else
    { s with
      inner := s.inner.freeze
      seals := update s.seals c (some (.frozen s.inner)) }

@[simp] theorem freeze_retained (s : Engine D P) (c : ℕ) : (s.freeze c).retained = s.retained := by
  unfold freeze
  split <;> rfl

@[simp] theorem freeze_accepted (s : Engine D P) (c : ℕ) : (s.freeze c).accepted = s.accepted := by
  unfold freeze
  split <;> rfl

/-- The write succeeded.
Source: `lib.rs` `Storage::seal`, `written` -/
def wrote (c : ℕ) (path : Table → ℕ) (x : SealCall D P) (s : Engine D P) : Engine D P :=
  { s with
    seals := update s.seals c
      (some { x with stage := .register (writeSegments path x.batches) }) }

/-- The write failed: the batches go back and the call returns.
Source: `lib.rs` `Storage::seal`, the error path -/
def failed (c : ℕ) (x : SealCall D P) (s : Engine D P) : Engine D P :=
  { s with
    inner := s.inner.handBack x.sealGen x.batches x.takenBytes
    seals := update s.seals c none }

/-- Register, persist the manifest; when that fails the call returns.
Source: `lib.rs` `Storage::seal`, the registration -/
def registered (c : ℕ) (x : SealCall D P) (written : Table → List (Segment D)) (persisted : Bool)
    (s : Engine D P) : Engine D P :=
  { s with
    inner := s.inner.register x.sealGen written x.watermark
    seals := update s.seals c
      (if persisted then some { x with stage := .reclaim } else none) }

/-- The call returns, its reclaim done. -/
def returned (c : ℕ) (s : Engine D P) : Engine D P :=
  { s with seals := update s.seals c none }

/-- Source: `lib.rs` `Storage::retain` -/
def retain (drop : ℕ → Bool) (s : Engine D P) : Engine D P :=
  { s with
    inner := s.inner.retain drop
    retained := fun t => s.retained t ++ droppedRows drop (s.inner.segments t) }

/-- One step. A seal is enabled in its order; a call makes one seal at a time. -/
def step (s : Engine D P) : Event D → Option (Engine D P)
  | .ingest appended req fails => some (s.ingest appended req fails)
  | .freeze c =>
      match s.seals c with
      | none => some (s.freeze c)
      | some _ => none
  | .write c ok path =>
      match s.seals c with
      | none => none
      | some x =>
          match x.stage with
          | .write => some (if ok then s.wrote c path x else s.failed c x)
          | _ => none
  | .register c persisted =>
      match s.seals c with
      | none => none
      | some x =>
          match x.stage with
          | .register written => some (s.registered c x written persisted)
          | _ => none
  | .reclaim c _ =>
      match s.seals c with
      | none => none
      | some x =>
          match x.stage with
          | .reclaim => some (s.returned c)
          | _ => none
  | .retain drop => some (s.retain drop)

/-! ## What a step can do -/

/-- The steps, each with the stage it is taken in. -/
inductive StepFrom (s : Engine D P) : Event D → Engine D P → Prop
  | ingest (appended req fails) : StepFrom s (.ingest appended req fails)
      (s.ingest appended req fails)
  | freeze (c) (hc : s.seals c = none) : StepFrom s (.freeze c) (s.freeze c)
  | wrote (c path x) (hc : s.seals c = some x) (hx : x.stage = .write) :
      StepFrom s (.write c true path) (s.wrote c path x)
  | failed (c path x) (hc : s.seals c = some x) (hx : x.stage = .write) :
      StepFrom s (.write c false path) (s.failed c x)
  | registered (c persisted x written) (hc : s.seals c = some x)
      (hx : x.stage = .register written) :
      StepFrom s (.register c persisted) (s.registered c x written persisted)
  | reclaimed (c ok x) (hc : s.seals c = some x) (hx : x.stage = .reclaim) :
      StepFrom s (.reclaim c ok) (s.returned c)
  | retain (drop) : StepFrom s (.retain drop) (s.retain drop)

theorem stepFrom_of_step {s s' : Engine D P} {e : Event D} (h : step s e = some s') :
    StepFrom s e s' := by
  rcases e with ⟨appended, req, fails⟩ | c | ⟨c, ok, path⟩ | ⟨c, persisted⟩ | ⟨c, ok⟩ | drop
  · rw [← some.inj h]
    exact .ingest appended req fails
  · rcases hc : s.seals c with _ | x <;> simp only [step, hc, reduceCtorEq] at h
    rw [← some.inj h]
    exact .freeze c hc
  · rcases hc : s.seals c with _ | x <;> simp only [step, hc, reduceCtorEq] at h
    rcases hst : x.stage with _ | written | _ <;> simp only [hst, reduceCtorEq] at h
    rw [← some.inj h]
    cases ok
    · exact .failed c path x hc hst
    · exact .wrote c path x hc hst
  · rcases hc : s.seals c with _ | x <;> simp only [step, hc, reduceCtorEq] at h
    rcases hst : x.stage with _ | written | _ <;> simp only [hst, reduceCtorEq] at h
    rw [← some.inj h]
    exact .registered c persisted x written hc hst
  · rcases hc : s.seals c with _ | x <;> simp only [step, hc, reduceCtorEq] at h
    rcases hst : x.stage with _ | written | _ <;> simp only [hst, reduceCtorEq] at h
    rw [← some.inj h]
    exact .reclaimed c ok x hc hst
  · rw [← some.inj h]
    exact .retain drop

variable {c : ℕ}

theorem step_freeze {s s' : Engine D P} (h : step s (.freeze c) = some s') : s.seals c = none ∧ s' = s.freeze c := by
  cases stepFrom_of_step h with
  | freeze _ hc => exact ⟨hc, rfl⟩

theorem step_failed {s s' : Engine D P} {path : Table → ℕ} (h : step s (.write c false path) = some s') :
    ∃ x, s.seals c = some x ∧ x.stage = .write ∧ s' = s.failed c x := by
  cases stepFrom_of_step h with
  | failed _ _ x hc hx => exact ⟨x, hc, hx, rfl⟩

theorem step_register {s s' : Engine D P} {persisted : Bool} (h : step s (.register c persisted) = some s') :
    ∃ x written, s.seals c = some x ∧ x.stage = .register written ∧
      s' = s.registered c x written persisted := by
  cases stepFrom_of_step h with
  | registered _ _ x written hc hx => exact ⟨x, written, hc, hx, rfl⟩

theorem step_reclaim {s s' : Engine D P} {ok : Bool} (h : step s (.reclaim c ok) = some s') :
    ∃ x, s.seals c = some x ∧ x.stage = .reclaim ∧ s' = s.returned c := by
  cases stepFrom_of_step h with
  | reclaimed _ _ x hc hx => exact ⟨x, hc, hx, rfl⟩

/-- What an ingest adds: rows behind the buffers, all encoded under the keys in force. -/
theorem ingest_eq (appended : Bool) (req : Request D) (fails : Table → Bool) (s : Engine D P) :
    ∃ added bytes,
      s.ingest appended req fails =
        { s with
          inner := ({ s.inner with
            nextLsn := s.inner.nextLsn + 1
            bufferMaxLsn := if appended then s.inner.nextLsn else s.inner.bufferMaxLsn } :
              Inner D P).grow added bytes
          accepted := fun t => s.accepted t ++ batchRows (added t) } ∧
      (∀ t, batchRows (added t) =
        if appended then groupRows (encoded fails (req.groups s.inner.nextLsn)) t else []) ∧
      ∀ t, ∀ b ∈ added t, b.promote = s.promote := by
  cases appended with
  | false =>
      refine ⟨fun _ => [], 0, ?_, fun _ => rfl, fun t b hb => ?_⟩
      · simp [ingest, Inner.grow]
      · cases hb
  | true =>
      obtain ⟨bytes, hpush⟩ := Inner.pushRequest_encoder s.promote fails s.inner.nextLsn req
      refine ⟨_, bytes, ?_, fun t => batchRows_groupBatches s.promote _ t,
        fun t b => promote_of_mem_groupBatches⟩
      simp [ingest, hpush, batchRows_groupBatches]

/-! ## The seals in flight -/

/-- The staged entries are those of the seals in flight, under distinct generations, and what a
seal wrote are the rows of its batches. -/
structure Inv (s : Engine D P) : Prop where
  nodup : (s.inner.sealing.map Prod.fst).Nodup
  fresh : ∀ e ∈ s.inner.sealing, e.1 < s.inner.nextSealGen
  staged : ∀ c x, s.seals c = some x → x.Staged → (x.sealGen, x.batches) ∈ s.inner.sealing
  own : ∀ c c' x y, s.seals c = some x → s.seals c' = some y → x.Staged → y.Staged →
    x.sealGen = y.sealGen → c = c'
  wrote : ∀ c x written, s.seals c = some x → x.stage = .register written →
    ∀ t, (segmentRows (written t)).Perm (batchRows (x.batches t))

variable {s s' : Engine D P} {x : SealCall D P}

/-- The invariant reads the staged entries, the generation counter and the seals only. -/
theorem Inv.congr (hi : Inv s) (hsealing : s'.inner.sealing = s.inner.sealing)
    (hgen : s'.inner.nextSealGen = s.inner.nextSealGen) (hseals : s'.seals = s.seals) :
    Inv s' where
  nodup := by simpa only [hsealing] using hi.nodup
  fresh := by simpa only [hsealing, hgen] using hi.fresh
  staged := by simpa only [hsealing, hseals] using hi.staged
  own := by simpa only [hseals] using hi.own
  wrote := by simpa only [hseals] using hi.wrote

/-- A seal in flight that is staged is not staged under the next generation. -/
theorem Inv.sealGen_lt (hi : Inv s) (hc : s.seals c = some x) (hx : x.Staged) : x.sealGen < s.inner.nextSealGen :=
  hi.fresh _ (hi.staged c x hc hx)

/-- Changing one seal of the map. -/
theorem update_eq_some {seals : ℕ → Option (SealCall D P)} {c' : ℕ} {y : Option (SealCall D P)}
    (h : update seals c y c' = some x) : (c' = c ∧ y = some x) ∨ (c' ≠ c ∧ seals c' = some x) := by
  by_cases hc : c' = c
  · subst hc
    rw [update_self] at h
    exact .inl ⟨rfl, h⟩
  · rw [update_of_ne hc] at h
    exact .inr ⟨hc, h⟩

theorem Inv.freeze (hi : Inv s) (c : ℕ) : Inv (s.freeze c) := by
  unfold Engine.freeze
  split
  · exact hi
  have hlt : ∀ c' x, s.seals c' = some x → x.Staged → x.sealGen ≠ s.inner.nextSealGen :=
    fun c' x hc' hx => (hi.sealGen_lt hc' hx).ne
  refine ⟨?_, ?_, ?_, ?_, ?_⟩
  · show ((s.inner.sealing ++ [(s.inner.nextSealGen, s.inner.buffers)]).map Prod.fst).Nodup
    rw [map_append, map_singleton, nodup_append]
    refine ⟨hi.nodup, nodup_singleton _, ?_⟩
    intro a ha b hb
    obtain ⟨e, he, rfl⟩ := mem_map.mp ha
    rw [mem_singleton.mp hb]
    exact (hi.fresh e he).ne
  · intro e he
    show e.1 < s.inner.nextSealGen + 1
    rcases mem_append.mp he with he | he
    · exact Nat.lt_succ_of_lt (hi.fresh e he)
    · rw [mem_singleton.mp he]
      exact Nat.lt_succ_self _
  · intro c' x hx hst
    rcases update_eq_some hx with ⟨rfl, hy'⟩ | ⟨-, hx'⟩
    · rw [← some.inj hy']
      exact mem_append_right _ mem_cons_self
    · exact mem_append_left _ (hi.staged c' x hx' hst)
  · intro c₁ c₂ x y hx hy hxst hyst heq
    rcases update_eq_some hx with ⟨rfl, hx'⟩ | ⟨-, hx'⟩ <;>
      rcases update_eq_some hy with ⟨rfl, hy'⟩ | ⟨-, hy'⟩
    · rfl
    · rw [← some.inj hx'] at heq
      exact absurd heq.symm (hlt c₂ y hy' hyst)
    · rw [← some.inj hy'] at heq
      exact absurd heq (hlt c₁ x hx' hxst)
    · exact hi.own c₁ c₂ x y hx' hy' hxst hyst heq
  · intro c' x written hx hst
    rcases update_eq_some hx with ⟨rfl, hy'⟩ | ⟨-, hx'⟩
    · rw [← some.inj hy'] at hst
      cases hst
    · exact hi.wrote c' x written hx' hst

theorem Inv.wrote_write (hi : Inv s) (hc : s.seals c = some x) (hx : x.stage = .write) (path : Table → ℕ) :
    Inv (s.wrote c path x) := by
  have hst : x.Staged := by simp [SealCall.Staged, hx]
  refine ⟨hi.nodup, hi.fresh, ?_, ?_, ?_⟩
  · intro c' y hy hyst
    rcases update_eq_some hy with ⟨rfl, hy'⟩ | ⟨-, hy'⟩
    · rw [← some.inj hy']
      exact hi.staged c' x hc hst
    · exact hi.staged c' y hy' hyst
  · intro c₁ c₂ y z hy hz hyst hzst heq
    rcases update_eq_some hy with ⟨rfl, hy'⟩ | ⟨-, hy'⟩ <;>
      rcases update_eq_some hz with ⟨rfl, hz'⟩ | ⟨-, hz'⟩
    · rfl
    · rw [← some.inj hy'] at heq
      exact hi.own c₁ c₂ x z hc hz' hst hzst heq
    · rw [← some.inj hz'] at heq
      exact hi.own c₁ c₂ y x hy' hc hyst hst heq
    · exact hi.own c₁ c₂ y z hy' hz' hyst hzst heq
  · intro c' y written hy hyst
    rcases update_eq_some hy with ⟨rfl, hy'⟩ | ⟨-, hy'⟩
    · rw [← some.inj hy'] at hyst ⊢
      cases hyst
      exact writeSegments_perm path x.batches
    · exact hi.wrote c' y written hy' hyst

/-- A seal leaves the staged entries: what is left are the entries of the others. -/
theorem Inv.unstage (hi : Inv s) (hc : s.seals c = some x) (hx : x.Staged) {y : Option (SealCall D P)}
    (hy : ∀ z, y = some z → z.stage = .reclaim)
    (hsealing : s'.inner.sealing = s.inner.sealing.filter (·.1 ≠ x.sealGen))
    (hgen : s'.inner.nextSealGen = s.inner.nextSealGen) (hseals : s'.seals = update s.seals c y) : Inv s' := by
  refine ⟨?_, ?_, ?_, ?_, ?_⟩
  · rw [hsealing]
    exact nodup_map_filter hi.nodup _
  · intro e he
    rw [hsealing] at he
    rw [hgen]
    exact hi.fresh e (mem_of_mem_filter he)
  · intro c' z hz hzst
    rw [hseals] at hz
    rcases update_eq_some hz with ⟨rfl, hz'⟩ | ⟨hne, hz'⟩
    · exact absurd (hy z hz') hzst
    · have hgen : z.sealGen ≠ x.sealGen := fun h => hne (hi.own c' c z x hz' hc hzst hx h)
      rw [hsealing]
      exact mem_filter.mpr ⟨hi.staged c' z hz' hzst, by simpa using hgen⟩
  · intro c₁ c₂ z w hz hw hzst hwst heq
    rw [hseals] at hz hw
    rcases update_eq_some hz with ⟨rfl, hz'⟩ | ⟨-, hz'⟩
    · exact absurd (hy z hz') hzst
    rcases update_eq_some hw with ⟨rfl, hw'⟩ | ⟨-, hw'⟩
    · exact absurd (hy w hw') hwst
    · exact hi.own c₁ c₂ z w hz' hw' hzst hwst heq
  · intro c' z written hz hzst
    rw [hseals] at hz
    rcases update_eq_some hz with ⟨rfl, hz'⟩ | ⟨-, hz'⟩
    · rw [hy z hz'] at hzst
      cases hzst
    · exact hi.wrote c' z written hz' hzst

theorem Inv.failed (hi : Inv s) (hc : s.seals c = some x) (hx : x.Staged) : Inv (s.failed c x) :=
  hi.unstage hc hx (fun _ h => absurd h (by simp)) rfl rfl rfl

theorem Inv.registered (hi : Inv s) (hc : s.seals c = some x) (hx : x.Staged) (written : Table → List (Segment D))
    (persisted : Bool) : Inv (s.registered c x written persisted) := by
  refine hi.unstage hc hx ?_ rfl rfl rfl
  intro z hz
  split at hz
  · rw [← some.inj hz]
  · cases hz

theorem Inv.returned (hi : Inv s) (c : ℕ) (hc : ∀ x, s.seals c = some x → x.stage = .reclaim) :
    Inv (s.returned c) := by
  have hold : ∀ c' x, (s.returned c).seals c' = some x → s.seals c' = some x := by
    intro c' x hx
    rcases update_eq_some hx with ⟨rfl, hx'⟩ | ⟨-, hx'⟩
    · cases hx'
    · exact hx'
  refine ⟨hi.nodup, hi.fresh, ?_, ?_, ?_⟩
  · exact fun c' x hx => hi.staged c' x (hold c' x hx)
  · exact fun c₁ c₂ x y hx hy => hi.own c₁ c₂ x y (hold c₁ x hx) (hold c₂ y hy)
  · exact fun c' x written hx => hi.wrote c' x written (hold c' x hx)

theorem Inv.ingest (hi : Inv s) (appended : Bool) (req : Request D) (fails : Table → Bool) :
    Inv (s.ingest appended req fails) := by
  obtain ⟨added, bytes, heq, -, -⟩ := ingest_eq appended req fails s
  rw [heq]
  exact hi.congr rfl rfl rfl

theorem staged_of_write (h : x.stage = .write) : x.Staged := by
  simp [SealCall.Staged, h]

theorem staged_of_register {written : Table → List (Segment D)} (h : x.stage = .register written) : x.Staged := by
  simp [SealCall.Staged, h]

/-- **Every step keeps the invariant.** -/
theorem step_inv {e : Event D} (hi : Inv s) (h : step s e = some s') : Inv s' := by
  rcases stepFrom_of_step h with ⟨appended, req, fails⟩ | ⟨c, hc⟩ | ⟨c, path, x, hc, hx⟩ |
    ⟨c, path, x, hc, hx⟩ | ⟨c, persisted, x, written, hc, hx⟩ | ⟨c, ok, x, hc, hx⟩ | drop
  · exact hi.ingest appended req fails
  · exact hi.freeze c
  · exact hi.wrote_write hc hx path
  · exact hi.failed hc (staged_of_write hx)
  · exact hi.registered hc (staged_of_register hx) written persisted
  · apply hi.returned c
    intro y hy
    rw [← some.inj (hc.symm.trans hy)]
    exact hx
  · exact hi.congr rfl rfl rfl

theorem inv_opened (promote : P) (inner : Inner D P) : Inv (opened promote inner) where
  nodup := nodup_nil
  fresh := fun _ h => nomatch h
  staged := fun _ _ h => nomatch h
  own := fun _ _ _ _ h => nomatch h
  wrote := fun _ _ _ h => nomatch h

/-! ## Every row is in one home -/

/-- An ingest adds its rows. -/
theorem snapshotRows_ingest {added : Buffers D P} {bytes : ℕ} (i : Inner D P) (t : Table) :
    (snapshotRows (i.grow added bytes) t).Perm (snapshotRows i t ++ batchRows (added t)) := by
  rw [← Multiset.coe_eq_coe, snapshotRows_eq, snapshotRows_eq]
  simp only [Inner.grow, stagedRows, batchRows_append, ← Multiset.coe_add]
  abel

/-- What is in the snapshot does not depend on the counters. -/
theorem snapshotRows_ingest_grow {added : Buffers D P} {bytes maxLsn next : ℕ} (i : Inner D P)
    (t : Table) :
    (snapshotRows (({ i with
      nextLsn := next
      bufferMaxLsn := maxLsn } : Inner D P).grow added bytes) t).Perm
        (snapshotRows i t ++ batchRows (added t)) :=
  snapshotRows_ingest _ t

/-- A freeze moves the buffered rows to the staged entries. -/
theorem snapshotRows_freeze (s : Engine D P) (c : ℕ) (t : Table) :
    (snapshotRows (s.freeze c).inner t).Perm (snapshotRows s.inner t) := by
  unfold Engine.freeze
  split
  · exact Perm.refl _
  rw [← Multiset.coe_eq_coe, snapshotRows_eq, snapshotRows_eq]
  simp only [Inner.freeze, stagedRows, flatMap_append, flatMap_singleton, batchRows_nil,
    ← Multiset.coe_add, Multiset.coe_nil]
  abel

/-- The staged rows are those of one seal and of the others. -/
theorem Inv.stagedRows_perm (hi : Inv s) (hc : s.seals c = some x) (hx : x.Staged) (t : Table) :
    (stagedRows s.inner t).Perm (batchRows (x.batches t) ++
      (s.inner.sealing.filter (·.1 ≠ x.sealGen)).flatMap fun e => batchRows (e.2 t)) :=
  (perm_cons_filter_ne hi.nodup (hi.staged c x hc hx)).flatMap_right _

/-- A failed write moves its rows back to the buffers. -/
theorem Inv.snapshotRows_failed (hi : Inv s) (hc : s.seals c = some x) (hx : x.Staged) (t : Table) :
    (snapshotRows (s.failed c x).inner t).Perm (snapshotRows s.inner t) := by
  have hstaged := Multiset.coe_eq_coe.mpr (hi.stagedRows_perm hc hx t)
  rw [← Multiset.coe_eq_coe, snapshotRows_eq, snapshotRows_eq]
  simp only [Engine.failed, Inner.handBack, Inner.prependFront, batchRows_append,
    ← Multiset.coe_add] at hstaged ⊢
  rw [hstaged]
  simp only [stagedRows]
  abel

/-- A registration moves its rows to the segments. -/
theorem Inv.snapshotRows_registered (hi : Inv s) {written : Table → List (Segment D)} (hc : s.seals c = some x)
    (hx : x.stage = .register written) (persisted : Bool) (t : Table) :
    (snapshotRows (s.registered c x written persisted).inner t).Perm (snapshotRows s.inner t) := by
  have hstaged := Multiset.coe_eq_coe.mpr (hi.stagedRows_perm hc (staged_of_register hx) t)
  have hwrote := Multiset.coe_eq_coe.mpr (hi.wrote c x written hc hx t)
  rw [← Multiset.coe_eq_coe, snapshotRows_eq, snapshotRows_eq]
  simp only [Engine.registered, Inner.register, segmentRows_append, ← Multiset.coe_add]
    at hstaged ⊢
  rw [hstaged, hwrote]
  simp only [stagedRows]
  abel

/-- The rows of a segment list are those that are dropped and those that stay. -/
theorem segmentRows_perm_dropped (drop : ℕ → Bool) (ss : List (Segment D)) :
    (segmentRows ss).Perm
      (droppedRows drop ss ++ segmentRows (ss.filter fun g => !drop g.relativePath)) := by
  unfold droppedRows
  rw [← segmentRows_append]
  exact (filter_append_perm _ _).symm.flatMap_right _

/-- `retain` takes the rows of the segments it drops. -/
theorem snapshotRows_retain (s : Engine D P) (drop : ℕ → Bool) (t : Table) :
    (snapshotRows (s.retain drop).inner t ++ droppedRows drop (s.inner.segments t)).Perm
      (snapshotRows s.inner t) := by
  have hsplit := Multiset.coe_eq_coe.mpr (segmentRows_perm_dropped drop (s.inner.segments t))
  rw [← Multiset.coe_eq_coe, snapshotRows_eq, snapshotRows_eq]
  simp only [Engine.retain, Inner.retain, ← Multiset.coe_add] at hsplit ⊢
  rw [hsplit]
  simp only [stagedRows]
  abel

/-- Every accepted row is in the snapshot once, or was dropped by `retain`. -/
def RowsOnce (s : Engine D P) : Prop :=
  ∀ t, (snapshotRows s.inner t ++ s.retained t).Perm (s.accepted t)

theorem RowsOnce.ingest (hr : RowsOnce s) (appended : Bool) (req : Request D)
    (fails : Table → Bool) : RowsOnce (s.ingest appended req fails) := by
  obtain ⟨added, bytes, heq, -, -⟩ := ingest_eq appended req fails s
  intro t
  rw [heq]
  refine ((snapshotRows_ingest _ t).append_right _).trans ?_
  rw [append_assoc]
  refine (perm_append_comm.append_left _).trans ?_
  rw [← append_assoc]
  exact (hr t).append_right _

theorem RowsOnce.retain (hr : RowsOnce s) (drop : ℕ → Bool) : RowsOnce (s.retain drop) := by
  intro t
  refine Perm.trans ?_ (hr t)
  refine Perm.trans ?_ ((snapshotRows_retain s drop t).append_right _)
  rw [append_assoc]
  exact perm_append_comm.append_left _

/-- Every step keeps every row in one home. -/
theorem step_rowsOnce {e : Event D} (hi : Inv s) (hr : RowsOnce s) (h : step s e = some s') :
    RowsOnce s' := by
  rcases stepFrom_of_step h with ⟨appended, req, fails⟩ | ⟨c, hc⟩ | ⟨c, path, x, hc, hx⟩ |
    ⟨c, path, x, hc, hx⟩ | ⟨c, persisted, x, written, hc, hx⟩ | ⟨c, ok, x, hc, hx⟩ | drop
  · exact hr.ingest appended req fails
  · refine fun t => ((snapshotRows_freeze s c t).append_right _).trans ?_
    rw [freeze_retained, freeze_accepted]
    exact hr t
  · exact hr
  · exact fun t => ((hi.snapshotRows_failed hc (staged_of_write hx) t).append_right _).trans (hr t)
  · exact fun t => ((hi.snapshotRows_registered hc hx persisted t).append_right _).trans (hr t)
  · exact hr
  · exact hr.retain drop

/-- **A snapshot has every accepted row that was not retained, once**, in every run. -/
theorem run_rowsOnce {promote : P} {inner : Inner D P} {es : List (Event D)}
    (h : run step (opened promote inner) es = some s) : RowsOnce s := by
  refine (run_invariant (fun s => Inv s ∧ RowsOnce s) ?_ ?_ h).2
  · exact fun s e s' hs h => ⟨step_inv hs.1 h, step_rowsOnce hs.1 hs.2 h⟩
  · refine ⟨inv_opened promote inner, fun t => ?_⟩
    rw [snapshotRows_eq]
    simp [opened, stagedRows]

/-! ## LSNs -/

/-- Rows were stamped before the next LSN; what is buffered is at most `buffer_max_lsn`, and what a
seal took is something, and at most its watermark. -/
structure Stamped (s : Engine D P) : Prop where
  maxLsn : s.inner.bufferMaxLsn < s.inner.nextLsn
  below : ∀ t, ∀ row ∈ snapshotRows s.inner t, row.lsn < s.inner.nextLsn
  live : ∀ t, ∀ row ∈ batchRows (s.inner.buffers t), row.lsn ≤ s.inner.bufferMaxLsn
  taken : ∀ c x, s.seals c = some x → x.watermark ≤ s.inner.bufferMaxLsn ∧
    (∀ t, ∀ row ∈ batchRows (x.batches t), row.lsn ≤ x.watermark) ∧
      ∃ t, batchRows (x.batches t) ≠ []

theorem Stamped.ingest (hs : Stamped s) (appended : Bool) (req : Request D)
    (fails : Table → Bool) : Stamped (s.ingest appended req fails) := by
  obtain ⟨added, bytes, heq, hrows, -⟩ := ingest_eq appended req fails s
  have hadded : ∀ t, ∀ row ∈ batchRows (added t), appended = true ∧ row.lsn = s.inner.nextLsn := by
    intro t row hrow
    rw [hrows t] at hrow
    split at hrow
    · rename_i ha
      exact ⟨ha, Request.lsn_of_mem_tagged (Request.mem_tagged_of_mem_encoded hrow)⟩
    · cases hrow
  have hmax : s.inner.bufferMaxLsn ≤
      if appended then s.inner.nextLsn else s.inner.bufferMaxLsn := by
    split
    · exact hs.maxLsn.le
    · exact le_rfl
  rw [heq]
  refine ⟨?_, ?_, ?_, ?_⟩
  · show (if appended then s.inner.nextLsn else s.inner.bufferMaxLsn) < s.inner.nextLsn + 1
    split
    · exact Nat.lt_succ_self _
    · exact Nat.lt_succ_of_lt hs.maxLsn
  · intro t row hrow
    show row.lsn < s.inner.nextLsn + 1
    rcases mem_append.mp ((snapshotRows_ingest _ t).mem_iff.mp hrow) with hrow | hrow
    · exact Nat.lt_succ_of_lt (hs.below t row hrow)
    · rw [(hadded t row hrow).2]
      exact Nat.lt_succ_self _
  · intro t row hrow
    simp only [Inner.grow, batchRows_append] at hrow
    rcases mem_append.mp hrow with hrow | hrow
    · exact (hs.live t row hrow).trans hmax
    · obtain ⟨ha, hlsn⟩ := hadded t row hrow
      show row.lsn ≤ if appended then s.inner.nextLsn else s.inner.bufferMaxLsn
      rw [if_pos ha, hlsn]
  · exact fun c x hc => ⟨(hs.taken c x hc).1.trans hmax, (hs.taken c x hc).2⟩

/-- Every step keeps the LSNs in order. -/
theorem step_stamped {e : Event D} (hi : Inv s) (hs : Stamped s) (h : step s e = some s') :
    Stamped s' := by
  rcases stepFrom_of_step h with ⟨appended, req, fails⟩ | ⟨c, hc⟩ | ⟨c, path, x, hc, hx⟩ |
    ⟨c, path, x, hc, hx⟩ | ⟨c, persisted, x, written, hc, hx⟩ | ⟨c, ok, x, hc, hx⟩ | drop
  · exact hs.ingest appended req fails
  · have hbelow : ∀ t, ∀ row ∈ snapshotRows (s.freeze c).inner t, row.lsn < s.inner.nextLsn :=
      fun t row hrow => hs.below t row ((snapshotRows_freeze s c t).mem_iff.mp hrow)
    by_cases hempty : s.inner.buffersEmpty = true
    · rw [freeze, if_pos hempty]
      exact hs
    rw [freeze, if_neg hempty] at hbelow ⊢
    refine ⟨hs.maxLsn, hbelow, fun t row hrow => absurd hrow not_mem_nil, ?_⟩
    intro c' y hy
    rcases update_eq_some hy with ⟨rfl, hy'⟩ | ⟨-, hy'⟩
    · rw [← some.inj hy']
      refine ⟨le_rfl, hs.live, ?_⟩
      by_contra hnone
      rw [not_exists] at hnone
      exact hempty (buffersEmpty_iff.mpr fun t => batchRows_eq_nil.mp (not_not.mp (hnone t)))
    · exact hs.taken c' y hy'
  · refine ⟨hs.maxLsn, hs.below, hs.live, ?_⟩
    intro c' y hy
    rcases update_eq_some hy with ⟨rfl, hy'⟩ | ⟨-, hy'⟩
    · rw [← some.inj hy']
      exact hs.taken c' x hc
    · exact hs.taken c' y hy'
  · refine ⟨hs.maxLsn, fun t row hrow => ?_, fun t row hrow => ?_, fun c' y hy => ?_⟩
    · exact hs.below t row
        ((hi.snapshotRows_failed hc (staged_of_write hx) t).mem_iff.mp hrow)
    · simp only [failed, Inner.handBack, Inner.prependFront, batchRows_append] at hrow
      rcases mem_append.mp hrow with hrow | hrow
      · exact ((hs.taken c x hc).2.1 t row hrow).trans (hs.taken c x hc).1
      · exact hs.live t row hrow
    · rcases update_eq_some hy with ⟨rfl, hy'⟩ | ⟨-, hy'⟩
      · cases hy'
      · exact hs.taken c' y hy'
  · refine ⟨hs.maxLsn, fun t row hrow => ?_, hs.live, fun c' y hy => ?_⟩
    · exact hs.below t row ((hi.snapshotRows_registered hc hx persisted t).mem_iff.mp hrow)
    · rcases update_eq_some hy with ⟨rfl, hy'⟩ | ⟨-, hy'⟩
      · split at hy'
        · rw [← some.inj hy']
          exact hs.taken c' x hc
        · cases hy'
      · exact hs.taken c' y hy'
  · refine ⟨hs.maxLsn, hs.below, hs.live, fun c' y hy => ?_⟩
    rcases update_eq_some hy with ⟨rfl, hy'⟩ | ⟨-, hy'⟩
    · cases hy'
    · exact hs.taken c' y hy'
  · refine ⟨hs.maxLsn, fun t row hrow => ?_, hs.live, hs.taken⟩
    exact hs.below t row ((snapshotRows_retain s drop t).mem_iff.mp (mem_append_left _ hrow))

end Engine

end Imbh.Storage
