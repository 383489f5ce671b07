import Mathlib.Data.List.Induction
import Imbh.Storage.Engine

/-!
# A failed seal against a seal never attempted

A seal whose write fails hands its batches back in front of the buffers. The engine is then where
it would be without the attempt, whenever nothing froze in between; `effective` takes the freeze
and the failed write of each such attempt out of a run.

* `snapshot_once_and_failures_undone` — the result; `failures_in_order_reorder` is what happens
  when two seals fail in the order they froze in.
-/

namespace Imbh.Storage

open Lib List Option Function

variable {D P : Type}

/-- A seal without its generation. -/
def SealCall.anonymous (x : SealCall D P) : SealCall D P := { x with sealGen := 0 }

/-- The calls that froze, in order. -/
def freezes (es : List (Event D)) : List ℕ :=
  es.filterMap fun e =>
    match e with
    | .freeze c => some c
    | _ => none

/-- Is this a freeze of the call? -/
def Event.freezesFor (c : ℕ) : Event D → Bool
  | .freeze c' => c' = c
  | _ => false

/-- Take the last freeze of a call out. -/
def unfreeze (c : ℕ) (es : List (Event D)) : List (Event D) :=
  (es.reverse.eraseP (Event.freezesFor c)).reverse

/-- The run without the seals whose write failed. -/
def effective (es : List (Event D)) : List (Event D) :=
  es.foldl (fun kept e =>
    match e with
    | .write c false _ => unfreeze c kept
    | e => kept ++ [e]) []

/-- When a write fails, every seal that entered its freeze after the failing one has failed
already. -/
def FailuresNested (es : List (Event D)) : Prop :=
  ∀ i c path, es[i]? = some (.write c false path) →
    (freezes (effective (es.take i))).getLast? = some c

/-- A step that neither freezes, nor fails a write, nor belongs to the call. -/
def Event.Apart (c : ℕ) : Event D → Prop
  | .ingest .. | .retain _ => True
  | .freeze _ => False
  | .write c' ok _ => c' ≠ c ∧ ok = true
  | .register c' _ | .reclaim c' _ => c' ≠ c

namespace Engine

/-- States that differ in the generations of their seals only. The staged entries are those of
the seals, so that they are not compared. -/
structure Alike (s u : Engine D P) : Prop where
  buffers : s.inner.buffers = u.inner.buffers
  segments : s.inner.segments = u.inner.segments
  bufferBytes : s.inner.bufferBytes = u.inner.bufferBytes
  watermark : s.inner.watermark = u.inner.watermark
  bufferMaxLsn : s.inner.bufferMaxLsn = u.inner.bufferMaxLsn
  nextLsn : s.inner.nextLsn = u.inner.nextLsn
  promote : s.promote = u.promote
  seals : ∀ c, (s.seals c).map SealCall.anonymous = (u.seals c).map SealCall.anonymous
  accepted : s.accepted = u.accepted
  retained : s.retained = u.retained

/-- The buffers are as in the run without the failed seals. -/
def FailuresUndone (start : Engine D P) (es : List (Event D)) (s : Engine D P) : Prop :=
  ∃ s', run step start (effective es) = some s' ∧
    (∀ t, s.inner.buffers t = s'.inner.buffers t) ∧ s.inner.bufferBytes = s'.inner.bufferBytes

/-! ## Steps up to generations -/

variable {s s' u v : Engine D P} {es : List (Event D)} {x : SealCall D P} {c : ℕ} {e : Event D}

theorem Alike.refl (s : Engine D P) : Alike s s :=
  ⟨rfl, rfl, rfl, rfl, rfl, rfl, rfl, fun _ => rfl, rfl, rfl⟩

theorem Alike.trans (h : Alike s u) (h' : Alike u v) : Alike s v where
  buffers := h.buffers.trans h'.buffers
  segments := h.segments.trans h'.segments
  bufferBytes := h.bufferBytes.trans h'.bufferBytes
  watermark := h.watermark.trans h'.watermark
  bufferMaxLsn := h.bufferMaxLsn.trans h'.bufferMaxLsn
  nextLsn := h.nextLsn.trans h'.nextLsn
  promote := h.promote.trans h'.promote
  seals := fun c => (h.seals c).trans (h'.seals c)
  accepted := h.accepted.trans h'.accepted
  retained := h.retained.trans h'.retained

theorem Alike.symm (h : Alike s u) : Alike u s where
  buffers := h.buffers.symm
  segments := h.segments.symm
  bufferBytes := h.bufferBytes.symm
  watermark := h.watermark.symm
  bufferMaxLsn := h.bufferMaxLsn.symm
  nextLsn := h.nextLsn.symm
  promote := h.promote.symm
  seals := fun c => (h.seals c).symm
  accepted := h.accepted.symm
  retained := h.retained.symm

theorem Alike.seals_eq_none (h : Alike s u) (hc : s.seals c = none) : u.seals c = none := by
  have heq := h.seals c
  rw [hc, map_none] at heq
  exact map_eq_none_iff.mp heq.symm

theorem Alike.seals_eq_some (h : Alike s u) (hc : s.seals c = some x) :
    ∃ y, u.seals c = some y ∧ y.anonymous = x.anonymous := by
  have heq := h.seals c
  rw [hc, map_some] at heq
  exact map_eq_some_iff.mp heq.symm

/-- Changing the seal of one call alike. -/
theorem alike_update {seals seals' : ℕ → Option (SealCall D P)}
    (h : ∀ c, (seals c).map SealCall.anonymous = (seals' c).map SealCall.anonymous) (c : ℕ)
    {y z : Option (SealCall D P)}
    (hyz : y.map SealCall.anonymous = z.map SealCall.anonymous) (c' : ℕ) :
    (update seals c y c').map SealCall.anonymous =
      (update seals' c z c').map SealCall.anonymous := by
  by_cases hc : c' = c
  · subst hc
    rw [update_self, update_self]
    exact hyz
  · rw [update_of_ne hc, update_of_ne hc]
    exact h c'

/-- What an ingest does depends on the counters, the buffers and the keys only. -/
theorem Alike.ingest (h : Alike s u) (appended : Bool) (req : Request D) (fails : Table → Bool) :
    Alike (s.ingest appended req fails) (u.ingest appended req fails) := by
  cases appended with
  | false =>
      refine { h with nextLsn := ?_ }
      exact congrArg (· + 1) h.nextLsn
  | true =>
      obtain ⟨bytes, hpush⟩ := Inner.pushRequest_encoder u.promote fails u.inner.nextLsn req
      constructor <;>
        simp [Engine.ingest, hpush, Inner.grow, h.promote, h.nextLsn, h.buffers, h.bufferBytes,
          h.segments, h.watermark, h.accepted, h.retained, h.seals]

theorem Alike.freeze (h : Alike s u) (c : ℕ) : Alike (s.freeze c) (u.freeze c) := by
  have hempty : s.inner.buffersEmpty = u.inner.buffersEmpty := by
    unfold Inner.buffersEmpty
    rw [h.buffers]
  unfold Engine.freeze
  rw [hempty]
  split
  · exact h
  · refine { h with buffers := rfl, bufferBytes := rfl, seals := alike_update h.seals c ?_ }
    simp [SealCall.anonymous, SealCall.frozen, h.buffers, h.bufferBytes, h.bufferMaxLsn]

theorem Alike.failed (h : Alike s u) (c : ℕ) {y : SealCall D P} (hxy : y.anonymous = x.anonymous) :
    Alike (s.failed c x) (u.failed c y) := by
  obtain ⟨-, hbatches, hbytes, -, -⟩ := SealCall.mk.inj hxy
  refine { h with buffers := ?_, bufferBytes := ?_, seals := alike_update h.seals c rfl }
  · funext t
    show Inner.prependFront _ _ = Inner.prependFront _ _
    rw [h.buffers, hbatches]
  · show _ + _ = _ + _
    rw [h.bufferBytes, hbytes]

/-- **The generations do not matter to a step.** -/
theorem alike_step (h : Alike s u) (hstep : step s e = some s') : ∃ u', step u e = some u' ∧ Alike s' u' := by
  rcases stepFrom_of_step hstep with ⟨appended, req, fails⟩ | ⟨c, hc⟩ | ⟨c, path, x, hc, hx⟩ |
    ⟨c, path, x, hc, hx⟩ | ⟨c, persisted, x, written, hc, hx⟩ | ⟨c, ok, x, hc, hx⟩ | drop
  · exact ⟨_, rfl, h.ingest appended req fails⟩
  · refine ⟨u.freeze c, ?_, h.freeze c⟩
    simp only [Engine.step, h.seals_eq_none hc]
  · obtain ⟨y, hy, hyx⟩ := h.seals_eq_some hc
    obtain ⟨-, hbatches, hbytes, hwm, hstage⟩ := SealCall.mk.inj hyx
    refine ⟨u.wrote c path y, ?_, { h with seals := alike_update h.seals c ?_ }⟩
    · simp only [Engine.step, hy, hstage.trans hx, if_true]
    · simp [SealCall.anonymous, hbatches, hbytes, hwm]
  · obtain ⟨y, hy, hyx⟩ := h.seals_eq_some hc
    obtain ⟨-, -, -, -, hstage⟩ := SealCall.mk.inj hyx
    refine ⟨u.failed c y, ?_, h.failed c hyx⟩
    simp [Engine.step, hy, hstage.trans hx]
  · obtain ⟨y, hy, hyx⟩ := h.seals_eq_some hc
    obtain ⟨-, hbatches, hbytes, hwm, hstage⟩ := SealCall.mk.inj hyx
    refine ⟨u.registered c y written persisted, ?_,
      { h with segments := ?_, watermark := hwm.symm, seals := alike_update h.seals c ?_ }⟩
    · simp only [Engine.step, hy, hstage.trans hx]
    · funext t
      show _ ++ _ = _ ++ _
      rw [h.segments]
    · cases persisted <;> simp [SealCall.anonymous, hbatches, hbytes, hwm]
  · obtain ⟨y, hy, hyx⟩ := h.seals_eq_some hc
    obtain ⟨-, -, -, -, hstage⟩ := SealCall.mk.inj hyx
    refine ⟨u.returned c, ?_, { h with seals := alike_update h.seals c rfl }⟩
    simp only [Engine.step, hy, hstage.trans hx]
  · refine ⟨u.retain drop, rfl, { h with segments := ?_, retained := ?_ }⟩
    · funext t
      show List.filter _ _ = List.filter _ _
      rw [h.segments]
    · funext t
      show _ ++ _ = _ ++ _
      rw [h.retained, h.segments]

theorem alike_run (h : Alike s u) (hrun : run step s es = some s') : ∃ u', run step u es = some u' ∧ Alike s' u' := by
  refine run_simulation Alike ?_ h hrun
  intro s u e s' h hstep
  exact alike_step h hstep

/-! ## Taking a failed seal out -/

/-- A failure right after the freeze leads back. -/
theorem freeze_failed (hc : s.seals c = none) (hx : (s.freeze c).seals c = some x) :
    Alike ((s.freeze c).failed c x) s := by
  unfold freeze at hx ⊢
  split at hx
  · rw [hc] at hx
    cases hx
  · rename_i hne
    rw [if_neg hne]
    have hfrozen : SealCall.frozen s.inner = x := by simpa using hx
    subst hfrozen
    refine { Alike.refl s with buffers := ?_, bufferBytes := Nat.zero_add _, seals := ?_ }
    · funext t
      exact append_nil _
    · intro c'
      show (update (update s.seals c _) c none c').map _ = _
      rw [update_idem, ← hc, update_eq_self]

/-- **A failed write may as well come before a step of another call that does not freeze.** -/
theorem failed_commute (he : e.Apart c) (h : step s e = some s') :
    ∃ u, step (s.failed c x) e = some u ∧ Alike u (s'.failed c x) := by
  rcases stepFrom_of_step h with ⟨appended, req, fails⟩ | ⟨c', hc⟩ | ⟨c', path, y, hc, hy⟩ |
    ⟨c', path, y, hc, hy⟩ | ⟨c', persisted, y, written, hc, hy⟩ | ⟨c', ok, y, hc, hy⟩ | drop
  · refine ⟨_, rfl, ?_⟩
    cases appended with
    | false => exact Alike.refl _
    | true =>
        obtain ⟨bytes, hpush⟩ := Inner.pushRequest_encoder s.promote fails s.inner.nextLsn req
        constructor <;>
          simp [ingest, failed, Inner.handBack, Inner.prependFront, hpush, Inner.grow,
            Nat.add_right_comm]
  · exact he.elim
  · refine ⟨(s.failed c x).wrote c' path y, ?_, ?_⟩
    · simp [step, failed, update_of_ne he.1, hc, hy]
    · refine { Alike.refl _ with seals := fun c'' => ?_ }
      show Option.map _ (update (update s.seals c none) c' _ c'') =
        Option.map _ (update (update s.seals c' _) c none c'')
      rw [update_comm he.1]
  · exact absurd he.2 (by simp)
  · refine ⟨(s.failed c x).registered c' y written persisted, ?_, ?_⟩
    · simp only [step, failed, update_of_ne he, hc, hy]
    · refine { Alike.refl _ with seals := fun c'' => ?_ }
      show Option.map _ (update (update s.seals c none) c' _ c'') =
        Option.map _ (update (update s.seals c' _) c none c'')
      rw [update_comm he]
  · refine ⟨(s.failed c x).returned c', ?_, ?_⟩
    · simp only [step, failed, update_of_ne he, hc, hy]
    · refine { Alike.refl _ with seals := fun c'' => ?_ }
      show Option.map _ (update (update s.seals c none) c' _ c'') =
        Option.map _ (update (update s.seals c' _) c none c'')
      rw [update_comm he]
  · exact ⟨_, rfl, Alike.refl _⟩

/-- A seal that is still to write has had no step since its freeze. -/
theorem apart_of_write (h : step s e = some s') (hc : s'.seals c = some x) (hx : x.stage = .write)
    (hfreeze : ∀ c', e ≠ .freeze c') (hfail : ∀ c' path, e ≠ .write c' false path) :
    e.Apart c ∧ s.seals c = some x := by
  rcases stepFrom_of_step h with ⟨appended, req, fails⟩ | ⟨c', hc'⟩ | ⟨c', path, y, hc', hy⟩ |
    ⟨c', path, y, hc', hy⟩ | ⟨c', persisted, y, written, hc', hy⟩ | ⟨c', ok, y, hc', hy⟩ | drop
  · obtain ⟨added, bytes, heq, -, -⟩ := ingest_eq appended req fails s
    rw [heq] at hc
    exact ⟨trivial, hc⟩
  · exact absurd rfl (hfreeze c')
  · rcases update_eq_some hc with ⟨-, h'⟩ | ⟨hne, h'⟩
    · rw [← some.inj h'] at hx
      cases hx
    · exact ⟨⟨hne.symm, rfl⟩, h'⟩
  · exact absurd rfl (hfail c' path)
  · rcases update_eq_some hc with ⟨-, h'⟩ | ⟨hne, h'⟩
    · split at h'
      · rw [← some.inj h'] at hx
        cases hx
      · cases h'
    · exact ⟨hne.symm, h'⟩
  · rcases update_eq_some hc with ⟨-, h'⟩ | ⟨hne, h'⟩
    · cases h'
    · exact ⟨hne.symm, h'⟩
  · exact ⟨trivial, hc⟩

/-- The same for a run without freezes and failed writes: the failed write may come first. -/
theorem failed_commute_run (hfreeze : ∀ e ∈ es, ∀ c', e ≠ .freeze c')
    (hfail : ∀ e ∈ es, ∀ c' path, e ≠ .write c' false path) (h : run step s es = some s') (hc : s'.seals c = some x)
    (hx : x.stage = .write) :
    s.seals c = some x ∧ ∃ u, run step (s.failed c x) es = some u ∧ Alike u (s'.failed c x) := by
  induction es generalizing s with
  | nil =>
      cases h
      exact ⟨hc, _, rfl, Alike.refl _⟩
  | cons e es ih =>
      obtain ⟨m, hm, hrun⟩ := run_cons_eq_some.mp h
      obtain ⟨hmc, u, hu, hul⟩ := ih (fun e he => hfreeze e (mem_cons_of_mem _ he))
        (fun e he => hfail e (mem_cons_of_mem _ he)) hrun
      obtain ⟨hapart, hsc⟩ := apart_of_write hm hmc hx (hfreeze e mem_cons_self)
        (hfail e mem_cons_self)
      obtain ⟨m', hm', hml⟩ := failed_commute (x := x) hapart hm
      obtain ⟨w, hw, hwl⟩ := alike_run hml.symm hu
      exact ⟨hsc, w, run_cons_eq_some.mpr ⟨m', hm', hw⟩, hwl.symm.trans hul⟩

/-! ## Runs without their failed seals -/

theorem effective_concat_write_false (es : List (Event D)) (c : ℕ) (path : Table → ℕ) :
    effective (es ++ [.write c false path]) = unfreeze c (effective es) := by
  simp [effective]

theorem effective_concat (es : List (Event D)) (he : ∀ c path, e ≠ .write c false path) :
    effective (es ++ [e]) = effective es ++ [e] := by
  unfold effective
  rw [foldl_concat]
  split
  · exact absurd rfl (he _ _)
  · rfl

theorem unfreeze_subset (c : ℕ) (es : List (Event D)) : unfreeze c es ⊆ es := by
  intro e he
  exact mem_reverse.mp (eraseP_subset (mem_reverse.mp he))

/-- No failed write is left. -/
theorem ne_write_false_of_mem_effective (he : e ∈ effective es) (c : ℕ) (path : Table → ℕ) :
    e ≠ .write c false path := by
  induction es using List.reverseRecOn with
  | nil => cases he
  | append_singleton es e' ih =>
      by_cases hw : ∃ c' path', e' = .write c' false path'
      · obtain ⟨c', path', rfl⟩ := hw
        rw [effective_concat_write_false] at he
        exact ih (unfreeze_subset c' _ he)
      · have hw : ∀ c' path', e' ≠ .write c' false path' := fun c' path' h => hw ⟨c', path', h⟩
        rw [effective_concat es hw] at he
        rcases mem_append.mp he with he | he
        · exact ih he
        · rw [mem_singleton.mp he]
          exact hw c path

/-- The last freeze of a list. -/
theorem exists_last_freeze (h : (freezes es).getLast? = some c) :
    ∃ as bs, es = as ++ .freeze c :: bs ∧ ∀ e ∈ bs, ∀ c', e ≠ .freeze c' := by
  induction es using List.reverseRecOn with
  | nil => cases h
  | append_singleton es e ih =>
      by_cases he : ∃ c', e = .freeze c'
      · obtain ⟨c', rfl⟩ := he
        have hc : c' = c := by simpa [freezes] using h
        subst hc
        exact ⟨es, [], rfl, fun _ h => nomatch h⟩
      · have he : ∀ c', e ≠ .freeze c' := fun c' h => he ⟨c', h⟩
        have hnone : freezes (es ++ [e]) = freezes es := by
          unfold freezes
          rw [filterMap_append, append_right_eq_self]
          cases e <;> first | rfl | exact absurd rfl (he _)
        rw [hnone] at h
        obtain ⟨as, bs, rfl, hbs⟩ := ih h
        refine ⟨as, bs ++ [e], by simp, fun e' he' => ?_⟩
        rcases mem_append.mp he' with he' | he'
        · exact hbs e' he'
        · rw [mem_singleton.mp he']
          exact he

theorem unfreeze_append (c : ℕ) (as : List (Event D)) {bs : List (Event D)}
    (hbs : ∀ e ∈ bs, ∀ c', e ≠ .freeze c') :
    unfreeze c (as ++ .freeze c :: bs) = as ++ bs := by
  have hnot : ∀ e ∈ bs.reverse, ¬ Event.freezesFor c e = true := by
    intro e he
    cases e <;> simp [Event.freezesFor]
    exact absurd rfl (hbs _ (mem_reverse.mp he) _)
  unfold unfreeze
  rw [reverse_append, reverse_cons, append_assoc, eraseP_append_right _ hnot,
    singleton_append, eraseP_cons_of_pos (by simp [Event.freezesFor]),
    reverse_append, reverse_reverse, reverse_reverse]

theorem failuresNested_of_concat (hn : FailuresNested (es ++ [e])) : FailuresNested es := by
  intro i c path hi
  have hlt : i < es.length := (List.getElem?_eq_some_iff.mp hi).1
  have hlast := hn i c path (by rw [List.getElem?_append_left hlt, hi])
  rwa [List.take_append_of_le_length hlt.le] at hlast

theorem failuresNested_last {path : Table → ℕ} (hn : FailuresNested (es ++ [.write c false path])) :
    (freezes (effective es)).getLast? = some c := by
  have hlast := hn es.length c path getElem?_concat_length
  rwa [take_left] at hlast

/-- **Without its failed seals a run leads to the same state**, when failures are nested. -/
theorem effective_run {start : Engine D P} (hn : FailuresNested es) (h : run step start es = some s) :
    ∃ s', run step start (effective es) = some s' ∧ Alike s s' := by
  induction es using List.reverseRecOn generalizing s with
  | nil => exact ⟨s, h, Alike.refl s⟩
  | append_singleton es e ih =>
      obtain ⟨m, hm, hstep⟩ := run_concat_eq_some.mp h
      obtain ⟨m', hm', hml⟩ := ih (failuresNested_of_concat hn) hm
      by_cases hw : ∃ c path, e = .write c false path
      · obtain ⟨c, path, rfl⟩ := hw
        obtain ⟨as, bs, heff, hbs⟩ := exists_last_freeze (failuresNested_last hn)
        rw [effective_concat_write_false, heff, unfreeze_append c as hbs]
        rw [heff] at hm'
        -- the run without the failed seals is still in flight with this one, frozen last
        obtain ⟨x, hx, hxw, rfl⟩ := step_failed hstep
        obtain ⟨y, hy, hyx⟩ := hml.seals_eq_some hx
        have hyw : y.stage = .write := (SealCall.mk.inj hyx).2.2.2.2.trans hxw
        rw [run_append, bind_eq_some_iff] at hm'
        obtain ⟨k, hk, hrest⟩ := hm'
        obtain ⟨f, hf, hrest⟩ := run_cons_eq_some.mp hrest
        obtain ⟨hfc, u, hu, hul⟩ := failed_commute_run hbs
          (fun e he => ne_write_false_of_mem_effective (by rw [heff]; simp [he])) hrest hy hyw
        obtain ⟨hkc, rfl⟩ := step_freeze hf
        obtain ⟨w, hw, hwl⟩ := alike_run (freeze_failed hkc hfc) hu
        refine ⟨w, ?_, ((hml.failed c hyx).trans hul.symm).trans hwl⟩
        rw [run_append, hk]
        exact hw
      · have hw : ∀ c path, e ≠ .write c false path := fun c path h => hw ⟨c, path, h⟩
        rw [effective_concat es hw]
        obtain ⟨u, hu, hul⟩ := alike_step hml hstep
        exact ⟨u, run_concat_eq_some.mpr ⟨m', hm', hu⟩, hul⟩

/-- **A snapshot has every accepted and not retained row once**, in every run; and when failures
are nested, a failed seal leaves the buffers and their bytes as if it was never attempted. -/
theorem snapshot_once_and_failures_undone (promote : P) (inner : Inner D P) (es : List (Event D))
    (s : Engine D P) (h : run step (opened promote inner) es = some s) :
    (∀ t, (snapshotRows s.inner t ++ s.retained t).Perm (s.accepted t)) ∧
      (FailuresNested es → FailuresUndone (opened promote inner) es s) := by
  refine ⟨run_rowsOnce h, fun hn => ?_⟩
  obtain ⟨s', hs', hl⟩ := effective_run hn h
  exact ⟨s', hs', fun t => congrFun hl.buffers t, hl.bufferBytes⟩

/-- A log row of one byte. -/
def oneLog : Event Unit := .ingest true (.logs [⟨0, 1, ()⟩]) fun _ => false

/-- One seal fails while a row arrives. -/
theorem snapshot_once_and_failures_undone_nested :
    ∃ s : Engine Unit Unit,
      RowsOnce s ∧
      FailuresUndone (opened () .empty) [oneLog, .freeze 0, oneLog, .write 0 false fun _ => 0] s := by
  obtain ⟨s, hs⟩ : ∃ s : Engine Unit Unit, run step (opened () .empty)
      [oneLog, .freeze 0, oneLog, .write 0 false fun _ => 0] = some s := ⟨_, rfl⟩
  have h := snapshot_once_and_failures_undone () Inner.empty _ s hs
  refine ⟨s, h.1, h.2 fun i c path hi => ?_⟩
  rcases i with _ | _ | _ | _ | i <;> simp [oneLog] at hi
  obtain ⟨rfl, -⟩ := hi
  rfl

/-- Two seals fail in the order they froze in: the rows of the second go in front of the first. -/
def failuresInOrder : List (Event Unit) :=
  [oneLog, .freeze 0, oneLog, .freeze 1, .write 0 false fun _ => 0, .write 1 false fun _ => 0]

theorem failures_in_order_reorder :
    ∃ s : Engine Unit Unit, run step (opened () .empty) failuresInOrder = some s ∧
      ¬ FailuresUndone (opened () .empty) failuresInOrder s := by
  refine ⟨_, rfl, ?_⟩
  rintro ⟨s', hs', hbuffers, -⟩
  have hlsn := congrArg (fun bs => (batchRows bs).map (·.lsn)) (hbuffers .logs)
  rw [← some.inj hs'] at hlsn
  exact absurd hlsn (by decide)

end Engine

end Imbh.Storage
