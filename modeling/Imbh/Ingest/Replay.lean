import Imbh.Ingest.Dedup

/-!
# The guard in replay

A log record of metrics is the body of an export, as it was before the guard dropped points from it.
Replay decodes it again and decides again, with a guard that starts empty.

* `replay_keeps_accepted` — what the live guard kept, replay keeps, in every suffix in which the live
  guard never forgets a key that the replaying one goes on to remember.
* `replay_drops_accepted` — a suffix in which it does, and replay drops a point that was kept.
-/

namespace Imbh.Ingest

open Lib List

variable {V : Type}

section replay

variable (seriesHash : UInt8 → Text → Option Text → Text → UInt64 × UInt64)

/-- A list of exports goes through the guard.
Source: `lib.rs` `decode_metrics`, called for every export, and for every record by `replay_record` -/
def DedupGuard.admitAll : DedupGuard → List (DecodedMetrics V) → DedupGuard × List (DecodedMetrics V)
  | g, [] => (g, [])
  | g, d :: ds =>
      let (g, d) := guardDecoded seriesHash d g
      let (g, ds) := admitAll g ds
      (g, d :: ds)

/-- The keys of a list of exports. -/
def keysOf (ds : List (DecodedMetrics V)) : List SeenKey := ds.flatMap (·.keys seriesHash)

/-- The keys the guard remembers after the exports `hs`. -/
def stateAfter (recent : ℕ) (hs : List (DecodedMetrics V)) : GuardState :=
  (GuardState.new (max recent 2)).after (keysOf seriesHash hs)

/-- Every point that was kept is kept again. -/
def KeptAgain (live replayed : List (DecodedMetrics V)) : Prop :=
  List.Forall₂ (fun l r => l.points.Sublist r.points) live replayed

/-- While the exports `ks` go through the guard that has seen `hs`, it never forgets a key that a
guard goes on to remember that has seen `ks` only. -/
def KeepsUpWith (recent : ℕ) (hs ks : List (DecodedMetrics V)) : Prop :=
  Guarded Window.sideBySide Window.KeepsUp
    (stateAfter seriesHash recent hs, stateAfter seriesHash recent ([] : List (DecodedMetrics V)))
    (keysOf seriesHash ks)

end replay

variable {seriesHash : UInt8 → Text → Option Text → Text → UInt64 × UInt64}

variable (seriesHash) in
/-- What the guard keeps of an export, with the counts. -/
theorem guardDecoded_spec {g : DedupGuard} {state : GuardState} (h : g.state = some state)
    (d : DecodedMetrics V) :
    (guardDecoded seriesHash d g).1.state = some (state.after (d.keys seriesHash)) ∧
      (guardDecoded seriesHash d g).2.points =
        keep d.points (state.verdicts (d.keys seriesHash)) := by
  obtain ⟨hstate, hpoints⟩ := retain_spec seriesHash h d
  exact ⟨hstate, hpoints⟩

/-- Admitting batches leaves the window over all their keys. -/
theorem admitAll_state {g : DedupGuard} {state : GuardState} (h : g.state = some state)
    (ds : List (DecodedMetrics V)) :
    (g.admitAll seriesHash ds).1.state = some (state.after (keysOf seriesHash ds)) := by
  induction ds generalizing g state with
  | nil => exact h
  | cons d ds ih =>
      obtain ⟨hstate, -⟩ := guardDecoded_spec seriesHash h d
      unfold DedupGuard.admitAll keysOf
      rw [flatMap_cons, Window.after_append]
      exact ih hstate

theorem state_new (recent : ℕ) :
    (DedupGuard.new (.reject recent)).state = some (GuardState.new (max recent 2)) := rfl

/-- Two guards, side by side over the same exports. -/
theorem keptAgain_of_permissive {g c : DedupGuard} {warm cold : GuardState}
    (hg : g.state = some warm) (hc : c.state = some cold) (ds : List (DecodedMetrics V))
    (h : ∀ n, Window.Permissive (warm.after ((keysOf seriesHash ds).take n))
      (cold.after ((keysOf seriesHash ds).take n))) :
    KeptAgain (g.admitAll seriesHash ds).2 (c.admitAll seriesHash ds).2 := by
  induction ds generalizing g c warm cold with
  | nil => exact .nil
  | cons d ds ih =>
      obtain ⟨hwarm, hkept⟩ := guardDecoded_spec seriesHash hg d
      obtain ⟨hcold, hagain⟩ := guardDecoded_spec seriesHash hc d
      have hkeys : keysOf seriesHash (d :: ds) = d.keys seriesHash ++ keysOf seriesHash ds :=
        flatMap_cons
      rw [hkeys] at h
      have hsub : (guardDecoded seriesHash d g).2.points.Sublist
          (guardDecoded seriesHash d c).2.points := by
        rw [hkept, hagain]
        refine keep_sublist _ (by simp [DecodedMetrics.keys]) fun i hi => ?_
        refine Window.verdicts_of_permissive (fun n => ?_) hi
        -- a beginning of the export is a beginning of the whole list
        have hn := h (min n (d.keys seriesHash).length)
        rw [take_append_of_le_length (min_le_right _ _)] at hn
        rwa [← take_take, take_length] at hn
      refine List.Forall₂.cons hsub (ih hwarm hcold fun n => ?_)
      have hn := h ((d.keys seriesHash).length + n)
      rw [take_length_add_append, Window.after_append, Window.after_append] at hn
      exact hn

/-- **Replay never drops what the live guard kept**, for every history `hs`, every suffix `ks` of the
log and every capacity, as long as the live guard never forgets a key that the replaying one goes on
to remember. That is so exactly when at no moment of the replay there is a key that the live guard
would have accepted and the replaying one would not. -/
theorem replay_keeps_accepted (seriesHash : UInt8 → Text → Option Text → Text → UInt64 × UInt64)
    (recent : ℕ) (hs ks : List (DecodedMetrics V)) :
    (KeepsUpWith seriesHash recent hs ks →
      KeptAgain
        (((DedupGuard.new (.reject recent)).admitAll seriesHash hs).1.admitAll seriesHash ks).2
        ((DedupGuard.new (.reject recent)).admitAll seriesHash ks).2) ∧
    (KeepsUpWith seriesHash recent hs ks ↔
      ∀ n key,
        (((stateAfter seriesHash recent hs).after ((keysOf seriesHash ks).take n)).admits key).2 =
          true →
        (((GuardState.new (max recent 2)).after ((keysOf seriesHash ks).take n)).admits key).2 =
          true) := by
  have hcold : Window.Permissive (stateAfter seriesHash recent hs)
      (stateAfter seriesHash recent ([] : List (DecodedMetrics V))) := Finset.empty_subset _
  have hiff := Window.guarded_iff_permissive hcold (keysOf seriesHash ks)
  constructor
  · intro h
    exact keptAgain_of_permissive (admitAll_state (state_new recent) hs) (state_new recent) ks
      (hiff.mp h)
  · refine hiff.trans (forall_congr' fun n => ?_)
    exact Window.permissive_iff

/-! ## Exports of one point -/

/-- All that is kept of a list of exports. -/
theorem admitAll_points {g : DedupGuard} {state : GuardState} (h : g.state = some state)
    (ds : List (DecodedMetrics V)) : (g.admitAll seriesHash ds).2.flatMap (·.points) =
      keep (ds.flatMap (·.points)) (state.verdicts (keysOf seriesHash ds)) := by
  induction ds generalizing g state with
  | nil => rfl
  | cons d ds ih =>
      obtain ⟨hstate, hpoints⟩ := guardDecoded_spec seriesHash h d
      have hkeys : keysOf seriesHash (d :: ds) = d.keys seriesHash ++ keysOf seriesHash ds :=
        flatMap_cons
      have hstep : (g.admitAll seriesHash (d :: ds)).2 = (guardDecoded seriesHash d g).2 ::
          ((guardDecoded seriesHash d g).1.admitAll seriesHash ds).2 := rfl
      rw [hstep, flatMap_cons, flatMap_cons, hkeys, Window.verdicts_append,
        keep_append _ _ _ _ (by simp [DecodedMetrics.keys]), hpoints, ih hstate]

theorem KeptAgain.flatMap {live replayed : List (DecodedMetrics V)} (h : KeptAgain live replayed) :
    (live.flatMap (·.points)).Sublist (replayed.flatMap (·.points)) := by
  induction h with
  | nil => exact nil_sublist _
  | cons hd _ ih =>
      rw [flatMap_cons, flatMap_cons]
      exact hd.append ih

/-- An export of one gauge point. -/
def gaugeAt (ts : Int64) : DecodedMetrics Unit where
  rows := [⟨⟨[], none, [], ts, ()⟩, .metricsGauge⟩]

/-- The keys of the points of one series. -/
def seriesKey (series : UInt64 × UInt64) : Int64 ↪ SeenKey where
  toFun ts := ⟨series, ts⟩
  inj' _ _ h := congrArg SeenKey.ts h

theorem keysOf_gaugeAt (seriesHash : UInt8 → Text → Option Text → Text → UInt64 × UInt64)
    (tss : List Int64) :
    keysOf seriesHash (tss.map gaugeAt) = tss.map (seriesKey (seriesHash kindGauge [] none [])) := by
  induction tss with
  | nil => rfl
  | cons ts tss ih =>
      rw [map_cons, map_cons, ← ih]
      rfl

theorem replay_keeps_accepted_seenBefore :
    KeptAgain
      (((DedupGuard.new (.reject 4)).admitAll (fun _ _ _ _ => (0, 0))
        ([0, 1].map gaugeAt)).1.admitAll (fun _ _ _ _ => (0, 0)) ([1, 2, 2].map gaugeAt)).2
      ((DedupGuard.new (.reject 4)).admitAll (fun _ _ _ _ => (0, 0)) ([1, 2, 2].map gaugeAt)).2 := by
  apply (replay_keeps_accepted (fun _ _ _ _ => (0, 0)) 4 ([0, 1].map gaugeAt)
    ([1, 2, 2].map gaugeAt)).1
  unfold KeepsUpWith
  decide +kernel

/-- With room for four keys, the live guard has seen one point more than the replaying one, and
forgets the point at 1 one point earlier. It keeps the second point at 1, which replay drops. -/
theorem replay_drops_accepted :
    ¬ ∃ seriesHash : UInt8 → Text → Option Text → Text → UInt64 × UInt64,
      ∀ recent, ∀ hs ks : List (DecodedMetrics Unit), KeptAgain
        (((DedupGuard.new (.reject recent)).admitAll seriesHash hs).1.admitAll seriesHash ks).2
        ((DedupGuard.new (.reject recent)).admitAll seriesHash ks).2 := by
  rintro ⟨seriesHash, h⟩
  have hlen := (h 4 ([0].map gaugeAt) ([1, 2, 3, 4, 1].map gaugeAt)).flatMap.length_le
  rw [admitAll_points (admitAll_state (state_new 4) _), admitAll_points (state_new 4)] at hlen
  set f := seriesKey (seriesHash kindGauge [] none []) with hf
  have hnew : GuardState.new (max 4 2) = (Window.empty 2 : Window Int64).map f := rfl
  rw [keysOf_gaugeAt, keysOf_gaugeAt, ← hf, hnew, Window.after_map, Window.verdicts_map,
    Window.verdicts_map] at hlen
  have hwarm : ((Window.empty 2).after ([0] : List Int64)).verdicts [1, 2, 3, 4, 1] =
      [true, true, true, true, true] := by decide +kernel
  have hcold : (Window.empty 2).verdicts ([1, 2, 3, 4, 1] : List Int64) =
      [true, true, true, true, false] := by decide +kernel
  rw [hwarm, hcold] at hlen
  exact absurd hlen (by decide)

end Imbh.Ingest
