import Imbh.Storage.Engine

/-!
# Changing the promoted keys

`set_promote` seals, and swaps the keys in force when it then finds the buffers empty under the
lock. A seal of another call may have frozen its batches before and be in flight still: these were
encoded under the old keys. The system is the engine with the `set_promote` calls on it; the seal
of an attempt is a seal of the engine, under the name of the call.

* `batches_of_keys_in_force` — the result; `swap_during_seal` is what happens otherwise.
-/

namespace Imbh.Storage

open Lib Option Function

variable {D P : Type}

/-- A `set_promote` in progress: the new keys, the attempts left, and whether the seal of this
attempt is done. -/
structure Switch (P : Type) where
  promote : P
  attempts : ℕ
  sealed : Bool

/-- The attempts of a `set_promote`.
Source: `lib.rs` `set_promote`, `ATTEMPTS` -/
def switchAttempts : ℕ := 8

/-- The engine, with the `set_promote` calls on it. -/
structure Switching (D P : Type) where
  engine : Engine D P
  switches : ℕ → Option (Switch P)

/-- What happens: a step of the engine, the start of a `set_promote`, or its check. -/
inductive SwitchEvent (D P : Type)
  | engine (e : Event D)
  | setPromote (call : ℕ) (promote : P)
  | check (call : ℕ)

/-- The call whose seal returns with an event, and whether without an error. -/
def Engine.sealResult (s : Engine D P) : Event D → Option (ℕ × Bool)
  | .freeze c => if s.inner.buffersEmpty then some (c, true) else none
  | .write c false _ => some (c, false)
  | .register c false => some (c, false)
  | .reclaim c ok => some (c, ok)
  | _ => none

namespace Switching

/-- A store as its open leaves it, the replay done. -/
def opened (promote : P) (segments : Table → List (Segment D)) (watermark nextLsn : ℕ)
    (recs : List (ℕ × Request D)) : Switching D P where
  engine := .opened promote ((Inner.loaded segments watermark nextLsn).replayAll promote recs)
  switches := fun _ => none

/-- What the return of a seal is to the `set_promote` it was made by: an error ends it.
Source: `lib.rs` `set_promote`, `self.seal()?` -/
def sealReturned (switches : ℕ → Option (Switch P)) : Option (ℕ × Bool) → ℕ → Option (Switch P)
  | none => switches
  | some (c, ok) => update switches c
      ((switches c).bind fun w => if ok then some { w with sealed := true } else none)

/-- The check under the lock. -/
def checked (c : ℕ) (w : Switch P) (s : Switching D P) : Switching D P :=
  if s.engine.inner.buffersEmpty then
    { engine := { s.engine with promote := w.promote }
      switches := update s.switches c none }
  else
    { s with
      switches := update s.switches c
        (if w.attempts ≤ 1 then none
        else some { w with attempts := w.attempts - 1, sealed := false }) }

/-- Has the call made the seal of its attempt? -/
def hasSealed (s : Switching D P) (c : ℕ) : Bool := (s.switches c).any (·.sealed)

/-- The call a freeze belongs to. -/
def freezing : Event D → Option ℕ
  | .freeze c => some c
  | _ => none

variable [DecidableEq P]

/-- One step.
Source: `lib.rs` `set_promote` -/
def step (s : Switching D P) : SwitchEvent D P → Option (Switching D P)
  | .engine e =>
      if (freezing e).any s.hasSealed then none
      else
        match s.engine.step e with
        | none => none
        | some engine =>
            some { engine := engine
                   switches := sealReturned s.switches (s.engine.sealResult e) }
  | .setPromote c p =>
      if (s.engine.seals c).isSome || (s.switches c).isSome then none
      else if s.engine.promote = p then some s
      else some { s with switches := update s.switches c (some ⟨p, switchAttempts, false⟩) }
  | .check c =>
      match s.switches c with
      | none => none
      | some w => if w.sealed then some (s.checked c w) else none

/-- A check that swaps in other keys finds no seal in flight. -/
def SwapsAlone (s : Switching D P) : SwitchEvent D P → Prop
  | .check c => ∀ w, s.switches c = some w → s.engine.inner.buffersEmpty →
      w.promote ≠ s.engine.promote → s.engine.inner.sealing = []
  | _ => True

end Switching

/-- Every batch, in a buffer or staged, was encoded under the keys in force. -/
structure Engine.Current (s : Engine D P) : Prop where
  live : ∀ t, ∀ b ∈ s.inner.buffers t, b.promote = s.promote
  staged : ∀ e ∈ s.inner.sealing, ∀ t, ∀ b ∈ e.2 t, b.promote = s.promote

namespace Engine

variable {s s' : Engine D P}

/-- **A step of the engine encodes under the keys in force**, and moves batches without mixing. -/
theorem engine_step_current {e : Event D} (hi : Inv s) (hc : s.Current)
    (h : step s e = some s') : s'.Current ∧ s'.promote = s.promote := by
  rcases stepFrom_of_step h with ⟨appended, req, fails⟩ | ⟨c, -⟩ | ⟨c, path, x, -, -⟩ |
    ⟨c, path, x, hx, hst⟩ | ⟨c, persisted, x, written, -, -⟩ | ⟨c, ok, x, -, -⟩ | drop
  · obtain ⟨added, bytes, heq, -, hadded⟩ := ingest_eq appended req fails s
    rw [heq]
    refine ⟨⟨fun t b hb => ?_, hc.staged⟩, rfl⟩
    rcases List.mem_append.mp hb with hb | hb
    · exact hc.live t b hb
    · exact hadded t b hb
  · unfold freeze
    split
    · exact ⟨hc, rfl⟩
    · refine ⟨⟨fun t b hb => ?_, fun e he t b hb => ?_⟩, rfl⟩
      · cases hb
      · rcases List.mem_append.mp he with he | he
        · exact hc.staged e he t b hb
        · rw [List.mem_singleton.mp he] at hb
          exact hc.live t b hb
  · exact ⟨⟨hc.live, hc.staged⟩, rfl⟩
  · have hmem := hi.staged c x hx (staged_of_write hst)
    refine ⟨⟨fun t b hb => ?_, fun e he => hc.staged e (List.mem_of_mem_filter he)⟩, rfl⟩
    rcases List.mem_append.mp hb with hb | hb
    · exact hc.staged _ hmem t b hb
    · exact hc.live t b hb
  · exact ⟨⟨hc.live, fun e he => hc.staged e (List.mem_of_mem_filter he)⟩, rfl⟩
  · exact ⟨⟨hc.live, hc.staged⟩, rfl⟩
  · exact ⟨⟨hc.live, hc.staged⟩, rfl⟩

end Engine

namespace Switching

variable [DecidableEq P] {s s' : Switching D P}

/-- A step keeps the batches encoded under the keys in force. -/
theorem step_current {e : SwitchEvent D P} (hi : s.engine.Inv ∧ s.engine.Current)
    (hok : SwapsAlone s e) (h : step s e = some s') : s'.engine.Inv ∧ s'.engine.Current := by
  rcases e with e | ⟨c, p⟩ | c
  · simp only [step] at h
    split at h
    · cases h
    rcases hstep : s.engine.step e with _ | engine <;> simp only [hstep, reduceCtorEq] at h
    rw [← some.inj h]
    exact ⟨Engine.step_inv hi.1 hstep, (Engine.engine_step_current hi.1 hi.2 hstep).1⟩
  · simp only [step] at h
    split at h
    · cases h
    split at h <;> rw [← some.inj h] <;> exact hi
  · rcases hw : s.switches c with _ | w <;> simp only [step, hw, reduceCtorEq] at h
    split at h
    · rw [← some.inj h]
      unfold checked
      split
      · rename_i hempty
        refine ⟨hi.1.congr rfl rfl rfl, ?_⟩
        by_cases hp : w.promote = s.engine.promote
        · exact ⟨fun t b hb => hp ▸ hi.2.live t b hb, fun e he t b hb => hp ▸ hi.2.staged e he t b hb⟩
        · -- the swap: nothing is buffered and nothing is staged
          have hnone := hok w hw hempty hp
          refine ⟨fun t b hb => ?_, fun e he => ?_⟩
          · rw [buffersEmpty_iff.mp hempty t] at hb
            cases hb
          · rw [hnone] at he
            cases he
      · exact hi
    · cases h

/-- **Every batch held was encoded under the promoted keys in force**, as long as every swap finds
no seal in flight: a snapshot concatenates, and a seal writes, batches of one schema. -/
theorem batches_of_keys_in_force (promote : P) (segments : Table → List (Segment D))
    (watermark nextLsn : ℕ) (recs : List (ℕ × Request D)) (es : List (SwitchEvent D P))
    (s : Switching D P)
    (hg : Guarded step SwapsAlone (opened promote segments watermark nextLsn recs) es)
    (h : run step (opened promote segments watermark nextLsn recs) es = some s) :
    (∀ t, ∀ b ∈ s.engine.inner.buffers t, b.promote = s.engine.promote) ∧
      (∀ e ∈ s.engine.inner.sealing, ∀ t, ∀ b ∈ e.2 t, b.promote = s.engine.promote) ∧
      (∀ t, ∀ b ∈ (querySnapshot s.engine.inner t).1, b.promote = s.engine.promote) ∧
      ∀ c x, s.engine.seals c = some x → x.stage = .write →
        ∀ t, ∀ b ∈ x.batches t, b.promote = s.engine.promote := by
  have hopened : (opened promote segments watermark nextLsn recs).engine.Inv ∧
      (opened promote segments watermark nextLsn recs).engine.Current := by
    refine ⟨Engine.inv_opened promote _, ⟨fun t => ?_, fun _ he => absurd he List.not_mem_nil⟩⟩
    exact Inner.promote_of_mem_replayAll (fun _ _ hb => absurd hb List.not_mem_nil) t
  obtain ⟨hi, hc⟩ := run_induction (fun s : Switching D P => s.engine.Inv ∧ s.engine.Current)
    (fun s e s' hi hok h => step_current hi hok h) hopened hg h
  refine ⟨hc.live, hc.staged, fun t b hb => ?_, fun c x hx hst => ?_⟩
  · rcases List.mem_append.mp hb with hb | hb
    · exact hc.live t b hb
    · obtain ⟨e, he, hb⟩ := List.mem_flatMap.mp hb
      exact hc.staged e he t b hb
  · exact hc.staged _ (hi.staged c x hx (Engine.staged_of_write hst))

/-- A log row. -/
def oneRow : SwitchEvent Unit Bool :=
  .engine (.ingest true (.logs [⟨0, 1, ()⟩]) fun _ => false)

/-- A store without rows, under the keys `false`. -/
def quiet : Switching Unit Bool := opened false (fun _ => []) 0 1 []

/-- A `set_promote` that no other seal overlaps. -/
def swapAlone : List (SwitchEvent Unit Bool) :=
  [oneRow, .setPromote 0 true, .engine (.freeze 0), .engine (.write 0 true fun _ => 0),
    .engine (.register 0 true), .engine (.reclaim 0 true), .check 0, oneRow]

theorem batches_of_keys_in_force_swapAlone :
    ∃ s, run step quiet swapAlone = some s ∧
      (∀ t, ∀ b ∈ (querySnapshot s.engine.inner t).1, b.promote = s.engine.promote) ∧
      s.engine.promote = true := by
  obtain ⟨s, hs⟩ : ∃ s, run step quiet swapAlone = some s := ⟨_, rfl⟩
  have hg : Guarded step SwapsAlone quiet swapAlone :=
    ⟨trivial, trivial, trivial, trivial, trivial, trivial, fun _ _ _ _ => rfl, trivial, trivial⟩
  refine ⟨s, hs, (batches_of_keys_in_force false (fun _ => []) 0 1 [] swapAlone s hg hs).2.2.1, ?_⟩
  rw [← some.inj hs]
  rfl

/-- A seal of another call is in flight at the swap: its batch, of the old keys, is in the
snapshot with one of the new keys. -/
def swapOverSeal : List (SwitchEvent Unit Bool) :=
  [oneRow, .engine (.freeze 0), .setPromote 1 true, .engine (.freeze 1), .check 1, oneRow]

theorem swap_during_seal :
    ∃ s, run step quiet swapOverSeal = some s ∧ s.engine.promote = true ∧
      ((querySnapshot s.engine.inner .logs).1.map Batch.promote) = [true, false] :=
  ⟨_, rfl, rfl, rfl⟩

end Switching

end Imbh.Storage
