import Imbh.Storage.Info
import Imbh.Storage.Promote

/-!
# The promoted keys in memory and on disk

`set_promote` swaps the keys in force and then writes them to the settings file. The system is a
directory with its settings file and, while it is open, the database on it with the `set_promote` call
in progress, of which there is one at a time; it is the call 0 of the engine, whose other calls make the
other seals. A call that returns is recorded with the keys before it and after it, in memory and on
disk; no code keeps that record.

What an open finds of segments and of the log is given with it.

* `set_promote_atomic` — a call that succeeds leaves its keys at both places, and one that fails leaves
  both as they were, as long as no write of the file fails behind a swap.
-/

namespace Imbh.Storage

open Lib Option Function

variable {D : Type}

/-- A `set_promote` in progress: the keys, those before it, and whether it has swapped. -/
structure Started where
  promote : Promote
  before : Promote × Promote
  persisting : Bool

/-- A `set_promote` that returned. -/
structure Returned where
  promote : Promote
  ok : Bool
  before : Promote × Promote
  after : Promote × Promote
  deriving DecidableEq

/-- A directory, and the database that is open on it.
Source: `lib.rs` `Storage` -/
structure Settings (D : Type) where
  db : Option (Switching D Promote)
  walMode : WalMode
  retention : Retention
  info : Option Text
  call : Option Started
  returns : List Returned

/-- What an open is asked for and what it finds. A failed refresh of the file is ignored, and `wrote` is
whether a change is written. -/
structure Opening (D : Type) where
  promote : Option Promote
  walMode : WalMode
  retention : Option Retention
  refreshed : Bool
  wrote : Bool
  segments : Table → List (Segment D)
  watermark : ℕ
  nextLsn : ℕ
  recs : List (ℕ × Request D)

/-- What happens: a step of the engine (an ingest, a step of a seal, a retention), the start of a
`set_promote`, its check under the lock, its write of the file, an open, and the end of a database. -/
inductive SettingsEvent (D : Type)
  | engine (e : Event D)
  | setPromote (promote : Promote)
  | check
  | persist (wrote : Bool)
  | open (o : Opening D)
  | drop

namespace Settings

/-- A directory without a settings file. -/
def fresh : Settings D := ⟨none, .always, .none, none, none, []⟩

/-- The keys in memory, and those on disk. -/
def inForce (s : Settings D) : Promote × Promote :=
  ((s.db.map (·.engine.promote)).getD (readPromote s.info), readPromote s.info)

/-- The call in progress returns. -/
def returned (ok : Bool) (s : Settings D) : Settings D :=
  match s.call with
  | none => s
  | some c => { s with
      call := none
      returns := s.returns ++ [⟨c.promote, ok, c.before, s.inForce⟩] }

/-- An open, in place of the database that was there.
Source: `lib.rs` `Storage::open`, `imbh` `lib.rs` `DbBuilder::open` -/
def opened (s : Settings D) (o : Opening D) : Settings D :=
  let durable := readPromote s.info
  let effective := o.promote.getD durable
  let retention := o.retention.getD (readRetention s.info)
  let info := writeInfo o.refreshed o.walMode s.info
  let db := Switching.opened effective o.segments o.watermark o.nextLsn o.recs
  let s := { s with walMode := o.walMode, retention := retention, call := none }
  if effective ≠ durable ∨ retention ≠ readRetention s.info then
    { s with
      db := if o.wrote then some db else none
      info := writeInfoAt o.wrote o.walMode effective retention info }
  else { s with db := some db, info := info }

end Settings

open Settings in
/-- One step.
Source: `lib.rs` `set_promote`, `persist_promote` -/
def settingsStep (s : Settings D) : SettingsEvent D → Option (Settings D)
  | .engine e =>
      s.db.bind fun db => (db.step (.engine e)).map fun db' =>
        let s := { s with db := some db' }
        if (db.switches 0).isSome && (db'.switches 0).isNone then s.returned false else s
  | .setPromote p =>
      match s.call with
      | some _ => none
      | none =>
          s.db.bind fun db => (db.step (.setPromote 0 p)).map fun db' =>
            let s := { s with db := some db', call := some ⟨p, s.inForce, false⟩ }
            if (db'.switches 0).isNone then s.returned true else s
  | .check =>
      s.db.bind fun db => (db.step (.check 0)).map fun db' =>
        let s := { s with db := some db' }
        if (db'.switches 0).isSome then s
        else if db.engine.inner.buffersEmpty then
          { s with call := s.call.map fun c => { c with persisting := true } }
        else s.returned false
  | .persist wrote =>
      match s.call, s.db with
      | some c, some db =>
          if c.persisting then
            some (returned wrote { s with
              info := writeInfoAt wrote s.walMode db.engine.promote s.retention s.info })
          else none
      | _, _ => none
  | .open o => some (s.opened o)
  | .drop => some { s with db := none, call := none }

/-- A write behind a swap succeeds, and no key that is written ends in a carriage return. -/
def Recordable (s : Settings D) : SettingsEvent D → Prop
  | .persist wrote => wrote = true ∧ ∀ c ∈ s.call, c.promote.Clean
  | .open o => ∀ p ∈ o.promote, p.Clean
  | _ => True

/-- A call leaves both places as it should. -/
def Returned.Atomic (r : Returned) : Prop :=
  (r.ok = true → r.after = (r.promote, r.promote)) ∧ (r.ok = false → r.after = r.before)

instance (r : Returned) : Decidable r.Atomic := inferInstanceAs (Decidable (_ ∧ _))

namespace Settings

/-- How the call in progress stands to what is in memory and on disk. -/
structure CallOk (s : Settings D) (db : Switching D Promote) : Prop where
  idle : s.call = none → db.switches 0 = none ∧ db.engine.promote = readPromote s.info
  sealing : ∀ c, s.call = some c → c.persisting = false →
    (∃ w, db.switches 0 = some w ∧ w.promote = c.promote) ∧
      db.engine.promote = readPromote s.info ∧ c.before = s.inForce
  persisting : ∀ c, s.call = some c → c.persisting = true →
    db.switches 0 = none ∧ db.engine.promote = c.promote

/-- What every state satisfies. -/
structure Inv (s : Settings D) : Prop where
  clean : (readPromote s.info).Clean
  callOk : ∀ db, s.db = some db → s.CallOk db
  returns : ∀ r ∈ s.returns, r.Atomic

variable {s s' : Settings D}

theorem inv_fresh : Inv (fresh : Settings D) where
  clean := clean_readPromote_none
  callOk db h := by cases h
  returns r h := by cases h

theorem inForce_of_db (db : Switching D Promote) (h : s.db = some db) :
    s.inForce = (db.engine.promote, readPromote s.info) := by
  unfold inForce
  rw [h]
  rfl

/-- The call returns, and nobody has a call in progress. -/
theorem Inv.returned (c : Started) (db : Switching D Promote) {ok : Bool}
    (hclean : (readPromote s.info).Clean) (hreturns : ∀ r ∈ s.returns, r.Atomic)
    (hdb : s.db = some db) (hcall : s.call = some c) (hswitch : db.switches 0 = none)
    (hsame : db.engine.promote = readPromote s.info)
    (hatomic : Returned.Atomic ⟨c.promote, ok, c.before, s.inForce⟩) : Inv (s.returned ok) := by
  unfold Settings.returned
  rw [hcall]
  refine ⟨hclean, fun db' hdb' => ⟨fun _ => ?_, fun _ h => (by cases h), fun _ h => (by cases h)⟩,
    fun r hr => ?_⟩
  · have heq : db = db' := some.inj (hdb.symm.trans hdb')
    rw [← heq]
    exact ⟨hswitch, hsame⟩
  · rcases List.mem_append.mp hr with hr | hr
    · exact hreturns r hr
    · rw [List.mem_singleton.mp hr]
      exact hatomic

/-- A step of the engine does not change the keys. -/
theorem engine_promote {s s' : Engine D Promote} {e : Event D} (h : s.step e = some s') :
    s'.promote = s.promote := by
  rcases Engine.stepFrom_of_step h with ⟨appended, req, fails⟩ | ⟨c, -⟩ | _ | _ | _ | _ | _
  · obtain ⟨added, bytes, heq, -⟩ := Engine.ingest_eq appended req fails s
    rw [heq]
  · unfold Engine.freeze
    split <;> rfl
  all_goals rfl

/-- What a seal that returns does to the `set_promote` it was made by. -/
theorem sealReturned_cases (switches : ℕ → Option (Switch Promote)) (r : Option (ℕ × Bool)) (c : ℕ) :
    (Switching.sealReturned switches r c = none) ∨
      ∃ w w', switches c = some w ∧ Switching.sealReturned switches r c = some w' ∧
        w'.promote = w.promote := by
  rcases r with _ | ⟨c', ok⟩
  · rcases hw : switches c with _ | w
    · exact .inl hw
    · exact .inr ⟨w, w, rfl, hw, rfl⟩
  · simp only [Switching.sealReturned]
    by_cases hc : c = c'
    · subst hc
      rw [update_self]
      rcases hw : switches c with _ | w
      · exact .inl rfl
      · rcases ok with _ | _
        · exact .inl rfl
        · exact .inr ⟨w, _, rfl, rfl, rfl⟩
    · rw [update_of_ne hc]
      rcases hw : switches c with _ | w
      · exact .inl rfl
      · exact .inr ⟨w, w, rfl, rfl, rfl⟩

/-- A step of the engine, for the database. -/
theorem step_engine {db db' : Switching D Promote} {e : Event D}
    (h : db.step (.engine e) = some db') : db'.engine.promote = db.engine.promote ∧
      (db'.switches 0 = none ∨ ∃ w w', db.switches 0 = some w ∧ db'.switches 0 = some w' ∧
        w'.promote = w.promote) := by
  simp only [Switching.step] at h
  split at h
  · cases h
  · rcases hstep : db.engine.step e with _ | engine <;> simp only [hstep, reduceCtorEq] at h
    rw [← some.inj h]
    exact ⟨engine_promote hstep, sealReturned_cases _ _ 0⟩

/-- The start of a `set_promote`. -/
theorem step_setPromote {db db' : Switching D Promote} {p : Promote}
    (h : db.step (.setPromote 0 p) = some db') : db'.engine = db.engine ∧
      (db' = db ∧ db.engine.promote = p ∨
        ∃ w, db'.switches 0 = some w ∧ w.promote = p) := by
  simp only [Switching.step] at h
  split at h
  · cases h
  · split at h
    · rename_i hp
      rw [← some.inj h]
      exact ⟨rfl, .inl ⟨rfl, hp⟩⟩
    · rw [← some.inj h]
      exact ⟨rfl, .inr ⟨⟨p, switchAttempts, false⟩, by simp, rfl⟩⟩

/-- The check of a `set_promote`. -/
theorem step_check {db db' : Switching D Promote} (h : db.step (.check 0) = some db') :
    ∃ w, db.switches 0 = some w ∧
      (db.engine.inner.buffersEmpty = true ∧ db'.switches 0 = none ∧ db'.engine.promote = w.promote ∨
        db.engine.inner.buffersEmpty = false ∧ db'.engine = db.engine ∧
          (db'.switches 0 = none ∨ ∃ w', db'.switches 0 = some w' ∧ w'.promote = w.promote)) := by
  rcases hw : db.switches 0 with _ | w <;> simp only [Switching.step, hw, reduceCtorEq] at h
  refine ⟨w, rfl, ?_⟩
  split at h
  · rw [← some.inj h]
    unfold Switching.checked
    split
    · rename_i hempty
      exact .inl ⟨hempty, by simp, rfl⟩
    · rename_i hempty
      refine .inr ⟨Bool.not_eq_true _ |>.mp hempty, rfl, ?_⟩
      simp only [update_self]
      split
      · exact .inl rfl
      · exact .inr ⟨_, rfl, rfl⟩
  · cases h

/-- A step of the engine keeps the invariant; the seal of an attempt may fail. -/
theorem Inv.engine (hi : Inv s) {e : Event D} (h : settingsStep s (.engine e) = some s') :
    Inv s' := by
  rcases hdb : s.db with _ | db <;>
    simp only [settingsStep, hdb, bind_none, bind_some, reduceCtorEq] at h
  obtain ⟨db', hstep, hs'⟩ := map_eq_some_iff.mp h
  rw [← hs']
  obtain ⟨hpromote, hswitch⟩ := step_engine hstep
  have hok := hi.callOk db hdb
  have hforce : ({ s with db := some db' } : Settings D).inForce = s.inForce := by
    rw [inForce_of_db _ hdb, inForce_of_db (s := { s with db := some db' }) _ rfl, hpromote]
  by_cases hended : ((db.switches 0).isSome && (db'.switches 0).isNone) = true
  · -- the seal of the call in progress failed
    rw [if_pos hended]
    rw [Bool.and_eq_true, isNone_iff_eq_none] at hended
    obtain ⟨hsome, hnone⟩ := hended
    rcases hcall : s.call with _ | c
    · rw [(hok.idle hcall).1] at hsome
      cases hsome
    · rcases hper : c.persisting with _ | _
      · obtain ⟨-, hsame, hbefore⟩ := hok.sealing c hcall hper
        refine Inv.returned c _ hi.clean hi.returns rfl rfl hnone (hpromote.trans hsame) ?_
        exact ⟨fun h => (by cases h), fun _ => hforce.trans hbefore.symm⟩
      · rw [(hok.persisting c hcall hper).1] at hsome
        cases hsome
  · rw [if_neg hended]
    rw [Bool.and_eq_true, isNone_iff_eq_none] at hended
    refine ⟨hi.clean, fun d hd => ?_, hi.returns⟩
    rw [← some.inj hd]
    refine ⟨fun hcall => ?_, fun c hcall hper => ?_, fun c hcall hper => ?_⟩
    · obtain ⟨hnone, hsame⟩ := hok.idle hcall
      refine ⟨?_, hpromote.trans hsame⟩
      rcases hswitch with hnone' | ⟨w, w', hw, -⟩
      · exact hnone'
      · rw [hnone] at hw
        cases hw
    · obtain ⟨⟨w, hw, hkeys⟩, hsame, hbefore⟩ := hok.sealing c hcall hper
      refine ⟨?_, hpromote.trans hsame, hbefore.trans hforce.symm⟩
      rcases hswitch with hnone | ⟨w₁, w', hw₁, hw', hkeys'⟩
      · exact absurd ⟨isSome_iff_exists.mpr ⟨w, hw⟩, hnone⟩ hended
      · rw [hw] at hw₁
        cases hw₁
        exact ⟨w', hw', hkeys'.trans hkeys⟩
    · obtain ⟨hnone, hkeys⟩ := hok.persisting c hcall hper
      refine ⟨?_, hpromote.trans hkeys⟩
      rcases hswitch with hnone' | ⟨w, w', hw, -⟩
      · exact hnone'
      · rw [hnone] at hw
        cases hw

/-- The start of a `set_promote` keeps the invariant; without a change it returns at once. -/
theorem Inv.setPromote (hi : Inv s) {p : Promote} (h : settingsStep s (.setPromote p) = some s') :
    Inv s' := by
  rcases hcall : s.call with _ | c <;> simp only [settingsStep, hcall, reduceCtorEq] at h
  rcases hdb : s.db with _ | db <;>
    simp only [hdb, bind_none, bind_some, reduceCtorEq] at h
  obtain ⟨db', hstep, hs'⟩ := map_eq_some_iff.mp h
  rw [← hs']
  obtain ⟨hengine, hcases⟩ := step_setPromote hstep
  obtain ⟨hnone, hsame⟩ := (hi.callOk db hdb).idle hcall
  have hforce := inForce_of_db _ hdb
  have hsame' : db'.engine.promote = readPromote s.info := by rw [hengine, hsame]
  rcases hcases with ⟨rfl, hp⟩ | ⟨w, hw, hkeys⟩
  · rw [hnone, isNone_none, if_pos rfl]
    refine Inv.returned ⟨p, s.inForce, false⟩ _ hi.clean hi.returns rfl rfl hnone hsame ?_
    refine ⟨fun _ => ?_, fun h => by cases h⟩
    show inForce _ = (p, p)
    rw [inForce_of_db db' rfl]
    exact Prod.ext hp (hsame.symm.trans hp)
  · rw [hw, isNone_some, if_neg Bool.false_ne_true]
    refine ⟨hi.clean, fun d hd => ?_, hi.returns⟩
    rw [← some.inj hd]
    refine ⟨fun h => (by cases h), fun c hc _ => ?_, fun c hc hper => ?_⟩
    · cases hc
      refine ⟨⟨w, hw, hkeys⟩, hsame', ?_⟩
      show s.inForce = (db'.engine.promote, readPromote s.info)
      rw [hforce, hengine]
    · cases hc
      cases hper

/-- The check of an attempt keeps the invariant. -/
theorem Inv.check (hi : Inv s) (h : settingsStep s .check = some s') : Inv s' := by
  rcases hdb : s.db with _ | db <;>
    simp only [settingsStep, hdb, bind_none, bind_some, reduceCtorEq] at h
  obtain ⟨db', hstep, hs'⟩ := map_eq_some_iff.mp h
  rw [← hs']
  have hok := hi.callOk db hdb
  obtain ⟨w, hw, hcases⟩ := step_check hstep
  -- the call in progress is the one whose attempt this is
  obtain ⟨c, hcall, hper⟩ : ∃ c, s.call = some c ∧ c.persisting = false := by
    rcases hcall : s.call with _ | c
    · rw [(hok.idle hcall).1] at hw
      cases hw
    · rcases hper : c.persisting with _ | _
      · exact ⟨c, rfl, hper⟩
      · rw [(hok.persisting c hcall hper).1] at hw
        cases hw
  obtain ⟨⟨w', hw', hkeys⟩, hsame, hbefore⟩ := hok.sealing c hcall hper
  rw [hw] at hw'
  cases hw'
  rcases hcases with ⟨hempty, hnone, hpromote⟩ | ⟨hfull, hengine, hnone | ⟨w', hw', hkeys'⟩⟩
  · rw [hnone, isSome_none, if_neg Bool.false_ne_true, if_pos hempty]
    refine ⟨hi.clean, fun d hd => ?_, hi.returns⟩
    rw [← some.inj hd]
    simp only [hcall, map_some]
    refine ⟨fun h => (by cases h), fun c' hc hper' => ?_, fun c' hc _ => ?_⟩
    · cases hc
      cases hper'
    · cases hc
      exact ⟨hnone, hpromote.trans hkeys⟩
  · rw [hnone, isSome_none, if_neg Bool.false_ne_true, hfull, if_neg Bool.false_ne_true]
    refine Inv.returned c _ hi.clean hi.returns rfl hcall hnone (by rw [hengine, hsame]) ?_
    refine ⟨fun h => (by cases h), fun _ => ?_⟩
    rw [hbefore, inForce_of_db _ hdb, inForce_of_db db' rfl, hengine]
  · rw [hw', isSome_some, if_pos rfl]
    refine ⟨hi.clean, fun d hd => ?_, hi.returns⟩
    rw [← some.inj hd]
    refine ⟨fun h => ?_, fun c' hc _ => ?_, fun c' hc hper' => ?_⟩
    · rw [show s.call = none from h] at hcall
      cases hcall
    · have heq : c = c' := some.inj (hcall.symm.trans hc)
      subst heq
      refine ⟨⟨w', hw', hkeys'.trans hkeys⟩, by rw [hengine, hsame], ?_⟩
      rw [hbefore, inForce_of_db _ hdb, inForce_of_db db' rfl, hengine]
    · have heq : c = c' := some.inj (hcall.symm.trans hc)
      subst heq
      rw [hper] at hper'
      cases hper'

/-- The write behind a swap keeps the invariant, when it succeeds and can be read back. -/
theorem Inv.persist (hi : Inv s) {wrote : Bool} (hok : Recordable s (.persist wrote))
    (h : settingsStep s (.persist wrote) = some s') : Inv s' := by
  rcases hcall : s.call with _ | c <;> rcases hdb : s.db with _ | db <;>
    simp only [settingsStep, hcall, hdb, reduceCtorEq] at h
  rcases hper : c.persisting with _ | _ <;>
    simp only [hper, Bool.false_eq_true, if_false, if_true, reduceCtorEq] at h
  rw [← some.inj h]
  obtain ⟨rfl, hclean⟩ := hok
  have hcleanc := hclean c hcall
  obtain ⟨hnone, hkeys⟩ := (hi.callOk db hdb).persisting c hcall hper
  have hread : readPromote (writeInfoAt true s.walMode db.engine.promote s.retention s.info) =
      c.promote := by
    rw [hkeys]
    exact readPromote_infoText _ _ hcleanc
  refine Inv.returned c db ?_ hi.returns rfl rfl hnone ?_ ⟨fun _ => ?_, fun h => by cases h⟩
  · exact hread.symm ▸ hcleanc
  · exact hkeys.trans hread.symm
  · show inForce _ = (c.promote, c.promote)
    rw [inForce_of_db db rfl]
    exact Prod.ext hkeys hread

/-- A refresh keeps the recorded keys. -/
theorem readPromote_writeInfo (wrote : Bool) (mode : WalMode) {info : Option Text}
    (h : (readPromote info).Clean) : readPromote (writeInfo wrote mode info) = readPromote info := by
  unfold writeInfo writeInfoAt
  split
  · exact readPromote_infoText _ _ h
  · rfl

/-- An open keeps the invariant. -/
theorem Inv.opened (hi : Inv s) {o : Opening D} (hok : Recordable s (.open o)) :
    Inv (s.opened o) := by
  have hrefresh := readPromote_writeInfo o.refreshed o.walMode hi.clean
  have heffective : (o.promote.getD (readPromote s.info)).Clean := by
    rcases hp : o.promote with _ | p
    · exact hi.clean
    · exact hok p hp
  unfold Settings.opened
  simp only
  split
  · rcases hw : o.wrote with _ | _
    · refine ⟨?_, fun d hd => (by cases hd), hi.returns⟩
      show (readPromote (writeInfo o.refreshed o.walMode s.info)).Clean
      rw [hrefresh]
      exact hi.clean
    · have hread : ∀ r, readPromote (writeInfoAt true o.walMode (o.promote.getD (readPromote s.info))
          r (writeInfo o.refreshed o.walMode s.info)) = o.promote.getD (readPromote s.info) :=
        fun r => readPromote_infoText _ _ heffective
      refine ⟨?_, fun d hd => ?_, hi.returns⟩
      · exact (congrArg Promote.Clean (hread _)).mpr heffective
      · cases hd
        refine ⟨fun _ => ⟨rfl, ?_⟩, fun _ h => (by cases h), fun _ h => (by cases h)⟩
        exact (hread _).symm
  · rename_i hsame
    have hkeys : o.promote.getD (readPromote s.info) = readPromote s.info := by
      by_contra hne
      exact hsame (.inl hne)
    refine ⟨?_, fun d hd => ?_, hi.returns⟩
    · show (readPromote (writeInfo o.refreshed o.walMode s.info)).Clean
      rw [hrefresh]
      exact hi.clean
    · cases hd
      refine ⟨fun _ => ⟨rfl, ?_⟩, fun _ h => (by cases h), fun _ h => (by cases h)⟩
      exact hkeys.trans hrefresh.symm

/-- **One step.** -/
theorem Inv.step (hi : Inv s) {e : SettingsEvent D} (hok : Recordable s e)
    (h : settingsStep s e = some s') : Inv s' := by
  cases e with
  | engine e => exact hi.engine h
  | setPromote p => exact hi.setPromote h
  | check => exact hi.check h
  | persist wrote => exact hi.persist hok h
  | «open» o =>
      rw [← some.inj h]
      exact hi.opened hok
  | drop =>
      rw [← some.inj h]
      exact ⟨hi.clean, fun d hd => (by cases hd), hi.returns⟩

end Settings

open Settings

/-- **`set_promote` is atomic and durable**, in every run each step of which is recordable: a call that
succeeded left its keys in memory and on disk, one that failed left both as they were, and between calls
the two agree. -/
theorem set_promote_atomic (es : List (SettingsEvent D)) {s : Settings D}
    (hg : Guarded settingsStep Recordable fresh es) (hrun : run settingsStep fresh es = some s) :
    (∀ r ∈ s.returns, r.Atomic) ∧
      (s.call = none → ∀ db, s.db = some db → db.engine.promote = readPromote s.info) := by
  have hinv : Inv s := run_induction Inv (fun s e s' hi hok h => hi.step hok h) inv_fresh hg hrun
  exact ⟨hinv.returns, fun hcall db hdb => ((hinv.callOk db hdb).idle hcall).2⟩

/-- An open of a directory without segments and without a log. -/
def Opening.plain (promote : Option Promote) : Opening Unit :=
  ⟨promote, .always, none, false, true, fun _ => [], 0, 1, []⟩

/-- One promoted key. -/
def oneKey : Promote := ⟨[['k']], List.nodup_singleton _⟩

/-- A `set_promote` that succeeds. -/
def promoteKey : List (SettingsEvent Unit) :=
  [.open (.plain none), .setPromote oneKey, .engine (.freeze 0), .check, .persist true]

theorem set_promote_atomic_promoteKey :
    ∃ s r, run settingsStep fresh promoteKey = some s ∧ s.returns = [r] ∧ r.ok = true ∧
      r.after = (oneKey, oneKey) := by
  obtain ⟨s, hs⟩ : ∃ s, run settingsStep fresh promoteKey = some s := ⟨_, rfl⟩
  obtain ⟨r, hr, hok, hkeys⟩ : ∃ r, s.returns = [r] ∧ r.ok = true ∧ r.promote = oneKey := by
    rw [← some.inj hs]
    exact ⟨_, rfl, rfl, rfl⟩
  have hg : Guarded settingsStep Recordable fresh promoteKey := by
    refine ⟨fun p hp => (by cases hp), trivial, trivial, trivial, ⟨rfl, fun c hc => ?_⟩, trivial⟩
    cases hc
    show oneKey.Clean
    decide
  have hatomic := (set_promote_atomic promoteKey hg hs).1 r (hr ▸ List.mem_cons_self)
  exact ⟨s, r, hs, hr, hok, (hatomic.1 hok).trans (by rw [hkeys])⟩

/-- The write behind the swap fails, and the call is made again. -/
def retryPromote : List (SettingsEvent Unit) :=
  [.open (.plain none), .setPromote oneKey, .engine (.freeze 0), .check, .persist false,
    .setPromote oneKey]

/-- The call whose write fails returns an error and leaves its keys in memory; the retry finds them there
and reports success, although nothing was written. -/
theorem retry_not_durable :
    ¬ ∀ (es : List (SettingsEvent Unit)) (s : Settings Unit), run settingsStep fresh es = some s →
      ∀ r ∈ s.returns, r.Atomic := by
  intro h
  obtain ⟨s, hs⟩ : ∃ s, run settingsStep fresh retryPromote = some s := ⟨_, rfl⟩
  have hmem : (⟨oneKey, true, (oneKey, readPromote none), (oneKey, readPromote none)⟩ : Returned) ∈
      s.returns := by
    rw [← some.inj hs]
    exact List.mem_cons_of_mem _ List.mem_cons_self
  have hafter := (h retryPromote s hs _ hmem).1 rfl
  exact absurd (congrArg (fun p => p.2.keys) hafter) (List.cons_ne_nil _ _).symm

end Imbh.Storage
