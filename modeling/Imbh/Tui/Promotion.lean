import Imbh.Lib.Runs
import Imbh.Storage.Info

/-!
# Promotion toggles

A toggle sends the whole list of promoted keys, made from the list that the explorer holds. The explorer's list
is what the last answer carried: a read of the set, which is empty when it failed, or the answer to a write.

* `toggles_flip` — in a run whose presses are made on the daemon's keys, the promoted set is the initial one
  with the keys flipped that were toggled an odd number of times.
-/

namespace Imbh.Tui

open Lib Storage List Function

/-! ## The explorer -/

/-- Source: `backend.rs` `Backend` -/
inductive Backend
  | embedded
  | remote
  deriving DecidableEq

/-- Source: `backend.rs` `Backend::can_promote` -/
def Backend.canPromote (backend : Backend) : Bool := backend = .remote

/-- What the explorer knows of the promotion. Source: `app/mod.rs` `App` -/
structure App where
  promoted : List Text
  lastError : Option Text
  deriving DecidableEq

/-- Source: `keys.rs` `toggle_promotion`, `last_error` -/
def cannotPromote : Text :=
  ("promotion changes what the writer writes, and this session opened the database read-only. Point the " ++
    "explorer at the daemon that owns it (`imbh-tui --url http://host:4318`) to change the promoted keys.").toList

/-- The list with the key taken out or put in. Source: `keys.rs` `toggle_promotion`, `keys` -/
def toggled (keys : List Text) (key : Text) : List Text :=
  if key ∈ keys then keys.erase key else keys ++ [key]

/-- The keys that a press sends, with the key of the cursor. Source: `keys.rs` `toggle_promotion` -/
def togglePromotion (backend : Backend) (app : App) (selected : Option Text) : App × Option (List Text) :=
  match selected with
  | none => (app, none)
  | some key =>
      if !backend.canPromote then ({ app with lastError := some cannotPromote }, none)
      else (app, some (toggled app.promoted key))

/-- Source: `runtime.rs` `Update::Promoted` -/
def App.takePromoted (app : App) : Except Text (List Text) → App
  | .ok keys => { promoted := keys, lastError := none }
  | .error error => { app with lastError := some error }

/-! ## The daemon and the requests -/

/-- How far a request is: a read of the promoted keys or a write of them is on its way to the daemon, a write
was made and its answer is not, or the answer is on its way back.
Source: `tasks.rs` `request_attribute_stats` and `request_promotion` -/
inductive Request
  | read
  | write (keys : List Text)
  | written
  | answered (result : Except Text (List Text))

/-- The explorer, the daemon's promoted keys and the requests between them. `toggles` are the keys of the presses
so far. -/
structure Session where
  app : App
  daemon : Promote
  requests : ℕ → Option Request
  toggles : List Text

/-- The explorer is attached to a daemon with the keys. -/
def Session.init (daemon : Promote) : Session := ⟨⟨[], none⟩, daemon, fun _ => none, []⟩

/-- What happens: a press, a measurement of the attributes, which reads the keys, the daemon's part of a request
or its failure, and the arrival of an answer. -/
inductive SessionEvent
  | press (selected : Option Text) (request : ℕ)
  | measure (request : ℕ)
  | serve (request : ℕ)
  | fail (request : ℕ) (error : Text)
  | arrive (request : ℕ)

/-- The session with the request at another point. -/
def Session.set (s : Session) (i : ℕ) (request : Option Request) : Session :=
  { s with requests := update s.requests i request }

/-- The daemon's part of a request. Source: `lib.rs` (`imbh-server`) `admin_promoted` and `admin_promote` -/
def Session.serve (s : Session) (i : ℕ) : Request → Option Session
  | .read => some (s.set i (some (.answered (.ok s.daemon.keys))))
  | .write keys => some { s.set i (some .written) with daemon := Promote.new keys }
  | .written => some (s.set i (some (.answered (.ok s.daemon.keys))))
  | .answered _ => none

/-- What a request that fails is answered with: a read with no keys, by its `unwrap_or_default`. -/
def Session.fail (s : Session) (i : ℕ) (error : Text) : Request → Option Session
  | .read => some (s.set i (some (.answered (.ok []))))
  | .write _ => some (s.set i (some (.answered (.error error))))
  | .written => some (s.set i (some (.answered (.error error))))
  | .answered _ => none

def sessionStep (s : Session) : SessionEvent → Option Session
  | .press selected i =>
      match s.requests i, togglePromotion .remote s.app selected, selected with
      | none, (_, some keys), some key =>
          some { s.set i (some (.write keys)) with toggles := s.toggles ++ [key] }
      | none, (app, none), _ => some { s with app := app }
      | _, _, _ => none
  | .measure i =>
      match s.requests i with
      | none => some (s.set i (some .read))
      | some _ => none
  | .serve i => (s.requests i).bind (s.serve i)
  | .fail i error => (s.requests i).bind (s.fail i error)
  | .arrive i =>
      match s.requests i with
      | some (.answered result) => some { s.set i none with app := s.app.takePromoted result }
      | _ => none

/-! ## Flipping -/

theorem mem_foldl_push (keys : List Text) (p : Promote) (k : Text) :
    k ∈ (keys.foldl Promote.push p).keys ↔ k ∈ p.keys ∨ k ∈ keys := by
  induction keys generalizing p with
  | nil => simp
  | cons key keys ih =>
    have hpush : k ∈ (p.push key).keys ↔ k ∈ p.keys ∨ k = key := by
      unfold Promote.push
      split
      · rename_i hmem
        constructor
        · intro h
          exact .inl h
        · rintro (h | rfl)
          · exact h
          · exact hmem
      · exact mem_append.trans (or_congr Iff.rfl mem_singleton)
    rw [foldl_cons, ih, hpush, mem_cons, or_assoc]

/-- The promoted set has the keys that were sent. -/
theorem mem_promote_new {keys : List Text} {k : Text} : k ∈ (Promote.new keys).keys ↔ k ∈ keys := by
  rw [Promote.new, mem_foldl_push]
  exact or_iff_right not_mem_nil

/-- Toggling flips the one key. -/
theorem mem_toggled {keys : List Text} (h : keys.Nodup) (key k : Text) :
    k ∈ toggled keys key ↔ Xor (k ∈ keys) (k = key) := by
  unfold toggled
  split
  · rename_i hmem
    rw [h.mem_erase_iff]
    constructor
    · rintro ⟨hne, hk⟩
      exact .inl ⟨hk, hne⟩
    · rintro (⟨hk, hne⟩ | ⟨rfl, hnot⟩)
      · exact ⟨hne, hk⟩
      · exact absurd hmem hnot
  · rename_i hnot
    rw [mem_append, mem_singleton]
    constructor
    · rintro (hk | rfl)
      · exact .inl ⟨hk, fun heq => hnot (heq ▸ hk)⟩
      · exact .inr ⟨rfl, hnot⟩
    · rintro (⟨hk, -⟩ | ⟨heq, -⟩)
      · exact .inl hk
      · exact .inr heq

/-- A toggle sends the daemon's keys with the one flipped if and only if the explorer holds the daemon's keys. -/
theorem toggled_exact_iff {app : App} {daemon : Promote} (h : app.promoted.Nodup) (key : Text) :
    (∀ k, k ∈ (Promote.new (toggled app.promoted key)).keys ↔ Xor (k ∈ daemon.keys) (k = key)) ↔
      ∀ k, k ∈ app.promoted ↔ k ∈ daemon.keys := by
  refine forall_congr' fun k => ?_
  rw [mem_promote_new, mem_toggled h]
  unfold Xor
  tauto

/-- The keys are the initial ones with those flipped that were toggled an odd number of times. -/
def Flipped (initial : Promote) (toggles keys : List Text) : Prop :=
  ∀ k, k ∈ keys ↔ Xor (k ∈ initial.keys) (Odd (toggles.count k))

/-- A key that was not toggled is as it was. -/
theorem Flipped.of_not_mem {initial : Promote} {toggles keys : List Text} (h : Flipped initial toggles keys) {k : Text}
    (hk : k ∉ toggles) : k ∈ keys ↔ k ∈ initial.keys := by
  rw [h k, count_eq_zero.mpr hk]
  simp [Xor]

theorem flipped_nil (initial : Promote) : Flipped initial [] initial.keys := by
  intro k
  simp [Xor]

/-- One more toggle flips the one key. -/
theorem Flipped.toggle {initial : Promote} {toggles keys keys' : List Text} (h : Flipped initial toggles keys)
    {key : Text} (hkeys : ∀ k, k ∈ keys' ↔ Xor (k ∈ keys) (k = key)) :
    Flipped initial (toggles ++ [key]) keys' := by
  intro k
  rw [hkeys, h k, count_append, count_singleton]
  by_cases heq : k = key
  · rw [if_pos (beq_iff_eq.mpr heq.symm), Nat.odd_add_one]
    unfold Xor
    tauto
  · rw [if_neg (by simpa using Ne.symm heq), Nat.add_zero]
    unfold Xor
    tauto

/-! ## Runs -/

/-- A press is made on the daemon's keys while no write is on its way to it, and no write is refused. -/
def Fresh (s : Session) : SessionEvent → Prop
  | .press (some _) _ =>
      (∀ i keys, s.requests i ≠ some (.write keys)) ∧ ∀ k, k ∈ s.app.promoted ↔ k ∈ s.daemon.keys
  | .fail i _ => ∀ keys, s.requests i ≠ some (.write keys)
  | _ => True

/-- What holds in every state of a run with fresh presses. -/
structure SessionInv (initial : Promote) (s : Session) : Prop where
  nodup : s.app.promoted.Nodup
  answers : ∀ i keys, s.requests i = some (.answered (.ok keys)) → keys.Nodup
  writes : ∀ i keys, s.requests i = some (.write keys) → Flipped initial s.toggles keys
  one : ∀ i j keys keys', s.requests i = some (.write keys) → s.requests j = some (.write keys') → i = j
  quiet : (∀ i keys, s.requests i ≠ some (.write keys)) → Flipped initial s.toggles s.daemon.keys
  others : ∀ k, k ∉ s.toggles → (k ∈ s.daemon.keys ↔ k ∈ initial.keys)

theorem SessionInv.init (initial : Promote) : SessionInv initial (Session.init initial) where
  nodup := nodup_nil
  answers _ _ h := nomatch h
  writes _ _ h := nomatch h
  one _ _ _ _ h := nomatch h
  quiet _ := flipped_nil initial
  others _ _ := Iff.rfl

variable {initial : Promote} {s s' : Session} {i : ℕ}

/-- A request is the one that was set, or was there before. -/
theorem Session.requests_set {i j : ℕ} {request : Option Request} {r : Request}
    (h : (s.set i request).requests j = some r) : j = i ∧ request = some r ∨ j ≠ i ∧ s.requests j = some r := by
  have h' : update s.requests i request j = some r := h
  by_cases heq : j = i
  · rw [heq, update_self] at h'
    exact .inl ⟨heq, h'⟩
  · rw [update_of_ne heq] at h'
    exact .inr ⟨heq, h'⟩

/-- A request that is not a write, at a place where no write was. -/
theorem SessionInv.set (h : SessionInv initial s) (i : ℕ) (hold : ∀ keys, s.requests i ≠ some (.write keys))
    (request : Option Request) (hnew : ∀ keys, request ≠ some (.write keys))
    (hanswer : ∀ keys, request = some (.answered (.ok keys)) → keys.Nodup) : SessionInv initial (s.set i request) := by
  have hwrite {j : ℕ} {keys : List Text} (hj : (s.set i request).requests j = some (.write keys)) :
      s.requests j = some (.write keys) := by
    rcases Session.requests_set hj with ⟨-, heq⟩ | ⟨-, hj⟩
    · exact absurd heq (hnew keys)
    · exact hj
  constructor
  · exact h.nodup
  · intro j keys hj
    rcases Session.requests_set hj with ⟨-, heq⟩ | ⟨-, hj⟩
    · exact hanswer keys heq
    · exact h.answers j keys hj
  · intro j keys hj
    exact h.writes j keys (hwrite hj)
  · intro j j' keys keys' hj hj'
    exact h.one j j' keys keys' (hwrite hj) (hwrite hj')
  · intro hquiet
    refine h.quiet fun j keys hj => hquiet j keys ?_
    have hne : j ≠ i := fun heq => hold keys (heq ▸ hj)
    exact (update_of_ne hne _ _).trans hj
  · exact h.others

/-- A write is sent, while none is on its way and the explorer holds the daemon's keys. -/
theorem SessionInv.send (h : SessionInv initial s) {key : Text} (hfresh : Fresh s (.press (some key) i)) :
    SessionInv initial
      { s.set i (some (.write (toggled s.app.promoted key))) with toggles := s.toggles ++ [key] } := by
  obtain ⟨hquiet, hsame⟩ := hfresh
  have hflip := (h.quiet hquiet).toggle fun k => mem_promote_new.symm.trans
    ((toggled_exact_iff h.nodup key).mpr hsame k)
  constructor
  · exact h.nodup
  · intro j keys hj
    rcases Session.requests_set hj with ⟨-, heq⟩ | ⟨-, hj⟩
    · cases heq
    · exact h.answers j keys hj
  · intro j keys hj
    rcases Session.requests_set hj with ⟨-, heq⟩ | ⟨-, hj⟩
    · cases heq
      exact hflip
    · exact absurd hj (hquiet j keys)
  · intro j j' keys keys' hj hj'
    rcases Session.requests_set hj with ⟨hji, -⟩ | ⟨-, hj⟩
    · rcases Session.requests_set hj' with ⟨hji', -⟩ | ⟨-, hj'⟩
      · exact hji.trans hji'.symm
      · exact absurd hj' (hquiet j' keys')
    · exact absurd hj (hquiet j keys)
  · intro hnone
    exact absurd (update_self i _ s.requests) (hnone i (toggled s.app.promoted key))
  · intro k hk
    exact h.others k fun hmem => hk (mem_append_left _ hmem)

/-- The daemon takes the keys of the one write. -/
theorem SessionInv.wrote (h : SessionInv initial s) {sent : List Text} (hi : s.requests i = some (.write sent)) :
    SessionInv initial { s.set i (some .written) with daemon := Promote.new sent } := by
  have hdaemon : Flipped initial s.toggles (Promote.new sent).keys := fun k => mem_promote_new.trans
    (h.writes i sent hi k)
  have hnone {j : ℕ} {keys : List Text} (hj : (s.set i (some .written)).requests j = some (.write keys)) : False := by
    rcases Session.requests_set hj with ⟨-, heq⟩ | ⟨hne, hj⟩
    · cases heq
    · exact hne (h.one j i keys sent hj hi)
  constructor
  · exact h.nodup
  · intro j keys hj
    rcases Session.requests_set hj with ⟨-, heq⟩ | ⟨-, hj⟩
    · cases heq
    · exact h.answers j keys hj
  · exact fun j keys hj => (hnone hj).elim
  · exact fun j j' keys keys' hj _ => (hnone hj).elim
  · exact fun _ => hdaemon
  · exact fun k hk => hdaemon.of_not_mem hk

/-- Fresh presses and the other steps keep the invariant. -/
theorem SessionInv.step (h : SessionInv initial s) {e : SessionEvent} (hfresh : Fresh s e)
    (hstep : sessionStep s e = some s') : SessionInv initial s' := by
  match e with
  | .press none i =>
    rcases hi : s.requests i with _ | request
    · simp only [sessionStep, hi, togglePromotion, Option.some.injEq] at hstep
      exact hstep ▸ h
    · simp only [sessionStep, hi, reduceCtorEq] at hstep
  | .press (some key) i =>
    rcases hi : s.requests i with _ | request
    · have hsent : togglePromotion .remote s.app (some key) = (s.app, some (toggled s.app.promoted key)) := rfl
      simp only [sessionStep, hi, hsent, Option.some.injEq] at hstep
      exact hstep ▸ h.send hfresh
    · simp only [sessionStep, hi, reduceCtorEq] at hstep
  | .measure i =>
    rcases hi : s.requests i with _ | request
    · simp only [sessionStep, hi, Option.some.injEq] at hstep
      rw [← hstep]
      exact h.set i (fun keys hw => nomatch hi.symm.trans hw) _ (fun keys hw => nomatch hw) fun keys hw => nomatch hw
    · simp only [sessionStep, hi, reduceCtorEq] at hstep
  | .serve i =>
    obtain ⟨request, hi, hserve⟩ := Option.bind_eq_some_iff.mp hstep
    match request with
    | .read =>
      rw [← Option.some.inj hserve]
      refine h.set i (fun keys hw => nomatch hi.symm.trans hw) _ (fun keys hw => nomatch hw) fun keys hw => ?_
      cases hw
      exact s.daemon.nodup
    | .written =>
      rw [← Option.some.inj hserve]
      refine h.set i (fun keys hw => nomatch hi.symm.trans hw) _ (fun keys hw => nomatch hw) fun keys hw => ?_
      cases hw
      exact s.daemon.nodup
    | .write sent =>
      rw [← Option.some.inj hserve]
      exact h.wrote hi
  | .fail i error =>
    obtain ⟨request, hi, hfail⟩ := Option.bind_eq_some_iff.mp hstep
    match request with
    | .read =>
      rw [← Option.some.inj hfail]
      refine h.set i hfresh _ (fun keys hw => nomatch hw) fun keys hw => ?_
      cases hw
      exact nodup_nil
    | .write sent => exact absurd hi (hfresh sent)
    | .written =>
      rw [← Option.some.inj hfail]
      exact h.set i hfresh _ (fun keys hw => nomatch hw) fun keys hw => nomatch hw
  | .arrive i =>
    rcases hi : s.requests i with _ | request
    · simp only [sessionStep, hi, reduceCtorEq] at hstep
    · match request with
      | .answered (.ok keys) =>
        simp only [sessionStep, hi, Option.some.injEq] at hstep
        rw [← hstep]
        have hset := h.set i (fun keys hw => nomatch hi.symm.trans hw) none (fun keys hw => nomatch hw)
          fun keys hw => nomatch hw
        exact ⟨h.answers i keys hi, hset.answers, hset.writes, hset.one, hset.quiet, hset.others⟩
      | .answered (.error error) =>
        simp only [sessionStep, hi, Option.some.injEq] at hstep
        rw [← hstep]
        have hset := h.set i (fun keys hw => nomatch hi.symm.trans hw) none (fun keys hw => nomatch hw)
          fun keys hw => nomatch hw
        exact ⟨h.nodup, hset.answers, hset.writes, hset.one, hset.quiet, hset.others⟩
      | .read => simp only [sessionStep, hi, reduceCtorEq] at hstep
      | .write keys => simp only [sessionStep, hi, reduceCtorEq] at hstep
      | .written => simp only [sessionStep, hi, reduceCtorEq] at hstep

/-- In a run with fresh presses, the keys that were not toggled stay as they were, and once every request is
answered the daemon's keys are the initial ones with those flipped that were toggled an odd number of times. The
next press sends the daemon's keys with the one flipped if and only if it is fresh. -/
theorem toggles_flip (es : List SessionEvent) (hfresh : Guarded sessionStep Fresh (Session.init initial) es)
    (hrun : run sessionStep (Session.init initial) es = some s) :
    (∀ k, k ∉ s.toggles → (k ∈ s.daemon.keys ↔ k ∈ initial.keys)) ∧
      ((∀ i, s.requests i = none) → ∀ k, k ∈ s.daemon.keys ↔ Xor (k ∈ initial.keys) (Odd (s.toggles.count k))) ∧
      ∀ key, (∀ k, k ∈ (Promote.new (toggled s.app.promoted key)).keys ↔ Xor (k ∈ s.daemon.keys) (k = key)) ↔
        ∀ k, k ∈ s.app.promoted ↔ k ∈ s.daemon.keys := by
  have hinv := run_induction (SessionInv initial) (fun _ _ _ h hfresh hstep => h.step hfresh hstep)
    (SessionInv.init initial) hfresh hrun
  refine ⟨hinv.others, fun hnone => hinv.quiet fun i keys hw => (nomatch (hnone i).symm.trans hw), fun key => ?_⟩
  exact toggled_exact_iff hinv.nodup key

/-- The keys are read, and then one more is toggled. -/
theorem one_promoted :
    ∃ s, run sessionStep (Session.init (.new ["a".toList])) [.measure 0, .serve 0, .arrive 0,
        .press (some "b".toList) 0, .serve 0, .serve 0, .arrive 0] = some s ∧
      ((∀ k, k ∉ s.toggles → (k ∈ s.daemon.keys ↔ k ∈ (Promote.new ["a".toList]).keys)) ∧
        ∀ k, k ∈ s.daemon.keys ↔ Xor (k ∈ (Promote.new ["a".toList]).keys) (Odd (s.toggles.count k))) := by
  have hfresh : Guarded sessionStep Fresh (Session.init (.new ["a".toList])) [.measure 0, .serve 0, .arrive 0,
      .press (some "b".toList) 0, .serve 0, .serve 0, .arrive 0] := by
    refine ⟨trivial, trivial, trivial, ⟨?_, fun _ => Iff.rfl⟩, trivial, trivial, trivial, trivial⟩
    intro i keys hw
    match i with
    | 0 => exact nomatch hw
    | _ + 1 => exact nomatch hw
  obtain ⟨hothers, hflip, -⟩ := toggles_flip _ hfresh rfl
  refine ⟨_, rfl, hothers, hflip ?_⟩
  intro i
  match i with
  | 0 => rfl
  | _ + 1 => rfl

/-- After a read that failed a toggle demotes the other keys, and of two toggles before an answer the first is
lost. -/
theorem keys_lost :
    (∃ s, run sessionStep (Session.init (.new ["a".toList])) [.measure 0, .fail 0 "timeout".toList, .arrive 0,
        .press (some "b".toList) 0, .serve 0, .serve 0, .arrive 0] = some s ∧
      (∀ i, s.requests i = none) ∧ "a".toList ∉ s.toggles ∧ "a".toList ∈ (Promote.new ["a".toList]).keys ∧
        "a".toList ∉ s.daemon.keys) ∧
    ∃ s, run sessionStep (Session.init (.new ["a".toList])) [.measure 0, .serve 0, .arrive 0,
        .press (some "b".toList) 0, .press (some "c".toList) 1, .serve 0, .serve 1, .serve 0, .arrive 0, .serve 1,
        .arrive 1] = some s ∧
      (∀ i, s.requests i = none) ∧ s.toggles.count "b".toList = 1 ∧
        "b".toList ∉ (Promote.new ["a".toList]).keys ∧ "b".toList ∉ s.daemon.keys := by
  refine ⟨⟨_, rfl, ?_, by decide, by decide, by decide⟩, ⟨_, rfl, ?_, by decide, by decide, by decide⟩⟩
  · intro i
    match i with
    | 0 => rfl
    | _ + 1 => rfl
  · intro i
    match i with
    | 0 => rfl
    | 1 => rfl
    | _ + 2 => rfl

end Imbh.Tui
