import Imbh.Lib.Keyed
import Imbh.Lib.Runs
import Imbh.Lib.Text

/-!
# The streams of the log driver

A start claims its path, spawns a reader and waits for the open; a failed start releases the path. A stop
takes the claim of a path and asks its reader to stop, and the shutdown does so with all claims.

* `fifo_sound` — a path has at most one reader that is not asked to stop, a claim has a start or a reader
  that a stop reaches, a reader keeps its claim, and after the shutdown all readers are asked to stop. It
  holds of the runs in which a release finds its own claim or none, a claimed reader does not end and no
  start claims after the shutdown.
-/

namespace Imbh.Docker

open Lib List Option

/-- Where the call of a start is. `failed` has a claim to release. -/
inductive CallPhase
  | claimed
  | waiting
  | failed
  | returned
  deriving DecidableEq

/-- Where the reader thread of a start is. Source: `mod.rs` `pump` -/
inductive ReaderPhase
  | notSpawned
  | opening
  | reading
  | ended
  deriving DecidableEq

/-- The reader runs. -/
def ReaderPhase.alive : ReaderPhase → Bool
  | .opening | .reading => true
  | .notSpawned | .ended => false

/-- A start with its stop flag and what the reader reported of the open. Source: `mod.rs` `Stream`,
`Plugin::start_logging` -/
structure Start where
  path : Text
  stop : Bool
  call : CallPhase
  reader : ReaderPhase
  ready : Option Bool
  deriving DecidableEq

/-- The registered streams, by their path with the number of the start, all starts, and the streams that
the shutdown has taken and not yet stopped. Source: `mod.rs` `Plugin` -/
structure FifoState where
  streams : List (Text × ℕ)
  starts : List Start
  closing : Bool
  taken : List ℕ

def FifoState.init : FifoState := ⟨[], [], false, []⟩

inductive FifoEvent
  | start (path : Text)
  | spawn (n : ℕ) (ok : Bool)
  | opened (n : ℕ)
  | openFailed (n : ℕ)
  | vanish (n : ℕ)
  | answer (n : ℕ)
  | timeout (n : ℕ)
  | release (n : ℕ)
  | stop (path : Text)
  | readerEnd (n : ℕ)
  | shutdown
  | stopTaken

/-- Edits the start of the number, if it is as asked. -/
def FifoState.edit (s : FifoState) (n : ℕ) (ask : Start → Bool) (f : Start → Start) : Option FifoState :=
  match s.starts[n]? with
  | some st => if ask st then some { s with starts := s.starts.set n (f st) } else none
  | none => none

/-- Asks the reader of a start to stop. -/
def FifoState.askStop (s : FifoState) (n : ℕ) : Option FifoState :=
  s.edit n (fun _ => true) fun st => { st with stop := true }

/-- Source: `mod.rs` `Plugin::start_logging`, `Plugin::stop_logging`, `Plugin::shutdown`, `pump` -/
def fifoStep (s : FifoState) : FifoEvent → Option FifoState
  | .start path =>
      if path ∈ s.streams.map Prod.fst then some s
      else some { s with
        streams := s.streams ++ [(path, s.starts.length)]
        starts := s.starts ++ [⟨path, false, .claimed, .notSpawned, none⟩] }
  | .spawn n ok =>
      s.edit n (fun st => st.call = .claimed) fun st =>
        if ok then { st with call := .waiting, reader := .opening } else { st with call := .failed }
  | .opened n =>
      s.edit n (fun st => st.reader = .opening) fun st => { st with reader := .reading, ready := some true }
  | .openFailed n =>
      s.edit n (fun st => st.reader = .opening) fun st => { st with reader := .ended, ready := some false }
  | .vanish n => s.edit n (fun st => st.reader = .opening) fun st => { st with reader := .ended }
  | .answer n =>
      s.edit n (fun st => st.call = .waiting ∧ (st.ready.isSome ∨ st.reader = .ended)) fun st =>
        { st with call := if st.ready = some true then .returned else .failed }
  | .timeout n =>
      s.edit n (fun st => st.call = .waiting ∧ st.reader = .opening) fun st => { st with call := .returned }
  | .release n =>
      match s.starts[n]? with
      | some st =>
          (s.edit n (fun st => st.call = .failed) fun st => { st with call := .returned }).map fun s' =>
            { s' with streams := s.streams.filter fun e => e.1 ≠ st.path }
      | none => none
  | .stop path =>
      match s.streams.find? fun e => e.1 = path with
      | some e => (s.askStop e.2).map fun s' =>
          { s' with streams := s.streams.filter fun e => e.1 ≠ path }
      | none => some s
  | .readerEnd n => s.edit n (fun st => st.reader = .reading) fun st => { st with reader := .ended }
  | .shutdown =>
      if s.closing then none
      else some { s with streams := [], closing := true, taken := s.streams.map Prod.snd }
  | .stopTaken =>
      match s.taken with
      | n :: rest => (s.askStop n).map fun s' => { s' with taken := rest }
      | [] => none

/-- The start of the number has its claim. -/
def FifoState.claims (s : FifoState) (n : ℕ) : Bool := s.streams.any fun e => e.2 = n

/-- A start claims before the shutdown; a release finds the claim of its own start, or none; a reader
that ends has no claim, but for one that fails to open while its start waits. -/
def Orderly (s : FifoState) : FifoEvent → Prop
  | .start _ => s.closing = false
  | .release n => ∀ st ∈ s.starts[n]?, ∀ e ∈ s.streams, e.1 = st.path → e.2 = n
  | .openFailed n | .vanish n => ∀ st ∈ s.starts[n]?, st.call = .returned → s.claims n = false
  | .readerEnd n => s.claims n = false
  | _ => True

instance (s : FifoState) : (e : FifoEvent) → Decidable (Orderly s e)
  | .start _ => inferInstanceAs (Decidable (_ = _))
  | .release n => inferInstanceAs (Decidable (∀ st ∈ s.starts[n]?, ∀ e ∈ s.streams, _ → _))
  | .openFailed n => inferInstanceAs (Decidable (∀ st ∈ s.starts[n]?, _ → _))
  | .vanish n => inferInstanceAs (Decidable (∀ st ∈ s.starts[n]?, _ → _))
  | .readerEnd _ => inferInstanceAs (Decidable (_ = _))
  | .spawn .. | .opened _ | .answer _ | .timeout _ | .stop _ | .shutdown | .stopTaken => .isTrue trivial

/-! ## The invariant -/

/-- The call of the start is in progress, or its reader runs. -/
def Start.active (st : Start) : Bool := st.call ≠ .returned || st.reader.alive

/-- What a start reports fits its reader. -/
structure Start.WellFormed (st : Start) : Prop where
  claimed : st.call = .claimed → st.reader = .notSpawned
  failed : st.call = .failed → st.reader.alive = false
  unspawned : st.reader = .notSpawned → st.ready = none
  opening : st.reader = .opening → st.ready = none
  rejected : st.ready = some false → st.reader = .ended
  spawned : st.call = .waiting → st.reader ≠ .notSpawned

/-- A claim is that of an active start, which is not asked to stop and whose reader runs once it is open;
and an active start that is not asked to stop has its claim, or the shutdown has it. -/
structure FifoInv (s : FifoState) : Prop where
  wellFormed : ∀ (n : ℕ) (st : Start), s.starts[n]? = some st → st.WellFormed
  keys : (s.streams.map Prod.fst).Nodup
  claim : ∀ e ∈ s.streams, ∃ st, s.starts[e.2]? = some st ∧ st.path = e.1 ∧ st.stop = false ∧
    st.active = true ∧ (st.ready = some true → st.reader.alive = true)
  kept : ∀ (n : ℕ) (st : Start), s.starts[n]? = some st → st.stop = false → st.active = true →
    (st.path, n) ∈ s.streams ∨ n ∈ s.taken
  closed : s.closing = true → s.streams = []
  opened : s.closing = false → s.taken = []
  paths : ∀ m ∈ s.taken, ∀ n ∈ s.taken, ∀ a b : Start, s.starts[m]? = some a →
    s.starts[n]? = some b → a.path = b.path → m = n

theorem fifo_init_inv : FifoInv .init where
  wellFormed _ _ h := absurd h (by simp [FifoState.init])
  keys := .nil
  claim _ h := absurd h not_mem_nil
  kept _ _ h := absurd h (by simp [FifoState.init])
  closed _ := rfl
  opened _ := rfl
  paths _ h := absurd h not_mem_nil

section

variable {s s' : FifoState} {n : ℕ} {st : Start}

/-- An edit changes one start, which allows it. -/
theorem edit_eq_some {ask : Start → Bool} {f : Start → Start} (h : s.edit n ask f = some s') :
    ∃ st, s.starts[n]? = some st ∧ ask st = true ∧ s' = { s with starts := s.starts.set n (f st) } := by
  unfold FifoState.edit at h
  split at h
  · rename_i st hst
    split at h
    · rename_i hask
      cases h
      exact ⟨st, hst, hask, rfl⟩
    · cases h
  · cases h

/-- The start of one number is replaced, on the same path. Claims of other starts stay. -/
theorem put_inv {streams : List (Text × ℕ)} {taken : List ℕ} (st' : Start) (h : FifoInv s)
    (hst : s.starts[n]? = some st) (hpath : st'.path = st.path) (hwell : st'.WellFormed)
    (hstreams : streams.Sublist s.streams) (hothers : ∀ e ∈ s.streams, e.2 ≠ n → e ∈ streams)
    (hclaim : (∃ e ∈ streams, e.2 = n) → st'.stop = false ∧ st'.active = true ∧
      (st'.ready = some true → st'.reader.alive = true))
    (hkept : st'.stop = false → st'.active = true → (st.path, n) ∈ streams ∨ n ∈ taken)
    (htaken : taken.Sublist s.taken) (hothers' : ∀ m ∈ s.taken, m ≠ n → m ∈ taken) :
    FifoInv ⟨streams, s.starts.set n st', s.closing, taken⟩ := by
  have hlt : n < s.starts.length := (List.getElem?_eq_some_iff.mp hst).1
  have hget : ∀ {m : ℕ} {a : Start}, (s.starts.set n st')[m]? = some a →
      m = n ∧ a = st' ∨ m ≠ n ∧ s.starts[m]? = some a := by
    intro m a ha
    by_cases hm : m = n
    · rw [hm, List.getElem?_set_self hlt] at ha
      exact .inl ⟨hm, (Option.some.inj ha).symm⟩
    · rw [List.getElem?_set_ne (Ne.symm hm)] at ha
      exact .inr ⟨hm, ha⟩
  -- A start has the path that it had.
  have hpaths : ∀ {m : ℕ} {a : Start}, (s.starts.set n st')[m]? = some a →
      ∃ b, s.starts[m]? = some b ∧ b.path = a.path := by
    intro m a ha
    rcases hget ha with ⟨rfl, rfl⟩ | ⟨-, ha⟩
    · exact ⟨st, hst, hpath.symm⟩
    · exact ⟨a, ha, rfl⟩
  refine ⟨?_, h.keys.sublist (hstreams.map _), ?_, ?_, ?_, ?_, ?_⟩
  · intro m a ha
    rcases hget ha with ⟨-, rfl⟩ | ⟨-, ha⟩
    · exact hwell
    · exact h.wellFormed m a ha
  · intro e he
    obtain ⟨a, ha, hpath', hrest⟩ := h.claim e (hstreams.subset he)
    by_cases hn : e.2 = n
    · refine ⟨st', ?_, ?_, hclaim ⟨e, he, hn⟩⟩
      · dsimp only
        rw [hn, List.getElem?_set_self hlt]
      · rw [hn, hst] at ha
        rw [hpath, Option.some.inj ha]
        exact hpath'
    · exact ⟨a, (List.getElem?_set_ne (Ne.symm hn)).trans ha, hpath', hrest⟩
  · intro m a ha hstop hactive
    rcases hget ha with ⟨rfl, rfl⟩ | ⟨hm, ha⟩
    · rw [hpath]
      exact hkept hstop hactive
    · exact (h.kept m a ha hstop hactive).imp (fun hmem => hothers _ hmem hm) fun hmem => hothers' m hmem hm
  · intro hclosing
    have hnil := h.closed hclosing
    rw [hnil] at hstreams
    exact List.sublist_nil.mp hstreams
  · intro hclosing
    have hnil := h.opened hclosing
    rw [hnil] at htaken
    exact List.sublist_nil.mp htaken
  · intro i hi j hj a b ha hb hab
    obtain ⟨a', ha', hpa⟩ := hpaths ha
    obtain ⟨b', hb', hpb⟩ := hpaths hb
    exact h.paths i (htaken.subset hi) j (htaken.subset hj) a' b' ha' hb' (hpa.trans (hab.trans hpb.symm))

/-- A start is edited and no claim is touched. -/
theorem edit_inv (st' : Start) (h : FifoInv s) (hst : s.starts[n]? = some st) (hpath : st'.path = st.path)
    (hstop : st'.stop = st.stop) (hwell : st'.WellFormed) (hactive : st'.active = true → st.active = true)
    (hclaim : s.claims n = true → st.active = true → (st.ready = some true → st.reader.alive = true) →
      st'.active = true ∧ (st'.ready = some true → st'.reader.alive = true)) :
    FifoInv { s with starts := s.starts.set n st' } := by
  apply put_inv st' h hst hpath hwell (Sublist.refl _) (fun e he _ => he) _ _ (Sublist.refl _)
    (fun m hm _ => hm)
  · rintro ⟨e, he, rfl⟩
    obtain ⟨a, ha, -, hstop', hactive', hready⟩ := h.claim e he
    obtain rfl := some.inj (ha.symm.trans hst)
    have hclaims : s.claims e.2 = true := any_eq_true.mpr ⟨e, he, decide_eq_true rfl⟩
    exact ⟨hstop.trans hstop', hclaim hclaims hactive' hready⟩
  · intro hstop' hactive'
    exact h.kept n st hst (hstop.symm.trans hstop') (hactive hactive')

/-! ## Steps -/

/-- A new start claims a free path. -/
theorem start_inv {path : Text} (h : FifoInv s) (hopen : s.closing = false)
    (hfree : path ∉ s.streams.map Prod.fst) :
    FifoInv { s with
      streams := s.streams ++ [(path, s.starts.length)]
      starts := s.starts ++ [⟨path, false, .claimed, .notSpawned, none⟩] } := by
  have hget : ∀ {m : ℕ} {a : Start}, (s.starts ++ [⟨path, false, .claimed, .notSpawned, none⟩])[m]? = some a →
      s.starts[m]? = some a ∨ m = s.starts.length ∧ a = ⟨path, false, .claimed, .notSpawned, none⟩ := by
    intro m a ha
    rcases lt_trichotomy m s.starts.length with hm | hm | hm
    · rw [List.getElem?_append_left hm] at ha
      exact .inl ha
    · rw [hm, List.getElem?_concat_length] at ha
      exact .inr ⟨hm, (Option.some.inj ha).symm⟩
    · rw [List.getElem?_eq_none (by simp; omega)] at ha
      cases ha
  have hold : ∀ {m : ℕ} {a : Start}, s.starts[m]? = some a →
      (s.starts ++ [⟨path, false, .claimed, .notSpawned, none⟩])[m]? = some a := by
    intro m a ha
    rw [List.getElem?_append_left (List.getElem?_eq_some_iff.mp ha).1]
    exact ha
  have hnil := h.opened hopen
  refine ⟨?_, ?_, ?_, ?_, ?_, fun _ => hnil, ?_⟩
  · intro m a ha
    rcases hget ha with ha | ⟨-, rfl⟩
    · exact h.wellFormed m a ha
    · constructor <;> simp [ReaderPhase.alive]
  · dsimp only
    rw [List.map_append]
    apply List.Nodup.append h.keys (List.nodup_singleton _)
    intro k hk hk'
    rw [List.mem_singleton.mp hk'] at hk
    exact hfree hk
  · intro e he
    rcases List.mem_append.mp he with he | he
    · obtain ⟨a, ha, hrest⟩ := h.claim e he
      exact ⟨a, hold ha, hrest⟩
    · rw [List.mem_singleton.mp he]
      exact ⟨_, List.getElem?_concat_length, rfl, rfl, rfl, fun hready => absurd hready (by simp)⟩
  · intro m a ha hstop hactive
    rcases hget ha with ha | ⟨rfl, rfl⟩
    · exact (h.kept m a ha hstop hactive).imp_left (List.mem_append_left _)
    · exact .inl (List.mem_append_right _ (List.mem_singleton_self _))
  · intro hclosing
    exact absurd (hopen.symm.trans hclosing) (by simp)
  · intro i hi
    dsimp only at hi
    rw [hnil] at hi
    exact absurd hi List.not_mem_nil

/-- A failed start releases its own claim, or none. -/
theorem release_inv (h : FifoInv s) (hst : s.starts[n]? = some st) (hfailed : st.call = .failed)
    (hown : ∀ e ∈ s.streams, e.1 = st.path → e.2 = n) :
    FifoInv { s with
      streams := s.streams.filter fun e => e.1 ≠ st.path
      starts := s.starts.set n { st with call := .returned } } := by
  have hwell := h.wellFormed n st hst
  apply put_inv { st with call := .returned } h hst rfl _ filter_sublist _ _ _ (Sublist.refl _) (fun m hm _ => hm)
  · refine ⟨fun hc => absurd hc (by simp), fun hc => absurd hc (by simp), hwell.unspawned, hwell.opening,
      hwell.rejected, fun hc => absurd hc (by simp)⟩
  · intro e he hne
    refine mem_filter.mpr ⟨he, decide_eq_true ?_⟩
    intro heq
    exact hne (hown e he heq)
  · rintro ⟨e, he, rfl⟩
    obtain ⟨he, hne⟩ := mem_filter.mp he
    obtain ⟨a, ha, hpath, -⟩ := h.claim e he
    rw [some.inj (ha.symm.trans hst)] at hpath
    exact absurd hpath.symm (of_decide_eq_true hne)
  · intro _ hactive
    have hdead := hwell.failed hfailed
    simp [Start.active, hdead] at hactive

/-- A stop takes the claim of the path and stops its reader. -/
theorem stop_fifo_inv {path : Text} {e : Text × ℕ} (h : FifoInv s)
    (hfind : s.streams.find? (fun e => e.1 = path) = some e) (hst : s.starts[e.2]? = some st) :
    FifoInv { s with
      streams := s.streams.filter fun e => e.1 ≠ path
      starts := s.starts.set e.2 { st with stop := true } } := by
  have hmem := mem_of_find?_eq_some hfind
  have hpath : e.1 = path := by simpa using find?_some hfind
  have hwell := h.wellFormed e.2 st hst
  apply put_inv { st with stop := true } h hst rfl _ filter_sublist _ _ _ (Sublist.refl _) (fun m hm _ => hm)
  · exact ⟨hwell.claimed, hwell.failed, hwell.unspawned, hwell.opening, hwell.rejected, hwell.spawned⟩
  · intro e' he' hne
    refine mem_filter.mpr ⟨he', decide_eq_true ?_⟩
    intro heq
    have hsame : e' = e := inj_on_of_nodup_map h.keys he' hmem (heq.trans hpath.symm)
    exact hne (congrArg Prod.snd hsame)
  · rintro ⟨e', he', heq⟩
    obtain ⟨he', hne⟩ := mem_filter.mp he'
    obtain ⟨a, ha, hpa, -⟩ := h.claim e' he'
    obtain ⟨b, hb, hpb, -⟩ := h.claim e hmem
    rw [heq, hb] at ha
    rw [← some.inj ha, hpb, hpath] at hpa
    exact absurd hpa.symm (of_decide_eq_true hne)
  · intro hstop
    cases hstop

/-- The shutdown takes all claims. -/
theorem shutdown_inv (h : FifoInv s) (hopen : s.closing = false) :
    FifoInv { s with streams := [], closing := true, taken := s.streams.map Prod.snd } where
  wellFormed := h.wellFormed
  keys := .nil
  claim _ he := absurd he not_mem_nil
  kept m a ha hstop hactive := by
    rcases h.kept m a ha hstop hactive with hmem | hmem
    · exact .inr (mem_map_of_mem hmem)
    · rw [h.opened hopen] at hmem
      exact absurd hmem not_mem_nil
  closed _ := rfl
  opened hclosing := absurd hclosing (by simp)
  paths i hi j hj a b ha hb hab := by
    obtain ⟨e, he, rfl⟩ := mem_map.mp hi
    obtain ⟨e', he', rfl⟩ := mem_map.mp hj
    obtain ⟨a', ha', hpa, -⟩ := h.claim e he
    obtain ⟨b', hb', hpb, -⟩ := h.claim e' he'
    have hkey : e.1 = e'.1 := by
      rw [← hpa, ← hpb, some.inj (ha'.symm.trans ha), some.inj (hb'.symm.trans hb)]
      exact hab
    rw [inj_on_of_nodup_map h.keys he he' hkey]

/-- The shutdown stops the next of the readers it has taken. -/
theorem stopTaken_inv {rest : List ℕ} (h : FifoInv s) (htaken : s.taken = n :: rest)
    (hst : s.starts[n]? = some st) :
    FifoInv { s with starts := s.starts.set n { st with stop := true }, taken := rest } := by
  have hwell := h.wellFormed n st hst
  have hnil : s.streams = [] := by
    apply h.closed
    by_contra hopen
    rw [h.opened (Bool.eq_false_iff.mpr hopen)] at htaken
    cases htaken
  apply put_inv { st with stop := true } h hst rfl _ (Sublist.refl _) (fun e he _ => he) _ _
  · rw [htaken]
    exact sublist_cons_self _ _
  · intro m hm hne
    rw [htaken] at hm
    exact (mem_cons.mp hm).resolve_left hne
  · exact ⟨hwell.claimed, hwell.failed, hwell.unspawned, hwell.opening, hwell.rejected, hwell.spawned⟩
  · rintro ⟨e, he, -⟩
    rw [hnil] at he
    exact absurd he not_mem_nil
  · intro hstop
    cases hstop

theorem active_of_call (h : st.call ≠ .returned) : st.active = true := by
  simp [Start.active, h]

theorem active_of_alive (h : st.reader.alive = true) : st.active = true := by
  simp [Start.active, h]

/-- A reader that is spawned keeps the invariant. -/
theorem spawn_inv {ok : Bool} (h : FifoInv s) (hst : s.starts[n]? = some st) (hcall : st.call = .claimed) :
    FifoInv { s with
      starts := s.starts.set n
        (if ok then { st with call := .waiting, reader := .opening } else { st with call := .failed }) } := by
  have hwell := h.wellFormed n st hst
  have hreader := hwell.claimed hcall
  have hready := hwell.unspawned hreader
  have hactive : st.active = true := active_of_call (by rw [hcall]; simp)
  cases ok with
  | true =>
    apply edit_inv { st with call := .waiting, reader := .opening } h hst rfl rfl _ (fun _ => hactive)
    · intro _ _ _
      exact ⟨rfl, fun _ => rfl⟩
    · constructor <;> simp [hready]
  | false =>
    apply edit_inv { st with call := .failed } h hst rfl rfl _ (fun _ => hactive)
    · intro _ _ hrun
      exact ⟨rfl, hrun⟩
    · constructor <;> simp [hreader, hready, ReaderPhase.alive]

/-- The reader of a start whose open was in progress reports it, or is gone. -/
theorem opening_inv {reader : ReaderPhase} {ready : Option Bool} (h : FifoInv s)
    (hst : s.starts[n]? = some st) (hreader : st.reader = .opening)
    (hnext : reader = .reading ∧ ready = some true ∨ reader = .ended ∧ ready ≠ some true)
    (hok : reader = .ended → st.call = .returned → s.claims n = false) :
    FifoInv { s with starts := s.starts.set n { st with reader := reader, ready := ready } } := by
  have hwell := h.wellFormed n st hst
  have halive : st.reader.alive = true := by rw [hreader]; rfl
  apply edit_inv { st with reader := reader, ready := ready } h hst rfl rfl _ (fun _ => active_of_alive halive)
  · intro hclaims _ _
    rcases hnext with ⟨rfl, rfl⟩ | ⟨rfl, hready⟩
    · exact ⟨active_of_alive rfl, fun _ => rfl⟩
    · refine ⟨active_of_call ?_, fun heq => absurd heq hready⟩
      intro hcall
      exact absurd (hclaims.symm.trans (hok rfl hcall)) (by simp)
  · refine ⟨?_, ?_, ?_, ?_, ?_, ?_⟩
    · intro hcall
      exact absurd (hreader.symm.trans (hwell.claimed hcall)) (by simp)
    · intro hcall
      exact absurd (halive.symm.trans (hwell.failed hcall)) (by simp)
    · rcases hnext with ⟨rfl, -⟩ | ⟨rfl, -⟩ <;> simp
    · rcases hnext with ⟨rfl, -⟩ | ⟨rfl, -⟩ <;> simp
    · rcases hnext with ⟨-, rfl⟩ | ⟨rfl, -⟩ <;> simp
    · rcases hnext with ⟨rfl, -⟩ | ⟨rfl, -⟩ <;> simp

/-- So does the answer to a start. -/
theorem answer_inv (h : FifoInv s) (hst : s.starts[n]? = some st) (hcall : st.call = .waiting)
    (hreport : st.ready.isSome ∨ st.reader = .ended) :
    FifoInv { s with
      starts := s.starts.set n { st with call := if st.ready = some true then .returned else .failed } } := by
  have hwell := h.wellFormed n st hst
  apply edit_inv { st with call := if st.ready = some true then .returned else .failed } h hst rfl rfl _
    (fun _ => active_of_call (by rw [hcall]; simp))
  · intro _ _ hrun
    refine ⟨?_, hrun⟩
    by_cases hready : st.ready = some true
    · exact active_of_alive (hrun hready)
    · apply active_of_call
      simp [hready]
  · refine ⟨?_, ?_, hwell.unspawned, hwell.opening, hwell.rejected, ?_⟩
    · dsimp only
      split <;> simp
    · dsimp only
      split
      · simp
      · rename_i hready
        intro _
        have hended : st.reader = .ended := by
          rcases hreport with hsome | hended
          · apply hwell.rejected
            rcases hr : st.ready with _ | ready
            · rw [hr] at hsome
              cases hsome
            · cases ready
              · rfl
              · exact absurd hr hready
          · exact hended
        rw [hended]
        rfl
    · dsimp only
      split <;> simp

theorem timeout_inv (h : FifoInv s) (hst : s.starts[n]? = some st) (hcall : st.call = .waiting)
    (hreader : st.reader = .opening) :
    FifoInv { s with starts := s.starts.set n { st with call := .returned } } := by
  have hwell := h.wellFormed n st hst
  apply edit_inv { st with call := .returned } h hst rfl rfl _ (fun _ => active_of_call (by rw [hcall]; simp))
  · intro _ _ hrun
    exact ⟨active_of_alive (by rw [hreader]; rfl), hrun⟩
  · exact ⟨fun hc => absurd hc (by simp), fun hc => absurd hc (by simp), hwell.unspawned, hwell.opening,
      hwell.rejected, fun hc => absurd hc (by simp)⟩

/-- So does the end of a reader that was not claimed. -/
theorem readerEnd_inv (h : FifoInv s) (hst : s.starts[n]? = some st) (hreader : st.reader = .reading)
    (hclaim : s.claims n = false) :
    FifoInv { s with starts := s.starts.set n { st with reader := .ended } } := by
  have hwell := h.wellFormed n st hst
  apply edit_inv { st with reader := .ended } h hst rfl rfl _ (fun _ => active_of_alive (by rw [hreader]; rfl))
  · intro hclaims
    exact absurd (hclaims.symm.trans hclaim) (by simp)
  · refine ⟨?_, fun _ => rfl, fun hr => absurd hr (by simp), fun hr => absurd hr (by simp), fun _ => rfl,
      fun _ => by simp⟩
    intro hcall
    exact absurd (hreader.symm.trans (hwell.claimed hcall)) (by simp)

/-- Every orderly step keeps it. -/
theorem fifo_step_inv {e : FifoEvent} (h : FifoInv s) (hok : Orderly s e)
    (hstep : fifoStep s e = some s') : FifoInv s' := by
  cases e with
  | start path =>
    rw [fifoStep] at hstep
    split at hstep
    · cases hstep
      exact h
    · rename_i hfree
      cases hstep
      exact start_inv h hok hfree
  | spawn n ok =>
    obtain ⟨st, hst, hask, rfl⟩ := edit_eq_some hstep
    exact spawn_inv h hst (of_decide_eq_true hask)
  | opened n =>
    obtain ⟨st, hst, hask, rfl⟩ := edit_eq_some hstep
    exact opening_inv h hst (of_decide_eq_true hask) (.inl ⟨rfl, rfl⟩) (by simp)
  | openFailed n =>
    obtain ⟨st, hst, hask, rfl⟩ := edit_eq_some hstep
    exact opening_inv h hst (of_decide_eq_true hask) (.inr ⟨rfl, by simp⟩) fun _ => hok st hst
  | vanish n =>
    obtain ⟨st, hst, hask, rfl⟩ := edit_eq_some hstep
    have hready := (h.wellFormed n st hst).opening (of_decide_eq_true hask)
    have hinv : FifoInv { s with
        starts := s.starts.set n { st with reader := .ended, ready := st.ready } } :=
      opening_inv h hst (of_decide_eq_true hask) (.inr ⟨rfl, by rw [hready]; simp⟩) fun _ => hok st hst
    exact hinv
  | answer n =>
    obtain ⟨st, hst, hask, rfl⟩ := edit_eq_some hstep
    obtain ⟨hcall, hreport⟩ := of_decide_eq_true hask
    exact answer_inv h hst hcall hreport
  | timeout n =>
    obtain ⟨st, hst, hask, rfl⟩ := edit_eq_some hstep
    obtain ⟨hcall, hreader⟩ := of_decide_eq_true hask
    exact timeout_inv h hst hcall hreader
  | release n =>
    rw [fifoStep] at hstep
    split at hstep
    · rename_i st hst
      obtain ⟨m, hm, rfl⟩ := map_eq_some_iff.mp hstep
      obtain ⟨st', hst', hask, rfl⟩ := edit_eq_some hm
      rw [← some.inj (hst.symm.trans hst')] at hask ⊢
      exact release_inv h hst (of_decide_eq_true hask) (hok st hst)
    · cases hstep
  | stop path =>
    rw [fifoStep] at hstep
    split at hstep
    · rename_i e hfind
      obtain ⟨m, hm, rfl⟩ := map_eq_some_iff.mp hstep
      obtain ⟨st, hst, -, rfl⟩ := edit_eq_some hm
      exact stop_fifo_inv h hfind hst
    · cases hstep
      exact h
  | readerEnd n =>
    obtain ⟨st, hst, hask, rfl⟩ := edit_eq_some hstep
    exact readerEnd_inv h hst (of_decide_eq_true hask) hok
  | shutdown =>
    rw [fifoStep] at hstep
    split at hstep
    · cases hstep
    · rename_i hopen
      cases hstep
      exact shutdown_inv h (Bool.eq_false_iff.mpr hopen)
  | stopTaken =>
    rw [fifoStep] at hstep
    split at hstep
    · rename_i n rest htaken
      obtain ⟨m, hm, rfl⟩ := map_eq_some_iff.mp hstep
      obtain ⟨st, hst, -, rfl⟩ := edit_eq_some hm
      exact stopTaken_inv h htaken hst
    · cases hstep

/-! ## What the registry keeps -/

/-- A path has at most one reader that runs and is not asked to stop. A registered path has a start in
progress or a reader that runs, and a stop of the path reaches it. A start keeps its claim while it is
active and not asked to stop. After the shutdown all readers that run are asked to stop. -/
structure FifoSound (s : FifoState) : Prop where
  single : ∀ (m n : ℕ) (a b : Start), s.starts[m]? = some a → s.starts[n]? = some b → a.path = b.path →
    a.stop = false → b.stop = false → a.reader.alive = true → b.reader.alive = true → m = n
  registered : ∀ e ∈ s.streams, ∃ st, s.starts[e.2]? = some st ∧ st.path = e.1 ∧
    (st.call ≠ .returned ∨ st.reader.alive = true) ∧
    ∃ s', fifoStep s (.stop e.1) = some s' ∧ ∃ st', s'.starts[e.2]? = some st' ∧ st'.stop = true
  owned : s.closing = false → ∀ (n : ℕ) (st : Start), s.starts[n]? = some st → st.stop = false →
    st.call ≠ .returned ∨ st.reader.alive = true → (st.path, n) ∈ s.streams
  closed : s.closing = true → s.taken = [] → ∀ st ∈ s.starts, st.reader.alive = true → st.stop = true

theorem active_iff : st.active = true ↔ st.call ≠ .returned ∨ st.reader.alive = true := by
  simp [Start.active]

/-- Of one fifo there is one reader at most, and no stop is lost. -/
theorem FifoInv.sound (h : FifoInv s) : FifoSound s where
  single m n a b ha hb hpath hastop hbstop haalive hbalive := by
    rcases h.kept m a ha hastop (active_of_alive haalive) with hm | hm
    · rcases h.kept n b hb hbstop (active_of_alive hbalive) with hn | hn
      · exact congrArg Prod.snd (List.inj_on_of_nodup_map h.keys hm hn hpath)
      · have hclosing : s.closing = true := by
          by_contra hopen
          rw [h.opened (Bool.eq_false_iff.mpr hopen)] at hn
          exact absurd hn List.not_mem_nil
        rw [h.closed hclosing] at hm
        exact absurd hm List.not_mem_nil
    · have hclosing : s.closing = true := by
        by_contra hopen
        rw [h.opened (Bool.eq_false_iff.mpr hopen)] at hm
        exact absurd hm List.not_mem_nil
      rcases h.kept n b hb hbstop (active_of_alive hbalive) with hn | hn
      · rw [h.closed hclosing] at hn
        exact absurd hn List.not_mem_nil
      · exact h.paths m hm n hn a b ha hb hpath
  registered e he := by
    obtain ⟨st, hst, hpath, -, hactive, -⟩ := h.claim e he
    refine ⟨st, hst, hpath, active_iff.mp hactive, ?_⟩
    have hfind : s.streams.find? (fun e' => e'.1 = e.1) = some e := by
      rcases hf : s.streams.find? (fun e' => e'.1 = e.1) with _ | e'
      · exact absurd (decide_eq_true rfl) (List.find?_eq_none.mp hf e he)
      · have heq : e'.1 = e.1 := by simpa using List.find?_some hf
        rw [hf, List.inj_on_of_nodup_map h.keys (List.mem_of_find?_eq_some hf) he heq]
    rw [fifoStep, hfind]
    dsimp only [FifoState.askStop, FifoState.edit]
    rw [hst]
    refine ⟨_, rfl, { st with stop := true }, ?_, rfl⟩
    exact List.getElem?_set_self (List.getElem?_eq_some_iff.mp hst).1
  owned hopen n st hst hstop hactive := by
    rcases h.kept n st hst hstop (active_iff.mpr hactive) with hmem | hmem
    · exact hmem
    · rw [h.opened hopen] at hmem
      exact absurd hmem List.not_mem_nil
  closed hclosing htaken st hmem halive := by
    obtain ⟨n, hst⟩ := List.mem_iff_getElem?.mp hmem
    by_contra hstop
    rcases h.kept n st hst (Bool.eq_false_iff.mpr hstop) (active_of_alive halive) with hin | hin
    · rw [h.closed hclosing] at hin
      exact absurd hin List.not_mem_nil
    · rw [htaken] at hin
      exact absurd hin List.not_mem_nil

end

/-- The registry is sound in each state of a run in which a release finds its own claim or none, a claimed
reader does not end and no start claims after the shutdown. -/
theorem fifo_sound {es : List FifoEvent} {s : FifoState} (hrun : run fifoStep .init es = some s)
    (hok : Guarded fifoStep Orderly .init es) : FifoSound s :=
  (run_induction FifoInv (fun _ _ _ h hok hstep => fifo_step_inv h hok hstep) fifo_init_inv hok hrun).sound

/-- A stream is started, opened and stopped, and its path is started again. -/
theorem fifo_sound_restart :
    ∃ s, run fifoStep .init [.start ['p'], .spawn 0 true, .opened 0, .answer 0, .stop ['p'], .start ['p'],
        .readerEnd 0, .spawn 1 true, .opened 1, .answer 1] = some s ∧ FifoSound s := by
  obtain ⟨s, hs⟩ : ∃ s, run fifoStep .init [.start ['p'], .spawn 0 true, .opened 0, .answer 0,
      .stop ['p'], .start ['p'], .readerEnd 0, .spawn 1 true, .opened 1, .answer 1] = some s := ⟨_, rfl⟩
  exact ⟨s, hs, fifo_sound hs (by decide)⟩

/-- A start is stopped while its open is in progress, and its path is started again. The open fails then,
and the release of the first start drops the claim of the second: a third start gets a second reader. -/
theorem stale_release_drops_claim :
    ¬ ∀ (es : List FifoEvent) (s : FifoState), run fifoStep .init es = some s → FifoSound s := by
  intro h
  have hsound := h [.start ['p'], .spawn 0 true, .stop ['p'], .start ['p'], .spawn 1 true, .openFailed 0,
    .answer 0, .release 0, .opened 1, .answer 1, .start ['p'], .spawn 2 true, .opened 2, .answer 2] _ rfl
  have hsame := hsound.single 1 2 _ _ rfl rfl rfl rfl rfl rfl rfl
  exact absurd hsame (by decide)

end Imbh.Docker
