import Mathlib.Data.List.Nodup
import Imbh.Lib.Checked
import Imbh.Lib.IpAddr

/-!
# The supervisor of the listeners

The addresses to listen on are written out or discovered. At every tick the supervisor stops the listeners
that are no longer wanted, forgets those that ended, and binds what is missing.

* `supervisor_tracks` — the results for runs, and when a fatal tick leaves no listener behind.
-/

namespace Imbh.Docker.Supervise

open Lib List

/-! ## Where to bind -/

theorem nodup_push {α : Type} {x : α} {l : List α} (h : x ∉ l) (hl : l.Nodup) : (l ++ [x]).Nodup := by
  simpa using Nodup.concat h hl

/-- The addresses that are written out, and the ports for every address that is discovered.
Source: `addr.rs` `BindSpec` -/
structure BindSpec where
  literals : List Text
  autoPorts : List ℕ
  literals_nodup : literals.Nodup
  autoPorts_nodup : autoPorts.Nodup

namespace BindSpec

/-- Source: `addr.rs` `BindSpec::parse`, the port of a token that is `auto` -/
def autoPort (token : Text) (defaultPort : ℕ) : Except Text (Option ℕ) :=
  let bare := if eqIgnoreAsciiCase token "auto".toList then some defaultPort else none
  match splitAtChar (· = ':') token with
  | some (head, port) =>
      if eqIgnoreAsciiCase head "auto".toList then
        match parseBelow 65536 (trim port) with
        | some port => return some port
        | none => throw (token ++ ": not a port number".toList)
      else return bare
  | none => return bare

/-- Source: `addr.rs` `BindSpec::parse`, the push -/
def push (spec : BindSpec) (token : Text) : Option ℕ → BindSpec
  | some port =>
      if h : port ∈ spec.autoPorts then spec
      else { spec with
        autoPorts := spec.autoPorts ++ [port]
        autoPorts_nodup := nodup_push h spec.autoPorts_nodup }
  | none =>
      if h : token ∈ spec.literals then spec
      else { spec with
        literals := spec.literals ++ [token]
        literals_nodup := nodup_push h spec.literals_nodup }

/-- Source: `addr.rs` `BindSpec::parse`, the loop -/
def parseTokens (defaultPort : ℕ) : List Text → BindSpec → Except Text BindSpec
  | [], spec => return spec
  | token :: tokens, spec => do
      let token := trim token
      if token = [] then parseTokens defaultPort tokens spec
      else do
        let port ← autoPort token defaultPort
        parseTokens defaultPort tokens (spec.push token port)

/-- Source: `addr.rs` `BindSpec::parse` -/
def parse (value : Text) (defaultPort : ℕ) : Except Text BindSpec :=
  parseTokens defaultPort (value.splitOn ',') ⟨[], [], .nil, .nil⟩

/-- Source: `addr.rs` `BindSpec::is_required` -/
def isRequired (spec : BindSpec) (addr : Text) : Bool := addr ∈ spec.literals

/-- The address of a port of a gateway. -/
def address (port : ℕ) : IpAddr → Text
  | .v4 octets h => (IpAddr.v4 octets h).display ++ ':' :: decimal port
  | .v6 octets h => '[' :: (IpAddr.v6 octets h).display ++ "]:".toList ++ decimal port

/-- Source: `addr.rs` `BindSpec::resolve` -/
def resolve (spec : BindSpec) (gateways : List IpAddr) : List Text :=
  (spec.autoPorts.flatMap fun port => gateways.map (address port)).foldl
    (fun out addr => if addr ∈ out then out else out ++ [addr]) spec.literals

end BindSpec

/-! ## The supervisor -/

/-- A listener: whether its token was tripped, and whether its task has ended. Source: `serve.rs` `Live` -/
structure Listener where
  addr : Text
  stopped : Bool
  ended : Bool
  deriving DecidableEq

/-- Does it listen? -/
def Listener.running (l : Listener) : Bool := !l.stopped && !l.ended

/-- The listeners in the map, and those that were taken out of it.
Source: the state of `serve.rs` `supervise` -/
structure Supervisor where
  first : Bool
  live : List Listener
  gone : List Listener

/-- What happens at a tick: the tasks that have ended since the last one, the gateways that are discovered, and
the addresses that can be bound. -/
structure Tick where
  ended : Text → Bool
  gateways : List IpAddr
  binds : Text → Bool

namespace Supervisor

def new : Supervisor := ⟨true, [], []⟩

/-- The tasks of some listeners end. -/
def endTasks (s : Supervisor) (ended : Text → Bool) : Supervisor :=
  { s with live := s.live.map fun l => { l with ended := l.ended || ended l.addr } }

/-- Source: `serve.rs` `supervise`, `live.retain` -/
def retire (s : Supervisor) (wanted : List Text) : Supervisor :=
  let keep (l : Listener) : Bool := !l.ended && l.addr ∈ wanted
  { s with
    live := s.live.filter keep
    gone := s.gone ++ (s.live.filter fun l => !keep l).map fun l => if l.ended then l else { l with stopped := true } }

/-- The binding of the wanted addresses; a failure that is fatal leaves the state behind.
Source: `serve.rs` `supervise`, the loop over `wanted` -/
def bindAll (spec : BindSpec) (binds : Text → Bool) : List Text → Supervisor → Except Supervisor Supervisor
  | [], s => .ok s
  | addr :: wanted, s =>
      if s.live.any fun l => l.addr = addr then bindAll spec binds wanted s
      else if binds addr then bindAll spec binds wanted { s with live := s.live ++ [⟨addr, false, false⟩] }
      else if s.first && spec.isRequired addr then .error s
      else bindAll spec binds wanted s

/-- Source: `serve.rs` `supervise`, one turn of the loop -/
def tick (spec : BindSpec) (s : Supervisor) (t : Tick) : Except Supervisor Supervisor := do
  let wanted := spec.resolve t.gateways
  let s ← bindAll spec t.binds wanted ((s.endTasks t.ended).retire wanted)
  return { s with first := false }

/-- Source: `serve.rs` `supervise`, behind the loop -/
def stopAll (s : Supervisor) : Supervisor :=
  { s with live := [], gone := s.gone ++ s.live.map fun l => { l with stopped := true } }

/-- The states after some ticks; a spec without discovered addresses has one tick. -/
inductive Reached (spec : BindSpec) : Supervisor → Prop
  | new : Reached spec .new
  | tick {s next : Supervisor} (t : Tick) (reached : Reached spec s) (done : s.tick spec t = .ok next) :
      Reached spec next

/-- No listener is running. -/
def Quiet (s : Supervisor) : Prop := ∀ l ∈ s.live ++ s.gone, l.running = false

end Supervisor

/-! ## What holds after a tick -/

/-- The addresses of the map are different, and only its listeners may be running. -/
structure Sound (s : Supervisor) : Prop where
  nodup : (s.live.map Listener.addr).Nodup
  unstopped : ∀ l ∈ s.live, l.stopped = false
  gone : ∀ l ∈ s.gone, l.running = false

/-- The wanted addresses are those that are listened on: each live address is wanted and has one running
listener, each wanted address is live unless it could not be bound, and a listener on another has been stopped
or has ended. -/
structure Tracks (wanted : List Text) (binds : Text → Bool) (s : Supervisor) : Prop where
  live_wanted : ∀ l ∈ s.live, l.addr ∈ wanted
  one : ∀ l ∈ s.live, ((s.live ++ s.gone).filter fun other => other.running && other.addr = l.addr) = [l]
  bound : ∀ addr ∈ wanted, (∃ l ∈ s.live, l.addr = addr) ∨ binds addr = false
  stopped : ∀ l ∈ s.live ++ s.gone, l.addr ∉ wanted → l.running = false

section

variable {spec : BindSpec} {binds : Text → Bool} {wanted : List Text} {s next : Supervisor}

namespace Supervisor

/-- What the binding adds. -/
theorem bindAll_ok (h : bindAll spec binds wanted s = .ok next) :
    ∃ added : List Listener, next = { s with live := s.live ++ added } ∧
      (∀ l ∈ added, l.addr ∈ wanted ∧ l.stopped = false ∧ l.ended = false) ∧
      ((s.live.map Listener.addr).Nodup → (next.live.map Listener.addr).Nodup) ∧
      ∀ addr ∈ wanted, (∃ l ∈ next.live, l.addr = addr) ∨ binds addr = false := by
  induction wanted generalizing s with
  | nil =>
    cases h
    exact ⟨[], by simp, by simp, id, by simp⟩
  | cons addr wanted ih =>
    rw [bindAll] at h
    split at h
    · rename_i hlive
      obtain ⟨added, rfl, hadded, hnodup, hbound⟩ := ih h
      obtain ⟨l, hl, haddr⟩ := any_eq_true.mp hlive
      refine ⟨added, rfl, fun l hl => ⟨mem_cons_of_mem _ (hadded l hl).1, (hadded l hl).2⟩, hnodup, ?_⟩
      rw [forall_mem_cons]
      exact ⟨.inl ⟨l, mem_append_left _ hl, by simpa using haddr⟩, hbound⟩
    · rename_i hmissing
      split at h
      · obtain ⟨added, rfl, hadded, hnodup, hbound⟩ := ih h
        refine ⟨⟨addr, false, false⟩ :: added, by simp, ?_, fun hs => hnodup ?_, ?_⟩
        · rw [forall_mem_cons]
          exact ⟨⟨mem_cons_self, rfl, rfl⟩,
            fun l hl => ⟨mem_cons_of_mem _ (hadded l hl).1, (hadded l hl).2⟩⟩
        · rw [map_append]
          refine nodup_push ?_ hs
          simpa using hmissing
        · rw [forall_mem_cons]
          exact ⟨.inl ⟨⟨addr, false, false⟩, by simp, rfl⟩, hbound⟩
      · rename_i hfailed
        split at h
        · cases h
        · obtain ⟨added, rfl, hadded, hnodup, hbound⟩ := ih h
          refine ⟨added, rfl, fun l hl => ⟨mem_cons_of_mem _ (hadded l hl).1, (hadded l hl).2⟩, hnodup, ?_⟩
          rw [forall_mem_cons]
          exact ⟨.inr (by simpa using hfailed), hbound⟩

/-- A failure is fatal only at the first tick, and only for an address that is written out. -/
theorem bindAll_error (h : bindAll spec binds wanted s = .error next) :
    s.first = true ∧ ∃ addr ∈ spec.literals, binds addr = false := by
  induction wanted generalizing s with
  | nil => cases h
  | cons addr wanted ih =>
    rw [bindAll] at h
    split at h
    · exact ih h
    · split at h
      · obtain ⟨hfirst, hfatal⟩ := ih h
        exact ⟨hfirst, hfatal⟩
      · rename_i hfailed
        split at h
        · rename_i hfatal
          rw [Bool.and_eq_true, BindSpec.isRequired, decide_eq_true_eq] at hfatal
          exact ⟨hfatal.1, addr, hfatal.2, by simpa using hfailed⟩
        · exact ih h

/-- Retiring leaves a listener on every address that is wanted and alive, and no other. -/
theorem retire_sound (h : Sound s) (ended : Text → Bool) (wanted : List Text) :
    Sound ((s.endTasks ended).retire wanted) ∧
      ∀ l ∈ ((s.endTasks ended).retire wanted).live, l.ended = false ∧ l.addr ∈ wanted := by
  have hended : (s.endTasks ended).live.map Listener.addr = s.live.map Listener.addr := by
    simp [endTasks, Function.comp_def]
  have hunstopped : ∀ l ∈ (s.endTasks ended).live, l.stopped = false := by
    intro l hl
    obtain ⟨l', hl', rfl⟩ := mem_map.mp hl
    exact h.unstopped l' hl'
  refine ⟨⟨?_, ?_, ?_⟩, ?_⟩
  · refine Nodup.sublist (Sublist.map _ filter_sublist) ?_
    rw [hended]
    exact h.nodup
  · exact fun l hl => hunstopped l (mem_of_mem_filter hl)
  · intro l hl
    rcases mem_append.mp hl with hl | hl
    · exact h.gone l hl
    · obtain ⟨l', hl', rfl⟩ := mem_map.mp hl
      cases hend : l'.ended <;> simp [Listener.running, hend]
  · intro l hl
    simpa using (mem_filter.mp hl).2

/-- No other listener of the map has the address of one. -/
theorem filter_addr {live : List Listener} (hnodup : (live.map Listener.addr).Nodup)
    (hrunning : ∀ l ∈ live, l.running = true) {l : Listener} (hl : l ∈ live) :
    live.filter (fun other => other.running && other.addr = l.addr) = [l] := by
  induction live with
  | nil => cases hl
  | cons x live ih =>
    rw [map_cons, nodup_cons] at hnodup
    rw [forall_mem_cons] at hrunning
    rcases mem_cons.mp hl with rfl | hl
    · have hrest : live.filter (fun other => other.running && other.addr = l.addr) = [] := by
        refine filter_eq_nil_iff.mpr fun other hother hsame => hnodup.1 ?_
        rw [Bool.and_eq_true, decide_eq_true_eq] at hsame
        exact hsame.2 ▸ mem_map_of_mem hother
      rw [filter_cons_of_pos (by simp [hrunning.1]), hrest]
    · have hne : x.addr ≠ l.addr := fun heq => hnodup.1 (heq ▸ mem_map_of_mem hl)
      rw [filter_cons_of_neg (by simp [hne])]
      exact ih hnodup.2 hrunning.2 hl

/-- What holds after a tick. -/
theorem tick_tracks {t : Tick} (h : Sound s) (hok : s.tick spec t = .ok next) :
    Sound next ∧ Tracks (spec.resolve t.gateways) t.binds next := by
  obtain ⟨s', hbind, hok⟩ := bind_eq_ok.mp hok
  cases hok
  obtain ⟨hsound, hkept⟩ := retire_sound h t.ended (spec.resolve t.gateways)
  obtain ⟨added, rfl, hadded, hnodup, hbound⟩ := bindAll_ok hbind
  have hlive : ∀ l ∈ ((s.endTasks t.ended).retire (spec.resolve t.gateways)).live ++ added,
      l.addr ∈ spec.resolve t.gateways ∧ l.stopped = false ∧ l.ended = false := by
    intro l hl
    rcases mem_append.mp hl with hl | hl
    · exact ⟨(hkept l hl).2, hsound.unstopped l hl, (hkept l hl).1⟩
    · exact hadded l hl
  refine ⟨⟨hnodup hsound.nodup, fun l hl => (hlive l hl).2.1, hsound.gone⟩, fun l hl => (hlive l hl).1, ?_, hbound, ?_⟩
  · intro l hl
    have hgone : (s.endTasks t.ended |>.retire (spec.resolve t.gateways)).gone.filter
        (fun other => other.running && other.addr = l.addr) = [] :=
      filter_eq_nil_iff.mpr fun other hother => by simp [hsound.gone other hother]
    have hrunning : ∀ l ∈ ((s.endTasks t.ended).retire (spec.resolve t.gateways)).live ++ added, l.running = true := by
      intro l hl
      simp [Listener.running, hlive l hl]
    rw [filter_append, hgone, append_nil]
    exact filter_addr (hnodup hsound.nodup) hrunning hl
  · intro l hl hnot
    rcases mem_append.mp hl with hl | hl
    · exact absurd (hlive l hl).1 hnot
    · exact hsound.gone l hl

theorem reached_sound (h : Reached spec s) : Sound s := by
  induction h with
  | new => exact ⟨nodup_nil, fun _ hl => absurd hl not_mem_nil, fun _ hl => absurd hl not_mem_nil⟩
  | tick t _ done ih => exact (tick_tracks ih done).1

/-- A tick after the first is not fatal. -/
theorem tick_error {t : Tick} (h : s.tick spec t = .error next) :
    s.first = true ∧ ∃ addr ∈ spec.literals, t.binds addr = false := by
  rw [tick] at h
  rcases hbind : bindAll spec t.binds (spec.resolve t.gateways) ((s.endTasks t.ended).retire (spec.resolve t.gateways))
    with s' | s'
  · obtain ⟨hfirst, hfatal⟩ := bindAll_error hbind
    exact ⟨hfirst, hfatal⟩
  · rw [hbind] at h
    cases h

/-- The literal addresses come first. -/
theorem resolve_append (spec : BindSpec) (gateways : List IpAddr) :
    ∃ extra, spec.resolve gateways = spec.literals ++ extra := by
  have hfold : ∀ (addrs out : List Text), ∃ extra,
      addrs.foldl (fun out addr => if addr ∈ out then out else out ++ [addr]) out = out ++ extra := by
    intro addrs
    induction addrs with
    | nil => exact fun out => ⟨[], by simp⟩
    | cons addr addrs ih =>
      intro out
      rw [foldl_cons]
      split
      · exact ih out
      · obtain ⟨extra, hextra⟩ := ih (out ++ [addr])
        exact ⟨addr :: extra, by rw [hextra]; simp⟩
  exact hfold _ _

/-- At the first tick, an address that is written out and cannot be bound is fatal, and what was bound before
stays. -/
theorem bindAll_fatal {addr : Text} (hfirst : s.first = true) (hwanted : addr ∈ wanted) (hliteral : addr ∈ spec.literals)
    (hfails : binds addr = false) (hmissing : ∀ l ∈ s.live, l.addr ≠ addr) :
    ∃ next, bindAll spec binds wanted s = .error next ∧ ∀ l ∈ s.live, l ∈ next.live := by
  induction wanted generalizing s with
  | nil => cases hwanted
  | cons other wanted ih =>
    rw [bindAll]
    by_cases hsame : other = addr
    · have hnone : (s.live.any fun l => l.addr = other) = false := by
        rw [any_eq_false]
        exact fun l hl => by simpa [hsame] using hmissing l hl
      rw [if_neg (by simp [hnone]), if_neg (by simp [hsame, hfails]),
        if_pos (by simp [hfirst, BindSpec.isRequired, hsame, hliteral])]
      exact ⟨s, rfl, fun _ hl => hl⟩
    · have hrest : addr ∈ wanted := (mem_cons.mp hwanted).resolve_left (Ne.symm hsame)
      split
      · exact ih hfirst hrest hmissing
      · split
        · obtain ⟨next, hnext, hkept⟩ := @ih { s with live := s.live ++ [⟨other, false, false⟩] } hfirst hrest (by
            intro l hl
            rcases mem_append.mp hl with hl | hl
            · exact hmissing l hl
            · rw [mem_singleton.mp hl]
              exact hsame)
          exact ⟨next, hnext, fun l hl => hkept l (mem_append_left _ hl)⟩
        · split
          · exact ⟨s, rfl, fun _ hl => hl⟩
          · exact ih hfirst hrest hmissing

/-- When the first tick leaves no listener behind: an address that is written out and cannot be bound is not
behind one that can. -/
def Meets (spec : BindSpec) (t : Tick) : Prop :=
  ∀ addr ∈ spec.literals, t.binds addr = false → ∀ head ∈ spec.literals.head?, t.binds head = false

/-- The first tick leaves nothing to do, if and only if it could bind all that it wants. -/
theorem first_tick_quiet_iff (spec : BindSpec) (t : Tick) :
    (∀ next, Supervisor.new.tick spec t = .error next → next.Quiet) ↔ Meets spec t := by
  obtain ⟨extra, hwanted⟩ := resolve_append spec t.gateways
  have hstart : (Supervisor.new.endTasks t.ended).retire (spec.resolve t.gateways) = Supervisor.new := rfl
  constructor
  · intro h addr haddr hfails head hhead
    by_contra hbinds
    rw [Bool.not_eq_false] at hbinds
    rcases hliterals : spec.literals with _ | ⟨first, rest⟩
    · rw [hliterals] at hhead
      cases hhead
    · rw [hliterals] at hhead
      cases hhead
      have hne : head ≠ addr := by
        rintro rfl
        rw [hbinds] at hfails
        cases hfails
      obtain ⟨next, hnext, hkept⟩ := @bindAll_fatal spec t.binds (rest ++ extra)
        { Supervisor.new with live := [⟨head, false, false⟩] } addr rfl
        (by
          rw [hliterals] at haddr
          exact mem_append_left _ ((mem_cons.mp haddr).resolve_left (Ne.symm hne)))
        haddr hfails (by simp [hne])
      have herror : Supervisor.new.tick spec t = .error next := by
        have hbind : bindAll spec t.binds (head :: (rest ++ extra)) .new = .error next := by
          rw [bindAll, if_neg (by simp [Supervisor.new]), if_pos hbinds]
          exact hnext
        rw [tick]
        simp only [hstart]
        rw [hwanted, hliterals, cons_append, hbind]
        rfl
      have hquiet := h next herror _ (mem_append_left _ (hkept _ (mem_singleton_self _)))
      cases hquiet
  · intro hmeets next herror
    obtain ⟨-, addr, haddr, hfails⟩ := tick_error herror
    rcases hliterals : spec.literals with _ | ⟨head, rest⟩
    · rw [hliterals] at haddr
      cases haddr
    · have hhead : t.binds head = false := hmeets addr haddr hfails head (by simp [hliterals])
      have hbind : bindAll spec t.binds (head :: (rest ++ extra)) .new = .error .new := by
        rw [bindAll, if_neg (by simp [Supervisor.new]), if_neg (by simp [hhead]),
          if_pos (by simp [Supervisor.new, BindSpec.isRequired, hliterals])]
      rw [tick] at herror
      simp only [hstart] at herror
      rw [hwanted, hliterals, cons_append, hbind] at herror
      cases herror
      exact fun l hl => absurd hl not_mem_nil

theorem reached_first (h : Reached spec s) (hfirst : s.first = true) : s = .new := by
  cases h with
  | new => rfl
  | tick t reached done =>
    obtain ⟨s', -, hdone⟩ := bind_eq_ok.mp done
    cases hdone
    cases hfirst

theorem stopAll_quiet (h : Sound s) : s.stopAll.Quiet := by
  intro l hl
  rcases mem_append.mp hl with hl | hl
  · cases hl
  · rcases mem_append.mp hl with hl | hl
    · exact h.gone l hl
    · obtain ⟨l', -, rfl⟩ := mem_map.mp hl
      rfl

end Supervisor

end

/-- The supervisor tracks the wanted set over every run, and leaves no listener behind at its end. A failure is
fatal only at the first tick, for an address that is written out, and leaves no listener behind if and only if
none was bound before. -/
theorem supervisor_tracks (spec : BindSpec) :
    (∀ s t next, Supervisor.Reached spec s → s.tick spec t = .ok next →
      Tracks (spec.resolve t.gateways) t.binds next) ∧
    (∀ s t next, Supervisor.Reached spec s → s.tick spec t = .error next →
      s = .new ∧ ∃ addr ∈ spec.literals, t.binds addr = false) ∧
    (∀ s, Supervisor.Reached spec s → s.stopAll.Quiet) ∧
    ∀ t, (∀ next, Supervisor.new.tick spec t = .error next → next.Quiet) ↔ Supervisor.Meets spec t := by
  refine ⟨fun s t next hreached hok => (Supervisor.tick_tracks (Supervisor.reached_sound hreached) hok).2, ?_,
    fun s hreached => Supervisor.stopAll_quiet (Supervisor.reached_sound hreached),
    Supervisor.first_tick_quiet_iff spec⟩
  intro s t next hreached herror
  obtain ⟨hfirst, hfatal⟩ := Supervisor.tick_error herror
  exact ⟨Supervisor.reached_first hreached hfirst, hfatal⟩

/-- The gateway changes after the first tick: its listener is stopped, and of the two new ones one cannot be
bound. -/
theorem supervisor_tracks_gateway :
    ∃ spec s next, BindSpec.parse "127.0.0.1:4318, auto".toList 4318 = .ok spec ∧
      Supervisor.new.tick spec ⟨fun _ => false, [.v4 [172, 17, 0, 1] rfl], fun _ => true⟩ = .ok s ∧
      s.tick spec ⟨fun _ => false, [.v4 [172, 18, 0, 1] rfl, .v4 [172, 19, 0, 1] rfl],
        fun addr => addr ≠ "172.19.0.1:4318".toList⟩ = .ok next ∧
      next = ⟨false, [⟨"127.0.0.1:4318".toList, false, false⟩, ⟨"172.18.0.1:4318".toList, false, false⟩],
        [⟨"172.17.0.1:4318".toList, true, false⟩]⟩ ∧
      Tracks ["127.0.0.1:4318".toList, "172.18.0.1:4318".toList, "172.19.0.1:4318".toList]
        (fun addr => addr ≠ "172.19.0.1:4318".toList) next ∧ next.stopAll.Quiet := by
  let spec : BindSpec := ⟨["127.0.0.1:4318".toList], [4318], by simp, by simp⟩
  let s : Supervisor :=
    ⟨false, [⟨"127.0.0.1:4318".toList, false, false⟩, ⟨"172.17.0.1:4318".toList, false, false⟩], []⟩
  let next : Supervisor :=
    ⟨false, [⟨"127.0.0.1:4318".toList, false, false⟩, ⟨"172.18.0.1:4318".toList, false, false⟩],
      [⟨"172.17.0.1:4318".toList, true, false⟩]⟩
  let second : Tick :=
    ⟨fun _ => false, [.v4 [172, 18, 0, 1] rfl, .v4 [172, 19, 0, 1] rfl], fun addr => addr ≠ "172.19.0.1:4318".toList⟩
  have hstart : Supervisor.new.tick spec ⟨fun _ => false, [.v4 [172, 17, 0, 1] rfl], fun _ => true⟩ = .ok s := rfl
  have hs : Supervisor.Reached spec s := .tick _ .new hstart
  have hnext : s.tick spec second = .ok next := rfl
  obtain ⟨htracks, -, hquiet, -⟩ := supervisor_tracks spec
  exact ⟨spec, s, next, rfl, hstart, hnext, rfl, htracks s second next hs hnext, hquiet next (.tick second hs hnext)⟩

/-- The second of two addresses that are written out cannot be bound, and the listener on the first runs on. -/
theorem supervisor_leaves_listener : ∃ spec t next, Supervisor.new.tick spec t = .error next ∧ ¬ next.Quiet := by
  refine ⟨⟨["127.0.0.1:4318".toList, "127.0.0.1:4319".toList], [], by decide, by simp⟩,
    ⟨fun _ => false, [], fun addr => addr = "127.0.0.1:4318".toList⟩,
    ⟨true, [⟨"127.0.0.1:4318".toList, false, false⟩], []⟩, rfl, fun hquiet => ?_⟩
  exact absurd (hquiet ⟨"127.0.0.1:4318".toList, false, false⟩ (by simp)) (by decide)

end Imbh.Docker.Supervise
