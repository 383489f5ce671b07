import Imbh.Docker.Container
import Imbh.Lib.Runs

/-!
# Following the networks

A thread discovers the networks of the daemon, publishes what it found, and calls the listeners when that is a
change: the allow-list, and the plugin, which stamps the containers that are registered. Each follower reads the
published snapshot first and is registered later.

* `followers_reached` — the result for runs.
-/

namespace Imbh.Docker.Net

open Lib List Option Function

/-! ## Snapshots -/

/-- An address and a prefix length. Addresses are their texts. Source: `addr.rs` `Cidr` -/
structure Cidr where
  addr : Text
  length : ℕ
  deriving DecidableEq

/-- Source: `networks.rs` `Bridge` -/
structure Bridge where
  name : Text
  iface : Text
  gateway : Text
  subnet : Cidr
  containers : List (Text × Text)
  deriving DecidableEq

/-- Source: `networks.rs` `Source` -/
inductive Source
  | unknown
  | api
  | ifaces
  deriving DecidableEq

/-- Source: `networks.rs` `Snapshot` -/
structure Snapshot where
  bridges : List Bridge
  source : Source
  deriving DecidableEq

/-- Source: `networks.rs` `Snapshot::empty` -/
def Snapshot.empty : Snapshot := ⟨[], .unknown⟩

/-- Source: `networks.rs` `Snapshot::subnets` -/
def Snapshot.subnets (s : Snapshot) : List Cidr :=
  s.bridges.foldl (fun out bridge => if bridge.subnet ∈ out then out else out ++ [bridge.subnet]) []

/-- Source: `networks.rs` `Snapshot::container_networks` -/
def Snapshot.containerNetworks (s : Snapshot) (id : Text) : List (Text × Text) :=
  s.bridges.filterMap fun bridge =>
    (bridge.containers.find? fun c => c.1 = id).map fun c => (bridge.name, c.2)

/-! ## The allow-list -/

/-- Source: `addr.rs` `AllowFrom` -/
inductive AllowFrom
  | any
  | list (docker : Bool) (nets : List Cidr)
  deriving DecidableEq

/-- Source: `addr.rs` `LOOPBACK` -/
def loopback : List Cidr := [⟨"127.0.0.0".toList, 8⟩, ⟨"::1".toList, 128⟩]

/-- Source: `addr.rs` `AllowFrom::resolve` -/
def AllowFrom.resolve (rule : AllowFrom) (subnets : List Cidr) : Option (List Cidr) :=
  match rule with
  | .any => none
  | .list docker nets => some (nets ++ if docker then subnets ++ loopback else [])

/-- Source: `addr.rs` `AllowFrom::needs_discovery` -/
def AllowFrom.needsDiscovery : AllowFrom → Bool
  | .list true _ => true
  | _ => false

/-- Source: `addr.rs` `Access` -/
structure Access where
  rule : AllowFrom
  list : Option (List Cidr)
  deriving DecidableEq

/-- Source: `addr.rs` `Access::new` -/
def Access.new (rule : AllowFrom) (subnets : List Cidr) : Access := ⟨rule, rule.resolve subnets⟩

/-- Source: `addr.rs` `Access::refresh` -/
def Access.refresh (a : Access) (subnets : List Cidr) : Access :=
  if !a.rule.needsDiscovery then a else { a with list := a.rule.resolve subnets }

/-- A rule that does not need the discovery does not depend on it. -/
theorem resolve_of_not_needs {rule : AllowFrom} (h : rule.needsDiscovery = false) (subnets subnets' : List Cidr) :
    rule.resolve subnets = rule.resolve subnets' := by
  match rule with
  | .any => rfl
  | .list false nets => rfl

theorem refresh_list {a : Access} {subnets : List Cidr} (h : a.list = a.rule.resolve subnets)
    (subnets' : List Cidr) : (a.refresh subnets').list = a.rule.resolve subnets' := by
  unfold Access.refresh
  split
  · rename_i hneeds
    exact h.trans (resolve_of_not_needs (by simpa using hneeds) _ _)
  · rfl

theorem refresh_rule (a : Access) (subnets : List Cidr) : (a.refresh subnets).rule = a.rule := by
  unfold Access.refresh
  split
  · rfl
  · rfl

/-! ## Containers -/

/-- A container with the networks and the resource of the moment. Source: `ingest.rs` `Container`, `networks` and
`resource` -/
structure Live where
  container : Container
  networks : List (Text × Text)
  resource : Resource

/-- Source: `ingest.rs` `Container::from_info` -/
def Live.new (container : Container) : Live := ⟨container, [], container.base⟩

/-- Source: `ingest.rs` `Container::set_networks` -/
def Live.setNetworks (l : Live) (networks : List (Text × Text)) : Live :=
  { l with networks := networks, resource := l.container.resource networks }

/-- The networks and the resource are what the snapshot gives for the container. -/
def Live.Follows (l : Live) (s : Snapshot) : Prop :=
  l.networks = s.containerNetworks l.container.id ∧
    l.resource = l.container.resource (s.containerNetworks l.container.id)

/-! ## The host -/

/-- Source: `networks.rs` `Listener`, of which there are these two -/
inductive Listener
  | access
  | plugin
  deriving DecidableEq

/-- Where the refresh thread is: it swaps the snapshot, takes the lock of the listeners, calls each, and in the
plugin's sets the networks of the containers that were registered. Source: `networks.rs` `Networks::publish` -/
inductive Refresher
  | idle
  | swapped (next : Snapshot)
  | calling (next : Snapshot) (left : List Listener)
  | setting (next : Snapshot) (left : List Listener) (live : List ℕ)

/-- Where the start is. Source: `net.rs` `Net::new` and `mod.rs` `serve_plugin_async` -/
inductive Startup
  | discovering
  | discovered
  | resolved (read : Snapshot)
  | followed
  | serving

/-- A `StartLogging` before it registers its stream. Source: `mod.rs` `Plugin::start_logging` -/
structure Start where
  path : Text
  handle : ℕ
  read : Snapshot
  stamped : Bool

/-- The networks with their followers. `wanted` is whether the plugin was given the networks; the containers are
shared under handles. -/
structure Host where
  rule : AllowFrom
  wanted : Bool
  snapshot : Snapshot
  refresher : Refresher
  listeners : List Listener
  startup : Startup
  access : Option Access
  live : ℕ → Option Live
  next : ℕ
  streams : List (Text × ℕ)
  starts : ℕ → Option Start

def Host.init (rule : AllowFrom) (wanted : Bool) : Host where
  rule := rule
  wanted := wanted
  snapshot := .empty
  refresher := .idle
  listeners := []
  startup := .discovering
  access := none
  live := fun _ => none
  next := 0
  streams := []
  starts := fun _ => none

/-- The steps of a refresh, of the start, and of the requests of the daemon; `remove` is `StopLogging`, or the
release of a stream that did not start. -/
inductive Event
  | discover (next : Snapshot)
  | lock
  | call
  | set
  | spawned
  | resolve
  | followAccess
  | followPlugin
  | read (call : ℕ) (path : Text) (container : Container)
  | stamp (call : ℕ)
  | register (call : ℕ)
  | remove (path : Text)

/-- The lock of the listeners is free. -/
def Refresher.unlocked : Refresher → Bool
  | .idle | .swapped _ => true
  | .calling _ _ | .setting _ _ _ => false

/-- The networks of a shared container are set. -/
def Host.setNetworks (s : Host) (h : ℕ) (snapshot : Snapshot) : Host :=
  { s with live := update s.live h ((s.live h).map fun l =>
      l.setNetworks (snapshot.containerNetworks l.container.id)) }

/-- The steps of a refresh. Source: `networks.rs` `Networks::publish`, `net.rs` `Net::new` and `mod.rs`
`Plugin::follow_networks`, their callbacks -/
def Host.refreshStep (s : Host) : Event → Option Host
  | .discover next =>
      match s.refresher with
      | .idle => if next = s.snapshot then some s else some { s with snapshot := next, refresher := .swapped next }
      | _ => none
  | .lock =>
      match s.refresher with
      | .swapped next => some { s with refresher := .calling next s.listeners }
      | _ => none
  | .call =>
      match s.refresher with
      | .calling _ [] => some { s with refresher := .idle }
      | .calling next (.access :: left) =>
          some { s with
            access := s.access.map fun a => a.refresh next.subnets
            refresher := .calling next left }
      | .calling next (.plugin :: left) => some { s with refresher := .setting next left (s.streams.map Prod.snd) }
      | _ => none
  | .set =>
      match s.refresher with
      | .setting next left [] => some { s with refresher := .calling next left }
      | .setting next left (h :: hs) => some { s.setNetworks h next with refresher := .setting next left hs }
      | _ => none
  | _ => none

/-- The steps of the start. Source: `networks.rs` `Networks::spawn` and `on_change`, `net.rs` `Net::new` and
`mod.rs` `Plugin::follow_networks` -/
def Host.startupStep (s : Host) : Event → Option Host
  | .spawned =>
      match s.startup, s.refresher with
      | .discovering, .idle => if s.snapshot.source = .unknown then none else some { s with startup := .discovered }
      | _, _ => none
  | .resolve =>
      match s.startup with
      | .discovered =>
          some { s with startup := .resolved s.snapshot, access := some (.new s.rule s.snapshot.subnets) }
      | _ => none
  | .followAccess =>
      match s.startup, s.refresher.unlocked with
      | .resolved _, true => some { s with startup := .followed, listeners := s.listeners ++ [.access] }
      | _, _ => none
  | .followPlugin =>
      match s.startup, s.refresher.unlocked with
      | .followed, true =>
          some { s with
            startup := .serving
            listeners := if s.wanted then s.listeners ++ [.plugin] else s.listeners }
      | _, _ => none
  | _ => none

/-- The steps of the requests. Source: `mod.rs` `Plugin::start_logging` and `stop_logging` -/
def Host.requestStep (s : Host) : Event → Option Host
  | .read call path container =>
      match s.startup, s.starts call with
      | .serving, none =>
          some { s with
            live := update s.live s.next (some (.new container))
            next := s.next + 1
            starts := update s.starts call (some ⟨path, s.next, s.snapshot, false⟩) }
      | _, _ => none
  | .stamp call =>
      match s.starts call with
      | some start =>
          let stamped : Host := if s.wanted then s.setNetworks start.handle start.read else s
          some { stamped with starts := update s.starts call (some { start with stamped := true }) }
      | none => none
  | .register call =>
      match s.starts call with
      | some ⟨path, handle, _, true⟩ =>
          some { s with
            starts := update s.starts call none
            streams := if path ∈ s.streams.map Prod.fst then s.streams else s.streams ++ [(path, handle)] }
      | _ => none
  | .remove path => some { s with streams := s.streams.filter fun p => p.1 ≠ path }
  | _ => none

def Host.step (s : Host) : Event → Option Host
  | .discover next => s.refreshStep (.discover next)
  | .lock => s.refreshStep .lock
  | .call => s.refreshStep .call
  | .set => s.refreshStep .set
  | .spawned => s.startupStep .spawned
  | .resolve => s.startupStep .resolve
  | .followAccess => s.startupStep .followAccess
  | .followPlugin => s.startupStep .followPlugin
  | e => s.requestStep e

/-! ## What is still to come -/

/-- The snapshot of the refresh. -/
def Refresher.next? : Refresher → Option Snapshot
  | .idle => none
  | .swapped next | .calling next _ | .setting next _ _ => some next

/-- The refresh has still to call the listener. -/
def Refresher.ToCall (listener : Listener) : Refresher → Prop
  | .idle => False
  | .swapped _ => True
  | .calling _ left | .setting _ left _ => listener ∈ left

/-- The refresh has still to set the networks of the container. -/
def Refresher.ToSet (h : ℕ) : Refresher → Prop
  | .setting _ left live => .plugin ∈ left ∨ h ∈ live
  | r => r.ToCall .plugin

/-- The listeners that the refresh has still to call, once it has the lock. -/
def Refresher.left : Refresher → List Listener
  | .calling _ left | .setting _ left _ => left
  | _ => []

/-- The containers that the refresh has taken. -/
def Refresher.taken : Refresher → List ℕ
  | .setting _ _ live => live
  | _ => []

theorem Refresher.ToCall.toSet {r : Refresher} (h : r.ToCall .plugin) (handle : ℕ) : r.ToSet handle := by
  match r with
  | .swapped _ => exact trivial
  | .calling _ _ => exact h
  | .setting _ _ _ => exact .inl h

/-! ## The invariant -/

/-- What the allow-list is: resolved for some subnets, and for the published ones unless it is still to be
refreshed. -/
def Host.AccessFollows (s : Host) : Prop :=
  ∃ a, s.access = some a ∧ a.rule = s.rule ∧ (∃ subnets, a.list = a.rule.resolve subnets) ∧
    (s.refresher.ToCall .access ∨ a.list = a.rule.resolve s.snapshot.subnets)

/-- What holds in every state of a run in which no change is missed. -/
structure Host.Inv (s : Host) : Prop where
  current : ∀ next, s.refresher.next? = some next → next = s.snapshot
  access : .access ∈ s.listeners → s.AccessFollows
  resolved : ∀ read, s.startup = .resolved read → s.access = some (.new s.rule read.subnets)
  early : s.startup ≠ .followed → s.startup ≠ .serving → s.listeners = []
  listed : ∀ listener ∈ s.refresher.left, listener ∈ s.listeners
  followed : s.startup = .followed ∨ s.startup = .serving → .access ∈ s.listeners
  serving : s.wanted = true → s.startup = .serving → .plugin ∈ s.listeners
  busy : s.streams ≠ [] → s.startup = .serving
  containers : s.wanted = true → ∀ p ∈ s.streams, ∃ l, s.live p.2 = some l ∧
    (s.refresher.ToSet p.2 ∨ l.Follows s.snapshot)
  starts : ∀ call start, s.starts call = some start → s.startup = .serving ∧ ∃ l, s.live start.handle = some l ∧
    (s.wanted = true → start.stamped = true → l.Follows start.read)
  bound : (∀ call start, s.starts call = some start → start.handle < s.next) ∧ (∀ p ∈ s.streams, p.2 < s.next) ∧
    ∀ h ∈ s.refresher.taken, h < s.next
  apart : ∀ call start, s.starts call = some start → (∀ p ∈ s.streams, p.2 ≠ start.handle) ∧
    start.handle ∉ s.refresher.taken
  one : ∀ call call' start start', s.starts call = some start → s.starts call' = some start' →
    start.handle = start'.handle → call = call'

/-- No change falls between a snapshot that is read and the registration that follows: it is registered while the
snapshot still gives the same, or while the listeners are still to be called. -/
def Unmissed (s : Host) : Event → Prop
  | .followAccess => ∀ read, s.startup = .resolved read →
      s.rule.resolve read.subnets = s.rule.resolve s.snapshot.subnets ∨ s.refresher.ToCall .access
  | .register call => ∀ start l, s.starts call = some start → s.live start.handle = some l → s.wanted = true →
      start.path ∉ s.streams.map Prod.fst →
      start.read.containerNetworks l.container.id = s.snapshot.containerNetworks l.container.id ∨
        s.refresher.ToCall .plugin
  | _ => True

variable {s s' : Host}

/-- A host that starts has the invariant. -/
theorem Host.Inv.init (rule : AllowFrom) (wanted : Bool) : (Host.init rule wanted).Inv where
  current _ h := nomatch h
  access h := absurd h not_mem_nil
  resolved _ h := nomatch h
  early _ _ := rfl
  listed _ h := absurd h not_mem_nil
  followed h := by rcases h with h | h <;> exact nomatch h
  serving _ h := nomatch h
  busy h := absurd rfl h
  containers _ _ h := absurd h not_mem_nil
  starts _ _ h := nomatch h
  bound := ⟨fun _ _ h => (nomatch h), fun _ h => absurd h not_mem_nil, fun _ h => absurd h not_mem_nil⟩
  apart _ _ h := nomatch h
  one _ _ _ _ h := nomatch h

/-- A refresh comes to a point at which it has the same to do and has taken no more containers. -/
theorem Host.Inv.refresher (h : s.Inv) {r : Refresher} (hnext : ∀ next, r.next? = some next → next = s.snapshot)
    (haccess : .access ∈ s.listeners → s.refresher.ToCall .access →
      r.ToCall .access ∨ ∀ a, s.access = some a → a.list = a.rule.resolve s.snapshot.subnets)
    (hset : s.wanted = true → ∀ p ∈ s.streams, s.refresher.ToSet p.2 →
      r.ToSet p.2 ∨ ∀ l, s.live p.2 = some l → l.Follows s.snapshot)
    (hleft : ∀ listener ∈ r.left, listener ∈ s.listeners)
    (htaken : ∀ handle ∈ r.taken, handle ∈ s.refresher.taken ∨ handle ∈ s.streams.map Prod.snd) :
    ({ s with refresher := r } : Host).Inv where
  current := hnext
  access hmem := by
    obtain ⟨a, ha, hrule, hresolved, hcall | hlist⟩ := h.access hmem
    · exact ⟨a, ha, hrule, hresolved, (haccess hmem hcall).imp_right fun hall => hall a ha⟩
    · exact ⟨a, ha, hrule, hresolved, .inr hlist⟩
  resolved := h.resolved
  early := h.early
  listed := hleft
  followed := h.followed
  serving := h.serving
  busy := h.busy
  containers hwanted p hp := by
    obtain ⟨l, hl, htoSet | hfollows⟩ := h.containers hwanted p hp
    · exact ⟨l, hl, (hset hwanted p hp htoSet).imp_right fun hall => hall l hl⟩
    · exact ⟨l, hl, .inr hfollows⟩
  starts := h.starts
  bound := by
    refine ⟨h.bound.1, h.bound.2.1, fun handle hhandle => ?_⟩
    rcases htaken handle hhandle with hmem | hmem
    · exact h.bound.2.2 handle hmem
    · obtain ⟨p, hp, rfl⟩ := mem_map.mp hmem
      exact h.bound.2.1 p hp
  apart call start hstart := by
    obtain ⟨hstreams, hnot⟩ := h.apart call start hstart
    refine ⟨hstreams, fun hmem => ?_⟩
    rcases htaken start.handle hmem with hmem | hmem
    · exact hnot hmem
    · obtain ⟨p, hp, heq⟩ := mem_map.mp hmem
      exact hstreams p hp heq
  one := h.one

/-- The networks of a container are set, which no start has. -/
theorem Host.Inv.setNetworks (h : s.Inv) {handle : ℕ} (hfree : ∀ call start, s.starts call = some start →
    start.handle ≠ handle) : (s.setNetworks handle s.snapshot).Inv ∧
      ∀ l, (s.setNetworks handle s.snapshot).live handle = some l → l.Follows s.snapshot := by
  have hsame {i : ℕ} (hi : i ≠ handle) : (s.setNetworks handle s.snapshot).live i = s.live i :=
    update_of_ne hi _ _
  have hset : (s.setNetworks handle s.snapshot).live handle = (s.live handle).map fun l =>
      l.setNetworks (s.snapshot.containerNetworks l.container.id) := update_self handle _ s.live
  have hfollows (l : Live) (hl : (s.setNetworks handle s.snapshot).live handle = some l) : l.Follows s.snapshot := by
    obtain ⟨l', -, rfl⟩ := map_eq_some_iff.mp (hset.symm.trans hl)
    exact ⟨rfl, rfl⟩
  refine ⟨⟨h.current, h.access, h.resolved, h.early, h.listed, h.followed, h.serving, h.busy, ?_, ?_, h.bound, h.apart,
    h.one⟩, hfollows⟩
  · intro hwanted p hp
    obtain ⟨l, hl, hor⟩ := h.containers hwanted p hp
    by_cases heq : p.2 = handle
    · have hlive : (s.setNetworks handle s.snapshot).live p.2 =
          some (l.setNetworks (s.snapshot.containerNetworks l.container.id)) := by
        rw [heq, hset, ← heq, hl]
        rfl
      exact ⟨_, hlive, .inr ⟨rfl, rfl⟩⟩
    · exact ⟨l, (hsame heq).trans hl, hor⟩
  · intro call start hstart
    obtain ⟨hserving, l, hl, hread⟩ := h.starts call start hstart
    exact ⟨hserving, l, (hsame (hfree call start hstart)).trans hl, hread⟩

/-- Another snapshot is published: everything is still to be called. -/
theorem Host.Inv.published (h : s.Inv) (next : Snapshot) :
    ({ s with snapshot := next, refresher := .swapped next } : Host).Inv := by
  refine ⟨fun _ hnext => (some.inj hnext).symm, fun hmem => ?_, h.resolved, h.early,
    fun _ hmem => absurd hmem not_mem_nil, h.followed, h.serving, h.busy, fun hwanted p hp => ?_, h.starts,
    ⟨h.bound.1, h.bound.2.1, fun _ hmem => absurd hmem not_mem_nil⟩,
    fun call start hstart => ⟨(h.apart call start hstart).1, not_mem_nil⟩, h.one⟩
  · obtain ⟨a, ha, hrule, hresolved, -⟩ := h.access hmem
    exact ⟨a, ha, hrule, hresolved, .inl trivial⟩
  · obtain ⟨l, hl, -⟩ := h.containers hwanted p hp
    exact ⟨l, hl, .inl trivial⟩

/-- The allow-list is called: it is refreshed, and then the listeners are left. -/
theorem Host.Inv.refreshed (h : s.Inv) {next : Snapshot} {left : List Listener}
    (hr : s.refresher = .calling next (.access :: left)) :
    ({ s with access := s.access.map fun a => a.refresh next.subnets, refresher := .calling next left } : Host).Inv := by
  have hcurrent : next = s.snapshot := h.current next (hr ▸ rfl)
  have hlisted := h.listed
  rw [hr] at hlisted
  have hmem : .access ∈ s.listeners := hlisted .access mem_cons_self
  obtain ⟨a, ha, hrule, ⟨subnets, hlist⟩, -⟩ := h.access hmem
  have hnew : (s.access.map fun a => a.refresh next.subnets) = some (a.refresh next.subnets) := by
    rw [ha]
    rfl
  have hlist' : (a.refresh next.subnets).list = (a.refresh next.subnets).rule.resolve next.subnets := by
    rw [refresh_rule]
    exact refresh_list hlist _
  have hcalled : ({ s with access := s.access.map fun a => a.refresh next.subnets } : Host).Inv := by
    refine ⟨h.current, fun _ => ⟨_, hnew, (refresh_rule a _).trans hrule, ⟨next.subnets, hlist'⟩, .inr ?_⟩,
      fun read hread => ?_, h.early, h.listed, h.followed, h.serving, h.busy, h.containers, h.starts, h.bound,
      h.apart, h.one⟩
    · exact hcurrent ▸ hlist'
    · rw [h.early (by rw [hread]; exact nofun) (by rw [hread]; exact nofun)] at hmem
      exact absurd hmem not_mem_nil
  refine hcalled.refresher (fun next' hnext => ?_) (fun _ _ => .inr fun b hb => ?_) (fun _ p _ hset => .inl ?_)
    (fun listener hmem => hlisted listener (mem_cons_of_mem _ hmem)) fun _ hmem =>
      absurd hmem not_mem_nil
  · exact h.current next' (hr ▸ hnext)
  · obtain rfl := some.inj (hnew.symm.trans hb)
    exact hcurrent ▸ hlist'
  · replace hset : s.refresher.ToSet p.2 := hset
    rw [hr] at hset
    exact (mem_cons.mp hset).resolve_left nofun

/-- The plugin is called: the networks of its containers are still to be set. -/
theorem Host.Inv.pluginCalled (h : s.Inv) {next : Snapshot} {left : List Listener}
    (hr : s.refresher = .calling next (.plugin :: left)) :
    ({ s with refresher := .setting next left (s.streams.map Prod.snd) } : Host).Inv := by
  have hlisted := h.listed
  rw [hr] at hlisted
  refine h.refresher (fun next' hnext => ?_) (fun _ hcall => .inl ?_) (fun _ p hp _ => .inl (.inr ?_))
    (fun listener hmem => hlisted listener (mem_cons_of_mem _ hmem)) fun handle hmem => .inr hmem
  · exact h.current next' (hr ▸ hnext)
  · rw [hr] at hcall
    exact (mem_cons.mp hcall).resolve_left nofun
  · exact mem_map_of_mem hp

/-- The networks of the next of the containers are set. -/
theorem Host.Inv.containerSet (h : s.Inv) {next : Snapshot} {left : List Listener} {handle : ℕ} {live : List ℕ}
    (hr : s.refresher = .setting next left (handle :: live)) :
    ({ s.setNetworks handle next with refresher := .setting next left live } : Host).Inv := by
  obtain rfl : next = s.snapshot := h.current next (hr ▸ rfl)
  have hlisted := h.listed
  rw [hr] at hlisted
  have htaken : handle ∈ s.refresher.taken := hr ▸ mem_cons_self
  obtain ⟨hinv, hfollows⟩ := h.setNetworks fun call start hstart heq =>
    (h.apart call start hstart).2 (heq ▸ htaken)
  have hrefresher : (s.setNetworks handle s.snapshot).refresher = .setting s.snapshot left (handle :: live) := hr
  refine hinv.refresher (fun next' hnext => ?_) (fun _ hcall => .inl ?_) (fun _ p _ hset => ?_) hlisted
    fun i hmem => .inl ?_
  · exact (some.inj hnext).symm
  · rwa [hrefresher] at hcall
  · rw [hrefresher] at hset
    rcases hset with hplugin | hset
    · exact .inl (.inl hplugin)
    · rcases mem_cons.mp hset with heq | hset
      · exact .inr fun l hl => hfollows l (heq ▸ hl)
      · exact .inl (.inr hset)
  · rw [hrefresher]
    exact mem_cons_of_mem _ hmem

/-- The steps of a refresh keep the invariant. -/
theorem Host.Inv.refreshStep (h : s.Inv) {e : Event} (hstep : s.refreshStep e = some s') : s'.Inv := by
  have hlisted := h.listed
  match e with
  | .discover next =>
    rcases hr : s.refresher with _ | _ | _ | _ <;> simp only [Host.refreshStep, hr, reduceCtorEq] at hstep
    split at hstep
    · exact some.inj hstep ▸ h
    · exact some.inj hstep ▸ h.published next
  | .lock =>
    rcases hr : s.refresher with _ | next | _ | _ <;>
      simp only [Host.refreshStep, hr, reduceCtorEq, some.injEq] at hstep
    rw [← hstep]
    refine h.refresher (fun next' hnext => ?_) (fun hmem _ => .inl hmem) (fun hwanted p hp _ => .inl ?_)
      (fun _ hmem => hmem) fun _ hmem => absurd hmem not_mem_nil
    · exact h.current next' (hr ▸ hnext)
    · exact h.serving hwanted (h.busy (ne_nil_of_mem hp))
  | .call =>
    rcases hr : s.refresher with _ | _ | ⟨next, _ | ⟨_ | _, left⟩⟩ | _ <;>
      simp only [Host.refreshStep, hr, reduceCtorEq, some.injEq] at hstep
    · rw [← hstep]
      refine h.refresher (fun _ hnext => nomatch hnext) (fun _ hcall => .inl ?_) (fun _ p _ hset => ?_)
        (fun _ hmem => absurd hmem not_mem_nil) fun _ hmem => absurd hmem not_mem_nil
      · rw [hr] at hcall
        exact absurd hcall not_mem_nil
      · rw [hr] at hset
        exact absurd hset not_mem_nil
    · exact hstep ▸ h.refreshed hr
    · exact hstep ▸ h.pluginCalled hr
  | .set =>
    rcases hr : s.refresher with _ | _ | _ | ⟨next, left, _ | ⟨handle, live⟩⟩ <;>
      simp only [Host.refreshStep, hr, reduceCtorEq, some.injEq] at hstep
    · rw [← hstep]
      rw [hr] at hlisted
      refine h.refresher (fun next' hnext => ?_) (fun _ hcall => .inl ?_) (fun _ p _ hset => .inl ?_) hlisted
        fun _ hmem => absurd hmem not_mem_nil
      · exact h.current next' (hr ▸ hnext)
      · rwa [hr] at hcall
      · rw [hr] at hset
        exact hset.resolve_right not_mem_nil
    · exact hstep ▸ h.containerSet hr
  | .spawned | .resolve | .followAccess | .followPlugin | .read .. | .stamp .. | .register .. | .remove .. =>
    exact nomatch hstep

theorem Refresher.unlocked_left {r : Refresher} (h : r.unlocked = true) : r.left = [] := by
  match r with
  | .idle | .swapped _ => rfl

/-- Before the plugin is served there are no containers, so what the start changes concerns the listeners only. -/
theorem Host.Inv.startup (h : s.Inv) (hbefore : s.startup ≠ .serving) {startup : Startup} {access : Option Access}
    {listeners : List Listener}
    (haccess : .access ∈ listeners →
      ({ s with startup := startup, access := access, listeners := listeners } : Host).AccessFollows)
    (hresolved : ∀ read, startup = .resolved read → access = some (.new s.rule read.subnets))
    (hearly : startup ≠ .followed → startup ≠ .serving → listeners = [])
    (hlisted : ∀ listener ∈ s.refresher.left, listener ∈ listeners)
    (hfollowed : startup = .followed ∨ startup = .serving → .access ∈ listeners)
    (hserving : s.wanted = true → startup = .serving → .plugin ∈ listeners) :
    ({ s with startup := startup, access := access, listeners := listeners } : Host).Inv := by
  have hstreams : s.streams = [] := by
    by_contra hne
    exact hbefore (h.busy hne)
  refine ⟨h.current, haccess, hresolved, hearly, hlisted, hfollowed, hserving, fun hne => absurd hstreams hne,
    fun _ p hp => ?_, fun call start hstart => ?_, h.bound, h.apart, h.one⟩
  · replace hp : p ∈ s.streams := hp
    rw [hstreams] at hp
    exact absurd hp not_mem_nil
  · exact absurd (h.starts call start hstart).1 hbefore

/-- The steps of the start keep the invariant, with the registration of the allow-list not missing a change. -/
theorem Host.Inv.startupStep (h : s.Inv) {e : Event} (hstep : s.startupStep e = some s') (hunmissed : Unmissed s e) :
    s'.Inv := by
  match e with
  | .spawned =>
    rcases hst : s.startup with _ | _ | read | _ | _
    · simp only [Host.startupStep, hst] at hstep
      split at hstep
      · split at hstep
        · exact nomatch hstep
        · have hnone : s.listeners = [] := h.early (by rw [hst]; exact nofun) (by rw [hst]; exact nofun)
          rw [← some.inj hstep]
          exact h.startup (by rw [hst]; exact nofun) h.access (fun _ hread => nomatch hread) (fun _ _ => hnone)
            h.listed (fun hor => by rcases hor with hor | hor <;> exact nomatch hor) fun _ hor => nomatch hor
      · exact nomatch hstep
    all_goals simp only [Host.startupStep, hst, reduceCtorEq] at hstep
  | .resolve =>
    rcases hst : s.startup with _ | _ | read | _ | _
    case discovered =>
      simp only [Host.startupStep, hst, some.injEq] at hstep
      rw [← hstep]
      have hnone : s.listeners = [] := h.early (by rw [hst]; exact nofun) (by rw [hst]; exact nofun)
      refine h.startup (by rw [hst]; exact nofun) (fun hmem => ?_) (fun _ hread => ?_) (fun _ _ => hnone) h.listed
        (fun hor => by rcases hor with hor | hor <;> exact nomatch hor) fun _ hor => nomatch hor
      · rw [hnone] at hmem
        exact absurd hmem not_mem_nil
      · obtain rfl := Startup.resolved.inj hread
        rfl
    all_goals simp only [Host.startupStep, hst, reduceCtorEq] at hstep
  | .followAccess =>
    rcases hst : s.startup with _ | _ | read | _ | _
    case resolved =>
      rcases hfree : s.refresher.unlocked
      · simp only [Host.startupStep, hst, hfree, reduceCtorEq] at hstep
      · simp only [Host.startupStep, hst, hfree, some.injEq] at hstep
        rw [← hstep]
        have hmem : .access ∈ s.listeners ++ [.access] := mem_append_right _ (mem_singleton.mpr rfl)
        refine h.startup (by rw [hst]; exact nofun) (fun _ => ?_) (fun _ hread => nomatch hread)
          (fun hne => absurd rfl hne) (fun listener hleft => ?_) (fun _ => hmem) fun _ hor => nomatch hor
        · refine ⟨_, h.resolved read hst, rfl, ⟨read.subnets, rfl⟩, ?_⟩
          exact (hunmissed read hst).symm
        · rw [s.refresher.unlocked_left hfree] at hleft
          exact absurd hleft not_mem_nil
    all_goals simp only [Host.startupStep, hst, reduceCtorEq] at hstep
  | .followPlugin =>
    rcases hst : s.startup with _ | _ | read | _ | _
    case followed =>
      rcases hfree : s.refresher.unlocked
      · simp only [Host.startupStep, hst, hfree, reduceCtorEq] at hstep
      · simp only [Host.startupStep, hst, hfree, some.injEq] at hstep
        rw [← hstep]
        have hmem : .access ∈ s.listeners := h.followed (.inl hst)
        have hstays : .access ∈ if s.wanted then s.listeners ++ [.plugin] else s.listeners := by
          split
          · exact mem_append_left _ hmem
          · exact hmem
        refine h.startup (by rw [hst]; exact nofun) (fun _ => h.access hmem) (fun _ hread => nomatch hread)
          (fun _ hne => absurd rfl hne) (fun listener hleft => ?_) (fun _ => hstays) fun hwanted _ => ?_
        · rw [s.refresher.unlocked_left hfree] at hleft
          exact absurd hleft not_mem_nil
        · rw [if_pos hwanted]
          exact mem_append_right _ (mem_singleton.mpr rfl)
    all_goals simp only [Host.startupStep, hst, reduceCtorEq] at hstep
  | .discover _ | .lock | .call | .set | .read .. | .stamp .. | .register .. | .remove .. => exact nomatch hstep

/-- A container is stamped with what its start has read. -/
theorem Host.Inv.stamped (h : s.Inv) {call : ℕ} {start : Start} (hcall : s.starts call = some start)
    {live : ℕ → Option Live} (hlive : ∀ i, i ≠ start.handle → live i = s.live i)
    (hself : ∃ l, live start.handle = some l ∧ (s.wanted = true → l.Follows start.read)) :
    ({ s with
      live := live
      starts := update s.starts call (some { start with stamped := true }) } : Host).Inv := by
  have hstarts {c : ℕ} {other : Start}
      (hother : update s.starts call (some { start with stamped := true }) c = some other) :
      ∃ old, s.starts c = some old ∧ other.handle = old.handle ∧
        (c = call ∧ other = { start with stamped := true } ∨ c ≠ call ∧ other = old) := by
    by_cases hc : c = call
    · rw [hc, update_self] at hother
      obtain rfl := some.inj hother
      exact ⟨start, hc ▸ hcall, rfl, .inl ⟨hc, rfl⟩⟩
    · rw [update_of_ne hc] at hother
      exact ⟨other, hother, rfl, .inr ⟨hc, rfl⟩⟩
  refine ⟨h.current, h.access, h.resolved, h.early, h.listed, h.followed, h.serving, h.busy, ?_, ?_, ?_, ?_, ?_⟩
  · intro hwanted p hp
    obtain ⟨l, hl, hor⟩ := h.containers hwanted p hp
    exact ⟨l, (hlive p.2 ((h.apart call start hcall).1 p hp)).trans hl, hor⟩
  · intro c other hother
    refine ⟨(h.starts call start hcall).1, ?_⟩
    obtain ⟨old, hold, -, ⟨-, rfl⟩ | ⟨hc, rfl⟩⟩ := hstarts hother
    · obtain ⟨l, hl, hfollows⟩ := hself
      exact ⟨l, hl, fun hwanted _ => hfollows hwanted⟩
    · obtain ⟨-, l, hl, hread⟩ := h.starts c other hold
      exact ⟨l, (hlive other.handle fun heq => hc (h.one c call other start hold hcall heq)).trans hl, hread⟩
  · refine ⟨fun c other hother => ?_, h.bound.2⟩
    obtain ⟨old, hold, heq, -⟩ := hstarts hother
    exact heq ▸ h.bound.1 c old hold
  · intro c other hother
    obtain ⟨old, hold, heq, -⟩ := hstarts hother
    exact heq ▸ h.apart c old hold
  · intro c c' other other' hother hother' heq
    obtain ⟨old, hold, hhandle, -⟩ := hstarts hother
    obtain ⟨old', hold', hhandle', -⟩ := hstarts hother'
    exact h.one c c' old old' hold hold' ((hhandle.symm.trans heq).trans hhandle')

/-- A start takes its container and reads the snapshot. -/
theorem Host.Inv.started (h : s.Inv) (hserving : s.startup = .serving) (call : ℕ) (path : Text)
    (container : Container) :
    ({ s with
      live := update s.live s.next (some (.new container))
      next := s.next + 1
      starts := update s.starts call (some ⟨path, s.next, s.snapshot, false⟩) } : Host).Inv := by
  have hold {i : ℕ} (hi : i < s.next) :
      update s.live s.next (some (Live.new container)) i = s.live i :=
    update_of_ne (Nat.ne_of_lt hi) _ _
  have hstarts {c : ℕ} {start : Start}
      (hstart : update s.starts call (some ⟨path, s.next, s.snapshot, false⟩) c = some start) :
      (c = call ∧ start = ⟨path, s.next, s.snapshot, false⟩) ∨ (c ≠ call ∧ s.starts c = some start) := by
    by_cases hc : c = call
    · rw [hc, update_self] at hstart
      exact .inl ⟨hc, (some.inj hstart).symm⟩
    · rw [update_of_ne hc] at hstart
      exact .inr ⟨hc, hstart⟩
  refine ⟨h.current, h.access, h.resolved, h.early, h.listed, h.followed, h.serving, h.busy, ?_, ?_, ?_, ?_, ?_⟩
  · intro hwanted p hp
    obtain ⟨l, hl, hor⟩ := h.containers hwanted p hp
    exact ⟨l, (hold (h.bound.2.1 p hp)).trans hl, hor⟩
  · intro c start hstart
    refine ⟨hserving, ?_⟩
    rcases hstarts hstart with ⟨-, rfl⟩ | ⟨-, hstart⟩
    · exact ⟨_, update_self s.next _ s.live, fun _ hstamped => nomatch hstamped⟩
    · obtain ⟨-, l, hl, hread⟩ := h.starts c start hstart
      exact ⟨l, (hold (h.bound.1 c start hstart)).trans hl, hread⟩
  · refine ⟨fun c start hstart => ?_, fun p hp => Nat.lt_succ_of_lt (h.bound.2.1 p hp), fun i hi =>
      Nat.lt_succ_of_lt (h.bound.2.2 i hi)⟩
    rcases hstarts hstart with ⟨-, rfl⟩ | ⟨-, hstart⟩
    · exact Nat.lt_succ_self _
    · exact Nat.lt_succ_of_lt (h.bound.1 c start hstart)
  · intro c start hstart
    rcases hstarts hstart with ⟨-, rfl⟩ | ⟨-, hstart⟩
    · exact ⟨fun p hp => Nat.ne_of_lt (h.bound.2.1 p hp), fun hmem => Nat.lt_irrefl _ (h.bound.2.2 _ hmem)⟩
    · exact h.apart c start hstart
  · intro c c' start start' hstart hstart' heq
    rcases hstarts hstart with ⟨hc, rfl⟩ | ⟨-, hstart⟩
    · rcases hstarts hstart' with ⟨hc', -⟩ | ⟨-, hstart'⟩
      · exact hc.trans hc'.symm
      · exact absurd heq.symm (Nat.ne_of_lt (h.bound.1 c' start' hstart'))
    · rcases hstarts hstart' with ⟨-, rfl⟩ | ⟨-, hstart'⟩
      · exact absurd heq (Nat.ne_of_lt (h.bound.1 c start hstart))
      · exact h.one c c' start start' hstart hstart' heq

/-- A stamped container is registered, unless its stream already is. -/
theorem Host.Inv.registered (h : s.Inv) {call : ℕ} {path : Text} {handle : ℕ} {read : Snapshot}
    (hcall : s.starts call = some ⟨path, handle, read, true⟩) (hunmissed : Unmissed s (.register call)) :
    ({ s with
      starts := update s.starts call none
      streams := if path ∈ s.streams.map Prod.fst then s.streams else s.streams ++ [(path, handle)] } : Host).Inv := by
  obtain ⟨hserving, l, hl, hread⟩ := h.starts call _ hcall
  have hstarts {c : ℕ} {other : Start} (hother : update s.starts call none c = some other) :
      c ≠ call ∧ s.starts c = some other := by
    by_cases hc : c = call
    · rw [hc, update_self] at hother
      exact nomatch hother
    · rw [update_of_ne hc] at hother
      exact ⟨hc, hother⟩
  have hmem {p : Text × ℕ}
      (hp : p ∈ if path ∈ s.streams.map Prod.fst then s.streams else s.streams ++ [(path, handle)]) :
      p ∈ s.streams ∨ path ∉ s.streams.map Prod.fst ∧ p = (path, handle) := by
    split at hp
    · exact .inl hp
    · rename_i hnew
      exact (mem_append.mp hp).imp_right fun hlast => ⟨hnew, mem_singleton.mp hlast⟩
  refine ⟨h.current, h.access, h.resolved, h.early, h.listed, h.followed, h.serving, fun _ => hserving, ?_, ?_,
    ?_, ?_, ?_⟩
  · intro hwanted p hp
    rcases hmem hp with hold | ⟨hnew, rfl⟩
    · exact h.containers hwanted p hold
    · -- the container follows the snapshot that was read, which is as good or still to be replaced
      obtain ⟨hnetworks, hresource⟩ := hread hwanted rfl
      refine ⟨l, hl, ?_⟩
      rcases hunmissed _ l hcall hl hwanted hnew with heq | hcall
      · exact .inr ⟨hnetworks.trans heq, hresource.trans (congrArg _ heq)⟩
      · exact .inl (hcall.toSet handle)
  · intro c other hother
    exact h.starts c other (hstarts hother).2
  · refine ⟨fun c other hother => h.bound.1 c other (hstarts hother).2, fun p hp => ?_, h.bound.2.2⟩
    rcases hmem hp with hold | ⟨-, rfl⟩
    · exact h.bound.2.1 p hold
    · exact h.bound.1 call _ hcall
  · intro c other hother
    obtain ⟨hc, hold⟩ := hstarts hother
    obtain ⟨hstreams, htaken⟩ := h.apart c other hold
    refine ⟨fun p hp => ?_, htaken⟩
    rcases hmem hp with hmem | ⟨-, rfl⟩
    · exact hstreams p hmem
    · exact fun heq => hc (h.one c call other _ hold hcall heq.symm)
  · intro c c' other other' hother hother' heq
    exact h.one c c' other other' (hstarts hother).2 (hstarts hother').2 heq

/-- The steps of the requests keep the invariant, with the registration of a stream not missing a change. -/
theorem Host.Inv.requestStep (h : s.Inv) {e : Event} (hstep : s.requestStep e = some s') (hunmissed : Unmissed s e) :
    s'.Inv := by
  match e with
  | .read call path container =>
    simp only [Host.requestStep] at hstep
    split at hstep
    · rename_i hserving _
      exact some.inj hstep ▸ h.started hserving call path container
    · exact nomatch hstep
  | .stamp call =>
    rcases hcall : s.starts call with _ | start
    · simp only [Host.requestStep, hcall, reduceCtorEq] at hstep
    · simp only [Host.requestStep, hcall, some.injEq] at hstep
      rw [← hstep]
      obtain ⟨-, l, hl, -⟩ := h.starts call start hcall
      split
      · refine h.stamped hcall (fun i hi => update_of_ne hi _ _)
          ⟨l.setNetworks (start.read.containerNetworks l.container.id), ?_, fun _ => ⟨rfl, rfl⟩⟩
        exact (update_self start.handle _ s.live).trans (by rw [hl]; rfl)
      · rename_i hwanted
        exact h.stamped hcall (fun i _ => rfl) ⟨l, hl, fun hw => absurd hw hwanted⟩
  | .register call =>
    simp only [Host.requestStep] at hstep
    split at hstep
    · rename_i hcall
      exact some.inj hstep ▸ h.registered hcall hunmissed
    · exact nomatch hstep
  | .remove path =>
    rw [← some.inj hstep]
    have hsub {p : Text × ℕ} (hp : p ∈ s.streams.filter fun p => p.1 ≠ path) : p ∈ s.streams := mem_of_mem_filter hp
    exact ⟨h.current, h.access, h.resolved, h.early, h.listed, h.followed, h.serving,
      fun hne => h.busy fun hnil => hne (by simp only [hnil, filter_nil]),
      fun hwanted p hp => h.containers hwanted p (hsub hp), h.starts,
      ⟨h.bound.1, fun p hp => h.bound.2.1 p (hsub hp), h.bound.2.2⟩,
      fun call start hstart => ⟨fun p hp => (h.apart call start hstart).1 p (hsub hp), (h.apart call start hstart).2⟩,
      h.one⟩
  | .discover _ | .lock | .call | .set | .spawned | .resolve | .followAccess | .followPlugin => exact nomatch hstep

theorem Host.step_cases (s : Host) (e : Event) :
    s.step e = s.refreshStep e ∨ s.step e = s.startupStep e ∨ s.step e = s.requestStep e := by
  match e with
  | .discover _ | .lock | .call | .set => exact .inl rfl
  | .spawned | .resolve | .followAccess | .followPlugin => exact .inr (.inl rfl)
  | .read .. | .stamp _ | .register _ | .remove _ => exact .inr (.inr rfl)

theorem Host.Inv.step (h : s.Inv) {e : Event} (hunmissed : Unmissed s e) (hstep : s.step e = some s') : s'.Inv := by
  rcases s.step_cases e with heq | heq | heq
  · exact h.refreshStep (heq ▸ hstep)
  · exact h.startupStep (heq ▸ hstep) hunmissed
  · exact h.requestStep (heq ▸ hstep) hunmissed

/-- What the host was started with does not change. -/
theorem Host.step_fixed {e : Event} (hstep : s.step e = some s') : s'.rule = s.rule ∧ s'.wanted = s.wanted := by
  rcases s.step_cases e with heq | heq | heq
  · rw [heq] at hstep
    unfold Host.refreshStep Host.setNetworks at hstep
    grind
  · rw [heq] at hstep
    unfold Host.startupStep at hstep
    grind
  · rw [heq] at hstep
    unfold Host.requestStep Host.setNetworks at hstep
    grind

/-! ## Runs -/

/-- None of the operations is in progress: the plugin is served, no refresh is under way, and no start. -/
structure Host.Quiet (s : Host) : Prop where
  startup : s.startup = .serving
  refresher : s.refresher = .idle
  starts : ∀ call, s.starts call = none

/-- What discovery owes its followers. -/
structure Host.Reached (s : Host) : Prop where
  access : ∃ a, s.access = some a ∧ a.list = s.rule.resolve s.snapshot.subnets
  containers : s.wanted = true → ∀ p ∈ s.streams, ∃ l, s.live p.2 = some l ∧ l.Follows s.snapshot

/-- A quiet host serves what is attached and nothing else. -/
theorem Host.Inv.reached (h : s.Inv) (hquiet : s.Quiet) : s.Reached where
  access := by
    obtain ⟨a, ha, hrule, -, hcall | hlist⟩ := h.access (h.followed (.inr hquiet.startup))
    · rw [hquiet.refresher] at hcall
      exact hcall.elim
    · exact ⟨a, ha, hrule ▸ hlist⟩
  containers hwanted p hp := by
    obtain ⟨l, hl, hset | hfollows⟩ := h.containers hwanted p hp
    · rw [hquiet.refresher] at hset
      exact hset.elim
    · exact ⟨l, hl, hfollows⟩

/-- In a run in which no change falls between the snapshot that a follower reads and its registration, whenever no
operation is in progress the allow-list is that of the published snapshot, and the networks and the resource of every
registered container are the ones it gives. -/
theorem followers_reached (rule : AllowFrom) (wanted : Bool) (es : List Event) (s : Host)
    (hrun : run Host.step (.init rule wanted) es = some s) (hunmissed : Guarded Host.step Unmissed (.init rule wanted) es)
    (hquiet : s.Quiet) :
    (∃ a, s.access = some a ∧ a.list = rule.resolve s.snapshot.subnets) ∧
      (wanted = true → ∀ p ∈ s.streams, ∃ l, s.live p.2 = some l ∧ l.Follows s.snapshot) := by
  have hinv : s.Inv := run_induction Host.Inv (fun _ _ _ h hok hstep => h.step hok hstep) (.init rule wanted) hunmissed hrun
  obtain ⟨hrule, hwanted⟩ : s.rule = rule ∧ s.wanted = wanted :=
    run_invariant (fun s => s.rule = rule ∧ s.wanted = wanted)
      (fun _ _ _ h hstep => ⟨(Host.step_fixed hstep).1.trans h.1, (Host.step_fixed hstep).2.trans h.2⟩) ⟨rfl, rfl⟩ hrun
  obtain ⟨haccess, hcontainers⟩ := hinv.reached hquiet
  exact ⟨hrule ▸ haccess, fun hw => hcontainers (hwanted.trans hw)⟩

/-- A network with one container. -/
def web : Snapshot :=
  ⟨[⟨"web".toList, "br-1".toList, "10.0.0.1".toList, ⟨"10.0.0.0".toList, 24⟩, [("c1".toList, "10.0.0.2".toList)]⟩],
    .api⟩

def worker : Container where
  id := "c1".toList
  name := "worker".toList
  service := "worker".toList
  base := []
  stdoutSeverity := (9, "INFO".toList)
  stderrSeverity := (17, "ERROR".toList)

/-- A container that is started when its network is known. -/
theorem worker_reached :
    ∃ s, run Host.step (.init (.list true []) true) [.discover web, .lock, .call, .spawned, .resolve, .followAccess,
        .followPlugin, .read 0 "a".toList worker, .stamp 0, .register 0] = some s ∧
      s.streams = [("a".toList, 0)] ∧ (∃ a, s.access = some a ∧ a.list = some (web.subnets ++ loopback)) ∧
      ∃ l, s.live 0 = some l ∧ l.networks = [("web".toList, "10.0.0.2".toList)] := by
  have hquiet (c : ℕ) : (update (update (update (fun _ => none) 0
      (some (⟨"a".toList, 0, web, false⟩ : Start))) 0 (some ⟨"a".toList, 0, web, true⟩)) 0 none) c = none := by
    match c with
    | 0 => rfl
    | c + 1 => rfl
  obtain ⟨⟨a, ha, hlist⟩, hlive⟩ := followers_reached (.list true []) true [.discover web, .lock, .call, .spawned,
    .resolve, .followAccess, .followPlugin, .read 0 "a".toList worker, .stamp 0, .register 0] _ rfl
    ⟨trivial, trivial, trivial, trivial, trivial, fun read hread => .inl (Startup.resolved.inj hread ▸ rfl), trivial,
      trivial, trivial, fun start l hstart hl _ _ => .inl (some.inj hstart ▸ rfl), trivial⟩
    ⟨rfl, rfl, hquiet⟩
  obtain ⟨l, hl, hfollows⟩ := hlive rfl ("a".toList, 0) (mem_singleton_self _)
  refine ⟨_, rfl, rfl, ⟨a, ha, hlist⟩, l, hl, ?_⟩
  obtain rfl := some.inj hl
  exact hfollows.1

/-- A network that is discovered while a container on it starts, after the start has read the snapshot, and one that
is discovered while the allow-list is made. -/
theorem network_missed :
    (∃ s, run Host.step (.init (.list true []) true) [.discover ⟨[], .api⟩, .lock, .call, .spawned, .resolve,
        .followAccess, .followPlugin, .read 0 "a".toList worker, .discover web, .lock, .call, .call, .set, .call,
        .stamp 0, .register 0] = some s ∧ s.Quiet ∧ ("a".toList, 0) ∈ s.streams ∧
      ∃ l, s.live 0 = some l ∧ ¬l.Follows s.snapshot) ∧
    ∃ s, run Host.step (.init (.list true []) true) [.discover ⟨[], .api⟩, .lock, .call, .spawned, .resolve,
        .discover web, .lock, .call, .followAccess, .followPlugin] = some s ∧ s.Quiet ∧
      ∃ a, s.access = some a ∧ a.list ≠ a.rule.resolve s.snapshot.subnets := by
  refine ⟨⟨_, rfl, ⟨rfl, rfl, fun c => ?_⟩, mem_singleton_self _, _, rfl, fun h => ?_⟩, _, rfl,
    ⟨rfl, rfl, fun _ => rfl⟩, _, rfl, ?_⟩
  · match c with
    | 0 => rfl
    | c + 1 => rfl
  · exact absurd h.1 (by decide)
  · decide

end Imbh.Docker.Net
