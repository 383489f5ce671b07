import Imbh.Lib.Checked
import Imbh.Lib.IpAddr

/-!
# The accept-side allow-list

Networks, and the rule that a peer must satisfy to be served. The rule may ask for the subnets of the
bridges, which are discovered again and again.

* `allow_list_exact` — what a network is, and who is served.
-/

namespace Imbh.Docker.Allow

open Lib

/-! ## Networks -/

/-- An address and the length of the prefix, which is no wider than the address.
Source: `addr.rs` `Cidr` -/
@[ext] structure Cidr where
  addr : IpAddr
  prefixLen : ℕ
  le : prefixLen ≤ addr.width

namespace Cidr

/-- Source: `addr.rs` `Cidr::new` -/
def new (addr : IpAddr) (prefixLen : ℕ) : Cidr := ⟨addr, min prefixLen addr.width, min_le_right _ _⟩

/-- The address and the prefix length, if there is one.
Source: `addr.rs` `Cidr::parse`, the first match -/
def parts (value : Text) : Except Text (Text × Option ℕ) :=
  match splitAtChar (· = '/') value with
  | some (addr, prefixLen) =>
      match parseBelow 256 (trim prefixLen) with
      | some prefixLen => return (trim addr, some prefixLen)
      | none => throw (value ++ ": prefix length is not a number".toList)
  | none => return (value, none)

/-- Source: `addr.rs` `Cidr::parse` -/
def parse (value : Text) : Except Text Cidr := do
  let value := trim value
  let (addr, prefixLen) ← parts value
  match IpAddr.parse addr with
  | none => throw (value ++ ": not an IP address".toList)
  | some addr =>
      if h : prefixLen.getD addr.width ≤ addr.width then return ⟨addr, _, h⟩
      else throw (value ++ ": prefix length is wider than the address".toList)

/-- Source: `addr.rs` `Cidr::normalized` -/
def normalized (c : Cidr) : Cidr :=
  match c with
  | ⟨.v4 octets h, prefixLen, le⟩ =>
      ⟨.v4 (clearBits octets prefixLen) ((length_clearBits octets prefixLen).trans h), prefixLen,
        le.trans_eq (congrArg (8 * ·) (length_clearBits octets prefixLen).symm)⟩
  | ⟨.v6 octets h, prefixLen, le⟩ =>
      ⟨.v6 (clearBits octets prefixLen) ((length_clearBits octets prefixLen).trans h), prefixLen,
        le.trans_eq (congrArg (8 * ·) (length_clearBits octets prefixLen).symm)⟩

/-- Source: `addr.rs` `Cidr::contains` -/
def contains (c : Cidr) (ip : IpAddr) : Bool :=
  match c.addr, ip with
  | .v4 net _, .v4 ip _ => prefixEq net ip c.prefixLen
  | .v6 net _, .v6 ip _ => prefixEq net ip c.prefixLen
  | .v4 net _, .v6 ip _ => (IpAddr.mapped ip).any fun quad => prefixEq net quad c.prefixLen
  | .v6 _ _, .v4 _ _ => false

end Cidr

/-! ## Rules -/

/-- Source: `addr.rs` `LOOPBACK` -/
def loopback : List Text := ["127.0.0.0/8".toList, "::1/128".toList]

/-- Source: `addr.rs` `AllowFrom` -/
inductive AllowFrom
  | any
  | list (docker : Bool) (nets : List Cidr)

/-- The tokens of a rule that is no wildcard. -/
def tokens (value : Text) : List Text := ((value.splitOn ',').map trim).filter (· ≠ [])

/-- The word that stands for the bridge subnets and loopback. -/
def isDocker (token : Text) : Bool := eqIgnoreAsciiCase token "docker".toList

/-- A rule that lets every peer pass. -/
def isAny (value : Text) : Bool := value = [] || eqIgnoreAsciiCase value "any".toList || value = "*".toList

/-- The tokens behind those that are read. Source: `addr.rs` `AllowFrom::parse`, the loop -/
def parseTokens : List Text → Bool → List Cidr → Except Text (Bool × List Cidr)
  | [], docker, nets => return (docker, nets)
  | token :: rest, docker, nets =>
      if isDocker token then parseTokens rest true nets
      else do
        let net ← Cidr.parse token
        parseTokens rest docker (nets ++ [net])

/-- Source: `addr.rs` `AllowFrom::parse` -/
def AllowFrom.parse (value : Text) : Except Text AllowFrom := do
  let value := trim value
  if isAny value then return .any
  else
    let (docker, nets) ← parseTokens (tokens value) false []
    if !docker && nets.isEmpty then throw (value ++ ": names no network to allow".toList)
    else return .list docker nets

/-- Source: `addr.rs` `AllowList` -/
structure AllowList where
  nets : List Cidr

/-- Source: `addr.rs` `AllowList::allows` -/
def AllowList.allows (list : AllowList) (ip : IpAddr) : Bool := list.nets.any fun net => net.contains ip

/-- Source: `addr.rs` `AllowFrom::resolve` -/
def AllowFrom.resolve (rule : AllowFrom) (subnets : List Cidr) : Option AllowList :=
  match rule with
  | .any => none
  | .list docker nets =>
      some ⟨if docker then nets ++ subnets ++ loopback.filterMap (fun c => (Cidr.parse c).toOption) else nets⟩

/-- Source: `addr.rs` `AllowFrom::needs_discovery` -/
def AllowFrom.needsDiscovery : AllowFrom → Bool
  | .list docker _ => docker
  | .any => false

/-! ## The live list -/

/-- Source: `addr.rs` `Access` -/
structure Access where
  rule : AllowFrom
  list : Option AllowList

namespace Access

/-- Source: `addr.rs` `Access::new` -/
def new (rule : AllowFrom) (subnets : List Cidr) : Access := ⟨rule, rule.resolve subnets⟩

/-- Source: `addr.rs` `Access::refresh` -/
def refresh (access : Access) (subnets : List Cidr) : Access :=
  if access.rule.needsDiscovery then { access with list := access.rule.resolve subnets } else access

/-- Source: `addr.rs` `Access::allows` -/
def allows (access : Access) (ip : IpAddr) : Bool :=
  match access.list with
  | none => true
  | some list => list.allows ip

/-- Source: `addr.rs` `Access::is_filtering` -/
def isFiltering (access : Access) : Bool :=
  match access.rule with
  | .any => false
  | .list _ _ => true

/-- Is a peer served by a listener with the filter of this rule? Source: `addr.rs` `Access::filter` -/
def serves (access : Access) (ip : IpAddr) : Bool := !access.isFiltering || access.allows ip

/-- After some refreshes. -/
def run (rule : AllowFrom) (subnets : List Cidr) (refreshes : List (List Cidr)) : Access :=
  refreshes.foldl refresh (new rule subnets)

end Access

/-! ## What a network contains -/

/-- The octets of a peer as a rule reads them: an IPv4 rule reads a mapped address as IPv4. -/
def readAs : IpAddr → IpAddr → Option Bytes
  | .v4 _ _, .v4 ip _ => some ip
  | .v6 _ _, .v6 ip _ => some ip
  | .v4 _ _, .v6 ip _ => IpAddr.mapped ip
  | .v6 _ _, .v4 _ _ => none

/-- An address is read as one of the length of the rule. -/
theorem readAs_length {rule ip : IpAddr} {octets : Bytes} (h : readAs rule ip = some octets) :
    rule.octets.length = octets.length := by
  cases rule with
  | v4 net hnet =>
    cases ip with
    | v4 ip hip =>
      cases h
      exact hnet.trans hip.symm
    | v6 ip hip => exact hnet.trans (IpAddr.length_mapped hip h).symm
  | v6 net hnet =>
    cases ip with
    | v4 ip hip => cases h
    | v6 ip hip =>
      cases h
      exact hnet.trans hip.symm

theorem contains_eq (c : Cidr) (ip : IpAddr) :
    c.contains ip = (readAs c.addr ip).any fun octets => prefixEq c.addr.octets octets c.prefixLen := by
  obtain ⟨addr, prefixLen, le⟩ := c
  cases addr <;> cases ip <;> rfl

/-- A network contains the addresses that agree with it on its first bits. -/
theorem contains_iff (c : Cidr) (ip : IpAddr) :
    c.contains ip = true ↔
      ∃ octets, readAs c.addr ip = some octets ∧
        ∀ i < c.prefixLen, bitAt c.addr.octets i = bitAt octets i := by
  rw [contains_eq, Option.any_eq_true]
  refine exists_congr fun octets => ?_
  constructor
  · rintro ⟨hread, hlen⟩
    exact ⟨hread, (prefixEq_iff (readAs_length hread)).mp hlen⟩
  · rintro ⟨hread, hbits⟩
    exact ⟨hread, (prefixEq_iff (readAs_length hread)).mpr hbits⟩

section

variable {c d : Cidr} {ip : IpAddr}

theorem normalized_octets (c : Cidr) :
    c.normalized.addr.octets = clearBits c.addr.octets c.prefixLen ∧ c.normalized.prefixLen = c.prefixLen := by
  obtain ⟨addr, prefixLen, le⟩ := c
  cases addr <;> exact ⟨rfl, rfl⟩

theorem readAs_normalized (c : Cidr) (ip : IpAddr) : readAs c.normalized.addr ip = readAs c.addr ip := by
  obtain ⟨addr, prefixLen, le⟩ := c
  cases addr <;> cases ip <;> rfl

theorem normalized_contains (c : Cidr) (ip : IpAddr) : c.normalized.contains ip = c.contains ip := by
  rw [Bool.eq_iff_iff, contains_iff, contains_iff, readAs_normalized]
  obtain ⟨hoctets, hlen⟩ := normalized_octets c
  refine exists_congr fun octets => and_congr_right fun _ => ?_
  rw [hoctets, hlen]
  refine forall₂_congr fun i hi => ?_
  rw [bitAt_clearBits, decide_eq_true hi, Bool.and_true]

theorem normalized_eq_of (haddr : clearBits c.addr.octets c.prefixLen = clearBits d.addr.octets d.prefixLen)
    (hlen : c.prefixLen = d.prefixLen) : c.normalized = d.normalized := by
  obtain ⟨hc, hcp⟩ := normalized_octets c
  obtain ⟨hd, hdp⟩ := normalized_octets d
  refine Cidr.ext (IpAddr.ext_octets ?_) ?_
  · rw [hc, hd, haddr]
  · rw [hcp, hdp, hlen]

theorem normalized_normalized (c : Cidr) : c.normalized.normalized = c.normalized := by
  obtain ⟨hoctets, hlen⟩ := normalized_octets c
  refine normalized_eq_of ?_ hlen
  rw [hoctets, hlen]
  refine bytes_ext (by simp) fun i => ?_
  simp [bitAt_clearBits]

/-- An address of the family of a network is read as it is. -/
theorem readAs_family (h : ip.SameFamily c.addr) : readAs c.addr ip = some ip.octets := by
  obtain ⟨addr, prefixLen, le⟩ := c
  have hlen : ip.octets.length = addr.octets.length := h
  cases addr with
  | v4 net hnet =>
    cases ip with
    | v4 _ _ => rfl
    | v6 x hx =>
      have hx4 : x.length = net.length := hlen
      omega
  | v6 net hnet =>
    cases ip with
    | v4 x hx =>
      have hx6 : x.length = net.length := hlen
      omega
    | v6 _ _ => rfl

theorem contains_family_iff (h : ip.SameFamily c.addr) :
    c.contains ip = true ↔ ∀ i < c.prefixLen, bitAt c.addr.octets i = bitAt ip.octets i := by
  rw [contains_iff, readAs_family h]
  simp

/-- A network with the addresses of another has no shorter prefix. -/
theorem prefixLen_le_of_contains (hfamily : c.addr.SameFamily d.addr)
    (h : ∀ ip : IpAddr, ip.SameFamily c.addr → c.contains ip = true → d.contains ip = true) :
    d.prefixLen ≤ c.prefixLen := by
  by_contra hlt
  rw [not_le] at hlt
  have hwidth : c.prefixLen < 8 * c.addr.octets.length := by
    have hd := d.le
    unfold IpAddr.width at hd
    rw [← (show c.addr.octets.length = d.addr.octets.length from hfamily)] at hd
    omega
  have hown := (contains_family_iff hfamily).mp (h c.addr rfl ((contains_family_iff rfl).mpr fun _ _ => rfl))
  obtain ⟨other, hother⟩ : ∃ other : IpAddr, other.octets = flipBit c.addr.octets c.prefixLen := by
    cases hc : c.addr with
    | v4 net hnet => exact ⟨.v4 (flipBit net c.prefixLen) (by simp [flipBit, hnet]), rfl⟩
    | v6 net hnet => exact ⟨.v6 (flipBit net c.prefixLen) (by simp [flipBit, hnet]), rfl⟩
  have hsame : other.SameFamily c.addr := by
    show other.octets.length = c.addr.octets.length
    rw [hother]
    simp [flipBit]
  have hin : c.contains other = true := by
    refine (contains_family_iff hsame).mpr fun i hi => ?_
    rw [hother, bitAt_flipBit hwidth, decide_eq_false (Nat.ne_of_lt hi), Bool.xor_false]
  have hbit := (contains_family_iff (hsame.trans hfamily)).mp (h other hsame hin) c.prefixLen hlt
  rw [hown _ hlt, hother, bitAt_flipBit hwidth, decide_eq_true rfl, Bool.xor_true] at hbit
  exact absurd hbit (by simp)

/-- The network of two addresses is the same if its addresses are. -/
theorem normalized_eq_iff (hfamily : c.addr.SameFamily d.addr) :
    c.normalized = d.normalized ↔
      ∀ ip : IpAddr, ip.SameFamily c.addr → c.contains ip = d.contains ip := by
  constructor
  · intro h ip _
    rw [← normalized_contains c, ← normalized_contains d, h]
  · intro h
    have hlen : c.prefixLen = d.prefixLen := by
      apply le_antisymm
      · exact prefixLen_le_of_contains hfamily.symm fun ip hip hin => by
          rw [h ip (hip.trans hfamily.symm)]
          exact hin
      · exact prefixLen_le_of_contains hfamily fun ip hip hin => by
          rw [← h ip hip]
          exact hin
    refine normalized_eq_of (bytes_ext ?_ fun i => ?_) hlen
    · rw [length_clearBits, length_clearBits]
      exact hfamily
    · have hown : d.contains c.addr = true := by
        rw [← h c.addr rfl]
        exact (contains_family_iff rfl).mpr fun _ _ => rfl
      rw [bitAt_clearBits, bitAt_clearBits, hlen]
      by_cases hi : i < d.prefixLen
      · rw [(contains_family_iff hfamily).mp hown i hi]
      · simp [hi]

end

/-! ## Who is served -/

/-- Source: `addr.rs` `LOOPBACK`, the first -/
def loopbackV4 : Cidr := .new (.v4 [127, 0, 0, 0] rfl) 8

/-- Source: `addr.rs` `LOOPBACK`, the second -/
def loopbackV6 : Cidr := .new (.v6 [0, 0, 0, 0, 0, 0, 0, 0, 0, 0, 0, 0, 0, 0, 0, 1] rfl) 128

theorem loopback_parse : loopback.filterMap (fun c => (Cidr.parse c).toOption) = [loopbackV4, loopbackV6] := by
  rfl

/-- A network that a rule names. -/
def Listed (text : Text) (net : Cidr) : Prop :=
  ∃ token ∈ tokens (trim text), isDocker token = false ∧ Cidr.parse token = .ok net

/-- A rule that asks for the bridge subnets. -/
def NamesDocker (text : Text) : Prop := ∃ token ∈ tokens (trim text), isDocker token = true

/-- Whom a rule serves, with the subnets that were discovered last. -/
def Served (text : Text) (latest : List Cidr) (ip : IpAddr) : Prop :=
  isAny (trim text) = true ∨ (∃ net, Listed text net ∧ net.contains ip = true) ∨
    (NamesDocker text ∧
      ((∃ net ∈ latest, net.contains ip = true) ∨ loopbackV4.contains ip = true ∨ loopbackV6.contains ip = true))

/-- The subnets that were discovered last. -/
def latest (subnets : List Cidr) (refreshes : List (List Cidr)) : List Cidr := refreshes.getLastD subnets

section

variable {ip : IpAddr} {docker : Bool} {nets : List Cidr}

/-- The tokens that are read give the networks, and whether bridges are among them. -/
theorem parseTokens_ok {toks : List Text} {acc : List Cidr} {flag : Bool}
    (h : parseTokens toks flag acc = .ok (docker, nets)) :
    (docker = true ↔ flag = true ∨ ∃ token ∈ toks, isDocker token = true) ∧
      ∀ net, net ∈ nets ↔ net ∈ acc ∨ ∃ token ∈ toks, isDocker token = false ∧ Cidr.parse token = .ok net := by
  induction toks generalizing flag acc with
  | nil =>
    cases h
    simp
  | cons token toks ih =>
    rw [parseTokens] at h
    split at h
    · rename_i htoken
      obtain ⟨hdocker, hnets⟩ := ih h
      exact ⟨by simp [hdocker, htoken], fun net => by simp [hnets, htoken]⟩
    · rename_i htoken
      rw [Bool.not_eq_true] at htoken
      obtain ⟨net, hparse, h⟩ := bind_eq_ok.mp h
      obtain ⟨hdocker, hnets⟩ := ih h
      refine ⟨by simp [hdocker, htoken], fun other => ?_⟩
      have hthis : other = net ↔ isDocker token = false ∧ Cidr.parse token = .ok other := by
        rw [hparse]
        simp [htoken, eq_comm]
      rw [hnets, List.mem_append, List.mem_singleton, List.exists_mem_cons_iff, hthis, or_assoc]

/-- What a rule says that parses. -/
theorem parse_cases {text : Text} {rule : AllowFrom} (h : AllowFrom.parse text = .ok rule) :
    (isAny (trim text) = true ∧ rule = .any) ∨
      (isAny (trim text) = false ∧ ∃ docker nets, rule = .list docker nets ∧
        (docker = true ↔ NamesDocker text) ∧ ∀ net, net ∈ nets ↔ Listed text net) := by
  unfold AllowFrom.parse at h
  simp only at h
  split at h
  · rename_i hany
    cases h
    exact .inl ⟨hany, rfl⟩
  · rename_i hany
    obtain ⟨⟨docker, nets⟩, hparse, h⟩ := bind_eq_ok.mp h
    split at h
    · cases h
    · cases h
      obtain ⟨hdocker, hnets⟩ := parseTokens_ok hparse
      refine .inr ⟨by simpa using hany, docker, nets, rfl, ?_, fun net => ?_⟩
      · simpa [NamesDocker] using hdocker
      · simpa [Listed] using hnets net

/-- A refresh keeps the list that of the subnets it was given. -/
theorem refresh_list (rule : AllowFrom) (before subnets : List Cidr) :
    (Access.new rule before).refresh subnets = Access.new rule subnets := by
  cases rule with
  | any => rfl
  | list docker nets =>
    cases docker <;> rfl

theorem run_eq (rule : AllowFrom) (subnets : List Cidr) (refreshes : List (List Cidr)) :
    Access.run rule subnets refreshes = Access.new rule (latest subnets refreshes) := by
  unfold Access.run latest
  induction refreshes generalizing subnets with
  | nil => rfl
  | cons next refreshes ih =>
    rw [List.foldl_cons, refresh_list, ih, List.getLastD_cons]

theorem serves_list (docker : Bool) (nets subnets : List Cidr) :
    (Access.new (.list docker nets) subnets).serves ip = true ↔
      (∃ net ∈ nets, net.contains ip = true) ∨ (docker = true ∧
        ((∃ net ∈ subnets, net.contains ip = true) ∨ loopbackV4.contains ip = true ∨
          loopbackV6.contains ip = true)) := by
  show ((if docker then nets ++ subnets ++ loopback.filterMap _ else nets).any fun net => net.contains ip) = true ↔ _
  rw [loopback_parse]
  cases docker <;> simp

/-- Who is served after any refreshes. -/
theorem serves_iff {text : Text} {rule : AllowFrom} (h : AllowFrom.parse text = .ok rule) (subnets : List Cidr)
    (refreshes : List (List Cidr)) (ip : IpAddr) :
    (Access.run rule subnets refreshes).serves ip = true ↔ Served text (latest subnets refreshes) ip := by
  rw [run_eq]
  obtain ⟨hany, rfl⟩ | ⟨hany, docker, nets, rfl, hdocker, hnets⟩ := parse_cases h
  · exact iff_of_true rfl (.inl hany)
  · rw [serves_list, Served, hany, hdocker]
    simp [hnets]

end

/-- The networks are exact, and so is who is served. -/
theorem allow_list_exact (c d : Cidr) (ip : IpAddr) (text : Text) (rule : AllowFrom) (subnets : List Cidr)
    (refreshes : List (List Cidr)) :
    (c.contains ip = true ↔ ∃ octets, readAs c.addr ip = some octets ∧
      ∀ i < c.prefixLen, bitAt c.addr.octets i = bitAt octets i) ∧
    c.normalized.normalized = c.normalized ∧
    c.normalized.contains ip = c.contains ip ∧
    (c.addr.SameFamily d.addr → (c.normalized = d.normalized ↔
      ∀ ip : IpAddr, ip.SameFamily c.addr → c.contains ip = d.contains ip)) ∧
    (AllowFrom.parse text = .ok rule →
      ((Access.run rule subnets refreshes).serves ip = true ↔ Served text (latest subnets refreshes) ip)) :=
  ⟨contains_iff c ip, normalized_normalized c, normalized_contains c ip, normalized_eq_iff,
    fun hrule => serves_iff hrule subnets refreshes ip⟩

/-- The bridge of 172.17.0.0/16 is replaced by that of 172.18.0.0/16: a mapped peer of the network that the rule names
is served, and so is one of the new bridge, but none of the old one. -/
theorem allow_list_refreshed :
    let found : List Cidr := latest [] [[.new (.v4 [172, 17, 0, 0] rfl) 16], [.new (.v4 [172, 18, 0, 0] rfl) 16]]
    let text : Text := "docker, 10.1.0.0/20".toList
    Served text found (.v6 [0, 0, 0, 0, 0, 0, 0, 0, 0, 0, 255, 255, 10, 1, 15, 3] rfl) ∧
      Served text found (.v4 [172, 18, 0, 5] rfl) ∧ ¬Served text found (.v4 [172, 17, 0, 5] rfl) := by
  have hrule : AllowFrom.parse "docker, 10.1.0.0/20".toList = .ok (.list true [.new (.v4 [10, 1, 0, 0] rfl) 20]) := by
    rfl
  have hserves (ip : IpAddr) := (allow_list_exact loopbackV4 loopbackV4 ip _ _ []
    [[.new (.v4 [172, 17, 0, 0] rfl) 16], [.new (.v4 [172, 18, 0, 0] rfl) 16]]).2.2.2.2 hrule
  exact ⟨(hserves _).mp rfl, (hserves _).mp rfl, fun h => Bool.false_ne_true ((hserves _).mpr h)⟩

end Imbh.Docker.Allow
