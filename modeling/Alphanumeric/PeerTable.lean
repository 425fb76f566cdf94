/-
# The peer table

A node's table of peers (`src/a9/node.rs`) is written by the inbound handshake, by
`verify_peer`, by an outbound dial and by the join event, and each of them checks
something else: the inbound path the size and the subnet group, also for a peer that is
known; `verify_peer` the group once there are enough peers, also for a known one, and
the size for an unknown one; the dial the size for an unknown one; the event nothing.
Peers are removed when they leave or fail, and by `rebalance_peer_subnets`, which takes
its decision under a read lock and removes later.

`Fair` is the condition on a step under which the table keeps its limits and a known peer
gets back in. A handshake is given by its result.

Key definitions: `SubnetGroup.fromIp`, `PeerInfo`, `PeerTable.admitInbound`, `PeerTable.verifyPeer`,
`PeerTable.outbound`, `PeerTable.join`, `rebalanceRemovals`, `PeerTable.next`, `Diverse`, `Fair`.
Key theorems: `groupCount_put`, `diverse_put_iff`, `fairAdmission_iff`, `fair_iff`, `peer_table_diversity`.
-/
import Alphanumeric.HeaderQuorum
import Alphanumeric.Lib.Table
import Alphanumeric.Lib.Trace

namespace Alphanumeric

def networkVersion : ℕ := 3
def minPeers : ℕ := 5
def maxPeersPerSubnet : ℕ := 3
def subnetMaskIpv4 : ℕ := 24
def subnetMaskIpv6 : ℕ := 48

/-! ### Subnet groups -/

structure SubnetGroup where
  data : List UInt8
  len : ℕ
deriving DecidableEq

/-- The first `mask` bits; the others are zero. -/
def maskOctets (mask : ℕ) (octets : List UInt8) : List UInt8 :=
  octets.zipIdx.map fun (octet, i) =>
    if i < mask / 8 then octet
    else if i = mask / 8 ∧ mask % 8 ≠ 0 then octet &&& (0xff <<< UInt8.ofNat (8 - mask % 8))
    else 0

/-- An IPv4 address that is mapped to IPv6 belongs to the group of the IPv4 address. -/
def SubnetGroup.fromIp (ip : IpAddr) (maskV4 maskV6 : ℕ) : SubnetGroup :=
  let folded := match ip with
    | .v6 a => if a.val / 2 ^ 32 = 0xffff then IpAddr.v4 ⟨a.val % 2 ^ 32, Nat.mod_lt _ (Nat.two_pow_pos 32)⟩ else .v6 a
    | .v4 a => .v4 a
  match folded with
  | .v4 a => ⟨maskOctets maskV4 (toBeBytes 4 a.val) ++ List.replicate 12 0, maskV4⟩
  | .v6 a => ⟨maskOctets maskV6 (toBeBytes 16 a.val), maskV6⟩

structure SocketAddr where
  ip : IpAddr
  port : ℕ
deriving DecidableEq

structure PeerInfo where
  address : SocketAddr
  version : ℕ
  lastSeen : ℕ
  blocks : ℕ
  latency : ℕ
  subnetGroup : SubnetGroup
deriving DecidableEq

/-- `PeerInfo::new`. -/
def PeerInfo.new (addr : SocketAddr) (now : ℕ) : PeerInfo :=
  ⟨addr, networkVersion, now, 0, 0, .fromIp addr.ip subnetMaskIpv4 subnetMaskIpv6⟩

/-- What a handshake tells of the peer. -/
structure Handshake where
  address : SocketAddr
  version : ℕ
  blockchainHeight : ℕ
  now : ℕ

def Handshake.info (h : Handshake) : PeerInfo :=
  ⟨h.address, h.version, h.now, h.blockchainHeight, 0, .fromIp h.address.ip subnetMaskIpv4 subnetMaskIpv6⟩

/-! ### The writers -/

/-- The peers, and the removals that rebalancing has decided on and not made yet. -/
structure PeerTable where
  peers : Table SocketAddr PeerInfo
  decided : List (List SocketAddr)

inductive Refusal where
  | versionMismatch
  | maximumPeersReached
  | subnetLimitReached
deriving DecidableEq

/-- How many peers are in a group. -/
def groupCount (peers : Table SocketAddr PeerInfo) (group : SubnetGroup) : ℕ :=
  Table.total (fun info => if info.subnetGroup = group then 1 else 0) peers

namespace PeerTable

def size (t : PeerTable) : ℕ := t.peers.entries.length

def empty : PeerTable := ⟨∅, []⟩

def put (t : PeerTable) (addr : SocketAddr)
    (info : PeerInfo) : PeerTable := { t with peers := t.peers.insert addr info }

section Writers

variable (maxPeers : ℕ)

/-- The admission of `handle_connection`. -/
def admitInbound (t : PeerTable) (h : Handshake) : Except Refusal PeerTable :=
  if h.version ≠ networkVersion then .error .versionMismatch
  else if maxPeers ≤ t.size then .error .maximumPeersReached
  else if maxPeersPerSubnet ≤ groupCount t.peers h.info.subnetGroup then .error .subnetLimitReached
  else .ok (t.put h.address h.info)

def verifyPeer (t : PeerTable) (addr : SocketAddr) (h : Handshake) : Except Refusal PeerTable :=
  if h.version ≠ networkVersion then .error .versionMismatch
  else if maxPeersPerSubnet ≤ groupCount t.peers h.info.subnetGroup ∧ minPeers ≤ t.size then
    .error .subnetLimitReached
  else if maxPeers ≤ t.size ∧ t.peers.lookup addr = none then .error .maximumPeersReached
  else .ok (t.put addr h.info)

/-- The admission of `get_or_create_outbound_connection`. -/
def outbound (t : PeerTable) (addr : SocketAddr) (h : Handshake) : Except Refusal PeerTable :=
  if h.version ≠ networkVersion then .error .versionMismatch
  else if maxPeers ≤ t.size ∧ t.peers.lookup addr = none then .error .maximumPeersReached
  else .ok (t.put addr h.info)

end Writers

/-- `NetworkEvent::PeerJoin`. -/
def join (t : PeerTable) (addr : SocketAddr) (now : ℕ) : PeerTable :=
  match t.peers.lookup addr with
  | none => t.put addr (.new addr now)
  | some _ => t

def remove (t : PeerTable) (addr : SocketAddr) : PeerTable := { t with peers := t.peers.erase addr }

/-- A ping, a pong or a health check is noted with the peer. -/
def touch (t : PeerTable) (addr : SocketAddr) (lastSeen blocks latency : ℕ) : PeerTable :=
  match t.peers.lookup addr with
  | some info => t.put addr { info with lastSeen, blocks, latency }
  | none => t

end PeerTable

/-- How well a peer is doing; lower is better. -/
def peerScore (now : ℕ) (info : PeerInfo) : ℤ :=
  (info.latency : ℤ) - info.blocks + ((now - info.lastSeen : ℕ) : ℤ) / 60

/-- The peers that `rebalance_peer_subnets` removes: of every group that is too large the worst ones. `rank`
is the order in which the map is walked. -/
def rebalanceRemovals (maxPeers : ℕ) (peers : Table SocketAddr PeerInfo) (now : ℕ) (rank : SocketAddr → ℕ) :
    List SocketAddr :=
  let walk := (peers.entries.map fun e => (e.1, e.2)).insertionSort fun a b => rank a.1 ≤ rank b.1
  let maxPerSubnet := max (maxPeers / 8) maxPeersPerSubnet
  (walk.map fun e => e.2.subnetGroup).dedup.flatMap fun group =>
    let members := walk.filter fun e => e.2.subnetGroup = group
    if maxPerSubnet < members.length then
      let ratings := members.insertionSort fun a b => peerScore now a.2 ≤ peerScore now b.2
      (ratings.drop maxPerSubnet).map Prod.fst
    else []

inductive PeerOp where
  | inbound (h : Handshake)
  | verify (addr : SocketAddr) (h : Handshake)
  | outbound (addr : SocketAddr) (h : Handshake)
  | join (addr : SocketAddr) (now : ℕ)
  | leave (addr : SocketAddr)
  | touch (addr : SocketAddr) (lastSeen blocks latency : ℕ)
  | rebalance (now : ℕ) (rank : SocketAddr → ℕ)
  /-- The `i`-th decision is carried out. -/
  | removeDecided (i : ℕ)

/-- What a step answers: a refusal, or the table after it. -/
def PeerTable.answer (maxPeers : ℕ) (t : PeerTable) : PeerOp → Except Refusal PeerTable
  | .inbound h => t.admitInbound maxPeers h
  | .verify addr h => t.verifyPeer maxPeers addr h
  | .outbound addr h => t.outbound maxPeers addr h
  | .join addr now => .ok (t.join addr now)
  | .leave addr => .ok (t.remove addr)
  | .touch addr lastSeen blocks latency => .ok (t.touch addr lastSeen blocks latency)
  | .rebalance now rank => .ok { t with decided := t.decided ++ [rebalanceRemovals maxPeers t.peers now rank] }
  | .removeDecided i =>
    .ok { (t.decided.getD i []).foldl PeerTable.remove t with decided := t.decided.eraseIdx i }

/-- A refusal leaves the table. -/
def PeerTable.settle (t : PeerTable) : Except Refusal PeerTable → PeerTable
  | .ok t' => t'
  | .error _ => t

def PeerTable.next (maxPeers : ℕ) (t : PeerTable) (op : PeerOp) : PeerTable := t.settle (t.answer maxPeers op)

/-! ### What is wanted of the table -/

/-- The table is within its limits: no more than `maxPeers`, and, once there are enough, no more than the cap
in any group. -/
structure Diverse (maxPeers : ℕ) (t : PeerTable) : Prop where
  size : t.size ≤ maxPeers
  groups : minPeers ≤ t.size → ∀ group, groupCount t.peers group ≤ maxPeersPerSubnet

/-- A known peer that shows up with the right version from its address is let in. -/
def Reconnects (maxPeers : ℕ) (t : PeerTable) : PeerOp → Prop
  | .inbound h => t.peers.lookup h.address ≠ none → h.version = networkVersion → ∃ t',
      t.admitInbound maxPeers h = .ok t'
  | .verify addr h => t.peers.lookup addr ≠ none → h.version = networkVersion → ∃ t',
      t.verifyPeer maxPeers addr h = .ok t'
  | .outbound addr h => t.peers.lookup addr ≠ none → h.version = networkVersion → ∃ t',
      t.outbound maxPeers addr h = .ok t'
  | _ => True

/-- There is room for a peer at `addr` in its group beside the others there, if the table has enough peers
then; and if it is the fifth, no group is over the cap. -/
structure Roomy (t : PeerTable) (addr : SocketAddr) (group : SubnetGroup) : Prop where
  inGroup : minPeers ≤ (t.remove addr).size + 1 → groupCount (t.remove addr).peers group < maxPeersPerSubnet
  fifth : t.peers.lookup addr = none → t.size + 1 = minPeers → ∀ other, groupCount t.peers other ≤ maxPeersPerSubnet

section Checks

variable (maxPeers : ℕ) (t : PeerTable)

def InboundChecks (group : SubnetGroup) : Prop := t.size < maxPeers ∧ groupCount t.peers group < maxPeersPerSubnet

def VerifyChecks (addr : SocketAddr) (group : SubnetGroup) : Prop :=
  (minPeers ≤ t.size → groupCount t.peers group < maxPeersPerSubnet) ∧
    (t.peers.lookup addr = none → t.size < maxPeers)

def OutboundChecks (addr : SocketAddr) : Prop := t.peers.lookup addr = none → t.size < maxPeers

/-- A known peer passes the checks, and who passes them finds room. -/
def FairAdmission (checks : Prop) (addr : SocketAddr) (h : Handshake) : Prop :=
  h.version = networkVersion →
    (t.peers.lookup addr ≠ none → checks) ∧ (checks → Roomy t addr h.info.subnetGroup)

/-- The condition on a step. -/
def Fair : PeerOp → Prop
  | .inbound h => FairAdmission t (InboundChecks maxPeers t h.info.subnetGroup) h.address h
  | .verify addr h => FairAdmission t (VerifyChecks maxPeers t addr h.info.subnetGroup) addr h
  | .outbound addr h => FairAdmission t (OutboundChecks maxPeers t addr) addr h
  | .join addr now => t.peers.lookup addr = none →
    t.size < maxPeers ∧ Roomy t addr (PeerInfo.new addr now).subnetGroup
  | _ => True

end Checks

/-! ### One entry -/

variable {maxPeers : ℕ} {t : PeerTable} {addr : SocketAddr} {info : PeerInfo} {group : SubnetGroup}

theorem groupCount_put : groupCount (t.put addr info).peers group =
    (if info.subnetGroup = group then 1 else 0) + groupCount (t.remove addr).peers group :=
  Table.total_set _ _ _ _

theorem size_put : (t.put addr info).size = (t.remove addr).size + 1 := by
  show (t.peers.insert addr info).entries.length = (t.peers.erase addr).entries.length + 1
  rw [← Table.total_one, ← Table.total_one, Table.total_set, Nat.add_comm]

theorem remove_of_lookup_none (h : t.peers.lookup addr = none) : (t.remove addr).peers = t.peers :=
  AList.ext (List.kerase_of_notMem_keys (AList.lookup_eq_none.mp h))

theorem groupCount_remove_le : groupCount (t.remove addr).peers group ≤ groupCount t.peers group := by
  cases h : t.peers.lookup addr with
  | none => rw [remove_of_lookup_none h]
  | some info =>
    have herase := Table.total_erase (fun info => if info.subnetGroup = group then 1 else 0) h
    show Table.total _ (t.peers.erase addr) ≤ Table.total _ t.peers
    rw [herase]
    exact Nat.le_add_left _ _

theorem size_remove_of_some (h : t.peers.lookup addr = some info) : t.size = (t.remove addr).size + 1 :=
  Table.length_erase h

theorem size_remove_le : (t.remove addr).size ≤ t.size := by
  cases h : t.peers.lookup addr with
  | none => exact (congrArg (fun peers : Table _ _ => peers.entries.length) (remove_of_lookup_none h)).le
  | some info =>
    rw [size_remove_of_some h]
    exact Nat.le_succ _

/-! ### What keeps the limits -/

theorem Diverse.remove (ht : Diverse maxPeers t) (addr : SocketAddr) : Diverse maxPeers (t.remove addr) where
  size := size_remove_le.trans ht.size
  groups henough group := groupCount_remove_le.trans (ht.groups (henough.trans size_remove_le) group)

/-- A peer that is put in leaves the table within its limits exactly if it finds room. -/
theorem diverse_put_iff (ht : Diverse maxPeers t) (hsize : t.peers.lookup addr = none → t.size < maxPeers) :
    Diverse maxPeers (t.put addr info) ↔ Roomy t addr info.subnetGroup := by
  constructor
  · intro hput
    refine ⟨fun henough => ?_, fun hnone hfifth other => ?_⟩
    · have hgroup := hput.groups (size_put ▸ henough) info.subnetGroup
      rw [groupCount_put, if_pos rfl] at hgroup
      omega
    · have hsame := remove_of_lookup_none hnone
      have hlength : (t.remove addr).size = t.size := congrArg (fun peers : Table _ _ => peers.entries.length) hsame
      have hother := hput.groups (by rw [size_put, hlength, hfifth]) other
      rw [groupCount_put, hsame] at hother
      omega
  · intro hroomy
    refine ⟨?_, fun henough other => ?_⟩
    · rw [size_put]
      cases h : t.peers.lookup addr with
      | none => exact Nat.lt_of_le_of_lt size_remove_le (hsize h)
      | some old => exact (size_remove_of_some h) ▸ ht.size
    · rw [size_put] at henough
      rw [groupCount_put]
      by_cases hother : info.subnetGroup = other
      · subst hother
        have hfree := hroomy.inGroup henough
        rw [if_pos rfl]
        omega
      · rw [if_neg hother, Nat.zero_add]
        refine groupCount_remove_le.trans ?_
        cases h : t.peers.lookup addr with
        | none =>
          have hlength : (t.remove addr).size = t.size :=
            congrArg (fun peers : Table _ _ => peers.entries.length) (remove_of_lookup_none h)
          rw [hlength] at henough
          rcases henough.eq_or_lt with hfifth | hmore
          · exact hroomy.fifth h hfifth.symm other
          · exact ht.groups (Nat.le_of_lt_succ hmore) other
        | some old => exact ht.groups (size_remove_of_some h ▸ henough) other

/-- An admission with checks that leave room in the table. -/
theorem fairAdmission_iff {checks : Prop} {h : Handshake} {result : Except Refusal PeerTable} (ht : Diverse maxPeers t)
    (hversion : h.version ≠ networkVersion → result = .error .versionMismatch)
    (hpass : h.version = networkVersion → checks → result = .ok (t.put addr h.info))
    (hfail : h.version = networkVersion → ¬ checks → ∃ e, result = .error e)
    (hsize : checks → t.peers.lookup addr = none → t.size < maxPeers) :
    FairAdmission t checks addr h ↔
      (t.peers.lookup addr ≠ none → h.version = networkVersion → ∃ t', result = .ok t') ∧
        Diverse maxPeers (t.settle result) := by
  unfold FairAdmission
  by_cases hv : h.version = networkVersion
  · by_cases hchecks : checks
    · rw [hpass hv hchecks, ← diverse_put_iff ht (hsize hchecks), PeerTable.settle]
      simp only [hv, hchecks, forall_const, implies_true, true_and]
      exact ⟨fun hput => ⟨fun _ => ⟨_, rfl⟩, hput⟩, And.right⟩
    · obtain ⟨e, he⟩ := hfail hv hchecks
      rw [he, PeerTable.settle]
      simp only [hv, hchecks, forall_const, false_imp_iff, and_true, ht, reduceCtorEq, exists_false]
  · rw [hversion hv, PeerTable.settle]
    simp only [hv, false_imp_iff, implies_true, true_and, ht]

/-- From a table within its limits, a step is fair exactly if it lets a known peer back in and leaves the
table within its limits. -/
theorem fair_iff (ht : Diverse maxPeers t) : ∀ op, Fair maxPeers t op ↔
    Reconnects maxPeers t op ∧ Diverse maxPeers (t.next maxPeers op)
  | .inbound h => by
    refine fairAdmission_iff ht (fun hv => if_pos hv) (fun hv hchecks => ?_)
        (fun hv hchecks => ?_) fun hchecks _ => hchecks.1
    · rw [PeerTable.admitInbound, if_neg (not_not_intro hv), if_neg (Nat.not_le_of_lt hchecks.1),
        if_neg (Nat.not_le_of_lt hchecks.2)]
    · rw [PeerTable.admitInbound, if_neg (not_not_intro hv)]
      split_ifs with hfull hgroup
      · exact ⟨_, rfl⟩
      · exact ⟨_, rfl⟩
      · exact absurd ⟨Nat.lt_of_not_le hfull, Nat.lt_of_not_le hgroup⟩ hchecks
  | .verify addr h => by
    refine fairAdmission_iff ht (fun hv => if_pos hv) (fun hv hchecks => ?_)
        (fun hv hchecks => ?_) fun hchecks => hchecks.2
    · rw [PeerTable.verifyPeer, if_neg (not_not_intro hv),
        if_neg fun hgroup => absurd hgroup.1 (Nat.not_le_of_lt (hchecks.1 hgroup.2)),
        if_neg fun hfull => absurd hfull.1 (Nat.not_le_of_lt (hchecks.2 hfull.2))]
    · rw [PeerTable.verifyPeer, if_neg (not_not_intro hv)]
      split_ifs with hgroup hfull
      · exact ⟨_, rfl⟩
      · exact ⟨_, rfl⟩
      · refine absurd ⟨fun henough => ?_, fun hnone => ?_⟩ hchecks
        · exact Nat.lt_of_not_le fun hle => hgroup ⟨hle, henough⟩
        · exact Nat.lt_of_not_le fun hle => hfull ⟨hle, hnone⟩
  | .outbound addr h => by
    refine fairAdmission_iff ht (fun hv => if_pos hv) (fun hv hchecks => ?_)
        (fun hv hchecks => ?_) fun hchecks => hchecks
    · rw [PeerTable.outbound, if_neg (not_not_intro hv),
        if_neg fun hfull => absurd hfull.1 (Nat.not_le_of_lt (hchecks hfull.2))]
    · rw [PeerTable.outbound, if_neg (not_not_intro hv)]
      split_ifs with hfull
      · exact ⟨_, rfl⟩
      · exact absurd (fun hnone => Nat.lt_of_not_le fun hle => hfull ⟨hle, hnone⟩) hchecks
  | .join addr now => by
    show (t.peers.lookup addr = none → t.size < maxPeers ∧ Roomy t addr (PeerInfo.new addr now).subnetGroup) ↔
      True ∧ Diverse maxPeers (t.join addr now)
    rw [true_and, PeerTable.join]
    cases h : t.peers.lookup addr with
    | some info => exact ⟨fun _ => ht, fun _ hnone => nomatch hnone⟩
    | none =>
      dsimp only
      constructor
      · intro hfair
        obtain ⟨hroom, hroomy⟩ := hfair rfl
        exact (diverse_put_iff ht fun _ => hroom).mpr hroomy
      · intro hput _
        have hroom : t.size < maxPeers := by
          have hlength := hput.size
          rw [size_put, PeerTable.size, remove_of_lookup_none h] at hlength
          exact hlength
        exact ⟨hroom, (diverse_put_iff ht fun _ => hroom).mp hput⟩
  | .leave addr => ⟨fun _ => ⟨trivial, ht.remove addr⟩, fun _ => trivial⟩
  | .touch addr lastSeen blocks latency => by
    refine ⟨fun _ => ⟨trivial, ?_⟩, fun _ => trivial⟩
    show Diverse maxPeers (t.touch addr lastSeen blocks latency)
    rw [PeerTable.touch]
    cases h : t.peers.lookup addr with
    | none => exact ht
    | some info =>
      have hlength : (t.put addr { info with lastSeen, blocks, latency }).size = t.size := by
        rw [size_put, size_remove_of_some h]
      refine ⟨hlength ▸ ht.size, fun henough group => ?_⟩
      have hgroup := ht.groups (hlength ▸ henough) group
      have herase := Table.total_erase (fun info => if info.subnetGroup = group then 1 else 0) h
      rw [groupCount_put]
      rw [groupCount, herase] at hgroup
      exact hgroup
  | .rebalance _ _ => ⟨fun _ => ⟨trivial, ht.size, ht.groups⟩, fun _ => trivial⟩
  | .removeDecided i => by
    refine ⟨fun _ => ⟨trivial, ?_⟩, fun _ => trivial⟩
    have hall : ∀ (addrs : List SocketAddr) {t : PeerTable}, Diverse maxPeers t →
        Diverse maxPeers (addrs.foldl PeerTable.remove t) := by
      intro addrs
      induction addrs with
      | nil => exact fun ht => ht
      | cons addr addrs ih => exact fun ht => ih (ht.remove addr)
    have hafter := hall (t.decided.getD i []) ht
    exact ⟨hafter.size, hafter.groups⟩

/-- A group without a peer in the table counts for nothing. -/
theorem groupCount_le_iff {peers : Table SocketAddr PeerInfo} {n : ℕ} :
    (∀ group, groupCount peers group ≤ n) ↔ ∀ info ∈ peers.values, groupCount peers info.subnetGroup ≤ n := by
  refine ⟨fun h info _ => h _, fun h group => ?_⟩
  by_cases hin : ∃ info ∈ peers.values, info.subnetGroup = group
  · obtain ⟨info, hinfo, rfl⟩ := hin
    exact h info hinfo
  · have hzero : groupCount peers group = 0 := by
      rw [groupCount, Table.total, List.sum_eq_zero_iff]
      intro c hc
      obtain ⟨info, hinfo, rfl⟩ := List.mem_map.mp hc
      exact if_neg fun hgroup => hin ⟨info, hinfo, hgroup⟩
    rw [hzero]
    exact Nat.zero_le n

/-- **Diversity of the peer table.** The steps of a run are fair exactly if every known peer that shows up
in the run is let in again and the table is within its limits all along. -/
theorem peer_table_diversity {tr : List (PeerTable × PeerOp)}
    (hrun : Trace.Run (fun s op s' => s.next maxPeers op = s') .empty tr t) :
    (∀ step ∈ tr, Fair maxPeers step.1 step.2) ↔
      (∀ step ∈ tr, Reconnects maxPeers step.1 step.2 ∧ Diverse maxPeers step.1) ∧ Diverse maxPeers t := by
  have hempty : Diverse maxPeers .empty := ⟨Nat.zero_le _, fun henough => absurd henough (by decide)⟩
  refine hrun.forall_iff (I := fun _ => True) (fun _ _ _ _ _ => trivial) ?_ trivial hempty
  rintro s op s' - hs rfl
  exact fair_iff hs op

def subnetAddr (subnet host : Fin 256) : SocketAddr := ⟨.v4 ⟨subnet.val * 256 + host.val, by omega⟩, 7177⟩

def greeting (subnet host : Fin 256) : Handshake := ⟨subnetAddr subnet host, networkVersion, 7, 70⟩

instance (peers : Table SocketAddr PeerInfo) (n : ℕ) : Decidable (∀ group, groupCount peers group ≤ n) :=
  decidable_of_iff _ groupCount_le_iff.symm

instance (t : PeerTable) (addr : SocketAddr) (group : SubnetGroup) : Decidable (Roomy t addr group) :=
  decidable_of_iff _ ⟨fun h => ⟨h.1, h.2⟩, fun h => And.intro h.inGroup h.fifth⟩

instance (maxPeers : ℕ) (t : PeerTable) (group : SubnetGroup) : Decidable (InboundChecks maxPeers t group) :=
  inferInstanceAs (Decidable (_ ∧ _))

instance (maxPeers : ℕ) (t : PeerTable) (addr : SocketAddr) (group : SubnetGroup) :
    Decidable (VerifyChecks maxPeers t addr group) := inferInstanceAs (Decidable (_ ∧ _))

instance (maxPeers : ℕ) (t : PeerTable) (addr : SocketAddr) : Decidable (OutboundChecks maxPeers t addr) :=
  inferInstanceAs (Decidable (_ → _))

instance (t : PeerTable) (checks : Prop) [Decidable checks] (addr : SocketAddr) (h : Handshake) :
    Decidable (FairAdmission t checks addr h) := inferInstanceAs (Decidable (_ → _))

instance (maxPeers : ℕ) (t : PeerTable) : (op : PeerOp) → Decidable (Fair maxPeers t op)
  | .inbound _ | .verify _ _ | .outbound _ _ => inferInstanceAs (Decidable (FairAdmission ..))
  | .join _ _ => inferInstanceAs (Decidable (_ → _))
  | .leave _ | .touch _ _ _ _ | .rebalance _ _ | .removeDecided _ => inferInstanceAs (Decidable True)

/-- Two peers of one subnet and three of others on every path, until the table is full. Then three that are known
come back, and a stranger comes. -/
def gathering : List PeerOp :=
  [.inbound (greeting 1 1), .inbound (greeting 1 2), .inbound (greeting 1 1),
    .outbound (subnetAddr 2 1) (greeting 2 1), .verify (subnetAddr 3 1) (greeting 3 1), .join (subnetAddr 4 1) 80,
    .outbound (subnetAddr 1 1) (greeting 1 1), .verify (subnetAddr 1 2) (greeting 1 2), .inbound (greeting 5 1)]

/-- The run is fair, so all of them are let in again and the full table is within its limits. -/
theorem peer_table_diversity_gathering :
    (gathering.foldl (PeerTable.next 5) .empty).size = 5 ∧
    (∀ step ∈ Trace.visited (PeerTable.next 5) .empty gathering,
        Reconnects 5 step.1 step.2 ∧ Diverse 5 step.1) ∧
      Diverse 5 (gathering.foldl (PeerTable.next 5) .empty) :=
  ⟨by decide +kernel,
    (peer_table_diversity (Trace.run_visited (PeerTable.next 5) gathering .empty)).mp (by decide +kernel)⟩

/-- Three peers of one subnet are in and the first comes back: it is refused. Five peers of one subnet that
are dialled are all let in. And a join event goes past the size. -/
theorem peer_table_diversity_gaps :
    (¬ ∃ t', ([1, 2, 3].foldl (fun t host => t.next 8 (.inbound (greeting 1 host))) PeerTable.empty).admitInbound 8
        (greeting 1 1) = .ok t') ∧
    (¬ Diverse 8 ([1, 2, 3, 4, 5].foldl (fun t host => t.next 8 (.outbound (subnetAddr 1 host) (greeting 1 host)))
        .empty)) ∧
    ¬ Diverse 5 ([1, 2, 3, 4, 5, 6].foldl (fun t subnet => t.next 5 (.join (subnetAddr subnet 1) 70)) .empty) := by
  refine ⟨?_, fun h => ?_, fun h => ?_⟩
  · rintro ⟨t', ht'⟩
    cases ht'
  · exact absurd (h.groups (by decide +kernel) (greeting 1 1).info.subnetGroup) (by decide +kernel)
  · exact absurd h.size (by decide +kernel)

end Alphanumeric
