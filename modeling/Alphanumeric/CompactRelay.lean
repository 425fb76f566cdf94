/-
# Announcing compact blocks

The books a node keeps about compact V2 blocks (`src/a9/node.rs`, `src/a9/compact.rs`): what it announced
to whom and what that still authorises, the announcements it received and may answer
once, and which blocks it is putting together. Each function below works on one map and is one
step; sending an ACK or a WANT_FULL takes the evidence in one step and commits it or
puts it back in a later one, and a worker gives its claim back at any later time.

`log` is what the node has done, the latest first. Time is in nanoseconds and only grows.
The checks on a body request's indexes and the rate limits come before these steps, and
whether the full block is in the cache is in the hands of the action.

Key definitions: `CompactRelay`, `RelayAction`, `CompactRelay.recordCompactAnnounce`,
`CompactRelay.takeCompactV2Evidence`, `CompactRelay.dropLease`, `CompactRelay.claimCompactInflight`,
`CompactRelay.step`.
-/
import Alphanumeric.Lib.Lru
import Alphanumeric.Lib.Table
import Alphanumeric.Types
import Alphanumeric.Outbound

namespace Alphanumeric

def maxMessageSize : ℕ := 4 * 1024 * 1024
def compactSafeAssembledBytes : ℕ := maxMessageSize - 64 * 1024
def compactPendingCacheEntries : ℕ := 32
def compactSourceMax : ℕ := 8
def compactInflightTtl : ℕ := 70 * 10 ^ 9
def compactV2EvidenceTtl : ℕ := 20 * 10 ^ 9
def compactV2EvidenceMaxEntries : ℕ := 4096

abbrev RelayToken : Type := Fin (2 ^ 128)

inductive CompactAnnounceStatus where
  | pending
  | acked
  | fullServed
deriving DecidableEq, Repr

structure CompactAnnounceEntry where
  token : RelayToken
  status : CompactAnnounceStatus
  bodyServed : Bool
  announcedAt : ℕ
deriving DecidableEq, Repr

structure ReceivedEvidence where
  token : RelayToken
  receivedAt : ℕ
deriving DecidableEq, Repr

structure CompactInflight where
  started : ℕ
  sources : List PeerAddr
deriving DecidableEq, Repr

/-- One announcement: of which block, between us and which peer, under which token. -/
structure Ticket where
  block : Hash
  peer : PeerAddr
  token : RelayToken
deriving DecidableEq, Repr

inductive RelayDeed where
  | announced
  | bodyServed
  | acked
  | fullServed
  | received
  | ackSent
  | wantFullSent
deriving DecidableEq, Repr

inductive LeaseState where
  | out
  | committed
  | dropped
deriving DecidableEq, Repr

/-- `CompactEvidenceLease`, with the message it is sent for. -/
structure CompactEvidenceLease where
  block : Hash
  peer : PeerAddr
  value : ReceivedEvidence
  wantFull : Bool
  state : LeaseState
deriving DecidableEq, Repr

/-- Who holds a claim: `CompactInflightLease`, or a caller that releases it itself. -/
structure CompactClaim where
  block : Hash
  started : ℕ
  released : Bool
deriving DecidableEq, Repr

structure CompactRelay where
  now : ℕ
  announced : List (Hash × Table PeerAddr CompactAnnounceEntry)
  evidence : Table (Hash × PeerAddr) ReceivedEvidence
  leases : List CompactEvidenceLease
  inflight : Table Hash CompactInflight
  claims : List CompactClaim
  log : List (RelayDeed × Ticket)

inductive RelayAction where
  | tick (nanos : ℕ)
  | announce (x : Ticket)
  | cancel (x : Ticket)
  | bodyRequest (x : Ticket)
  | ack (x : Ticket)
  | wantFull (x : Ticket) (cached : Bool)
  | receive (x : Ticket)
  /-- The announcement could not be remembered. -/
  | forget (block : Hash) (peer : PeerAddr)
  | fullReceived (block : Hash)
  | send (block : Hash) (peer : PeerAddr) (wantFull : Bool)
  /-- The send of lease `i` ends; it is not `ok` when it fails or is cancelled. -/
  | finish (i : ℕ) (ok : Bool)
  | claim (block : Hash) (source : PeerAddr)
  | release (i : ℕ)
  | prune
  | pruneInflight
deriving DecidableEq, Repr

/-! ### Announcements -/

/-- `consume_compact_body_authorization`. -/
def consumeCompactBodyAuthorization (now : ℕ) (token : RelayToken) (entry : CompactAnnounceEntry) :
    Option CompactAnnounceEntry :=
  if entry.token ≠ token ∨ entry.status ≠ .pending ∨ entry.bodyServed = true ∨
      compactInflightTtl < now - entry.announcedAt then none
  else some { entry with bodyServed := true }

def transitionCompactAnnounce (token : RelayToken) (next : CompactAnnounceStatus) (entry : CompactAnnounceEntry) :
    Option CompactAnnounceEntry :=
  if entry.token ≠ token ∨ entry.status ≠ .pending then none else some { entry with status := next }

namespace CompactRelay

def new : CompactRelay := ⟨0, [], ∅, [], ∅, [], []⟩

def note (s : CompactRelay) (deed : RelayDeed) (x : Ticket) : CompactRelay := { s with log := (deed, x) :: s.log }

def recordCompactAnnounce (s : CompactRelay) (x : Ticket) : CompactRelay :=
  let entry : CompactAnnounceEntry := ⟨x.token, .pending, false, s.now⟩
  match Lru.peek s.announced x.block with
  | some _ => { s with announced := Lru.modify s.announced x.block (·.insert x.peer entry) }
  | none =>
    { s with announced := Lru.put compactPendingCacheEntries s.announced x.block ((∅ : Table _ _).insert x.peer entry) }

def cancelCompactAnnounce (s : CompactRelay) (x : Ticket) : CompactRelay :=
  let announced := Lru.modify s.announced x.block fun peers =>
    if (peers.lookup x.peer).map (·.token) = some x.token then peers.erase x.peer else peers
  if (Lru.peek announced x.block).map (·.entries.length) = some 0 then
    { s with announced := Lru.pop announced x.block }
  else { s with announced := announced }

/-- What was announced to a peer last about a block. -/
def entryAt (s : CompactRelay) (block : Hash) (peer : PeerAddr) : Option CompactAnnounceEntry :=
  (Lru.peek s.announced block).bind (·.lookup peer)

/-- An entry changes if `f` admits the message, and then the deed is done. -/
def admitOnce (s : CompactRelay) (x : Ticket) (f : CompactAnnounceEntry → Option CompactAnnounceEntry)
    (deed : RelayDeed) : CompactRelay :=
  let s' := { s with
    announced := Lru.modify s.announced x.block fun peers =>
      match (peers.lookup x.peer).bind f with
      | some entry => peers.insert x.peer entry
      | none => peers }
  if ((s.entryAt x.block x.peer).bind f).isSome then s'.note deed x else s'

def admitCompactBodyRequest (s : CompactRelay) (x : Ticket) : CompactRelay :=
  s.admitOnce x (consumeCompactBodyAuthorization s.now x.token) .bodyServed

def consumeCompactAck (s : CompactRelay) (x : Ticket) : CompactRelay :=
  s.admitOnce x (transitionCompactAnnounce x.token .acked) .acked

def admitCompactWantFull (s : CompactRelay) (x : Ticket) : CompactRelay :=
  s.admitOnce x (transitionCompactAnnounce x.token .fullServed) .fullServed

/-! ### Evidence -/

def retainEvidence (s : CompactRelay) : CompactRelay :=
  { s with evidence := s.evidence.keep fun v => s.now - v.receivedAt ≤ compactV2EvidenceTtl }

def recordCompactV2Evidence (s : CompactRelay) (x : Ticket) : CompactRelay :=
  let full (s : CompactRelay) := compactV2EvidenceMaxEntries ≤ s.evidence.entries.length
  let s' := if full s ∧ s.evidence.lookup (x.block, x.peer) = none then s.retainEvidence else s
  if full s' ∧ s.evidence.lookup (x.block, x.peer) = none then s'
  else { s' with evidence := s'.evidence.insert (x.block, x.peer) ⟨x.token, s.now⟩ }.note .received x

/-- The start of `send_compact_ack_v2` and of `send_compact_want_full_v2`. -/
def takeCompactV2Evidence (s : CompactRelay) (block : Hash) (peer : PeerAddr) (wantFull : Bool) : CompactRelay :=
  match s.evidence.lookup (block, peer) with
  | none => s
  | some value =>
    let s' := { s with evidence := s.evidence.erase (block, peer) }
    if compactV2EvidenceTtl < s.now - value.receivedAt then s'
    else { s' with leases := s.leases ++ [⟨block, peer, value, wantFull, .out⟩] }

def setLease (s : CompactRelay) (i : ℕ) (lease : CompactEvidenceLease) (state : LeaseState) : CompactRelay :=
  { s with leases := s.leases.set i { lease with state := state } }

/-- The drop of a lease that was not committed. -/
def dropLease (s : CompactRelay) (i : ℕ) (lease : CompactEvidenceLease) : CompactRelay :=
  let s' := s.setLease i lease .dropped
  if s.now - lease.value.receivedAt ≤ compactV2EvidenceTtl ∧ s.evidence.lookup (lease.block, lease.peer) = none then
    { s' with evidence := s.evidence.insert (lease.block, lease.peer) lease.value }
  else s'

def finishLease (s : CompactRelay) (i : ℕ) (ok : Bool) : CompactRelay :=
  match s.leases[i]? with
  | none => s
  | some lease =>
    if lease.state ≠ .out then s
    else if ok then
      (s.setLease i lease .committed).note (if lease.wantFull then .wantFullSent else .ackSent)
        ⟨lease.block, lease.peer, lease.value.token⟩
    else s.dropLease i lease

/-- The evidence part of `clear_compact_v2_received_state`. -/
def clearCompactV2ReceivedState (s : CompactRelay) (block : Hash) : CompactRelay :=
  { s with
    evidence := (s.evidence.keys.filter fun key => key.1 = block).foldl (fun evidence key => evidence.erase key)
      s.evidence }

/-! ### Claims -/

def addCompactSource (sources : List PeerAddr) (source : PeerAddr) : List PeerAddr :=
  if source ∉ sources ∧ sources.length < compactSourceMax then sources ++ [source] else sources

def claimCompactInflight (s : CompactRelay) (block : Hash) (source : PeerAddr) : CompactRelay :=
  let claimed := { s with
    inflight := s.inflight.insert block ⟨s.now, [source]⟩
    claims := s.claims ++ [⟨block, s.now, false⟩] }
  match s.inflight.lookup block with
  | some current =>
    if s.now - current.started < compactInflightTtl then
      { s with
        inflight := s.inflight.insert block { current with sources := addCompactSource current.sources source } }
    else claimed
  | none => claimed

/-- `remove_if` of the claim's own entry. -/
def releaseCompactInflight (s : CompactRelay) (i : ℕ) : CompactRelay :=
  match s.claims[i]? with
  | none => s
  | some claim =>
    if claim.released then s
    else
      { s with
        inflight :=
          if (s.inflight.lookup claim.block).map (·.started) = some claim.started then s.inflight.erase claim.block
          else s.inflight
        claims := s.claims.set i { claim with released := true } }

/-! ### Sweeps -/

/-- `prune_compact_evidence`. -/
def pruneCompactEvidence (s : CompactRelay) : CompactRelay :=
  let stale := s.announced.filter fun e => e.2.values.all fun entry => compactInflightTtl < s.now - entry.announcedAt
  { s.retainEvidence with announced := (stale.map Prod.fst).foldl Lru.pop s.announced }

/-- The part of `prune_runtime_maps` on the claims. -/
def pruneInflight (s : CompactRelay) : CompactRelay :=
  { s with inflight := s.inflight.keep fun current => s.now - current.started < compactInflightTtl }

def step (s : CompactRelay) : RelayAction → CompactRelay
  | .tick nanos => { s with now := s.now + nanos }
  | .announce x => (s.recordCompactAnnounce x).note .announced x
  | .cancel x => s.cancelCompactAnnounce x
  | .bodyRequest x => s.admitCompactBodyRequest x
  | .ack x => s.consumeCompactAck x
  | .wantFull x cached => if cached then s.admitCompactWantFull x else s
  | .receive x => s.recordCompactV2Evidence x
  | .forget block peer => { s with evidence := s.evidence.erase (block, peer) }
  | .fullReceived block => s.clearCompactV2ReceivedState block
  | .send block peer wantFull => s.takeCompactV2Evidence block peer wantFull
  | .finish i ok => s.finishLease i ok
  | .claim block source => s.claimCompactInflight block source
  | .release i => s.releaseCompactInflight i
  | .prune => s.pruneCompactEvidence
  | .pruneInflight => s.pruneInflight

end CompactRelay

end Alphanumeric
