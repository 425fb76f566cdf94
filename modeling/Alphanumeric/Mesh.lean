/-
# The mesh of direct connections

`WebRtcMesh` (`src/a9/webrtc.rs`) keeps three maps by peer id: the connection, an open
channel, and the rate bucket with the count of live channels. They are locked one after
the other. Dials, offers, the reaper, terminal states and the kill switch are tasks here
that take one lock section a step; a channel's callbacks take one step each and may
come at any time after they were set.

Backoff, the directory and whatever the transport and the library return are in the
hands of the action (`go`). A connection is in state Closed only after `close()`, as the
library documents. Left out: what only sets the poll cadence and the backoff, answers and
candidates, and the messages themselves.

Key definitions: `Mesh`, `MeshTask`, `MeshAction`, `Mesh.registerChannel`, `Mesh.stepTask`,
`Mesh.step`.
-/
import Alphanumeric.Lib.Tasks
import Alphanumeric.Lib.Table

namespace Alphanumeric

def meshMaxConns : ℕ := 64
def meshMaxChannelsPerPeer : ℕ := 4

/-- A peer connection, by number: whose it is, whether `new_pc` has put it in the map, and `close()`. -/
structure PeerConn where
  peer : ℕ
  tracked : Bool
  closed : Bool
deriving DecidableEq, Repr

/-- A registered data channel, by number; `closed` once its close callback has run. -/
structure MeshChannel where
  peer : ℕ
  conn : ℕ
  bucket : ℕ
  closed : Bool
deriving DecidableEq, Repr

structure PeerIngress where
  bucket : ℕ
  liveChannels : ℕ
deriving DecidableEq, Repr

/-- Why a connection is removed: `remove_if_current_and_close`, or a terminal state. -/
inductive Removal where
  | closing
  | failed
  | closed
deriving DecidableEq, Repr

inductive MeshTask where
  /-- `dial` or `handle_offer`, before the connection is built. -/
  | lookup (peer : ℕ) (dial : Bool)
  | room (peer : ℕ) (dial : Bool)
  | build (peer : ℕ) (dial : Bool)
  /-- `new_pc` with the connection it built. -/
  | insert (peer conn : ℕ) (dial : Bool)
  | abort (conn : ℕ)
  /-- `negotiate_offer` registers its own channel; then the rest of the negotiation. -/
  | register (peer conn : ℕ)
  | settle (peer conn : ℕ)
  /-- `forget_if_current`, one map after the other. -/
  | forget (peer conn : ℕ) (why : Removal)
  | forgetChannel (peer conn : ℕ) (why : Removal)
  | forgetIngress (peer conn : ℕ) (why : Removal)
  | close (conn : ℕ)
  /-- `shutdown`, with the connections it took out. -/
  | shutFlag
  | shutConns
  | shutChannels (conns : List ℕ)
  | shutIngress (conns : List ℕ)
  | shutClose (conns : List ℕ)
  | shut
  | done
deriving DecidableEq, Repr

structure Mesh where
  localId : ℕ
  pcs : List PeerConn
  chans : List MeshChannel
  buckets : ℕ
  conns : Table ℕ ℕ
  channels : Table ℕ ℕ
  ingress : Table ℕ PeerIngress
  closed : Bool
  tasks : List MeshTask

inductive MeshAction where
  | dial (peer : ℕ)
  | offer (peer : ℕ)
  /-- The task in place `i` takes its next step; `go` is false where it may fail or decline. -/
  | step (i : ℕ) (go : Bool)
  /-- The remote opened a channel on this connection. -/
  | dataChannel (conn : ℕ)
  | opened (chan : ℕ)
  | closed (chan : ℕ)
  | terminal (conn : ℕ) (failed : Bool)
  /-- The reaper comes to a connection of its list. -/
  | reap (conn : ℕ)
  | shutdown
deriving DecidableEq, Repr

namespace Mesh

def new (localId : ℕ) : Mesh := ⟨localId, [], [], 0, ∅, ∅, ∅, false, []⟩

def goTo (s : Mesh) (i : ℕ) (t : MeshTask) : Mesh := { s with tasks := s.tasks.set i t }

def start (s : Mesh) (t : MeshTask) : Mesh := { s with tasks := s.tasks ++ [t] }

/-- `close()` of a connection. -/
def closePc (s : Mesh) (conn : ℕ) : Mesh :=
  { s with pcs := s.pcs.modify conn fun pc => { pc with closed := true } }

/-- `ingress.entry(peer).or_insert_with(..)`. -/
def ingressEntry (s : Mesh) (peer : ℕ) : PeerIngress := (s.ingress.lookup peer).getD ⟨s.buckets, 0⟩

/-- `acquire_ingress_slot`, and the channel wired with its bucket; `none` at the cap. -/
def registerChannel (s : Mesh) (peer conn : ℕ) : Option Mesh :=
  let entry := s.ingressEntry peer
  if meshMaxChannelsPerPeer ≤ entry.liveChannels then none
  else some
    { s with
      ingress := s.ingress.insert peer ⟨entry.bucket, entry.liveChannels + 1⟩
      buckets := if (s.ingress.lookup peer).isSome then s.buckets else s.buckets + 1
      chans := s.chans ++ [⟨peer, conn, entry.bucket, false⟩] }

/-- The insert at the end of `new_pc`. -/
def insertConn (s : Mesh) (i peer conn : ℕ) (dial : Bool) : Mesh :=
  if s.closed then s.goTo i (.abort conn)
  else if s.conns.lookup peer = none ∧ meshMaxConns ≤ s.conns.entries.length then s.goTo i (.abort conn)
  else
    { s with
      conns := s.conns.insert peer conn
      pcs := s.pcs.modify conn fun pc => { pc with tracked := true } }.goTo i
      (if dial then .register peer conn else .settle peer conn)

/-- The section of `forget_if_current` on the connections. -/
def forgetConn (s : Mesh) (i peer conn : ℕ) (why : Removal) : Mesh :=
  if s.conns.lookup peer = some conn then
    { s with conns := s.conns.erase peer }.goTo i (.forgetChannel peer conn why)
  else s.goTo i (if why = .closing then .close conn else .done)

def stepTask (s : Mesh) (i : ℕ) (go : Bool) : MeshTask → Mesh
  | .lookup peer dial =>
    s.goTo i (if go ∧ s.conns.lookup peer = none then .room peer dial else .done)
  | .room peer dial =>
    s.goTo i (if go ∧ s.conns.entries.length < meshMaxConns then .build peer dial else .done)
  | .build peer dial =>
    if go then
      ({ s with pcs := s.pcs ++ [⟨peer, false, false⟩] } : Mesh).goTo i (.insert peer s.pcs.length dial)
    else s.goTo i .done
  | .insert peer conn dial => s.insertConn i peer conn dial
  | .abort conn => (s.closePc conn).goTo i .done
  | .register peer conn =>
    match (if go then s.registerChannel peer conn else none) with
    | some s' => s'.goTo i (.settle peer conn)
    | none => s.goTo i (.forget peer conn .closing)
  | .settle peer conn => s.goTo i (if go then .done else .forget peer conn .closing)
  | .forget peer conn why => s.forgetConn i peer conn why
  | .forgetChannel peer conn why =>
    { s with channels := s.channels.erase peer }.goTo i (.forgetIngress peer conn why)
  | .forgetIngress peer conn why =>
    { s with ingress := s.ingress.erase peer }.goTo i (if why = Removal.closed then .done else .close conn)
  | .close conn => (s.closePc conn).goTo i .done
  | .shutFlag => { s with closed := true }.goTo i .shutConns
  | .shutConns => { s with conns := ∅ }.goTo i (.shutChannels s.conns.values)
  | .shutChannels conns => { s with channels := ∅ }.goTo i (.shutIngress conns)
  | .shutIngress conns => { s with ingress := ∅ }.goTo i (.shutClose conns)
  | .shutClose [] => s.goTo i .shut
  | .shutClose (conn :: conns) => (s.closePc conn).goTo i (.shutClose conns)
  | .shut => s
  | .done => s

/-- The close callback: `get_mut` and a saturating decrement. -/
def releaseSlot (s : Mesh) (peer : ℕ) : Mesh :=
  match s.ingress.lookup peer with
  | some entry =>
    { s with ingress := s.ingress.insert peer { entry with liveChannels := entry.liveChannels - 1 } }
  | none => s

def step (s : Mesh) : MeshAction → Mesh
  | .dial peer => if s.localId < peer then s.start (.lookup peer true) else s
  | .offer peer => if s.localId < peer then s else s.start (.lookup peer false)
  | .step i go =>
    match s.tasks[i]? with
    | some t => s.stepTask i go t
    | none => s
  | .dataChannel conn =>
    match s.pcs[conn]? with
    | some pc => if pc.tracked then (s.registerChannel pc.peer conn).getD s else s
    | none => s
  | .opened chan =>
    match s.chans[chan]? with
    | some c => { s with channels := s.channels.insert c.peer chan }
    | none => s
  | .closed chan =>
    match s.chans[chan]? with
    | some c =>
      if c.closed then s
      else { s.releaseSlot c.peer with chans := s.chans.set chan { c with closed := true } }
    | none => s
  | .terminal conn failed =>
    match s.pcs[conn]? with
    | some pc =>
      if failed then s.start (.forget pc.peer conn .failed)
      else if pc.closed then s.start (.forget pc.peer conn .closed)
      else s
    | none => s
  | .reap conn =>
    match s.pcs[conn]? with
    | some pc => if pc.tracked then s.start (.forget pc.peer conn .closing) else s
    | none => s
  | .shutdown => s.start .shutFlag

end Mesh

end Alphanumeric
