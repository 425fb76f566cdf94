/-
# Admission of outbound frames

`src/a9/outbound.rs` admits every frame before it may wait for its peer's connection.
An admission takes eight permits one after the other (a message slot and its bytes,
globally, of its class, of its peer and of the peer's class), counts itself as
queued, waits for an in-flight slot of its class and passes a token bucket; it then
is a reservation, until it is dropped. An early return, a timeout, a cancellation and
a drop give back what was taken, each in its own order. Peer budgets are shared by
reference count, and idle ones are evicted.

Each permit and each gauge is one atomic step here. A task carries what it holds and
what it has yet to do. The token buckets are floating point and answer through the
action; the walk of the peer map finds any idle budget; dispatch tickets do not wrap.
Left out: the counters that only grow, and the scheduler switched off.

Key definitions: `SchedulerConfig.new`, `Account`, `Micro`, `OutboundTask`, `Outbound`,
`Outbound.step`.
-/
import Alphanumeric.Lib.Accounts
import Alphanumeric.Lib.Table

namespace Alphanumeric

/-! ### Classes and ceilings -/

inductive TrafficClass where
  | block
  | control
  | transaction
  | bootstrap
  | registration
deriving DecidableEq, Repr

def TrafficClass.priority : TrafficClass → ℕ
  | .block => 0
  | .control => 1
  | .registration => 2
  | .transaction => 3
  | .bootstrap => 4

/-- The classes that the message slots are reserved for. -/
def TrafficClass.critical : TrafficClass → Bool
  | .block => true
  | .control => true
  | _ => false

structure ClassConfig where
  queueBytes : ℕ
  peerQueueBytes : ℕ
  queueMessages : ℕ
  peerQueueMessages : ℕ
  maxInFlight : ℕ

structure SchedulerConfig where
  globalQueueBytes : ℕ
  peerQueueBytes : ℕ
  globalQueueMessages : ℕ
  peerQueueMessages : ℕ
  peerStateLimit : ℕ
  classes : TrafficClass → ClassConfig

def mib : ℕ := 1048576
def defaultGlobalQueueMessages : ℕ := 512
def defaultPeerQueueMessages : ℕ := 16
def maxPeerStates : ℕ := 4096

/-- One row of the class tables. -/
def classConfigFor (globalQueueBytes peerQueueBytes : ℕ) : TrafficClass → ClassConfig
  | .block => ⟨max globalQueueBytes 1, max (peerQueueBytes / 2) (4 * mib), 64, 4, 16⟩
  | .control => ⟨max (globalQueueBytes / 16) (4 * mib), max (peerQueueBytes / 8) (4 * mib), 256, 4, 32⟩
  | .transaction => ⟨max (globalQueueBytes / 2) (4 * mib), max (peerQueueBytes / 4) (4 * mib), 256, 6, 16⟩
  | .bootstrap => ⟨max (globalQueueBytes / 4) (4 * mib), max (peerQueueBytes / 4) (4 * mib), 64, 3, 16⟩
  | .registration => ⟨max (globalQueueBytes / 32) mib, max (peerQueueBytes / 16) (256 * 1024), 64, 1, 4⟩

def SchedulerConfig.new (globalQueueBytes peerQueueBytes maxPeers : ℕ) : SchedulerConfig :=
  let globalQueueBytes := max globalQueueBytes (32 * mib)
  let peerQueueBytes := max peerQueueBytes (16 * mib)
  { globalQueueBytes, peerQueueBytes
    globalQueueMessages := defaultGlobalQueueMessages
    peerQueueMessages := defaultPeerQueueMessages
    peerStateLimit := max 32 (min (maxPeers * 4) maxPeerStates)
    classes := classConfigFor globalQueueBytes peerQueueBytes }

/-! ### Accounts -/

/-- A socket address, by number. -/
abbrev PeerAddr : Type := ℕ

/-- The semaphores, by what they bound, and the gauges. A peer's semaphores belong to its budget. -/
inductive Account where
  | globalMessages
  | globalBytes
  | classMessages (c : TrafficClass)
  | classBytes (c : TrafficClass)
  | classInFlight (c : TrafficClass)
  | peerMessages (budget : ℕ)
  | peerBytes (budget : ℕ)
  | peerClassMessages (budget : ℕ) (c : TrafficClass)
  | peerClassBytes (budget : ℕ) (c : TrafficClass)
  | queuedMessages (c : TrafficClass)
  | queuedBytes (c : TrafficClass)
  | inFlightMessages (c : TrafficClass)
  | inFlightBytes (c : TrafficClass)
deriving DecidableEq, Repr

/-- The permits a semaphore starts with; a gauge has no ceiling. -/
def Account.ceiling (config : SchedulerConfig) : Account → Option ℕ
  | .globalMessages => some config.globalQueueMessages
  | .globalBytes => some config.globalQueueBytes
  | .classMessages c => some (config.classes c).queueMessages
  | .classBytes c => some (config.classes c).queueBytes
  | .classInFlight c => some (config.classes c).maxInFlight
  | .peerMessages _ => some config.peerQueueMessages
  | .peerBytes _ => some config.peerQueueBytes
  | .peerClassMessages _ c => some (config.classes c).peerQueueMessages
  | .peerClassBytes _ c => some (config.classes c).peerQueueBytes
  | _ => none

abbrev Hold : Type := Account × ℕ

inductive Scope where
  | global
  | trafficClass
  | peer
  | peerClass
  | semaphore
deriving DecidableEq, Repr

inductive AdmissionError where
  | oversized (c : TrafficClass) (scope : Scope) (bytes : ℕ)
  | queueFull (c : TrafficClass) (scope : Scope)
  | rateLimited (c : TrafficClass)
  | queueExpired (c : TrafficClass)
  | cancelled
  | peerTableFull
deriving DecidableEq, Repr

/-! ### Tasks -/

structure OutboundMessage where
  peer : PeerAddr
  budget : ℕ
  trafficClass : TrafficClass
  bytes : ℕ
deriving DecidableEq, Repr

namespace OutboundMessage

variable (m : OutboundMessage)

/-- The permits in the order `admit` takes them, with the scope a refusal names. -/
def scopedPermits : List (Hold × Scope) :=
  [((.globalMessages, 1), .global), ((.classMessages m.trafficClass, 1), .trafficClass),
    ((.peerMessages m.budget, 1), .peer), ((.peerClassMessages m.budget m.trafficClass, 1), .peerClass),
    ((.globalBytes, m.bytes), .global), ((.classBytes m.trafficClass, m.bytes), .trafficClass),
    ((.peerBytes m.budget, m.bytes), .peer), ((.peerClassBytes m.budget m.trafficClass, m.bytes), .peerClass)]

def permits : List Hold := m.scopedPermits.map Prod.fst

def classSlot : Hold := (.classInFlight m.trafficClass, 1)

def queued : List Hold := [(.queuedMessages m.trafficClass, 1), (.queuedBytes m.trafficClass, m.bytes)]

def inFlight : List Hold := [(.inFlightMessages m.trafficClass, 1), (.inFlightBytes m.trafficClass, m.bytes)]

def gauges (dispatched : Bool) : List Hold := if dispatched then m.inFlight else m.queued

end OutboundMessage

/-- One atomic step of a task. -/
inductive Micro where
  /-- `try_acquire`: all of it or a refusal. -/
  | take (x : Hold) (scope : Scope)
  /-- `acquire_owned` of the in-flight slot: it waits. -/
  | slot (x : Hold)
  /-- The token bucket. -/
  | tokens
  | put (x : Hold)
  | giveBack (x : Hold)
  /-- The reference to the peer's budget goes. -/
  | dropArc
deriving DecidableEq, Repr

inductive Stage where
  | admission
  | reservation (dispatched : Bool)
  | leaving
deriving DecidableEq, Repr

structure OutboundTask where
  message : OutboundMessage
  stage : Stage
  /-- It holds a reference to the budget. -/
  arc : Bool
  held : List Hold
  todo : List Micro
  /-- Its ticket in the dispatch queue. -/
  ticket : Option ℕ
  error : Option AdmissionError
deriving DecidableEq, Repr

def OutboundMessage.admitProgram (m : OutboundMessage) : List Micro :=
  (m.scopedPermits.map fun x => .take x.1 x.2) ++ m.queued.map .put ++ [.slot m.classSlot, .tokens]

def OutboundMessage.dispatchProgram (m : OutboundMessage) : List Micro :=
  m.queued.map .giveBack ++ m.inFlight.map .put

/-- Give back `before`, then the reference, then `after`. -/
def leaveProgram (before after : List Hold) : List Micro :=
  before.map .giveBack ++ .dropArc :: after.map .giveBack

namespace OutboundTask

def leave (t : OutboundTask) (before after : List Hold) : OutboundTask :=
  { t with stage := .leaving, todo := leaveProgram before after }

/-- The `?` of a refused permit: locals are dropped last first. -/
def refuse (t : OutboundTask) (e : AdmissionError) : OutboundTask :=
  { t.leave t.held [] with error := some e }

/-- `pending.reject()` or its drop, then the locals. -/
def rejectPending (t : OutboundTask) (slot : List Hold) (e : AdmissionError) : OutboundTask :=
  { t.leave (t.message.queued ++ slot ++ t.message.permits.reverse) [] with error := some e }

/-- `Reservation::drop` and its fields in order. -/
def release (t : OutboundTask) (dispatched : Bool) : OutboundTask :=
  t.leave (t.message.gauges dispatched) (t.message.permits ++ [t.message.classSlot])

/-- It waits for the in-flight slot. -/
def atSlot (t : OutboundTask) : Bool := t.todo = [.slot t.message.classSlot, .tokens]

def markDispatched (t : OutboundTask) (dispatched : Bool) : OutboundTask :=
  if dispatched then t else { t with stage := .reservation true, todo := t.message.dispatchProgram }

end OutboundTask

/-! ### Priority dispatch -/

structure PriorityWaiter where
  ticket : ℕ
  priority : ℕ
deriving DecidableEq, Repr

structure PriorityState where
  active : Bool
  nextTicket : ℕ
  waiters : List PriorityWaiter
deriving DecidableEq, Repr

/-- The first waiter of the least priority number. -/
def PriorityState.selected (d : PriorityState) : Option ℕ :=
  (d.waiters.find? fun w => d.waiters.all fun v => w.priority ≤ v.priority).map (·.ticket)

def PriorityState.idle (d : PriorityState) : Bool := !d.active && d.waiters.isEmpty

/-! ### The scheduler -/

structure Outbound where
  config : SchedulerConfig
  balance : Account → ℕ
  /-- The peer map, from address to budget. -/
  peers : Table PeerAddr ℕ
  /-- Budgets made so far; the next one gets this number. -/
  budgets : ℕ
  dispatch : ℕ → PriorityState
  /-- Live dispatch permits, by peer and budget. -/
  permits : List (PeerAddr × ℕ)
  tasks : List OutboundTask

inductive OutboundAction where
  /-- Call `admit`; `victim` is the idle peer that a full map gives up. -/
  | admission (peer : PeerAddr) (c : TrafficClass) (bytes : ℕ) (victim : Option PeerAddr)
  /-- The task in this place takes its next step; `granted` is the token bucket's answer. -/
  | advance (i : ℕ) (granted : Bool)
  | expire (i : ℕ)
  | cancel (i : ℕ)
  /-- `acquire_dispatch` joins the queue, gets the permit, or gives up. -/
  | awaitDispatch (i : ℕ)
  | grantDispatch (i : ℕ)
  | abandonDispatch (i : ℕ)
  | dropPermit (k : ℕ)
  | startIndependentDispatch (i : ℕ)
  /-- `finish` or a plain drop. -/
  | release (i : ℕ)
  | removePeer (peer : PeerAddr)
deriving DecidableEq, Repr

namespace Outbound

def new (config : SchedulerConfig) : Outbound where
  config
  balance _ := 0
  peers := ∅
  budgets := 0
  dispatch _ := ⟨false, 0, []⟩
  permits := []
  tasks := []

/-- `available_permits() ≥ n`. -/
def available (s : Outbound) (x : Hold) : Bool :=
  (x.1.ceiling s.config).all fun ceiling => s.balance x.1 + x.2 ≤ ceiling

/-- `Arc::strong_count(budget) == 1`. -/
def unshared (s : Outbound) (budget : ℕ) : Bool :=
  !s.tasks.any fun t => t.arc && t.message.budget = budget

def idle (s : Outbound) (budget : ℕ) : Bool :=
  s.balance (.peerBytes budget) = 0 && s.balance (.peerMessages budget) = 0 && (s.dispatch budget).idle

def evictable (s : Outbound) (peer : PeerAddr) : Bool :=
  (s.peers.lookup peer).any fun budget => s.unshared budget && s.idle budget

def removePeer (s : Outbound) (peer : PeerAddr) : Outbound :=
  if s.evictable peer then { s with peers := s.peers.erase peer } else s

def makeBudget (s : Outbound) (peer : PeerAddr) : Outbound :=
  { s with peers := s.peers.insert peer s.budgets, budgets := s.budgets + 1 }

/-- `peer_budget`, under the lock of the map. -/
def peerBudget (s : Outbound) (peer : PeerAddr) (victim : Option PeerAddr) : Option (Outbound × ℕ) :=
  match s.peers.lookup peer with
  | some budget => some (s, budget)
  | none =>
    if s.config.peerStateLimit ≤ s.peers.entries.length then
      match victim with
      | some v => if s.evictable v then some ((s.removePeer v).makeBudget peer, s.budgets) else none
      | none => none
    else some (s.makeBudget peer, s.budgets)

/-- The checks of the size, before anything is taken. -/
def oversized (s : Outbound) (c : TrafficClass) (bytes : ℕ) : Option Scope :=
  let class_ := s.config.classes c
  if s.config.globalQueueBytes < bytes then some .global
  else if class_.queueBytes < bytes then some .trafficClass
  else if s.config.peerQueueBytes < bytes ∨ class_.peerQueueBytes < bytes then some .peer
  else if 2 ^ 32 ≤ bytes then some .semaphore
  else none

def goTo (s : Outbound) (i : ℕ) (t : OutboundTask) : Outbound := { s with tasks := s.tasks.set i t }

def setDispatch (s : Outbound) (budget : ℕ) (d : PriorityState) : Outbound :=
  { s with dispatch := fun b => if b = budget then d else s.dispatch b }

def admission (s : Outbound) (peer : PeerAddr) (c : TrafficClass) (bytes : ℕ) (victim : Option PeerAddr) :
    Outbound :=
  let bytes := max bytes 1
  match s.oversized c bytes with
  | some _ => s
  | none =>
    match s.peerBudget peer victim with
    | none => s
    | some (s', budget) =>
      let m : OutboundMessage := ⟨peer, budget, c, bytes⟩
      { s' with tasks := s'.tasks ++ [⟨m, .admission, true, [], m.admitProgram, none, none⟩] }

/-- The next step of the task `t` in place `i`. -/
def advanceTask (s : Outbound) (i : ℕ) (t : OutboundTask) (granted : Bool) : Outbound :=
  match t.todo with
  | [] => s
  | .take x scope :: todo =>
    if s.available x then
      { s with balance := Accounts.raise s.balance x.1 x.2 }.goTo i { t with held := x :: t.held, todo }
    else s.goTo i (t.refuse (.queueFull t.message.trafficClass scope))
  | .slot x :: todo =>
    if s.available x then
      { s with balance := Accounts.raise s.balance x.1 x.2 }.goTo i { t with held := x :: t.held, todo }
    else s
  | .tokens :: todo =>
    if granted then s.goTo i { t with stage := .reservation false, todo }
    else s.goTo i (t.rejectPending [t.message.classSlot] (.rateLimited t.message.trafficClass))
  | .put x :: todo =>
    { s with balance := Accounts.raise s.balance x.1 x.2 }.goTo i { t with held := x :: t.held, todo }
  | .giveBack x :: todo =>
    { s with balance := Accounts.lower s.balance x.1 x.2 }.goTo i { t with held := t.held.erase x, todo }
  | .dropArc :: todo => s.goTo i { t with arc := false, todo }

/-- An admission stops waiting for its slot. -/
def stopWaiting (s : Outbound) (i : ℕ) (e : TrafficClass → AdmissionError) : Outbound :=
  match s.tasks[i]? with
  | some t => if t.stage = .admission ∧ t.atSlot then
      s.goTo i (t.rejectPending [] (e t.message.trafficClass)) else s
  | none => s

/-- Run `f` on the reservation in place `i`, if it is at rest. -/
def onReservation (s : Outbound) (i : ℕ) (f : OutboundTask → Bool → Outbound) : Outbound :=
  match s.tasks[i]? with
  | some t =>
    match t.stage with
    | .reservation dispatched => if t.todo = [] then f t dispatched else s
    | _ => s
  | none => s

def awaitDispatch (s : Outbound) (i : ℕ) (t : OutboundTask) : Outbound :=
  let d := s.dispatch t.message.budget
  if t.ticket = none then
    (s.setDispatch t.message.budget
      { d with
        nextTicket := d.nextTicket + 1
        waiters := d.waiters ++ [⟨d.nextTicket, t.message.trafficClass.priority⟩] }).goTo i
      { t with ticket := some d.nextTicket }
  else s

def grantDispatch (s : Outbound) (i : ℕ) (t : OutboundTask) (dispatched : Bool) : Outbound :=
  let d := s.dispatch t.message.budget
  if t.ticket ≠ none ∧ d.active = false ∧ d.selected = t.ticket then
    let s := s.setDispatch t.message.budget
      { d with active := true, waiters := d.waiters.filter fun w => some w.ticket ≠ t.ticket }
    { s with permits := s.permits ++ [(t.message.peer, t.message.budget)] }.goTo i
      ({ t with ticket := none }.markDispatched dispatched)
  else s

def abandonDispatch (s : Outbound) (i : ℕ) (t : OutboundTask) : Outbound :=
  let d := s.dispatch t.message.budget
  if t.ticket ≠ none then
    (s.setDispatch t.message.budget { d with waiters := d.waiters.filter fun w => some w.ticket ≠ t.ticket }).goTo i
      { t with ticket := none }
  else s

def dropPermit (s : Outbound) (k : ℕ) : Outbound :=
  match s.permits[k]? with
  | some (_, budget) =>
    { s.setDispatch budget { s.dispatch budget with active := false } with permits := s.permits.eraseIdx k }
  | none => s

def step (s : Outbound) : OutboundAction → Outbound
  | .admission peer c bytes victim => s.admission peer c bytes victim
  | .advance i granted =>
    match s.tasks[i]? with
    | some t => s.advanceTask i t granted
    | none => s
  | .expire i => s.stopWaiting i .queueExpired
  | .cancel i => s.stopWaiting i fun _ => .cancelled
  | .awaitDispatch i => s.onReservation i fun t _ => s.awaitDispatch i t
  | .grantDispatch i => s.onReservation i fun t dispatched => s.grantDispatch i t dispatched
  | .abandonDispatch i => s.onReservation i fun t _ => s.abandonDispatch i t
  | .dropPermit k => s.dropPermit k
  | .startIndependentDispatch i =>
    s.onReservation i fun t dispatched => s.goTo i (t.markDispatched dispatched)
  | .release i =>
    s.onReservation i fun t dispatched => if t.ticket = none then s.goTo i (t.release dispatched) else s
  | .removePeer peer => s.removePeer peer

end Outbound

end Alphanumeric
