/-
# Requests and responses on pooled connections

`src/a9/node.rs`: a request (`send_prepared_message_with_response`) or a one-way message
(`send_prepared_message`) takes the connection to its peer out of the pool or dials one, locks
it, arms it, writes its frame and, for a request, reads one frame back; then it disarms and
unlocks. A holder that finds the connection armed, since an exchange on it was dropped in the
middle, removes it from the pool instead. So does a caller whose exchange failed, but only
after it has disarmed and unlocked it, and by address.

A step is what happens between two awaits. Frames are known by the request they carry or
answer. The peer answers the requests of a connection in their order, at any time or never,
and does not answer one-way messages; what it sends after a torn frame is not read as a
frame. Sweeps, the reset after a suspend and `verify_peer` change the pool at any time. The
dispatch permits of the scheduler only keep calls to one peer apart between the look at the
pool and the unlock; they are left out, so every run of the code is one of these.

Key definitions: `Connection`, `Stage`, `Exchanges`, `Exchanges.step`, `Timely`, `CleanStart`,
`OwnAnswer`, `KeepsNewer`, `Inv`.
Key theorems: `Inv.step`, `responses_belong`, `late_answer_goes_astray`.
-/
import Alphanumeric.Lib.Trace
import Mathlib

namespace Alphanumeric

namespace PooledExchanges

/-- An attempt of a call. -/
structure Request where
  call : ℕ
  attempt : ℕ
deriving DecidableEq

/-- How much of a frame went through when its exchange ended early. -/
inductive Left where
  | nothing
  | part
  | whole
deriving DecidableEq

/-- `OutboundConnection`, with what is under way on its stream. -/
structure Connection (κ : Type) where
  addr : κ
  /-- `exchange_armed`. -/
  armed : Bool
  holder : Option ℕ
  /-- Responses that nobody has read yet, by the request they answer. -/
  inbox : List Request
  /-- Requests that the peer has not answered yet. -/
  asked : List Request
  /-- A frame was written or read in part. -/
  torn : Bool
  /-- Exchanges begun. -/
  uses : ℕ

inductive Stage where
  /-- The dispatch permit, the circuit breaker and the look at the pool come next. -/
  | starting (attempt : ℕ)
  | dialing (attempt : ℕ)
  /-- `conn.lock()`. -/
  | waiting (attempt conn : ℕ)
  | writing (attempt conn : ℕ)
  | reading (attempt conn : ℕ)
  /-- The exchange has failed; the connection is to be removed. -/
  | failed (attempt conn : ℕ)
  /-- The connection was armed and is to be removed. -/
  | discarding (attempt conn : ℕ)
  | done
deriving DecidableEq

structure Call (κ : Type) where
  addr : κ
  /-- Whether the call reads a response. -/
  response : Bool
  stage : Stage

structure Exchanges (κ : Type) where
  pool : κ → Option ℕ
  conn : ℕ → Option (Connection κ)
  conns : ℕ
  call : ℕ → Option (Call κ)
  calls : ℕ

variable {κ : Type}

def Exchanges.empty : Exchanges κ := ⟨fun _ => none, fun _ => none, 0, fun _ => none, 0⟩

inductive Action (κ : Type) where
  | send (addr : κ) (response : Bool)
  /-- No dispatch permit, or the circuit is open. -/
  | refuse (i : ℕ)
  | look (i : ℕ)
  | dial (i : ℕ) (ok : Bool)
  /-- `refused`: the message needs a compact negotiation that the connection has not. -/
  | lock (i : ℕ) (refused : Bool)
  | write (i : ℕ)
  | writeFails (i : ℕ) (left : Left)
  | read (i : ℕ)
  | readFails (i : ℕ) (left : Left)
  | remove (i : ℕ)
  /-- The caller drops the future. -/
  | cancel (i : ℕ) (left : Left)
  | answer (c : ℕ)
  | sweep (addr : κ)
  | reset
  /-- `verify_peer` puts the stream of its handshake into the pool. -/
  | register (addr : κ)

/-! ### A connection -/

namespace Connection

def dialed (addr : κ) : Connection κ := ⟨addr, false, none, [], [], false, 0⟩

def arm (k : Connection κ) (i : ℕ) : Connection κ := { k with armed := true, holder := some i, uses := k.uses + 1 }

def disarm (k : Connection κ) : Connection κ := { k with armed := false, holder := none }

/-- The guard is dropped with the future. -/
def abandon (k : Connection κ) : Connection κ := { k with holder := none }

/-- The peer gets a request, unless a torn frame is before it. -/
def delivered (k : Connection κ) (r : Request) (response : Bool) : Connection κ :=
  if response = true ∧ k.torn = false then { k with asked := k.asked ++ [r] } else k

def written (k : Connection κ) (r : Request) (response : Bool) : Left → Connection κ
  | .nothing => k
  | .part => { k with torn := true }
  | .whole => k.delivered r response

def consumed (k : Connection κ) : Left → Connection κ
  | .nothing => k
  | .part => { k with torn := true }
  | .whole => { k with inbox := k.inbox.tail }

def answered (k : Connection κ) : Connection κ :=
  match k.asked with
  | [] => k
  | r :: rest => { k with inbox := k.inbox ++ [r], asked := rest }

/-- Nothing is under way on the stream. -/
structure Clean (k : Connection κ) : Prop where
  settled : k.inbox ++ k.asked = []
  whole : k.torn = false

instance (k : Connection κ) : Decidable k.Clean :=
  decidable_of_iff (k.inbox ++ k.asked = [] ∧ k.torn = false) ⟨fun h => ⟨h.1, h.2⟩, fun h => ⟨h.1, h.2⟩⟩

/-- Nothing says that the connection is not to be used. -/
structure Idle (k : Connection κ) : Prop where
  free : k.holder = none
  disarmed : k.armed = false

/-- The first exchange on the connection is going on. -/
def InFirstUse (k : Connection κ) : Prop := k.uses = 1 ∧ k.holder.isSome = true

instance (k : Connection κ) : Decidable k.InFirstUse := inferInstanceAs (Decidable (_ ∧ _))

end Connection

namespace Stage

def attempt : Stage → ℕ
  | .starting n | .dialing n | .waiting n _ | .writing n _ | .reading n _ | .failed n _ | .discarding n _ => n
  | .done => 0

/-- The connection that the call has a handle of. -/
def conn : Stage → Option ℕ
  | .waiting _ c | .writing _ c | .reading _ c | .failed _ c | .discarding _ c => some c
  | .starting _ | .dialing _ | .done => none

def waitsFor : Stage → Option ℕ
  | .waiting _ c => some c
  | _ => none

def writesOn : Stage → Option ℕ
  | .writing _ c => some c
  | _ => none

def readsFrom : Stage → Option ℕ
  | .reading _ c => some c
  | _ => none

def failedOn : Stage → Option ℕ
  | .failed _ c => some c
  | _ => none

/-- The connection for which the call removes what the pool has under its address. -/
def removes : Stage → Option ℕ
  | .failed _ c | .discarding _ c => some c
  | _ => none

end Stage

/-! ### The steps -/

namespace Exchanges

variable [DecidableEq κ] (s : Exchanges κ)

def setCall (i : ℕ) (call : Call κ) : Exchanges κ := { s with call := Function.update s.call i (some call) }

def setConn (c : ℕ) (k : Connection κ) : Exchanges κ := { s with conn := Function.update s.conn c (some k) }

/-- `insert_outbound_connection`, where the pool has no connection to the address. -/
def pooled (addr : κ) : Exchanges κ :=
  { s with
    pool := Function.update s.pool addr (some s.conns)
    conn := Function.update s.conn s.conns (some (.dialed addr))
    conns := s.conns + 1 }

/-- `remove_outbound_connection`. -/
def removeOutboundConnection (addr : κ) : Exchanges κ := { s with pool := Function.update s.pool addr none }

end Exchanges

/-- `MAX_ATTEMPTS`. -/
def maxAttempts : ℕ := 2

def nextAttempt (attempt : ℕ) : Stage := if attempt + 1 < maxAttempts then .starting (attempt + 1) else .done

namespace Exchanges

variable [DecidableEq κ] (s : Exchanges κ)

/-- The guard on the connection is gone once the call has locked it: it discards an armed one, returns, or arms it. -/
def locked (i n c : ℕ) (call : Call κ) (k : Connection κ) (refused : Bool) : Exchanges κ :=
  if k.armed = true then s.setCall i { call with stage := .discarding n c }
  else if refused = true then s.setCall i { call with stage := .done }
  else (s.setConn c (k.arm i)).setCall i { call with stage := .writing n c }

def step (s : Exchanges κ) : Action κ → Option (Exchanges κ)
  | .send addr response =>
    some { s.setCall s.calls ⟨addr, response, .starting 0⟩ with calls := s.calls + 1 }
  | .refuse i =>
    match s.call i with
    | some ⟨addr, response, .starting _⟩ => some (s.setCall i ⟨addr, response, .done⟩)
    | _ => none
  | .look i =>
    match s.call i with
    | some ⟨addr, response, .starting n⟩ =>
      match s.pool addr with
      | some c => some (s.setCall i ⟨addr, response, .waiting n c⟩)
      | none => some (s.setCall i ⟨addr, response, .dialing n⟩)
    | _ => none
  | .dial i ok =>
    match s.call i with
    | some ⟨addr, response, .dialing n⟩ =>
      if ok = true then
        match s.pool addr with
        | some c => some (s.setCall i ⟨addr, response, .waiting n c⟩)
        | none => some ((s.pooled addr).setCall i ⟨addr, response, .waiting n s.conns⟩)
      else some (s.setCall i ⟨addr, response, nextAttempt n⟩)
    | _ => none
  | .lock i refused =>
    match s.call i with
    | some ⟨addr, response, .waiting n c⟩ =>
      match s.conn c with
      | some k => if k.holder = none then some (s.locked i n c ⟨addr, response, .waiting n c⟩ k refused) else none
      | none => none
    | _ => none
  | .write i =>
    match s.call i with
    | some ⟨addr, response, .writing n c⟩ =>
      match s.conn c with
      | some k =>
        if response = true then
          some ((s.setConn c (k.delivered ⟨i, n⟩ true)).setCall i ⟨addr, response, .reading n c⟩)
        else some ((s.setConn c k.disarm).setCall i ⟨addr, response, .done⟩)
      | none => none
    | _ => none
  | .writeFails i left =>
    match s.call i with
    | some ⟨addr, response, .writing n c⟩ =>
      match s.conn c with
      | some k => some ((s.setConn c (k.written ⟨i, n⟩ response left).disarm).setCall i ⟨addr, response, .failed n c⟩)
      | none => none
    | _ => none
  | .read i =>
    match s.call i with
    | some ⟨addr, response, .reading _ c⟩ =>
      match s.conn c with
      | some k =>
        if k.torn = false ∧ k.inbox ≠ [] then
          some ((s.setConn c (k.consumed .whole).disarm).setCall i ⟨addr, response, .done⟩)
        else none
      | none => none
    | _ => none
  | .readFails i left =>
    match s.call i with
    | some ⟨addr, response, .reading n c⟩ =>
      match s.conn c with
      | some k => some ((s.setConn c (k.consumed left).disarm).setCall i ⟨addr, response, .failed n c⟩)
      | none => none
    | _ => none
  | .remove i =>
    match s.call i with
    | some ⟨addr, response, .failed n _⟩ =>
      some ((s.removeOutboundConnection addr).setCall i ⟨addr, response, nextAttempt n⟩)
    | some ⟨addr, response, .discarding n _⟩ =>
      some ((s.removeOutboundConnection addr).setCall i ⟨addr, response, nextAttempt n⟩)
    | _ => none
  | .cancel i left =>
    match s.call i with
    | some ⟨addr, response, .writing n c⟩ =>
      match s.conn c with
      | some k => some ((s.setConn c (k.written ⟨i, n⟩ response left).abandon).setCall i ⟨addr, response, .done⟩)
      | none => none
    | some ⟨addr, response, .reading _ c⟩ =>
      match s.conn c with
      | some k => some ((s.setConn c (k.consumed left).abandon).setCall i ⟨addr, response, .done⟩)
      | none => none
    | some ⟨addr, response, _⟩ => some (s.setCall i ⟨addr, response, .done⟩)
    | none => none
  | .answer c =>
    match s.conn c with
    | some k => some (s.setConn c k.answered)
    | none => none
  | .sweep addr => some (s.removeOutboundConnection addr)
  | .reset => some { s with pool := fun _ => none }
  | .register addr =>
    match s.pool addr with
    | some _ => some s
    | none => some (s.pooled addr)

end Exchanges

/-! ### What is asked of the steps, and what they do -/

/-- A failed exchange has left something on the stream, and its caller has not removed the connection yet. -/
def Exposed (s : Exchanges κ) (c : ℕ) : Prop :=
  (∃ i < s.calls, ∃ call ∈ s.call i, call.stage.failedOn = some c) ∧ ∃ k ∈ s.conn c, ¬ k.Clean

/-- Nobody waits for the lock of the connection. -/
def Unawaited (s : Exchanges κ) (c : ℕ) : Prop :=
  ∀ i < s.calls, ∀ call ∈ s.call i, call.stage.waitsFor ≠ some c

instance (s : Exchanges κ) (c : ℕ) : Decidable (Exposed s c) := inferInstanceAs (Decidable (_ ∧ _))

instance (s : Exchanges κ) (c : ℕ) : Decidable (Unawaited s c) := inferInstanceAs (Decidable (∀ i < s.calls, _))

/-- Nobody has a removal under the address to do. -/
def Unpending (s : Exchanges κ) (addr : κ) : Prop :=
  ∀ i < s.calls, ∀ call ∈ s.call i, call.addr = addr → call.stage.removes = none

instance [DecidableEq κ] (s : Exchanges κ) (addr : κ) : Decidable (Unpending s addr) :=
  inferInstanceAs (Decidable (∀ i < s.calls, _))

/-- The pool has no connection under the address but, perhaps, this one. -/
def Unreplaced (s : Exchanges κ) (addr : κ) (c : ℕ) : Prop := ∀ c' ∈ s.pool addr, c' = c

instance (s : Exchanges κ) (addr : κ) (c : ℕ) : Decidable (Unreplaced s addr c) :=
  inferInstanceAs (Decidable (∀ c' ∈ s.pool addr, _))

/-- What is spoilt by a failed exchange is removed before another call can lock it, and what is to be removed is not
replaced before that. -/
def Timely (s : Exchanges κ) : Action κ → Prop
  | .look i => ∀ call ∈ s.call i, ∀ c ∈ s.pool call.addr, ¬ Exposed s c
  | .dial i ok => ok = true → ∀ call ∈ s.call i,
      (∀ c ∈ s.pool call.addr, ¬ Exposed s c) ∧ (s.pool call.addr = none → Unpending s call.addr)
  | .register addr => s.pool addr = none → Unpending s addr
  | .lock i _ => ∀ call ∈ s.call i, ∀ c ∈ call.stage.waitsFor, ∀ k ∈ s.conn c, k.armed = true →
      Unreplaced s call.addr c
  | .writeFails i left => ∀ call ∈ s.call i, ∀ c ∈ call.stage.writesOn, Unreplaced s call.addr c ∧
      ∀ k ∈ s.conn c, (k.written ⟨i, call.stage.attempt⟩ call.response left).Clean ∨ Unawaited s c
  | .readFails i left => ∀ call ∈ s.call i, ∀ c ∈ call.stage.readsFrom, Unreplaced s call.addr c ∧
      ∀ k ∈ s.conn c, (k.consumed left).Clean ∨ Unawaited s c
  | .cancel i _ => ∀ call ∈ s.call i, ∀ c ∈ call.stage.failedOn, s.pool call.addr = some c → ¬ Exposed s c
  | _ => True

/-- An exchange begins with nothing under way on its connection. -/
def CleanStart (s : Exchanges κ) : Action κ → Prop
  | .lock i _ => ∀ call ∈ s.call i, ∀ c ∈ call.stage.waitsFor, ∀ k ∈ s.conn c, k.Idle → k.Clean
  | _ => True

/-- A response that is read answers the request of its reader. -/
def OwnAnswer (s : Exchanges κ) : Action κ → Prop
  | .read i => ∀ call ∈ s.call i, ∀ c ∈ call.stage.readsFrom, ∀ k ∈ s.conn c, ∀ r ∈ k.inbox.head?,
      r = ⟨i, call.stage.attempt⟩
  | _ => True

/-- A removal by address does not hit another connection in its first use. -/
def KeepsNewer (s : Exchanges κ) : Action κ → Prop
  | .remove i => ∀ call ∈ s.call i, ∀ c ∈ call.stage.removes, ∀ c' ∈ s.pool call.addr, c' ≠ c →
      ∀ k ∈ s.conn c', ¬ k.InFirstUse
  | _ => True

/-! ### The invariant -/

/-- What a call knows of the connection that it has a handle of. -/
def StageOk (i : ℕ) : Stage → Connection κ → Prop
  | .waiting _ _, k => k.Idle → k.Clean
  | .writing _ _, k => k.holder = some i ∧ k.armed = true ∧ k.Clean
  | .reading n _, k => k.holder = some i ∧ k.armed = true ∧ k.torn = false ∧ k.inbox ++ k.asked = [⟨i, n⟩]
  | _, _ => True

def CallOk (s : Exchanges κ) (i : ℕ) (call : Call κ) : Prop :=
  ∀ c, call.stage.conn = some c → ∃ k, s.conn c = some k ∧ k.addr = call.addr ∧ StageOk i call.stage k

structure Inv (s : Exchanges κ) : Prop where
  known : ∀ i call, s.call i = some call → i < s.calls
  calls : ∀ i call, s.call i = some call → CallOk s i call
  fresh : ∀ c k, s.conn c = some k → c < s.conns
  pool : ∀ addr c, s.pool addr = some c → ∃ k, s.conn c = some k ∧ k.addr = addr ∧
    (k.Idle → k.Clean ∨ ∃ i call, s.call i = some call ∧ call.stage.failedOn = some c)
  removal : ∀ i call, s.call i = some call → ∀ c, call.stage.removes = some c → Unreplaced s call.addr c

theorem Inv.empty : Inv (.empty : Exchanges κ) where
  known _ _ h := nomatch h
  calls _ _ h := nomatch h
  fresh _ _ h := nomatch h
  pool _ _ h := nomatch h
  removal _ _ h := nomatch h

section Steps

variable {s : Exchanges κ} {i j c c' : ℕ} {call call' found : Call κ} {k k' k₁ : Connection κ}

theorem call_setCall_self : (s.setCall i call).call i = some call := Function.update_self ..

theorem call_setCall_of_ne (h : j ≠ i) : (s.setCall i call).call j = s.call j := Function.update_of_ne h ..

theorem conn_setConn_self : (s.setConn c k).conn c = some k := Function.update_self ..

theorem conn_setConn_of_ne (h : c' ≠ c) : (s.setConn c k).conn c' = s.conn c' := Function.update_of_ne h ..

/-- After a step of a call, a call is that one or as it was. -/
theorem call_setCall (h : (s.setCall i call').call j = some found) :
    j = i ∧ call' = found ∨ j ≠ i ∧ s.call j = some found := by
  by_cases hji : j = i
  · rw [hji, call_setCall_self, Option.some.injEq] at h
    exact .inl ⟨hji, h⟩
  · exact .inr ⟨hji, (call_setCall_of_ne hji).symm.trans h⟩

theorem conn_setConn (h : (s.setConn c k').conn c' = some k₁) :
    c' = c ∧ k' = k₁ ∨ c' ≠ c ∧ s.conn c' = some k₁ := by
  by_cases hcc : c' = c
  · rw [hcc, conn_setConn_self, Option.some.injEq] at h
    exact .inl ⟨hcc, h⟩
  · exact .inr ⟨hcc, (conn_setConn_of_ne hcc).symm.trans h⟩

/-- The call goes on; nothing else changes. -/
theorem Inv.setCall (h : Inv s) (hi : i < s.calls) (hok : CallOk s i call')
    (hremoves : ∀ c, call'.stage.removes = some c → Unreplaced s call'.addr c)
    (hfailed : ∀ addr c, s.pool addr = some c → ∀ call, s.call i = some call → call.stage.failedOn = some c →
      ∀ k, s.conn c = some k → k.Clean) : Inv (s.setCall i call') where
  known j other hj := by
    rcases call_setCall hj with ⟨rfl, -⟩ | ⟨-, hold⟩
    · exact hi
    · exact h.known j other hold
  calls j other hj := by
    rcases call_setCall hj with ⟨rfl, rfl⟩ | ⟨-, hold⟩
    · exact hok
    · exact h.calls j other hold
  fresh := h.fresh
  pool addr c hc := by
    obtain ⟨k, hk, haddr, hidle⟩ := h.pool addr c hc
    refine ⟨k, hk, haddr, fun hid => ?_⟩
    rcases hidle hid with hclean | ⟨j, other, hj, hfail⟩
    · exact .inl hclean
    · by_cases hji : j = i
      · subst hji
        exact .inl (hfailed addr c hc other hj hfail k hk)
      · exact .inr ⟨j, other, (call_setCall_of_ne hji).trans hj, hfail⟩
  removal j other hj := by
    rcases call_setCall hj with ⟨-, rfl⟩ | ⟨-, hold⟩
    · exact hremoves
    · exact h.removal j other hold

/-- A call that has not failed goes on. -/
theorem Inv.goesOn (h : Inv s) (hcall : s.call i = some call) (hstage : call.stage.failedOn = none)
    (hok : CallOk s i call') (hremoves : ∀ c, call'.stage.removes = some c → Unreplaced s call'.addr c) :
    Inv (s.setCall i call') := by
  refine h.setCall (h.known i call hcall) hok hremoves fun addr c _ other hother hfail => ?_
  rw [hcall, Option.some.injEq] at hother
  rw [← hother, hstage] at hfail
  cases hfail

/-- What the others know of a connection outlives a step of its user. -/
theorem StageOk.kept {stage : Stage} (h : StageOk j stage k) (hji : j ≠ i)
    (hfree : ∀ j, k.holder = some j → j = i) (hwait : stage.waitsFor = stage.conn → k'.Idle → k'.Clean) :
    StageOk j stage k' := by
  cases stage with
  | waiting n c => exact hwait rfl
  | writing n c => exact absurd (hfree j h.1) hji
  | reading n c => exact absurd (hfree j h.1) hji
  | _ => trivial

/-- The user of a connection takes a step on it. -/
theorem Inv.useConn (h : Inv s) (hcall : s.call i = some call) (hstage : call.stage.failedOn = none)
    (hk : s.conn c = some k) (haddr : k.addr = call.addr) (haddr' : k'.addr = k.addr) (hsame : call'.addr = call.addr)
    (hfree : ∀ j, k.holder = some j → j = i) (hconn : ∀ c', call'.stage.conn = some c' → c' = c)
    (hok : StageOk i call'.stage k') (hwait : (k'.Idle → k'.Clean) ∨ Unawaited s c)
    (hpool : k'.Idle → k'.Clean ∨ call'.stage.failedOn = some c)
    (hremoves : ∀ c, call'.stage.removes = some c → Unreplaced s call'.addr c) :
    Inv ((s.setConn c k').setCall i call') where
  known j other hj := by
    rcases call_setCall hj with ⟨rfl, -⟩ | ⟨-, hold⟩
    · exact h.known _ call hcall
    · exact h.known j other hold
  calls j other hj c' hc' := by
    rcases call_setCall hj with ⟨rfl, rfl⟩ | ⟨hji, hold⟩
    · obtain rfl := hconn c' hc'
      exact ⟨k', conn_setConn_self, (haddr'.trans haddr).trans hsame.symm, hok⟩
    · obtain ⟨k₁, hk₁, haddr₁, hok₁⟩ := h.calls j other hold c' hc'
      by_cases hcc : c' = c
      · subst hcc
        obtain rfl : k = k₁ := Option.some.inj (hk.symm.trans hk₁)
        refine ⟨k', conn_setConn_self, haddr'.trans haddr₁, StageOk.kept hok₁ hji hfree fun hwaits => ?_⟩
        exact hwait.resolve_right fun hnone => hnone j (h.known j other hold) other hold (hwaits.trans hc')
      · exact ⟨k₁, (conn_setConn_of_ne hcc).trans hk₁, haddr₁, hok₁⟩
  fresh c' k₁ hk₁ := by
    rcases conn_setConn hk₁ with ⟨rfl, -⟩ | ⟨-, hold⟩
    · exact h.fresh _ k hk
    · exact h.fresh c' k₁ hold
  pool addr c' hc' := by
    obtain ⟨k₁, hk₁, haddr₁, hidle⟩ := h.pool addr c' hc'
    by_cases hcc : c' = c
    · subst hcc
      obtain rfl : k = k₁ := Option.some.inj (hk.symm.trans hk₁)
      exact ⟨k', conn_setConn_self, haddr'.trans haddr₁,
        fun hid => (hpool hid).imp_right fun hfail => ⟨i, call', call_setCall_self, hfail⟩⟩
    · refine ⟨k₁, (conn_setConn_of_ne hcc).trans hk₁, haddr₁, fun hid => (hidle hid).imp_right ?_⟩
      rintro ⟨j, other, hj, hfail⟩
      have hji : j ≠ i := by
        rintro rfl
        rw [hcall, Option.some.injEq] at hj
        rw [← hj, hstage] at hfail
        cases hfail
      exact ⟨j, other, (call_setCall_of_ne hji).trans hj, hfail⟩
  removal j other hj := by
    rcases call_setCall hj with ⟨-, rfl⟩ | ⟨-, hold⟩
    · exact hremoves
    · exact h.removal j other hold

/-- What the pool loses it does not keep. -/
theorem Inv.shrink (h : Inv s) {pool : κ → Option ℕ} (hsub : ∀ addr c, pool addr = some c → s.pool addr = some c) :
    Inv { s with pool } :=
  ⟨h.known, h.calls, h.fresh, fun addr c hc => h.pool addr c (hsub addr c hc),
    fun i call hcall c hc c' hc' => h.removal i call hcall c hc c' (hsub _ _ hc')⟩

/-- The peer answers the oldest request of a connection. -/
theorem Inv.answered (h : Inv s) (hk : s.conn c = some k) : Inv (s.setConn c k.answered) := by
  have hsame : k.answered.addr = k.addr ∧ k.answered.holder = k.holder ∧ k.answered.armed = k.armed ∧
      k.answered.torn = k.torn ∧ k.answered.inbox ++ k.answered.asked = k.inbox ++ k.asked := by
    unfold Connection.answered
    cases hasked : k.asked <;> simp [hasked]
  obtain ⟨haddr, hholder, harmed, htorn, hunder⟩ := hsame
  have hidle : k.answered.Idle → k.Idle := fun hid => ⟨hholder ▸ hid.free, harmed ▸ hid.disarmed⟩
  have hclean : k.Clean → k.answered.Clean := fun hcl => ⟨hunder.trans hcl.settled, htorn.trans hcl.whole⟩
  have hstage : ∀ {j stage}, StageOk j stage k → StageOk j stage k.answered := by
    intro j stage hok
    cases stage with
    | waiting n c => exact fun hid => hclean (hok (hidle hid))
    | writing n c => exact ⟨hholder.trans hok.1, harmed.trans hok.2.1, hclean hok.2.2⟩
    | reading n c =>
      exact ⟨hholder.trans hok.1, harmed.trans hok.2.1, htorn.trans hok.2.2.1, hunder.trans hok.2.2.2⟩
    | _ => trivial
  refine ⟨h.known, fun j other hj c' hc' => ?_, fun c' k₁ hk₁ => ?_, fun addr c' hc' => ?_, h.removal⟩
  · obtain ⟨k₁, hk₁, haddr₁, hok₁⟩ := h.calls j other hj c' hc'
    by_cases hcc : c' = c
    · subst hcc
      obtain rfl : k = k₁ := Option.some.inj (hk.symm.trans hk₁)
      exact ⟨_, conn_setConn_self, haddr.trans haddr₁, hstage hok₁⟩
    · exact ⟨k₁, (conn_setConn_of_ne hcc).trans hk₁, haddr₁, hok₁⟩
  · rcases conn_setConn hk₁ with ⟨rfl, -⟩ | ⟨-, hold⟩
    · exact h.fresh _ k hk
    · exact h.fresh c' k₁ hold
  · obtain ⟨k₁, hk₁, haddr₁, hidle₁⟩ := h.pool addr c' hc'
    by_cases hcc : c' = c
    · subst hcc
      obtain rfl : k = k₁ := Option.some.inj (hk.symm.trans hk₁)
      exact ⟨_, conn_setConn_self, haddr.trans haddr₁, fun hid => (hidle₁ (hidle hid)).imp_left hclean⟩
    · exact ⟨k₁, (conn_setConn_of_ne hcc).trans hk₁, haddr₁, hidle₁⟩

theorem Inv.send (h : Inv s) (addr : κ) (response : Bool) :
    Inv { s.setCall s.calls ⟨addr, response, .starting 0⟩ with calls := s.calls + 1 } where
  known j other hj := by
    rcases call_setCall hj with ⟨rfl, -⟩ | ⟨-, hold⟩
    · exact Nat.lt_succ_self _
    · exact (h.known j other hold).trans (Nat.lt_succ_self _)
  calls j other hj := by
    rcases call_setCall hj with ⟨-, rfl⟩ | ⟨-, hold⟩
    · exact fun c hc => nomatch hc
    · exact h.calls j other hold
  fresh := h.fresh
  pool addr' c hc := by
    obtain ⟨k, hk, haddr, hidle⟩ := h.pool addr' c hc
    refine ⟨k, hk, haddr, fun hid => (hidle hid).imp_right ?_⟩
    rintro ⟨j, other, hj, hfail⟩
    exact ⟨j, other, (call_setCall_of_ne (h.known j other hj).ne).trans hj, hfail⟩
  removal j other hj := by
    rcases call_setCall hj with ⟨-, rfl⟩ | ⟨-, hold⟩
    · exact fun c hc => nomatch hc
    · exact h.removal j other hold

/-- What a call takes from the pool is clean, or in use. -/
theorem Inv.taken (h : Inv s) {addr : κ} (hc : s.pool addr = some c) (hexposed : ¬ Exposed s c) :
    ∃ k, s.conn c = some k ∧ k.addr = addr ∧ (k.Idle → k.Clean) := by
  obtain ⟨k, hk, haddr, hidle⟩ := h.pool addr c hc
  refine ⟨k, hk, haddr, fun hid => by_contra fun hdirty => ?_⟩
  rcases hidle hid with hclean | ⟨j, other, hj, hfail⟩
  · exact hdirty hclean
  · exact hexposed ⟨⟨j, h.known j other hj, other, hj, hfail⟩, k, hk, hdirty⟩

theorem CallOk.of_none (hconn : call.stage.conn = none) : CallOk s i call := by
  intro c hc
  rw [hconn] at hc
  cases hc

theorem Stage.conn_of_removes {stage : Stage} (h : stage.removes = some c) : stage.conn = some c := by
  cases stage with
  | failed n c' => exact h
  | discarding n c' => exact h
  | _ => cases h

theorem Stage.removes_of_failedOn {stage : Stage} (h : stage.failedOn = some c) : stage.removes = some c := by
  cases stage with
  | failed n c' => exact h
  | _ => cases h

theorem not_removing (hconn : call.stage.conn = none) (c : ℕ) (hc : call.stage.removes = some c) :
    Unreplaced s call.addr c := by
  rw [Stage.conn_of_removes hc] at hconn
  cases hconn

theorem CallOk.of_waiting {addr : κ} {response : Bool} {n : ℕ} (hk : s.conn c = some k) (haddr : k.addr = addr)
    (hidle : k.Idle → k.Clean) : CallOk s i ⟨addr, response, .waiting n c⟩ := by
  intro c' hc'
  obtain rfl : c = c' := Option.some.inj hc'
  exact ⟨k, hk, haddr, hidle⟩

theorem conn_nextAttempt (n : ℕ) : (nextAttempt n).conn = none := by
  unfold nextAttempt
  split_ifs <;> rfl

theorem Connection.written_same (k : Connection κ) (r : Request) (response : Bool) (left : Left) :
    (k.written r response left).addr = k.addr ∧ (k.written r response left).armed = k.armed := by
  cases left with
  | nothing => exact ⟨rfl, rfl⟩
  | part => exact ⟨rfl, rfl⟩
  | whole =>
    rw [Connection.written, Connection.delivered]
    split_ifs <;> exact ⟨rfl, rfl⟩

theorem Connection.consumed_same (k : Connection κ) (left : Left) :
    (k.consumed left).addr = k.addr ∧ (k.consumed left).armed = k.armed := by
  cases left <;> exact ⟨rfl, rfl⟩

/-- The user of a connection is the only one. -/
theorem only_user (hholder : k.holder = some i) (j : ℕ) (hj : k.holder = some j) : j = i :=
  Option.some.inj (hj.symm.trans hholder)

theorem Inv.locked (h : Inv s) {addr : κ} {response refused : Bool} {n : ℕ}
    (hcall : s.call i = some ⟨addr, response, .waiting n c⟩) (hk : s.conn c = some k) (hfree : k.holder = none)
    (hreplaced : k.armed = true → Unreplaced s addr c) :
    Inv (s.locked i n c ⟨addr, response, .waiting n c⟩ k refused) := by
  obtain ⟨k₁, hk₁, haddr, hidle⟩ := h.calls i _ hcall c rfl
  obtain rfl : k = k₁ := Option.some.inj (hk.symm.trans hk₁)
  unfold Exchanges.locked
  split_ifs with harmed hrefused
  · refine h.goesOn hcall rfl (fun c' hc' => ?_) fun c' hc' => ?_
    · obtain rfl : c = c' := Option.some.inj hc'
      exact ⟨k, hk, haddr, trivial⟩
    · obtain rfl : c = c' := Option.some.inj hc'
      exact hreplaced harmed
  · exact h.goesOn hcall rfl (.of_none rfl) fun c' hc' => nomatch hc'
  · have hclean : k.Clean := hidle ⟨hfree, Bool.eq_false_of_not_eq_true harmed⟩
    have hbusy : ¬ (k.arm i).Idle := fun hid => nomatch hid.free
    refine h.useConn hcall rfl hk haddr rfl rfl ?_ (fun c' hc' => (Option.some.inj hc').symm)
      ⟨rfl, rfl, hclean.settled, hclean.whole⟩ (.inl fun hid => absurd hid hbusy) (fun hid => absurd hid hbusy)
      fun c' hc' => nomatch hc'
    intro j hj
    rw [hfree] at hj
    cases hj

theorem Inv.write (h : Inv s) {addr : κ} {n : ℕ} (hcall : s.call i = some ⟨addr, true, .writing n c⟩)
    (hk : s.conn c = some k) :
    Inv ((s.setConn c (k.delivered ⟨i, n⟩ true)).setCall i ⟨addr, true, .reading n c⟩) := by
  obtain ⟨k₁, hk₁, haddr, hholder, harmed, hclean⟩ := h.calls i _ hcall c rfl
  obtain rfl : k = k₁ := Option.some.inj (hk.symm.trans hk₁)
  have hdelivered : k.delivered ⟨i, n⟩ true = { k with asked := k.asked ++ [⟨i, n⟩] } := by
    rw [Connection.delivered, if_pos ⟨rfl, hclean.whole⟩]
  have hbusy : ¬ (k.delivered ⟨i, n⟩ true).Idle := by
    rw [hdelivered]
    intro hid
    have := hid.free
    dsimp only at this
    rw [hholder] at this
    cases this
  refine h.useConn hcall rfl hk haddr (by rw [hdelivered]) rfl (only_user hholder)
    (fun c' hc' => (Option.some.inj hc').symm) ?_ (.inl fun hid => absurd hid hbusy) (fun hid => absurd hid hbusy)
    fun c' hc' => nomatch hc'
  rw [hdelivered]
  refine ⟨hholder, harmed, hclean.whole, ?_⟩
  show k.inbox ++ (k.asked ++ [⟨i, n⟩]) = [⟨i, n⟩]
  rw [← List.append_assoc, hclean.settled, List.nil_append]

/-- An exchange ends, and the connection is free again. -/
theorem Inv.ends (h : Inv s) {n : ℕ} (hcall : s.call i = some call) (hstage : call.stage.failedOn = none)
    (hk : s.conn c = some k) (haddr : k.addr = call.addr) (hholder : k.holder = some i) (haddr' : k'.addr = k.addr)
    {stage : Stage} (hend : stage = .done ∧ k'.Clean ∨
      stage = .failed n c ∧ Unreplaced s call.addr c ∧ (k'.Clean ∨ Unawaited s c)) :
    Inv ((s.setConn c k'.disarm).setCall i { call with stage }) := by
  have hclean : k'.Clean → k'.disarm.Clean := fun hcl => ⟨hcl.settled, hcl.whole⟩
  rcases hend with ⟨rfl, hdone⟩ | ⟨rfl, hreplaced, hfailed⟩
  · exact h.useConn hcall hstage hk haddr haddr' rfl (only_user hholder) (fun c' hc' => nomatch hc') trivial
      (.inl fun _ => hclean hdone) (fun _ => .inl (hclean hdone)) fun c' hc' => nomatch hc'
  · refine h.useConn hcall hstage hk haddr haddr' rfl (only_user hholder)
      (fun c' hc' => (Option.some.inj hc').symm) trivial (hfailed.imp_left fun hcl _ => hclean hcl)
      (fun _ => .inr rfl) fun c' hc' => ?_
    obtain rfl : c = c' := Option.some.inj hc'
    exact hreplaced

/-- An exchange is dropped in the middle, and the connection stays armed. -/
theorem Inv.dropped (h : Inv s) (hcall : s.call i = some call) (hstage : call.stage.failedOn = none)
    (hk : s.conn c = some k) (haddr : k.addr = call.addr) (hholder : k.holder = some i) (haddr' : k'.addr = k.addr)
    (harmed : k'.armed = true) : Inv ((s.setConn c k'.abandon).setCall i { call with stage := .done }) := by
  have hbusy : ¬ k'.abandon.Idle := fun hid => nomatch harmed.symm.trans hid.disarmed
  exact h.useConn hcall hstage hk haddr haddr' rfl (only_user hholder) (fun c' hc' => nomatch hc') trivial
    (.inl fun hid => absurd hid hbusy) (fun hid => absurd hid hbusy) fun c' hc' => nomatch hc'

/-- A failed call removes what the pool has under its address, or is dropped where that does no harm. -/
theorem Inv.gives_up (h : Inv s) (hcall : s.call i = some call) (hconn : call'.stage.conn = none)
    (hremoved : ∀ c, call.stage.failedOn = some c → s.pool call.addr = some c → ¬ Exposed s c) :
    Inv (s.setCall i call') := by
  refine h.setCall (h.known i call hcall) (.of_none hconn) (not_removing hconn)
    fun addr c hc other hother hfail k hk => ?_
  obtain rfl : call = other := Option.some.inj (hcall.symm.trans hother)
  obtain ⟨k₁, hk₁, haddr₁, -⟩ := h.calls i call hcall c (Stage.conn_of_removes (Stage.removes_of_failedOn hfail))
  obtain ⟨k₂, hk₂, haddr₂, -⟩ := h.pool addr c hc
  obtain rfl : k₁ = k₂ := Option.some.inj (hk₁.symm.trans hk₂)
  have hpool : s.pool call.addr = some c := by rwa [← haddr₁, haddr₂]
  by_contra hdirty
  exact hremoved c hfail hpool ⟨⟨i, h.known i call hcall, call, hcall, hfail⟩, k, hk, hdirty⟩

variable [DecidableEq κ]

theorem pool_removeOutboundConnection (addr : κ) : (s.removeOutboundConnection addr).pool addr = none :=
  Function.update_self ..

theorem Inv.removeOutboundConnection (h : Inv s) (addr : κ) : Inv (s.removeOutboundConnection addr) := by
  refine h.shrink fun addr' c hc => ?_
  by_cases haddr : addr' = addr
  · rw [haddr, Function.update_self] at hc
    cases hc
  · rwa [Function.update_of_ne haddr] at hc

theorem conn_pooled_self (addr : κ) : (s.pooled addr).conn s.conns = some (.dialed addr) := Function.update_self ..

theorem conn_pooled (addr : κ) (h : (s.pooled addr).conn c = some k) : c = s.conns ∨ s.conn c = some k := by
  by_cases hc : c = s.conns
  · exact .inl hc
  · exact .inr ((Function.update_of_ne hc ..).symm.trans h)

theorem pool_pooled {addr addr' : κ} (h : (s.pooled addr).pool addr' = some c) :
    addr' = addr ∧ c = s.conns ∨ addr' ≠ addr ∧ s.pool addr' = some c := by
  by_cases haddr : addr' = addr
  · subst haddr
    exact .inl ⟨rfl, Option.some.inj (h.symm.trans (Function.update_self ..))⟩
  · exact .inr ⟨haddr, (Function.update_of_ne haddr ..).symm.trans h⟩

/-- A new connection enters the pool. -/
theorem Inv.pooled (h : Inv s) {addr : κ} (hpending : Unpending s addr) : Inv (s.pooled addr) := by
  have hold : ∀ c k, s.conn c = some k → (s.pooled addr).conn c = some k := fun c k hk =>
    (Function.update_of_ne (h.fresh c k hk).ne ..).trans hk
  refine ⟨h.known, fun i call hcall c hc => ?_, fun c k hk => ?_, fun addr' c hc => ?_,
    fun i call hcall c hc c' hc' => ?_⟩
  · obtain ⟨k, hk, hrest⟩ := h.calls i call hcall c hc
    exact ⟨k, hold c k hk, hrest⟩
  · rcases conn_pooled addr hk with rfl | hk
    · exact Nat.lt_succ_self _
    · exact (h.fresh c k hk).trans (Nat.lt_succ_self _)
  · rcases pool_pooled hc with ⟨rfl, rfl⟩ | ⟨-, hc⟩
    · exact ⟨_, conn_pooled_self addr', rfl, fun _ => .inl ⟨rfl, rfl⟩⟩
    · obtain ⟨k, hk, hrest⟩ := h.pool addr' c hc
      exact ⟨k, hold c k hk, hrest⟩
  · rcases pool_pooled hc' with ⟨haddr, -⟩ | ⟨-, hc'⟩
    · rw [hpending i (h.known i call hcall) call hcall haddr] at hc
      cases hc
    · exact h.removal i call hcall c hc c' hc'

/-- A timely step keeps the invariant. -/
theorem Inv.step {t : Exchanges κ} {a : Action κ} (h : Inv s) (ht : Timely s a) (hstep : s.step a = some t) :
    Inv t := by
  cases a with
  | send addr response =>
    obtain rfl := Option.some.inj hstep
    exact h.send addr response
  | refuse i =>
    simp only [Exchanges.step] at hstep
    split at hstep
    next addr response n hcall =>
      obtain rfl := Option.some.inj hstep
      exact h.goesOn hcall rfl (.of_none rfl) (not_removing rfl)
    next => cases hstep
  | look i =>
    simp only [Exchanges.step] at hstep
    split at hstep
    next addr response n hcall =>
      split at hstep
      next c hc =>
        obtain rfl := Option.some.inj hstep
        obtain ⟨k, hk, haddr, hidle⟩ := h.taken hc (ht _ hcall c hc)
        exact h.goesOn hcall rfl (.of_waiting hk haddr hidle) fun c' hc' => nomatch hc'
      next =>
        obtain rfl := Option.some.inj hstep
        exact h.goesOn hcall rfl (.of_none rfl) (not_removing rfl)
    next => cases hstep
  | dial i ok =>
    simp only [Exchanges.step] at hstep
    split at hstep
    next addr response n hcall =>
      split_ifs at hstep with hok
      · subst hok
        split at hstep
        next c hc =>
          obtain rfl := Option.some.inj hstep
          obtain ⟨k, hk, haddr, hidle⟩ := h.taken hc ((ht rfl _ hcall).1 c hc)
          exact h.goesOn hcall rfl (.of_waiting hk haddr hidle) fun c' hc' => nomatch hc'
        next hnone =>
          obtain rfl := Option.some.inj hstep
          exact (h.pooled ((ht rfl _ hcall).2 hnone)).goesOn hcall rfl
            (.of_waiting (Function.update_self ..) rfl fun _ => ⟨rfl, rfl⟩) fun c' hc' => nomatch hc'
      · obtain rfl := Option.some.inj hstep
        exact h.goesOn hcall rfl (.of_none (conn_nextAttempt n)) (not_removing (conn_nextAttempt n))
    next => cases hstep
  | lock i refused =>
    simp only [Exchanges.step] at hstep
    split at hstep
    next addr response n c hcall =>
      split at hstep
      next k hk =>
        split_ifs at hstep with hfree
        obtain rfl := Option.some.inj hstep
        exact h.locked hcall hk hfree (ht _ hcall c rfl k hk)
      next => cases hstep
    next => cases hstep
  | write i =>
    simp only [Exchanges.step] at hstep
    split at hstep
    next addr response n c hcall =>
      split at hstep
      next k hk =>
        split_ifs at hstep with hresponse
        · obtain rfl := Option.some.inj hstep
          subst hresponse
          exact h.write hcall hk
        · obtain rfl := Option.some.inj hstep
          obtain ⟨k₁, hk₁, haddr, hholder, -, hclean⟩ := h.calls i _ hcall c rfl
          obtain rfl : k = k₁ := Option.some.inj (hk.symm.trans hk₁)
          exact h.ends hcall rfl hk haddr hholder rfl (n := n) (.inl ⟨rfl, hclean⟩)
      next => cases hstep
    next => cases hstep
  | writeFails i left =>
    simp only [Exchanges.step] at hstep
    split at hstep
    next addr response n c hcall =>
      split at hstep
      next k hk =>
        obtain rfl := Option.some.inj hstep
        obtain ⟨k₁, hk₁, haddr, hholder, -⟩ := h.calls i _ hcall c rfl
        obtain rfl : k = k₁ := Option.some.inj (hk.symm.trans hk₁)
        obtain ⟨hreplaced, hleft⟩ := ht _ hcall c rfl
        exact h.ends hcall rfl hk haddr hholder (k.written_same _ response left).1
          (.inr ⟨rfl, hreplaced, hleft k hk⟩)
      next => cases hstep
    next => cases hstep
  | read i =>
    simp only [Exchanges.step] at hstep
    split at hstep
    next addr response n c hcall =>
      split at hstep
      next k hk =>
        split_ifs at hstep with hready
        obtain rfl := Option.some.inj hstep
        obtain ⟨k₁, hk₁, haddr, hholder, -, hwhole, hunder⟩ := h.calls i _ hcall c rfl
        obtain rfl : k = k₁ := Option.some.inj (hk.symm.trans hk₁)
        have hclean : (k.consumed .whole).Clean := by
          refine ⟨?_, hwhole⟩
          obtain ⟨r, rest, hinbox⟩ := List.exists_cons_of_ne_nil hready.2
          rw [hinbox, List.cons_append, List.cons.injEq] at hunder
          show k.inbox.tail ++ k.asked = []
          rw [hinbox]
          exact hunder.2
        exact h.ends hcall rfl hk haddr hholder (k.consumed_same .whole).1 (n := n) (.inl ⟨rfl, hclean⟩)
      next => cases hstep
    next => cases hstep
  | readFails i left =>
    simp only [Exchanges.step] at hstep
    split at hstep
    next addr response n c hcall =>
      split at hstep
      next k hk =>
        obtain rfl := Option.some.inj hstep
        obtain ⟨k₁, hk₁, haddr, hholder, -⟩ := h.calls i _ hcall c rfl
        obtain rfl : k = k₁ := Option.some.inj (hk.symm.trans hk₁)
        obtain ⟨hreplaced, hleft⟩ := ht _ hcall c rfl
        exact h.ends hcall rfl hk haddr hholder (k.consumed_same left).1 (.inr ⟨rfl, hreplaced, hleft k hk⟩)
      next => cases hstep
    next => cases hstep
  | remove i =>
    simp only [Exchanges.step] at hstep
    split at hstep
    next addr response n c hcall =>
      obtain rfl := Option.some.inj hstep
      refine (h.removeOutboundConnection addr).gives_up hcall (conn_nextAttempt n) fun c _ hc => ?_
      rw [pool_removeOutboundConnection] at hc
      cases hc
    next addr response n c hcall =>
      obtain rfl := Option.some.inj hstep
      exact (h.removeOutboundConnection addr).goesOn hcall rfl (.of_none (conn_nextAttempt n))
        (not_removing (conn_nextAttempt n))
    next => cases hstep
  | cancel i left =>
    simp only [Exchanges.step] at hstep
    split at hstep
    next addr response n c hcall =>
      split at hstep
      next k hk =>
        obtain rfl := Option.some.inj hstep
        obtain ⟨k₁, hk₁, haddr, hholder, harmed, -⟩ := h.calls i _ hcall c rfl
        obtain rfl : k = k₁ := Option.some.inj (hk.symm.trans hk₁)
        obtain ⟨haddr', harmed'⟩ := k.written_same ⟨i, n⟩ response left
        exact h.dropped hcall rfl hk haddr hholder haddr' (harmed'.trans harmed)
      next => cases hstep
    next addr response n c hcall =>
      split at hstep
      next k hk =>
        obtain rfl := Option.some.inj hstep
        obtain ⟨k₁, hk₁, haddr, hholder, harmed, -⟩ := h.calls i _ hcall c rfl
        obtain rfl : k = k₁ := Option.some.inj (hk.symm.trans hk₁)
        obtain ⟨haddr', harmed'⟩ := k.consumed_same left
        exact h.dropped hcall rfl hk haddr hholder haddr' (harmed'.trans harmed)
      next => cases hstep
    next addr response stage _ _ hcall =>
      obtain rfl := Option.some.inj hstep
      exact h.gives_up hcall rfl (ht _ hcall)
    next => cases hstep
  | answer c =>
    simp only [Exchanges.step] at hstep
    split at hstep
    next k hk =>
      obtain rfl := Option.some.inj hstep
      exact h.answered hk
    next => cases hstep
  | sweep addr =>
    obtain rfl := Option.some.inj hstep
    exact h.removeOutboundConnection addr
  | reset =>
    obtain rfl := Option.some.inj hstep
    exact h.shrink fun _ _ hc => nomatch hc
  | register addr =>
    simp only [Exchanges.step] at hstep
    split at hstep
    next =>
      obtain rfl := Option.some.inj hstep
      exact h
    next hnone =>
      obtain rfl := Option.some.inj hstep
      exact h.pooled (ht hnone)

end Steps

/-! ### Responses belong to their requests -/

theorem Inv.cleanStart {s : Exchanges κ} (h : Inv s) (a : Action κ) : CleanStart s a := by
  cases a with
  | lock i refused =>
    intro call hcall c hc k hk hidle
    obtain ⟨addr, response, stage⟩ := call
    cases stage with
    | waiting n c' =>
      obtain rfl : c' = c := Option.some.inj hc
      obtain ⟨k₁, hk₁, -, hok⟩ := h.calls i _ hcall c' rfl
      obtain rfl : k = k₁ := Option.some.inj (hk.symm.trans hk₁)
      exact hok hidle
    | _ => cases hc
  | _ => trivial

theorem Inv.ownAnswer {s : Exchanges κ} (h : Inv s) (a : Action κ) : OwnAnswer s a := by
  cases a with
  | read i =>
    intro call hcall c hc k hk r hr
    obtain ⟨addr, response, stage⟩ := call
    cases stage with
    | reading n c' =>
      obtain rfl : c' = c := Option.some.inj hc
      obtain ⟨k₁, hk₁, -, -, -, -, hunder⟩ := h.calls i _ hcall c' rfl
      obtain rfl : k = k₁ := Option.some.inj (hk.symm.trans hk₁)
      obtain ⟨rest, hinbox⟩ := List.head?_eq_some_iff.mp hr
      rw [hinbox, List.cons_append, List.cons.injEq] at hunder
      exact hunder.1
    | _ => cases hc
  | _ => trivial

theorem Inv.keepsNewer {s : Exchanges κ} (h : Inv s) (a : Action κ) : KeepsNewer s a := by
  cases a with
  | remove i => exact fun call hcall c hc c' hc' hne => absurd (h.removal i call hcall c hc c' hc') hne
  | _ => trivial

/-- **Responses belong to their requests**: in a run of timely steps a call gets the answer to its own request on its
own connection, an exchange begins only where nothing is under way, and no removal hits a newer connection in its first
use. -/
theorem responses_belong [DecidableEq κ] {s : Exchanges κ} {tr : List (Exchanges κ × Action κ)}
    (hrun : Trace.Run (fun s a t => s.step a = some t) .empty tr s) (htimely : ∀ p ∈ tr, Timely p.1 p.2)
    (a : Action κ) : OwnAnswer s a ∧ CleanStart s a ∧ KeepsNewer s a := by
  have hinv : Inv s := hrun.invariant (C := Timely) (fun s a t h ht hst => h.step ht hst) .empty htimely
  exact ⟨hinv.ownAnswer a, hinv.cleanStart a, hinv.keepsNewer a⟩

/-! ### Runs -/

instance [DecidableEq κ] (s : Exchanges κ) : DecidablePred (Timely s)
  | .look i => inferInstanceAs (Decidable (∀ call ∈ s.call i, _))
  | .dial i ok => inferInstanceAs (Decidable (ok = true → ∀ call ∈ s.call i, _))
  | .register addr => inferInstanceAs (Decidable (s.pool addr = none → _))
  | .lock i _ => inferInstanceAs (Decidable (∀ call ∈ s.call i, _))
  | .writeFails i _ => inferInstanceAs (Decidable (∀ call ∈ s.call i, _))
  | .readFails i _ => inferInstanceAs (Decidable (∀ call ∈ s.call i, _))
  | .cancel i _ => inferInstanceAs (Decidable (∀ call ∈ s.call i, _))
  | .send _ _ | .refuse _ | .write _ | .read _ | .remove _ | .answer _ | .sweep _ | .reset => .isTrue trivial

/-- A call takes a connection that the pool has not, and writes its request. -/
def asks (i : ℕ) : List (Action ℕ) := [.look i, .dial i true, .lock i false, .write i]

/-- A call is dropped while it waits for its response, which comes late; a second one discards the connection, dials
again and has its answer; a message goes to another peer. -/
def lateAnswer : List (Action ℕ) :=
  .send 1 true :: asks 0 ++ ([.cancel 0 .nothing, .send 1 true, .look 1, .answer 0, .lock 1 false, .remove 1] :
    List (Action ℕ)) ++ asks 1 ++ .send 2 false :: asks 2 ++ [Action.answer 1]

/-- A third call to the first peer has waited for the lock, and its exchange breaks off. -/
def brokenOff : List (Action ℕ) :=
  [.send 1 true, .look 3, .read 1, .lock 3 false, .write 3, .readFails 3 .part]

theorem late_answer_discarded :
    ∃ r r', Trace.follow Exchanges.step .empty lateAnswer = some r ∧
      Trace.follow Exchanges.step .empty (lateAnswer ++ brokenOff) = some r' ∧
      (r.2.conn 1).map (·.inbox) = some [⟨1, 1⟩] ∧ OwnAnswer r.2 (.read 1) ∧
      r'.2.pool 1 = some 1 ∧ KeepsNewer r'.2 (.remove 3) := by
  have hlate : (Trace.follow Exchanges.step .empty lateAnswer).any (fun r =>
      r.1.all (fun p => decide (Timely p.1 p.2)) && decide ((r.2.conn 1).map (·.inbox) = some [⟨1, 1⟩])) = true := by
    decide +kernel
  have hbroken : (Trace.follow Exchanges.step .empty (lateAnswer ++ brokenOff)).any (fun r =>
      r.1.all (fun p => decide (Timely p.1 p.2)) && decide (r.2.pool 1 = some 1)) = true := by
    decide +kernel
  obtain ⟨r, hr, h⟩ := (Option.any_eq_true _ _).mp hlate
  obtain ⟨r', hr', h'⟩ := (Option.any_eq_true _ _).mp hbroken
  rw [Bool.and_eq_true, List.all_eq_true] at h h'
  obtain ⟨hown, -⟩ := responses_belong (Trace.run_follow hr) (fun p hp => of_decide_eq_true (h.1 p hp)) (.read 1)
  obtain ⟨-, -, hkeeps⟩ :=
    responses_belong (Trace.run_follow hr') (fun p hp => of_decide_eq_true (h'.1 p hp)) (.remove 3)
  exact ⟨r, r', hr, hr', of_decide_eq_true h.2, hown, of_decide_eq_true h'.2, hkeeps⟩

/-- The response to a call is overdue, and a second call takes the connection before it is removed. -/
def overdue : List (Action ℕ) :=
  .send 1 true :: asks 0 ++ ([.readFails 0 .nothing, .send 1 true, .look 1] : List (Action ℕ))

/-- It goes on, and reads what the peer answers. -/
def astray : List (Action ℕ) := overdue ++ ([.lock 1 false, .write 1, .answer 0] : List (Action ℕ))

/-- The pool is reset before the failed call comes to its removal, and a second call dials. -/
def replacedInUse : List (Action ℕ) :=
  .send 1 true :: asks 0 ++ ([.readFails 0 .nothing, .reset, .send 1 true] : List (Action ℕ)) ++ asks 1

/-- A second call locks a connection with a request under way on it and reads the answer to that; and a failed call
removes the fresh connection that another one uses. -/
theorem late_answer_goes_astray :
    (∃ r, Trace.follow Exchanges.step .empty overdue = some r ∧ (r.2.step (.lock 1 false)).isSome = true ∧
      ¬ CleanStart r.2 (.lock 1 false)) ∧
    (∃ r, Trace.follow Exchanges.step .empty astray = some r ∧ (r.2.step (.read 1)).isSome = true ∧
      ¬ OwnAnswer r.2 (.read 1)) ∧
    ∃ r, Trace.follow Exchanges.step .empty replacedInUse = some r ∧ (r.2.step (.remove 0)).isSome = true ∧
      ¬ KeepsNewer r.2 (.remove 0) := by
  refine ⟨⟨_, rfl, rfl, ?_⟩, ⟨_, rfl, rfl, ?_⟩, ⟨_, rfl, rfl, ?_⟩⟩
  · intro h
    have hclean := h ⟨1, true, .waiting 0 0⟩ rfl 0 rfl _ rfl ⟨rfl, rfl⟩
    exact absurd hclean.settled (by decide)
  · intro h
    exact absurd (h ⟨1, true, .reading 0 0⟩ rfl 0 rfl _ rfl ⟨0, 0⟩ rfl) (by decide)
  · intro h
    exact h ⟨1, true, .failed 0 0⟩ rfl 0 rfl 1 rfl (by decide) _ rfl ⟨rfl, rfl⟩

end PooledExchanges

end Alphanumeric
