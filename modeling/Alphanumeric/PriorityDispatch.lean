/-
# The priority dispatch gate

`PriorityDispatch` in `src/a9/outbound.rs` lets one frame of a peer at a time onto the wire. A call of `acquire` joins
the queue under the lock; then it enables its notification, checks whether it comes next, and sleeps until it is
notified or gives up. `notify_waiters` wakes whoever has enabled, and is not remembered. What drops a permit or a
queued registration first changes the state under the lock, and only then notifies.

Every lock section is a step, and so is every notification, in any interleaving of any number of calls. A call may be
cancelled, or expire, wherever it stands. The calls are listed in the order of their arrival.

Key definitions: `freeTicket`, `AcquireStage`, `PriorityGate`, `PriorityGate.step`, `Minimal`, `Sound`, `Goes`.
Key theorems: `Sound.minimal_iff`, `step_sound`, `step_goes`, `dispatch_gate`.
-/
import Alphanumeric.Lib.Tasks
import Alphanumeric.Outbound

namespace Alphanumeric

/-! ### Calls of acquire -/

inductive AcquireStage where
  /-- In the queue, at the head of the loop. -/
  | enqueued
  /-- Its notification is enabled. -/
  | enabled (notified : Bool)
  /-- It has checked in vain. -/
  | asleep (notified : Bool)
  /-- Its registration is off the queue, and nobody has been told. -/
  | leaving
  | holding
  /-- The gate is inactive again, and nobody has been told. -/
  | releasing
  | done
deriving DecidableEq, Repr

namespace AcquireStage

def queued : AcquireStage → Bool
  | enqueued | enabled _ | asleep _ => true
  | _ => false

/-- Between the lock section of a drop and its notification. -/
def dropping : AcquireStage → Bool
  | leaving | releasing => true
  | _ => false

/-- What `notify_waiters` does to it. -/
def notify : AcquireStage → AcquireStage
  | enabled _ => enabled true
  | asleep _ => asleep true
  | stage => stage

end AcquireStage

structure Acquire where
  ticket : ℕ
  priority : ℕ
  stage : AcquireStage
deriving DecidableEq, Repr

def Acquire.waiter (a : Acquire) : PriorityWaiter := ⟨a.ticket, a.priority⟩

/-- The gate, and the calls so far, in the order of arrival. -/
structure PriorityGate where
  state : PriorityState
  acquires : List Acquire
deriving DecidableEq, Repr

/-- The search for a ticket that no waiter has, which wraps around. -/
def freeTicket (waiters : List PriorityWaiter) : ℕ → ℕ → Option ℕ
  | 0, _ => none
  | fuel + 1, ticket =>
    if waiters.any (·.ticket = ticket) then freeTicket waiters fuel ((ticket + 1) % 2 ^ 64) else some ticket

def removeWaiter (waiters : List PriorityWaiter) (ticket : ℕ) : List PriorityWaiter :=
  waiters.eraseP (·.ticket = ticket)

inductive DispatchStep where
  | enqueue (trafficClass : TrafficClass)
  | enable (i : ℕ)
  | check (i : ℕ)
  | wake (i : ℕ)
  /-- It is cancelled or has expired: the registration is dropped. -/
  | leave (i : ℕ)
  /-- The permit is dropped. -/
  | release (i : ℕ)
  | notifyWaiters (i : ℕ)
deriving DecidableEq, Repr

namespace PriorityGate

def new : PriorityGate := ⟨⟨false, 0, []⟩, []⟩

def goTo (g : PriorityGate) (i : ℕ) (a : Acquire) (stage : AcquireStage) : PriorityGate :=
  { g with acquires := g.acquires.set i { a with stage } }

/-- Where every ticket is taken, the search never ends. -/
def enqueue (g : PriorityGate) (trafficClass : TrafficClass) : PriorityGate :=
  match freeTicket g.state.waiters (g.state.waiters.length + 1) g.state.nextTicket with
  | none => g
  | some ticket =>
    { state := { g.state with
        nextTicket := (ticket + 1) % 2 ^ 64
        waiters := g.state.waiters ++ [⟨ticket, trafficClass.priority⟩] }
      acquires := g.acquires ++ [⟨ticket, trafficClass.priority, .enqueued⟩] }

def check (g : PriorityGate) (i : ℕ) (a : Acquire) (notified : Bool) : PriorityGate :=
  if g.state.active = false ∧ g.state.selected = some a.ticket then
    { g with state := { g.state with active := true, waiters := removeWaiter g.state.waiters a.ticket } }.goTo i a
      .holding
  else g.goTo i a (.asleep notified)

def leave (g : PriorityGate) (i : ℕ) (a : Acquire) : PriorityGate :=
  { g with state := { g.state with waiters := removeWaiter g.state.waiters a.ticket } }.goTo i a .leaving

def release (g : PriorityGate) (i : ℕ) (a : Acquire) : PriorityGate :=
  { g with state := { g.state with active := false } }.goTo i a .releasing

def notifyWaiters (g : PriorityGate) (i : ℕ) (a : Acquire) : PriorityGate :=
  { g with acquires := (g.acquires.map fun b => { b with stage := b.stage.notify }).set i { a with stage := .done } }

/-- What call `i` does where it stands. -/
def onAcquire (g : PriorityGate) (i : ℕ) (f : Acquire → PriorityGate) : PriorityGate :=
  match g.acquires[i]? with
  | none => g
  | some a => f a

def step (g : PriorityGate) : DispatchStep → PriorityGate
  | .enqueue trafficClass => g.enqueue trafficClass
  | .enable i => g.onAcquire i fun a => if a.stage = .enqueued then g.goTo i a (.enabled false) else g
  | .check i => g.onAcquire i fun a =>
    match a.stage with
    | .enabled notified => g.check i a notified
    | _ => g
  | .wake i => g.onAcquire i fun a => if a.stage = .asleep true then g.goTo i a .enqueued else g
  | .leave i => g.onAcquire i fun a => if a.stage.queued then g.leave i a else g
  | .release i => g.onAcquire i fun a => if a.stage = .holding then g.release i a else g
  | .notifyWaiters i => g.onAcquire i fun a => if a.stage.dropping then g.notifyWaiters i a else g

def run (steps : List DispatchStep) : PriorityGate := steps.foldl step new

/-- The stage of call `i`. -/
def stage (g : PriorityGate) (i : ℕ) : Option AcquireStage := g.acquires[i]?.map Acquire.stage

def QueuedAt (g : PriorityGate) (i : ℕ) : Prop := ∃ stage, g.stage i = some stage ∧ stage.queued = true

end PriorityGate

/-- Call `i` is queued, and comes before every other queued call by priority, then arrival. -/
def Minimal (g : PriorityGate) (i : ℕ) : Prop :=
  ∃ a, g.acquires[i]? = some a ∧ a.stage.queued = true ∧
    ∀ j b, g.acquires[j]? = some b → b.stage.queued = true →
      a.priority < b.priority ∨ a.priority = b.priority ∧ i ≤ j

/-! ### Tickets -/

theorem freeTicket_free : ∀ {waiters : List PriorityWaiter} {fuel ticket t : ℕ},
    freeTicket waiters fuel ticket = some t → t ∉ waiters.map PriorityWaiter.ticket
  | _, 0, _, _, h => by cases h
  | waiters, fuel + 1, ticket, t, h => by
    rw [freeTicket] at h
    split_ifs at h with htaken
    · exact freeTicket_free h
    · cases h
      intro hmem
      obtain ⟨w, hw, rfl⟩ := List.mem_map.mp hmem
      exact htaken (List.any_eq_true.mpr ⟨w, hw, by simp⟩)

theorem removeWaiter_split {front back : List PriorityWaiter} {w : PriorityWaiter}
    (h : w.ticket ∉ front.map PriorityWaiter.ticket) : removeWaiter (front ++ w :: back) w.ticket = front ++ back := by
  unfold removeWaiter
  rw [List.eraseP_append_right]
  · rw [List.eraseP_cons_of_pos (by simp)]
  · intro v hv
    rw [decide_eq_true_eq]
    intro heq
    exact h (heq ▸ List.mem_map_of_mem hv)

/-! ### Who comes next -/

/-- The selected waiter divides the queue: before it lie only lesser priorities, after it none greater. -/
theorem selected_eq_some {d : PriorityState} {t : ℕ} : d.selected = some t ↔
    ∃ front w back, d.waiters = front ++ w :: back ∧ w.ticket = t ∧ (∀ v ∈ front, w.priority < v.priority) ∧
      ∀ v ∈ back, w.priority ≤ v.priority := by
  unfold PriorityState.selected
  simp only [Option.map_eq_some_iff, List.find?_eq_some_iff_append, List.all_eq_true, decide_eq_true_eq]
  constructor
  · rintro ⟨w, ⟨hall, front, back, hsplit, hfront⟩, rfl⟩
    rw [hsplit] at hall
    refine ⟨front, w, back, hsplit, rfl, fun v hv => ?_, fun v hv => hall v (by simp [hv])⟩
    have hless := hfront v hv
    simp only [Bool.not_eq_true', List.all_eq_false, decide_eq_true_eq, not_le] at hless
    obtain ⟨u, hu, huv⟩ := hless
    exact lt_of_le_of_lt (hall u (hsplit ▸ hu)) huv
  · rintro ⟨front, w, back, hsplit, rfl, hfront, hback⟩
    refine ⟨w, ⟨fun v hv => ?_, front, back, hsplit, fun v hv => ?_⟩, rfl⟩
    · rw [hsplit] at hv
      rcases List.mem_append.mp hv with hv | hv
      · exact (hfront v hv).le
      · rcases List.mem_cons.mp hv with rfl | hv
        · exact le_rfl
        · exact hback v hv
    · simp only [Bool.not_eq_true', List.all_eq_false, decide_eq_true_eq, not_le]
      exact ⟨w, by simp [hsplit], hfront v hv⟩

/-- A queue that is not empty has a first. -/
theorem exists_selected : ∀ {waiters : List PriorityWaiter}, waiters ≠ [] → ∃ front w back,
    waiters = front ++ w :: back ∧ (∀ v ∈ front, w.priority < v.priority) ∧ ∀ v ∈ back, w.priority ≤ v.priority
  | [], h => absurd rfl h
  | [w], _ => ⟨[], w, [], rfl, by simp, by simp⟩
  | w :: x :: rest, _ => by
    obtain ⟨front, u, back, hsplit, hfront, hback⟩ := exists_selected (List.cons_ne_nil x rest)
    by_cases hle : w.priority ≤ u.priority
    · refine ⟨[], w, x :: rest, rfl, by simp, fun v hv => hle.trans ?_⟩
      rw [hsplit] at hv
      rcases List.mem_append.mp hv with hv | hv
      · exact (hfront v hv).le
      · rcases List.mem_cons.mp hv with rfl | hv
        · exact le_rfl
        · exact hback v hv
    · refine ⟨w :: front, u, back, by rw [hsplit, List.cons_append], fun v hv => ?_, hback⟩
      rcases List.mem_cons.mp hv with rfl | hv
      · exact not_le.mp hle
      · exact hfront v hv

/-! ### The queue and the calls -/

/-- The waiters that the calls amount to. -/
def queueOf (acquires : List Acquire) : List PriorityWaiter :=
  (acquires.filter fun a => a.stage.queued).map Acquire.waiter

@[simp] theorem queueOf_append (xs ys : List Acquire) : queueOf (xs ++ ys) = queueOf xs ++ queueOf ys := by
  simp [queueOf]

theorem queueOf_cons_of_queued {a : Acquire} (h : a.stage.queued = true) (xs : List Acquire) :
    queueOf (a :: xs) = a.waiter :: queueOf xs := by simp [queueOf, h]

theorem queueOf_cons_of_not {a : Acquire} (h : a.stage.queued = false) (xs : List Acquire) :
    queueOf (a :: xs) = queueOf xs := by simp [queueOf, h]

theorem mem_queueOf {xs : List Acquire} {w : PriorityWaiter} :
    w ∈ queueOf xs ↔ ∃ a ∈ xs, a.stage.queued = true ∧ a.waiter = w := by
  simp only [queueOf, List.mem_map, List.mem_filter, and_assoc]

/-- The calls before call `i`, itself, and those after. -/
theorem exists_split {acquires : List Acquire} {i : ℕ} {a : Acquire} (h : acquires[i]? = some a) :
    ∃ front back, acquires = front ++ a :: back ∧ front.length = i ∧
      ∀ b, acquires.set i b = front ++ b :: back := by
  obtain ⟨hi, rfl⟩ := List.getElem?_eq_some_iff.mp h
  have hset : ∀ b, acquires.set i b = acquires.take i ++ b :: acquires.drop (i + 1) := fun b =>
    List.set_eq_take_append_cons_drop.trans (if_pos hi)
  refine ⟨acquires.take i, acquires.drop (i + 1), ?_, by rw [List.length_take]; omega, hset⟩
  rw [← hset, List.set_getElem_self]

/-- The invariant. -/
structure Sound (g : PriorityGate) : Prop where
  queue : g.state.waiters = queueOf g.acquires
  tickets : (g.state.waiters.map PriorityWaiter.ticket).Nodup
  permits : Tasks.weigh (fun a => if a.stage = .holding then 1 else 0) g.acquires = if g.state.active then 1 else 0
  wakeup : g.state.active = false → (∀ a ∈ g.acquires, a.stage.dropping = false) →
    ∀ a ∈ g.acquires, g.state.selected = some a.ticket → a.stage ≠ .asleep false

theorem new_sound : Sound PriorityGate.new :=
  ⟨rfl, List.nodup_nil, rfl, fun _ _ _ ha => absurd ha List.not_mem_nil⟩

/-- Where a queued call stands in the queue. -/
theorem Sound.split {g : PriorityGate} (h : Sound g) {i : ℕ} {a : Acquire} (ha : g.acquires[i]? = some a)
    (hqueued : a.stage.queued = true) : ∃ front back, g.acquires = front ++ a :: back ∧ front.length = i ∧
      (∀ b, g.acquires.set i b = front ++ b :: back) ∧
      g.state.waiters = queueOf front ++ a.waiter :: queueOf back ∧
      a.ticket ∉ (queueOf front).map PriorityWaiter.ticket ∧ a.ticket ∉ (queueOf back).map PriorityWaiter.ticket := by
  obtain ⟨front, back, hsplit, hlen, hset⟩ := exists_split ha
  have hwaiters : g.state.waiters = queueOf front ++ a.waiter :: queueOf back := by
    rw [h.queue, hsplit, queueOf_append, queueOf_cons_of_queued hqueued]
  have hnodup := h.tickets
  rw [hwaiters, List.map_append, List.map_cons] at hnodup
  obtain ⟨-, hback, hdisjoint⟩ := List.nodup_append.mp hnodup
  refine ⟨front, back, hsplit, hlen, hset, hwaiters, fun hmem => ?_, (List.nodup_cons.mp hback).1⟩
  exact hdisjoint _ hmem _ List.mem_cons_self rfl

/-- **The selected ticket is that of the minimal call.** -/
theorem Sound.minimal_iff {g : PriorityGate} (h : Sound g) {i : ℕ} {a : Acquire} (ha : g.acquires[i]? = some a)
    (hqueued : a.stage.queued = true) : g.state.selected = some a.ticket ↔ Minimal g i := by
  obtain ⟨front, back, hsplit, hlen, -, hwaiters, hfront, hback⟩ := h.split ha hqueued
  rw [selected_eq_some]
  constructor
  · rintro ⟨front', w, back', hsplit', hticket, hless, hle⟩
    have hw : w = a.waiter := by
      refine List.inj_on_of_nodup_map h.tickets ?_ ?_ hticket
      · rw [hsplit']
        simp
      · rw [hwaiters]
        simp
    have hnotin : ∀ {xs : List PriorityWaiter}, a.ticket ∉ xs.map PriorityWaiter.ticket → a.waiter ∉ xs :=
      fun hxs hmem => hxs (List.mem_map_of_mem (f := PriorityWaiter.ticket) hmem)
    rw [hwaiters, hw] at hsplit'
    obtain ⟨rfl, -, rfl⟩ := (List.append_cons_inj_of_notMem (hnotin hfront) (hnotin hback)).mp hsplit'
    refine ⟨a, ha, hqueued, fun j b hb hbq => ?_⟩
    rw [hw] at hless hle
    rw [hsplit] at hb
    rcases lt_trichotomy j i with hj | rfl | hj
    · rw [List.getElem?_append_left (by omega)] at hb
      exact Or.inl (hless b.waiter (mem_queueOf.mpr ⟨b, List.mem_of_getElem? hb, hbq, rfl⟩))
    · rw [← hlen, List.getElem?_append_right le_rfl, Nat.sub_self, List.getElem?_cons_zero] at hb
      cases hb
      exact Or.inr ⟨rfl, le_rfl⟩
    · rw [List.getElem?_append_right (by omega)] at hb
      have hpos : j - front.length = j - front.length - 1 + 1 := by omega
      rw [hpos, List.getElem?_cons_succ] at hb
      rcases (hle b.waiter (mem_queueOf.mpr ⟨b, List.mem_of_getElem? hb, hbq, rfl⟩)).lt_or_eq with hlt | heq
      · exact Or.inl hlt
      · exact Or.inr ⟨heq, hj.le⟩
  · rintro ⟨a', ha', -, hmin⟩
    rw [ha] at ha'
    cases ha'
    refine ⟨queueOf front, a.waiter, queueOf back, hwaiters, rfl, fun v hv => ?_, fun v hv => ?_⟩
    · obtain ⟨b, hb, hbq, rfl⟩ := mem_queueOf.mp hv
      obtain ⟨j, hj⟩ := List.mem_iff_getElem?.mp hb
      have hjlt := (List.getElem?_eq_some_iff.mp hj).1
      have hget : g.acquires[j]? = some b := by rw [hsplit, List.getElem?_append_left hjlt, hj]
      rcases hmin j b hget hbq with hlt | ⟨-, hij⟩
      · exact hlt
      · omega
    · obtain ⟨b, hb, hbq, rfl⟩ := mem_queueOf.mp hv
      obtain ⟨j, hj⟩ := List.mem_iff_getElem?.mp hb
      have hget : g.acquires[front.length + (j + 1)]? = some b := by
        rw [hsplit, List.getElem?_append_right (by omega), Nat.add_sub_cancel_left, List.getElem?_cons_succ, hj]
      rcases hmin _ b hget hbq with hlt | ⟨heq, -⟩
      · exact hlt.le
      · exact heq.le

theorem Sound.minimal {g : PriorityGate} (h : Sound g) (hne : g.state.waiters ≠ []) : ∃ i, Minimal g i := by
  obtain ⟨front, w, back, hsplit, hfront, hback⟩ := exists_selected hne
  have hmem : w ∈ queueOf g.acquires := by
    rw [← h.queue, hsplit]
    simp
  obtain ⟨a, ha, hqueued, rfl⟩ := mem_queueOf.mp hmem
  obtain ⟨i, hi⟩ := List.mem_iff_getElem?.mp ha
  exact ⟨i, (h.minimal_iff hi hqueued).mp (selected_eq_some.mpr ⟨front, _, back, hsplit, rfl, hfront, hback⟩)⟩

/-! ### One step -/

/-- A call moves on, and the queue does not notice. -/
theorem queueOf_restage {acquires : List Acquire} {i : ℕ} {a : Acquire} {stage : AcquireStage}
    (ha : acquires[i]? = some a) (hqueued : stage.queued = a.stage.queued) :
    queueOf (acquires.set i { a with stage }) = queueOf acquires := by
  obtain ⟨front, back, hsplit, -, hset⟩ := exists_split ha
  rw [hset, hsplit, queueOf_append, queueOf_append]
  rcases hq : a.stage.queued with - | -
  · rw [queueOf_cons_of_not (hqueued.trans hq), queueOf_cons_of_not hq]
  · rw [queueOf_cons_of_queued (hqueued.trans hq), queueOf_cons_of_queued hq]
    rfl

@[simp] theorem queued_notify (stage : AcquireStage) : stage.notify.queued = stage.queued := by
  cases stage <;> rfl

theorem notify_eq_holding {stage : AcquireStage} : stage.notify = .holding ↔ stage = .holding := by
  cases stage <;> simp [AcquireStage.notify]

theorem not_queued_of_dropping : ∀ {stage : AcquireStage}, stage.dropping = true → stage.queued = false
  | .leaving, _ | .releasing, _ => rfl

theorem notify_ne_asleep (stage : AcquireStage) : stage.notify ≠ .asleep false := by
  cases stage <;> simp [AcquireStage.notify]

theorem queueOf_notify (acquires : List Acquire) :
    queueOf (acquires.map fun b => { b with stage := b.stage.notify }) = queueOf acquires := by
  unfold queueOf
  rw [List.filter_map, List.map_map]
  simp only [Function.comp_def, queued_notify]
  rfl

/-- Where nothing but the stage of call `i` changes, and it stays as queued and as holding as it was. -/
theorem Sound.goTo {g : PriorityGate} (h : Sound g) {i : ℕ} {a : Acquire} {stage : AcquireStage}
    (ha : g.acquires[i]? = some a) (hqueued : stage.queued = a.stage.queued)
    (hholding : stage = .holding ↔ a.stage = .holding) (hdropping : a.stage.dropping = false)
    (hasleep : stage = .asleep false → ¬ (g.state.active = false ∧ g.state.selected = some a.ticket)) :
    Sound (g.goTo i a stage) where
  queue := h.queue.trans (queueOf_restage ha hqueued).symm
  tickets := h.tickets
  permits := by
    have hset := Tasks.weigh_set (fun a : Acquire => if a.stage = .holding then 1 else 0)
      { a with stage := stage } ha
    simp only [hholding] at hset
    exact (Nat.add_right_cancel hset).trans h.permits
  wakeup := by
    intro hidle hdrop b hb hselected
    obtain ⟨j, hj⟩ := List.mem_iff_getElem?.mp hb
    rcases Tasks.get_set_cases hj with ⟨-, rfl⟩ | ⟨hji, hold⟩
    · exact fun heq => hasleep heq ⟨hidle, hselected⟩
    · refine h.wakeup hidle (fun c hc => ?_) b (List.mem_of_getElem? hold) hselected
      obtain ⟨k, hk⟩ := List.mem_iff_getElem?.mp hc
      by_cases hki : k = i
      · rw [hki, ha] at hk
        cases hk
        exact hdropping
      · refine hdrop c (List.mem_of_getElem? (i := k) ?_)
        exact (List.getElem?_set_ne (Ne.symm hki)).trans hk

/-- A queued call goes off the queue; either it takes the permit, or it is about to notify. -/
theorem Sound.dequeue {g : PriorityGate} (h : Sound g) {i : ℕ} {a : Acquire} (ha : g.acquires[i]? = some a)
    (hqueued : a.stage.queued = true) {stage : AcquireStage} {active : Bool} (hnot : stage.queued = false)
    (hpermit : stage = .holding ∧ g.state.active = false ∧ active = true ∨
      stage = .leaving ∧ active = g.state.active) :
    Sound ({ g with state := ⟨active, g.state.nextTicket, removeWaiter g.state.waiters a.ticket⟩ }.goTo i a stage) := by
  obtain ⟨front, back, hsplit, -, hset, hwaiters, hfront, -⟩ := h.split ha hqueued
  have hremoved : removeWaiter g.state.waiters a.ticket = queueOf front ++ queueOf back := by
    rw [hwaiters]
    exact removeWaiter_split hfront
  have hholding : a.stage ≠ .holding := fun heq => by simp [heq, AcquireStage.queued] at hqueued
  have hweigh := Tasks.weigh_set (fun a : Acquire => if a.stage = .holding then 1 else 0) { a with stage := stage } ha
  rw [h.permits, if_neg hholding, Nat.add_zero] at hweigh
  constructor
  · show removeWaiter _ _ = queueOf (g.acquires.set i { a with stage })
    rw [hremoved, hset, queueOf_append, queueOf_cons_of_not hnot]
  · show (List.map _ (removeWaiter g.state.waiters a.ticket)).Nodup
    exact h.tickets.sublist (List.eraseP_sublist.map _)
  · refine Eq.trans hweigh ?_
    rcases hpermit with ⟨rfl, hidle, rfl⟩ | ⟨rfl, rfl⟩
    · simp [PriorityGate.goTo, hidle]
    · rfl
  · intro hidle hdrop
    rcases hpermit with ⟨-, -, rfl⟩ | ⟨rfl, rfl⟩
    · exact absurd hidle (by simp [PriorityGate.goTo])
    · exact absurd (hdrop { a with stage := .leaving } (List.mem_of_getElem? (i := i)
        (List.getElem?_set_self (List.getElem?_eq_some_iff.mp ha).1))) (by simp [AcquireStage.dropping])

theorem Sound.release {g : PriorityGate} (h : Sound g) {i : ℕ} {a : Acquire} (ha : g.acquires[i]? = some a)
    (hholding : a.stage = .holding) : Sound (g.release i a) := by
  have hweigh := Tasks.weigh_set (fun a : Acquire => if a.stage = .holding then 1 else 0)
    { a with stage := .releasing } ha
  rw [h.permits, if_pos hholding] at hweigh
  simp only [reduceCtorEq, if_false, Nat.add_zero] at hweigh
  constructor
  · exact h.queue.trans (queueOf_restage ha (by simp [hholding, AcquireStage.queued])).symm
  · exact h.tickets
  · show Tasks.weigh _ (g.acquires.set i _) = 0
    split_ifs at hweigh
    omega
  · intro _ hdrop
    exact absurd (hdrop { a with stage := .releasing } (List.mem_of_getElem? (i := i)
      (List.getElem?_set_self (List.getElem?_eq_some_iff.mp ha).1))) (by simp [AcquireStage.dropping])

/-- The notification reaches every sleeper. -/
theorem Sound.notifyWaiters {g : PriorityGate} (h : Sound g) {i : ℕ} {a : Acquire} (ha : g.acquires[i]? = some a)
    (hdropping : a.stage.dropping = true) : Sound (g.notifyWaiters i a) := by
  have hqueued := not_queued_of_dropping hdropping
  have hholding : a.stage ≠ .holding := fun heq => by simp [heq, AcquireStage.dropping] at hdropping
  have hget : (g.acquires.map fun b : Acquire => { b with stage := b.stage.notify })[i]? =
      some { a with stage := a.stage.notify } := by
    rw [List.getElem?_map, ha, Option.map_some]
  constructor
  · refine h.queue.trans (Eq.symm ((queueOf_restage hget ?_).trans (queueOf_notify g.acquires)))
    exact (queued_notify a.stage).symm ▸ hqueued.symm
  · exact h.tickets
  · have hweigh := Tasks.weigh_set (fun a : Acquire => if a.stage = .holding then 1 else 0)
      { a with stage := .done } hget
    simp only [notify_eq_holding, hholding, if_false, reduceCtorEq, Nat.add_zero] at hweigh
    refine Eq.trans hweigh (Eq.trans ?_ h.permits)
    unfold Tasks.weigh
    rw [List.map_map]
    simp only [Function.comp_def, notify_eq_holding]
  · intro _ _ b hb _ heq
    obtain ⟨j, hj⟩ := List.mem_iff_getElem?.mp hb
    rcases Tasks.get_set_cases hj with ⟨-, rfl⟩ | ⟨-, hold⟩
    · cases heq
    · obtain ⟨c, -, rfl⟩ := List.mem_map.mp (List.mem_of_getElem? hold)
      exact notify_ne_asleep _ heq

/-- A newcomer comes last among its equals, so it is never chosen over a call that was. -/
theorem Sound.enqueue {g : PriorityGate} (h : Sound g) (trafficClass : TrafficClass) :
    Sound (g.enqueue trafficClass) := by
  unfold PriorityGate.enqueue
  split
  · exact h
  · rename_i ticket hticket
    have hfresh := freeTicket_free hticket
    constructor
    · show g.state.waiters ++ _ = queueOf (g.acquires ++ _)
      rw [queueOf_append, h.queue]
      rfl
    · show (List.map _ (g.state.waiters ++ _)).Nodup
      rw [List.map_append]
      refine List.nodup_append.mpr ⟨h.tickets, List.nodup_singleton _, fun x hx y hy => ?_⟩
      rintro rfl
      rw [List.mem_singleton.mp hy] at hx
      exact hfresh hx
    · show Tasks.weigh _ (g.acquires ++ _) = _
      rw [Tasks.weigh_append, h.permits]
      rfl
    · intro hidle hdrop b hb hselected
      rcases List.mem_append.mp hb with hb | hb
      · intro hasleep
        refine h.wakeup hidle (fun c hc => hdrop c (List.mem_append_left _ hc)) b hb ?_ hasleep
        have hmem : b.ticket ∈ g.state.waiters.map PriorityWaiter.ticket := by
          rw [h.queue]
          exact List.mem_map_of_mem (f := PriorityWaiter.ticket)
            (mem_queueOf.mpr ⟨b, hb, by simp [hasleep, AcquireStage.queued], rfl⟩)
        obtain ⟨front, w, back, hsplit, hw, hfront, hback⟩ := selected_eq_some.mp hselected
        rcases List.eq_nil_or_concat back with rfl | ⟨back', last, rfl⟩
        · obtain ⟨-, hlast⟩ := List.append_inj' hsplit rfl
          cases hlast
          rw [← hw] at hmem
          exact absurd hmem hfresh
        · rw [List.concat_eq_append, ← List.cons_append, ← List.append_assoc] at hsplit
          obtain ⟨hold, -⟩ := List.append_inj' hsplit rfl
          exact selected_eq_some.mpr ⟨front, w, back', hold, hw, hfront, fun v hv => hback v (by simp [hv])⟩
      · rw [List.mem_singleton.mp hb]
        simp

theorem Sound.check {g : PriorityGate} (h : Sound g) {i : ℕ} {a : Acquire} {notified : Bool}
    (ha : g.acquires[i]? = some a) (hstage : a.stage = .enabled notified) : Sound (g.check i a notified) := by
  unfold PriorityGate.check
  split_ifs with hnext
  · exact h.dequeue ha (by simp [hstage, AcquireStage.queued]) rfl (Or.inl ⟨rfl, hnext.1, rfl⟩)
  · exact h.goTo ha (by simp [hstage, AcquireStage.queued]) (by simp [hstage])
      (by simp [hstage, AcquireStage.dropping]) fun _ => hnext

theorem Sound.onAcquire {g : PriorityGate} (h : Sound g) {i : ℕ} {f : Acquire → PriorityGate}
    (hf : ∀ a, g.acquires[i]? = some a → Sound (f a)) : Sound (g.onAcquire i f) := by
  unfold PriorityGate.onAcquire
  rcases ha : g.acquires[i]? with - | a
  · exact h
  · exact hf a ha

/-- **Every step keeps the invariant.** -/
theorem step_sound {g : PriorityGate} (h : Sound g) : ∀ s : DispatchStep, Sound (g.step s)
  | .enqueue trafficClass => h.enqueue trafficClass
  | .enable i => h.onAcquire fun a ha => by
    split_ifs with hstage
    · exact h.goTo ha (by simp [hstage, AcquireStage.queued]) (by simp [hstage])
        (by simp [hstage, AcquireStage.dropping]) (by simp)
    · exact h
  | .check i => h.onAcquire fun a ha => by
    split
    · rename_i hstage
      exact h.check ha hstage
    · exact h
  | .wake i => h.onAcquire fun a ha => by
    split_ifs with hstage
    · exact h.goTo ha (by simp [hstage, AcquireStage.queued]) (by simp [hstage])
        (by simp [hstage, AcquireStage.dropping]) (by simp)
    · exact h
  | .leave i => h.onAcquire fun a ha => by
    split_ifs with hqueued
    · exact h.dequeue ha hqueued rfl (Or.inr ⟨rfl, rfl⟩)
    · exact h
  | .release i => h.onAcquire fun a ha => by
    split_ifs with hholding
    · exact h.release ha hholding
    · exact h
  | .notifyWaiters i => h.onAcquire fun a ha => by
    split_ifs with hdropping
    · exact h.notifyWaiters ha hdropping
    · exact h

theorem run_sound (steps : List DispatchStep) : Sound (PriorityGate.run steps) :=
  List.foldlRecOn steps _ new_sound fun _ h s _ => step_sound h s

/-! ### The gate -/

namespace PriorityGate

/-- Some call is between the lock section of a drop and its notification. -/
def Dropping (g : PriorityGate) : Prop := ∃ (i : ℕ) (stage : AcquireStage), g.stage i = some stage ∧ stage.dropping

/-- What holds of the gate at any moment. -/
structure Keeps (g : PriorityGate) : Prop where
  /-- At most one permit, and the gate is active exactly while there is one. -/
  one : ∀ i j, g.stage i = some .holding → g.stage j = some .holding → i = j
  active : g.state.active = true ↔ ∃ i, g.stage i = some .holding
  waiters : g.state.waiters = queueOf g.acquires
  distinct : (g.state.waiters.map PriorityWaiter.ticket).Nodup
  minimal : g.state.waiters ≠ [] → ∃ i, Minimal g i
  /-- No wake-up is lost. -/
  wakeful : g.state.active = false → ∀ i, Minimal g i → g.stage i = some (.asleep false) → g.Dropping

/-- What a step may do to any call. -/
structure Moves (g : PriorityGate) (s : DispatchStep) : Prop where
  /-- A permit goes to the minimal call of an inactive gate only. -/
  granted : ∀ i, (g.step s).stage i = some .holding → g.stage i ≠ some .holding →
    s = .check i ∧ g.state.active = false ∧ Minimal g i
  /-- A call stops waiting where it gets the permit or leaves. -/
  dequeued : ∀ i, g.QueuedAt i → ¬ (g.step s).QueuedAt i → (g.step s).stage i = some .holding ∨ s = .leave i
  left : ∀ i, s = .leave i → ¬ (g.step s).QueuedAt i
  /-- The notification of a drop leaves nobody asleep un-notified. -/
  notified : ∀ i stage, s = .notifyWaiters i → g.stage i = some stage → stage.dropping = true →
    ∀ j, (g.step s).stage j ≠ some (.asleep false)

end PriorityGate

theorem stage_eq_some {g : PriorityGate} {i : ℕ} {stage : AcquireStage} (h : g.stage i = some stage) :
    ∃ a, g.acquires[i]? = some a ∧ a.stage = stage := Option.map_eq_some_iff.mp h

theorem Sound.one {g : PriorityGate} (h : Sound g) {i j : ℕ} (hi : g.stage i = some .holding)
    (hj : g.stage j = some .holding) : i = j := by
  by_contra hij
  obtain ⟨a, ha, hstage⟩ := stage_eq_some hi
  obtain ⟨b, hb, hstage'⟩ := stage_eq_some hj
  have hset := Tasks.weigh_set (fun a : Acquire => if a.stage = .holding then 1 else 0)
    { a with stage := .done } ha
  have hother : b ∈ g.acquires.set i { a with stage := .done } :=
    List.mem_of_getElem? ((List.getElem?_set_ne hij).trans hb)
  have hle := Tasks.weigh_le (fun a : Acquire => if a.stage = .holding then 1 else 0) hother
  rw [h.permits, if_pos hstage] at hset
  simp only [hstage', if_true, reduceCtorEq, if_false, Nat.add_zero] at hset hle
  split_ifs at hset
  omega

theorem Sound.active_iff {g : PriorityGate} (h : Sound g) :
    g.state.active = true ↔ ∃ i, g.stage i = some .holding := by
  constructor
  · intro hactive
    by_contra hnone
    have hzero : Tasks.weigh (fun a : Acquire => if a.stage = .holding then 1 else 0) g.acquires = 0 := by
      refine List.sum_eq_zero fun n hn => ?_
      obtain ⟨a, ha, rfl⟩ := List.mem_map.mp hn
      obtain ⟨i, hi⟩ := List.mem_iff_getElem?.mp ha
      exact if_neg fun hstage => hnone ⟨i, by rw [PriorityGate.stage, hi, Option.map_some, hstage]⟩
    rw [h.permits, if_pos hactive] at hzero
    omega
  · rintro ⟨i, hi⟩
    obtain ⟨a, ha, hstage⟩ := stage_eq_some hi
    have hle := Tasks.weigh_le (fun a : Acquire => if a.stage = .holding then 1 else 0) (List.mem_of_getElem? ha)
    rw [h.permits, if_pos hstage] at hle
    by_contra hidle
    rw [if_neg hidle] at hle
    omega

theorem Sound.keeps {g : PriorityGate} (h : Sound g) : g.Keeps where
  one _ _ := h.one
  active := h.active_iff
  waiters := h.queue
  distinct := h.tickets
  minimal := h.minimal
  wakeful := by
    intro hidle i hmin hasleep
    obtain ⟨a, ha, hstage⟩ := stage_eq_some hasleep
    have hselected := (h.minimal_iff ha (by rw [hstage]; rfl)).mpr hmin
    by_contra hnone
    refine h.wakeup hidle (fun b hb => ?_) a (List.mem_of_getElem? ha) hselected hstage
    obtain ⟨j, hj⟩ := List.mem_iff_getElem?.mp hb
    by_contra hdrop
    exact hnone ⟨j, b.stage, by rw [PriorityGate.stage, hj, Option.map_some], by simpa using hdrop⟩

/-! ### What a step does to one call -/

/-- How call `j` may go on. -/
inductive Goes (g : PriorityGate) (s : DispatchStep) (j : ℕ) : AcquireStage → AcquireStage → Prop where
  | stays (stage : AcquireStage) : Goes g s j stage stage
  | notified (stage : AcquireStage) : Goes g s j stage stage.notify
  | enables : Goes g s j .enqueued (.enabled false)
  | granted {notified : Bool} (hs : s = .check j) (hidle : g.state.active = false) (hmin : Minimal g j) :
      Goes g s j (.enabled notified) .holding
  | sleeps (notified : Bool) : Goes g s j (.enabled notified) (.asleep notified)
  | wakes : Goes g s j (.asleep true) .enqueued
  | leaves {stage : AcquireStage} (hs : s = .leave j) : Goes g s j stage .leaving
  | releases : Goes g s j .holding .releasing
  | notifies {stage : AcquireStage} (hdropping : stage.dropping = true) : Goes g s j stage .done

theorem stage_goTo {g : PriorityGate} {i : ℕ} {a : Acquire} (ha : g.acquires[i]? = some a) (stage : AcquireStage)
    (j : ℕ) : (g.goTo i a stage).stage j = if j = i then some stage else g.stage j := by
  unfold PriorityGate.stage PriorityGate.goTo
  by_cases hji : j = i
  · rw [if_pos hji, hji, List.getElem?_set_self (List.getElem?_eq_some_iff.mp ha).1]
    rfl
  · rw [if_neg hji, List.getElem?_set_ne (Ne.symm hji)]

theorem stage_notifyWaiters {g : PriorityGate} {i : ℕ} {a : Acquire} (ha : g.acquires[i]? = some a) (j : ℕ) :
    (g.notifyWaiters i a).stage j = if j = i then some .done else (g.stage j).map AcquireStage.notify := by
  unfold PriorityGate.stage PriorityGate.notifyWaiters
  have hlt := (List.getElem?_eq_some_iff.mp ha).1
  by_cases hji : j = i
  · rw [if_pos hji, hji, List.getElem?_set_self (by rwa [List.length_map])]
    rfl
  · rw [if_neg hji, List.getElem?_set_ne (Ne.symm hji), List.getElem?_map, Option.map_map, Option.map_map]
    rfl

/-- The call that a step is about goes on as `f` says, and every other stays. -/
theorem goes_of_goTo {g g' : PriorityGate} {s : DispatchStep} {i j : ℕ} {a : Acquire} {stage stage' : AcquireStage}
    (ha : g.acquires[i]? = some a) (hstage : a.stage = stage)
    (hj : ∀ k, g'.stage k = if k = i then some stage' else g.stage k) (hgoes : Goes g s i stage stage')
    {old : AcquireStage} (hold : g.stage j = some old) : ∃ new, g'.stage j = some new ∧ Goes g s j old new := by
  rw [hj]
  by_cases hji : j = i
  · subst hji
    obtain ⟨b, hb, hbstage⟩ := stage_eq_some hold
    rw [ha] at hb
    cases hb
    rw [if_pos rfl, ← hbstage, hstage]
    exact ⟨_, rfl, hgoes⟩
  · rw [if_neg hji]
    exact ⟨old, hold, .stays old⟩

theorem goes_onAcquire {g : PriorityGate} {s : DispatchStep} {i j : ℕ} {f : Acquire → PriorityGate}
    {old : AcquireStage} (hold : g.stage j = some old)
    (hf : ∀ a, g.acquires[i]? = some a → ∃ new, (f a).stage j = some new ∧ Goes g s j old new) :
    ∃ new, (g.onAcquire i f).stage j = some new ∧ Goes g s j old new := by
  unfold PriorityGate.onAcquire
  rcases ha : g.acquires[i]? with - | a
  · exact ⟨old, hold, .stays old⟩
  · exact hf a ha

theorem stage_enqueue {g : PriorityGate} (trafficClass : TrafficClass) {j : ℕ} {old : AcquireStage}
    (hold : g.stage j = some old) : (g.enqueue trafficClass).stage j = some old := by
  unfold PriorityGate.enqueue
  split
  · exact hold
  · obtain ⟨a, ha, hstage⟩ := stage_eq_some hold
    unfold PriorityGate.stage
    rw [List.getElem?_append_left (List.getElem?_eq_some_iff.mp ha).1, ha, Option.map_some, hstage]

/-- **Each step takes each call along one of these ways.** -/
theorem step_goes {g : PriorityGate} (h : Sound g) {j : ℕ} {old : AcquireStage} (hold : g.stage j = some old) :
    ∀ s : DispatchStep, ∃ new, (g.step s).stage j = some new ∧ Goes g s j old new
  | .enqueue trafficClass => ⟨old, stage_enqueue trafficClass hold, .stays old⟩
  | .enable i => goes_onAcquire hold fun a ha => by
    split_ifs with hstage
    · exact goes_of_goTo ha hstage (stage_goTo ha _) .enables hold
    · exact ⟨old, hold, .stays old⟩
  | .check i => goes_onAcquire hold fun a ha => by
    split
    · rename_i notified hstage
      unfold PriorityGate.check
      split_ifs with hnext
      · have hmin := (h.minimal_iff ha (by rw [hstage]; rfl)).mp hnext.2
        exact goes_of_goTo ha hstage (stage_goTo (g := { g with state := _ }) ha _) (.granted rfl hnext.1 hmin) hold
      · exact goes_of_goTo ha hstage (stage_goTo ha _) (.sleeps notified) hold
    · exact ⟨old, hold, .stays old⟩
  | .wake i => goes_onAcquire hold fun a ha => by
    split_ifs with hstage
    · exact goes_of_goTo ha hstage (stage_goTo ha _) .wakes hold
    · exact ⟨old, hold, .stays old⟩
  | .leave i => goes_onAcquire hold fun a ha => by
    split_ifs with hqueued
    · exact goes_of_goTo ha rfl (stage_goTo (g := { g with state := _ }) ha _) (.leaves rfl) hold
    · exact ⟨old, hold, .stays old⟩
  | .release i => goes_onAcquire hold fun a ha => by
    split_ifs with hholding
    · exact goes_of_goTo ha hholding (stage_goTo (g := { g with state := _ }) ha _) .releases hold
    · exact ⟨old, hold, .stays old⟩
  | .notifyWaiters i => goes_onAcquire hold fun a ha => by
    split_ifs with hdropping
    · rw [stage_notifyWaiters ha]
      by_cases hji : j = i
      · subst hji
        obtain ⟨b, hb, hstage⟩ := stage_eq_some hold
        rw [ha] at hb
        cases hb
        rw [if_pos rfl]
        exact ⟨_, rfl, .notifies (hstage ▸ hdropping)⟩
      · rw [if_neg hji, hold]
        exact ⟨_, rfl, .notified old⟩
    · exact ⟨old, hold, .stays old⟩

theorem length_onAcquire {g : PriorityGate} {i : ℕ} {f : Acquire → PriorityGate}
    (hf : ∀ a, (f a).acquires.length = g.acquires.length) :
    (g.onAcquire i f).acquires.length = g.acquires.length := by
  unfold PriorityGate.onAcquire
  split
  · rfl
  · exact hf _

theorem stage_ne_some {g g' : PriorityGate} {j : ℕ} {new : AcquireStage} (hnone : g.stage j = none)
    (hlen : g'.acquires.length = g.acquires.length) : g'.stage j ≠ some new := by
  unfold PriorityGate.stage at hnone ⊢
  rw [Option.map_eq_none_iff, List.getElem?_eq_none_iff] at hnone
  rw [List.getElem?_eq_none (hlen ▸ hnone), Option.map_none]
  exact Option.some_ne_none _ ∘ Eq.symm

theorem length_goTo (g : PriorityGate) (i : ℕ) (a : Acquire) (stage : AcquireStage) :
    (g.goTo i a stage).acquires.length = g.acquires.length := List.length_set

theorem enqueue_arrives {g : PriorityGate} {j : ℕ} {new : AcquireStage} (hnone : g.stage j = none)
    (trafficClass : TrafficClass) (h : (g.enqueue trafficClass).stage j = some new) : new = .enqueued := by
  unfold PriorityGate.enqueue at h
  split at h
  · rw [hnone] at h
    cases h
  · obtain ⟨a, ha, rfl⟩ := stage_eq_some h
    rcases Tasks.get_append_cases ha with hold | ⟨-, rfl⟩
    · rw [PriorityGate.stage, hold] at hnone
      cases hnone
    · rfl

/-- A call that was not there before is at its start. -/
theorem step_arrives {g : PriorityGate} {j : ℕ} {new : AcquireStage} (hnone : g.stage j = none) :
    ∀ s : DispatchStep, (g.step s).stage j = some new → new = .enqueued
  | .enqueue trafficClass, h => enqueue_arrives hnone trafficClass h
  | .enable i, h | .wake i, h | .leave i, h | .release i, h => by
    refine absurd h (stage_ne_some hnone (length_onAcquire fun a => ?_))
    split_ifs
    · exact length_goTo _ i a _
    · rfl
  | .check i, h => by
    refine absurd h (stage_ne_some hnone (length_onAcquire fun a => ?_))
    split
    · unfold PriorityGate.check
      split_ifs
      · exact length_goTo _ i a _
      · exact length_goTo _ i a _
    · rfl
  | .notifyWaiters i, h => by
    refine absurd h (stage_ne_some hnone (length_onAcquire fun a => ?_))
    split_ifs
    · exact List.length_set.trans (List.length_map _)
    · rfl

theorem leave_not_queued (g : PriorityGate) (i : ℕ) : ¬ (g.step (.leave i)).QueuedAt i := by
  rintro ⟨new, hnew, hqueued⟩
  change (g.onAcquire i fun a => if a.stage.queued then g.leave i a else g).stage i = some new at hnew
  unfold PriorityGate.onAcquire at hnew
  rcases ha : g.acquires[i]? with - | a
  · rw [ha] at hnew
    rw [PriorityGate.stage, ha] at hnew
    cases hnew
  · rw [ha] at hnew
    change (if a.stage.queued then g.leave i a else g).stage i = some new at hnew
    split_ifs at hnew with hq
    · have hleft := (stage_goTo (g := { g with state := _ }) ha .leaving i).symm.trans hnew
      rw [if_pos rfl] at hleft
      cases hleft
      cases hqueued
    · rw [PriorityGate.stage, ha] at hnew
      cases hnew
      exact hq hqueued

theorem Sound.moves {g : PriorityGate} (h : Sound g) (s : DispatchStep) : g.Moves s where
  granted := by
    intro i hnew hnot
    rcases hold : g.stage i with - | old
    · cases step_arrives hold s hnew
    · obtain ⟨new, hnew', hgoes⟩ := step_goes h hold s
      rw [hnew] at hnew'
      cases hnew'
      generalize hstage : AcquireStage.holding = new at hgoes
      cases hgoes with
      | stays => exact absurd (hstage ▸ hold) hnot
      | notified => exact absurd (notify_eq_holding.mp hstage.symm ▸ hold) hnot
      | granted hs hidle hmin => exact ⟨hs, hidle, hmin⟩
      | _ => cases hstage
  dequeued := by
    rintro i ⟨old, hold, hqueued⟩ hnot
    obtain ⟨new, hnew, hgoes⟩ := step_goes h hold s
    have hnew' : new.queued = false := by
      by_contra hq
      exact hnot ⟨new, hnew, by simpa using hq⟩
    cases hgoes with
    | stays => simp [hqueued] at hnew'
    | notified => simp [hqueued] at hnew'
    | granted hs hidle hmin => exact Or.inl hnew
    | leaves hs => exact Or.inr hs
    | releases => cases hqueued
    | notifies hdropping => simp [not_queued_of_dropping hdropping] at hqueued
    | _ => cases hnew'
  left := by
    rintro i rfl
    exact leave_not_queued g i
  notified := by
    rintro i stage rfl hi hdropping j hasleep
    obtain ⟨a, ha, rfl⟩ := stage_eq_some hi
    have hstep : g.step (.notifyWaiters i) = g.notifyWaiters i a := by
      show g.onAcquire i _ = _
      rw [PriorityGate.onAcquire, ha]
      exact if_pos hdropping
    rw [hstep, stage_notifyWaiters ha] at hasleep
    split_ifs at hasleep
    · cases hasleep
    · obtain ⟨old, -, hold⟩ := Option.map_eq_some_iff.mp hasleep
      exact notify_ne_asleep old hold

/-- **In any interleaving of calls, cancellations, expiries and permit drops, the gate keeps its promises.** -/
theorem dispatch_gate (steps : List DispatchStep) (s : DispatchStep) :
    (PriorityGate.run steps).Keeps ∧ (PriorityGate.run steps).Moves s :=
  ⟨(run_sound steps).keeps, (run_sound steps).moves s⟩

/-- The permit of call 0 is dropped while call 1 sleeps, and nobody has been told yet. -/
def lateNotice : List DispatchStep :=
  [.enqueue .transaction, .enable 0, .check 0, .enqueue .transaction, .enable 1, .check 1, .release 0]

/-- Between the unlock and the notification the gate is inactive, and the minimal waiter sleeps un-notified. -/
theorem late_notice : ¬ ∀ steps : List DispatchStep, (PriorityGate.run steps).state.active = false →
    ∀ i, Minimal (PriorityGate.run steps) i → (PriorityGate.run steps).stage i ≠ some (.asleep false) := by
  intro h
  have hmin := ((run_sound lateNotice).minimal_iff (i := 1) (a := ⟨1, _, .asleep false⟩) rfl rfl).mp rfl
  exact h lateNotice rfl 1 hmin rfl

end Alphanumeric
