/-
# The books of the outbound scheduler

What a task holds follows from where it stands: an admission holds a prefix of its
permits, a reservation all of them with the slot of its class and one pair of gauges,
a task that leaves what it has yet to give back. So the permits in use and the gauges
are sums over the tasks, a gauge is never lowered below zero, and nothing is left when
all are gone. A peer's entry stays in the map while anything refers to its budget, so
a peer never has two in use. The slots that the lower classes leave to blocks and
control frames are there whenever no lower admission stands between a total permit
and the permit of its class.

Key definitions: `WellFormed`, `Books`, `Mapped`, `InUse`, `OutboundAccounted`.
Key theorems: `step_books`, `step_mapped`, `critical_slot_global`, `critical_slot_peer`,
`outbound_accounted`.
-/
import Alphanumeric.Outbound

namespace Alphanumeric

open Tasks Accounts

/-! ### What a program does to the holdings -/

namespace Micro

/-- What the step takes. -/
def taken : Micro → List Hold
  | .take x _ => [x]
  | .slot x => [x]
  | .put x => [x]
  | _ => []

/-- What the step gives back. -/
def given : Micro → Option Hold
  | .giveBack x => some x
  | _ => none

/-- A step of a task that is no admission. -/
def plain : Micro → Bool
  | .put _ => true
  | .giveBack _ => true
  | .dropArc => true
  | _ => false

/-- The holdings after the program, if nothing is refused. -/
def runHeld : List Micro → List Hold → List Hold
  | [], held => held
  | .giveBack x :: todo, held => runHeld todo (held.erase x)
  | op :: todo, held => runHeld todo (op.taken ++ held)

/-- The program gives back only what is held. -/
def Legal : List Micro → List Hold → Prop
  | [], _ => True
  | .giveBack x :: todo, held => x ∈ held ∧ Legal todo (held.erase x)
  | op :: todo, held => Legal todo (op.taken ++ held)

theorem runHeld_giveBack :
    ∀ {xs held : List Hold} (more : List Micro), xs.Perm held →
      runHeld (xs.map .giveBack ++ more) held = runHeld more [] ∧
        (Legal (xs.map .giveBack ++ more) held ↔ Legal more [])
  | [], held, more, h => by
    rw [List.nil_perm.mp h]
    exact ⟨rfl, Iff.rfl⟩
  | x :: xs, held, more, h => by
    have hmem : x ∈ held := h.mem_iff.mp (by simp)
    have herase : xs.Perm (held.erase x) := (List.cons_perm_iff_perm_erase.mp h).2
    have ih := runHeld_giveBack more herase
    refine ⟨ih.1, ?_⟩
    simp only [List.map_cons, List.cons_append, Legal, hmem, true_and]
    exact ih.2

/-- Giving back everything, in any order, leaves nothing. -/
theorem leave_legal {before after held : List Hold} (h : (before ++ after).Perm held) :
    Legal (leaveProgram before after) held ∧ runHeld (leaveProgram before after) held = [] := by
  have hbefore : ∀ (xs held rest : List Hold) (more : List Micro), (xs ++ rest).Perm held →
      ∃ held', rest.Perm held' ∧ runHeld (xs.map .giveBack ++ more) held = runHeld more held' ∧
        (Legal (xs.map .giveBack ++ more) held ↔ Legal more held') := by
    intro xs
    induction xs with
    | nil =>
      intro held rest more hperm
      exact ⟨held, hperm, rfl, Iff.rfl⟩
    | cons x xs ih =>
      intro held rest more hperm
      have hmem : x ∈ held := hperm.mem_iff.mp (by simp)
      obtain ⟨held', hrest, hrun, hlegal⟩ :=
        ih (held.erase x) rest more (List.cons_perm_iff_perm_erase.mp hperm).2
      refine ⟨held', hrest, hrun, ?_⟩
      simp only [List.map_cons, List.cons_append, Legal, hmem, true_and]
      exact hlegal
  obtain ⟨held', hrest, hrun, hlegal⟩ := hbefore before held after (.dropArc :: after.map .giveBack) h
  have hafter := runHeld_giveBack [] hrest
  rw [List.append_nil] at hafter
  exact ⟨hlegal.mpr (hafter.2.mpr trivial), hrun.trans hafter.1⟩

end Micro

open Micro

/-! ### The shape of a task -/

namespace OutboundMessage

/-- Everything a message may ever hold. -/
def all (m : OutboundMessage) : List Hold := m.permits ++ m.classSlot :: (m.queued ++ m.inFlight)

theorem nodup_all (m : OutboundMessage) : m.all.Nodup := by
  simp [all, permits, scopedPermits, classSlot, queued, inFlight]

theorem taken_admitProgram (m : OutboundMessage) :
    m.admitProgram.flatMap taken = m.permits ++ m.queued ++ [m.classSlot] := by
  simp [admitProgram, permits, scopedPermits, queued, taken]

end OutboundMessage

namespace OutboundTask

/-- What the task will hold when its program is through. -/
def target (t : OutboundTask) : List Hold :=
  match t.stage with
  | .admission => t.message.queued ++ t.message.classSlot :: t.message.permits
  | .reservation dispatched => t.message.gauges dispatched ++ t.message.classSlot :: t.message.permits
  | .leaving => []

structure WellFormed (t : OutboundTask) : Prop where
  legal : Legal t.todo t.held
  settles : (runHeld t.todo t.held).Perm t.target
  once : (t.held ++ t.todo.flatMap taken).Nodup
  own : ∀ x ∈ t.held ++ t.todo.flatMap taken, x ∈ t.message.all
  admission : t.stage = .admission → t.todo <:+ t.message.admitProgram
  plain : t.stage ≠ .admission → ∀ op ∈ t.todo, op.plain = true
  arc : t.stage ≠ .leaving → t.arc = true
  anchored : t.stage ≠ .leaving → .dropArc ∉ t.todo
  shedding : t.stage = .leaving → t.todo.flatMap taken = []
  positive : 1 ≤ t.message.bytes
  gauge : ∀ x, .put x ∈ t.todo → x ∈ t.message.queued ++ t.message.inFlight

variable {t : OutboundTask}

theorem taken_giveBack : ∀ xs : List Hold, (xs.map Micro.giveBack).flatMap taken = []
  | [] => rfl
  | _ :: xs => by simpa [taken] using taken_giveBack xs

theorem taken_leaveProgram (before after : List Hold) : (leaveProgram before after).flatMap taken = [] := by
  rw [leaveProgram, List.flatMap_append, List.flatMap_cons, taken_giveBack, taken_giveBack]
  rfl

/-- A task that sets out to give back all it holds. -/
theorem WellFormed.leave (h : t.WellFormed) {before after : List Hold} (hall : (before ++ after).Perm t.held)
    (e : Option AdmissionError) : ({ t.leave before after with error := e } : OutboundTask).WellFormed := by
  have hlegal := leave_legal hall
  refine ⟨hlegal.1, ?_, ?_, ?_, ?_, ?_, ?_, ?_, fun _ => taken_leaveProgram before after,
    h.positive, ?_⟩
  · change (runHeld (leaveProgram before after) t.held).Perm []
    rw [hlegal.2]
  · change (t.held ++ (leaveProgram before after).flatMap taken).Nodup
    rw [taken_leaveProgram, List.append_nil]
    exact h.once.of_append_left
  · change ∀ x ∈ t.held ++ (leaveProgram before after).flatMap taken, x ∈ t.message.all
    rw [taken_leaveProgram, List.append_nil]
    exact fun x hx => h.own x (List.mem_append_left _ hx)
  · intro hstage
    cases hstage
  · intro _ op hop
    change op ∈ leaveProgram before after at hop
    simp only [leaveProgram, List.mem_append, List.mem_cons, List.mem_map] at hop
    rcases hop with ⟨x, -, rfl⟩ | rfl | ⟨x, -, rfl⟩
    · rfl
    · rfl
    · rfl
  · intro hstage
    exact absurd rfl hstage
  · intro hstage
    exact absurd rfl hstage
  · intro x hx
    change Micro.put x ∈ leaveProgram before after at hx
    simp [leaveProgram] at hx

/-- A step that takes `x` and goes on. -/
theorem WellFormed.take (h : t.WellFormed) {op : Micro} {x : Hold} {todo : List Micro}
    (htodo : t.todo = op :: todo) (htaken : op.taken = [x]) :
    ({ t with held := x :: t.held, todo } : OutboundTask).WellFormed := by
  have hop : ∀ held, runHeld (op :: todo) held = runHeld todo (x :: held) ∧
      (Legal (op :: todo) held ↔ Legal todo (x :: held)) := by
    intro held
    cases op with
    | giveBack y => simp [taken] at htaken
    | dropArc => simp [taken] at htaken
    | tokens => simp [taken] at htaken
    | take y scope => simp [runHeld, Legal, htaken]
    | slot y => simp [runHeld, Legal, htaken]
    | put y => simp [runHeld, Legal, htaken]
  have hperm : (t.held ++ t.todo.flatMap taken).Perm (x :: t.held ++ todo.flatMap taken) := by
    rw [htodo, List.flatMap_cons, htaken]
    exact List.perm_middle
  refine ⟨?_, ?_, hperm.nodup_iff.mp h.once, fun y hy => h.own y (hperm.mem_iff.mpr hy), ?_, ?_, h.arc, ?_, ?_,
    h.positive, fun y hy => h.gauge y (htodo ▸ List.mem_cons_of_mem op hy)⟩
  · have := h.legal
    rw [htodo] at this
    exact (hop t.held).2.mp this
  · have := h.settles
    rw [htodo, (hop t.held).1] at this
    exact this
  · intro hstage
    have := h.admission hstage
    rw [htodo] at this
    exact (List.suffix_cons op todo).trans this
  · intro hstage op' hop'
    exact h.plain hstage op' (htodo ▸ List.mem_cons_of_mem op hop')
  · intro hstage hmem
    exact h.anchored hstage (htodo ▸ List.mem_cons_of_mem op hmem)
  · intro hstage
    have := h.shedding hstage
    rw [htodo, List.flatMap_cons, htaken] at this
    cases this

theorem WellFormed.giveBack (h : t.WellFormed) {x : Hold} {todo : List Micro}
    (htodo : t.todo = .giveBack x :: todo) :
    x ∈ t.held ∧ ({ t with held := t.held.erase x, todo } : OutboundTask).WellFormed := by
  have hlegal := h.legal
  rw [htodo] at hlegal
  have hsub : (t.held.erase x ++ todo.flatMap taken).Sublist (t.held ++ t.todo.flatMap taken) := by
    rw [htodo, List.flatMap_cons]
    exact List.erase_sublist.append (List.sublist_append_right _ _)
  refine ⟨hlegal.1, hlegal.2, ?_, h.once.sublist hsub, fun y hy => h.own y (hsub.subset hy), ?_, ?_, h.arc, ?_, ?_,
    h.positive, fun y hy => h.gauge y (htodo ▸ List.mem_cons_of_mem _ hy)⟩
  · have := h.settles
    rw [htodo] at this
    exact this
  · intro hstage
    have := h.admission hstage
    rw [htodo] at this
    exact (List.suffix_cons _ todo).trans this
  · intro hstage op hop
    exact h.plain hstage op (htodo ▸ List.mem_cons_of_mem _ hop)
  · intro hstage hmem
    exact h.anchored hstage (htodo ▸ List.mem_cons_of_mem _ hmem)
  · intro hstage
    have := h.shedding hstage
    rw [htodo] at this
    exact this

theorem WellFormed.dropArc (h : t.WellFormed) {todo : List Micro} (htodo : t.todo = .dropArc :: todo) :
    ({ t with arc := false, todo } : OutboundTask).WellFormed := by
  have hleaving : t.stage = .leaving := by
    by_contra hstage
    exact h.anchored hstage (by simp [htodo])
  have hlegal := h.legal
  have hsettles := h.settles
  have honce := h.once
  have hown := h.own
  rw [htodo] at hlegal hsettles honce hown
  have hshedding := h.shedding hleaving
  rw [htodo] at hshedding
  refine ⟨hlegal, hsettles, honce, hown, ?_, ?_, ?_, ?_, fun _ => hshedding, h.positive,
    fun y hy => h.gauge y (htodo ▸ List.mem_cons_of_mem _ hy)⟩
  · intro hstage
    rw [hleaving] at hstage
    cases hstage
  · intro hstage op hop
    exact h.plain hstage op (htodo ▸ List.mem_cons_of_mem _ hop)
  · intro hstage
    exact absurd hleaving hstage
  · intro hstage
    exact absurd hleaving hstage

/-- The last step of an admission is the token bucket. -/
theorem WellFormed.atTokens (h : t.WellFormed) {todo : List Micro} (htodo : t.todo = .tokens :: todo) :
    t.stage = .admission ∧ todo = [] := by
  have hstage : t.stage = .admission := by
    by_contra hne
    have := h.plain hne .tokens (by simp [htodo])
    simp [Micro.plain] at this
  refine ⟨hstage, ?_⟩
  obtain ⟨done, hdone⟩ := h.admission hstage
  rw [htodo] at hdone
  -- It occurs once, so nothing follows it.
  have hbefore : Micro.tokens ∉ t.message.admitProgram.dropLast := by
    simp [OutboundMessage.admitProgram, OutboundMessage.scopedPermits, OutboundMessage.queued]
  by_contra hne
  apply hbefore
  rw [← hdone, List.dropLast_append_of_ne_nil (by simp), List.dropLast_cons_of_ne_nil hne]
  simp

theorem WellFormed.admitted (h : t.WellFormed) {todo : List Micro} (htodo : t.todo = .tokens :: todo) :
    ({ t with stage := .reservation false, todo } : OutboundTask).WellFormed := by
  obtain ⟨hstage, rfl⟩ := h.atTokens htodo
  have hsettles := h.settles
  have honce := h.once
  have hown := h.own
  rw [htodo] at hsettles honce hown
  refine ⟨trivial, ?_, honce, hown, ?_, ?_, ?_, ?_, fun _ => rfl, h.positive,
    fun _ hmem => by cases hmem⟩
  · simpa [runHeld, target, hstage, taken, OutboundMessage.gauges] using hsettles
  · intro hst
    cases hst
  · intro _ op hop
    cases hop
  · intro _
    exact h.arc (by simp [hstage])
  · intro _ hmem
    cases hmem

/-- A rejected admission gives back its gauges, its slot and its permits. -/
theorem WellFormed.rejected (h : t.WellFormed) {todo : List Micro} (htodo : t.todo = .tokens :: todo)
    (e : AdmissionError) : (t.rejectPending [t.message.classSlot] e).WellFormed := by
  obtain ⟨hstage, rfl⟩ := h.atTokens htodo
  have hsettles := h.settles
  rw [htodo] at hsettles
  have hheld : t.held.Perm (t.message.queued ++ t.message.classSlot :: t.message.permits) := by
    simpa [runHeld, target, hstage, taken] using hsettles
  refine h.leave ?_ (some e)
  rw [List.append_nil]
  refine List.Perm.trans ?_ hheld.symm
  rw [List.append_assoc]
  exact ((List.reverse_perm _).cons _).append_left _

theorem WellFormed.stopped (h : t.WellFormed) (hstage : t.stage = .admission) (hat : t.atSlot = true)
    (e : AdmissionError) : (t.rejectPending [] e).WellFormed := by
  have hsettles := h.settles
  rw [of_decide_eq_true hat] at hsettles
  have hheld : (t.message.classSlot :: t.held).Perm
      (t.message.queued ++ t.message.classSlot :: t.message.permits) := by
    simpa [runHeld, target, hstage, taken] using hsettles
  refine h.leave ?_ (some e)
  rw [List.append_nil, List.append_nil]
  have hrest : t.held.Perm (t.message.queued ++ t.message.permits) :=
    (hheld.trans List.perm_middle).cons_inv
  exact ((List.reverse_perm _).append_left _).trans hrest.symm

theorem WellFormed.atRest (h : t.WellFormed) (htodo : t.todo = []) : t.held.Perm t.target := by
  have := h.settles
  rw [htodo] at this
  exact this

theorem WellFormed.release (h : t.WellFormed) {dispatched : Bool} (hstage : t.stage = .reservation dispatched)
    (htodo : t.todo = []) : (t.release dispatched).WellFormed := by
  have hheld := h.atRest htodo
  simp only [target, hstage] at hheld
  refine h.leave ?_ t.error
  refine List.Perm.trans ?_ hheld.symm
  exact (List.perm_append_singleton _ _).append_left _

/-- Dispatch turns the queued pair of gauges into the in-flight pair. -/
theorem WellFormed.dispatched (h : t.WellFormed) {dispatched : Bool}
    (hstage : t.stage = .reservation dispatched) (htodo : t.todo = []) :
    (t.markDispatched dispatched).WellFormed := by
  cases dispatched with
  | true => exact h
  | false =>
    have hheld := h.atRest htodo
    simp only [target, hstage, OutboundMessage.gauges, Bool.false_eq_true, if_false] at hheld
    have hmem : ∀ x ∈ t.message.queued, x ∈ t.held := fun x hx =>
      hheld.mem_iff.mpr (List.mem_append_left _ hx)
    set q₁ : Hold := (.queuedMessages t.message.trafficClass, 1) with hq₁
    set q₂ : Hold := (.queuedBytes t.message.trafficClass, t.message.bytes) with hq₂
    have hqueued : t.message.queued = [q₁, q₂] := rfl
    have herase : ((t.held.erase q₁).erase q₂).Perm (t.message.classSlot :: t.message.permits) := by
      have h₁ := (hheld.erase q₁).erase q₂
      rwa [hqueued, List.cons_append, List.erase_cons_head, List.singleton_append, List.erase_cons_head] at h₁
    have htaken : t.message.dispatchProgram.flatMap taken = t.message.inFlight := by
      simp [OutboundMessage.dispatchProgram, OutboundMessage.queued, OutboundMessage.inFlight, taken]
    have hall : (t.held ++ t.message.inFlight).Perm t.message.all := by
      refine (hheld.append_right _).trans ((List.perm_append_comm.append_right _).trans ?_)
      rw [List.append_assoc, List.cons_append]
      exact List.perm_middle.symm
    refine ⟨?_, ?_, ?_, ?_, ?_, ?_, ?_, ?_, ?_, h.positive, ?_⟩
    · change Legal t.message.dispatchProgram t.held
      have hne : q₂ ≠ q₁ := by simp [hq₁, hq₂]
      exact ⟨hmem q₁ (by simp [hqueued]),
        (List.mem_erase_of_ne hne).mpr (hmem q₂ (by simp [hqueued])), trivial⟩
    · change (runHeld t.message.dispatchProgram t.held).Perm
        (t.message.inFlight ++ t.message.classSlot :: t.message.permits)
      exact (List.Perm.swap _ _ _).trans ((herase.cons _).cons _)
    · change (t.held ++ t.message.dispatchProgram.flatMap taken).Nodup
      rw [htaken]
      exact hall.nodup_iff.mpr t.message.nodup_all
    · change ∀ x ∈ t.held ++ t.message.dispatchProgram.flatMap taken, x ∈ t.message.all
      rw [htaken]
      exact fun x hx => hall.mem_iff.mp hx
    · intro hst
      cases hst
    · intro _ op hop
      change op ∈ t.message.dispatchProgram at hop
      simp only [OutboundMessage.dispatchProgram, List.mem_append, List.mem_map] at hop
      rcases hop with ⟨x, -, rfl⟩ | ⟨x, -, rfl⟩
      · rfl
      · rfl
    · intro _
      exact h.arc (by simp [hstage])
    · intro _ hmem
      change Micro.dropArc ∈ t.message.dispatchProgram at hmem
      simp [OutboundMessage.dispatchProgram] at hmem
    · intro hst
      cases hst
    · intro x hx
      change Micro.put x ∈ t.message.dispatchProgram at hx
      have : x ∈ t.message.inFlight := by simpa [OutboundMessage.dispatchProgram] using hx
      exact List.mem_append_right _ this

theorem runHeld_taking :
    ∀ {todo : List Micro} {held : List Hold}, (∀ x, .giveBack x ∉ todo) →
      (runHeld todo held).Perm (todo.flatMap taken ++ held)
  | [], held, _ => .refl _
  | op :: todo, held, h => by
    have hrest : (runHeld todo (op.taken ++ held)).Perm (todo.flatMap taken ++ (op.taken ++ held)) :=
      runHeld_taking fun x hx => h x (List.mem_cons_of_mem op hx)
    have hop : runHeld (op :: todo) held = runHeld todo (op.taken ++ held) := by
      cases op with
      | giveBack x => exact absurd List.mem_cons_self (h x)
      | take x scope => rfl
      | slot x => rfl
      | tokens => rfl
      | put x => rfl
      | dropArc => rfl
    rw [hop, List.flatMap_cons, List.append_assoc]
    refine hrest.trans ?_
    rw [← List.append_assoc, ← List.append_assoc]
    exact List.perm_append_comm.append_right _

/-- An admission holds what it has taken so far. -/
theorem WellFormed.admission_held (h : t.WellFormed) (hstage : t.stage = .admission) :
    ∃ done, done ++ t.todo = t.message.admitProgram ∧ t.held.Perm (done.flatMap taken) := by
  obtain ⟨done, hdone⟩ := h.admission hstage
  refine ⟨done, hdone, ?_⟩
  have hnever : ∀ x, .giveBack x ∉ t.todo := by
    intro x hx
    have : .giveBack x ∈ t.message.admitProgram := hdone ▸ List.mem_append_right done hx
    simp [OutboundMessage.admitProgram] at this
  have hsettles := (runHeld_taking hnever).symm.trans h.settles
  have htarget : (t.message.admitProgram.flatMap taken).Perm t.target := by
    rw [t.message.taken_admitProgram, target, hstage, List.append_assoc]
    refine List.perm_append_comm.trans ?_
    rw [List.append_assoc, List.singleton_append]
  have hboth : (t.todo.flatMap taken ++ t.held).Perm (t.todo.flatMap taken ++ done.flatMap taken) := by
    refine (hsettles.trans htarget.symm).trans ?_
    rw [← hdone, List.flatMap_append]
    exact List.perm_append_comm
  exact (List.perm_append_left_iff _).mp hboth

theorem legal_given :
    ∀ {todo : List Micro} {held : List Hold}, todo.flatMap taken = [] → Legal todo held →
      held.Perm (todo.filterMap given ++ runHeld todo held)
  | [], held, _, _ => .refl _
  | op :: todo, held, hnothing, hlegal => by
    rw [List.flatMap_cons, List.append_eq_nil_iff] at hnothing
    cases op with
    | giveBack x =>
      have ih := legal_given hnothing.2 hlegal.2
      exact (List.perm_cons_erase hlegal.1).trans (ih.cons x)
    | tokens =>
      have ih := legal_given hnothing.2 hlegal
      exact ih
    | dropArc =>
      have ih := legal_given hnothing.2 hlegal
      exact ih
    | take x scope => cases hnothing.1
    | slot x => cases hnothing.1
    | put x => cases hnothing.1

/-- A task that leaves holds what it has yet to give back. -/
theorem WellFormed.leaving_held (h : t.WellFormed) (hstage : t.stage = .leaving) :
    t.held.Perm (t.todo.filterMap given) := by
  have hsettles := h.settles
  rw [target, hstage] at hsettles
  have := legal_given (h.shedding hstage) h.legal
  rwa [List.perm_nil.mp hsettles, List.append_nil] at this

theorem held_markDispatched (t : OutboundTask) (dispatched : Bool) :
    (t.markDispatched dispatched).held = t.held := by
  unfold markDispatched
  split_ifs
  · rfl
  · rfl

theorem WellFormed.setTicket (h : t.WellFormed) (ticket : Option ℕ) :
    ({ t with ticket } : OutboundTask).WellFormed :=
  ⟨h.legal, h.settles, h.once, h.own, h.admission, h.plain, h.arc, h.anchored, h.shedding, h.positive,
    h.gauge⟩

theorem wellFormed_start (m : OutboundMessage) (hpos : 1 ≤ m.bytes) :
    (⟨m, .admission, true, [], m.admitProgram, none, none⟩ : OutboundTask).WellFormed := by
  have htaken := m.taken_admitProgram
  have hsub : (m.permits ++ m.queued ++ [m.classSlot]).Perm (m.queued ++ m.classSlot :: m.permits) := by
    rw [List.append_assoc]
    refine List.perm_append_comm.trans ?_
    rw [List.append_assoc, List.singleton_append]
  have hnodup : (m.queued ++ m.classSlot :: m.permits).Nodup := by
    simp [OutboundMessage.queued, OutboundMessage.classSlot, OutboundMessage.permits,
      OutboundMessage.scopedPermits]
  refine ⟨?_, ?_, ?_, ?_, fun _ => List.suffix_rfl, fun h => absurd rfl h, fun _ => rfl, ?_, ?_,
    hpos, ?_⟩
  · simp [OutboundMessage.admitProgram, OutboundMessage.scopedPermits, OutboundMessage.queued, Legal]
  · change (runHeld m.admitProgram []).Perm (m.queued ++ m.classSlot :: m.permits)
    refine List.Perm.trans ?_ hsub
    have : runHeld m.admitProgram [] = (m.permits ++ m.queued ++ [m.classSlot]).reverse := by
      simp [OutboundMessage.admitProgram, OutboundMessage.scopedPermits, OutboundMessage.queued,
        OutboundMessage.permits, runHeld, taken]
    rw [this]
    exact List.reverse_perm _
  · change ([] ++ m.admitProgram.flatMap taken).Nodup
    rw [List.nil_append, htaken]
    exact hsub.nodup_iff.mpr hnodup
  · change ∀ x ∈ [] ++ m.admitProgram.flatMap taken, x ∈ m.all
    rw [List.nil_append, htaken]
    intro x hx
    simp only [OutboundMessage.all, List.mem_append, List.mem_cons] at hx ⊢
    tauto
  · intro _
    simp [OutboundMessage.admitProgram]
  · intro h
    cases h
  · intro x hx
    change Micro.put x ∈ m.admitProgram at hx
    have : x ∈ m.queued := by simpa [OutboundMessage.admitProgram] using hx
    exact List.mem_append_left _ this

end OutboundTask

/-! ### Permits and gauges -/

namespace Outbound

variable {s s' : Outbound} {i : ℕ} {t t' : OutboundTask}

/-- Every task is in shape, the accounts show what the tasks hold, and no semaphore is overdrawn. -/
structure Books (s : Outbound) : Prop where
  formed : ∀ t ∈ s.tasks, t.WellFormed
  balanced : Balanced s.balance OutboundTask.held s.tasks
  within : ∀ a ceiling, a.ceiling s.config = some ceiling → s.balance a ≤ ceiling

theorem Books.frame (h : s.Books) (htasks : s'.tasks = s.tasks) (hbalance : s'.balance = s.balance)
    (hconfig : s'.config = s.config) : s'.Books := by
  refine ⟨?_, ?_, ?_⟩
  · rw [htasks]
    exact h.formed
  · rw [htasks, hbalance]
    exact h.balanced
  · rw [hbalance, hconfig]
    exact h.within

theorem formed_set {tasks : List OutboundTask} (h : ∀ t ∈ tasks, t.WellFormed) (hformed : t'.WellFormed) :
    ∀ u ∈ tasks.set i t', u.WellFormed := by
  intro u hu
  rcases List.mem_or_eq_of_mem_set hu with hold | rfl
  · exact h u hold
  · exact hformed

/-- A task moves on and holds what it held. -/
theorem Books.move (h : s.Books) (ht : s.tasks[i]? = some t) (hformed : t'.WellFormed)
    (hheld : t'.held = t.held) : (s.goTo i t').Books :=
  ⟨formed_set h.formed hformed, h.balanced.move ht hheld, h.within⟩

theorem Books.take (h : s.Books) (ht : s.tasks[i]? = some t) (hformed : t'.WellFormed) {x : Hold}
    (hheld : t'.held = x :: t.held)
    (hfits : ∀ ceiling, x.1.ceiling s.config = some ceiling → s.balance x.1 + x.2 ≤ ceiling) :
    ({ s with balance := raise s.balance x.1 x.2 }.goTo i t').Books := by
  refine ⟨formed_set h.formed hformed, h.balanced.take ht hheld, ?_⟩
  intro a ceiling hceiling
  change raise s.balance x.1 x.2 a ≤ ceiling
  unfold raise
  by_cases ha : a = x.1
  · subst ha
    rw [if_pos rfl]
    exact hfits ceiling hceiling
  · rw [if_neg ha]
    exact h.within a ceiling hceiling

theorem Books.give (h : s.Books) (ht : s.tasks[i]? = some t) (hformed : t'.WellFormed) {x : Hold}
    (hx : x ∈ t.held) (hheld : t'.held = t.held.erase x) :
    ({ s with balance := lower s.balance x.1 x.2 }.goTo i t').Books := by
  refine ⟨formed_set h.formed hformed, h.balanced.give ht hx hheld, ?_⟩
  intro a ceiling hceiling
  change lower s.balance x.1 x.2 a ≤ ceiling
  have hle := h.balanced.le (List.mem_of_getElem? ht) hx
  have hold := h.within a ceiling hceiling
  unfold lower
  by_cases ha : a = x.1
  · subst ha
    rw [if_pos rfl, wrapSub, if_pos hle]
    omega
  · rw [if_neg ha]
    exact hold

theorem Books.push (h : s.Books) (hformed : t.WellFormed) (hheld : t.held = []) :
    ({ s with tasks := s.tasks ++ [t] } : Outbound).Books := by
  refine ⟨?_, h.balanced.push hheld, h.within⟩
  intro u hu
  rcases List.mem_append.mp hu with hold | hnew
  · exact h.formed u hold
  · rw [List.mem_singleton.mp hnew]
    exact hformed

theorem available_iff {x : Hold} : s.available x = true ↔
    ∀ ceiling, x.1.ceiling s.config = some ceiling → s.balance x.1 + x.2 ≤ ceiling := by
  unfold available
  cases h : x.1.ceiling s.config with
  | none => simp
  | some ceiling => simp

/-- A gauge has no ceiling. -/
theorem ceiling_of_put {m : OutboundMessage} {x : Hold} (h : x ∈ m.queued ++ m.inFlight)
    (config : SchedulerConfig) : x.1.ceiling config = none := by
  simp only [OutboundMessage.queued, OutboundMessage.inFlight, List.cons_append, List.nil_append,
    List.mem_cons, List.not_mem_nil, or_false] at h
  rcases h with rfl | rfl | rfl | rfl <;> rfl

theorem advance_books (h : s.Books) (ht : s.tasks[i]? = some t) (granted : Bool) :
    (s.advanceTask i t granted).Books := by
  have hf := h.formed t (List.mem_of_getElem? ht)
  unfold advanceTask
  split
  · exact h
  · rename_i x scope todo htodo
    by_cases hav : s.available x = true
    · rw [if_pos hav]
      exact h.take ht (hf.take htodo rfl) rfl (available_iff.mp hav)
    · rw [if_neg hav]
      exact h.move ht (hf.leave (by rw [List.append_nil]) _) rfl
  · rename_i x todo htodo
    by_cases hav : s.available x = true
    · rw [if_pos hav]
      exact h.take ht (hf.take htodo rfl) rfl (available_iff.mp hav)
    · rw [if_neg hav]
      exact h
  · rename_i todo htodo
    cases granted with
    | true => exact h.move ht (hf.admitted htodo) rfl
    | false => exact h.move ht (hf.rejected htodo _) rfl
  · rename_i x todo htodo
    refine h.take ht (hf.take htodo rfl) rfl ?_
    intro ceiling hceiling
    rw [ceiling_of_put (hf.gauge x (by simp [htodo])) s.config] at hceiling
    cases hceiling
  · rename_i x todo htodo
    exact h.give ht (hf.giveBack htodo).2 (hf.giveBack htodo).1 rfl
  · rename_i todo htodo
    exact h.move ht (hf.dropArc htodo) rfl

theorem stopWaiting_books (h : s.Books) (i : ℕ) (e : TrafficClass → AdmissionError) :
    (s.stopWaiting i e).Books := by
  unfold stopWaiting
  split
  · rename_i t ht
    by_cases hat : t.stage = .admission ∧ t.atSlot = true
    · rw [if_pos hat]
      exact h.move ht ((h.formed t (List.mem_of_getElem? ht)).stopped hat.1 hat.2 _) rfl
    · rw [if_neg hat]
      exact h
  · exact h

/-- An action on a reservation at rest keeps a property if its body does. -/
theorem onReservation_keeps {P : Outbound → Prop} (h : P s) (i : ℕ) {f : OutboundTask → Bool → Outbound}
    (hf : ∀ t dispatched, s.tasks[i]? = some t → t.stage = .reservation dispatched → t.todo = [] →
      P (f t dispatched)) : P (s.onReservation i f) := by
  unfold onReservation
  split
  · rename_i t ht
    split
    · rename_i dispatched hstage
      by_cases htodo : t.todo = []
      · rw [if_pos htodo]
        exact hf t dispatched ht hstage htodo
      · rw [if_neg htodo]
        exact h
    · exact h
  · exact h

theorem peerBudget_frame {peer : PeerAddr} {victim : Option PeerAddr} {budget : ℕ}
    (h : s.peerBudget peer victim = some (s', budget)) :
    s'.tasks = s.tasks ∧ s'.balance = s.balance ∧ s'.config = s.config := by
  unfold peerBudget at h
  have hremove : ∀ v, (s.removePeer v).tasks = s.tasks ∧ (s.removePeer v).balance = s.balance ∧
      (s.removePeer v).config = s.config := by
    intro v
    unfold removePeer
    split_ifs
    · exact ⟨rfl, rfl, rfl⟩
    · exact ⟨rfl, rfl, rfl⟩
  split at h
  · cases h
    exact ⟨rfl, rfl, rfl⟩
  · split_ifs at h
    · split at h
      · rename_i v
        split_ifs at h
        cases h
        exact hremove v
      · cases h
    · cases h
      exact ⟨rfl, rfl, rfl⟩

theorem step_books (h : s.Books) (a : OutboundAction) : (s.step a).Books := by
  cases a with
  | admission peer c bytes victim =>
    simp only [step, admission]
    split
    · exact h
    · split
      · exact h
      · rename_i s₁ budget hbudget
        obtain ⟨htasks, hbalance, hconfig⟩ := peerBudget_frame hbudget
        exact (h.frame htasks hbalance hconfig).push
          (OutboundTask.wellFormed_start _ (le_max_right bytes 1)) rfl
  | advance i granted =>
    simp only [step]
    split
    · rename_i t ht
      exact advance_books h ht granted
    · exact h
  | expire i => exact stopWaiting_books h i _
  | cancel i => exact stopWaiting_books h i fun _ => .cancelled
  | awaitDispatch i =>
    refine onReservation_keeps h i fun t dispatched ht hstage htodo => ?_
    unfold awaitDispatch
    dsimp only
    split_ifs
    · have hf := (h.formed t (List.mem_of_getElem? ht)).setTicket (some (s.dispatch t.message.budget).nextTicket)
      exact (h.move ht hf rfl).frame rfl rfl rfl
    · exact h
  | grantDispatch i =>
    refine onReservation_keeps h i fun t dispatched ht hstage htodo => ?_
    have hf := (h.formed t (List.mem_of_getElem? ht)).setTicket none
    unfold grantDispatch
    dsimp only
    split_ifs
    · exact (h.move ht (hf.dispatched hstage htodo) (OutboundTask.held_markDispatched _ _)).frame rfl rfl rfl
    · exact h
  | abandonDispatch i =>
    refine onReservation_keeps h i fun t dispatched ht hstage htodo => ?_
    unfold abandonDispatch
    dsimp only
    split_ifs
    · have hf := (h.formed t (List.mem_of_getElem? ht)).setTicket none
      exact (h.move ht hf rfl).frame rfl rfl rfl
    · exact h
  | dropPermit k =>
    simp only [step, dropPermit]
    split
    · exact h.frame rfl rfl rfl
    · exact h
  | startIndependentDispatch i =>
    refine onReservation_keeps h i fun t dispatched ht hstage htodo => ?_
    exact h.move ht ((h.formed t (List.mem_of_getElem? ht)).dispatched hstage htodo)
      (OutboundTask.held_markDispatched _ _)
  | release i =>
    refine onReservation_keeps h i fun t dispatched ht hstage htodo => ?_
    split_ifs
    · exact h.move ht ((h.formed t (List.mem_of_getElem? ht)).release hstage htodo) rfl
    · exact h
  | removePeer peer =>
    simp only [step, removePeer]
    split_ifs
    · exact h.frame rfl rfl rfl
    · exact h

/-! ### One budget a peer -/

/-- The task refers to its budget: by the reference itself, or by a permit of the peer's totals. -/
def Refers (t : OutboundTask) : Prop :=
  t.arc = true ∨ ∃ x ∈ t.held, x.1 = .peerMessages t.message.budget ∨ x.1 = .peerBytes t.message.budget

/-- The budget `budget` of `peer` is in use by a task or a dispatch permit. -/
def InUse (s : Outbound) (peer : PeerAddr) (budget : ℕ) : Prop :=
  (∃ t ∈ s.tasks, t.message.peer = peer ∧ t.message.budget = budget ∧ Refers t) ∨ (peer, budget) ∈ s.permits

/-- A budget in use is the one the map has for its peer, and a dispatch permit is alone. -/
structure Mapped (s : Outbound) : Prop where
  tasks : ∀ t ∈ s.tasks, Refers t → s.peers.lookup t.message.peer = some t.message.budget
  permits : ∀ p ∈ s.permits, s.peers.lookup p.1 = some p.2
  active : ∀ p ∈ s.permits, (s.dispatch p.2).active = true
  alone : (s.permits.map Prod.snd).Nodup

theorem positive_of_held {x : Hold} (hf : t.WellFormed) (hx : x ∈ t.held) : 0 < x.2 := by
  have hpos := hf.positive
  have hall := hf.own x (List.mem_append_left _ hx)
  simp only [OutboundMessage.all, OutboundMessage.permits, OutboundMessage.scopedPermits,
    OutboundMessage.classSlot, OutboundMessage.queued, OutboundMessage.inFlight, List.map_cons, List.map_nil,
    List.cons_append, List.nil_append, List.mem_cons, List.not_mem_nil, or_false] at hall
  rcases hall with rfl | rfl | rfl | rfl | rfl | rfl | rfl | rfl | rfl | rfl | rfl | rfl | rfl
  all_goals first
    | exact Nat.one_pos
    | exact hpos

/-- What may be evicted is in nobody's use. -/
theorem unused_of_evictable (hb : s.Books) (h : s.Mapped) {peer : PeerAddr}
    (hev : s.evictable peer = true) :
    (∀ t ∈ s.tasks, t.message.peer = peer → ¬ Refers t) ∧ ∀ p ∈ s.permits, p.1 ≠ peer := by
  unfold evictable at hev
  obtain ⟨budget, hlookup, hev⟩ := (Option.any_eq_true _ _).mp hev
  simp only [Bool.and_eq_true, idle, unshared, PriorityState.idle, decide_eq_true_eq, Bool.not_eq_true',
    List.any_eq_false] at hev
  obtain ⟨hunshared, ⟨hbytes, hmessages⟩, hinactive, -⟩ := hev
  constructor
  · intro t ht hpeer hrefers
    have hbudget : t.message.budget = budget := by
      have := h.tasks t ht hrefers
      rw [hpeer, hlookup, Option.some.injEq] at this
      exact this.symm
    rcases hrefers with harc | ⟨x, hx, htotal⟩
    · have := hunshared t ht
      simp [harc, hbudget] at this
    · have hle := hb.balanced.le ht hx
      have hpos := positive_of_held (hb.formed t ht) hx
      rcases htotal with hmsg | hbyte
      · rw [hmsg, hbudget, hmessages] at hle
        omega
      · rw [hbyte, hbudget, hbytes] at hle
        omega
  · intro p hp heq
    have hmapped := h.permits p hp
    rw [heq, hlookup, Option.some.injEq] at hmapped
    have := h.active p hp
    rw [← hmapped, hinactive] at this
    cases this

theorem removePeer_mapped (hb : s.Books) (h : s.Mapped) (peer : PeerAddr) : (s.removePeer peer).Mapped := by
  unfold removePeer
  by_cases hev : s.evictable peer = true
  · rw [if_pos hev]
    obtain ⟨htasks, hpermits⟩ := unused_of_evictable hb h hev
    refine ⟨?_, ?_, h.active, h.alone⟩
    · intro t ht hrefers
      change (s.peers.erase peer).lookup t.message.peer = some t.message.budget
      rw [Table.lookup_erase_ite, if_neg fun heq => htasks t ht heq hrefers]
      exact h.tasks t ht hrefers
    · intro p hp
      change (s.peers.erase peer).lookup p.1 = some p.2
      rw [Table.lookup_erase_ite, if_neg (hpermits p hp)]
      exact h.permits p hp
  · rw [if_neg hev]
    exact h

theorem makeBudget_mapped (h : s.Mapped) {peer : PeerAddr} (hnone : s.peers.lookup peer = none) :
    (s.makeBudget peer).Mapped := by
  have hne : ∀ p budget, s.peers.lookup p = some budget → p ≠ peer := by
    intro p budget hp heq
    rw [heq, hnone] at hp
    cases hp
  refine ⟨?_, ?_, h.active, h.alone⟩
  · intro t ht hrefers
    have hp := h.tasks t ht hrefers
    change (s.peers.insert peer s.budgets).lookup t.message.peer = some t.message.budget
    rw [Table.lookup_insert_ite, if_neg (hne _ _ hp), hp]
  · intro p hp
    have hp' := h.permits p hp
    change (s.peers.insert peer s.budgets).lookup p.1 = some p.2
    rw [Table.lookup_insert_ite, if_neg (hne _ _ hp'), hp']

theorem peerBudget_mapped (hb : s.Books) (h : s.Mapped) {peer : PeerAddr} {victim : Option PeerAddr}
    {budget : ℕ} (hbudget : s.peerBudget peer victim = some (s', budget)) :
    s'.Mapped ∧ s'.peers.lookup peer = some budget := by
  have hmake : ∀ u : Outbound, (u.makeBudget peer).peers.lookup peer = some u.budgets := by
    intro u
    change (u.peers.insert peer u.budgets).lookup peer = some u.budgets
    rw [Table.lookup_insert_ite, if_pos rfl]
  unfold peerBudget at hbudget
  split at hbudget
  · rename_i found hfound
    cases hbudget
    exact ⟨h, hfound⟩
  · rename_i hnone
    split_ifs at hbudget with hfull
    · split at hbudget
      · rename_i v
        split_ifs at hbudget with hev
        cases hbudget
        have hkeep : (s.removePeer v).peers.lookup peer = none := by
          unfold removePeer
          rw [if_pos hev]
          change (s.peers.erase v).lookup peer = none
          rw [Table.lookup_erase_ite, hnone, ite_self]
        have hcount : (s.removePeer v).budgets = s.budgets := by
          unfold removePeer
          rw [if_pos hev]
        exact ⟨makeBudget_mapped (removePeer_mapped hb h v) hkeep, hcount ▸ hmake _⟩
      · cases hbudget
    · cases hbudget
      exact ⟨makeBudget_mapped h hnone, hmake s⟩

/-- A task moves on and refers to no more than before. -/
theorem Mapped.move (h : s.Mapped) (ht : s.tasks[i]? = some t) (htasks : s'.tasks = s.tasks.set i t')
    (hmessage : t'.message = t.message) (hrefers : Refers t' → Refers t) (hpeers : s'.peers = s.peers)
    (hpermits : ∀ p ∈ s'.permits, s.peers.lookup p.1 = some p.2)
    (hactive : ∀ p ∈ s'.permits, (s'.dispatch p.2).active = true)
    (halone : (s'.permits.map Prod.snd).Nodup) : s'.Mapped := by
  refine ⟨?_, ?_, hactive, halone⟩
  · intro u hu hr
    rw [htasks] at hu
    rw [hpeers]
    rcases List.mem_or_eq_of_mem_set hu with hold | rfl
    · exact h.tasks u hold hr
    · rw [hmessage]
      exact h.tasks t (List.mem_of_getElem? ht) (hrefers hr)
  · rw [hpeers]
    exact hpermits

/-- The same, where dispatch is not touched. -/
theorem Mapped.quiet (h : s.Mapped) (ht : s.tasks[i]? = some t) (htasks : s'.tasks = s.tasks.set i t')
    (hmessage : t'.message = t.message) (hrefers : Refers t' → Refers t) (hpeers : s'.peers = s.peers)
    (hpermits : s'.permits = s.permits) (hdispatch : s'.dispatch = s.dispatch) : s'.Mapped := by
  refine h.move ht htasks hmessage hrefers hpeers ?_ ?_ ?_
  · rw [hpermits]
    exact h.permits
  · rw [hpermits, hdispatch]
    exact h.active
  · rw [hpermits]
    exact h.alone

theorem refers_of_take {t : OutboundTask} (hf : t.WellFormed) {op : Micro} {x : Hold} {todo : List Micro}
    (htodo : t.todo = op :: todo) (htaken : op.taken = [x]) : Refers t := by
  refine .inl (hf.arc fun hleaving => ?_)
  have := hf.shedding hleaving
  rw [htodo, List.flatMap_cons, htaken] at this
  cases this

theorem advance_mapped (hb : s.Books) (h : s.Mapped) (ht : s.tasks[i]? = some t) (granted : Bool) :
    (s.advanceTask i t granted).Mapped := by
  have hf := hb.formed t (List.mem_of_getElem? ht)
  unfold advanceTask
  split
  · exact h
  · rename_i x scope todo htodo
    by_cases hav : s.available x = true
    · rw [if_pos hav]
      exact h.quiet ht rfl rfl (fun _ => refers_of_take hf htodo rfl) rfl rfl rfl
    · rw [if_neg hav]
      exact h.quiet ht rfl rfl (fun hr => hr) rfl rfl rfl
  · rename_i x todo htodo
    by_cases hav : s.available x = true
    · rw [if_pos hav]
      exact h.quiet ht rfl rfl (fun _ => refers_of_take hf htodo rfl) rfl rfl rfl
    · rw [if_neg hav]
      exact h
  · cases granted with
    | true => exact h.quiet ht rfl rfl (fun hr => hr) rfl rfl rfl
    | false => exact h.quiet ht rfl rfl (fun hr => hr) rfl rfl rfl
  · rename_i x todo htodo
    exact h.quiet ht rfl rfl (fun _ => refers_of_take hf htodo rfl) rfl rfl rfl
  · refine h.quiet ht rfl rfl ?_ rfl rfl rfl
    rintro (harc | ⟨x, hx, htotal⟩)
    · exact .inl harc
    · exact .inr ⟨x, List.mem_of_mem_erase hx, htotal⟩
  · refine h.quiet ht rfl rfl ?_ rfl rfl rfl
    rintro (harc | hheld)
    · cases harc
    · exact .inr hheld

theorem message_markDispatched (t : OutboundTask) (dispatched : Bool) :
    (t.markDispatched dispatched).message = t.message ∧ (t.markDispatched dispatched).arc = t.arc := by
  unfold OutboundTask.markDispatched
  split_ifs
  · exact ⟨rfl, rfl⟩
  · exact ⟨rfl, rfl⟩

theorem refers_markDispatched (t : OutboundTask) (dispatched : Bool) :
    Refers (t.markDispatched dispatched) ↔ Refers t := by
  unfold Refers
  rw [OutboundTask.held_markDispatched, (message_markDispatched t dispatched).1,
    (message_markDispatched t dispatched).2]

theorem stopWaiting_mapped (h : s.Mapped) (i : ℕ) (e : TrafficClass → AdmissionError) :
    (s.stopWaiting i e).Mapped := by
  unfold stopWaiting
  split
  · rename_i t ht
    split_ifs
    · exact h.quiet ht rfl rfl (fun hr => hr) rfl rfl rfl
    · exact h
  · exact h

theorem grantDispatch_mapped (hb : s.Books) (h : s.Mapped) (ht : s.tasks[i]? = some t) {dispatched : Bool}
    (hstage : t.stage = .reservation dispatched) : (s.grantDispatch i t dispatched).Mapped := by
  unfold grantDispatch
  dsimp only
  split_ifs with hgrant
  · have harc : t.arc = true := (hb.formed t (List.mem_of_getElem? ht)).arc (by simp [hstage])
    have hmapped := h.tasks t (List.mem_of_getElem? ht) (.inl harc)
    -- The budget's gate was free, so no permit of it is out.
    have hnew : t.message.budget ∉ s.permits.map Prod.snd := by
      intro hmem
      obtain ⟨p, hp, heq⟩ := List.mem_map.mp hmem
      have := h.active p hp
      rw [heq, hgrant.2.1] at this
      cases this
    refine h.move ht rfl (message_markDispatched _ _).1 (refers_markDispatched _ _).mp rfl ?_ ?_ ?_
    · intro p hp
      rcases List.mem_append.mp hp with hold | hlast
      · exact h.permits p hold
      · rw [List.mem_singleton.mp hlast]
        exact hmapped
    · intro p hp
      change (if p.2 = t.message.budget then _ else s.dispatch p.2 : PriorityState).active = true
      split_ifs with heq
      · rfl
      · rcases List.mem_append.mp hp with hold | hlast
        · exact h.active p hold
        · exact absurd (by rw [List.mem_singleton.mp hlast]) heq
    · change ((s.permits ++ [(t.message.peer, t.message.budget)]).map Prod.snd).Nodup
      rw [List.map_append, List.map_singleton, List.nodup_append]
      refine ⟨h.alone, by simp, ?_⟩
      intro x hx y hy heq
      rw [heq, List.mem_singleton.mp hy] at hx
      exact hnew hx
  · exact h

/-- Joining or leaving a dispatch queue leaves its gate alone. -/
theorem waiters_mapped (h : s.Mapped) (ht : s.tasks[i]? = some t) (d : PriorityState)
    (hactive : d.active = (s.dispatch t.message.budget).active) (ticket : Option ℕ) :
    ((s.setDispatch t.message.budget d).goTo i { t with ticket }).Mapped := by
  refine h.move ht rfl rfl (fun hr => hr) rfl h.permits ?_ h.alone
  intro p hp
  change (if p.2 = t.message.budget then d else s.dispatch p.2 : PriorityState).active = true
  split_ifs with heq
  · rw [hactive, ← heq]
    exact h.active p hp
  · exact h.active p hp

theorem dropPermit_mapped (h : s.Mapped) (k : ℕ) : (s.dropPermit k).Mapped := by
  unfold dropPermit
  split
  · rename_i peer budget hk
    have hsub : ∀ p ∈ s.permits.eraseIdx k, p ∈ s.permits := fun p hp => (List.eraseIdx_sublist _ _).subset hp
    refine ⟨h.tasks, fun p hp => h.permits p (hsub p hp), ?_, ?_⟩
    · intro p hp
      change (if p.2 = budget then _ else s.dispatch p.2 : PriorityState).active = true
      -- The gate that opens belongs to the permit that goes, and to no other.
      have hne : p.2 ≠ budget := by
        intro heq
        obtain ⟨j, hj⟩ := List.getElem?_of_mem hp
        have hjk : ∃ m, m ≠ k ∧ s.permits[m]? = some p := by
          rw [List.getElem?_eraseIdx] at hj
          split_ifs at hj with hlt
          · exact ⟨j, by omega, hj⟩
          · exact ⟨j + 1, by omega, hj⟩
        obtain ⟨m, hmk, hm⟩ := hjk
        have h₁ : (s.permits.map Prod.snd)[m]? = some budget := by simp [hm, heq]
        have h₂ : (s.permits.map Prod.snd)[k]? = some budget := by simp [hk]
        have hlt : m < (s.permits.map Prod.snd).length := (List.getElem?_eq_some_iff.mp h₁).1
        exact hmk ((List.getElem?_inj hlt h.alone).mp (h₁.trans h₂.symm))
      rw [if_neg hne]
      exact h.active p (hsub p hp)
    · exact h.alone.sublist ((List.eraseIdx_sublist _ _).map _)
  · exact h

theorem admission_mapped (hb : s.Books) (h : s.Mapped) (peer : PeerAddr) (c : TrafficClass) (bytes : ℕ)
    (victim : Option PeerAddr) : (s.admission peer c bytes victim).Mapped := by
  unfold admission
  dsimp only
  split
  · exact h
  · split
    · exact h
    · rename_i s₁ budget hbudget
      obtain ⟨hmapped, hlookup⟩ := peerBudget_mapped hb h hbudget
      refine ⟨?_, hmapped.permits, hmapped.active, hmapped.alone⟩
      intro t ht hrefers
      rcases List.mem_append.mp ht with hold | hnew
      · exact hmapped.tasks t hold hrefers
      · rw [List.mem_singleton.mp hnew]
        exact hlookup

theorem step_mapped (hb : s.Books) (h : s.Mapped) (a : OutboundAction) : (s.step a).Mapped := by
  cases a with
  | admission peer c bytes victim => exact admission_mapped hb h peer c bytes victim
  | advance i granted =>
    simp only [step]
    split
    · rename_i t ht
      exact advance_mapped hb h ht granted
    · exact h
  | expire i => exact stopWaiting_mapped h i _
  | cancel i => exact stopWaiting_mapped h i fun _ => .cancelled
  | awaitDispatch i =>
    refine onReservation_keeps h i fun t dispatched ht hstage htodo => ?_
    unfold awaitDispatch
    dsimp only
    split_ifs
    · apply waiters_mapped h ht
      rfl
    · exact h
  | grantDispatch i =>
    exact onReservation_keeps h i fun t dispatched ht hstage htodo => grantDispatch_mapped hb h ht hstage
  | abandonDispatch i =>
    refine onReservation_keeps h i fun t dispatched ht hstage htodo => ?_
    unfold abandonDispatch
    dsimp only
    split_ifs
    · apply waiters_mapped h ht
      rfl
    · exact h
  | dropPermit k => exact dropPermit_mapped h k
  | startIndependentDispatch i =>
    refine onReservation_keeps h i fun t dispatched ht hstage htodo => ?_
    exact h.quiet ht rfl (message_markDispatched _ _).1 (refers_markDispatched _ _).mp rfl rfl rfl
  | release i =>
    refine onReservation_keeps h i fun t dispatched ht hstage htodo => ?_
    split_ifs
    · exact h.quiet ht rfl rfl (fun hr => hr) rfl rfl rfl
    · exact h
  | removePeer peer => exact removePeer_mapped hb h peer

theorem Mapped.one_budget (h : s.Mapped) {peer : PeerAddr} {b b' : ℕ} (hb : s.InUse peer b)
    (hb' : s.InUse peer b') : b = b' := by
  have hlookup : ∀ c, s.InUse peer c → s.peers.lookup peer = some c := by
    rintro c (⟨t, ht, rfl, rfl, hrefers⟩ | hpermit)
    · exact h.tasks t ht hrefers
    · exact h.permits (peer, c) hpermit
  have := (hlookup b hb).symm.trans (hlookup b' hb')
  exact Option.some.inj this

/-! ### The slots left to blocks and control frames -/

/-- What the tasks of the critical classes hold on an account. -/
def criticalOn (s : Outbound) (a : Account) : ℕ :=
  weigh (fun t => if t.message.trafficClass.critical then on a t.held else 0) s.tasks

/-- No task of a lower class stands between its permit of `total` and that of its class. -/
def Settled (s : Outbound) (total : Account) (part : TrafficClass → Account) : Prop :=
  ∀ t ∈ s.tasks, t.message.trafficClass.critical = false → (total, 1) ∈ t.held →
    (part t.message.trafficClass, 1) ∈ t.held

/-- The message slots of a total are the critical ones and those that the lower classes count too. -/
theorem Books.total_le (h : s.Books) {total : Account} {part : TrafficClass → Account}
    (hunit : ∀ t ∈ s.tasks, ∀ x ∈ t.held, x.1 = total → x.2 = 1) (hsettled : s.Settled total part) :
    s.balance total ≤ s.criticalOn total + s.balance (part .transaction) + s.balance (part .bootstrap) +
      s.balance (part .registration) := by
  have hone : ∀ t ∈ s.tasks, on total t.held ≤
      (if t.message.trafficClass.critical then on total t.held else 0) + on (part .transaction) t.held +
        on (part .bootstrap) t.held + on (part .registration) t.held := by
    intro t ht
    by_cases hcritical : t.message.trafficClass.critical = true
    · rw [if_pos hcritical]
      omega
    · have hlower := on_le_on ((h.formed t ht).once.of_append_left) (hunit t ht)
        (hsettled t ht (by simpa using hcritical))
      cases hclass : t.message.trafficClass with
      | block => simp [hclass, TrafficClass.critical] at hcritical
      | control => simp [hclass, TrafficClass.critical] at hcritical
      | transaction =>
        rw [hclass] at hlower
        omega
      | bootstrap =>
        rw [hclass] at hlower
        omega
      | registration =>
        rw [hclass] at hlower
        omega
  have hsum := weigh_mono hone
  rw [weigh_add, weigh_add, weigh_add] at hsum
  rw [h.balanced total, h.balanced (part .transaction), h.balanced (part .bootstrap),
    h.balanced (part .registration)]
  exact hsum

theorem unit_of_messages {m : OutboundMessage} {x : Hold} (hx : x ∈ m.all)
    (htotal : x.1 = .globalMessages ∨ ∃ b, x.1 = .peerMessages b) : x.2 = 1 := by
  simp only [OutboundMessage.all, OutboundMessage.permits, OutboundMessage.scopedPermits,
    OutboundMessage.classSlot, OutboundMessage.queued, OutboundMessage.inFlight, List.map_cons, List.map_nil,
    List.cons_append, List.nil_append, List.mem_cons, List.not_mem_nil, or_false] at hx
  rcases hx with rfl | rfl | rfl | rfl | rfl | rfl | rfl | rfl | rfl | rfl | rfl | rfl | rfl
  all_goals simp_all

theorem Books.unit (h : s.Books) {total : Account}
    (htotal : total = .globalMessages ∨ ∃ b, total = .peerMessages b) :
    ∀ t ∈ s.tasks, ∀ x ∈ t.held, x.1 = total → x.2 = 1 := by
  intro t ht x hx heq
  exact unit_of_messages ((h.formed t ht).own x (List.mem_append_left _ hx)) (by rw [heq]; exact htotal)

variable {g p m : ℕ}

theorem critical_slot_global (h : s.Books) (hconfig : s.config = .new g p m)
    (hsettled : s.Settled .globalMessages .classMessages) (hroom : s.criticalOn .globalMessages < 128) :
    s.available (.globalMessages, 1) = true := by
  have htotal := h.total_le (h.unit (.inl rfl)) hsettled
  have htx := h.within (.classMessages .transaction) 256 (by rw [hconfig]; rfl)
  have hboot := h.within (.classMessages .bootstrap) 64 (by rw [hconfig]; rfl)
  have hreg := h.within (.classMessages .registration) 64 (by rw [hconfig]; rfl)
  apply available_iff.mpr
  intro ceiling hceiling
  have : ceiling = 512 := by
    rw [hconfig] at hceiling
    exact (Option.some.inj hceiling).symm
  dsimp only
  omega

theorem critical_slot_peer (h : s.Books) (hconfig : s.config = .new g p m) (b : ℕ)
    (hsettled : s.Settled (.peerMessages b) (.peerClassMessages b))
    (hroom : s.criticalOn (.peerMessages b) < 6) : s.available (.peerMessages b, 1) = true := by
  have htotal := h.total_le (h.unit (.inr ⟨b, rfl⟩)) hsettled
  have htx := h.within (.peerClassMessages b .transaction) 6 (by rw [hconfig]; rfl)
  have hboot := h.within (.peerClassMessages b .bootstrap) 3 (by rw [hconfig]; rfl)
  have hreg := h.within (.peerClassMessages b .registration) 1 (by rw [hconfig]; rfl)
  apply available_iff.mpr
  intro ceiling hceiling
  have : ceiling = 16 := by
    rw [hconfig] at hceiling
    exact (Option.some.inj hceiling).symm
  dsimp only
  omega

/-- The account whose permit the task in place `i` is refused by its next step, if it is. -/
def refusal (s : Outbound) (i : ℕ) : Option Account :=
  match s.tasks[i]? with
  | some t =>
    match t.todo with
    | .take x scope :: _ =>
      if (s.step (.advance i false)).tasks[i]? = some (t.refuse (.queueFull t.message.trafficClass scope)) then
        some x.1
      else none
    | _ => none
  | none => none

/-- What a refusal says about the state. -/
theorem refusal_spec (h : s.Books) {a : Account} (href : s.refusal i = some a) :
    ∃ x, x.1 = a ∧ s.available x = false ∧
      ((a = .globalMessages ∨ ∃ b, a = .peerMessages b) → x.2 = 1) := by
  unfold refusal at href
  split at href
  · rename_i t ht
    split at href
    · rename_i x scope todo htodo
      split_ifs at href with hstep
      have ha : x.1 = a := Option.some.inj href
      refine ⟨x, ha, ?_, ?_⟩
      · by_contra hav
        have hav : s.available x = true := by simpa using hav
        have hlt : i < s.tasks.length := (List.getElem?_eq_some_iff.mp ht).1
        simp only [step, ht, advanceTask, htodo, if_pos hav, goTo, List.getElem?_set, hlt, if_true,
          Option.some.injEq] at hstep
        have hheld := congrArg (fun u => u.held.length) hstep
        simp [OutboundTask.refuse, OutboundTask.leave] at hheld
      · intro htotal
        have hx : x ∈ t.held ++ t.todo.flatMap taken := by simp [htodo, taken]
        refine unit_of_messages ((h.formed t (List.mem_of_getElem? ht)).own x hx) ?_
        rw [ha]
        exact htotal
    · cases href
  · cases href

theorem refusal_of_available (h : s.Books) {a : Account} (hav : s.available (a, 1) = true)
    (htotal : a = .globalMessages ∨ ∃ b, a = .peerMessages b) : s.refusal i ≠ some a := by
  intro href
  obtain ⟨x, hx, hnot, hunit⟩ := refusal_spec h href
  have : x = (a, 1) := Prod.ext hx (hunit htotal)
  rw [this, hav] at hnot
  cases hnot

/-! ### Whole runs -/

/-- What the accounts of the scheduler say about its tasks. -/
structure OutboundAccounted (s : Outbound) : Prop where
  sums : ∀ a, s.balance a = weigh (fun t => on a t.held) s.tasks
  admissions : ∀ t ∈ s.tasks, t.stage = .admission →
    ∃ done, done ++ t.todo = t.message.admitProgram ∧ t.held.Perm (done.flatMap taken)
  reservations : ∀ t ∈ s.tasks, ∀ dispatched, t.stage = .reservation dispatched → t.todo = [] →
    t.held.Perm (t.message.gauges dispatched ++ t.message.classSlot :: t.message.permits)
  leavers : ∀ t ∈ s.tasks, t.stage = .leaving → t.held.Perm (t.todo.filterMap given)
  ceilings : ∀ a ceiling, a.ceiling s.config = some ceiling → s.balance a ≤ ceiling
  emptied : (∀ t ∈ s.tasks, t.stage = .leaving ∧ t.todo = []) → ∀ a, s.balance a = 0
  covered : ∀ t ∈ s.tasks, ∀ x todo, t.todo = .giveBack x :: todo → x.2 ≤ s.balance x.1
  oneBudget : ∀ peer b b', s.InUse peer b → s.InUse peer b' → b = b'
  globalSlots : s.Settled .globalMessages .classMessages → s.criticalOn .globalMessages < 128 →
    ∀ i, s.refusal i ≠ some .globalMessages
  peerSlots : ∀ b, s.Settled (.peerMessages b) (.peerClassMessages b) → s.criticalOn (.peerMessages b) < 6 →
    ∀ i, s.refusal i ≠ some (.peerMessages b)

/-- The state after a list of actions. -/
def run (s : Outbound) (actions : List OutboundAction) : Outbound := actions.foldl step s

theorem step_config (s : Outbound) (a : OutboundAction) : (s.step a).config = s.config := by
  cases a with
  | admission peer c bytes victim =>
    simp only [step, admission]
    split
    · rfl
    · split
      · rfl
      · rename_i s₁ budget hbudget
        exact (peerBudget_frame hbudget).2.2
  | advance i granted =>
    simp only [step]
    split
    · unfold advanceTask goTo
      split <;> (try split_ifs) <;> rfl
    · rfl
  | expire i =>
    simp only [step, stopWaiting]
    split
    · split_ifs <;> rfl
    · rfl
  | cancel i =>
    simp only [step, stopWaiting]
    split
    · split_ifs <;> rfl
    · rfl
  | awaitDispatch i =>
    refine onReservation_keeps (P := fun u => u.config = s.config) rfl i fun t _ _ _ _ => ?_
    simp only [awaitDispatch]
    split_ifs <;> rfl
  | grantDispatch i =>
    refine onReservation_keeps (P := fun u => u.config = s.config) rfl i fun t _ _ _ _ => ?_
    simp only [grantDispatch]
    split_ifs <;> rfl
  | abandonDispatch i =>
    refine onReservation_keeps (P := fun u => u.config = s.config) rfl i fun t _ _ _ _ => ?_
    simp only [abandonDispatch]
    split_ifs <;> rfl
  | dropPermit k =>
    simp only [step, dropPermit]
    split <;> rfl
  | startIndependentDispatch i =>
    exact onReservation_keeps (P := fun u => u.config = s.config) rfl i fun t _ _ _ _ => rfl
  | release i =>
    refine onReservation_keeps (P := fun u => u.config = s.config) rfl i fun t _ _ _ _ => ?_
    split_ifs <;> rfl
  | removePeer peer =>
    simp only [step, removePeer]
    split_ifs <;> rfl

theorem run_keeps :
    ∀ (actions : List OutboundAction) {s : Outbound}, s.Books → s.Mapped →
      (s.run actions).Books ∧ (s.run actions).Mapped ∧ (s.run actions).config = s.config
  | [], _, hb, hm => ⟨hb, hm, rfl⟩
  | a :: actions, s, hb, hm => by
    obtain ⟨hb', hm', hconfig⟩ := run_keeps actions (step_books hb a) (step_mapped hb hm a)
    exact ⟨hb', hm', hconfig.trans (step_config s a)⟩

theorem books_new (config : SchedulerConfig) : (new config).Books := by
  refine ⟨?_, ?_, ?_⟩
  · intro t ht
    cases ht
  · intro a
    rfl
  · intro a ceiling _
    exact Nat.zero_le _

theorem mapped_new (config : SchedulerConfig) : (new config).Mapped := by
  refine ⟨?_, ?_, ?_, .nil⟩
  · intro t ht
    cases ht
  · intro t ht
    cases ht
  · intro t ht
    cases ht

/-- **Main result.** After any interleaving of admissions, refusals, timeouts, cancellations, dispatches,
releases and evictions the accounts are those of the tasks. -/
theorem outbound_accounted (g p m : ℕ) (actions : List OutboundAction) :
    OutboundAccounted ((new (.new g p m)).run actions) := by
  obtain ⟨hb, hm, hconfig⟩ := run_keeps actions (books_new (.new g p m)) (mapped_new (.new g p m))
  set s := (new (.new g p m)).run actions with hs
  refine ⟨hb.balanced, ?_, ?_, ?_, hb.within, ?_, ?_, ?_, ?_, ?_⟩
  · intro t ht hstage
    exact (hb.formed t ht).admission_held hstage
  · intro t ht dispatched hstage htodo
    have := (hb.formed t ht).atRest htodo
    rwa [OutboundTask.target, hstage] at this
  · intro t ht hstage
    exact (hb.formed t ht).leaving_held hstage
  · intro hgone a
    apply hb.balanced.eq_zero a
    intro t ht x hx
    have hheld := (hb.formed t ht).leaving_held (hgone t ht).1
    rw [(hgone t ht).2] at hheld
    rw [List.perm_nil.mp hheld] at hx
    cases hx
  · intro t ht x todo htodo
    exact hb.balanced.le ht ((hb.formed t ht).giveBack htodo).1
  · intro peer b b' huse huse'
    exact hm.one_budget huse huse'
  · intro hsettled hroom i
    exact refusal_of_available hb (critical_slot_global hb hconfig hsettled hroom) (.inl rfl)
  · intro b hsettled hroom i
    exact refusal_of_available hb (critical_slot_peer hb hconfig b hsettled hroom) (.inr ⟨b, rfl⟩)

/-! ### When the reserved slots are gone -/

/-- The frames in places `k`, `k + 1`, … are admitted for one peer, one byte each. -/
def admitted : ℕ → List TrafficClass → List OutboundAction
  | _, [] => []
  | k, c :: rest => .admission 0 c 1 none :: List.replicate 12 (OutboundAction.advance k true) ++ admitted (k + 1) rest

/-- All that the lower classes may have of one peer. -/
def lowerTen : List TrafficClass :=
  List.replicate 6 TrafficClass.transaction ++ List.replicate 3 TrafficClass.bootstrap ++ [TrafficClass.registration]

/-- The seventh critical frame over ten lower ones comes to its peer permit. -/
def fullPeer : List OutboundAction :=
  admitted 0 (lowerTen ++ List.replicate 4 TrafficClass.block ++ List.replicate 2 TrafficClass.control) ++
    ([.admission 0 .control 1 none, .advance 16 true, .advance 16 true] : List OutboundAction)

/-- The sixth does, while a seventh transaction has a permit of the peer and not yet its class's refusal. -/
def crowdedPeer : List OutboundAction :=
  admitted 0 (lowerTen ++ List.replicate 4 TrafficClass.block ++ [TrafficClass.control]) ++
    ([.admission 0 .transaction 1 none, .advance 15 true, .advance 15 true, .advance 15 true,
      .admission 0 .control 1 none, .advance 16 true, .advance 16 true] : List OutboundAction)

def criticalReservations (s : Outbound) : ℕ :=
  (s.tasks.filter fun t => t.message.trafficClass.critical && t.stage != .admission).length

/-- A control frame is refused a slot of its peer with six, and even with five, critical reservations live. -/
theorem control_refused_below_seven :
    let full := (new (.new 0 0 0)).run fullPeer
    let crowded := (new (.new 0 0 0)).run crowdedPeer
    (full.criticalReservations = 6 ∧ full.tasks[16]?.map (·.message.trafficClass) = some .control ∧
        full.refusal 16 = some (.peerMessages 0)) ∧
      crowded.criticalReservations = 5 ∧ crowded.tasks[16]?.map (·.message.trafficClass) = some .control ∧
        crowded.refusal 16 = some (.peerMessages 0) := by
  decide +kernel

end Outbound

end Alphanumeric
