/-
# The dirty marker and the apply windows

A block is applied under a durable marker (`src/a9/blockchain.rs`): the marker is written, then
the canonical blocks and what is derived from them change, then the marker is removed. Inside
a catch-up window one marker covers all applies, and a counter of applies that were marked and
not cleared takes the place of a marker each. Every apply first heals what an earlier one left:
it rebuilds the derived state, or, if the marker is a window's and the counter is even, flushes
and removes it.

Applies, openings and closings hold one lock. A window's handle can be dropped at any moment
without it, and the whole store can be made durable or the process can crash at any moment. A
step of the machine is one access to an atomic or to the store, or some accesses in a row of
which a dropped handle can touch one at most: the three stores of `reset`, the test for the cheap
close, and the test and the decrement of a clear in a window. A holder of the lock may fail or be
cancelled before each of its steps.

The blocks and the derived state are of any types, and `derive` is what the derived state should
be. An apply or a rebuild writes as it likes; that it only succeeds with the state derived from
the blocks is an assumption.

Key definitions: `Content`, `Windows`, `Pc`, `Machine`, `Machine.holderStep`, `Machine.step`, `Machine.At`,
`Machine.Quiet`.
Key theorems: `Inv.step`, `run_inv`, `Machine.Quiet.step`, `dirty_marker_covers`, `windows_heal_before_writing`,
`orderly_windows_never_rebuild`.
-/
import Alphanumeric.Lib.Durable
import Alphanumeric.Lib.Trace
import Mathlib.Data.Int.Notation
import Mathlib.Tactic.Common

namespace Alphanumeric

namespace ApplyWindows

/-! ### The machine -/

/-- The reason in the marker: a window's, or that of an apply outside every window. -/
inductive Reason where
  | receiptBatch
  | apply
deriving DecidableEq, Repr

/-- The store: `CHAIN_STATE_DIRTY`, the canonical blocks and what is derived from them. -/
structure Content (χ δ : Type) where
  marker : Option Reason
  canonical : χ
  derived : δ
deriving DecidableEq

/-- `ApplyBatchState`. -/
structure Windows where
  depth : ℕ
  marked : Bool
  unbalancedMarks : ℤ
  openedThisProcess : Bool
deriving DecidableEq, Repr

/-- What a holder of the lock wants when it has healed. -/
inductive Purpose where
  | apply
  | openWindow
  | heal
deriving DecidableEq, Repr

/-- Who clears the marker: an apply that succeeded, a recovery, which may have begun inside a window, the cheap
close, or the commit of a window. -/
inductive Clearer where
  | applied
  | recovered (purpose : Purpose) (inWindow : Bool)
  | cheap (purpose : Purpose)
  | committed
deriving DecidableEq, Repr

/-- Where the holder of the lock is. -/
inductive Pc where
  | idle
  -- `begin_receipt_batch`
  | opening
  | reset
  | raise
  -- `reconcile_chain_state_if_dirty`
  | reconcile (purpose : Purpose)
  | inWindow (purpose : Purpose)
  | inWindowDirty (purpose : Purpose)
  | windowless (purpose : Purpose)
  | cheapFlush (purpose : Purpose)
  | discharge (purpose : Purpose)
  | ready (purpose : Purpose)
  -- `recover_dirty_chain_state`
  | rebuild (purpose : Purpose) (inWindow : Bool)
  | rebuilding (purpose : Purpose) (inWindow : Bool)
  | rebuilt (purpose : Purpose) (inWindow : Bool)
  -- `mark_chain_state_dirty`
  | marking
  | markWindow
  | writeWindowMarker
  | flushWindowMarker
  | setMarked
  | markCount
  | markAlone
  | flushAlone
  -- an apply
  | mutate
  | mutating
  -- `clear_chain_state_dirty`
  | clear (clearer : Clearer)
  | clearDurable (clearer : Clearer)
  | removeMarker (clearer : Clearer)
  | flushRemoved (clearer : Clearer)
  -- `commit_receipt_batch`
  | lower
  | closing
  | closeFlush
  | closeCount
deriving DecidableEq, Repr

/-- Where the holder goes on when the marker is cleared, or its clearing refused. -/
def Clearer.pc : Clearer → Pc
  | .applied => .idle
  | .recovered purpose true => .discharge purpose
  | .recovered purpose false => .ready purpose
  | .cheap purpose => .ready purpose
  | .committed => .idle

structure Machine (χ δ : Type) where
  store : Durable (Content χ δ)
  windows : Windows
  pc : Pc
deriving DecidableEq

/-- What takes the lock. -/
inductive Task where
  | beginBatch
  | commitBatch
  | apply
  | reconcile
deriving DecidableEq, Repr

inductive Action (χ δ : Type) where
  | lock (task : Task)
  /-- The holder's next step. -/
  | next
  /-- The holder, in the middle of an apply or of a rebuild, writes. -/
  | write (canonical : χ) (derived : δ)
  /-- The holder fails or is cancelled. -/
  | fail
  /-- `ReceiptApplyBatch::drop`. -/
  | drop
  /-- A durable commit of anything makes the whole store durable. -/
  | flush
  | crash
deriving DecidableEq, Repr

section Steps

variable {χ δ : Type} (derive : χ → δ)

def Content.Agrees (c : Content χ δ) : Prop := c.derived = derive c.canonical

instance [DecidableEq δ] : DecidablePred (Content.Agrees derive) := fun c => inferInstanceAs (Decidable (c.derived = _))

namespace Machine

section Parts

variable (s : Machine χ δ)

def goto (pc : Pc) : Machine χ δ := { s with pc }

def setMarker (marker : Option Reason) : Machine χ δ :=
  { s with store := s.store.set { s.store.visible with marker } }

def flush : Machine χ δ := { s with store := s.store.flush }

def setWindows (windows : Windows) : Machine χ δ := { s with windows }

def setDepth (n : ℕ) : Machine χ δ := s.setWindows { s.windows with depth := n }

def setUnbalanced (n : ℤ) : Machine χ δ := s.setWindows { s.windows with unbalancedMarks := n }

/-- A new process on what the last one left; `initialize` heals before anything else. -/
def boot (store : Durable (Content χ δ)) : Machine χ δ :=
  ⟨store, ⟨0, false, 0, false⟩, .windowless .heal⟩

/-- The handles that can be dropped: all, but for the one that a commit has. -/
def droppable : ℕ := s.windows.depth - if s.pc = .lower then 1 else 0

end Parts

variable [DecidableEq δ]

/-- The next step of the holder of the lock. -/
def holderStep (s : Machine χ δ) : Option (Machine χ δ) :=
  let w := s.windows
  match s.pc with
  | .idle => none
  | .opening => some (s.goto (if 0 < w.depth then .raise else .reconcile .openWindow))
  | .reset =>
    some ((s.setWindows { w with marked := false, unbalancedMarks := 0, openedThisProcess := true }).goto .raise)
  | .raise => some ((s.setDepth (w.depth + 1)).goto .idle)
  | .reconcile purpose => some (s.goto (if 0 < w.depth then .inWindow purpose else .windowless purpose))
  | .inWindow purpose => some (s.goto (if w.unbalancedMarks ≠ 0 then .inWindowDirty purpose else .ready purpose))
  | .inWindowDirty purpose =>
    match s.store.visible.marker with
    | some _ => some (s.goto (.rebuild purpose true))
    | none => some (s.goto (.discharge purpose))
  | .windowless purpose =>
    match s.store.visible.marker with
    | none => some (s.goto (.ready purpose))
    | some reason =>
      if reason = .receiptBatch ∧ w.openedThisProcess = true ∧ w.unbalancedMarks = 0 then
        some (s.goto (.cheapFlush purpose))
      else some (s.goto (.rebuild purpose false))
  | .cheapFlush purpose => some (s.flush.goto (.clear (.cheap purpose)))
  | .discharge purpose => some ((s.setUnbalanced 0).goto (.ready purpose))
  | .ready .apply => some (s.goto .marking)
  | .ready .openWindow => some (s.goto .reset)
  | .ready .heal => some (s.goto .idle)
  | .rebuild purpose inWindow => some (s.goto (.rebuilding purpose inWindow))
  | .rebuilding purpose inWindow =>
    if s.store.visible.Agrees derive then some (s.goto (.rebuilt purpose inWindow)) else none
  | .rebuilt purpose inWindow => some ((s.setUnbalanced 0).goto (.clear (.recovered purpose inWindow)))
  | .marking => some (s.goto (if 0 < w.depth then .markWindow else .markAlone))
  | .markWindow => some (s.goto (if w.marked then .markCount else .writeWindowMarker))
  | .writeWindowMarker => some ((s.setMarker (some .receiptBatch)).goto .flushWindowMarker)
  | .flushWindowMarker => some (s.flush.goto .setMarked)
  | .setMarked => some ((s.setWindows { w with marked := true }).goto .markCount)
  | .markCount => some ((s.setUnbalanced (w.unbalancedMarks + 1)).goto .mutate)
  | .markAlone => some ((s.setMarker (some .apply)).goto .flushAlone)
  | .flushAlone => some (s.flush.goto .mutate)
  | .mutate => some (s.goto .mutating)
  | .mutating => if s.store.visible.Agrees derive then some (s.goto (.clear .applied)) else none
  | .clear clearer =>
    if 0 < w.depth then some ((s.setUnbalanced (w.unbalancedMarks - 1)).goto clearer.pc)
    else some (s.goto (.clearDurable clearer))
  | .clearDurable clearer => some (s.goto (if w.unbalancedMarks ≠ 0 then clearer.pc else .removeMarker clearer))
  | .removeMarker clearer => some ((s.setMarker none).goto (.flushRemoved clearer))
  | .flushRemoved clearer => some (s.flush.goto clearer.pc)
  | .lower => some ((s.setDepth (w.depth - 1)).goto (if w.depth = 1 then .closing else .idle))
  | .closing => some (s.goto (if w.marked then .closeFlush else .idle))
  | .closeFlush => some (s.flush.goto .closeCount)
  | .closeCount => some (s.goto (if w.unbalancedMarks = 0 then .clear .committed else .idle))

def step (s : Machine χ δ) : Action χ δ → Option (Machine χ δ)
  | .lock task =>
    if s.pc ≠ .idle then none
    else
      match task with
      | .beginBatch => some (s.goto .opening)
      | .commitBatch => if 0 < s.windows.depth then some (s.goto .lower) else none
      | .apply => some (s.goto (.reconcile .apply))
      | .reconcile => some (s.goto (.reconcile .heal))
  | .next => s.holderStep derive
  | .write canonical derived =>
    match s.pc with
    | .mutating => some { s with store := s.store.set { s.store.visible with canonical, derived } }
    | .rebuilding _ _ => some { s with store := s.store.set { s.store.visible with derived } }
    | _ => none
  | .fail => if s.pc = .idle then none else some (s.goto .idle)
  | .drop => if 0 < s.droppable then some (s.setDepth (s.windows.depth - 1)) else none
  | .flush => some s.flush
  | .crash => some (boot s.store.crash)

end Machine

end Steps

/-! ### What holds at every step -/

section Covered

variable {χ δ : Type} {derive : χ → δ} {s t : Machine χ δ}

/-- A store may go without a marker only if what is derived is derived from its blocks. -/
def Content.Safe (derive : χ → δ) (c : Content χ δ) : Prop := c.marker = none → c.Agrees derive

namespace Machine

/-- What is derived is not wrong unnoticed: the next heal finds nothing wrong, or rebuilds. -/
def Settled (derive : χ → δ) (s : Machine χ δ) : Prop :=
  s.store.visible.Agrees derive ∨ s.windows.unbalancedMarks ≠ 0 ∨ s.store.visible.marker = some .apply ∨
    s.windows.openedThisProcess = false

/-- The next heal rebuilds. -/
def Flagged (s : Machine χ δ) : Prop :=
  s.windows.unbalancedMarks ≠ 0 ∨ s.store.visible.marker = some .apply ∨ s.windows.openedThisProcess = false

def Marked (s : Machine χ δ) : Prop := s.store.visible.marker ≠ none ∧ s.store.durable.marker ≠ none

/-- What a window needs to be open: no marker but its own, and that where it claims to have one. -/
def InWindow (s : Machine χ δ) : Prop :=
  s.windows.openedThisProcess = true ∧ s.store.visible.marker ≠ some .apply ∧ (s.windows.marked = true → s.Marked)

/-- The marker stays until the apply succeeds: by its pair's count, or as its own. -/
def Guarded (s : Machine χ δ) : Prop :=
  s.Marked ∧ (s.windows.unbalancedMarks = 1 ∧ s.store.visible.marker ≠ some .apply ∨
    s.windows.depth = 0 ∧ s.store.visible.marker = some .apply)

/-- A recovery that began in a window still finds no marker but the window's, and one that did not finds no window. -/
def Heals (inWindow : Bool) (s : Machine χ δ) : Prop :=
  if inWindow then s.store.visible.marker ≠ some .apply else s.windows.depth = 0

/-- What holds when the holder of the lock is at `pc`. -/
def At (derive : χ → δ) (s : Machine χ δ) : Pc → Prop
  | .idle | .opening | .reconcile _ => s.Settled derive
  | .raise => s.Settled derive ∧ s.InWindow
  | .inWindow _ => s.Settled derive ∧ s.windows.openedThisProcess = true ∧ s.store.visible.marker ≠ some .apply
  | .inWindowDirty _ => s.windows.unbalancedMarks ≠ 0 ∧ s.store.visible.marker ≠ some .apply
  | .windowless _ => s.Settled derive ∧ s.windows.depth = 0
  | .cheapFlush _ => s.store.visible.Agrees derive ∧ s.windows.unbalancedMarks = 0 ∧ s.windows.depth = 0
  | .rebuild _ w | .rebuilding _ w => s.Flagged ∧ s.store.visible.marker ≠ none ∧ s.Heals w
  | .rebuilt _ w => s.store.visible.Agrees derive ∧ s.Heals w
  | .discharge _ => s.store.visible.Agrees derive ∧ s.store.visible.marker ≠ some .apply
  | .ready _ | .marking => s.store.visible.Agrees derive ∧ s.store.visible.marker ≠ some .apply ∧
      (0 < s.windows.depth → s.windows.unbalancedMarks = 0)
  | .reset => s.store.visible.Agrees derive ∧ s.store.visible.marker ≠ some .apply
  | .markWindow => s.store.visible.Agrees derive ∧ s.windows.unbalancedMarks = 0 ∧ s.InWindow
  | .writeWindowMarker => s.store.visible.Agrees derive ∧ s.windows.unbalancedMarks = 0
  | .flushWindowMarker => s.store.visible.Agrees derive ∧ s.windows.unbalancedMarks = 0 ∧
      s.store.visible.marker = some .receiptBatch
  | .setMarked | .markCount => s.store.visible.Agrees derive ∧ s.windows.unbalancedMarks = 0 ∧ s.Marked ∧
      s.store.visible.marker ≠ some .apply
  | .markAlone => s.store.visible.Agrees derive ∧ s.windows.depth = 0
  | .flushAlone => s.store.visible.Agrees derive ∧ s.windows.depth = 0 ∧ s.store.visible.marker = some .apply
  | .mutate => s.store.visible.Agrees derive ∧ s.Guarded
  | .mutating => s.Guarded
  | .clear .applied => s.store.visible.Agrees derive ∧ s.Guarded
  | .clear (.recovered _ w) => s.store.visible.Agrees derive ∧ s.windows.unbalancedMarks = 0 ∧ s.Heals w
  | .clear (.cheap _) | .clear .committed => s.store.visible.Agrees derive ∧ s.windows.unbalancedMarks = 0 ∧
      s.windows.depth = 0
  | .clearDurable .applied => s.store.visible.Agrees derive ∧ s.windows.depth = 0
  | .clearDurable _ | .removeMarker _ => s.store.visible.Agrees derive ∧ s.windows.depth = 0 ∧
      s.windows.unbalancedMarks = 0
  | .flushRemoved _ => s.store.visible.Agrees derive ∧ s.windows.depth = 0 ∧ s.windows.unbalancedMarks = 0 ∧
      s.store.visible.marker = none
  | .lower => s.Settled derive ∧ 0 < s.windows.depth
  | .closing | .closeFlush | .closeCount => s.Settled derive ∧ s.windows.depth = 0 ∧
      s.windows.openedThisProcess = true ∧ s.store.visible.marker ≠ some .apply

end Machine

/-- What holds after every step. -/
structure Inv (derive : χ → δ) (s : Machine χ δ) : Prop where
  stores : s.store.Both (Content.Safe derive)
  window : 0 < s.windows.depth → s.InWindow
  at_ : s.At derive s.pc

/-- `t` differs from `s` at most by handles that were dropped, and by what was made durable. -/
structure Machine.Eased (s t : Machine χ δ) : Prop where
  visible : t.store.visible = s.store.visible
  depth : t.windows.depth ≤ s.windows.depth
  flags : t.windows = { s.windows with depth := t.windows.depth }
  marked : s.Marked → t.Marked

theorem Machine.At.eased {pc : Pc} (h : s.At derive pc) (he : s.Eased t) (hlower : pc = .lower → 0 < t.windows.depth) :
    t.At derive pc := by
  obtain ⟨hvisible, _, hflags, hmarked⟩ := he
  have hunbalanced : t.windows.unbalancedMarks = s.windows.unbalancedMarks := by rw [hflags]
  have hopened : t.windows.openedThisProcess = s.windows.openedThisProcess := by rw [hflags]
  have hwasMarked : t.windows.marked = s.windows.marked := by rw [hflags]
  cases pc with
  | clear clearer | clearDurable clearer =>
    cases clearer
    all_goals
      simp only [At, Guarded, Heals, hvisible] at h ⊢
      grind
  | _ =>
    simp only [At, Guarded, Flagged, Settled, InWindow, Heals, hvisible] at h ⊢
    grind

theorem Machine.At.cleared {clearer : Clearer} (hagrees : s.store.visible.Agrees derive)
    (hbalanced : s.windows.unbalancedMarks = 0) (hown : s.store.visible.marker ≠ some .apply) :
    s.At derive clearer.pc := by
  rcases clearer with _ | ⟨purpose, _ | _⟩ | _ | _
  · exact .inl hagrees
  · exact ⟨hagrees, hown, fun _ => hbalanced⟩
  · exact ⟨hagrees, hown⟩
  · exact ⟨hagrees, hown, fun _ => hbalanced⟩
  · exact .inl hagrees

theorem Inv.boot {store : Durable (Content χ δ)} (h : store.Both (Content.Safe derive)) :
    Inv derive (Machine.boot store) :=
  ⟨h, fun hdepth => absurd hdepth (Nat.lt_irrefl 0), .inr (.inr (.inr rfl)), rfl⟩

/-- Wherever the holder stops, the next heal rebuilds or has nothing to do. -/
theorem Inv.settled (h : Inv derive s) : s.Settled derive := by
  have hat := h.at_
  have hwindow := h.window
  simp only [Machine.InWindow] at hwindow
  cases hpc : s.pc with
  | clear clearer | clearDurable clearer =>
    cases clearer
    all_goals
      simp only [hpc, Machine.At, Machine.Guarded, Machine.Settled] at hat ⊢
      grind
  | _ =>
    simp only [hpc, Machine.At, Machine.Guarded, Machine.Flagged, Machine.Settled] at hat ⊢
    grind

theorem Inv.flush (h : Inv derive s) : Inv derive s.flush := by
  have heased : s.Eased s.flush := ⟨rfl, Nat.le_refl _, rfl, fun hmarked => ⟨hmarked.1, hmarked.1⟩⟩
  refine ⟨h.stores.flush, fun hdepth => ?_, h.at_.eased heased fun hpc => ?_⟩
  · obtain ⟨hopened, hown, hmarked⟩ := h.window hdepth
    exact ⟨hopened, hown, fun hw => heased.marked (hmarked hw)⟩
  · have hat := h.at_
    rw [hpc] at hat
    exact hat.2

/-- A handle can be dropped in the middle of anything. -/
theorem Inv.drop (h : Inv derive s) (hdrop : 0 < s.droppable) :
    Inv derive (s.setDepth (s.windows.depth - 1)) := by
  have hdepth : 0 < s.windows.depth := by
    unfold Machine.droppable at hdrop
    omega
  refine ⟨h.stores, fun _ => h.window hdepth, h.at_.eased ⟨rfl, Nat.sub_le .., rfl, id⟩ fun hpc => ?_⟩
  rw [Machine.droppable, if_pos hpc] at hdrop
  exact hdrop

theorem Inv.goto {pc : Pc} (hstores : s.store.Both (Content.Safe derive))
    (hwindow : 0 < s.windows.depth → s.InWindow) (hat : s.At derive pc) : Inv derive (s.goto pc) :=
  ⟨hstores, hwindow, hat.eased ⟨rfl, Nat.le_refl _, rfl, id⟩ fun hpc => by subst hpc; exact hat.2⟩

/-- What the marker is for. -/
structure Covered (derive : χ → δ) (s : Machine χ δ) : Prop where
  /-- A crash leaves no wrong state without a marker, -/
  durable : s.store.durable.marker = none → s.store.durable.Agrees derive
  /-- and there is none to be seen. -/
  visible : s.store.visible.marker = none → s.store.visible.Agrees derive
  /-- An apply reads no wrong state. -/
  healed : ∀ purpose, s.pc = .ready purpose → s.store.visible.Agrees derive
  /-- It writes under a marker that a crash leaves. -/
  marked : s.pc = .mutate ∨ s.pc = .mutating → s.store.visible.marker ≠ none ∧ s.store.durable.marker ≠ none

theorem Inv.covered (h : Inv derive s) : Covered derive s := by
  have hat := h.at_
  refine ⟨h.stores.durable, h.stores.visible, fun purpose hpc => ?_, fun hpc => ?_⟩
  · rw [hpc] at hat
    exact hat.1
  · rcases hpc with hpc | hpc
    · rw [hpc] at hat
      exact hat.2.1
    · rw [hpc] at hat
      exact hat.1

variable [DecidableEq δ]

theorem Inv.next (h : Inv derive s) (hstep : s.holderStep derive = some t) : Inv derive t := by
  have hflushed := h.flush
  obtain ⟨hstores, hwindow, hat⟩ := h
  cases hpc : s.pc <;> simp only [hpc, Machine.holderStep, reduceCtorEq, Option.some.injEq] at hstep hat
  case opening =>
    subst hstep
    split
    · rename_i hdepth
      exact .goto hstores hwindow ⟨hat, hwindow hdepth⟩
    · exact .goto hstores hwindow hat
  case reset =>
    subst hstep
    have hwindow : (s.setWindows ⟨s.windows.depth, false, 0, true⟩).InWindow := ⟨rfl, hat.2, nofun⟩
    exact .goto (s := s.setWindows _) hstores (fun _ => hwindow) ⟨.inl hat.1, hwindow⟩
  case raise =>
    subst hstep
    exact .goto (s := s.setDepth _) hstores (fun _ => hat.2) hat.1
  case reconcile purpose =>
    subst hstep
    split
    · rename_i hdepth
      exact .goto hstores hwindow ⟨hat, (hwindow hdepth).1, (hwindow hdepth).2.1⟩
    · rename_i hdepth
      exact .goto hstores hwindow ⟨hat, Nat.eq_zero_of_not_pos hdepth⟩
  case inWindow purpose =>
    obtain ⟨hsettled, hopened, hown⟩ := hat
    subst hstep
    split
    · rename_i hunbalanced
      exact .goto hstores hwindow ⟨hunbalanced, hown⟩
    · rename_i hbalanced
      have hagrees : s.store.visible.Agrees derive := by
        simp only [Machine.Settled] at hsettled
        grind
      exact .goto hstores hwindow ⟨hagrees, hown, fun _ => not_not.mp hbalanced⟩
  case inWindowDirty purpose =>
    split at hstep
    · rename_i reason hmarker
      cases hstep
      exact .goto hstores hwindow ⟨.inl hat.1, by rw [hmarker]; exact Option.some_ne_none _, hat.2⟩
    · rename_i hmarker
      cases hstep
      exact .goto hstores hwindow ⟨hstores.visible hmarker, hat.2⟩
  case windowless purpose =>
    obtain ⟨hsettled, hdepth⟩ := hat
    split at hstep
    · rename_i hmarker
      cases hstep
      exact .goto hstores hwindow ⟨hstores.visible hmarker, by rw [hmarker]; exact nofun, fun h => by omega⟩
    · rename_i reason hmarker
      split at hstep
      · rename_i hcheap
        cases hstep
        have hagrees : s.store.visible.Agrees derive := by
          simp only [Machine.Settled] at hsettled
          grind
        exact .goto hstores hwindow ⟨hagrees, hcheap.2.2, hdepth⟩
      · rename_i hdear
        cases hstep
        have hflagged : s.Flagged := by
          unfold Machine.Flagged
          cases reason <;> grind
        exact .goto hstores hwindow ⟨hflagged, by rw [hmarker]; exact Option.some_ne_none _, hdepth⟩
  case cheapFlush purpose =>
    subst hstep
    exact .goto hflushed.stores hflushed.window hat
  case discharge purpose =>
    subst hstep
    exact .goto (s := s.setUnbalanced 0) hstores hwindow ⟨hat.1, hat.2, fun _ => rfl⟩
  case ready purpose =>
    obtain ⟨hagrees, hown, hbalanced⟩ := hat
    cases purpose <;> cases hstep
    · exact .goto hstores hwindow ⟨hagrees, hown, hbalanced⟩
    · exact .goto hstores hwindow ⟨hagrees, hown⟩
    · exact .goto hstores hwindow (.inl hagrees)
  case rebuild purpose inWindow =>
    subst hstep
    exact .goto hstores hwindow hat
  case rebuilding purpose inWindow =>
    split at hstep
    · rename_i hagrees
      cases hstep
      exact .goto hstores hwindow ⟨hagrees, hat.2.2⟩
    · cases hstep
  case rebuilt purpose inWindow =>
    subst hstep
    exact .goto (s := s.setUnbalanced 0) hstores hwindow ⟨hat.1, rfl, hat.2⟩
  case marking =>
    obtain ⟨hagrees, hown, hbalanced⟩ := hat
    subst hstep
    split
    · rename_i hdepth
      exact .goto hstores hwindow ⟨hagrees, hbalanced hdepth, hwindow hdepth⟩
    · rename_i hdepth
      exact .goto hstores hwindow ⟨hagrees, Nat.eq_zero_of_not_pos hdepth⟩
  case markWindow =>
    obtain ⟨hagrees, hbalanced, -, hown, hmarked⟩ := hat
    subst hstep
    split
    · rename_i hw
      exact .goto hstores hwindow ⟨hagrees, hbalanced, hmarked hw, hown⟩
    · exact .goto hstores hwindow ⟨hagrees, hbalanced⟩
  case writeWindowMarker =>
    subst hstep
    refine .goto (s := s.setMarker (some .receiptBatch)) (hstores.set nofun) (fun hdepth => ?_) ⟨hat.1, hat.2, rfl⟩
    obtain ⟨hopened, hown, hmarked⟩ := hwindow hdepth
    exact ⟨hopened, nofun, fun hw => ⟨nofun, (hmarked hw).2⟩⟩
  case flushWindowMarker =>
    obtain ⟨hagrees, hbalanced, hmarker⟩ := hat
    subst hstep
    have hmarked : s.store.visible.marker ≠ none := by rw [hmarker]; exact nofun
    exact .goto hflushed.stores hflushed.window ⟨hagrees, hbalanced, ⟨hmarked, hmarked⟩, by
      change s.store.visible.marker ≠ _
      rw [hmarker]
      exact nofun⟩
  case setMarked =>
    subst hstep
    refine .goto (s := s.setWindows _) hstores (fun hdepth => ?_) hat
    exact ⟨(hwindow hdepth).1, (hwindow hdepth).2.1, fun _ => hat.2.2.1⟩
  case markCount =>
    obtain ⟨hagrees, hbalanced, hmarked, hown⟩ := hat
    subst hstep
    refine .goto (s := s.setUnbalanced _) hstores hwindow ⟨hagrees, hmarked, .inl ⟨?_, hown⟩⟩
    rw [hbalanced]
    rfl
  case markAlone =>
    subst hstep
    exact .goto (s := s.setMarker (some .apply)) (hstores.set nofun)
      (fun hdepth => absurd hdepth (by rw [Nat.not_lt, Nat.le_zero]; exact hat.2)) ⟨hat.1, hat.2, rfl⟩
  case flushAlone =>
    obtain ⟨hagrees, hdepth, hmarker⟩ := hat
    subst hstep
    have hmarked : s.store.visible.marker ≠ none := by rw [hmarker]; exact nofun
    exact .goto hflushed.stores hflushed.window ⟨hagrees, ⟨hmarked, hmarked⟩, .inr ⟨hdepth, hmarker⟩⟩
  case mutate =>
    subst hstep
    exact .goto hstores hwindow hat.2
  case mutating =>
    split at hstep
    · rename_i hagrees
      cases hstep
      exact .goto hstores hwindow ⟨hagrees, hat⟩
    · cases hstep
  case clear clearer =>
    split at hstep
    · rename_i hdepth
      cases hstep
      refine .goto (s := s.setUnbalanced _) hstores hwindow ?_
      rcases clearer with _ | ⟨purpose, _ | _⟩ | _ | _
      · exact .inl hat.1
      · exact absurd hat.2.2 (Nat.ne_of_gt hdepth)
      · exact ⟨hat.1, hat.2.2⟩
      · exact absurd hat.2.2 (Nat.ne_of_gt hdepth)
      · exact absurd hat.2.2 (Nat.ne_of_gt hdepth)
    · rename_i hdepth
      cases hstep
      have hzero : s.windows.depth = 0 := Nat.eq_zero_of_not_pos hdepth
      refine .goto hstores hwindow ?_
      cases clearer
      · exact ⟨hat.1, hzero⟩
      all_goals exact ⟨hat.1, hzero, hat.2.1⟩
  case clearDurable clearer =>
    subst hstep
    split
    · rename_i hunbalanced
      cases clearer
      · exact .goto hstores hwindow (.inl hat.1)
      all_goals exact absurd hat.2.2 hunbalanced
    · rename_i hbalanced
      refine .goto hstores hwindow ?_
      cases clearer
      · exact ⟨hat.1, hat.2, not_not.mp hbalanced⟩
      all_goals exact hat
  case removeMarker clearer =>
    obtain ⟨hagrees, hdepth, hbalanced⟩ := hat
    subst hstep
    exact .goto (s := s.setMarker none) (hstores.set fun _ => hagrees)
      (fun h => absurd h (by rw [Nat.not_lt, Nat.le_zero]; exact hdepth)) ⟨hagrees, hdepth, hbalanced, rfl⟩
  case flushRemoved clearer =>
    obtain ⟨hagrees, hdepth, hbalanced, hmarker⟩ := hat
    subst hstep
    refine .goto hflushed.stores hflushed.window (.cleared hagrees hbalanced ?_)
    change s.store.visible.marker ≠ _
    rw [hmarker]
    exact nofun
  case lower =>
    obtain ⟨hsettled, hdepth⟩ := hat
    obtain ⟨hopened, hown, hmarked⟩ := hwindow hdepth
    subst hstep
    split
    · rename_i hone
      exact .goto (s := s.setDepth _) hstores (fun _ => ⟨hopened, hown, hmarked⟩)
        ⟨hsettled, Nat.sub_eq_zero_of_le (Nat.le_of_eq hone), hopened, hown⟩
    · exact .goto (s := s.setDepth _) hstores (fun _ => ⟨hopened, hown, hmarked⟩) hsettled
  case closing =>
    obtain ⟨hsettled, hdepth, hopened, hown⟩ := hat
    subst hstep
    split
    · exact .goto hstores hwindow ⟨hsettled, hdepth, hopened, hown⟩
    · exact .goto hstores hwindow hsettled
  case closeFlush =>
    subst hstep
    exact .goto hflushed.stores hflushed.window hat
  case closeCount =>
    obtain ⟨hsettled, hdepth, hopened, hown⟩ := hat
    subst hstep
    split
    · rename_i hbalanced
      have hagrees : s.store.visible.Agrees derive := by
        simp only [Machine.Settled] at hsettled
        grind
      exact .goto hstores hwindow ⟨hagrees, hbalanced, hdepth⟩
    · exact .goto hstores hwindow hsettled

theorem Inv.write {canonical : χ} {d : δ} (h : Inv derive s) (hstep : s.step derive (.write canonical d) = some t) :
    Inv derive t := by
  have hat := h.at_
  cases hpc : s.pc <;> simp only [hpc, Machine.step, reduceCtorEq, Option.some.injEq] at hstep hat
  case mutating =>
    subst hstep
    have hmarked : s.store.visible.marker ≠ none := hat.1.1
    exact ⟨h.stores.set fun hnone => absurd hnone hmarked, h.window, hat⟩
  case rebuilding purpose inWindow =>
    subst hstep
    have hmarked : s.store.visible.marker ≠ none := hat.2.1
    exact ⟨h.stores.set fun hnone => absurd hnone hmarked, h.window, hat⟩

theorem Inv.step {a : Action χ δ} (h : Inv derive s) (hstep : s.step derive a = some t) : Inv derive t := by
  cases a with
  | next => exact h.next hstep
  | write canonical d => exact h.write hstep
  | lock task =>
    simp only [Machine.step] at hstep
    split at hstep
    · cases hstep
    · have hsettled := h.settled
      cases task
      case commitBatch =>
        dsimp only at hstep
        split at hstep
        · rename_i hdepth
          cases hstep
          exact .goto h.stores h.window ⟨hsettled, hdepth⟩
        · cases hstep
      all_goals
        cases hstep
        exact .goto h.stores h.window hsettled
  | fail =>
    simp only [Machine.step] at hstep
    split at hstep
    · cases hstep
    · cases hstep
      exact .goto h.stores h.window h.settled
  | drop =>
    simp only [Machine.step] at hstep
    split at hstep
    · rename_i hdrop
      cases hstep
      exact h.drop hdrop
    · cases hstep
  | flush =>
    cases hstep
    exact h.flush
  | crash =>
    cases hstep
    exact .boot h.stores.crash

/-- `Steps derive s a t`: what is done in `s` is `a`, and leads to `t`. -/
abbrev Steps (derive : χ → δ) (s : Machine χ δ) (a : Action χ δ) (t : Machine χ δ) : Prop := s.step derive a = some t

theorem run_inv {store : Durable (Content χ δ)} {tr : List (Machine χ δ × Action χ δ)}
    (hstore : store.Both (Content.Safe derive)) (h : Trace.Run (Steps derive) (Machine.boot store) tr t) :
    Inv derive t :=
  h.invariant (I := Inv derive) (C := fun _ _ => True) (fun _ _ _ hs _ hstep => hs.step hstep) (.boot hstore)
    fun _ _ => trivial

/-- **No wrong state goes unmarked**, with handles dropped, applies cut short and crashes at any moment. -/
theorem dirty_marker_covers {store : Durable (Content χ δ)} {tr : List (Machine χ δ × Action χ δ)}
    (hstore : store.Both (Content.Safe derive)) (h : Trace.Run (Steps derive) (Machine.boot store) tr t) :
    Covered derive t :=
  (run_inv hstore h).covered

/-- **An apply begins on a right state.** In every run, a wrong state that a crash leaves has a marker; an apply that
has healed and marked, and is about to write, finds the derived state right; and so does the cheap close, which removes
a marker and rebuilds nothing. -/
theorem windows_heal_before_writing {store : Durable (Content χ δ)} {tr : List (Machine χ δ × Action χ δ)}
    (hstore : store.Both (Content.Safe derive)) (h : Trace.Run (Steps derive) (Machine.boot store) tr t) :
    (¬ t.store.durable.Agrees derive → t.store.durable.marker ≠ none) ∧
    (t.pc = .mutate → t.store.visible.Agrees derive) ∧
    ∀ purpose, t.pc = .cheapFlush purpose ∨ t.pc = .clear (.cheap purpose) → t.store.visible.Agrees derive := by
  have hinv := run_inv hstore h
  have hat := hinv.at_
  refine ⟨mt hinv.stores.durable, fun hpc => ?_, fun purpose hpc => ?_⟩
  · rw [hpc] at hat
    exact hat.1
  · rcases hpc with hpc | hpc <;> rw [hpc] at hat <;> exact hat.1

end Covered

/-- A store of numbers, with their successors derived. -/
def toyStore : Durable (Content ℕ ℕ) := ⟨⟨none, 0, 1⟩, ⟨none, 0, 1⟩⟩

/-- A window is opened, and in the middle of an apply, with what it wrote made durable, the process ends. -/
def halfApplied : List (Action ℕ ℕ) :=
  [.next, .next, .lock .beginBatch, .next, .next, .next, .next, .next, .next, .lock .apply, .next, .next, .next,
    .next, .next, .next, .next, .next, .next, .next, .write 1 7, .flush, .crash]

theorem half_applied_covered : ∃ r, Trace.follow (Machine.step Nat.succ) (.boot toyStore) halfApplied = some r ∧
    r.2.store.durable = ⟨some .receiptBatch, 1, 7⟩ ∧ Covered Nat.succ r.2 := by
  have hrun : (Trace.follow (Machine.step Nat.succ) (.boot toyStore) halfApplied).any (fun r =>
      decide (r.2.store.durable = ⟨some .receiptBatch, 1, 7⟩)) = true := by
    decide +kernel
  obtain ⟨r, hr, h⟩ := (Option.any_eq_true _ _).mp hrun
  have hstore : toyStore.Both (Content.Safe Nat.succ) := ⟨fun _ => rfl, fun _ => rfl⟩
  exact ⟨r, hr, of_decide_eq_true h, dirty_marker_covers hstore (Trace.run_follow hr)⟩

/-- In a window, an apply writes and loses its handle; it fails, and the next apply heals before it writes. -/
def healedApply : List (Action ℕ ℕ) :=
  [.next, .next, .lock .beginBatch, .next, .next, .next, .next, .next, .next, .lock .apply, .next, .next, .next,
    .next, .next, .next, .next, .next, .next, .next, .write 1 7, .drop, .fail, .lock .apply, .next, .next, .next,
    .write 1 2, .next, .next, .next, .next, .next, .next, .next, .next, .next, .next]

theorem healed_apply_begins : ∃ r, Trace.follow (Machine.step Nat.succ) (.boot toyStore) healedApply = some r ∧
    r.2.pc = .mutate ∧ r.2.store.visible.Agrees Nat.succ := by
  have hrun : (Trace.follow (Machine.step Nat.succ) (.boot toyStore) healedApply).any (fun r =>
      decide (r.2.pc = .mutate)) = true := by
    decide +kernel
  obtain ⟨r, hr, h⟩ := (Option.any_eq_true _ _).mp hrun
  have hstore : toyStore.Both (Content.Safe Nat.succ) := ⟨fun _ => rfl, fun _ => rfl⟩
  have hpc : r.2.pc = .mutate := of_decide_eq_true h
  exact ⟨r, hr, hpc, (windows_heal_before_writing hstore (Trace.run_follow hr)).2.1 hpc⟩

/-! ### Windows that are closed in order -/

/-- Where an apply is between its mark and its clear. -/
def InFlight : Pc → Prop
  | .markWindow | .writeWindowMarker | .flushWindowMarker | .setMarked | .markCount | .mutate | .mutating |
    .clear .applied => True
  | _ => False

instance : DecidablePred InFlight := fun pc => by
  unfold InFlight
  split <;> infer_instance

section Orderly

variable {χ δ : Type} {derive : χ → δ} {s t : Machine χ δ}

/-- Nothing fails and the process goes on, and the last handle of a window is not dropped in the middle of an apply. -/
def Orderly (s : Machine χ δ) : Action χ δ → Prop
  | .fail | .crash => False
  | .drop => InFlight s.pc → 1 < s.windows.depth
  | _ => True

instance (s : Machine χ δ) : DecidablePred (Orderly s)
  | .fail | .crash => instDecidableFalse
  | .drop => inferInstanceAs (Decidable (_ → _))
  | .lock _ | .next | .write _ _ | .flush => instDecidableTrue

namespace Machine

/-- A marker is that of a window of this process. -/
def Own (s : Machine χ δ) : Prop :=
  s.store.visible.marker ≠ some .apply ∧ (s.store.visible.marker ≠ none → s.windows.openedThisProcess = true)

/-- An apply in a window has its pair open, and one outside every window its own marker. -/
def Paired (s : Machine χ δ) : Prop :=
  0 < s.windows.depth ∧ s.windows.unbalancedMarks = 1 ∧ s.Own ∨ s.windows.depth = 0 ∧ s.windows.unbalancedMarks = 0

/-- What holds at `pc` while all is in order: a recovery is nowhere. -/
def Quiet (s : Machine χ δ) : Pc → Prop
  | .inWindowDirty _ | .discharge _ | .rebuild _ _ | .rebuilding _ _ | .rebuilt _ _ => False
  | .clear (.recovered _ _) | .clearDurable (.recovered _ _) | .removeMarker (.recovered _ _) |
    .flushRemoved (.recovered _ _) => False
  | .markWindow | .writeWindowMarker | .flushWindowMarker | .setMarked | .markCount =>
    s.windows.unbalancedMarks = 0 ∧ s.Own ∧ 0 < s.windows.depth
  | .markAlone | .flushAlone | .clearDurable _ | .removeMarker _ | .flushRemoved _ => s.windows.unbalancedMarks = 0
  | .mutate | .mutating | .clear .applied => s.Paired
  | _ => s.windows.unbalancedMarks = 0 ∧ s.Own

end Machine

theorem Inv.agrees (h : Inv derive s) (hpc : s.pc = .idle) (hquiet : s.Quiet s.pc) : s.store.visible.Agrees derive := by
  have hsettled := h.settled
  rw [hpc] at hquiet
  obtain ⟨hbalanced, hown, hopened⟩ := hquiet
  have hsafe := h.stores.visible
  simp only [Machine.Settled, Content.Safe] at hsettled hsafe
  grind

/-- What windows closed in order are spared. -/
structure Undisturbed (derive : χ → δ) (s : Machine χ δ) : Prop where
  neverRebuilt : ∀ purpose inWindow, s.pc ≠ .rebuild purpose inWindow
  balanced : s.pc = .idle → s.windows.unbalancedMarks = 0
  agrees : s.pc = .idle → s.store.visible.Agrees derive

theorem Inv.undisturbed (h : Inv derive s) (hquiet : s.Quiet s.pc) : Undisturbed derive s := by
  refine ⟨fun purpose inWindow hpc => ?_, fun hpc => ?_, fun hpc => h.agrees hpc hquiet⟩
  · rw [hpc] at hquiet
    exact hquiet
  · rw [hpc] at hquiet
    exact hquiet.1

theorem Machine.Quiet.drop {pc : Pc} (h : s.Quiet pc) (horderly : InFlight pc → 1 < s.windows.depth)
    (hdepth : 0 < s.windows.depth) : (s.setDepth (s.windows.depth - 1)).Quiet pc := by
  have hmore : 1 < s.windows.depth → 0 < s.windows.depth - 1 := Nat.sub_pos_of_lt
  have hpaired : 1 < s.windows.depth → s.Paired → (s.setDepth (s.windows.depth - 1)).Paired := by
    rintro hone (⟨-, hpair⟩ | ⟨hzero, -⟩)
    · exact .inl ⟨hmore hone, hpair⟩
    · exact absurd hzero (Nat.ne_of_gt hdepth)
  cases pc
  case markWindow | writeWindowMarker | flushWindowMarker | setMarked | markCount =>
    exact ⟨h.1, h.2.1, hmore (horderly trivial)⟩
  case mutate | mutating => exact hpaired (horderly trivial) h
  case clear clearer =>
    cases clearer
    · exact hpaired (horderly trivial) h
    all_goals exact h
  case clearDurable clearer | removeMarker clearer | flushRemoved clearer =>
    cases clearer
    all_goals exact h
  all_goals exact h

theorem Machine.Quiet.goto {pc : Pc} (h : s.Quiet pc) : (s.goto pc).Quiet (s.goto pc).pc := h

variable [DecidableEq δ]

theorem Machine.Quiet.next (h : s.Quiet s.pc) (hinv : Inv derive s) (hstep : s.holderStep derive = some t) :
    t.Quiet t.pc := by
  have hat := hinv.at_
  have hwindow := hinv.window
  cases hpc : s.pc <;> simp only [hpc, Machine.holderStep, reduceCtorEq, Option.some.injEq] at h hstep hat
  case opening | reconcile =>
    subst hstep
    split
    · exact .goto h
    · exact .goto h
  case reset =>
    subst hstep
    exact .goto (s := s.setWindows _) ⟨rfl, h.2.1, fun _ => rfl⟩
  case raise =>
    subst hstep
    exact .goto (s := s.setDepth _) h
  case inWindow purpose =>
    subst hstep
    split
    · rename_i hunbalanced
      exact absurd h.1 hunbalanced
    · exact .goto h
  case inWindowDirty | discharge | rebuild | rebuilding | rebuilt => exact h.elim
  case windowless purpose =>
    obtain ⟨hbalanced, hown, hopened⟩ := h
    split at hstep
    · cases hstep
      exact .goto ⟨hbalanced, hown, hopened⟩
    · rename_i reason hmarker
      have hreason : reason = .receiptBatch := by cases reason <;> grind
      have hmarked : s.store.visible.marker ≠ none := by rw [hmarker]; exact nofun
      rw [if_pos ⟨hreason, hopened hmarked, hbalanced⟩] at hstep
      cases hstep
      exact .goto ⟨hbalanced, hown, hopened⟩
  case cheapFlush purpose =>
    subst hstep
    exact .goto (s := s.flush) h
  case ready purpose =>
    cases purpose
    all_goals
      cases hstep
      exact .goto h
  case marking =>
    subst hstep
    split
    · rename_i hdepth
      exact .goto ⟨h.1, h.2, hdepth⟩
    · exact Machine.Quiet.goto (show s.Quiet .markAlone from h.1)
  case markWindow =>
    subst hstep
    split
    · exact .goto h
    · exact .goto h
  case writeWindowMarker =>
    obtain ⟨hbalanced, -, hdepth⟩ := h
    subst hstep
    exact .goto (s := s.setMarker (some .receiptBatch)) ⟨hbalanced, ⟨nofun, fun _ => (hwindow hdepth).1⟩, hdepth⟩
  case flushWindowMarker =>
    subst hstep
    exact .goto (s := s.flush) h
  case setMarked =>
    subst hstep
    exact .goto (s := s.setWindows _) h
  case markCount =>
    obtain ⟨hbalanced, hown, hdepth⟩ := h
    subst hstep
    refine .goto (s := s.setUnbalanced _) (.inl ⟨hdepth, ?_, hown⟩)
    rw [hbalanced]
    rfl
  case markAlone =>
    subst hstep
    exact .goto (s := s.setMarker _) h
  case flushAlone =>
    subst hstep
    exact .goto (s := s.flush) (.inr ⟨hat.2.1, h⟩)
  case mutate =>
    subst hstep
    exact .goto h
  case mutating =>
    split at hstep
    · cases hstep
      exact .goto h
    · cases hstep
  case clear clearer =>
    split at hstep
    · rename_i hdepth
      have hnonzero : s.windows.depth ≠ 0 := Nat.ne_of_gt hdepth
      cases hstep
      refine .goto (s := s.setUnbalanced _) ?_
      cases clearer
      case applied =>
        rcases h with ⟨-, hone, hown⟩ | ⟨hzero, -⟩
        · refine ⟨?_, hown⟩
          rw [hone]
          rfl
        · exact absurd hzero hnonzero
      case recovered => exact h.elim
      case cheap | committed => exact absurd hat.2.2 hnonzero
    · rename_i hdepth
      cases hstep
      refine .goto ?_
      cases clearer
      case applied =>
        rcases h with ⟨hpos, -⟩ | ⟨-, hbalanced⟩
        · exact absurd hpos hdepth
        · exact hbalanced
      case recovered => exact h.elim
      case cheap | committed => exact h.1
  case clearDurable clearer =>
    cases clearer
    case recovered => exact h.elim
    all_goals
      have hbalanced : s.windows.unbalancedMarks = 0 := h
      subst hstep
      rw [if_neg (not_not.mpr hbalanced)]
      exact Machine.Quiet.goto hbalanced
  case removeMarker clearer =>
    subst hstep
    cases clearer
    case recovered => exact h.elim
    all_goals exact .goto (s := s.setMarker none) h
  case flushRemoved clearer =>
    have hmarker : s.store.visible.marker = none := hat.2.2.2
    have hown : s.flush.Own := ⟨by
      change s.store.visible.marker ≠ _
      rw [hmarker]
      exact nofun, fun hmarked => absurd hmarker hmarked⟩
    subst hstep
    cases clearer
    case recovered => exact h.elim
    all_goals exact Machine.Quiet.goto ⟨h, hown⟩
  case lower =>
    subst hstep
    split
    · exact .goto (s := s.setDepth _) h
    · exact .goto (s := s.setDepth _) h
  case closing =>
    subst hstep
    split
    · exact .goto h
    · exact .goto h
  case closeFlush =>
    subst hstep
    exact .goto (s := s.flush) h
  case closeCount =>
    subst hstep
    split
    · exact .goto h
    · exact .goto h

theorem Machine.Quiet.step {a : Action χ δ} (h : s.Quiet s.pc) (hinv : Inv derive s) (horderly : Orderly s a)
    (hstep : s.step derive a = some t) : t.Quiet t.pc := by
  cases a with
  | next => exact h.next hinv hstep
  | fail | crash => exact horderly.elim
  | flush =>
    cases hstep
    exact h
  | drop =>
    simp only [Machine.step] at hstep
    split at hstep
    · rename_i hdrop
      cases hstep
      exact h.drop horderly (Nat.lt_of_lt_of_le hdrop (Nat.sub_le ..))
    · cases hstep
  | write canonical d =>
    cases hpc : s.pc <;> simp only [hpc, Machine.step, reduceCtorEq, Option.some.injEq] at h hstep
    case mutating =>
      subst hstep
      exact h
    case rebuilding => exact h.elim
  | lock task =>
    simp only [Machine.step] at hstep
    split at hstep
    · cases hstep
    · rename_i hidle
      rw [not_not.mp hidle] at h
      cases task
      case commitBatch =>
        dsimp only at hstep
        split at hstep
        · cases hstep
          exact .goto h
        · cases hstep
      all_goals
        cases hstep
        exact Machine.Quiet.goto h

/-- **Windows that are dropped between applies cost no rebuild**: the chain is only rebuilt if an apply failed,
the process ended, or the last handle of a window went in the middle of an apply. -/
theorem orderly_windows_never_rebuild {store : Durable (Content χ δ)} {tr : List (Machine χ δ × Action χ δ)}
    (hstore : store.Both (Content.Safe derive)) (hclean : store.visible.marker = none)
    (h : Trace.Run (Steps derive) (Machine.boot store) tr t) (horderly : ∀ p ∈ tr, Orderly p.1 p.2) :
    Undisturbed derive t := by
  have hboot : (Machine.boot store).Quiet (Machine.boot store).pc :=
    ⟨rfl, by rw [Machine.boot, hclean]; exact nofun, fun hmarked => absurd hclean hmarked⟩
  have hrun := h.invariant (I := fun s => Inv derive s ∧ s.Quiet s.pc) (C := Orderly)
    (fun _ _ _ hs horderly hstep => ⟨hs.1.step hstep, hs.2.step hs.1 horderly hstep⟩) ⟨.boot hstore, hboot⟩ horderly
  exact hrun.1.undisturbed hrun.2

end Orderly

/-- The handle of a window goes after an apply; the next apply finds the marker and closes the window. -/
def droppedBetween : List (Action ℕ ℕ) :=
  [.next, .next, .lock .beginBatch, .next, .next, .next, .next, .next, .next, .lock .apply, .next, .next, .next,
    .next, .next, .next, .next, .next, .next, .next, .write 1 2, .next, .next, .drop, .lock .apply, .next, .next, .next,
    .next, .next, .next, .next]

theorem dropped_between_undisturbed :
    ∃ r, Trace.follow (Machine.step Nat.succ) (.boot toyStore) droppedBetween = some r ∧
      r.2.store.durable = ⟨none, 1, 2⟩ ∧ Undisturbed Nat.succ r.2 := by
  have hrun : (Trace.follow (Machine.step Nat.succ) (.boot toyStore) droppedBetween).any (fun r =>
      r.1.all (fun p => decide (Orderly p.1 p.2)) && decide (r.2.store.durable = ⟨none, 1, 2⟩)) = true := by
    decide +kernel
  obtain ⟨r, hr, h⟩ := (Option.any_eq_true _ _).mp hrun
  rw [Bool.and_eq_true, List.all_eq_true] at h
  have hstore : toyStore.Both (Content.Safe Nat.succ) := ⟨fun _ => rfl, fun _ => rfl⟩
  exact ⟨r, hr, of_decide_eq_true h.2,
    orderly_windows_never_rebuild hstore rfl (Trace.run_follow hr) fun p hp => of_decide_eq_true (h.1 p hp)⟩

end ApplyWindows

end Alphanumeric
