/-
# The supply memo

`total_confirmed_supply_units` of `src/a9/blockchain.rs` reads the height marker of the balances, looks at the memo,
and otherwise sums the balances page by page, reads the marker again and files the sum, if the marker is the same and
no invalidation came between. A writer commits content and marker in one batch, and invalidates the memo later.

Any number of readers and writers take their steps in any order; a writer writes any tree, and may fail on the way.
The generation is a `u64` that wraps around. How many invalidations there have been, and whether one has followed the
last batch, is kept for the account only.

Key definitions: `SupplyState`, `SupplyState.step`, `circulating`, `Quiet`, `timely`, `MemoExact`, `Fence`.
Key theorems: `addRow_spec`, `step_fence`, `supply_memo_fence`.
-/
import Alphanumeric.Affordability
import Alphanumeric.StoreScan

namespace Alphanumeric

open PagedScan

/-! ### The memo -/

structure SupplyMemo where
  generation : ℕ
  entry : Option (ℕ × ℤ)
deriving DecidableEq, Repr

def supplyMemoCommitKey (markerBefore markerAfter : Option ℕ) (generationAtProbe generationNow : ℕ) : Option ℕ :=
  match markerBefore, markerAfter with
  | some before, some after => if before = after ∧ generationAtProbe = generationNow then some before else none
  | _, _ => none

def invalidateSupplyMemo (memo : SupplyMemo) : SupplyMemo := ⟨(memo.generation + 1) % 2 ^ 64, none⟩

/-! ### Rows -/

/-- What the values of the balances tree decode to. -/
structure BalanceCodec where
  height : Bytes → Option ℕ
  units : Bytes → Option ℤ

variable (D : BalanceCodec)

def getBalancesHeight (t : StoreTree) : Option (Option ℕ) :=
  match t.get (utf8 balancesHeightKey) with
  | none => some none
  | some raw => (D.height raw).map some

/-- One row of the sum, which fails on what cannot be read and on overflow. -/
def addRow (total : ℤ) (row : KvPair) : Option ℤ :=
  if row.1 = utf8 balancesHeightKey then some total
  else do
    let address ← fromUtf8 row.1
    if systemAddresses.contains address then some total
    else do
      let units ← D.units row.2
      if 0 < units then if total + units ≤ i128Max then some (total + units) else none
      else some total

/-! ### Readers -/

inductive ReadStage where
  | called
  | marked (markerBefore : Option ℕ)
  | scanning (markerBefore : Option ℕ) (generationAtProbe : ℕ) (scan : LazyScan) (total : ℤ)
  | scanned (markerBefore : Option ℕ) (generationAtProbe : ℕ) (total : ℤ)
  | bracketed (markerBefore markerAfter : Option ℕ) (generationAtProbe : ℕ) (total : ℤ)
  | returned (supply : Option ℤ)
deriving DecidableEq, Repr

/-- A call of `total_confirmed_supply_units`, and how many invalidations there were when it looked at the memo. -/
structure SupplyReader where
  stage : ReadStage
  probed : ℕ
deriving DecidableEq, Repr

/-- What the marker read before finds in the memo. -/
def SupplyMemo.probe (memo : SupplyMemo) (markerBefore : Option ℕ) : Option ℤ :=
  match markerBefore, memo.entry with
  | some marker, some (cachedMarker, supply) => if cachedMarker = marker then some supply else none
  | _, _ => none

/-! ### Writers -/

inductive WriterOp where
  | batch
  | invalidate
deriving DecidableEq, Repr

inductive WriterKind where
  | tipExtension
  /-- A reorg whose catch-up replays `blocks`, and falls back to a rebuild where one does not replay. -/
  | reorg (blocks : ℕ) (fallsBack : Bool)
  /-- A reorg where the index cannot vouch for the old tip. -/
  | reorgRebuild
  | catchUp (blocks : ℕ) (fallsBack : Bool)
  | rebuild
  /-- The tip metadata alone is written or cleared. -/
  | tipMetadata
deriving DecidableEq, Repr

def rebuildBalancesIndex : List WriterOp := [.batch, .invalidate]

def catchUpBalancesIndex (blocks : ℕ) (fallsBack : Bool) : List WriterOp :=
  List.replicate blocks .batch ++ if fallsBack then rebuildBalancesIndex else [.invalidate]

/-- `write_chain_tip_metadata` invalidates too. -/
def writeChainTipMetadata : List WriterOp := [.invalidate]

def WriterKind.ops : WriterKind → List WriterOp
  | tipExtension => .batch :: writeChainTipMetadata
  | reorg blocks fallsBack => .batch :: .invalidate :: catchUpBalancesIndex blocks fallsBack ++ writeChainTipMetadata
  | reorgRebuild => rebuildBalancesIndex ++ writeChainTipMetadata
  | catchUp blocks fallsBack => catchUpBalancesIndex blocks fallsBack
  | rebuild => rebuildBalancesIndex
  | tipMetadata => writeChainTipMetadata

structure BalancesWriter where
  kind : WriterKind
  todo : List WriterOp
  /-- It has committed a batch, and has not invalidated since. -/
  between : Bool
deriving DecidableEq, Repr

/-! ### Runs -/

structure SupplyState where
  tree : StoreTree
  memo : SupplyMemo
  invalidations : ℕ
  /-- Has an invalidation followed the last batch? -/
  fenced : Bool
  readers : List SupplyReader
  writers : List BalancesWriter

inductive SupplyStep where
  | call
  /-- Reader `i` goes on by one step. -/
  | read (i : ℕ)
  /-- A read of the database failed. -/
  | abandon (i : ℕ)
  | start (kind : WriterKind)
  /-- Writer `i` does its next operation; a batch leaves `t`. -/
  | write (i : ℕ) (t : StoreTree)
  | fail (i : ℕ)

namespace SupplyState

def new (t : StoreTree) : SupplyState := ⟨t, ⟨0, none⟩, 0, true, [], []⟩

def setReader (g : SupplyState) (i : ℕ) (r : SupplyReader) : SupplyState := { g with readers := g.readers.set i r }

def readOn (g : SupplyState) (i : ℕ) (r : SupplyReader) : SupplyState :=
  match r.stage with
  | .called =>
    match getBalancesHeight D g.tree with
    | none => g.setReader i { r with stage := .returned none }
    | some markerBefore => g.setReader i { r with stage := .marked markerBefore }
  | .marked markerBefore =>
    match g.memo.probe markerBefore with
    | some supply => g.setReader i { r with stage := .returned (some supply) }
    | none => g.setReader i ⟨.scanning markerBefore g.memo.generation ScanCall.iter.scan 0, g.invalidations⟩
  | .scanning markerBefore generation scan total =>
    match scan.next pageEntries pageByteBudget (.ok g.tree : Except Unit StoreTree) with
    | (none, _) => g.setReader i { r with stage := .scanned markerBefore generation total }
    | (some (.error _), _) => g.setReader i { r with stage := .returned none }
    | (some (.ok row), scan) =>
      match addRow D total row with
      | none => g.setReader i { r with stage := .returned none }
      | some total => g.setReader i { r with stage := .scanning markerBefore generation scan total }
  | .scanned markerBefore generation total =>
    match getBalancesHeight D g.tree with
    | none => g.setReader i { r with stage := .returned none }
    | some markerAfter => g.setReader i { r with stage := .bracketed markerBefore markerAfter generation total }
  | .bracketed markerBefore markerAfter generation total =>
    match supplyMemoCommitKey markerBefore markerAfter generation g.memo.generation with
    | none => g.setReader i { r with stage := .returned (some total) }
    | some marker =>
      { g with memo := { g.memo with entry := some (marker, total) } }.setReader i
        { r with stage := .returned (some total) }
  | .returned _ => g

def writeOn (g : SupplyState) (i : ℕ) (w : BalancesWriter) (t : StoreTree) : SupplyState :=
  match w.todo with
  | [] => g
  | .batch :: todo =>
    { g with tree := t, fenced := false, writers := g.writers.set i { w with todo, between := true } }
  | .invalidate :: todo =>
    { g with
      memo := invalidateSupplyMemo g.memo
      invalidations := g.invalidations + 1
      fenced := true
      writers := g.writers.set i { w with todo, between := false } }

def step (g : SupplyState) : SupplyStep → SupplyState
  | .call => { g with readers := g.readers ++ [⟨.called, 0⟩] }
  | .read i =>
    match g.readers[i]? with
    | none => g
    | some r => g.readOn D i r
  | .abandon i =>
    match g.readers[i]? with
    | none => g
    | some r => g.setReader i { r with stage := .returned none }
  | .start kind => { g with writers := g.writers ++ [⟨kind, kind.ops, false⟩] }
  | .write i t =>
    match g.writers[i]? with
    | none => g
    | some w => g.writeOn i w t
  | .fail i =>
    match g.writers[i]? with
    | none => g
    | some w => { g with writers := g.writers.set i { w with todo := [] } }

def run (t : StoreTree) (steps : List SupplyStep) : SupplyState := steps.foldl (step D) (new t)

end SupplyState

/-- No writer is between its batch and its invalidation. -/
def Quiet (g : SupplyState) : Prop := ∀ w ∈ g.writers, w.between = false

def ReadStage.filing : ReadStage → Bool
  | bracketed .. => true
  | _ => false

/-- A reader that files its sum now looked at the memo fewer than 2⁶⁴ invalidations ago. -/
def timelyStep (g : SupplyState) : SupplyStep → Bool
  | .read i => g.readers[i]?.all fun r => !r.stage.filing || decide (g.invalidations < r.probed + 2 ^ 64)
  | _ => true

def timely (g : SupplyState) : List SupplyStep → Bool
  | [] => true
  | s :: steps => timelyStep g s && timely (g.step D s) steps

/-! ### What the sum should be -/

def balanceRow (row : KvPair) : Option (Text × ℤ) :=
  if row.1 = utf8 balancesHeightKey then none else (fromUtf8 row.1).bind fun address => (D.units row.2).map (address, ·)

def circulatingIn (rows : List KvPair) : ℤ :=
  (((rows.filterMap (balanceRow D)).filter fun b => decide (b.1 ∉ systemAddresses ∧ 0 < b.2)).map Prod.snd).sum

/-- The sum of the positive balances in the tree, those of the system aside. -/
def circulating (t : StoreTree) : ℤ := circulatingIn D t.entries

/-- The memo says nothing but the truth, and no reader is served anything else from it. -/
structure MemoExact (g : SupplyState) : Prop where
  entry : ∀ marker supply, g.memo.entry = some (marker, supply) →
    getBalancesHeight D g.tree = some (some marker) ∧ supply = circulating D g.tree
  served : ∀ markerBefore supply, g.memo.probe markerBefore = some supply → supply = circulating D g.tree

theorem circulatingIn_nil : circulatingIn D [] = 0 := rfl

/-- **A row adds what it should.** -/
theorem addRow_spec {total total' : ℤ} {row : KvPair} (h : addRow D total row = some total') (rows : List KvPair) :
    total' + circulatingIn D rows = total + circulatingIn D (row :: rows) := by
  unfold addRow at h
  unfold circulatingIn
  split_ifs at h with hheight
  · cases h
    have hrow : balanceRow D row = none := if_pos hheight
    rw [List.filterMap_cons_none hrow]
  · obtain ⟨address, haddress, h⟩ := Option.bind_eq_some_iff.mp h
    have hrow : balanceRow D row = (D.units row.2).map (address, ·) := by
      rw [balanceRow, if_neg hheight, haddress, Option.bind_some]
    split_ifs at h with hsystem
    · cases h
      rw [List.contains_iff_mem] at hsystem
      cases hunits : D.units row.2 with
      | none => rw [List.filterMap_cons_none (by rw [hrow, hunits, Option.map_none])]
      | some units =>
        rw [List.filterMap_cons_some (by rw [hrow, hunits, Option.map_some]),
            List.filter_cons_of_neg (by simp [hsystem])]
    · obtain ⟨units, hunits, h⟩ := Option.bind_eq_some_iff.mp h
      rw [List.contains_iff_mem] at hsystem
      rw [List.filterMap_cons_some (by rw [hrow, hunits, Option.map_some])]
      split_ifs at h with hpos
      · cases h
        rw [List.filter_cons_of_pos (by simp [hsystem, hpos]), List.map_cons, List.sum_cons]
        ring
      · cases h
        rw [List.filter_cons_of_neg (by simp [hpos])]

/-! ### The fence -/

/-- What a reader has found, if nothing was invalidated since it looked at the memo. -/
def ReadStage.Right (t : StoreTree) : ReadStage → Prop
  | scanning _ _ scan total => total + circulatingIn D (scan.view.remaining t.entries) = circulating D t
  | scanned _ _ total => total = circulating D t
  | bracketed _ markerAfter _ total => getBalancesHeight D t = some markerAfter ∧ total = circulating D t
  | _ => True

def ReadStage.generation? : ReadStage → Option ℕ
  | scanning _ generation _ _ | scanned _ generation _ | bracketed _ _ generation _ => some generation
  | _ => none

/-- The invariant. -/
structure Fence (g : SupplyState) : Prop where
  generation : g.memo.generation = g.invalidations % 2 ^ 64
  probed : ∀ r ∈ g.readers, r.probed ≤ g.invalidations
  atProbe : ∀ r ∈ g.readers, ∀ generation, r.stage.generation? = some generation → generation = r.probed % 2 ^ 64
  entry : g.fenced = true → ∀ marker supply, g.memo.entry = some (marker, supply) →
    getBalancesHeight D g.tree = some (some marker) ∧ supply = circulating D g.tree
  right : g.fenced = true → ∀ r ∈ g.readers, r.probed = g.invalidations → r.stage.Right D g.tree
  between : g.fenced = false → ∃ w ∈ g.writers, w.between = true

variable {D}

theorem new_fence (t : StoreTree) : Fence D (SupplyState.new t) where
  generation := rfl
  probed r hr := absurd hr List.not_mem_nil
  atProbe r hr := absurd hr List.not_mem_nil
  entry _ marker supply h := by cases h
  right _ r hr := absurd hr List.not_mem_nil
  between h := by cases h

/-- A reader goes on, and the memo stays as it is. -/
theorem Fence.setReader {g : SupplyState} (h : Fence D g) {i : ℕ} {r : SupplyReader} (hprobed : r.probed ≤
    g.invalidations)
    (hgeneration : ∀ generation, r.stage.generation? = some generation → generation = r.probed % 2 ^ 64)
    (hright : g.fenced = true → r.probed = g.invalidations → r.stage.Right D g.tree) : Fence D (g.setReader i r) where
  generation := h.generation
  probed r' hr' := by
    rcases List.mem_or_eq_of_mem_set hr' with hr' | rfl
    · exact h.probed r' hr'
    · exact hprobed
  atProbe r' hr' := by
    rcases List.mem_or_eq_of_mem_set hr' with hr' | rfl
    · exact h.atProbe r' hr'
    · exact hgeneration
  entry := h.entry
  right hfenced r' hr' := by
    rcases List.mem_or_eq_of_mem_set hr' with hr' | rfl
    · exact h.right hfenced r' hr'
    · exact hright hfenced
  between := h.between

/-- Where it stops, there is nothing to say. -/
theorem Fence.stop {g : SupplyState} (h : Fence D g) {i : ℕ} {r : SupplyReader} (hr : r ∈ g.readers)
    (supply : Option ℤ) :
    Fence D (g.setReader i { r with stage := .returned supply }) :=
  h.setReader (h.probed r hr) (fun _ hnone => by cases hnone) fun _ _ => trivial

theorem supplyMemoCommitKey_eq_some {before after : Option ℕ} {generation generation' marker : ℕ}
    (h : supplyMemoCommitKey before after generation generation' = some marker) :
    before = some marker ∧ after = some marker ∧ generation = generation' := by
  unfold supplyMemoCommitKey at h
  split at h
  · split_ifs at h with hsame
    cases h
    exact ⟨rfl, by rw [hsame.1], hsame.2⟩
  · cases h

/-- The generation is the same, so nothing was invalidated, and the sum is of the tree as it is. -/
theorem Fence.file {g : SupplyState} (h : Fence D g) {i : ℕ} {r : SupplyReader} (hr : r ∈ g.readers)
    (htimely : g.invalidations < r.probed + 2 ^ 64) {before after : Option ℕ} {generation marker : ℕ} {total : ℤ}
    (hstage : r.stage = .bracketed before after generation total)
    (hkey : supplyMemoCommitKey before after generation g.memo.generation = some marker) :
    Fence D ({ g with memo := { g.memo with entry := some (marker, total) } }.setReader i
      { r with stage := .returned (some total) }) := by
  obtain ⟨-, rfl, hsame⟩ := supplyMemoCommitKey_eq_some hkey
  have hprobed : r.probed = g.invalidations := by
    have hat := h.atProbe r hr generation (by rw [hstage]; rfl)
    have hle := h.probed r hr
    have hgeneration := h.generation
    omega
  have hfiled : Fence D { g with memo := { g.memo with entry := some (marker, total) } } := by
    refine ⟨h.generation, h.probed, h.atProbe, fun hfenced marker' supply heq => ?_, h.right, h.between⟩
    cases heq
    have hright := h.right hfenced r hr hprobed
    rw [hstage] at hright
    exact hright
  exact hfiled.stop hr _

/-- One step of a reader. -/
theorem Fence.readOn {g : SupplyState} (h : Fence D g) {i : ℕ} {r : SupplyReader} (hr : r ∈ g.readers)
    (htimely : r.stage.filing = true → g.invalidations < r.probed + 2 ^ 64) : Fence D (g.readOn D i r) := by
  have hprobed := h.probed r hr
  have hat := h.atProbe r hr
  unfold SupplyState.readOn
  rcases hstage : r.stage with - | before | ⟨before, generation, scan, total⟩ | ⟨before, generation, total⟩ |
    ⟨before, after, generation, total⟩ | supply
  · dsimp only
    cases hmarker : getBalancesHeight D g.tree with
    | none => exact h.stop hr none
    | some markerBefore => exact h.setReader hprobed (fun _ hnone => by cases hnone) fun _ _ => trivial
  · dsimp only
    cases hprobe : g.memo.probe before with
    | some supply => exact h.stop hr _
    | none =>
      refine h.setReader le_rfl (fun generation hsome => ?_) fun _ _ => ?_
      · cases hsome
        exact h.generation
      · -- a fresh scan has all the rows before it
        show 0 + circulatingIn D (ScanCall.iter.scan.view.remaining g.tree.entries) = _
        have hall : ScanCall.iter.scan.view.remaining g.tree.entries = g.tree.entries := by
          rw [Scan.remaining]
          refine List.filter_eq_self.mpr fun e _ => ?_
          exact (selects_eq .iter e.1).symm
        rw [hall, zero_add, circulating]
  · dsimp only
    obtain ⟨hyield, hrest⟩ := LazyScan.next_view (ε := Unit) pageEntries pageByteBudget g.tree scan
    have hlimit : 1 ≤ pageEntries := by decide
    obtain ⟨hhead, htail⟩ := next_remaining (pageLoop_isPage hlimit pageByteBudget) g.tree.increasing scan.view
    rw [hhead] at hyield
    rw [← hrest] at htail
    cases hnext : scan.next pageEntries pageByteBudget (.ok g.tree : Except Unit StoreTree) with
    | mk yielded scan' =>
      rw [hnext] at hyield htail
      dsimp only at hyield htail ⊢
      cases hrows : scan.view.remaining g.tree.entries with
      | nil =>
        rw [hrows] at hyield
        subst hyield
        refine h.setReader hprobed (fun _ hsome => ?_) fun hfenced hnow => ?_
        · cases hsome
          exact hat generation (by rw [hstage]; rfl)
        · have hright := h.right hfenced r hr hnow
          rw [hstage, ReadStage.Right, hrows, circulatingIn_nil, add_zero] at hright
          exact hright
      | cons row rows =>
        rw [hrows] at hyield htail
        subst hyield
        dsimp only [List.head?_cons, Option.map_some]
        cases hadd : addRow D total row with
        | none => exact h.stop hr none
        | some total' =>
          refine h.setReader hprobed (fun _ hsome => ?_) fun hfenced hnow => ?_
          · cases hsome
            exact hat generation (by rw [hstage]; rfl)
          · have hright := h.right hfenced r hr hnow
            rw [hstage, ReadStage.Right, hrows, ← addRow_spec D hadd rows] at hright
            rw [ReadStage.Right, htail]
            exact hright
  · dsimp only
    cases hmarker : getBalancesHeight D g.tree with
    | none => exact h.stop hr none
    | some markerAfter =>
      refine h.setReader hprobed (fun _ hsome => ?_) fun hfenced hnow => ?_
      · cases hsome
        exact hat generation (by rw [hstage]; rfl)
      · have hright := h.right hfenced r hr hnow
        rw [hstage] at hright
        exact ⟨hmarker, hright⟩
  · dsimp only
    cases hkey : supplyMemoCommitKey before after generation g.memo.generation with
    | none => exact h.stop hr _
    | some marker => exact h.file hr (htimely (by rw [hstage]; rfl)) hstage hkey
  · exact h

/-- One operation of a writer: a batch opens the gap, and an invalidation leaves no reader in time. -/
theorem Fence.writeOn {g : SupplyState} (h : Fence D g) {i : ℕ} {w : BalancesWriter} (hw : g.writers[i]? = some w)
    (t : StoreTree) : Fence D (g.writeOn i w t) := by
  unfold SupplyState.writeOn
  rcases htodo : w.todo with - | ⟨op, todo⟩
  · exact h
  · have hlt := (List.getElem?_eq_some_iff.mp hw).1
    cases op with
    | batch =>
      refine ⟨h.generation, h.probed, h.atProbe, fun hfenced => ?_, fun hfenced => ?_, fun _ => ?_⟩
      · cases hfenced
      · cases hfenced
      · exact ⟨_, List.mem_of_getElem? (List.getElem?_set_self hlt), rfl⟩
    | invalidate =>
      refine ⟨?_, fun r hr => (h.probed r hr).trans (Nat.le_succ _), h.atProbe, fun _ marker supply hentry => ?_,
        fun _ r hr hnow => ?_, fun hfenced => ?_⟩
      · show (g.memo.generation + 1) % 2 ^ 64 = (g.invalidations + 1) % 2 ^ 64
        rw [h.generation, Nat.mod_add_mod]
      · cases hentry
      · have hle := h.probed r hr
        dsimp only at hnow
        omega
      · cases hfenced

/-- **Every step keeps the fence.** -/
theorem step_fence {g : SupplyState} (h : Fence D g) : ∀ s : SupplyStep, timelyStep g s = true → Fence D (g.step D s)
  | .call, _ => by
    refine ⟨h.generation, fun r hr => ?_, fun r hr => ?_, h.entry, fun hfenced r hr => ?_, h.between⟩
    all_goals rcases List.mem_append.mp hr with hr | hr
    · exact h.probed r hr
    · rw [List.mem_singleton.mp hr]
      exact Nat.zero_le _
    · exact h.atProbe r hr
    · rw [List.mem_singleton.mp hr]
      exact fun _ hnone => by cases hnone
    · exact h.right hfenced r hr
    · rw [List.mem_singleton.mp hr]
      exact fun _ => trivial
  | .read i, htimely => by
    rw [timelyStep] at htimely
    cases hr : g.readers[i]? with
    | none =>
      simp only [SupplyState.step, hr]
      exact h
    | some r =>
      simp only [SupplyState.step, hr]
      rw [hr, Option.all_some, Bool.or_eq_true, decide_eq_true_eq] at htimely
      refine h.readOn (List.mem_of_getElem? hr) fun hfiling => htimely.resolve_left ?_
      rw [hfiling]
      exact Bool.noConfusion
  | .abandon i, _ => by
    cases hr : g.readers[i]? with
    | none =>
      simp only [SupplyState.step, hr]
      exact h
    | some r =>
      simp only [SupplyState.step, hr]
      exact h.stop (List.mem_of_getElem? hr) none
  | .start kind, _ => by
    refine ⟨h.generation, h.probed, h.atProbe, h.entry, h.right, fun hopen => ?_⟩
    obtain ⟨w, hw, hbetween⟩ := h.between hopen
    exact ⟨w, List.mem_append_left _ hw, hbetween⟩
  | .write i t, _ => by
    cases hw : g.writers[i]? with
    | none =>
      simp only [SupplyState.step, hw]
      exact h
    | some w =>
      simp only [SupplyState.step, hw]
      exact h.writeOn hw t
  | .fail i, _ => by
    cases hw : g.writers[i]? with
    | none =>
      simp only [SupplyState.step, hw]
      exact h
    | some w =>
      simp only [SupplyState.step, hw]
      refine ⟨h.generation, h.probed, h.atProbe, h.entry, h.right, fun hopen => ?_⟩
      obtain ⟨w', hw', hbetween⟩ := h.between hopen
      obtain ⟨j, hj⟩ := List.mem_iff_getElem?.mp hw'
      by_cases hji : j = i
      · rw [hji, hw] at hj
        cases hj
        exact ⟨_, List.mem_of_getElem? (List.getElem?_set_self (List.getElem?_eq_some_iff.mp hw).1), hbetween⟩
      · exact ⟨w', List.mem_of_getElem? ((List.getElem?_set_ne (Ne.symm hji)).trans hj), hbetween⟩

theorem run_fence : ∀ {g : SupplyState} (steps : List SupplyStep), Fence D g → timely D g steps = true →
    Fence D (steps.foldl (SupplyState.step D) g)
  | _, [], h, _ => h
  | _, s :: steps, h, htimely => by
    rw [timely, Bool.and_eq_true] at htimely
    exact run_fence steps (step_fence h s htimely.1) htimely.2

theorem Fence.exact {g : SupplyState} (h : Fence D g) (hfenced : g.fenced = true) : MemoExact D g where
  entry := h.entry hfenced
  served markerBefore supply hprobe := by
    unfold SupplyMemo.probe at hprobe
    split at hprobe
    · rename_i marker cachedMarker supply' hentry
      split_ifs at hprobe
      cases hprobe
      exact (h.entry hfenced _ _ hentry).2
    · cases hprobe

/-- **The supply memo is exact** wherever no writer is between a batch and the invalidation that follows it, and
wherever an invalidation has followed the last batch. -/
theorem supply_memo_fence (D : BalanceCodec) (t : StoreTree) (steps : List SupplyStep)
    (htimely : timely D (SupplyState.new t) steps = true) :
    Quiet (SupplyState.run D t steps) ∨ (SupplyState.run D t steps).fenced = true →
      MemoExact D (SupplyState.run D t steps) := by
  have h := run_fence steps (new_fence t) htimely
  rintro (hquiet | hfenced)
  · refine h.exact ?_
    by_contra hopen
    obtain ⟨w, hw, hbetween⟩ := h.between (by simpa using hopen)
    rw [hquiet w hw] at hbetween
    cases hbetween
  · exact h.exact hfenced

/-! ### Where the fence gives way -/

/-- One byte for each number. -/
def byteCodec : BalanceCodec := ⟨fun raw => some (raw.headD 0).toNat, fun raw => some (raw.headD 0).toNat⟩

/-- A tree at height `marker` with one account. -/
def oneAccount (marker units : UInt8) : StoreTree where
  entries := [(utf8 balancesHeightKey, [marker]), (utf8 ['a'], [units])]
  increasing := by
    have hlt : utf8 balancesHeightKey < utf8 ['a'] := by decide +kernel
    exact List.pairwise_pair.mpr hlt

/-- A reader reads the marker 2; a reorg takes the chain to height 1; the reader sums that; a tip extension takes it to
height 2, and has not written the tip metadata when the sum is filed. -/
def shorterReorg : List SupplyStep :=
  [.call, .read 0,
    .start (.reorg 1 false), .write 0 (oneAccount 0 4), .write 0 (oneAccount 0 4), .write 0 (oneAccount 1 5),
    .write 0 (oneAccount 1 5), .write 0 (oneAccount 1 5),
    .read 0, .read 0, .read 0, .read 0,
    .start .tipExtension, .write 1 (oneAccount 2 6),
    .read 0, .read 0]

theorem shorterReorg_wrong : ¬ ∀ (D : BalanceCodec) (t : StoreTree) (steps : List SupplyStep),
    timely D (SupplyState.new t) steps = true →
    (∀ w ∈ (SupplyState.run D t steps).writers, w.kind ≠ .tipExtension → w.between = false) →
    ∀ marker supply, (SupplyState.run D t steps).memo.entry = some (marker, supply) →
      getBalancesHeight D (SupplyState.run D t steps).tree = some (some marker) →
      supply = circulating D (SupplyState.run D t steps).tree := by
  intro h
  have hwrong := h byteCodec (oneAccount 2 10) shorterReorg (by decide +kernel) (by decide +kernel) 2 5
    (by decide +kernel) (by decide +kernel)
  exact absurd hwrong (by decide +kernel)

/-- `n` times, the tip metadata alone are written. -/
def tipRewrites (t : StoreTree) (from' n : ℕ) : List SupplyStep :=
  (List.range' from' n).flatMap fun i => [.start .tipMetadata, .write i t]

theorem run_tipRewrites (t : StoreTree) : ∀ (n : ℕ) (g : SupplyState),
    (tipRewrites t g.writers.length n).foldl (SupplyState.step D) g = { g with
      memo := invalidateSupplyMemo^[n] g.memo
      invalidations := g.invalidations + n
      fenced := if n = 0 then g.fenced else true
      writers := g.writers ++ List.replicate n ⟨.tipMetadata, [], false⟩ }
  | 0, g => by simp [tipRewrites]
  | n + 1, g => by
    have hstep : SupplyState.step D (SupplyState.step D g (.start .tipMetadata)) (.write g.writers.length t) = { g with
        memo := invalidateSupplyMemo g.memo
        invalidations := g.invalidations + 1
        fenced := true
        writers := g.writers ++ [⟨.tipMetadata, [], false⟩] } := by
      simp [SupplyState.step, SupplyState.writeOn, WriterKind.ops, writeChainTipMetadata]
    have hlist : tipRewrites t g.writers.length (n + 1) =
        .start .tipMetadata :: .write g.writers.length t :: tipRewrites t (g.writers.length + 1) n := rfl
    have hlen : g.writers.length + 1 = (g.writers ++ [BalancesWriter.mk .tipMetadata [] false]).length := by simp
    have ih := run_tipRewrites t n { g with
        memo := invalidateSupplyMemo g.memo
        invalidations := g.invalidations + 1
        fenced := true
        writers := g.writers ++ [⟨.tipMetadata, [], false⟩] }
    rw [hlist, List.foldl_cons, List.foldl_cons, hstep, hlen, ih]
    simp [List.replicate_succ, Nat.add_assoc, Nat.add_comm 1 n]

theorem iterate_invalidate (memo : SupplyMemo) : ∀ n : ℕ,
    invalidateSupplyMemo^[n + 1] memo = ⟨(memo.generation + (n + 1)) % 2 ^ 64, none⟩
  | 0 => rfl
  | n + 1 => by
    rw [Function.iterate_succ_apply', iterate_invalidate memo n, invalidateSupplyMemo, Nat.mod_add_mod]
    rfl

/-- A reader sums a tree; a rebuild writes another at the same height, and invalidates. -/
def sameHeight : List SupplyStep :=
  [.call, .read 0, .read 0, .read 0, .read 0, .read 0, .read 0,
    .start .rebuild, .write 0 (oneAccount 2 20), .write 0 (oneAccount 2 20)]

/-- After 2⁶⁴ invalidations the generation is the same again. -/
theorem sameHeight_wrong : ¬ ∀ (D : BalanceCodec) (t : StoreTree) (steps : List SupplyStep),
    Quiet (SupplyState.run D t steps) → MemoExact D (SupplyState.run D t steps) := by
  intro h
  set g := SupplyState.run byteCodec (oneAccount 2 10) sameHeight with hg
  have hwriters : g.writers = [⟨.rebuild, [], false⟩] := by decide +kernel
  have hreader : g.readers = [⟨.bracketed (some 2) (some 2) 0 10, 0⟩] := by decide +kernel
  have hmemo : g.memo = ⟨1, none⟩ := by decide +kernel
  have hrun : SupplyState.run byteCodec (oneAccount 2 10)
      (sameHeight ++ tipRewrites (oneAccount 2 20) 1 (2 ^ 64 - 2 + 1) ++ [.read 0]) =
      { g with
        memo := ⟨0, some (2, 10)⟩
        invalidations := g.invalidations + (2 ^ 64 - 2 + 1)
        fenced := true
        readers := [⟨.returned (some 10), 0⟩]
        writers := g.writers ++ List.replicate (2 ^ 64 - 2 + 1) ⟨.tipMetadata, [], false⟩ } := by
    have hrewrites := run_tipRewrites (D := byteCodec) (oneAccount 2 20) (2 ^ 64 - 2 + 1) g
    rw [hwriters, List.length_singleton] at hrewrites
    unfold SupplyState.run at hg ⊢
    rw [List.foldl_append, List.foldl_append, ← hg, hrewrites, iterate_invalidate, hmemo]
    rw [List.foldl_cons, List.foldl_nil, SupplyState.step]
    simp only [hreader, hwriters]
    rfl
  have hquiet : Quiet (SupplyState.run byteCodec (oneAccount 2 10)
      (sameHeight ++ tipRewrites (oneAccount 2 20) 1 (2 ^ 64 - 2 + 1) ++ [.read 0])) := by
    rw [hrun, hwriters]
    intro w hw
    rcases List.mem_append.mp hw with hw | hw
    · rw [List.mem_singleton.mp hw]
    · rw [List.eq_of_mem_replicate hw]
  have hexact := (h _ _ _ hquiet).entry 2 10 (by rw [hrun])
  rw [hrun] at hexact
  have hsum : circulating byteCodec g.tree = 20 := by decide +kernel
  exact absurd (hexact.2.trans hsum) (by decide)

/-- **Where the fence gives way**: between the batch of a tip extension and its tip metadata, and after 2⁶⁴
invalidations under one scan. -/
theorem supply_memo_gives_way :
    (¬ ∀ (D : BalanceCodec) (t : StoreTree) (steps : List SupplyStep),
      timely D (SupplyState.new t) steps = true →
      (∀ w ∈ (SupplyState.run D t steps).writers, w.kind ≠ .tipExtension → w.between = false) →
      ∀ marker supply, (SupplyState.run D t steps).memo.entry = some (marker, supply) →
        getBalancesHeight D (SupplyState.run D t steps).tree = some (some marker) →
        supply = circulating D (SupplyState.run D t steps).tree) ∧
    ¬ ∀ (D : BalanceCodec) (t : StoreTree) (steps : List SupplyStep),
      Quiet (SupplyState.run D t steps) → MemoExact D (SupplyState.run D t steps) :=
  ⟨shorterReorg_wrong, sameHeight_wrong⟩

/-- A reader files the sum of a tree, a rebuild writes another at the same height, and a second reader files its
sum, which a third one finds. -/
def rebuiltBetween : List SupplyStep :=
  [.call, .read 0, .read 0, .read 0, .read 0, .read 0, .read 0, .read 0,
    .start .rebuild, .write 0 (oneAccount 2 20), .write 0 (oneAccount 2 20),
    .call, .read 1, .read 1, .read 1, .read 1, .read 1, .read 1, .read 1, .call, .read 2]

theorem supply_memo_fence_rebuilt :
    (SupplyState.run byteCodec (oneAccount 2 10) (rebuiltBetween.take 8)).memo.entry = some (2, 10) ∧
    (SupplyState.run byteCodec (oneAccount 2 10) rebuiltBetween).memo.entry = some (2, 20) ∧
    Quiet (SupplyState.run byteCodec (oneAccount 2 10) rebuiltBetween) ∧
    MemoExact byteCodec (SupplyState.run byteCodec (oneAccount 2 10) rebuiltBetween) := by
  have hquiet : Quiet (SupplyState.run byteCodec (oneAccount 2 10) rebuiltBetween) := by
    unfold Quiet
    decide +kernel
  exact ⟨by decide +kernel, by decide +kernel, hquiet,
    supply_memo_fence byteCodec (oneAccount 2 10) rebuiltBetween (by decide +kernel) (.inl hquiet)⟩

end Alphanumeric
