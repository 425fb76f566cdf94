/-
# The orphan pool and the branches in it

Blocks that do not extend the tip are parked in the pool, keyed by hash. A branch
is a linked run of pool blocks; `collect_orphan_branches_from` enumerates the
branches from a first block by the depth-first search of `Lib.Paths`, each one run
until it has no child, is `max_depth` long, or the search budget is spent.

The source keeps the pool in two trees, the bodies and an index by parent; the
index is rebuilt from the bodies and only saves decoding them, so the model has one
list. Ties in the capacity overflow are cut in pool order.

Key definitions: `storeOrphanBlock`, `removeOrphanByHash`, `orphanChildrenOf`,
`pruneOrphans`, `collectOrphanBranchesFrom`, `PoolBranch`.
Key theorems: `poolBranch_of_mem_collect`.
-/
import Alphanumeric.Lib.Paths
import Alphanumeric.State

namespace Alphanumeric

namespace ChainState

def removeOrphanByHash (s : ChainState) (hash : Hash) : ChainState :=
  { s with orphans := s.orphans.filter fun entry => entry.block.hash ≠ hash }

/-- Expected height first, then higher difficulty, earlier timestamp, lower hash. -/
def childLe (a b : Block) : Bool :=
  ((compare a.index b.index).then <| (compare b.difficulty a.difficulty).then <|
    (compare a.timestamp b.timestamp).then (compare a.hash b.hash)).isLE

def orphanChildrenOf (s : ChainState) (parentHash : Hash) : List Block :=
  ((s.orphans.map (·.block)).filter fun b => b.previousHash = parentHash).insertionSort
    fun a b => childLe a b = true

/-- An entry outlives its welcome: too old, too deep below `tip`, or at a finalized height. -/
def orphanExpired (now : ℕ) (tip : Option ℕ) (s : ChainState) (entry : OrphanStoredBlock) : Bool :=
  orphanTtlSecs < now - entry.receivedAt ||
    tip.any (fun tip => entry.block.index + orphanReorgDepth < tip) ||
    (0 < s.trustedCheckpointHeight && entry.block.index ≤ s.trustedCheckpointHeight)

/-- `prune_orphans` with the tip it reads; a reorg runs it before the new tip is published. -/
def pruneOrphansAt (now : ℕ) (tip : Option ℕ) (s : ChainState) : ChainState :=
  let retained := s.orphans.filter fun entry => !orphanExpired now tip s entry
  let oldest := retained.insertionSort fun a b => a.receivedAt ≤ b.receivedAt
  let overflow := (oldest.take (retained.length - orphanMaxCount)).map (·.block.hash)
  { s with orphans := retained.filter fun entry => entry.block.hash ∉ overflow }

def pruneOrphans (now : ℕ) (s : ChainState) : ChainState := s.pruneOrphansAt now s.highestBlockIndex

def storeOrphanBlock (now : ℕ) (s : ChainState) (b : Block) : ChainState :=
  if 0 < s.trustedCheckpointHeight ∧ b.index ≤ s.trustedCheckpointHeight then s
  else if s.highestBlockIndex.any fun tip => tip + orphanReorgDepth < b.index then s
  else if s.orphans.any fun entry => entry.block.hash = b.hash then s
  else pruneOrphans now { s with orphans := s.orphans ++ [⟨b, now⟩] }

/-- The children that continue a branch ending in `current`. -/
def branchChildren (s : ChainState) (current : Block) : List Block :=
  (s.orphanChildrenOf current.hash).filter fun c =>
    c.index = current.index + 1 && c.previousHash = current.hash

/-- Every branch from `start`, each as far as the pool and the budgets take it. -/
def collectOrphanBranchesFrom (s : ChainState) (start : Block) (maxDepth maxBranches : ℕ) :
    List (List Block) :=
  Paths.enumerate s.branchChildren maxDepth maxBranches start

/-! ### What the search returns -/

def poolBlocks (s : ChainState) : List Block := s.orphans.map (·.block)

@[simp] theorem mem_branchChildren {s : ChainState} {current c : Block} :
    c ∈ s.branchChildren current ↔
      c ∈ s.poolBlocks ∧ c.index = current.index + 1 ∧ c.previousHash = current.hash := by
  simp only [branchChildren, orphanChildrenOf, poolBlocks, List.mem_filter, List.mem_insertionSort,
    decide_eq_true_eq, Bool.and_eq_true]
  tauto

/-- Consecutive blocks of a branch: one height up, named by hash. -/
def BranchLink (a b : Block) : Prop := b.index = a.index + 1 ∧ b.previousHash = a.hash

/-- A linked run of pool blocks from `start`. -/
structure PoolBranch (s : ChainState) (start : Block) (branch : List Block) : Prop where
  head : branch.head? = some start
  linked : branch.IsChain BranchLink
  pool : ∀ b ∈ branch.tail, b ∈ s.poolBlocks

theorem PoolBranch.singleton (s : ChainState) (start : Block) : s.PoolBranch start [start] :=
  ⟨rfl, .singleton _, by simp⟩

theorem PoolBranch.extend {s : ChainState} {start current c : Block} {branch : List Block}
    (h : s.PoolBranch start branch) (hlast : branch.getLast? = some current)
    (hc : c ∈ s.branchChildren current) : s.PoolBranch start (branch ++ [c]) := by
  have hc' := mem_branchChildren.mp hc
  refine ⟨by simp [List.head?_append, h.head], ?_, ?_⟩
  · refine List.isChain_append.mpr ⟨h.linked, .singleton _, ?_⟩
    intro x hx y hy
    obtain rfl : current = x := by simpa [hlast] using hx
    obtain rfl : c = y := by simpa using hy
    exact ⟨hc'.2.1, hc'.2.2⟩
  · intro b hb
    have hne : branch ≠ [] := by
      rintro rfl
      simp at hlast
    rw [List.tail_append_of_ne_nil hne] at hb
    rcases List.mem_append.mp hb with hb | hb
    · exact h.pool b hb
    · simpa [List.mem_singleton.mp hb] using hc'.1

theorem poolBranch_of_mem_collect {s : ChainState} {start : Block} {maxDepth maxBranches : ℕ}
    {branch : List Block} (h : branch ∈ s.collectOrphanBranchesFrom start maxDepth maxBranches) :
    s.PoolBranch start branch := by
  refine Paths.loop_induct (P := s.PoolBranch start) (fun _ _ _ hb hlast hc => hb.extend hlast hc)
    _ _ _ (by simp) ?_ branch h
  intro b hb
  rw [List.mem_singleton.mp hb]
  exact .singleton s start

/-! ### Fields the pool operations leave alone -/

/-- `s'` differs from `s` in the pool only. -/
def SamePoolFrame (s s' : ChainState) : Prop := s' = { s with orphans := s'.orphans }

theorem removeOrphanByHash_frame (s : ChainState) (h : Hash) :
    s.SamePoolFrame (s.removeOrphanByHash h) := rfl

theorem pruneOrphansAt_frame (now : ℕ) (tip : Option ℕ) (s : ChainState) :
    s.SamePoolFrame (s.pruneOrphansAt now tip) := rfl

theorem storeOrphanBlock_frame (now : ℕ) (s : ChainState) (b : Block) :
    s.SamePoolFrame (s.storeOrphanBlock now b) := by
  unfold storeOrphanBlock
  split_ifs <;> rfl

theorem SamePoolFrame.trans {s t u : ChainState} (h : s.SamePoolFrame t) (h' : t.SamePoolFrame u) :
    s.SamePoolFrame u := by
  unfold SamePoolFrame at *
  rw [h', h]

theorem foldl_frame {α : Type} {f : ChainState → α → ChainState}
    (hf : ∀ (s : ChainState) (a : α), s.SamePoolFrame (f s a)) :
    ∀ (as : List α) (s : ChainState), s.SamePoolFrame (as.foldl f s)
  | [], _ => rfl
  | a :: as, s => (hf s a).trans (foldl_frame hf as (f s a))

end ChainState

end Alphanumeric
