/-
# Reorganisation and the entries of the engine

`adopt_branch_if_valid` runs a branch through every gate (validity, finality,
witnesses, solvency, replay) and then rewrites the canonical suffix;
`try_adopt_orphan_branch` tries the ranked branches of the pool in order. The
entries `save_block`, `save_receipt_verified_block` and `finalize_block` extend the
tip, promote waiting children and look for a better branch.

Key definitions: `branchGates`, `commitBranch`, `adoptBranchIfValid`,
`tryAdoptOrphanBranch`, `adoptExternalBranch`, `saveBlock`, `finalizeBlock`.
-/
import Alphanumeric.Engine

namespace Alphanumeric

open Guard BlockchainError

variable (E : Env)

namespace ChainState

/-! ### The witness-blocked memo -/

def witnessBranchBackoffActive (now : ℕ) (s : ChainState) (tipHash : Hash) : Bool :=
  (s.witnessBlocked.lookup tipHash).any fun e => now < e.retryAfter

def recordWitnessBlocked (now : ℕ) (s : ChainState) (tipHash : Hash) (needed : List (ℕ × Hash)) :
    ChainState :=
  let kept := s.witnessBlocked.filter fun e => now - e.2.recordedAt ≤ witnessBlockedTtlSecs
  let attempts := ((kept.lookup tipHash).map (·.attempts)).getD 0
  { s with
    witnessBlocked := (tipHash, ⟨now + witnessBlockedBackoffSecs, attempts + 1, needed, now⟩) ::
      kept.filter fun e => e.1 ≠ tipHash }

/-- The branch blocks above the floor whose full signatures are missing or bad. -/
def witnessShort (s : ChainState) (branch : List Block) : List (ℕ × Hash) :=
  (branch.filter fun b => s.verificationFloor < b.index && !blockSignaturesFullyVerified E b).map
    fun b => (b.index, b.hash)

/-! ### The gates of a branch -/

/-- `balances_at_fork_state`: the totals just below the fork, by reverting the blocks above
it, and the maturity window there. `none` if the index does not vouch for the tip. -/
def balancesAtForkState (s : ChainState) (forkStart oldTip : ℕ) : Option (Balances × Recent) :=
  if forkStart = 0 ∨ oldTip < forkStart then none
  else if s.balancesHeight ≠ some oldTip then none
  else some (((s.blocks.drop forkStart).foldl (fun bal b => replayRevertBlock b.transactions bal)
    s.balances), seedRecent s.blocks forkStart)

/-- `branch_is_balance_valid`: the dry-run from genesis, an error if a slot is corrupt. -/
def branchIsBalanceValid (s : ChainState) (forkStart : ℕ) (branch : List Block) : Res Bool := do
  ensure (structurallyValid E (s.blocks.take forkStart) = true) (canonicalCorruption forkStart)
  .ok (replayChain (s.blocks.take forkStart ++ branch)).isOk

/-- The solvency and maturity dry-run of a branch. -/
def branchSolvent (s : ChainState) (forkStart oldTip : ℕ) (branch : List Block) : Res Bool :=
  match s.balancesAtForkState forkStart oldTip with
  | some st => .ok (replayBlocks branch st).isOk
  | none => s.branchIsBalanceValid E forkStart branch

/-- A branch is well formed for adoption: every block passes validation, and the fork lies
above the checkpoint. -/
def branchValid (now : ℕ) (s : ChainState) (forkStart : ℕ) (branch : List Block) : Bool :=
  branch.all (fun b => (validateBlockInternal E now s .allowTruncatedStored b).isOk) &&
    s.trustedCheckpointHeight < forkStart

/-! ### The rewrite -/

/-- The canonical slots after a reorg: the branch's slots written, the higher ones dropped. -/
def rewriteSlots (blocks : List Block) (branch : List Block) : List Block :=
  match branch.getLast? with
  | none => blocks
  | some branchTip => (branch.foldl (setSlot E) blocks).take (branchTip.index + 1)

/-- The registry after a reorg: the replaced blocks removed, the branch recorded, pruned at
the new tip. -/
def reorgRegistry (s : ChainState) (forkStart : ℕ) (branch : List Block) (branchTip : Block) :
    Registry :=
  let removed := (s.blocks.drop forkStart).foldl (Registry.removeConfirmedTxs E) s.registry
  (branch.foldl (Registry.recordConfirmedTxs E) removed).pruneConfirmedTxs branchTip.timestamp

/-- The balances after the slots are rewritten: the fork-boundary values and a catch-up over
the branch, or a rebuild. The tip metadata is written after it, so a rebuild here still
covers the old tip. -/
def reorgBalances (s : ChainState) (forkState : Option (Balances × Recent)) (forkStart oldTip : ℕ) :
    Res ChainState :=
  match forkState with
  | some st =>
    catchUpBalancesIndex E (some oldTip)
      { s with balances := st.1, balancesHeight := some (forkStart - 1) } (forkStart - 1)
  | none => rebuildBalancesIndex E (some oldTip) s

/-- The writes of a reorg, in the dirty window. -/
def commitBranch (now : ℕ) (s : ChainState) (forkStart oldTip : ℕ) (branch : List Block)
    (branchTip : Block) : ChainState × Res Bool :=
  let forkState := s.balancesAtForkState forkStart oldTip
  let rewritten : ChainState :=
    { s with
      blocks := rewriteSlots E s.blocks branch
      registry := s.reorgRegistry E forkStart branch branchTip
      dirty := true }
  let pooled := (branch.foldl (fun s b => s.removeOrphanByHash b.hash) rewritten).pruneOrphansAt now
    (some oldTip)
  match reorgBalances E pooled forkState forkStart oldTip with
  | .error e => (pooled, .error e)
  | .ok s' => ({ s' with dirty := false }, .ok true)

/-- `adopt_branch_if_valid`. The `none` case is not reached: a branch is never empty. -/
def adoptBranchIfValid (now : ℕ) (s : ChainState) (branch : List Block) (tip : Block) :
    ChainState × Res Bool :=
  match branch.head?, branch.getLast? with
  | some first, some branchTip =>
    if !branchValid E now s first.index branch then (s, .ok false)
    else if s.witnessBranchBackoffActive now branchTip.hash then (s, .ok false)
    else if s.witnessShort E branch ≠ [] then
      (s.recordWitnessBlocked now branchTip.hash (s.witnessShort E branch), .ok false)
    else
      match s.branchSolvent E first.index tip.index branch with
      | .error e => (s, .error e)
      | .ok false => (s, .ok false)
      | .ok true =>
        if s.registry.branchReplaysBelow E first.index branch then (s, .ok false)
        else s.commitBranch E now first.index tip.index branch branchTip
  | _, _ => (s, .ok false)

/-- Adopt the first branch that passes every gate. -/
def adoptFirst (now : ℕ) (tip : Block) : List (List Block) → ChainState → ChainState × Res Bool
  | [], s => (s, .ok false)
  | branch :: rest, s =>
    match adoptBranchIfValid E now s branch tip with
    | (s', .ok true) => (s', .ok true)
    | (s', .ok false) => adoptFirst now tip rest s'
    | (s', .error e) => (s', .error e)

def tryAdoptOrphanBranch (now : ℕ) (s : ChainState) : ChainState × Res Bool :=
  andThen (reconcileChainStateIfDirty E s) fun _ s =>
    match s.getLastBlock with
    | none => (s, .ok false)
    | some tip =>
      adoptFirst E now tip (((s.rankedBranches tip).take maxReorgAdoptAttempts).map (·.branch)) s

def adoptExternalBranch (now : ℕ) (s : ChainState) (branch : List Block) : ChainState × Res Bool :=
  if branch = [] then (s, .ok false)
  else tryAdoptOrphanBranch E now (branch.foldl (storeOrphanBlock now) s)

/-! ### The entries -/

/-- Where an arriving block belongs. -/
inductive Placement where
  | extendsTip
  | alreadyCanonical
  | parked
deriving DecidableEq

/-- The tip-shape classification of `save_block`. -/
def placement (s : ChainState) (b : Block) : Placement :=
  match s.getLastBlock with
  | none => if b.index = 0 ∧ b.previousHash = zeroHash then .extendsTip else .parked
  | some tip =>
    if b.index ≤ s.getLatestBlockIndex then
      if (s.getBlock b.index).any fun existing => existing.hash = b.hash then .alreadyCanonical
      else .parked
    else if b.index = s.getLatestBlockIndex + 1 ∧ b.previousHash = tip.hash then .extendsTip
    else .parked

/-- The common body of `save_block` (`requireFull`) and `save_receipt_verified_block`
(`allowTruncatedStored`). -/
def saveBlockWithMode (now : ℕ) (mode : SignatureValidationMode) (s : ChainState) (b : Block) :
    ChainState × Res Unit :=
  match prevalidateUnattachedBlock E now mode b with
  | .error e => (s, .error e)
  | .ok () =>
    andThen (reconcileChainStateIfDirty E s) fun _ s =>
      match s.placement b with
      | .alreadyCanonical => (s, .ok ())
      | .parked =>
        andThen (tryAdoptOrphanBranch E now (s.storeOrphanBlock now b)) fun _ s => (s, .ok ())
      | .extendsTip =>
        andThen (persistValidatedBlockWithMode E now mode s b) fun _ s =>
          andThen (tryAdoptOrphanBranch E now (promoteOrphansFromTip E now s)) fun _ s => (s, .ok ())

def saveBlock (now : ℕ) (s : ChainState) (b : Block) : ChainState × Res Unit :=
  saveBlockWithMode E now .requireFull s b

def saveReceiptVerifiedBlock (now : ℕ) (s : ChainState) (b : Block) : ChainState × Res Unit :=
  saveBlockWithMode E now .allowTruncatedStored s b

/-- The miner's own affordability gate: totals before the block, its coinbase not counted. -/
def finalizeAffordable (s : ChainState) (b : Block) : List Transaction → Balances → Bool
  | [], _ => true
  | tx :: txs, pending =>
    if tx.isCoinbase then finalizeAffordable s b txs pending
    else
      let immature :=
        if maturityActivationHeight ≤ b.index then
          immatureUnits (((s.blocks.take b.index).drop (b.index - miningRewardMaturity + 1)).flatMap
            coinbases) tx.sender
        else 0
      if s.balances tx.sender - pending tx.sender - immature < tx.totalDebitUnits then false
      else
        finalizeAffordable s b txs
          (credit (credit pending tx.sender tx.totalDebitUnits) tx.recipient (-tx.amountUnits))

/-- The state a block's balance reads leave: a lagging index is caught up first. -/
def balancesForRead (s : ChainState) (b : Block) : Res ChainState :=
  if b.transactions.any (fun tx => !tx.isCoinbase) && s.balancesHeight.getD 0 < s.getLatestBlockIndex
  then ensureBalancesIndex E s
  else .ok s

def finalizeBlock (now : ℕ) (s : ChainState) (b : Block) : ChainState × Res Unit :=
  andThen (reconcileChainStateIfDirty E s) fun _ s =>
    if s.placement b ≠ .extendsTip then (s, .error invalidBlockHeader)
    else
      match validateBlockInternal E now s .requireFull b with
      | .error e => (s, .error e)
      | .ok () =>
        if s.registry.blockHasReplayedTx E b then (s, .error invalidTransaction)
        else
          andThen (s.attempt (balancesForRead E s b)) fun _ s =>
            if !finalizeAffordable s b b.transactions (fun _ => 0) then
              (s, .error insufficientFunds)
            else
              andThen (applyTip E .requireFull s b) fun _ s =>
                (promoteOrphansFromTip E now s, .ok ())

/-- A clean node that holds `blocks`, with every index derived from them. -/
def holding (blocks : List Block) (orphans : List OrphanStoredBlock) : ChainState where
  blocks
  orphans
  registry := Registry.ofChain E blocks
  balances := ((replayChain blocks).toOption.map (·.1)).getD fun _ => 0
  balancesHeight := some (blocks.length - 1)
  trustedCheckpoint := none
  witnessBlocked := []
  dirty := false
  lastVerification := 0

end ChainState

/-! ### A small fork

Two blocks on genesis, and a heavier branch beside the second one that confirms a payment. -/

namespace Toy

def alice : Text := toyAddress [1]
def bob : Text := toyAddress [2]
def genesis : Block := genesisLaunchBlock toyEnv
def b1 : Block := toyBlock genesis 5 alice []
def b2 : Block := toyBlock b1 5 bob []
def pay : Transaction := toyTransfer [1] bob 1000 (genesisLaunchTimestamp + 8)
def c2 : Block := toyBlock b1 5 bob [pay]
def c3 (txs : List Transaction) : Block := toyBlock c2 5 alice txs
def now : ℕ := genesisLaunchTimestamp + 100

/-- The chain `b1`, `b2` with the given blocks in the pool. -/
def fork (pool : List Block) : ChainState :=
  .holding toyEnv [genesis, b1, b2] (pool.map fun b => ⟨b, genesisLaunchTimestamp⟩)

end Toy

end Alphanumeric
