/-
# The chain engine: how blocks become canonical

`persist_validated_block_with_mode` extends the tip, `adopt_branch_if_valid`
replaces a suffix by a branch, `save_block`, `save_receipt_verified_block` and
`finalize_block` are the entries, and `reconcile_chain_state_if_dirty` heals a
failed apply. An operation returns the new state and its result; the clock is an
argument. Writes to the store do not fail in the model.

Key definitions: `persistValidatedBlockWithMode`, `adoptBranchIfValid`,
`tryAdoptOrphanBranch`, `saveBlock`, `saveReceiptVerifiedBlock`, `finalizeBlock`,
`raiseTrustedCheckpoint`.
-/
import Alphanumeric.ForkChoice
import Alphanumeric.Ledger
import Alphanumeric.Registry

namespace Alphanumeric

open Guard BlockchainError

variable (E : Env)

/-- Run `f` after `x` if `x` succeeded; an error stops with the state reached so far. -/
def andThen {α β : Type} (x : ChainState × Res α) (f : α → ChainState → ChainState × Res β) :
    ChainState × Res β :=
  match x with
  | (s, .ok a) => f a s
  | (s, .error e) => (s, .error e)

namespace ChainState

/-! ### Derived state: rebuild, catch up, recover -/

/-- `load_structurally_valid_canonical_block`, from height `h` on. -/
def structurallyValidFrom : ℕ → Option Block → List Block → Bool
  | _, _, [] => true
  | h, previous, b :: bs =>
    b.index == h &&
      (match previous with
        | some parent => b.previousHash == parent.hash && parent.timestamp ≤ b.timestamp
        | none => h != 0 || b.previousHash == zeroHash) &&
      calculateMerkleRoot E b.transactions == b.merkleRoot &&
      calculateHashForBlock E b == b.hash && structurallyValidFrom (h + 1) (some b) bs

def structurallyValid (chain : List Block) : Bool := structurallyValidFrom E 0 none chain

/-- The replay from genesis over structurally valid slots, up to the tip that
`highest_block_index` names at that moment. -/
def rebuildBalancesIndex (covered : Option ℕ) (s : ChainState) : Res ChainState := do
  let slots := s.blocks.take ((covered.map (· + 1)).getD 0)
  ensure (covered.all (· < s.blocks.length) ∧ structurallyValid E slots = true)
    (canonicalCorruption slots.length)
  let st ← replayChain slots
  .ok { s with balances := st.1, balancesHeight := some (covered.getD 0) }

/-- Close the gap from the marker `marker` to the tip, or rebuild if a block does not replay. -/
def catchUpBalancesIndex (covered : Option ℕ) (s : ChainState) (marker : ℕ) : Res ChainState :=
  match replayBlocks (s.blocks.drop (marker + 1)) (s.balances, seedRecent s.blocks (marker + 1)) with
  | .ok st => .ok { s with balances := st.1, balancesHeight := some s.getLatestBlockIndex }
  | .error _ => rebuildBalancesIndex E covered s

/-- The lazy catch-up of a balance read. -/
def ensureBalancesIndex (s : ChainState) : Res ChainState :=
  if s.balancesHeight = some s.getLatestBlockIndex then .ok s
  else if s.dirty then .ok s
  else
    match s.balancesHeight with
    | some marker =>
      if marker < s.getLatestBlockIndex then catchUpBalancesIndex E s.highestBlockIndex s marker
      else rebuildBalancesIndex E s.highestBlockIndex s
    | none => rebuildBalancesIndex E s.highestBlockIndex s

/-- Derive the registry from the canonical slots and prune it at the tip. -/
def rebuildConfirmedTxIndex (s : ChainState) : Res ChainState :=
  match s.getLastBlock with
  | none => .ok { s with registry := Registry.empty }
  | some tip => do
    ensure (structurallyValid E s.blocks = true) (canonicalCorruption s.blocks.length)
    .ok { s with registry := (Registry.ofChain E s.blocks).pruneConfirmedTxs tip.timestamp }

/-- A `Res ChainState` as an operation: an error changes nothing. -/
def attempt (s : ChainState) (x : Res ChainState) : ChainState × Res Unit :=
  match x with
  | .ok s' => (s', .ok ())
  | .error e => (s, .error e)

def recoverDirtyChainState (s : ChainState) : ChainState × Res Unit :=
  andThen (s.attempt (rebuildBalancesIndex E s.highestBlockIndex s)) fun _ s =>
    andThen (s.attempt (rebuildConfirmedTxIndex E s)) fun _ s => ({ s with dirty := false }, .ok ())

def reconcileChainStateIfDirty (s : ChainState) : ChainState × Res Unit :=
  if s.dirty then recoverDirtyChainState E s else (s, .ok ())

/-! ### The trusted checkpoint -/

def raiseTrustedCheckpoint (s : ChainState) (height : ℕ) : ChainState :=
  let height := min height (s.getLatestBlockIndex - checkpointReorgMargin)
  if s.trustedCheckpointHeight < height then { s with trustedCheckpoint := some height } else s

def seedTrustedCheckpointIfUnset (s : ChainState) : ChainState :=
  match s.trustedCheckpoint with
  | some _ => s
  | none => { s with trustedCheckpoint := some (s.getLatestBlockIndex - checkpointReorgMargin) }

def advanceCheckpointBehind (s : ChainState) (verifiedHeight : ℕ) : ChainState :=
  s.raiseTrustedCheckpoint (verifiedHeight - checkpointReorgMargin)

/-! ### Tip extension -/

/-- The pair checks of the frontier walk. -/
def integrityPairs : List Block → Bool
  | a :: b :: rest =>
    b.previousHash == a.hash && a.timestamp ≤ b.timestamp &&
      b.difficulty == consensusNextDifficulty a.difficulty (b.timestamp - a.timestamp) b.index &&
      integrityPairs (b :: rest)
  | _ => true

def verifyRecentChainIntegrity (s : ChainState) : Bool :=
  match s.highestBlockIndex with
  | none => true
  | some tip => integrityPairs (s.blocks.drop (tip - integrityFrontierWindow))

def integrityDue (now : ℕ) (s : ChainState) (b : Block) : Bool :=
  b.index % 128 = 0 || 60 ≤ now - s.lastVerification

/-- Mining reward first, one system transaction of each type. -/
def systemTxRules (b : Block) : Bool :=
  ((b.transactions.findIdx? (·.isCoinbase)).all (· = 0)) &&
    ((b.transactions.filter (·.isSystem)).map (·.sender)).Nodup

/-- Write one canonical slot. -/
def setSlot (blocks : List Block) (b : Block) : List Block :=
  blocks.take b.index ++ toStorageBlock E b :: blocks.drop (b.index + 1)

/-- The gates of a tip extension before anything is written. -/
def persistGates (now : ℕ) (mode : SignatureValidationMode) (s : ChainState) (b : Block) :
    Res Unit := do
  validateBlockInternal E now s mode b
  ensure (s.registry.blockHasReplayedTx E b = false) invalidTransaction
  ensure (integrityDue now s b = true → s.verifyRecentChainIntegrity = true) invalidBlockHeader
  ensure (systemTxRules b = true) invalidSystemTransaction

/-- The writes of a tip extension. -/
def commitTip (s : ChainState) (balances : Balances) (b : Block) : ChainState :=
  { s with
    blocks := setSlot E s.blocks b
    registry := (s.registry.recordConfirmedTxs E b).pruneConfirmedTxs b.timestamp
    balances
    balancesHeight := some b.index
    dirty := false }

def markDirty (s : ChainState) : ChainState := { s with dirty := true }

def noteIntegrity (now : ℕ) (s : ChainState) (b : Block) : ChainState :=
  if integrityDue now s b then { s with lastVerification := now } else s

/-- Apply the block's transactions and commit; a failed apply leaves the dirty marker. -/
def applyTip (mode : SignatureValidationMode) (s : ChainState) (b : Block) : ChainState × Res Unit :=
  match processTransactionsBatch E mode s.blocks s.balances b.index b.transactions with
  | .error e => (s.markDirty, .error e)
  | .ok balances => (commitTip E s balances b, .ok ())

def persistValidatedBlockWithMode (now : ℕ) (mode : SignatureValidationMode) (s : ChainState)
    (b : Block) : ChainState × Res Unit :=
  andThen (reconcileChainStateIfDirty E s) fun _ s =>
    match persistGates E now mode s b with
    | .error e => (s, .error e)
    | .ok () =>
      andThen (applyTip E mode (noteIntegrity now s b) b) fun _ s =>
        (s.removeOrphanByHash b.hash, .ok ())

/-- Attach the first child that persists; a child that fails is dropped from the pool. -/
def promoteChildren (now : ℕ) : List Block → ChainState → ChainState × Bool
  | [], s => (s, false)
  | c :: cs, s =>
    match persistValidatedBlockWithMode E now .requireFull s c with
    | (s', .ok ()) => (s', true)
    | (s', .error _) => promoteChildren now cs (s'.removeOrphanByHash c.hash)

/-- At most `rounds` promotions from the tip. -/
def promoteLoop (now : ℕ) : ℕ → ChainState → ChainState
  | 0, s => s
  | rounds + 1, s =>
    match s.getLastBlock with
    | none => s
    | some tip =>
      match promoteChildren E now ((s.orphanChildrenOf tip.hash).filter fun c =>
          c.index = tip.index + 1 && c.previousHash = tip.hash) s with
      | (s', true) => promoteLoop now rounds s'
      | (s', false) => s'

def promoteOrphansFromTip (now : ℕ) (s : ChainState) : ChainState :=
  (promoteLoop E now 256 s).pruneOrphans now

end ChainState

end Alphanumeric
