/-
# Convergence to a beacon

`find_common_ancestor` walks down from the beacon's hash, each block's `previous_hash`
naming the next one, until it meets the local chain. `converge_to_canonical` appends or
adopts what the walk found, a chunk a round, and reports where it stands.

The inner loop of the walk follows hashes, not heights, so the model gives it fuel; out of
fuel the call has not returned.

Key definitions: `fetchRelayBlocks`, `findCommonAncestor`, `syncWithBlockRelay`,
`convergeRound`, `convergeToCanonical`.
-/
import Alphanumeric.Node

namespace Alphanumeric

open Guard BlockchainError ChainState

def convergeMaxRounds : ℕ := 6
def convergeChunk : ℕ := 128
def convergeStallEscalateCalls : ℕ := 10
def convergeStallMinIntervalMs : ℕ := 2500
def walkWindow : ℕ := 64
def relayBatchSize : ℕ := 64

/-- Outcome of an attempt to converge. -/
inductive Converge where
  | converged
  | atTipAhead
  | progressed
  | needsBootstrap
  | beaconStale
  | branchInvalid
deriving DecidableEq, Repr

/-- Result of the common-ancestor search; `found` has the blocks from the ancestor up to the
beacon. -/
inductive Ancestor where
  | found (height : ℕ) (canon : List Block)
  | noneBelowFloor
  | needsBootstrap
  | transient
deriving DecidableEq

inductive ExactFetch where
  | found (b : Block)
  | missing
  | transient

/-- The operator's settings of `sync_with_block_relay`. -/
structure RelaySyncConfig where
  backfillDepth : ℕ
  maxRounds : ℕ

variable (E : Env)

/-! ### What the relay serves -/

/-- A body the relay path takes at all: it hashes to its hash and meets the floor. -/
def bodyOk (b : Block) : Bool := calculateHashForBlock E b == b.hash && verifyPowMeetsFloor E b

/-- Keep the first of each (height, hash). -/
def dedupBlocks : List Block → List Block
  | [] => []
  | b :: bs => b :: (dedupBlocks bs).filter fun c => !(c.index == b.index && c.hash == b.hash)

def relayLe (a b : Block) : Bool :=
  ((compare a.index b.index).then <| (compare a.timestamp b.timestamp).then
    (compare a.hash b.hash)).isLE

/-- The blocks of a window, or `none` if no base answered. -/
def fetchRelayBlocks (start stop : ℕ) : NodeM (Option (List Block)) :=
  if stop < start then return some []
  else do
    let pages ← relayPages start stop
    return pages.map fun raw =>
      (dedupBlocks (raw.filter fun b => start ≤ b.index && b.index ≤ stop && bodyOk E b)).insertionSort
        fun a b => relayLe a b = true

/-- The first base that serves the asked block; a clean answer without it is a miss. -/
def exactFetch (height : ℕ) (hash : Hash) : List ExactReply → Bool → ExactFetch
  | [], missed => if missed then .missing else .transient
  | .unreachable :: rest, missed => exactFetch height hash rest missed
  | .negative :: rest, _ => exactFetch height hash rest true
  | .served b :: rest, _ =>
    if b.index = height ∧ b.hash = hash ∧ calculateHashForBlock E b = hash ∧ verifyPowMeetsFloor E b = true
    then .found b
    else exactFetch height hash rest true

def fetchRelayBlockExact (height : ℕ) (hash : Hash) : NodeM ExactFetch := do
  let replies ← relayReplies height hash
  return exactFetch E height hash replies false

/-! ### The walk down from the beacon -/

/-- Where the walk stands: the bodies it holds by hash, the blocks it has passed (ascending),
and the hash and height it needs next. -/
structure WalkState where
  bodies : List Block
  canon : List Block
  expectedHash : Hash
  expectedHeight : ℕ

inductive WalkEnd where
  | ended (verdict : Ancestor) (bodies : List Block)
  | nextWindow (w : WalkState)
  | spinning

/-- `by_hash.entry(b.hash).or_insert(b)`. -/
def keepBody (bodies : List Block) (b : Block) : List Block :=
  if bodies.any fun c => c.hash = b.hash then bodies else bodies ++ [b]

/-- A gap deeper than a reorg reaches is final, a gap near the tip is not. -/
def gapVerdict (beacon : TipBeaconInfo) (needed : ℕ) : Ancestor :=
  if needed < beacon.height - checkpointReorgMargin then .needsBootstrap else .transient

/-- One window's worth of the walk. -/
def walkDown (beacon : TipBeaconInfo) (floor winBase : ℕ) : ℕ → WalkState → NodeM WalkEnd
  | 0, _ => return .spinning
  | fuel + 1, w => do
    let body ← match w.bodies.find? fun b => b.hash = w.expectedHash with
      | some b => pure (.found b)
      | none => fetchRelayBlockExact E w.expectedHeight w.expectedHash
    match body with
    | .transient => return .ended .transient w.bodies
    | .missing => return .ended (gapVerdict beacon w.expectedHeight) w.bodies
    | .found b =>
      let localHash ← readChain fun c => (c.getBlock b.index).map (·.hash)
      let bodies := keepBody w.bodies b
      if localHash = some b.hash then return .ended (.found b.index (b :: w.canon)) bodies
      else if b.index ≤ floor then return .ended .noneBelowFloor bodies
      else if b.index - 1 < winBase then
        return .nextWindow ⟨bodies, b :: w.canon, b.previousHash, b.index - 1⟩
      else walkDown beacon floor winBase fuel ⟨bodies, b :: w.canon, b.previousHash, b.index - 1⟩

/-- The bodies to walk a window with: it is fetched unless the next one needed is held. -/
def windowBodies (beacon : TipBeaconInfo) (winBase : ℕ) (w : WalkState) :
    NodeM (Except Ancestor (List Block)) :=
  if w.bodies.any fun b => b.hash = w.expectedHash then return .ok w.bodies
  else do
    match ← fetchRelayBlocks E winBase (winBase + walkWindow - 1) with
    | none => return .error .transient
    | some [] => return .error (gapVerdict beacon w.expectedHeight)
    | some blocks => return .ok (blocks.foldl keepBody w.bodies)

def walkWindows (fuel : ℕ) (beacon : TipBeaconInfo) (floor : ℕ) :
    ℕ → WalkState → NodeM (Option (Ancestor × List Block))
  | 0, w => return some (gapVerdict beacon w.expectedHeight, w.bodies)
  | rounds + 1, w => do
    let winBase := w.expectedHeight - w.expectedHeight % walkWindow
    match ← windowBodies E beacon winBase w with
    | .error verdict => return some (verdict, w.bodies)
    | .ok bodies =>
      match ← walkDown E beacon floor winBase fuel { w with bodies } with
      | .ended verdict bodies => return some (verdict, bodies)
      | .spinning => return none
      | .nextWindow w => walkWindows fuel beacon floor rounds w

def findCommonAncestor (fuel : ℕ) (beacon : TipBeaconInfo) (floor : ℕ) (bodies : List Block) :
    NodeM (Option (Ancestor × List Block)) :=
  walkWindows E fuel beacon floor ((beacon.height - floor) / walkWindow + 2)
    ⟨bodies, [], beacon.hash, beacon.height⟩

/-! ### Ingest of a forward block -/

/-- `save_receipt_verified_block` under one write guard, with the tip before and after. -/
def saveReceiptWithTips (b : Block) : NodeM (Res Unit × ℕ × ℕ) := do
  let now ← unixSecs
  onChain fun c =>
    let saved := saveReceiptVerifiedBlock E now c b
    (saved.1, saved.2, c.getLatestBlockIndex, saved.1.getLatestBlockIndex)

/-! ### The relay stream -/

/-- One relayed block: above the floor it needs full signatures, and the checkpoint trails it
if it moved the tip. Returns what it added to the tip, or `none` if it was not saved. -/
def ingestRelayed (b : Block) : NodeM (Option ℕ) := do
  let (floor, sigsOk) ← readChain fun c =>
    (c.verificationFloor, b.index ≤ c.verificationFloor || blockSignaturesFullyVerified E b)
  if !sigsOk then return none
  match ← saveReceiptWithTips E b with
  | (.error _, _, _) => return none
  | (.ok (), before, after) =>
    if before < after ∧ floor < b.index then advanceCheckpoint b.index
    return some (after - before)

def ingestAllRelayed : List Block → NodeM (ℕ × Bool)
  | [] => return (0, false)
  | b :: bs => do
    let saved ← ingestRelayed E b
    let (total, accepted) ← ingestAllRelayed bs
    return (saved.getD 0 + total, saved.isSome || accepted)

/-- By height; a block that another one builds on first; then by hash. -/
def lineageLe (blocks : List Block) (a b : Block) : Bool :=
  let witnessed := fun c : Block => blocks.any fun d => d.previousHash = c.hash
  ((compare a.index b.index).then <| (compare (witnessed b).toNat (witnessed a).toNat).then
    (compare a.hash b.hash)).isLE

/-- The rounds of the stream; `none` is an error. -/
def relaySyncRounds (currentHeight : ℕ) : ℕ → ℕ → ℕ × Bool → NodeM (Option (ℕ × Bool))
  | 0, _, total => return some total
  | rounds + 1, cursor, (saved, accepted) => do
    let start := cursor - cursor % relayBatchSize
    let stop := start + relayBatchSize - 1
    match ← fetchRelayBlocks E start stop with
    | none => return none
    | some [] =>
      if start ≤ currentHeight then relaySyncRounds currentHeight rounds (stop + 1) (saved, accepted)
      else return some (saved, accepted)
    | some blocks =>
      let before ← readChain (·.getLatestBlockIndex)
      let (more, took) ← ingestAllRelayed E
        (blocks.insertionSort fun a b => lineageLe blocks a b = true)
      let after ← readChain (·.getLatestBlockIndex)
      if after = before ∧ currentHeight < start then return some (saved + more, accepted || took)
      else
        relaySyncRounds currentHeight rounds (if stop < after then after + 1 else stop + 1)
          (saved + more, accepted || took)

/-- `sync_with_block_relay`: the blocks it added, `none` for an error. -/
def syncWithBlockRelay (cfg : RelaySyncConfig) (currentHeight : ℕ) : NodeM (Option ℕ) := do
  let cursor := if 0 < cfg.backfillDepth then currentHeight - cfg.backfillDepth else currentHeight + 1
  match ← relaySyncRounds E currentHeight cfg.maxRounds cursor (0, false) with
  | none => return none
  | some (saved, accepted) =>
    if 0 < saved then return some saved
    else if accepted then return some 0
    else return none

/-! ### The stall watchdog -/

/-- (new cycle count, escalate). -/
def convergeStallVerdict (lastTip tip gap cycles : ℕ) : ℕ × Bool :=
  if gap ≤ checkpointReorgMargin ∨ tip ≠ lastTip then (0, false)
  else (cycles + 1, convergeStallEscalateCalls ≤ cycles + 1)

/-- Count a call without progress, at most once an interval; escalate at the threshold. -/
def convergeStalled (beacon : TipBeaconInfo) (entryTip : ℕ) : NodeM Bool := do
  let lastTip ← onNode fun s => (s.convergeStallTip, { s with convergeStallTip := entryTip })
  let previous ← Proc.read fun s : NodeState => s.convergeStallCycles
  let cycles := (convergeStallVerdict lastTip entryTip (beacon.height - entryTip) previous).1
  if cycles = 0 then
    onNode fun s => ((), { s with convergeStallCycles := 0 })
    return false
  else
    let nowMs ← unixMillis
    let lastMs ← Proc.read fun s : NodeState => s.convergeStallLastMs
    let effective ←
      if nowMs < lastMs ∨ convergeStallMinIntervalMs ≤ nowMs - lastMs then
        onNode fun s => (cycles, { s with convergeStallLastMs := nowMs, convergeStallCycles := cycles })
      else Proc.read fun s : NodeState => s.convergeStallCycles
    return convergeStallEscalateCalls ≤ effective

/-! ### One round -/

/-- Append the walked blocks one by one. A block above the receipt-trust ceiling needs full
signatures; `none` if all were taken. The errors of the model are all verdicts on the block:
the source reports a storage error as a stale beacon. -/
def appendBlocks (floor ceiling : ℕ) : List Block → NodeM (Option Converge)
  | [] => return none
  | b :: bs => do
    let sigsOk ← readChain fun _ => b.index ≤ ceiling || blockSignaturesFullyVerified E b
    if !sigsOk then return some .branchInvalid
    match ← saveReceiptWithTips E b with
    | (.error _, _, _) => return some .branchInvalid
    | (.ok (), before, after) =>
      if before < after ∧ floor < b.index then advanceCheckpoint b.index
      appendBlocks floor ceiling bs

/-- Heights up to which a beacon vouches for receipts. -/
def receiptTrustCeiling (beacon : TipBeaconInfo) (floor : ℕ) : ℕ :=
  if beacon.verified then max floor (beacon.height - checkpointReorgMargin) else floor

/-- The local tip is an ancestor of the beacon. -/
def appendRound (cfg : RelaySyncConfig) (beacon : TipBeaconInfo) (tip : ℕ) (canon : List Block) :
    NodeM (Option Converge) := do
  if orphanReorgDepth < beacon.height - tip then return some .needsBootstrap
  let branch := canon.filter fun b => tip < b.index && b.index ≤ tip + convergeChunk
  if branch = [] then
    let _ ← syncWithBlockRelay E cfg tip
    return none
  else
    let floor ← readChain (·.verificationFloor)
    appendBlocks E floor (receiptTrustCeiling beacon floor) branch

/-- The local chain leaves the beacon's at `ancestor`. -/
def divergentRound (beacon : TipBeaconInfo) (tip ancestor : ℕ) (canon : List Block) :
    NodeM (Option Converge) := do
  let branch := canon.filter fun b => ancestor < b.index && b.index ≤ ancestor + convergeChunk
  if branch = [] then return some .beaconStale
  let wins ← readChain fun c => c.externalBranchWinsForkChoice branch ancestor tip
  if !wins then return some .atTipAhead
  let checkpoint ← readChain (·.trustedCheckpointHeight)
  if ancestor + 1 ≤ checkpoint then return some .needsBootstrap
  if checkpointReorgMargin < tip - ancestor then return some .needsBootstrap
  if orphanReorgDepth < beacon.height - ancestor then return some .needsBootstrap
  let now ← unixSecs
  match ← onChain fun c => adoptExternalBranch E now c branch with
  | .error _ => return some .branchInvalid
  | .ok false => return some .atTipAhead
  | .ok true => return none

inductive Round where
  | verdict (v : Converge)
  | again (bodies : List Block)
  | stop
  | spinning

def atBeacon (beacon : TipBeaconInfo) (c : ChainState) : Bool :=
  (c.getBlock beacon.height).any fun b => b.hash = beacon.hash

def convergeRound (cfg : RelaySyncConfig) (fuel : ℕ) (beacon : TipBeaconInfo) (bodies : List Block) :
    NodeM Round := do
  let (tip, synced) ← readChain fun c => (c.getLatestBlockIndex, atBeacon beacon c)
  if synced then return .verdict .converged
  let floor ← readChain (·.verificationFloor)
  match ← findCommonAncestor E fuel beacon floor bodies with
  | none => return .spinning
  | some (.noneBelowFloor, _) => return .verdict .needsBootstrap
  | some (.needsBootstrap, _) => return .verdict .needsBootstrap
  | some (.transient, _) => return .verdict .beaconStale
  | some (.found ancestor canon, bodies) =>
    let early ← if tip ≤ ancestor then appendRound E cfg beacon tip canon
      else divergentRound E beacon tip ancestor canon
    match early with
    | some v => return .verdict v
    | none =>
      let after ← readChain (·.getLatestBlockIndex)
      if after = tip then return .stop else return .again bodies

/-! ### The whole call -/

/-- The verdict after the last round. -/
def convergeOutcome (beacon : TipBeaconInfo) (entryTip : ℕ) : NodeM (Option Converge) := do
  let (synced, finalTip) ← readChain fun c => (atBeacon beacon c, c.getLatestBlockIndex)
  if synced then return some .converged
  else if entryTip < finalTip then return some .progressed
  else return some .beaconStale

def convergeRounds (cfg : RelaySyncConfig) (fuel : ℕ) (beacon : TipBeaconInfo) (entryTip : ℕ) :
    ℕ → List Block → NodeM (Option Converge)
  | 0, _ => convergeOutcome beacon entryTip
  | rounds + 1, bodies => do
    match ← convergeRound E cfg fuel beacon bodies with
    | .verdict v => return some v
    | .spinning => return none
    | .stop => convergeOutcome beacon entryTip
    | .again bodies => convergeRounds cfg fuel beacon entryTip rounds bodies

/-- `converge_to_canonical`; `none` if the walk ran out of fuel. -/
def convergeToCanonical (cfg : RelaySyncConfig) (fuel : ℕ) (beacon : TipBeaconInfo) :
    NodeM (Option Converge) := do
  let entryTip ← readChain (·.getLatestBlockIndex)
  if ← convergeStalled beacon entryTip then return some .needsBootstrap
  convergeRounds E cfg fuel beacon entryTip convergeMaxRounds []

end Alphanumeric
