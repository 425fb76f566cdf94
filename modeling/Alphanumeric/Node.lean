/-
# The node around the engine

What a node adds to the chain engine: the relay, peers and clocks it asks, the caches it
keeps, and the verification of peer blocks against resolved witnesses. Each function is a
task (`Lib.Proc`): its accesses to the shared state are atomic, and everything that comes
from outside is an answer of the environment.

Left out, because no verdict reads it: telemetry (BPoS, header records, relay marks), the
batching of durable writes, and how a peer is dialled and chosen.

Key definitions: `Query`, `NodeState`, `validationCacheKey`, `resolveFullTxForBlock`,
`verifyBlockWithWitness`, `acceptPeerBlock`.
-/
import Alphanumeric.BestBranch
import Alphanumeric.Lib.Proc

namespace Alphanumeric

open Guard BlockchainError ChainState

def validationCacheTtlSecs : ℕ := 3600
def validationCacheMaxEntries : ℕ := 50000
def validationCacheTrimTarget : ℕ := validationCacheMaxEntries * 9 / 10

/-- A tip beacon; `verified` is the verdict on its publisher signature. -/
structure TipBeaconInfo where
  height : ℕ
  hash : Hash
  verified : Bool
deriving DecidableEq, Repr

/-- What one base answers to an exact block request. -/
inductive ExactReply where
  | unreachable
  | negative
  | served (b : Block)

/-! ### The outside -/

inductive Query where
  | unixSecs
  | unixMillis
  | relayPages (start stop : ℕ)
  | relayBlock (height : ℕ) (hash : Hash)
  | peerBlocks (start stop : ℕ)
  | txWitness (txId : Text)
  | sliceExpired
  | witnessDeadline
  | fetchSlot
  | validationPermit

/-- `relayPages` is `none` if no base answered; `peerBlocks` if the peer did not. -/
def Answer : Query → Type
  | .unixSecs => ℕ
  | .unixMillis => ℕ
  | .relayPages _ _ => Option (List Block)
  | .relayBlock _ _ => List ExactReply
  | .peerBlocks _ _ => Option (List Block)
  | .txWitness _ => Option Transaction
  | .sliceExpired => Bool
  | .witnessDeadline => Bool
  | .fetchSlot => Bool
  | .validationPermit => Bool

/-! ### The node's own state -/

structure ValidationCacheEntry where
  valid : Bool
  timestamp : ℕ
deriving DecidableEq, Repr

/-- The key of a block verdict: the claimed hash and a digest of the bodies. The `b:` tag
keeps it apart from transaction keys in the same map. -/
structure ValidationKey where
  hash : Hash
  bodies : Text
deriving DecidableEq, Repr

structure NodeState where
  chain : ChainState
  /-- Pending transactions by id, with their full witnesses. -/
  mempool : Text → Option Transaction
  /-- `tx_witness_cache`. -/
  witnessCache : Text → Option Transaction
  validationCache : List (ValidationKey × ValidationCacheEntry)
  convergeStallTip : ℕ
  convergeStallCycles : ℕ
  convergeStallLastMs : ℕ
  fullSyncInFlight : Bool

/-- A task of the node. -/
abbrev NodeM : Type → Type := Proc NodeState Query Answer

/-- An operation of the chain engine, under its lock. -/
def onChain {α : Type} (op : ChainState → ChainState × α) : NodeM α :=
  Proc.act fun s => ((op s.chain).2, { s with chain := (op s.chain).1 })

def readChain {α : Type} (g : ChainState → α) : NodeM α := Proc.read fun s => g s.chain

/-- An operation that does not touch the chain. -/
def onNode {α : Type} (op : NodeState → α × NodeState) : NodeM α :=
  Proc.act fun s => ((op s).1, { (op s).2 with chain := s.chain })

def unixSecs : NodeM ℕ := Proc.query Query.unixSecs
def unixMillis : NodeM ℕ := Proc.query Query.unixMillis
def relayPages (start stop : ℕ) : NodeM (Option (List Block)) := Proc.query (Query.relayPages start stop)
def relayReplies (height : ℕ) (hash : Hash) : NodeM (List ExactReply) := Proc.query (Query.relayBlock height hash)
def peerBlocks (start stop : ℕ) : NodeM (Option (List Block)) := Proc.query (Query.peerBlocks start stop)
def requestTxWitness (txId : Text) : NodeM (Option Transaction) := Proc.query (Query.txWitness txId)
def sliceExpired : NodeM Bool := Proc.query Query.sliceExpired
def witnessDeadlinePassed : NodeM Bool := Proc.query Query.witnessDeadline
def acquireFetchSlot : NodeM Bool := Proc.query Query.fetchSlot
def acquireValidationPermit : NodeM Bool := Proc.query Query.validationPermit

variable (E : Env)

/-- `save_receipt_verified_block` behind the write lock. -/
def saveReceipt (b : Block) : NodeM (Res Unit) := do
  let now ← unixSecs
  onChain fun c => saveReceiptVerifiedBlock E now c b

def advanceCheckpoint (height : ℕ) : NodeM Unit :=
  onChain fun c => (c.advanceCheckpointBehind height, ())

/-! ### The verdict cache -/

def textBytes (t : Text) : List UInt8 := t.flatMap String.utf8EncodeChar

/-- A field of the key: its length, then its bytes. An absent field is written as the
empty text. -/
def keyField (field : Option Text) : List UInt8 :=
  toLeBytes 8 (textBytes (field.getD [])).length ++ textBytes (field.getD [])

/-- `i128::to_le_bytes`. -/
def unitBytes (n : ℤ) : List UInt8 := toLeBytes 16 (n % 2 ^ 128).toNat

def keyTransaction (tx : Transaction) : List UInt8 :=
  unitBytes tx.feeUnits ++ unitBytes tx.amountUnits ++ toLeBytes 8 tx.timestamp ++
    keyField (some tx.sender) ++ keyField (some tx.recipient) ++ keyField tx.signature ++
    keyField tx.pubKey ++ keyField tx.sigHash

def keyBodies (b : Block) : List UInt8 := b.transactions.flatMap keyTransaction

def validationCacheKey (b : Block) : ValidationKey :=
  ⟨b.hash, (hexEncode (Hash.bytes (E.blake3 (keyBodies b)))).take 32⟩

/-- A clock that ran backwards makes an entry stale. -/
def isValidationCacheEntryFresh (entry : ValidationCacheEntry) (now : ℕ) : Bool :=
  entry.timestamp ≤ now && now - entry.timestamp < validationCacheTtlSecs

def insertVerdict (key : ValidationKey) (entry : ValidationCacheEntry)
    (cache : List (ValidationKey × ValidationCacheEntry)) : List (ValidationKey × ValidationCacheEntry) :=
  (key, entry) :: cache.filter fun e => e.1 ≠ key

/-- Drop what has expired; above the ceiling, also the oldest down to the trim target. -/
def pruneValidationCacheEntries (now : ℕ) (cache : List (ValidationKey × ValidationCacheEntry)) :
    List (ValidationKey × ValidationCacheEntry) :=
  let live := cache.filter fun e => isValidationCacheEntryFresh e.2 now
  if live.length ≤ validationCacheMaxEntries then live
  else
    (live.insertionSort fun a b => a.2.timestamp ≤ b.2.timestamp).drop
      (live.length - validationCacheTrimTarget)

def maybePruneValidationCache (now : ℕ) (cache : List (ValidationKey × ValidationCacheEntry)) :
    List (ValidationKey × ValidationCacheEntry) :=
  if validationCacheMaxEntries < cache.length then pruneValidationCacheEntries now cache else cache

/-! ### Witnesses -/

def isSignatureTruncated (sigHex : Text) : Bool :=
  match hexDecode sigHex with
  | some bytes => bytes.length ≤ 64
  | none => true

def witnessMatchesCommittedReceipt (receipt candidate : Transaction) : Bool :=
  getTxId E candidate == getTxId E receipt &&
    receipt.pubKey.all (fun expected => candidate.pubKey == some expected) &&
    receipt.sigHash.all (fun expected => candidate.sigHash == some expected)

/-- A witness's claimed signature hash must be its signature's; an absent one is filled in. -/
def bindWitnessSigHashToSignature (fullTx : Transaction) : Option Transaction :=
  match fullTx.signature with
  | none => some fullTx
  | some sigHex =>
    match hexDecode sigHex with
    | none => none
    | some bytes =>
      if fullTx.sigHash.all (· == signatureHashHex E bytes) then
        some { fullTx with sigHash := some (signatureHashHex E bytes) }
      else none

/-- The checks on a resolved witness, before its signature is verified. -/
def checkWitness (tx fullTx : Transaction) : Option Transaction := do
  guard (getTxId E fullTx = getTxId E tx)
  guard (tx.pubKey.isSome → fullTx.pubKey.isSome → tx.pubKey = fullTx.pubKey)
  let bound ← bindWitnessSigHashToSignature E { fullTx with pubKey := fullTx.pubKey.or tx.pubKey }
  guard (tx.sigHash.all (fun expected => bound.sigHash == some expected) = true)
  some bound

/-- `cache_verified_compact_transaction`, the witness half. -/
def cacheVerifiedTransaction (tx : Transaction) (cache : Text → Option Transaction) :
    Text → Option Transaction :=
  match tx.sigBytes with
  | none => cache
  | some bytes =>
    if tx.isSystem || bytes.length ≤ 64 || tx.sigHash != some (signatureHashHex E bytes) then cache
    else fun id => if id = getTxId E tx then some tx else cache id

/-- The witness cache, the block's own signature, the mempool, then the peer. Returns what
is left of the fetch budget. -/
def resolveFullTxForBlock (tx : Transaction) (peer : Bool) (budget : ℕ) :
    NodeM (Option Transaction × ℕ) := do
  let txId := getTxId E tx
  let cached ← onNode fun s =>
    match s.witnessCache txId with
    | none => (none, s)
    | some c =>
      if witnessMatchesCommittedReceipt E tx c then (some c, s)
      else if getTxId E c ≠ txId then
        (none, { s with witnessCache := fun id => if id = txId then none else s.witnessCache id })
      else (none, s)
  if cached.isSome then return (cached, budget)
  if tx.signature.any (fun sigHex => !isSignatureTruncated sigHex) then return (some tx, budget)
  let pending ← Proc.read fun s : NodeState => s.mempool txId
  let usable := pending.filter fun c =>
    c.signature.any (fun sigHex => !isSignatureTruncated sigHex) && witnessMatchesCommittedReceipt E tx c
  if usable.isSome then return (usable, budget)
  if !peer then return (none, budget)
  if ← witnessDeadlinePassed then return (none, budget)
  if budget = 0 then return (none, budget)
  if !(← acquireFetchSlot) then return (none, budget - 1)
  let served ← requestTxWitness txId
  return (served, budget - 1)

/-- Phase 1: a checked witness for every regular transaction, or `none`. -/
def resolveWitnesses (peer : Bool) : ℕ → List Transaction → List Transaction →
    NodeM (Option (List Transaction))
  | _, [], resolved => return some resolved
  | budget, tx :: txs, resolved => do
    if ← witnessDeadlinePassed then return none
    if tx.isSystem then resolveWitnesses peer budget txs resolved
    else
      let (found, budget) ← resolveFullTxForBlock E tx peer budget
      match found.bind (checkWitness E tx) with
      | none => return none
      | some fullTx => resolveWitnesses peer budget txs (resolved ++ [fullTx])

/-! ### Verification of a peer block -/

/-- The cheap checks: the claimed hash, the proof-of-work floor, the transaction count. -/
def cheapRejects (b : Block) : Bool :=
  calculateHashForBlock E b ≠ b.hash || !verifyPowMeetsFloor E b ||
    maxBlockTxCount < b.transactions.length

/-- The verdict of the ledger: valid, or a block to park whose Merkle root is right. -/
def ledgerVerdict (now : ℕ) (c : ChainState) (b : Block) : Bool :=
  match validateBlock E now c b with
  | .ok () => true
  | .error _ =>
    let parentKnown := b.index = 0 ∨ (c.getBlock (b.index - 1)).any fun p => p.hash = b.previousHash
    (¬ parentKnown ∨ c.getLatestBlockIndex + 1 < b.index) && calculateMerkleRoot E b.transactions == b.merkleRoot

/-- The lookup: a fresh entry answers, a stale one is removed. -/
def cachedVerdict (key : ValidationKey) : NodeM (Option Bool) := do
  match ← Proc.read fun s : NodeState => s.validationCache.lookup key with
  | none => return none
  | some entry =>
    let now ← unixSecs
    if isValidationCacheEntryFresh entry now then return some entry.valid
    else
      onNode fun s => (none, { s with validationCache := s.validationCache.filter fun e => e.1 ≠ key })

/-- Witnesses, signatures, then the verdict of the ledger, which is recorded. -/
def uncachedVerdict (b : Block) (peer : Bool) : NodeM Bool := do
  let budget := if peer then (b.transactions.filter fun tx => !tx.isSystem).length else 0
  match ← resolveWitnesses E peer budget b.transactions [] with
  | none => return false
  | some resolved =>
    if !(← acquireValidationPermit) then return false
    if !(resolved.all fun tx => (verifyTransactionSignature E tx).isOk) then return false
    onNode fun s => ((), { s with
      witnessCache := resolved.foldl (fun cache tx => cacheVerifiedTransaction E tx cache) s.witnessCache })
    let now ← unixSecs
    let verdict ← readChain fun c => ledgerVerdict E now c b
    let stamp ← unixSecs
    onNode fun s => ((), { s with
      validationCache := insertVerdict (validationCacheKey E b) ⟨verdict, stamp⟩ s.validationCache })
    let later ← unixSecs
    onNode fun s => ((), { s with validationCache := maybePruneValidationCache later s.validationCache })
    return verdict

/-- `verify_block_with_witness`; `peer` says whether a peer may be asked for witnesses. -/
def verifyBlockWithWitness (b : Block) (peer : Bool) : NodeM Bool := do
  if cheapRejects E b then return false
  match ← cachedVerdict (validationCacheKey E b) with
  | some verdict => return verdict
  | none => uncachedVerdict E b peer

/-- `accept_peer_block`: the outcome, and nothing more of the error. -/
def acceptPeerBlock (b : Block) (peer : Bool) : NodeM Bool := do
  if ← verifyBlockWithWitness E b peer then
    return (← saveReceipt E b).isOk
  else return false

end Alphanumeric
