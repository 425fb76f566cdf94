/-
# Compact blocks

A block of two transactions or more travels without them (`src/a9/node.rs`): the announcement has
the header, the coinbase and the Merkle leaves of the other transactions. A receiver puts the
block together from the witnesses it has verified, from bodies an earlier attempt left, and
from the answers of the peers that announced the block, each asked once and only while
asking is cheaper than the whole block.

The announcement tells how large the block and the transactions are. Each transaction counts
with an envelope of its own, the block has one for all, and a receiver refuses an announcement
whose transactions are larger than its block: a block of many transactions is never taken.

The encoding is MessagePack as `rmp_serde` writes it. What the node's caches hold when a leaf is
looked up, which peers are left to ask, whether time is out, and what they answer are
parameters of an attempt.

Key definitions: `fromBlock`, `validateCommitment`, `reconstruct`, `applyCompactBodyV2`,
`requestCompactTransactionBatchV2`, `serveCompactTransactionsV2`, `reconstructCompactBlockV2`.
Key theorems: `fromBlock_eq_ok`, `Announces.validateCommitment_iff`, `announcement_round_trip`.
-/
import Alphanumeric.CompactCaches
import Alphanumeric.TransactionBatches
import Alphanumeric.StorageForm
import Alphanumeric.MerkleBinding
import Alphanumeric.Lib.Slots
import Mathlib

namespace Alphanumeric

namespace CompactBlocks

open Guard TxRelay

def compactTxBatchMax : ℕ := 64
def compactResponseMaxBytes : ℕ := 1024 * 1024
def compactV2BodyEnvelopeAllowance : ℕ := 2048
def compactMinSavingsBytes : ℕ := 1024
def compactMinSavingsPercent : ℕ := 5
def outboundAeadOverhead : ℕ := 12 + 16

/-! ### Encodings -/

/-- `serialize_bytes`. -/
def packBin (s : Bytes) : Bytes :=
  (if s.length < 2 ^ 8 then 0xc4 :: toBeBytes 1 s.length
  else if s.length < 2 ^ 16 then 0xc5 :: toBeBytes 2 s.length
  else 0xc6 :: toBeBytes 4 s.length) ++ s

def packToken (token : RelayToken) : Bytes := packBin (toBeBytes 16 token.val)

structure IndexedCompactTransactionV2 where
  index : ℕ
  transaction : Transaction
deriving DecidableEq

section Encodings

variable (x : Wire)

/-- What stands before the transactions of a block, and after them. -/
def packBlockHead (b : Block) : Bytes :=
  packArrayLen 8 ++ packUint b.index ++ packKey b.previousHash ++ packUint b.timestamp ++
    packArrayLen b.transactions.length

def packBlockTail (b : Block) : Bytes :=
  packUint b.nonce ++ packUint b.difficulty ++ packKey b.hash ++ packKey b.merkleRoot

def packBlock (b : Block) : Bytes :=
  packBlockHead b ++ (b.transactions.map (packTransaction x)).flatten ++ packBlockTail b

def packAnnouncement (a : CompactBlockAnnouncementV2) : Bytes :=
  packArrayLen 12 ++ packUint a.index ++ packKey a.previousHash ++ packUint a.timestamp ++ packUint a.nonce ++
    packUint a.difficulty ++ packKey a.hash ++ packKey a.merkleRoot ++ packTransaction x a.coinbase ++
    packBin (a.transactionHashes.map Hash.bytes).flatten ++ packUint a.fullBlockBytes ++
    packUint a.userTransactionBytes ++ packToken a.relayToken

def packItem (item : IndexedCompactTransactionV2) : Bytes :=
  packArrayLen 2 ++ packUint item.index ++ packTransaction x item.transaction

/-- `NetworkMessage::CompactTransactionsV2`. -/
def packCompactTransactionsV2 (blockHash : Hash) (relayToken : RelayToken)
    (transactions : List IndexedCompactTransactionV2) : Bytes :=
  packMapLen 1 ++ packStr (utf8 "CompactTransactionsV2".toList) ++ packArrayLen 3 ++ packKey blockHash ++
    packToken relayToken ++ (packArrayLen transactions.length ++ (transactions.map (packItem x)).flatten)

/-- The length of a transaction in the codec. -/
def compactTransactionEncodedBytes (tx : Transaction) : ℕ := (codecSerialize (packTransaction x tx)).length

/-- The cost of a message is its length when it is encrypted. -/
def responseBytes (blockHash : Hash) (relayToken : RelayToken) (transactions : List IndexedCompactTransactionV2) : ℕ :=
  (codecSerialize (packCompactTransactionsV2 x blockHash relayToken transactions)).length + outboundAeadOverhead

/-- The codec of the node's caches. -/
def codec (E : Env) : CompactCodec :=
  { env := E
    transaction := fun tx => some (compactTransactionEncodedBytes x tx)
    announcement := fun a => some (codecSerialize (packAnnouncement x a)).length }

end Encodings

/-! ### The source's functions -/

/-- The errors of the functions below, by what they say. -/
inductive CompactFault where
  | coinbaseOnly
  | notTransportEligible
  | noCoinbase
  | coinbaseTooLarge
  | tooManyHashes
  | fullBlockSizeExceedsU32
  | transactionSizeExceedsU32
  | announcementTooLarge
  | countOrCoinbaseMismatch
  | commitmentMismatch
  | headerMismatch
  | bodyTooLarge
  | assemblyTooLarge
deriving DecidableEq, Repr

section Functions

variable (E : Env) (x : Wire)

def hasFullBoundWitness (tx : Transaction) : Bool := compactTransactionHasFullBoundWitness (codec x E) tx

/-- `calculate_hash_for_block` and the leaves are of the environment's hashes. -/
def transactionHashAt (a : CompactBlockAnnouncementV2) (index : ℕ) : Option Hash :=
  a.transactionHashAt (codec x E) index

def compactBlockTransportOkAt (b : Block) (activationHeight : ℕ) : Bool :=
  if b.transactions = [] ∨ maxBlockTxCount < b.transactions.length ∨
      b.transactions.head?.map (·.sender) ≠ some miningRewards ∨
      (b.transactions.drop 1).all (hasFullBoundWitness E x) = false then false
  else if compactSafeAssembledBytes < (codecSerialize (packBlock x b)).length then false
  else b.index < activationHeight || fullWitnessWeight b ≤ maxBlockWeightBytes

def compactBlockTransportOk (b : Block) : Bool := compactBlockTransportOkAt E x b feeSystemActivationHeight

def coinbaseTransportSizeOk (coinbase : Transaction) : Bool :=
  compactTransactionEncodedBytes x coinbase ≤ compactCoinbaseMaxEncodedBytes

/-- `PackedTransactionHashes::new`. -/
def packHashes (hashes : List Hash) : Except CompactFault (List Hash) :=
  if maxBlockTxCount - 1 < hashes.length then .error .tooManyHashes else .ok hashes

def fromBlock (b : Block) (relayToken : RelayToken) : Except CompactFault CompactBlockAnnouncementV2 := do
  ensure (1 < b.transactions.length) .coinbaseOnly
  ensure (compactBlockTransportOk E x b = true) .notTransportEligible
  let coinbase ← need (b.transactions.head?.filter fun tx => tx.sender == miningRewards) .noCoinbase
  ensure (coinbaseTransportSizeOk x coinbase = true) .coinbaseTooLarge
  let transactionHashes ← packHashes ((b.transactions.drop 1).map (calculateMerkleLeafHash E))
  let fullBlockBytes := (codecSerialize (packBlock x b)).length
  let userTransactionBytes := ((b.transactions.drop 1).map (compactTransactionEncodedBytes x)).sum
  ensure (fullBlockBytes < 2 ^ 32) .fullBlockSizeExceedsU32
  ensure (userTransactionBytes < 2 ^ 32) .transactionSizeExceedsU32
  let announcement : CompactBlockAnnouncementV2 :=
    { index := b.index
      previousHash := b.previousHash
      timestamp := b.timestamp
      nonce := b.nonce
      difficulty := b.difficulty
      hash := b.hash
      merkleRoot := b.merkleRoot
      coinbase
      transactionHashes
      fullBlockBytes
      userTransactionBytes
      relayToken }
  ensure ((codecSerialize (packAnnouncement x announcement)).length ≤ compactAnnouncementMaxBytes) .announcementTooLarge
  .ok announcement

def transactionCount (a : CompactBlockAnnouncementV2) : ℕ := a.transactionHashes.length + 1

def headerBlock (a : CompactBlockAnnouncementV2) (transactions : List Transaction) : Block :=
  { index := a.index
    previousHash := a.previousHash
    timestamp := a.timestamp
    transactions
    nonce := a.nonce
    difficulty := a.difficulty
    hash := a.hash
    merkleRoot := a.merkleRoot }

def orderedLeafHashes (a : CompactBlockAnnouncementV2) : List Hash :=
  calculateMerkleLeafHash E a.coinbase :: a.transactionHashes

def validateCommitment (now : ℕ) (a : CompactBlockAnnouncementV2) : Bool :=
  let coinbaseBytes := compactTransactionEncodedBytes x a.coinbase
  if a.coinbase.sender ≠ miningRewards ∨ a.transactionHashes = [] ∨ maxBlockTxCount < transactionCount a ∨
      coinbaseTransportSizeOk x a.coinbase = false ∨ a.fullBlockBytes ≤ coinbaseBytes ∨
      compactSafeAssembledBytes < a.fullBlockBytes ∨ a.fullBlockBytes < a.userTransactionBytes ∨
      (a.transactionHashes ≠ [] ∧ a.userTransactionBytes = 0) then false
  else if calculateMerkleRootFromLeafHashes E (orderedLeafHashes E a) ≠ a.merkleRoot then false
  else decide (validateHeader E now (headerBlock a []) = .ok ()) && verifyPowMeetsFloor E (headerBlock a [])

def reconstruct (a : CompactBlockAnnouncementV2) (transactions : List Transaction) : Except CompactFault Block := do
  ensure (transactions.length = transactionCount a ∧ transactions.head? = some a.coinbase) .countOrCoinbaseMismatch
  ensure (∀ pair ∈ transactions.zip (orderedLeafHashes E a), calculateMerkleLeafHash E pair.1 = pair.2)
    .commitmentMismatch
  let b := headerBlock a transactions
  ensure (calculateHashForBlock E b = b.hash) .headerMismatch
  .ok b

def missingCompactIndexes (s : Slots Transaction) : List ℕ := s.missing

/-- What is assembled after the item, and whether the item was taken. -/
def applyCompactBodyV2 (a : CompactBlockAnnouncementV2) (s : Slots Transaction) (item : IndexedCompactTransactionV2) :
    Except CompactFault (Slots Transaction × Bool) :=
  if item.index = 0 ∨ s.held[item.index]? ≠ some none then .ok (s, false)
  else if hasFullBoundWitness E x item.transaction = false then .ok (s, false)
  else
    let encodedBytes := compactTransactionEncodedBytes x item.transaction
    if compactTransactionMaxEncodedBytes < encodedBytes then .error .bodyTooLarge
    else if transactionHashAt E x a item.index ≠ some (calculateMerkleLeafHash E item.transaction) then .ok (s, false)
    else if compactSafeAssembledBytes < s.bytes + encodedBytes then .error .assemblyTooLarge
    else .ok (s.fill (compactTransactionEncodedBytes x) item.index item.transaction, true)

/-- Items in turn: what is assembled, and whether one was taken. -/
def applyBodies (a : CompactBlockAnnouncementV2) :
    List IndexedCompactTransactionV2 → Slots Transaction → Except CompactFault (Slots Transaction × Bool)
  | [], s => .ok (s, false)
  | item :: items, s => do
    let (s, taken) ← applyCompactBodyV2 E x a s item
    let (s, more) ← applyBodies a items s
    .ok (s, taken || more)

/-- What the transactions in the slots other than the coinbase's add up to. -/
def knownUserBytes (s : Slots Transaction) : ℕ :=
  ((s.held.drop 1).map (Slots.slotSize (compactTransactionEncodedBytes x))).sum

def compactV2BodyRequestIsEfficient (a : CompactBlockAnnouncementV2) (s : Slots Transaction) : Bool :=
  let missing := missingCompactIndexes s
  if missing = [] then true
  else if compactTxBatchMax < missing.length ∨ 0 ∈ missing then false
  else if a.userTransactionBytes < knownUserBytes x s then false
  else
    let estimatedResponse :=
      a.userTransactionBytes - knownUserBytes x s + compactV2BodyEnvelopeAllowance + missing.length * 8
    if compactResponseMaxBytes < estimatedResponse then false
    else
      let savings := a.fullBlockBytes - estimatedResponse
      compactMinSavingsBytes ≤ savings && a.fullBlockBytes * compactMinSavingsPercent ≤ savings * 100

/-! ### Asking and answering -/

/-- The two caches behind a lookup: the id of the transaction of a leaf, and the verified transaction of an id. -/
structure WitnessCaches where
  compactTxIndex : List (Hash × Text)
  txWitnessCache : List (Text × Transaction)

/-- The transaction of a leaf. An entry of the index that leads to another leaf, or nowhere, is dropped. -/
def lookupVerifiedCompactTransaction (caches : WitnessCaches) (leaf : Hash) : Option Transaction :=
  match Lru.peek caches.compactTxIndex leaf with
  | none => none
  | some txId =>
    match Lru.peek caches.txWitnessCache txId with
    | none => none
    | some tx => if calculateMerkleLeafHash E tx = leaf then some tx else none

/-- A peer's answer to a request for bodies: the transactions of a `CompactTransactionsV2` for the block and the token
of the request, or none. -/
abbrev Answer : Type := List ℕ → Option (List IndexedCompactTransactionV2)

/-- A response is taken as a whole: every item was asked for, comes once, has its witness and its leaf. -/
def responseValid (a : CompactBlockAnnouncementV2) (indexes : List ℕ)
    (transactions : List IndexedCompactTransactionV2) : Prop :=
  responseBytes x a.hash a.relayToken transactions ≤ compactResponseMaxBytes ∧
    (transactions.map (·.index)).Nodup ∧
    ∀ item ∈ transactions, item.index ∈ indexes ∧ hasFullBoundWitness E x item.transaction = true ∧
      compactTransactionEncodedBytes x item.transaction ≤ compactTransactionMaxEncodedBytes ∧
      transactionHashAt E x a item.index = some (calculateMerkleLeafHash E item.transaction)

instance (a : CompactBlockAnnouncementV2) (indexes : List ℕ) (transactions : List IndexedCompactTransactionV2) :
    Decidable (responseValid E x a indexes transactions) := inferInstanceAs (Decidable (_ ∧ _ ∧ _))

def requestCompactTransactionBatchV2 (a : CompactBlockAnnouncementV2) (indexes : List ℕ) (answer : Answer) :
    Option (List IndexedCompactTransactionV2) :=
  if indexes = [] ∨ compactTxBatchMax < indexes.length then none
  else if ¬ indexes.Nodup ∨ ∃ index ∈ indexes, index = 0 ∨ transactionCount a ≤ index then none
  else
    match answer indexes with
    | none => none
    | some transactions => if responseValid E x a indexes transactions then some transactions else none

/-- The items of a verified full block, or of the caches for a block that is only announced. -/
def verifiedCompactTransactionsV2 (full : Option Block) (pending : Option CompactBlockAnnouncementV2)
    (caches : WitnessCaches) (indexes : List ℕ) : List IndexedCompactTransactionV2 :=
  match full with
  | some b => indexes.filterMap fun index => b.transactions[index]?.map (⟨index, ·⟩)
  | none =>
    match pending with
    | none => []
    | some a =>
      indexes.filterMap fun index =>
        ((transactionHashAt E x a index).bind (lookupVerifiedCompactTransaction E caches)).map (⟨index, ·⟩)

/-- `retain` with the running estimate. -/
def retainWithin (estimated : ℕ) : List IndexedCompactTransactionV2 → List IndexedCompactTransactionV2
  | [] => []
  | item :: found =>
    let next := estimated + (codecSerialize (packItem x item)).length
    if compactResponseMaxBytes < next then retainWithin estimated found else item :: retainWithin next found

/-- The last loop: items are popped, the latest first, while the message is too long. -/
def popWhileTooLong (blockHash : Hash) (relayToken : RelayToken) :
    List IndexedCompactTransactionV2 → List IndexedCompactTransactionV2
  | [] => []
  | latest :: found =>
    if responseBytes x blockHash relayToken (latest :: found).reverse ≤ compactResponseMaxBytes then
      (latest :: found).reverse
    else popWhileTooLong blockHash relayToken found

/-- A peer that is asked: the block if it has it in full and the announcement if it has that, the witness caches,
how many checks of the rate limit the requester still passes, and the books of what was announced to whom. -/
structure BodyServer where
  full : Option Block
  pending : Option CompactBlockAnnouncementV2
  caches : WitnessCaches
  rateAllowance : ℕ
  relay : CompactRelay

/-- What `admit_compact_body_request` returns. -/
def authorisesBodies (relay : CompactRelay) (ticket : Ticket) : Bool :=
  ((relay.entryAt ticket.block ticket.peer).bind (consumeCompactBodyAuthorization relay.now ticket.token)).isSome

def serveCompactTransactionsV2 (server : BodyServer) (requester : PeerAddr) (blockHash : Hash)
    (relayToken : RelayToken) (indexes : List ℕ) : BodyServer × Option (List IndexedCompactTransactionV2) :=
  if indexes = [] ∨ compactTxBatchMax < indexes.length then (server, none)
  else if ¬ indexes.Nodup ∨ ∃ index ∈ indexes, index = 0 ∨ maxBlockTxCount ≤ index then (server, none)
  else
    let rateCost := 1 + (indexes.length + 15) / 16
    let limited := { server with rateAllowance := server.rateAllowance - rateCost }
    if server.rateAllowance < rateCost then (limited, none)
    else
      let ticket : Ticket := ⟨blockHash, requester, relayToken⟩
      let admitted := { limited with relay := limited.relay.admitCompactBodyRequest ticket }
      if authorisesBodies server.relay ticket = false then (admitted, none)
      else
        let found := (verifiedCompactTransactionsV2 E x server.full server.pending server.caches indexes).mergeSort
          fun i j => i.index ≤ j.index
        let found := found.filter fun item =>
          compactTransactionEncodedBytes x item.transaction ≤ compactTransactionMaxEncodedBytes
        (admitted,
          some (popWhileTooLong x blockHash relayToken (retainWithin x compactV2BodyEnvelopeAllowance found).reverse))

/-! ### Putting a block together -/

/-- One turn of the loop: the peers that can be asked, whether time is out, and how each would answer. -/
structure Turn where
  sources : List PeerAddr
  late : Bool
  answer : PeerAddr → Answer

/-- What an attempt meets: the witness caches as they are when each leaf is looked up, the bodies an earlier
attempt left, and the turns of the loop. -/
structure Supply where
  caches : ℕ → WitnessCaches
  pending : List IndexedCompactTransactionV2
  turns : List Turn

/-- `asked` are the peers that a request was sent to. -/
structure Collected where
  slots : Slots Transaction
  attempted : List PeerAddr
  asked : List PeerAddr
  witnessSource : PeerAddr

def localBodies (a : CompactBlockAnnouncementV2) (caches : ℕ → WitnessCaches) : List IndexedCompactTransactionV2 :=
  a.transactionHashes.zipIdx.filterMap fun (leaf, offset) =>
    (lookupVerifiedCompactTransaction E (caches offset) leaf).map (⟨offset + 1, ·⟩)

/-- The loop; it ends with the turns when time is out. -/
def collectBodies (a : CompactBlockAnnouncementV2) : List Turn → Collected → Except CompactFault Collected
  | [], c => .ok c
  | turn :: turns, c =>
    if missingCompactIndexes c.slots = [] then .ok c
    else
      match turn.sources.find? fun source => !c.attempted.contains source with
      | none => .ok c
      | some source =>
        if turn.late then .ok { c with attempted := source :: c.attempted }
        else
          match requestCompactTransactionBatchV2 E x a (missingCompactIndexes c.slots) (turn.answer source) with
          | none => collectBodies a turns { c with attempted := source :: c.attempted, asked := source :: c.asked }
          | some items => do
            let (slots, applied) ← applyBodies E x a items c.slots
            let c : Collected :=
              { slots
                attempted := source :: c.attempted
                asked := source :: c.asked
                witnessSource := if applied then source else c.witnessSource }
            if missingCompactIndexes slots ≠ [] ∧ compactV2BodyRequestIsEfficient x a slots = false then .ok c
            else collectBodies a turns c

/-- The slots of an announcement, with its coinbase. -/
def startSlots (a : CompactBlockAnnouncementV2) : Slots Transaction :=
  ⟨some a.coinbase :: List.replicate a.transactionHashes.length none, compactTransactionEncodedBytes x a.coinbase⟩

/-- What is collected for an announcement, or none when it is not even tried. -/
def collect (a : CompactBlockAnnouncementV2) (primarySource : PeerAddr) (supply : Supply) :
    Except CompactFault (Option Collected) :=
  if compactSafeAssembledBytes < compactTransactionEncodedBytes x a.coinbase then .ok none
  else do
    let (slots, _) ← applyBodies E x a (localBodies E a supply.caches) (startSlots x a)
    let (slots, _) ← applyBodies E x a supply.pending slots
    let c : Collected := ⟨slots, [], [], primarySource⟩
    if missingCompactIndexes slots = [] then .ok (some c)
    else if compactV2BodyRequestIsEfficient x a slots = false then .ok (some c)
    else do
      let c ← collectBodies E x a supply.turns c
      .ok (some c)

def reconstructCompactBlockV2 (a : CompactBlockAnnouncementV2) (primarySource : PeerAddr) (supply : Supply) :
    Except CompactFault (Option (Block × PeerAddr)) := do
  match ← collect E x a primarySource supply with
  | none => .ok none
  | some c =>
    if missingCompactIndexes c.slots ≠ [] then .ok none
    else
      let b ← reconstruct E a (c.slots.held.filterMap id)
      if compactBlockTransportOk E x b = false then .ok none else .ok (some (b, c.witnessSource))

end Functions

/-! ### Lengths -/

section Lengths

variable {x : Wire}

theorem length_packUint_le (n : ℕ) : (packUint n).length ≤ 9 := by
  unfold packUint
  split_ifs <;> simp [toBeBytes_length]

theorem length_packUint_small {n : ℕ} (h : n < 2 ^ 16) : (packUint n).length ≤ 3 := by
  unfold packUint
  by_cases h7 : n < 128
  · simp [if_pos h7]
  · by_cases h8 : n < 2 ^ 8
    · rw [if_neg h7, if_pos h8]
      simp [toBeBytes_length]
    · rw [if_neg h7, if_neg h8, if_pos h]
      simp [toBeBytes_length]

theorem length_packUint_byte (b : UInt8) : (packUint b.toNat).length ≤ 2 := by
  have hb := b.toNat_lt
  unfold packUint
  by_cases h7 : b.toNat < 128
  · simp [if_pos h7]
  · rw [if_neg h7, if_pos (by omega)]
    simp [toBeBytes_length]

theorem length_packBytes_le : ∀ bytes : Bytes, ((bytes.map fun b => packUint b.toNat).flatten).length ≤ 2 * bytes.length
  | [] => le_rfl
  | b :: bytes => by
    have hb := length_packUint_byte b
    have ih := length_packBytes_le bytes
    rw [List.map_cons, List.flatten_cons, List.length_append, List.length_cons]
    omega

/-- A digest is an array of 32 numbers of a byte or two. -/
theorem length_packKey_le (key : Hash) : (packKey key).length ≤ 67 := by
  have hbytes := length_packBytes_le key.bytes
  rw [bytes_length] at hbytes
  rw [packKey, List.length_append, length_packArrayLen (by norm_num)]
  have hlen : ¬ 32 < 16 := by norm_num
  rw [if_neg hlen]
  omega

theorem length_packToken (token : RelayToken) : (packToken token).length = 18 := by
  unfold packToken packBin
  rw [toBeBytes_length, if_pos (by norm_num)]
  simp [toBeBytes_length]

theorem encodedBytes_eq (tx : Transaction) : compactTransactionEncodedBytes x tx = 10 + (packTransaction x tx).length :=
  length_codecSerialize _

/-- What a block's encoding has besides its transactions and the envelope. -/
def blockFrame (b : Block) : ℕ := (packBlockHead b).length + (packBlockTail b).length

theorem length_flatten_map {α : Type} (f : α → Bytes) : ∀ l : List α,
    (l.map f).flatten.length = (l.map fun a => (f a).length).sum
  | [] => rfl
  | a :: l => by
    rw [List.map_cons, List.flatten_cons, List.length_append, length_flatten_map f l, List.map_cons, List.sum_cons]

theorem length_packBlock (b : Block) : (codecSerialize (packBlock x b)).length =
    10 + blockFrame b + (b.transactions.map fun tx => (packTransaction x tx).length).sum := by
  rw [length_codecSerialize, packBlock, List.length_append, List.length_append, length_flatten_map, blockFrame]
  omega

theorem blockFrame_pos (b : Block) : 0 < blockFrame b := by
  have hhead : 0 < (packBlockHead b).length := by
    unfold packBlockHead packArrayLen
    simp
  unfold blockFrame
  omega

/-- Header fields of a block take 247 bytes at most. -/
theorem blockFrame_le {b : Block} (h : b.transactions.length < 2 ^ 16) : blockFrame b ≤ 247 := by
  have hindex := length_packUint_le b.index
  have hprevious := length_packKey_le b.previousHash
  have htime := length_packUint_le b.timestamp
  have hnonce := length_packUint_le b.nonce
  have hdifficulty := length_packUint_le b.difficulty
  have hhash := length_packKey_le b.hash
  have hroot := length_packKey_le b.merkleRoot
  have harray : (packArrayLen 8).length = 1 := rfl
  have hcount : (packArrayLen b.transactions.length).length ≤ 3 := by
    rw [length_packArrayLen h]
    split_ifs <;> omega
  unfold blockFrame packBlockHead packBlockTail
  simp only [List.length_append]
  omega

theorem sum_encodedBytes (txs : List Transaction) : (txs.map (compactTransactionEncodedBytes x)).sum =
    10 * txs.length + (txs.map fun tx => (packTransaction x tx).length).sum := by
  induction txs with
  | nil => rfl
  | cons tx txs ih =>
    rw [List.map_cons, List.sum_cons, ih, encodedBytes_eq, List.length_cons, List.map_cons, List.sum_cons]
    omega

end Lengths

/-! ### The announcement of a block -/

section Announcing

variable {E : Env} {x : Wire} {a : CompactBlockAnnouncementV2} {b : Block} {rest : List Transaction}

/-- `a` is the announcement of `b`, whose transactions are the coinbase and `rest`. -/
structure Announces (E : Env) (x : Wire) (a : CompactBlockAnnouncementV2) (b : Block) (rest : List Transaction) :
    Prop where
  block : b = headerBlock a (a.coinbase :: rest)
  some_rest : rest ≠ []
  hashes : a.transactionHashes = rest.map (calculateMerkleLeafHash E)
  reward : a.coinbase.sender = miningRewards
  small : coinbaseTransportSizeOk x a.coinbase = true
  eligible : compactBlockTransportOk E x b = true
  fullBytes : a.fullBlockBytes = (codecSerialize (packBlock x b)).length
  userBytes : a.userTransactionBytes = (rest.map (compactTransactionEncodedBytes x)).sum

theorem fromBlock_eq_ok {relayToken : RelayToken} (h : fromBlock E x b relayToken = .ok a) :
    ∃ rest, Announces E x a b rest := by
  unfold fromBlock packHashes at h
  simp only [bind_eq_ok, ensure_eq_ok, need_eq_ok, exists_const] at h
  obtain ⟨hmany, hok, coinbase, hcoinbase, hsmall, hashes, hhashes, -, -, -, hann⟩ := h
  obtain ⟨hhead, hsender⟩ := Option.filter_eq_some_iff.mp hcoinbase
  obtain ⟨rest, hrest⟩ : ∃ rest, b.transactions = coinbase :: rest := by
    cases htxs : b.transactions with
    | nil => rw [htxs] at hhead; cases hhead
    | cons first rest =>
      rw [htxs] at hhead
      exact ⟨rest, by rw [Option.some.inj hhead]⟩
  have hdrop : b.transactions.drop 1 = rest := by rw [hrest, List.drop_succ_cons, List.drop_zero]
  rw [hdrop] at hhashes hann
  have hvalue : rest.map (calculateMerkleLeafHash E) = hashes := by
    by_cases hlimit : maxBlockTxCount - 1 < (rest.map (calculateMerkleLeafHash E)).length
    · rw [if_pos hlimit] at hhashes
      cases hhashes
    · rw [if_neg hlimit] at hhashes
      exact Except.ok.inj hhashes
  have ha := Except.ok.inj hann
  refine ⟨rest, ?_⟩
  rw [← ha]
  exact
    { block := by
        unfold headerBlock
        rw [← hrest]
      some_rest := by
        intro hnil
        rw [hrest, hnil] at hmany
        simp at hmany
      hashes := hvalue.symm
      reward := by simpa using hsender
      small := hsmall
      eligible := hok
      fullBytes := rfl
      userBytes := rfl }

theorem transportOk_spec {activationHeight : ℕ} (h : compactBlockTransportOkAt E x b activationHeight = true) :
    b.transactions.length ≤ maxBlockTxCount ∧ b.transactions.head?.map (·.sender) = some miningRewards ∧
      (∀ tx ∈ b.transactions.drop 1, hasFullBoundWitness E x tx = true) ∧
      (codecSerialize (packBlock x b)).length ≤ compactSafeAssembledBytes := by
  unfold compactBlockTransportOkAt at h
  by_cases hshape : b.transactions = [] ∨ maxBlockTxCount < b.transactions.length ∨
      b.transactions.head?.map (·.sender) ≠ some miningRewards ∨
      (b.transactions.drop 1).all (hasFullBoundWitness E x) = false
  · rw [if_pos hshape] at h
    cases h
  · rw [if_neg hshape] at h
    push Not at hshape
    obtain ⟨-, hcount, hsender, hwitness⟩ := hshape
    by_cases hlarge : compactSafeAssembledBytes < (codecSerialize (packBlock x b)).length
    · rw [if_pos hlarge] at h
      cases h
    · exact ⟨hcount, hsender, List.all_eq_true.mp (Bool.eq_true_of_not_eq_false hwitness), by omega⟩

namespace Announces

variable (h : Announces E x a b rest)

include h

theorem transactions : b.transactions = a.coinbase :: rest := by rw [h.block, headerBlock]

theorem drop_one : b.transactions.drop 1 = rest := by rw [h.transactions, List.drop_succ_cons, List.drop_zero]

theorem count : transactionCount a = b.transactions.length := by
  rw [transactionCount, h.hashes, List.length_map, h.transactions, List.length_cons]

theorem leaves : orderedLeafHashes E a = b.transactions.map (calculateMerkleLeafHash E) := by
  rw [orderedLeafHashes, h.hashes, h.transactions, List.map_cons]

theorem count_le : b.transactions.length ≤ maxBlockTxCount := (transportOk_spec h.eligible).1

theorem witnessed {tx : Transaction} (htx : tx ∈ rest) : hasFullBoundWitness E x tx = true :=
  (transportOk_spec h.eligible).2.2.1 tx (by rw [h.drop_one]; exact htx)

/-- Bytes of the whole block against those of the transactions one by one. -/
theorem bytes : a.fullBlockBytes = 10 + blockFrame b + (packTransaction x a.coinbase).length +
      (rest.map fun tx => (packTransaction x tx).length).sum ∧
    a.userTransactionBytes = 10 * rest.length + (rest.map fun tx => (packTransaction x tx).length).sum := by
  refine ⟨?_, by rw [h.userBytes, sum_encodedBytes]⟩
  rw [h.fullBytes, length_packBlock, h.transactions, List.map_cons, List.sum_cons]
  omega

theorem leaf_at {i : ℕ} (hi : i ≠ 0) :
    transactionHashAt E x a i = (b.transactions[i]?).map (calculateMerkleLeafHash E) := by
  cases i with
  | zero => exact absurd rfl hi
  | succ i =>
    rw [transactionHashAt, CompactBlockAnnouncementV2.transactionHashAt, h.hashes, h.transactions,
      List.getElem?_cons_succ, List.getElem?_map]

/-- **When the announcement is taken.** Beside what the header and the Merkle root must satisfy, the envelopes of the
transactions, ten bytes each, must fit into what the block's encoding has besides those transactions. -/
theorem validateCommitment_iff (now : ℕ) : validateCommitment E x now a = true ↔
    validateHeader E now b = .ok () ∧ verifyPowMeetsFloor E b = true ∧
      calculateMerkleRoot E b.transactions = b.merkleRoot ∧
      10 * rest.length ≤ 10 + blockFrame b + (packTransaction x a.coinbase).length := by
  obtain ⟨hfull, huser⟩ := h.bytes
  have hcoinbase := encodedBytes_eq (x := x) a.coinbase
  have hframe := blockFrame_pos b
  have hrest := List.length_pos_of_ne_nil h.some_rest
  have hsafe := (transportOk_spec h.eligible).2.2.2
  rw [← h.fullBytes] at hsafe
  have hhashes : a.transactionHashes ≠ [] := by
    rw [h.hashes]
    simpa using h.some_rest
  have hcount := h.count_le
  rw [← h.count] at hcount
  have hsizes : (a.coinbase.sender ≠ miningRewards ∨ a.transactionHashes = [] ∨ maxBlockTxCount < transactionCount a ∨
      coinbaseTransportSizeOk x a.coinbase = false ∨ a.fullBlockBytes ≤ compactTransactionEncodedBytes x a.coinbase ∨
      compactSafeAssembledBytes < a.fullBlockBytes ∨ a.fullBlockBytes < a.userTransactionBytes ∨
      (a.transactionHashes ≠ [] ∧ a.userTransactionBytes = 0)) ↔ a.fullBlockBytes < a.userTransactionBytes := by
    refine ⟨?_, fun hlt => .inr (.inr (.inr (.inr (.inr (.inr (.inl hlt))))))⟩
    rintro (hsender | hnil | hmany | hlarge | hbytes | hlimit | hlt | ⟨-, hzero⟩)
    · exact absurd h.reward hsender
    · exact absurd hnil hhashes
    · omega
    · rw [h.small] at hlarge
      cases hlarge
    · omega
    · omega
    · exact hlt
    · omega
  have hheader : validateHeader E now (headerBlock a []) = validateHeader E now b := by rw [h.block]; rfl
  have hpow : verifyPowMeetsFloor E (headerBlock a []) = verifyPowMeetsFloor E b := by rw [h.block]; rfl
  have hroot : b.merkleRoot = a.merkleRoot := by rw [h.block, headerBlock]
  unfold validateCommitment
  simp only [hsizes]
  rw [hheader, hpow, h.leaves, calculateMerkleRoot, hroot]
  by_cases hlt : a.fullBlockBytes < a.userTransactionBytes
  · rw [if_pos hlt]
    refine ⟨fun hfalse => absurd hfalse Bool.false_ne_true, fun hall => ?_⟩
    have hlast := hall.2.2.2
    omega
  · rw [if_neg hlt]
    by_cases hsame : calculateMerkleRootFromLeafHashes E (b.transactions.map (calculateMerkleLeafHash E)) = a.merkleRoot
    · rw [if_neg (not_not.mpr hsame), Bool.and_eq_true, decide_eq_true_iff]
      exact ⟨fun hsound => ⟨hsound.1, hsound.2, hsame, by omega⟩, fun hall => ⟨hall.1, hall.2.1⟩⟩
    · rw [if_pos hsame]
      exact ⟨fun hfalse => absurd hfalse Bool.false_ne_true, fun hall => absurd hall.2.2.1 hsame⟩

theorem reconstruct_self (hhash : calculateHashForBlock E b = b.hash) : reconstruct E a b.transactions = .ok b := by
  have hblock : headerBlock a b.transactions = b := by rw [h.transactions, ← h.block]
  unfold reconstruct
  simp only [bind_unit_eq_ok, ensure_eq_ok, hblock]
  refine ⟨⟨h.count.symm, by rw [h.transactions]; rfl⟩, ?_, hhash, trivial⟩
  rw [h.leaves]
  intro pair hpair
  rw [List.zip_map_right] at hpair
  obtain ⟨⟨tx, tx'⟩, hmem, rfl⟩ := List.mem_map.mp hpair
  have hsame : tx = tx' := by
    obtain ⟨i, hi⟩ := List.getElem?_of_mem hmem
    obtain ⟨hfst, hsnd⟩ := List.getElem?_zip_eq_some.mp hi
    exact Option.some.inj (hfst.symm.trans hsnd)
  rw [hsame]
  rfl

end Announces

end Announcing

/-! ### The round trip -/

section RoundTrip

variable {E : Env} {x : Wire} {a : CompactBlockAnnouncementV2} {b : Block} {rest : List Transaction}

/-- The coinbase as the miner makes it: nothing signed, and a recipient of an address's length. -/
structure PlainCoinbase (tx : Transaction) : Prop where
  sender : tx.sender = miningRewards
  signature : tx.signature = none
  pubKey : tx.pubKey = none
  sigHash : tx.sigHash = none
  recipient : (utf8 tx.recipient).length ≤ 40

theorem length_packStr_le {s : Bytes} (h : s.length < 2 ^ 8) : (packStr s).length ≤ 2 + s.length := by
  unfold packStr
  rw [List.length_append]
  by_cases hshort : s.length < 32
  · rw [if_pos hshort]
    simp
  · rw [if_neg hshort, if_pos h]
    simp [toBeBytes_length]

theorem PlainCoinbase.length_le {tx : Transaction} (h : PlainCoinbase tx) : (packTransaction x tx).length ≤ 89 := by
  have hsender : (packStr (utf8 tx.sender)).length = 15 := by
    rw [h.sender]
    decide +kernel
  have hrecipient := length_packStr_le (s := utf8 tx.recipient) (by have := h.recipient; omega)
  have htime := length_packUint_le tx.timestamp
  have harray : (packArrayLen 8).length = 1 := rfl
  have hplain := h.recipient
  unfold packTransaction
  rw [h.signature, h.pubKey, h.sigHash]
  simp only [List.length_append, List.length_cons, toBeBytes_length, packOption, List.length_nil]
  omega

theorem hash_of_validateHeader {now : ℕ} (h : validateHeader E now b = .ok ()) :
    calculateHashForBlock E b = b.hash := by
  unfold validateHeader at h
  simp only [bind_unit_eq_ok, ensure_eq_ok] at h
  exact h.2.2.1

/-- **Main result: the round trip.** Of an announcement made from a block, every receiver's check is exactly that the
header and the Merkle root are right and that the transactions' envelopes fit; what it announces is the block, and the
block's transactions put the block together. With 35 transactions beside a plain coinbase the envelopes never fit, so
such a block is never taken in this form. -/
theorem announcement_round_trip (E : Env) (x : Wire) (now : ℕ) (b : Block) (relayToken : RelayToken)
    (a : CompactBlockAnnouncementV2) (h : fromBlock E x b relayToken = .ok a) :
    (validateCommitment E x now a = true ↔ validateHeader E now b = .ok () ∧ verifyPowMeetsFloor E b = true ∧
      calculateMerkleRoot E b.transactions = b.merkleRoot ∧
      10 * (b.transactions.length - 1) ≤ 10 + blockFrame b + (packTransaction x a.coinbase).length) ∧
    (validateHeader E now b = .ok () → reconstruct E a b.transactions = .ok b) ∧
    (PlainCoinbase a.coinbase → 35 < b.transactions.length → validateCommitment E x now a = false) := by
  obtain ⟨rest, hann⟩ := fromBlock_eq_ok h
  have hlength : b.transactions.length - 1 = rest.length := by
    rw [hann.transactions, List.length_cons, Nat.add_sub_cancel]
  refine ⟨?_, ?_, ?_⟩
  · rw [hlength]
    exact hann.validateCommitment_iff now
  · exact fun hheader => hann.reconstruct_self (hash_of_validateHeader hheader)
  · intro hplain hmany
    have hcoinbase := hplain.length_le (x := x)
    have hmax : maxBlockTxCount = 4096 := rfl
    have hcount := hann.count_le
    have hframe := blockFrame_le (b := b) (by omega)
    rw [Bool.eq_false_iff]
    intro htaken
    have hfit := ((hann.validateCommitment_iff now).mp htaken).2.2.2
    omega

/-- A block of `n + 1` rewards; each passes as a body without a witness. -/
def rewardsBlock (E : Env) (n : ℕ) : Block :=
  sealBlock E (genesisLaunchBlock E) 5 0
    (toyReward Toy.alice 0 :: (List.range n).map fun i => toyReward ['b'] (i + 1))

/-- `announcement_round_trip` for three transactions, and for 36. -/
theorem rewards_round_trip :
    (∃ a, fromBlock flatEnv plainWire (rewardsBlock flatEnv 2) 0 = .ok a ∧
      validateCommitment flatEnv plainWire Toy.now a = true ∧
      reconstruct flatEnv a (rewardsBlock flatEnv 2).transactions = .ok (rewardsBlock flatEnv 2)) ∧
    ∃ a, fromBlock flatEnv plainWire (rewardsBlock flatEnv 35) 0 = .ok a ∧
      validateCommitment flatEnv plainWire Toy.now a = false := by
  have hsome : ∀ {r : Except CompactFault CompactBlockAnnouncementV2}, r.isOk = true → ∃ a, r = .ok a := by
    intro r hr
    cases r with
    | error e => cases hr
    | ok a => exact ⟨a, rfl⟩
  obtain ⟨a, ha⟩ := hsome (r := fromBlock flatEnv plainWire (rewardsBlock flatEnv 2) 0) (by decide +kernel)
  obtain ⟨a', ha'⟩ := hsome (r := fromBlock flatEnv plainWire (rewardsBlock flatEnv 35) 0) (by decide +kernel)
  have htrip := announcement_round_trip flatEnv plainWire Toy.now _ 0 a ha
  have hheader : validateHeader flatEnv Toy.now (rewardsBlock flatEnv 2) = .ok () := by decide +kernel
  have hframe : 20 ≤ blockFrame (rewardsBlock flatEnv 2) := by decide +kernel
  have hcount : (rewardsBlock flatEnv 2).transactions.length = 3 := rfl
  obtain ⟨rest, hann⟩ := fromBlock_eq_ok ha'
  have hcoinbase : a'.coinbase = toyReward Toy.alice 0 := (List.cons.inj hann.transactions).1.symm
  refine ⟨⟨a, ha, htrip.1.mpr ⟨hheader, by decide +kernel, by decide +kernel, by omega⟩, htrip.2.1 hheader⟩, a',
    ha', ?_⟩
  refine (announcement_round_trip flatEnv plainWire Toy.now _ 0 a' ha').2.2 ?_ (by decide +kernel)
  rw [hcoinbase]
  exact ⟨rfl, rfl, rfl, rfl, by decide +kernel⟩

end RoundTrip

end CompactBlocks

end Alphanumeric
