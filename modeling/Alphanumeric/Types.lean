/-
# The chain's data: transactions, blocks and the code outside the repository

Transactions and blocks as `src/a9/blockchain.rs` has them. Heights, times and
counters are `ℕ` (the source's `u32`/`u64`; its `saturating_add` is `+`, which
differs only at the last height or second of the type), amounts are `ℤ` atomic units (the source's `i128`), a 32-byte
digest is a number below `2 ^ 256` (the source compares digests as big-endian
numbers), and a text is the list of its characters.

`Env` collects what the chain calls but does not define: the digests, ML-DSA,
the MessagePack codec and the floating-point money formatting and reward curve.

Key definitions: `Transaction`, `Block`, `Env`, `getTxId`, `calculateHashForBlock`,
`calculateMerkleRoot`, `consensusNextDifficulty`, `toStorageBlock`.
Key theorems: `timestamp_of_getTxId`.
-/
import Alphanumeric.Lib.Guard
import Mathlib.Algebra.BigOperators.Group.List.Basic
import Mathlib.Data.List.Sort
import Mathlib.Order.Fin.Basic
import Mathlib.Tactic

namespace Alphanumeric

/-- A text, as its characters. -/
abbrev Text : Type := List Char

instance textLawfulBEq : LawfulBEq Text := inferInstance

/-- Rust's `char::is_whitespace`. -/
def isWhitespace (c : Char) : Bool :=
  let n := c.toNat
  (9 ≤ n && n ≤ 13) || n = 32 || n = 0x85 || n = 0xA0 || n = 0x1680 || (0x2000 ≤ n && n ≤ 0x200A) ||
    n = 0x2028 || n = 0x2029 || n = 0x202F || n = 0x205F || n = 0x3000

/-- `str::len`: the bytes of its UTF-8 form. -/
def textLen (s : Text) : ℕ := (s.map Char.utf8Size).sum

/-! ### Constants -/

def maxTxAgeSecs : ℕ := 21600
def maxBlockFutureTime : ℕ := 300
def checkpointReorgMargin : ℕ := 64
def witnessLossFloor : ℕ := 35
def miningRewardMaturity : ℕ := 100
def maturityActivationHeight : ℕ := 1500
def integrityFrontierWindow : ℕ := 256
def orphanMaxCount : ℕ := 10000
def orphanTtlSecs : ℕ := 21600
def orphanReorgDepth : ℕ := 1024
def orphanBranchSearchLimit : ℕ := 4096
def maxReorgBranchesEvaluated : ℕ := 8192
def maxReorgAdoptAttempts : ℕ := 16
def witnessBlockedBackoffSecs : ℕ := 45
def witnessBlockedTtlSecs : ℕ := orphanTtlSecs
def feeSystemActivationHeight : ℕ := 517583
def rewardCurveV2ActivationHeight : ℕ := 569423
def maxBlockWeightBytes : ℕ := 3500000
def maxBlockTxCount : ℕ := 4096
def minTransactionAmountUnits : ℤ := 564
def networkFeeUnits : ℤ := 50000
def minRelayFeeUnits : ℤ := 10000
def lowFeeCompatibilityEnvelopeUnits : ℤ := 500000
def genesisLaunchAmountUnits : ℤ := 1776000000
def genesisLaunchTimestamp : ℕ := 1783191900
def genesisLaunchRecipient : Text :=
  ['A', 'L', 'P', 'H', 'A', 'N', 'U', 'M', 'E', 'R', 'I', 'C', '_', '1', '7', '7', '6', '_',
    'A', 'R', 'T', 'I', 'F', 'A', 'C', 'T']
def genesisLaunchDifficulty : ℕ := 0
def genesisLaunchNonce : ℕ := 7377
def networkMinDifficulty : ℕ := 464
def maxNetworkDifficulty : ℕ := 4080
def targetBlockTime : ℕ := 5
def difficultyPointsPerHalving : ℤ := 16
def difficultyRetargetHalfLifeSecs : ℤ := 60
def blockWeightFixedBytes : ℕ := 512
def transactionWeightFixedBytes : ℕ := 128
def publicKeyBytes : ℕ := 2592
def signatureBytes : ℕ := 4627
def miningRewards : Text := ['M', 'I', 'N', 'I', 'N', 'G', '_', 'R', 'E', 'W', 'A', 'R', 'D', 'S']
def systemAddresses : List Text := [miningRewards]
def i128Max : ℤ := 2 ^ 127 - 1

/-! ### Data -/

/-- A 32-byte digest, read as the big-endian number the source compares. -/
abbrev Hash : Type := Fin (2 ^ 256)

/-- `[0u8; 32]`. -/
def zeroHash : Hash := 0

structure Transaction where
  sender : Text
  recipient : Text
  feeUnits : ℤ
  amountUnits : ℤ
  timestamp : ℕ
  signature : Option Text
  pubKey : Option Text
  sigHash : Option Text
deriving DecidableEq, Repr

structure Block where
  index : ℕ
  previousHash : Hash
  timestamp : ℕ
  transactions : List Transaction
  nonce : ℕ
  difficulty : ℕ
  hash : Hash
  merkleRoot : Hash
deriving DecidableEq, Repr

/-- What `RateLimitExceeded` says was exceeded. -/
inductive RateLimit where
  | requests
  | addressPending
  | mempoolFull
deriving DecidableEq, Repr

/-- The errors of `BlockchainError` that the modelled code returns. -/
inductive BlockchainError where
  | invalidHash
  | insufficientFunds
  | invalidTransaction
  | invalidBlockHeader
  | invalidTransactionAmount
  | invalidTransactionSignature
  | invalidSystemTransaction
  | duplicateTransaction
  | blockTransactionCountExceeded
  | blockWeightExceeded
  | nonCanonicalTransaction
  | feeAccountingLimitExceeded
  | canonicalCorruption (height : ℕ)
  | rateLimitExceeded (limit : RateLimit)
  | feeBelowRelayFloor
  | selfTransferNotAllowed
  | serializationError
deriving DecidableEq, Repr

/-- How strictly a block's signatures are checked. -/
inductive SignatureValidationMode where
  | requireFull
  | allowTruncatedStored
deriving DecidableEq, Repr

abbrev Res (α : Type) : Type := Except BlockchainError α

/-- What the chain calls and the model takes as a parameter. The hashes, the codec and ML-DSA are
other crates'. The rest is the repository's own `f64` code, which is not modelled: `rewardLegacy`
and `subsidyUnits` are its reward curve (inputs: genesis time, block time, the regular fees in
order), `unitsThroughF64` is `to_units ∘ from_units`, `amountText` is `{:.8}` of `from_units`. -/
structure Env where
  blake3 : List UInt8 → Hash
  sha256 : List UInt8 → Hash
  codecSerialize : Transaction → List UInt8
  amountText : ℤ → Text
  mldsaVerify : List UInt8 → List UInt8 → List UInt8 → Bool
  mldsaValidatePublicKey : List UInt8 → Bool
  rewardLegacy : ℕ → ℕ → List ℤ → ℤ
  subsidyUnits : ℕ → ℕ → ℤ
  unitsThroughF64 : ℤ → ℤ

/-! ### Bytes and hexadecimal text -/

/-- Little-endian bytes of `n`, `w` of them. -/
def toLeBytes : ℕ → ℕ → List UInt8
  | 0, _ => []
  | w + 1, n => UInt8.ofNat (n % 256) :: toLeBytes w (n / 256)

def toBeBytes (w n : ℕ) : List UInt8 := (toLeBytes w n).reverse

def Hash.bytes (h : Hash) : List UInt8 := toBeBytes 32 h.val

def hexVal (c : Char) : Option ℕ :=
  if '0' ≤ c ∧ c ≤ '9' then some (c.toNat - '0'.toNat)
  else if 'a' ≤ c ∧ c ≤ 'f' then some (c.toNat - 'a'.toNat + 10)
  else if 'A' ≤ c ∧ c ≤ 'F' then some (c.toNat - 'A'.toNat + 10)
  else none

/-- `hex::decode`: two digits a byte, either case, no odd length. -/
def hexDecode : Text → Option (List UInt8)
  | [] => some []
  | [_] => none
  | c :: d :: rest =>
    match hexVal c, hexVal d, hexDecode rest with
    | some hi, some lo, some bytes => some (UInt8.ofNat (hi * 16 + lo) :: bytes)
    | _, _, _ => none

def hexDigit (n : ℕ) : Char :=
  if n < 10 then Char.ofNat ('0'.toNat + n) else Char.ofNat ('a'.toNat + (n - 10))

/-- `hex::encode`: lower case, two digits a byte. -/
def hexEncode (bytes : List UInt8) : Text :=
  bytes.flatMap fun b => [hexDigit (b.toNat / 16), hexDigit (b.toNat % 16)]

def isLowerHexChar (c : Char) : Bool :=
  ('0' ≤ c && c ≤ '9') || ('a' ≤ c && c ≤ 'f')

def hexFieldHasDecodedLen (value : Text) (decodedLen : ℕ) : Bool :=
  textLen value == decodedLen * 2 && value.all isLowerHexChar

def isCanonicalUserAddress (address : Text) : Bool :=
  textLen address == 40 && address.all isLowerHexChar

/-! ### Transactions -/

namespace Transaction

def isSystem (tx : Transaction) : Bool := systemAddresses.contains tx.sender

def isCoinbase (tx : Transaction) : Bool := tx.sender == miningRewards

@[simp] theorem isSystem_eq_isCoinbase (tx : Transaction) : tx.isSystem = tx.isCoinbase := by
  by_cases h : tx.sender = miningRewards <;> simp [isSystem, isCoinbase, systemAddresses, h]

/-- `amount.saturating_add(fee)`; amounts and fees are `i128`. -/
def totalDebitUnits (tx : Transaction) : ℤ :=
  max (-(i128Max + 1)) (min (tx.amountUnits + tx.feeUnits) i128Max)

def hasValidRegularAmounts (tx : Transaction) : Bool :=
  minTransactionAmountUnits ≤ tx.amountUnits && 0 ≤ tx.feeUnits &&
    tx.amountUnits + tx.feeUnits ≤ i128Max

def sigBytes (tx : Transaction) : Option (List UInt8) := tx.signature.bind hexDecode

end Transaction

variable (E : Env)

/-- The display id, which is also the signed message. -/
def getTxId (tx : Transaction) : Text :=
  tx.sender ++ ':' :: tx.recipient ++ ':' :: E.amountText tx.amountUnits ++
    ':' :: E.amountText tx.feeUnits ++ ':' :: Nat.toDigits 10 tx.timestamp

def getMessage (tx : Transaction) : List UInt8 := (getTxId E tx).flatMap String.utf8EncodeChar

def signatureHashHex (bytes : List UInt8) : Text := hexEncode (Hash.bytes (E.sha256 bytes))

def withTruncatedSignature (tx : Transaction) (sigHash : Text) : Transaction :=
  { tx with
    signature := tx.sigBytes.map fun full => hexEncode (full.take 64)
    sigHash := some sigHash }

/-! ### Blocks -/

def headerData (b : Block) : List UInt8 :=
  toLeBytes 4 b.index ++ b.previousHash.bytes ++ toLeBytes 8 b.timestamp ++ toLeBytes 8 b.nonce ++
    toLeBytes 8 b.difficulty ++ b.merkleRoot.bytes

def calculateHashForBlock (b : Block) : Hash := E.blake3 (headerData b)

def maxTarget : ℕ := 2 ^ 256 - 1

def powTargetFromDifficulty (difficulty : ℕ) : ℕ :=
  if difficulty = 0 then maxTarget
  else if 256 ≤ difficulty / 16 then 0
  else maxTarget / 2 ^ (difficulty / 16)

def isValidHashWithDifficulty (hash : Hash) (difficulty : ℕ) : Bool :=
  hash.val ≤ powTargetFromDifficulty difficulty

def verifyPow (b : Block) : Bool :=
  isValidHashWithDifficulty (calculateHashForBlock E b) b.difficulty

def verifyPowMeetsFloor (b : Block) : Bool :=
  if 0 < b.index ∧ b.difficulty < networkMinDifficulty then false else verifyPow E b

def divRoundAwayFromZero (numerator denominator : ℤ) : ℤ :=
  if numerator = 0 then 0
  else ((numerator.natAbs : ℤ) + (denominator - 1)) / denominator * numerator.sign

/-- The timestamp-driven retarget. -/
def consensusNextDifficulty (parentDifficulty timestampDiff blockIndex : ℕ) : ℕ :=
  if blockIndex = 0 then genesisLaunchDifficulty
  else
    let current := max networkMinDifficulty (min parentDifficulty maxNetworkDifficulty)
    let timingError : ℤ := (targetBlockTime : ℤ) - timestampDiff
    let rounded := divRoundAwayFromZero (timingError * difficultyPointsPerHalving)
      difficultyRetargetHalfLifeSecs
    let delta := if rounded = 0 ∧ timingError ≠ 0 then timingError.sign else rounded
    if 0 ≤ delta then min (current + delta.toNat) maxNetworkDifficulty
    else max (current - delta.natAbs) networkMinDifficulty

/-! ### The Merkle commitment -/

/-- One leaf: the transaction in its stored form. -/
def merkleForm (tx : Transaction) : Transaction :=
  if tx.isCoinbase then tx
  else
    match tx.sigHash with
    | some h => withTruncatedSignature tx h
    | none =>
      match tx.sigBytes with
      | some (b :: bs) => withTruncatedSignature tx (signatureHashHex E (b :: bs))
      | _ => tx

def calculateMerkleLeafHash (tx : Transaction) : Hash :=
  E.sha256 (E.codecSerialize (merkleForm E tx))

/-- One level of the tree: pairs hashed together, an odd last one alone. -/
def merkleLevel : List Hash → List Hash
  | [] => []
  | [a] => [E.sha256 a.bytes]
  | a :: b :: rest => E.sha256 (a.bytes ++ b.bytes) :: merkleLevel rest

/-- The `while current_level.len() > 1` loop, run at most `fuel` times; a level is
shorter than the one below it, so the number of leaves is enough. -/
def merkleLoop : ℕ → List Hash → List Hash
  | 0, level => level
  | fuel + 1, level => if 1 < level.length then merkleLoop fuel (merkleLevel E level) else level

/-- `b"empty_transactions_hash"`. -/
def emptyTransactionsHash : List UInt8 :=
  ['e', 'm', 'p', 't', 'y', '_', 't', 'r', 'a', 'n', 's', 'a', 'c', 't', 'i', 'o', 'n', 's', '_',
    'h', 'a', 's', 'h'].flatMap String.utf8EncodeChar

def calculateMerkleRootFromLeafHashes (leaves : List Hash) : Hash :=
  match leaves with
  | [] => E.sha256 emptyTransactionsHash
  | [a] => E.sha256 (a.bytes ++ a.bytes)
  | leaves => (merkleLoop E leaves.length leaves).headD zeroHash

def calculateMerkleRoot (txs : List Transaction) : Hash :=
  calculateMerkleRootFromLeafHashes E (txs.map (calculateMerkleLeafHash E))

/-! ### The stored form of a block -/

def toStorageTransaction (tx : Transaction) : Transaction :=
  if tx.isCoinbase then tx
  else
    match tx.sigHash with
    | some h => withTruncatedSignature tx h
    | none =>
      match tx.sigBytes with
      | some bytes => withTruncatedSignature tx (signatureHashHex E bytes)
      | none => tx

def toStorageBlock (b : Block) : Block :=
  { b with transactions := b.transactions.map (toStorageTransaction E) }

/-- The pinned launch block. -/
def genesisLaunchBlock : Block :=
  let transactions : List Transaction :=
    [{ sender := miningRewards, recipient := genesisLaunchRecipient
       feeUnits := networkFeeUnits, amountUnits := genesisLaunchAmountUnits
       timestamp := genesisLaunchTimestamp, signature := none, pubKey := none, sigHash := none }]
  let block : Block :=
    { index := 0, previousHash := zeroHash, timestamp := genesisLaunchTimestamp, transactions
      nonce := genesisLaunchNonce, difficulty := genesisLaunchDifficulty, hash := zeroHash
      merkleRoot := calculateMerkleRoot E transactions }
  { block with hash := calculateHashForBlock E block }

/-! ### Building blocks, and a small environment

`sealBlock` is what a miner does to a template: set the difficulty the parent asks for, the
Merkle root and the hash. `toyEnv` is an environment to run concrete chains in: polynomial
digests that are far below every proof-of-work target, and a signature scheme that signs a
digest of message and key. -/

def sealBlock (parent : Block) (dt nonce : ℕ) (txs : List Transaction) : Block :=
  let block : Block :=
    { index := parent.index + 1, previousHash := parent.hash, timestamp := parent.timestamp + dt
      transactions := txs, nonce
      difficulty := consensusNextDifficulty parent.difficulty dt (parent.index + 1), hash := zeroHash
      merkleRoot := calculateMerkleRoot E txs }
  { block with hash := calculateHashForBlock E block }

def mixBytes (seed : ℕ) (bytes : List UInt8) : ℕ :=
  bytes.foldl (fun acc b => (acc * 210306068529402873165736369884012333109 + b.toNat + 1) % 2 ^ 200) seed

def toyField : Option Text → List UInt8
  | none => [0]
  | some x => 1 :: x.flatMap String.utf8EncodeChar

def toySign (message pubKey : List UInt8) : List UInt8 :=
  toBeBytes 32 (mixBytes 3 (message ++ pubKey)) ++ List.replicate 33 0

def toyEnv : Env where
  blake3 bytes := Fin.ofNat (2 ^ 256) (mixBytes 1 bytes)
  sha256 bytes := Fin.ofNat (2 ^ 256) (mixBytes 2 (bytes ++ [0]) * 2 ^ 56)
  codecSerialize tx := (tx.sender ++ '|' :: tx.recipient).flatMap String.utf8EncodeChar ++
    toLeBytes 8 tx.feeUnits.toNat ++ toLeBytes 8 tx.amountUnits.toNat ++ toLeBytes 8 tx.timestamp ++
    toyField tx.signature ++ toyField tx.pubKey ++ toyField tx.sigHash
  amountText n := Nat.toDigits 10 n.toNat
  mldsaVerify message signature pubKey := signature == toySign message pubKey
  mldsaValidatePublicKey pubKey := !pubKey.isEmpty
  rewardLegacy _ _ _ := 1000000000
  subsidyUnits _ _ := 1000000000
  unitsThroughF64 n := n

/-- A coinbase paying the toy reward. -/
def toyReward (recipient : Text) (timestamp : ℕ) : Transaction :=
  { sender := miningRewards, recipient, feeUnits := networkFeeUnits, amountUnits := 1000000000
    timestamp, signature := none, pubKey := none, sigHash := none }

/-- The address a toy key owns. -/
def toyAddress (pubKey : List UInt8) : Text :=
  hexEncode ((Hash.bytes (toyEnv.sha256 pubKey)).take 20)

/-- A signed transfer from the owner of `pubKey`. -/
def toyTransfer (pubKey : List UInt8) (recipient : Text) (amount : ℤ) (timestamp : ℕ) :
    Transaction :=
  let tx : Transaction :=
    { sender := toyAddress pubKey, recipient, feeUnits := 0, amountUnits := amount, timestamp
      signature := none, pubKey := some (hexEncode pubKey), sigHash := none }
  let signature := toySign (getMessage toyEnv tx) pubKey
  { tx with
    signature := some (hexEncode signature)
    sigHash := some (signatureHashHex toyEnv signature) }

/-- A block that only pays its miner and confirms `txs`. -/
def toyBlock (parent : Block) (dt : ℕ) (miner : Text) (txs : List Transaction) : Block :=
  sealBlock toyEnv parent dt 0 (toyReward miner parent.timestamp :: txs)

/-! ### Ids name timestamps

The decimal timestamp follows the last colon of an id, so equal ids have equal
timestamps, whatever the money formatting does. -/

theorem suffix_of_sep {α : Type} {c : α} :
    ∀ {p p' d d' : List α}, c ∉ d → c ∉ d' → p ++ c :: d = p' ++ c :: d' → d = d'
  | [], [], d, d', _, _, h => by simpa using h
  | [], x :: p', d, d', hd, _, h => by
    simp only [List.nil_append, List.cons_append, List.cons.injEq] at h
    exact absurd (by simp [h.2]) hd
  | x :: p, [], d, d', _, hd', h => by
    simp only [List.nil_append, List.cons_append, List.cons.injEq] at h
    exact absurd (by simp [← h.2]) hd'
  | x :: p, y :: p', d, d', hd, hd', h => by
    simp only [List.cons_append, List.cons.injEq] at h
    exact suffix_of_sep hd hd' h.2

theorem colon_notMem_toDigits (n : ℕ) : ':' ∉ Nat.toDigits 10 n := by
  intro h
  simpa using Nat.isDigit_of_mem_toDigits (by decide) (by decide) h

theorem timestamp_of_getTxId {E : Env} {t u : Transaction} (h : getTxId E t = getTxId E u) :
    t.timestamp = u.timestamp := by
  have hsep : ∀ tx, getTxId E tx = (tx.sender ++ ':' :: tx.recipient ++ ':' ::
      E.amountText tx.amountUnits ++ ':' :: E.amountText tx.feeUnits) ++
      ':' :: Nat.toDigits 10 tx.timestamp := by simp [getTxId]
  rw [hsep, hsep] at h
  have hd := suffix_of_sep (colon_notMem_toDigits _) (colon_notMem_toDigits _) h
  simpa [Nat.ofDigitChars_toDigits] using congrArg (fun ds => Nat.ofDigitChars 10 ds 0) hd

end Alphanumeric
