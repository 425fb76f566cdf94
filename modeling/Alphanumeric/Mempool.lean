/-
# The mempool

Pending transactions lie in buckets by sender. Beside the buckets the pool keeps, by
hand, an index from transaction id to bucket (`tx_locator`), the length of each
bucket (`address_counts`) and the number and size of all entries. Four paths take
entries out: a confirmed transaction is cleared, expired ones are pruned, cheap ones
are evicted for a dearer one, and all of them keep the books in their own order.

The atomics are 64-bit: `fetch_sub` wraps. `underflowed` is no field of the source;
it records that some subtraction took more than there was. The codec's lengths and
the time to live are parameters, and so is the clock, which admission reads up to
three times.

Key definitions: `FeePerByte`, `MempoolEntry`, `Mempool`, `clearTransaction`,
`pruneExpired`, `tryEvictBelow`, `admitTransaction`, `MempoolOp`.
-/
import Alphanumeric.Lib.Table
import Alphanumeric.Types

namespace Alphanumeric

/-! ### Limits -/

def mempoolMaxBytes : ℕ := 50000000
def mempoolMaxTransactions : ℕ := 50000
def mempoolMaxPerAddress : ℕ := 250
def maxMempoolTxBytes : ℕ := 1000000
def pruneIntervalSecs : ℕ := 30

/-! ### Fee per byte -/

structure FeePerByte where
  feeUnits : ℤ
  sizeBytes : ℕ
deriving DecidableEq, Repr

/-- `i128::saturating_mul`. -/
def saturatingMul (a b : ℤ) : ℤ := max (-2 ^ 127) (min (a * b) (2 ^ 127 - 1))

/-- The rationals `fee / size`, compared by cross multiplication. -/
def FeePerByte.cmp (a b : FeePerByte) : Ordering :=
  compare (saturatingMul a.feeUnits b.sizeBytes) (saturatingMul b.feeUnits a.sizeBytes)

structure MempoolEntry where
  transaction : Transaction
  txId : Text
  timestamp : ℕ
  feePerByte : FeePerByte
  size : ℕ
deriving DecidableEq, Repr

structure Mempool where
  transactions : Table Text (List MempoolEntry)
  txLocator : Table Text Text
  totalSize : ℕ
  totalCount : ℕ
  addressCounts : Table Text ℕ
  lastPrune : ℕ
  underflowed : Bool

/-- The readings of the clock during one admission. -/
structure ClockReads where
  gate : ℕ
  prune : ℕ
  entry : ℕ

/-- What the pool calls but does not define: the codec's length and the time to live. -/
structure MempoolEnv where
  toEnv : Env
  serializedLen : Transaction → Option ℕ
  ttlSecs : Option ℕ

variable (M : MempoolEnv)

namespace Mempool

def new : Mempool where
  transactions := ∅
  txLocator := ∅
  totalSize := 0
  totalCount := 0
  addressCounts := ∅
  lastPrune := 0
  underflowed := false

/-! ### Counters -/

/-- `AtomicUsize::fetch_sub`, which wraps around. -/
def fetchSub (a n : ℕ) : ℕ := if n ≤ a then a - n else a + 2 ^ 64 - n

def entriesSize (entries : List MempoolEntry) : ℕ := (entries.map (·.size)).sum

def subtractTotals (p : Mempool) (gone : List MempoolEntry) : Mempool :=
  { p with
    totalCount := fetchSub p.totalCount gone.length
    totalSize := fetchSub p.totalSize (entriesSize gone)
    underflowed := p.underflowed || decide (p.totalCount < gone.length) ||
      decide (p.totalSize < entriesSize gone) }

def decrementAddressCount (p : Mempool) (addr : Text) (n : ℕ) : Mempool :=
  match p.addressCounts.lookup addr with
  | none => p
  | some count =>
    { p with
      addressCounts :=
        if count - n = 0 then p.addressCounts.erase addr else p.addressCounts.insert addr (count - n)
      underflowed := p.underflowed || decide (count < n) }

/-! ### Removal -/

/-- `DashMap::remove_if` with emptiness. -/
def removeIfEmpty (p : Mempool) (addr : Text) : Mempool :=
  if p.transactions.lookup addr = some [] then { p with transactions := p.transactions.erase addr } else p

def clearTransaction (p : Mempool) (tx : Transaction) : Mempool :=
  let txId := getTxId M.toEnv tx
  let p := { p with txLocator := p.txLocator.erase txId }
  match p.transactions.lookup tx.sender with
  | none => p
  | some bucket =>
    let kept := bucket.filter fun e => e.txId ≠ txId
    let gone := bucket.filter fun e => e.txId = txId
    let p := { p with transactions := p.transactions.insert tx.sender kept }
    if gone = [] then p
    else
      let p := if kept = [] then p.removeIfEmpty tx.sender else p
      (p.subtractTotals gone).decrementAddressCount tx.sender gone.length

/-- `Vec::retain` on the bucket of `addr`, with the books of what it takes out. -/
def retain (p : Mempool) (addr : Text) (kept gone : List MempoolEntry) : Mempool :=
  let p := { p with transactions := p.transactions.insert addr kept }
  let p := if gone = [] then p else p.subtractTotals gone
  let p := if kept = [] then p.removeIfEmpty addr else p
  if gone = [] then p else p.decrementAddressCount addr gone.length

/-- The loop body that pruning and eviction share: take `txIds` out of the bucket of `addr`. -/
def removeIds (p : Mempool) (addr : Text) (txIds : List Text) : Mempool × ℕ :=
  let q : Mempool × ℕ := match p.transactions.lookup addr with
    | none => (p, 0)
    | some bucket =>
      let gone := bucket.filter fun e => txIds.contains e.txId
      (p.retain addr (bucket.filter fun e => !txIds.contains e.txId) gone, gone.length)
  ({ q.1 with txLocator := txIds.foldl (fun t txId => t.erase txId) q.1.txLocator }, q.2)

/-- The planned removals by sender. -/
def bySender (plan : List (Text × Text)) : List (Text × List Text) :=
  (plan.map Prod.fst).dedup.map fun addr => (addr, (plan.filter fun r => r.1 = addr).map Prod.snd)

def removeAll : List (Text × List Text) → Mempool → Mempool × ℕ
  | [], p => (p, 0)
  | (addr, txIds) :: rest, p =>
    let (p, removed) := p.removeIds addr txIds
    let (p, more) := removeAll rest p
    (p, removed + more)

/-- Every entry with the sender it is stored under. -/
def listing (p : Mempool) : List (Text × MempoolEntry) :=
  p.transactions.entries.flatMap fun bucket => bucket.2.map fun e => (bucket.1, e)

def pruneExpired (p : Mempool) (now : ℕ) : Mempool × ℕ :=
  match M.ttlSecs with
  | none => (p, 0)
  | some ttl =>
    let expired := p.listing.filter fun c => ttl < now - c.2.timestamp
    removeAll (bySender (expired.map fun c => (c.1, c.2.txId))) p

/-! ### Eviction -/

/-- Cheapest first; of one price the newest. -/
def evictedBefore (a b : Text × MempoolEntry) : Bool :=
  (((((a.2.feePerByte.cmp b.2.feePerByte).then (compare b.2.timestamp a.2.timestamp)).then
    (compare a.1 b.1)).then (compare a.2.txId b.2.txId)).then (compare a.2.size b.2.size)).isLE

/-- Take candidates until enough is freed; `none` when they run out before. -/
def planEviction (requiredSpace requiredCount : ℕ) :
    List (Text × MempoolEntry) → ℕ → ℕ → Option (List (Text × Text))
  | candidates, spaceFreed, countFreed =>
    if spaceFreed < requiredSpace ∨ countFreed < requiredCount then
      match candidates with
      | [] => none
      | c :: candidates =>
        (planEviction requiredSpace requiredCount candidates (spaceFreed + c.2.size) (countFreed + 1)).map
          ((c.1, c.2.txId) :: ·)
    else some []

/-- All or nothing: `none` evicts nothing. -/
def tryEvictBelow (p : Mempool) (requiredSpace requiredCount : ℕ) (incomingFee : FeePerByte) : Option Mempool :=
  let candidates := (p.listing.filter fun c => c.2.feePerByte.cmp incomingFee = .lt).mergeSort evictedBefore
  (planEviction requiredSpace requiredCount candidates 0 0).map fun plan => (removeAll (bySender plan) p).1

/-! ### Admission -/

/-- The bookkeeping of an entry that is let in. -/
def insertEntry (p : Mempool) (sender : Text) (entry : MempoolEntry) : Mempool :=
  { p with
    transactions := p.transactions.insert sender ((p.transactions.lookup sender).getD [] ++ [entry])
    txLocator := p.txLocator.insert entry.txId sender
    addressCounts := p.addressCounts.insert sender ((p.addressCounts.lookup sender).getD 0 + 1)
    totalSize := p.totalSize + entry.size
    totalCount := p.totalCount + 1 }

def pruneIfDue (p : Mempool) (clock : ClockReads) : Mempool :=
  if pruneIntervalSecs ≤ clock.gate - p.lastPrune then
    (({ p with lastPrune := clock.gate } : Mempool).pruneExpired M clock.prune).1
  else p

/-- Make room by evicting, if there is none. -/
def makeRoom (p : Mempool) (txSize : ℕ) (feePerByte : FeePerByte) : Option Mempool :=
  let requiredBytes := p.totalSize + txSize - mempoolMaxBytes
  let requiredCount := p.totalCount + 1 - mempoolMaxTransactions
  if 0 < requiredBytes ∨ 0 < requiredCount then p.tryEvictBelow requiredBytes requiredCount feePerByte
  else some p

def admitTransaction (p : Mempool) (clock : ClockReads) (tx : Transaction) (enforceFloor : Bool) :
    Mempool × Except BlockchainError Unit :=
  let p := p.pruneIfDue M clock
  let txId := getTxId M.toEnv tx
  if (p.txLocator.lookup txId).isSome then (p, .ok ())
  else if enforceFloor = true ∧ tx.feeUnits < minRelayFeeUnits then (p, .error .feeBelowRelayFloor)
  else
    match M.serializedLen tx with
    | none => (p, .error .serializationError)
    | some txSize =>
      if maxMempoolTxBytes < txSize then (p, .error .invalidTransaction)
      else if (p.addressCounts.lookup tx.sender).any (mempoolMaxPerAddress ≤ ·) then
        (p, .error (.rateLimitExceeded .addressPending))
      else
        let feePerByte : FeePerByte := ⟨tx.feeUnits, txSize⟩
        match p.makeRoom txSize feePerByte with
        | none => (p, .error (.rateLimitExceeded .mempoolFull))
        | some p =>
          if mempoolMaxBytes < p.totalSize + txSize ∨ mempoolMaxTransactions < p.totalCount + 1 then
            (p, .error (.rateLimitExceeded .mempoolFull))
          else (p.insertEntry tx.sender ⟨tx, txId, clock.entry, feePerByte, txSize⟩, .ok ())

def addTransaction (p : Mempool) (clock : ClockReads) (tx : Transaction) :
    Mempool × Except BlockchainError Unit := p.admitTransaction M clock tx true

/-- A transaction that a reorg reverted skips the relay floor. -/
def readmitReverted (p : Mempool) (clock : ClockReads) (tx : Transaction) :
    Mempool × Except BlockchainError Unit := p.admitTransaction M clock tx false

end Mempool

/-! ### Runs -/

inductive MempoolOp where
  | addTransaction (clock : ClockReads) (tx : Transaction)
  | readmitReverted (clock : ClockReads) (tx : Transaction)
  | clearTransaction (tx : Transaction)
  | pruneExpired (now : ℕ)

def Mempool.step (p : Mempool) : MempoolOp → Mempool
  | .addTransaction clock tx => (p.addTransaction M clock tx).1
  | .readmitReverted clock tx => (p.readmitReverted M clock tx).1
  | .clearTransaction tx => p.clearTransaction M tx
  | .pruneExpired now => (p.pruneExpired M now).1

def MempoolOp.transaction : MempoolOp → Option Transaction
  | .addTransaction _ tx => some tx
  | .readmitReverted _ tx => some tx
  | .clearTransaction tx => some tx
  | .pruneExpired _ => none

end Alphanumeric
