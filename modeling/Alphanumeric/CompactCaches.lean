/-
# The byte-accounted caches

A node keeps transaction witnesses, compact blocks that are being put together, and whole
blocks in three least recently used caches (`src/a9/node.rs`), each with a budget in bytes
beside the limit on its entries. The byte counter is changed wherever an entry is put,
replaced, removed or pushed out, and where a pending block grows by a transaction that
arrives.

A verified full block is not replaced by an unverified one: the insertion reports success
and the block it leaves in the cache is the verified one.

The encodings of a transaction and of an announcement are parameters. Sizes are those of
the source; a witness is smaller than half of the address space.

Key definitions: `WitnessCache.put`, `CompactPendingCacheV2.insert`, `rememberPendingCompactV2`,
`cachePendingCompactTransactionV2`, `CompactFullBlockCache.insert`, `WitnessCache.Ok`,
`CompactPendingCacheV2.Ok`, `CompactFullBlockCache.Ok`.
Key theorems: `WitnessCache.Ok.put`, `CompactPendingCacheV2.Ok.inserted`, `CompactPendingCacheV2.Ok.grow`,
`CompactFullBlockCache.Ok.inserted`, `byte_accounted_caches`.
-/
import Alphanumeric.CompactRelay
import Alphanumeric.Lib.ByteCache
import Mathlib

namespace Alphanumeric

open ByteCache

def compactTransactionMaxEncodedBytes : ℕ := 1024 * 1024
def compactAnnouncementMaxBytes : ℕ := 512 * 1024
def compactPendingCacheByteBudget : ℕ := 24 * 1024 * 1024
def compactFullCacheByteBudget : ℕ := 40 * 1024 * 1024
def compactFullBlockCacheEntries : ℕ := 32
def compactCoinbaseMaxEncodedBytes : ℕ := 16 * 1024

/-! ### Witnesses -/

structure WitnessCache where
  cache : Counted Text Transaction
  byteBudget : ℕ
  countCap : ℕ

namespace WitnessCache

def new (countCap : ℕ+) (byteBudget : Fin (2 ^ 63)) : WitnessCache := ⟨.empty, byteBudget, countCap⟩

def entryBytes (tx : Transaction) : ℕ :=
  tx.signature.elim 0 textLen + tx.pubKey.elim 0 textLen + tx.sigHash.elim 0 textLen + textLen tx.sender +
    textLen tx.recipient + 256

/-- There is more than the limits allow, and more than one entry. -/
def tooMuch (w : WitnessCache) (c : Counted Text Transaction) : Prop :=
  (w.byteBudget < c.bytes ∨ w.countCap < c.entries.length) ∧ 1 < c.entries.length

instance (w : WitnessCache) : DecidablePred w.tooMuch := fun _ => inferInstanceAs (Decidable (_ ∧ _))

def put (w : WitnessCache) (txId : Text) (tx : Transaction) : WitnessCache :=
  let added := entryBytes tx
  let replaced : Counted Text Transaction := { w.cache with entries := (txId, tx) :: Lru.pop w.cache.entries txId }
  let released := match Lru.peek w.cache.entries txId with
    | some old => replaced.release (entryBytes old)
    | none => replaced
  { w with cache := (released.charge added).evictWhile entryBytes w.tooMuch }

/-- `get` makes the entry the most recent one. -/
def get (w : WitnessCache) (txId : Text) : Option Transaction × WitnessCache :=
  (Lru.peek w.cache.entries txId, { w with cache := w.cache.modify txId id })

def pop (w : WitnessCache) (txId : Text) : Option Transaction × WitnessCache :=
  let (removed, cache) := w.cache.pop entryBytes txId
  (removed, { w with cache })

end WitnessCache

inductive WitnessOp where
  | put (txId : Text) (tx : Transaction) (addressable : WitnessCache.entryBytes tx < 2 ^ 63)
  | get (txId : Text)
  | pop (txId : Text)

def WitnessCache.step (w : WitnessCache) : WitnessOp → WitnessCache
  | .put txId tx _ => w.put txId tx
  | .get txId => (w.get txId).2
  | .pop txId => (w.pop txId).2

/-! ### Pending compact blocks -/

structure CompactBlockAnnouncementV2 where
  index : ℕ
  previousHash : Hash
  timestamp : ℕ
  nonce : ℕ
  difficulty : ℕ
  hash : Hash
  merkleRoot : Hash
  coinbase : Transaction
  transactionHashes : List Hash
  fullBlockBytes : ℕ
  userTransactionBytes : ℕ
  relayToken : RelayToken
deriving DecidableEq

/-- How long a transaction and an announcement are in the codec, if they can be encoded. -/
structure CompactCodec where
  env : Env
  transaction : Transaction → Option ℕ
  announcement : CompactBlockAnnouncementV2 → Option ℕ

structure PendingCompactBlockV2 where
  announcement : CompactBlockAnnouncementV2
  sources : List PeerAddr
  transactions : Table ℕ Transaction
  transactionSizes : Table ℕ ℕ
  assembledBytes : ℕ
  cacheBytes : ℕ

abbrev CompactPendingCacheV2 : Type := Counted Hash PendingCompactBlockV2

namespace CompactPendingCacheV2

def insert (pending : CompactPendingCacheV2) (blockHash : Hash) (entry : PendingCompactBlockV2) :
    Bool × CompactPendingCacheV2 :=
  if compactSafeAssembledBytes < entry.cacheBytes ∨ compactPendingCacheByteBudget < entry.cacheBytes then
    (false, pending)
  else
    let popped := (pending.pop PendingCompactBlockV2.cacheBytes blockHash).2
    popped.store PendingCompactBlockV2.cacheBytes compactPendingCacheByteBudget compactPendingCacheEntries
      blockHash entry

def remove (pending : CompactPendingCacheV2) (blockHash : Hash) :
    Option PendingCompactBlockV2 × CompactPendingCacheV2 :=
  pending.pop PendingCompactBlockV2.cacheBytes blockHash

end CompactPendingCacheV2

def CompactBlockAnnouncementV2.sameBlockCommitment (a other : CompactBlockAnnouncementV2) : Bool :=
  a.index == other.index && a.previousHash == other.previousHash && a.timestamp == other.timestamp &&
    a.nonce == other.nonce && a.difficulty == other.difficulty && a.hash == other.hash &&
    a.merkleRoot == other.merkleRoot && a.coinbase == other.coinbase &&
    a.transactionHashes == other.transactionHashes

section Pending

variable (w : CompactCodec)

def CompactBlockAnnouncementV2.transactionHashAt (a : CompactBlockAnnouncementV2) : ℕ → Option Hash
  | 0 => some (calculateMerkleLeafHash w.env a.coinbase)
  | index + 1 => a.transactionHashes[index]?

def compactTransactionHasFullBoundWitness (tx : Transaction) : Bool :=
  if tx.isSystem then true
  else
    match tx.signature, tx.pubKey, tx.sigHash with
    | some signature, some publicKey, some sigHash =>
      if !hexFieldHasDecodedLen signature signatureBytes || !hexFieldHasDecodedLen publicKey publicKeyBytes ||
          !hexFieldHasDecodedLen sigHash 32 then false
      else
        match hexDecode signature with
        | none => false
        | some bytes => sigHash == signatureHashHex w.env bytes
    | _, _, _ => false

/-- A block that was not announced before. -/
def newPendingCompactV2 (announcement : CompactBlockAnnouncementV2) (source : PeerAddr) :
    Option PendingCompactBlockV2 :=
  match w.announcement announcement, w.transaction announcement.coinbase with
  | some announcementBytes, some coinbaseBytes =>
    -- `checked_add`
    if 2 ^ 64 ≤ announcementBytes + coinbaseBytes then none
    else
      let cacheBytes := announcementBytes + coinbaseBytes
      if compactAnnouncementMaxBytes < announcementBytes ∨ compactCoinbaseMaxEncodedBytes < coinbaseBytes ∨
          compactSafeAssembledBytes < cacheBytes then none
      else
        some
          { announcement
            sources := [source]
            transactions := (∅ : Table ℕ Transaction).insert 0 announcement.coinbase
            transactionSizes := (∅ : Table ℕ ℕ).insert 0 coinbaseBytes
            assembledBytes := coinbaseBytes
            cacheBytes }
  | _, _ => none

def rememberPendingCompactV2 (pending : CompactPendingCacheV2) (announcement : CompactBlockAnnouncementV2)
    (source : PeerAddr) : Bool × CompactPendingCacheV2 :=
  match Lru.peek pending.entries announcement.hash with
  | some existing =>
    -- `get_mut` makes the entry the most recent one
    let touched := pending.modify announcement.hash id
    if !existing.announcement.sameBlockCommitment announcement then (false, touched)
    else if existing.sources.contains source then (true, touched)
    else if compactSourceMax ≤ existing.sources.length then (false, touched)
    else
      (true, pending.modify announcement.hash fun entry => { entry with sources := entry.sources ++ [source] })
  | none =>
    match newPendingCompactV2 w announcement source with
    | some entry => CompactPendingCacheV2.insert pending announcement.hash entry
    | none => (false, pending)

def cachePendingCompactTransactionV2 (pending : CompactPendingCacheV2) (blockHash : Hash) (index : ℕ)
    (transaction : Transaction) : Bool × CompactPendingCacheV2 :=
  if index = 0 ∨ compactTransactionHasFullBoundWitness w transaction = false then (false, pending)
  else
    match w.transaction transaction with
    | none => (false, pending)
    | some encodedBytes =>
      if compactTransactionMaxEncodedBytes < encodedBytes then (false, pending)
      else
        match Lru.peek pending.entries blockHash with
        | none => (false, pending)
        | some entry =>
          if entry.announcement.transactionHashAt w index ≠ some (calculateMerkleLeafHash w.env transaction) then
            (false, pending)
          else
            let previousBytes := (entry.transactionSizes.lookup index).getD 0
            let noted := ((pending.note entry.assembledBytes previousBytes).note entry.cacheBytes
              previousBytes).note pending.bytes entry.cacheBytes
            let newAssembled := satAdd (entry.assembledBytes - previousBytes) encodedBytes
            let newCacheBytes := satAdd (entry.cacheBytes - previousBytes) encodedBytes
            let newTotalCache := satAdd (pending.bytes - entry.cacheBytes) newCacheBytes
            if compactSafeAssembledBytes < newAssembled ∨ compactSafeAssembledBytes < newCacheBytes ∨
                compactPendingCacheByteBudget < newTotalCache then (false, noted)
            else
              (true, Counted.modify { noted with bytes := newTotalCache } blockHash fun entry =>
                { entry with
                  assembledBytes := newAssembled
                  cacheBytes := newCacheBytes
                  transactionSizes := entry.transactionSizes.insert index encodedBytes
                  transactions := entry.transactions.insert index transaction })

/-- The totals of a pending block are those of its transactions and of its announcement. -/
structure PendingCompactBlockV2.Coherent (e : PendingCompactBlockV2) : Prop where
  assembled : e.assembledBytes = Table.total id e.transactionSizes
  cache : ∃ announcementBytes, w.announcement e.announcement = some announcementBytes ∧
    e.cacheBytes = announcementBytes + e.assembledBytes

inductive PendingOp where
  | insert (blockHash : Hash) (entry : PendingCompactBlockV2) (coherent : entry.Coherent w)
  | remember (announcement : CompactBlockAnnouncementV2) (source : PeerAddr)
  | cacheTransaction (blockHash : Hash) (index : ℕ) (transaction : Transaction)
  | remove (blockHash : Hash)

variable {w} in
def CompactPendingCacheV2.step (pending : CompactPendingCacheV2) : PendingOp w → CompactPendingCacheV2
  | .insert blockHash entry _ => (pending.insert blockHash entry).2
  | .remember announcement source => (rememberPendingCompactV2 w pending announcement source).2
  | .cacheTransaction blockHash index transaction =>
    (cachePendingCompactTransactionV2 w pending blockHash index transaction).2
  | .remove blockHash => (CompactPendingCacheV2.remove pending blockHash).2

end Pending

/-! ### Full blocks -/

structure CompactFullBlockEntry where
  block : Block
  encodedBytes : ℕ
  verified : Bool
deriving DecidableEq

abbrev CompactFullBlockCache : Type := Counted Hash CompactFullBlockEntry

namespace CompactFullBlockCache

def insert (full : CompactFullBlockCache) (blockHash : Hash) (entry : CompactFullBlockEntry) :
    Bool × CompactFullBlockCache :=
  if compactSafeAssembledBytes < entry.encodedBytes ∨ compactFullCacheByteBudget < entry.encodedBytes then
    (false, full)
  else
    let (previous, popped) := full.pop CompactFullBlockEntry.encodedBytes blockHash
    -- the verified body is kept until another body is verified
    let kept := match previous with
      | some previous => if previous.verified && !entry.verified then previous else entry
      | none => entry
    popped.store CompactFullBlockEntry.encodedBytes compactFullCacheByteBudget compactFullBlockCacheEntries
      blockHash kept

def get (full : CompactFullBlockCache) (blockHash : Hash) : Option CompactFullBlockEntry × CompactFullBlockCache :=
  (Lru.peek full.entries blockHash, full.modify blockHash id)

end CompactFullBlockCache

inductive FullBlockOp where
  | insert (blockHash : Hash) (entry : CompactFullBlockEntry)
  | get (blockHash : Hash)

def CompactFullBlockCache.step (full : CompactFullBlockCache) : FullBlockOp → CompactFullBlockCache
  | .insert blockHash entry => (CompactFullBlockCache.insert full blockHash entry).2
  | .get blockHash => (CompactFullBlockCache.get full blockHash).2

/-! ### Witnesses: every put and pop -/

namespace WitnessCache

variable {countCap byteBudget : ℕ} {w : WitnessCache} {txId : Text} {tx : Transaction}

/-- The limits are as they were set, the count of bytes is right, and the limits are kept; only a single
entry may be larger than the budget. -/
structure Ok (countCap byteBudget : ℕ) (w : WitnessCache) : Prop where
  cap : w.countCap = countCap
  budget : w.byteBudget = byteBudget
  balanced : Balanced entryBytes w.cache
  bounded : w.cache.bytes ≤ byteBudget ∨ w.cache.entries.length ≤ 1
  counted : w.cache.entries.length ≤ countCap
  addressable : ∀ e ∈ w.cache.entries, entryBytes e.2 < 2 ^ 63

theorem Ok.bytes_lt (hw : w.Ok countCap byteBudget) (hbudget : byteBudget < 2 ^ 63) : w.cache.bytes < 2 ^ 63 := by
  rcases hw.bounded with hbytes | hsingle
  · exact hbytes.trans_lt hbudget
  · rw [hw.balanced.bytes]
    have haddressable := hw.addressable
    match hentries : w.cache.entries, hsingle with
    | [], _ => exact Nat.two_pow_pos 63
    | [e], _ =>
      rw [weight_cons]
      exact haddressable e (hentries ▸ List.mem_cons_self)

/-- `put` is a `pop` with the new entry in front. -/
theorem put_eq : w.put txId tx =
    { w with
      cache := Counted.evictWhile entryBytes w.tooMuch
        (Counted.charge
          { (w.cache.pop entryBytes txId).2 with entries := (txId, tx) :: (w.cache.pop entryBytes txId).2.entries }
          (entryBytes tx)) } := by
  unfold put Counted.pop
  cases hold : Lru.peek w.cache.entries txId with
  | some old => rfl
  | none =>
    dsimp only
    rw [Lru.pop_of_not_mem (Lru.not_mem_of_peek hold)]

theorem Ok.put (hw : w.Ok countCap byteBudget) (hcap : 0 < countCap) (hbudget : byteBudget < 2 ^ 63)
    (htx : entryBytes tx < 2 ^ 63) :
    (w.put txId tx).Ok countCap byteBudget ∧ Lru.peek (w.put txId tx).cache.entries txId = some tx := by
  obtain ⟨hpop, hentries, -⟩ := hw.balanced.pop (k := txId)
  have hbytes : (w.cache.pop entryBytes txId).2.bytes ≤ w.cache.bytes := Counted.bytes_pop_le _
  have hfresh : txId ∉ (w.cache.pop entryBytes txId).2.entries.map Prod.fst := by
    rw [hentries]
    exact Lru.not_mem_pop txId w.cache.entries
  have hlt := hw.bytes_lt hbudget
  have hnew := hpop.cons (v := tx) hfresh (by omega)
  rw [put_eq]
  set start := Counted.charge
    { (w.cache.pop entryBytes txId).2 with entries := (txId, tx) :: (w.cache.pop entryBytes txId).2.entries }
    (entryBytes tx)
  obtain ⟨hbalanced, hfront⟩ : Balanced entryBytes (start.evictWhile entryBytes w.tooMuch) ∧
    (start.evictWhile entryBytes w.tooMuch).entries <+: start.entries := hnew.evict
  have hleft : 1 ≤ (start.evictWhile entryBytes w.tooMuch).entries.length :=
    hnew.le_length_evict w.tooMuch (fun _ h => h.2) (Nat.succ_le_succ (Nat.zero_le _))
  have hstops : ¬ w.tooMuch (start.evictWhile entryBytes w.tooMuch) := by
    have hends : ¬ w.tooMuch (start.evictWhile entryBytes w.tooMuch) ∨
        (start.evictWhile entryBytes w.tooMuch).entries = [] := hnew.evict_stops w.tooMuch le_rfl
    rcases hends with hdone | hempty
    · exact hdone
    · rw [hempty] at hleft
      cases hleft
  obtain ⟨kept, hkept⟩ : ∃ kept, (start.evictWhile entryBytes w.tooMuch).entries = (txId, tx) :: kept := by
    match hshape : (start.evictWhile entryBytes w.tooMuch).entries, hfront, hleft with
    | e :: kept, hfront, _ => exact ⟨kept, by rw [(List.cons_prefix_cons.mp hfront).1]⟩
  rw [WitnessCache.tooMuch, hw.cap, hw.budget] at hstops
  refine ⟨⟨hw.cap, hw.budget, hbalanced, ?_, ?_, ?_⟩, ?_⟩
  · show (start.evictWhile entryBytes w.tooMuch).bytes ≤ byteBudget ∨
      (start.evictWhile entryBytes w.tooMuch).entries.length ≤ 1
    by_contra hover
    exact hstops ⟨.inl (by omega), by omega⟩
  · show (start.evictWhile entryBytes w.tooMuch).entries.length ≤ countCap
    by_contra hover
    exact hstops ⟨.inr (by omega), by omega⟩
  · intro e he
    rcases List.mem_cons.mp (hfront.subset he) with rfl | hmem
    · exact htx
    · rw [hentries] at hmem
      exact hw.addressable e (Lru.mem_of_mem_pop hmem)
  · show Lru.peek (start.evictWhile entryBytes w.tooMuch).entries txId = some tx
    rw [hkept, Lru.peek, if_pos rfl]

theorem Ok.step (hw : w.Ok countCap byteBudget) (hcap : 0 < countCap) (hbudget : byteBudget < 2 ^ 63) :
    ∀ op, (w.step op).Ok countCap byteBudget
  | .put _ _ haddressable => (hw.put hcap hbudget haddressable).1
  | .get txId => by
    have hlength : (w.cache.modify txId id).entries.length ≤ w.cache.entries.length :=
      Lru.length_modify_le w.cache.entries txId id
    refine ⟨hw.cap, hw.budget, hw.balanced.modify fun _ => rfl, ?_, hlength.trans hw.counted, ?_⟩
    · exact hw.bounded.imp_right hlength.trans
    · intro e he
      rcases Lru.mem_modify he with ⟨v, hv, rfl⟩ | hmem
      · exact hw.addressable _ hv
      · exact hw.addressable _ hmem
  | .pop txId => by
    obtain ⟨hpop, hentries, -⟩ := hw.balanced.pop (k := txId)
    have hlength : (w.cache.pop entryBytes txId).2.entries.length ≤ w.cache.entries.length := by
      rw [hentries]
      exact Lru.length_pop_le _ _
    refine ⟨hw.cap, hw.budget, hpop, ?_, hlength.trans hw.counted, ?_⟩
    · exact hw.bounded.imp (Counted.bytes_pop_le _).trans hlength.trans
    · intro e he
      have hmem : e ∈ Lru.pop w.cache.entries txId := hentries ▸ he
      exact hw.addressable e (Lru.mem_of_mem_pop hmem)

theorem Ok.run (hcap : 0 < countCap) (hbudget : byteBudget < 2 ^ 63) : ∀ (ops : List WitnessOp) {w : WitnessCache},
    w.Ok countCap byteBudget → (ops.foldl WitnessCache.step w).Ok countCap byteBudget
  | [], _, hw => hw
  | op :: ops, _, hw => run hcap hbudget ops (hw.step hcap hbudget op)

end WitnessCache

/-! ### Full blocks: every insertion -/

namespace CompactFullBlockCache

variable {full : CompactFullBlockCache} {blockHash : Hash} {entry : CompactFullBlockEntry}

structure Ok (full : CompactFullBlockCache) : Prop where
  balanced : Balanced CompactFullBlockEntry.encodedBytes full
  bounded : full.bytes ≤ compactFullCacheByteBudget
  counted : full.entries.length ≤ compactFullBlockCacheEntries

/-- The entry that an insertion leaves in the cache: a verified one stays when the new one is not verified. -/
def kept (full : CompactFullBlockCache) (blockHash : Hash) (entry : CompactFullBlockEntry) : CompactFullBlockEntry :=
  match Lru.peek full.entries blockHash with
  | some previous => if previous.verified && !entry.verified then previous else entry
  | none => entry

/-- An insertion succeeds exactly if the entry is within the limit, and then keeps what it should. -/
theorem Ok.inserted (hfull : full.Ok) (blockHash : Hash) (entry : CompactFullBlockEntry) :
    (insert full blockHash entry).2.Ok ∧
    ((insert full blockHash entry).1 = true → entry.encodedBytes ≤ compactSafeAssembledBytes ∧
      ∃ rest, rest <+: Lru.pop full.entries blockHash ∧
        (insert full blockHash entry).2.entries = (blockHash, kept full blockHash entry) :: rest) ∧
    ((insert full blockHash entry).1 = false → (insert full blockHash entry).2 = full) := by
  rw [CompactFullBlockCache.insert]
  by_cases hlarge : compactSafeAssembledBytes < entry.encodedBytes ∨ compactFullCacheByteBudget < entry.encodedBytes
  · rw [if_pos hlarge]
    exact ⟨hfull, (nomatch ·), fun _ => rfl⟩
  · rw [if_neg hlarge]
    obtain ⟨hpop, hentries, hprevious⟩ := hfull.balanced.pop (k := blockHash)
    have hlength : (full.pop CompactFullBlockEntry.encodedBytes blockHash).2.entries.length ≤
        compactFullBlockCacheEntries := by
      rw [hentries]
      exact (Lru.length_pop_le _ _).trans hfull.counted
    have hfits : (kept full blockHash entry).encodedBytes ≤ compactFullCacheByteBudget := by
      unfold kept
      cases hpeek : Lru.peek full.entries blockHash with
      | none => dsimp only; omega
      | some previous =>
        have hheld : previous.encodedBytes ≤ full.bytes := by
          rw [hfull.balanced.bytes]
          exact le_weight_of_mem CompactFullBlockEntry.encodedBytes (Lru.mem_of_peek hpeek)
        dsimp only
        split
        · exact hheld.trans hfull.bounded
        · omega
    have hfresh : blockHash ∉ (full.pop CompactFullBlockEntry.encodedBytes blockHash).2.entries.map Prod.fst := by
      rw [hentries]
      exact Lru.not_mem_pop blockHash full.entries
    obtain ⟨hstored, hbalanced, hbytes, hcount, rest, hrest, hheld⟩ :=
      hpop.store (by decide : compactFullCacheByteBudget < 2 ^ 64 - 1) (by decide : 0 < compactFullBlockCacheEntries)
        hlength hfresh hfits
    dsimp only
    rw [hprevious]
    refine ⟨⟨hbalanced, hbytes, hcount⟩, fun _ => ⟨by omega, rest, hentries ▸ hrest, hheld⟩, fun hfailed => ?_⟩
    exact nomatch hstored.symm.trans hfailed

end CompactFullBlockCache

/-! ### Pending blocks: every insertion and every growth -/

namespace CompactPendingCacheV2

open PendingCompactBlockV2

variable {w : CompactCodec} {pending : CompactPendingCacheV2} {blockHash : Hash} {entry : PendingCompactBlockV2}

structure Ok (w : CompactCodec) (pending : CompactPendingCacheV2) : Prop where
  balanced : Balanced cacheBytes pending
  bounded : pending.bytes ≤ compactPendingCacheByteBudget
  counted : pending.entries.length ≤ compactPendingCacheEntries
  coherent : ∀ e ∈ pending.entries, e.2.Coherent w

theorem Ok.inserted (hpending : pending.Ok w) (blockHash : Hash) (hentry : entry.Coherent w) :
    (insert pending blockHash entry).2.Ok w ∧ ((insert pending blockHash entry).1 = true →
      Lru.peek (insert pending blockHash entry).2.entries blockHash = some entry) := by
  rw [CompactPendingCacheV2.insert]
  by_cases hlarge : compactSafeAssembledBytes < entry.cacheBytes ∨ compactPendingCacheByteBudget < entry.cacheBytes
  · rw [if_pos hlarge]
    exact ⟨hpending, (nomatch ·)⟩
  · rw [if_neg hlarge]
    obtain ⟨hpop, hentries, -⟩ := hpending.balanced.pop (k := blockHash)
    have hlength : (pending.pop cacheBytes blockHash).2.entries.length ≤ compactPendingCacheEntries := by
      rw [hentries]
      exact (Lru.length_pop_le _ _).trans hpending.counted
    have hfresh : blockHash ∉ (pending.pop cacheBytes blockHash).2.entries.map Prod.fst := by
      rw [hentries]
      exact Lru.not_mem_pop blockHash pending.entries
    obtain ⟨-, hbalanced, hbytes, hcount, kept, hkept, hheld⟩ :=
      hpop.store (v := entry) (by decide : compactPendingCacheByteBudget < 2 ^ 64 - 1)
        (by decide : 0 < compactPendingCacheEntries) hlength hfresh (by omega)
    refine ⟨⟨hbalanced, hbytes, hcount, fun e he => ?_⟩, fun _ => ?_⟩
    · rw [hheld] at he
      rcases List.mem_cons.mp he with rfl | hmem
      · exact hentry
      · have hold : e ∈ Lru.pop pending.entries blockHash := hentries ▸ hkept.subset hmem
        exact hpending.coherent e (Lru.mem_of_mem_pop hold)
    · rw [hheld, Lru.peek, if_pos rfl]

theorem Ok.remove (hpending : pending.Ok w) : (remove pending blockHash).2.Ok w := by
  obtain ⟨hpop, hentries, -⟩ := hpending.balanced.pop (k := blockHash)
  refine ⟨hpop, (Counted.bytes_pop_le _).trans hpending.bounded, ?_, fun e he => ?_⟩
  · rw [CompactPendingCacheV2.remove, hentries]
    exact (Lru.length_pop_le _ _).trans hpending.counted
  · have hold : e ∈ Lru.pop pending.entries blockHash := hentries ▸ he
    exact hpending.coherent e (Lru.mem_of_mem_pop hold)

/-- An entry is written over without a change of its size. -/
theorem Ok.modify {f : PendingCompactBlockV2 → PendingCompactBlockV2} (hpending : pending.Ok w)
    (hbytes : ∀ e, (f e).cacheBytes = e.cacheBytes)
    (hf : ∀ e : PendingCompactBlockV2, e.Coherent w → (f e).Coherent w) :
    Ok w (pending.modify blockHash f) := by
  refine ⟨hpending.balanced.modify hbytes, hpending.bounded,
    (Lru.length_modify_le _ _ _).trans hpending.counted, fun e he => ?_⟩
  rcases Lru.mem_modify he with ⟨v, hv, rfl⟩ | hmem
  · exact hf v (hpending.coherent _ hv)
  · exact hpending.coherent e hmem

theorem coherent_new {announcement : CompactBlockAnnouncementV2} {source : PeerAddr}
    (h : newPendingCompactV2 w announcement source = some entry) :
    entry.Coherent w ∧ entry.announcement = announcement ∧ entry.sources = [source] := by
  unfold newPendingCompactV2 at h
  cases hannounced : w.announcement announcement with
  | none =>
    rw [hannounced] at h
    cases h
  | some announcementBytes =>
    cases hcoinbase : w.transaction announcement.coinbase with
    | none =>
      rw [hannounced, hcoinbase] at h
      cases h
    | some coinbaseBytes =>
      rw [hannounced, hcoinbase] at h
      dsimp only at h
      split_ifs at h
      cases h
      refine ⟨⟨?_, announcementBytes, hannounced, rfl⟩, rfl, rfl⟩
      rw [Table.total_insert id _ (AList.lookup_empty 0)]
      rfl

theorem sameBlockCommitment_self (a : CompactBlockAnnouncementV2) : a.sameBlockCommitment a = true := by
  simp only [CompactBlockAnnouncementV2.sameBlockCommitment, beq_self_eq_true, Bool.and_self]

/-- A block that was remembered is in the cache, with the peer among its sources. -/
theorem Ok.remember {announcement : CompactBlockAnnouncementV2} {source : PeerAddr} (hpending : pending.Ok w) :
    (rememberPendingCompactV2 w pending announcement source).2.Ok w ∧
      ((rememberPendingCompactV2 w pending announcement source).1 = true →
        ∃ e, Lru.peek (rememberPendingCompactV2 w pending announcement source).2.entries announcement.hash = some e ∧
          e.announcement.sameBlockCommitment announcement = true ∧ source ∈ e.sources) := by
  unfold rememberPendingCompactV2
  have htouched : Ok w (pending.modify announcement.hash id) := hpending.modify (fun _ => rfl) fun _ h => h
  cases hpeek : Lru.peek pending.entries announcement.hash with
  | none =>
    dsimp only
    cases hnew : newPendingCompactV2 w announcement source with
    | none => exact ⟨hpending, fun h => absurd h Bool.false_ne_true⟩
    | some e =>
      obtain ⟨hcoherent, hannouncement, hsources⟩ := coherent_new hnew
      obtain ⟨hok, hresident⟩ := hpending.inserted announcement.hash hcoherent
      refine ⟨hok, fun htrue => ⟨e, hresident htrue, ?_, ?_⟩⟩
      · rw [hannouncement, sameBlockCommitment_self]
      · rw [hsources]
        exact List.mem_singleton_self source
  | some existing =>
    have hshown : ∀ f, Lru.peek (pending.modify announcement.hash f).entries announcement.hash =
        some (f existing) := by
      intro f
      rw [Counted.modify, Lru.peek_modify, if_pos rfl, hpeek]
      rfl
    dsimp only
    split_ifs with hother hknown hfull
    · exact ⟨htouched, False.elim⟩
    · refine ⟨htouched, fun _ => ⟨existing, hshown id, ?_, List.contains_iff_mem.mp hknown⟩⟩
      simpa using hother
    · exact ⟨htouched, False.elim⟩
    · refine ⟨hpending.modify (fun _ => rfl) fun e he => ⟨he.assembled, he.cache⟩, fun _ => ⟨_, hshown _, ?_, ?_⟩⟩
      · simpa using hother
      · exact List.mem_append_right _ (List.mem_singleton_self source)

/-- The total with a transaction's size put in. -/
theorem total_insert_add (sizes : Table ℕ ℕ) (index encodedBytes : ℕ) :
    Table.total id (sizes.insert index encodedBytes) + (sizes.lookup index).getD 0 =
      encodedBytes + Table.total id sizes := by
  cases hprevious : sizes.lookup index with
  | none =>
    rw [Table.total_insert id _ hprevious]
    rfl
  | some previous =>
    have herase := Table.total_erase id hprevious
    rw [Table.total_set, herase]
    show encodedBytes + _ + previous = encodedBytes + (previous + _)
    omega

theorem getD_le_total (sizes : Table ℕ ℕ) (index : ℕ) : (sizes.lookup index).getD 0 ≤ Table.total id sizes := by
  cases hprevious : sizes.lookup index with
  | none => exact Nat.zero_le _
  | some previous =>
    rw [Table.total_erase id hprevious]
    exact Nat.le_add_right _ _

/-- A pending block takes a transaction that arrived, and grows in place. -/
theorem Ok.grow {index : ℕ} {transaction : Transaction} (hpending : pending.Ok w) :
    (cachePendingCompactTransactionV2 w pending blockHash index transaction).2.Ok w ∧
      ((cachePendingCompactTransactionV2 w pending blockHash index transaction).1 = true →
        ∃ e, Lru.peek (cachePendingCompactTransactionV2 w pending blockHash index transaction).2.entries blockHash =
          some e ∧ e.transactions.lookup index = some transaction) := by
  unfold cachePendingCompactTransactionV2
  by_cases hrefused : index = 0 ∨ compactTransactionHasFullBoundWitness w transaction = false
  · rw [if_pos hrefused]
    exact ⟨hpending, fun h => absurd h Bool.false_ne_true⟩
  rw [if_neg hrefused]
  cases hencoded : w.transaction transaction with
  | none => exact ⟨hpending, fun h => absurd h Bool.false_ne_true⟩
  | some encodedBytes =>
  dsimp only
  by_cases hlarge : compactTransactionMaxEncodedBytes < encodedBytes
  · rw [if_pos hlarge]
    exact ⟨hpending, fun h => absurd h Bool.false_ne_true⟩
  rw [if_neg hlarge]
  cases hpeek : Lru.peek pending.entries blockHash with
  | none => exact ⟨hpending, fun h => absurd h Bool.false_ne_true⟩
  | some e =>
  dsimp only
  by_cases hleaf : e.announcement.transactionHashAt w index ≠ some (calculateMerkleLeafHash w.env transaction)
  · rw [if_pos hleaf]
    exact ⟨hpending, fun h => absurd h Bool.false_ne_true⟩
  rw [if_neg hleaf]
  -- the sizes that are subtracted are there
  have hcoherent := hpending.coherent _ (Lru.mem_of_peek hpeek)
  obtain ⟨announcementBytes, hannounced, hcache⟩ := hcoherent.cache
  have hassembled := hcoherent.assembled
  have htotal := total_insert_add e.transactionSizes index encodedBytes
  have hheld : e.cacheBytes ≤ pending.bytes := by
    rw [hpending.balanced.bytes]
    exact le_weight_of_mem cacheBytes (Lru.mem_of_peek hpeek)
  have hprevious := getD_le_total e.transactionSizes index
  set previousBytes := (e.transactionSizes.lookup index).getD 0
  have hnoted : Ok w (((pending.note e.assembledBytes previousBytes).note e.cacheBytes previousBytes).note
      pending.bytes e.cacheBytes) := by
    refine ⟨?_, hpending.bounded, hpending.counted, hpending.coherent⟩
    refine ((hpending.balanced.note ?_).note ?_).note hheld
    all_goals dsimp only at hassembled hcache; omega
  have hbudget := hpending.bounded
  have hlimits : compactPendingCacheByteBudget = 25165824 ∧ compactTransactionMaxEncodedBytes = 1048576 := ⟨rfl, rfl⟩
  have hassembledNew : satAdd (e.assembledBytes - previousBytes) encodedBytes =
      e.assembledBytes - previousBytes + encodedBytes := satAdd_eq (by dsimp only at hassembled hcache; omega)
  have hcacheNew : satAdd (e.cacheBytes - previousBytes) encodedBytes =
      e.cacheBytes - previousBytes + encodedBytes := satAdd_eq (by omega)
  have htotalNew : satAdd (pending.bytes - e.cacheBytes) (e.cacheBytes - previousBytes + encodedBytes) =
      pending.bytes - e.cacheBytes + (e.cacheBytes - previousBytes + encodedBytes) := satAdd_eq (by omega)
  rw [hassembledNew, hcacheNew, htotalNew]
  split_ifs with hover
  · exact ⟨hnoted, False.elim⟩
  rw [not_or, not_or, Nat.not_lt, Nat.not_lt, Nat.not_lt] at hover
  refine ⟨⟨hnoted.balanced.rewritten hpeek ?_, hover.2.2, (Lru.length_modify_le _ _ _).trans hpending.counted,
    fun e' he' => ?_⟩, fun _ => ?_⟩
  · show pending.bytes - e.cacheBytes + (e.cacheBytes - previousBytes + encodedBytes) + e.cacheBytes =
      pending.bytes + (e.cacheBytes - previousBytes + encodedBytes)
    omega
  · rcases Lru.mem_modify he' with ⟨v, hv, rfl⟩ | hmem
    · have hsame : v = e := Option.some.inj ((Lru.peek_of_mem hpending.balanced.keys hv).symm.trans hpeek)
      subst hsame
      dsimp only at hassembled hcache
      refine ⟨?_, announcementBytes, hannounced, ?_⟩
      · show v.assembledBytes - previousBytes + encodedBytes =
          Table.total id (v.transactionSizes.insert index encodedBytes)
        omega
      · show v.cacheBytes - previousBytes + encodedBytes =
          announcementBytes + (v.assembledBytes - previousBytes + encodedBytes)
        omega
    · exact hpending.coherent e' hmem
  · refine ⟨_, (Lru.peek_modify _ _ _ _).trans ((if_pos rfl).trans (congrArg (Option.map _) hpeek)), ?_⟩
    exact AList.lookup_insert _

theorem Ok.step (hpending : pending.Ok w) : ∀ op : PendingOp w, (pending.step op).Ok w
  | .insert _ _ hcoherent => (hpending.inserted _ hcoherent).1
  | .remember _ _ => hpending.remember.1
  | .cacheTransaction _ _ _ => hpending.grow.1
  | .remove _ => hpending.remove

theorem Ok.run : ∀ (ops : List (PendingOp w)) {pending : CompactPendingCacheV2}, pending.Ok w →
    (ops.foldl CompactPendingCacheV2.step pending).Ok w
  | [], _, h => h
  | op :: ops, _, h => run ops (h.step op)

end CompactPendingCacheV2

namespace CompactFullBlockCache

variable {full : CompactFullBlockCache} {blockHash : Hash} {entry : CompactFullBlockEntry}

theorem Ok.step (hfull : full.Ok) : ∀ op, (full.step op).Ok
  | .insert _ _ => (hfull.inserted _ _).1
  | .get _ => ⟨hfull.balanced.modify fun _ => rfl, hfull.bounded, (Lru.length_modify_le _ _ _).trans hfull.counted⟩

theorem Ok.run : ∀ (ops : List FullBlockOp) {full : CompactFullBlockCache}, full.Ok →
    (ops.foldl CompactFullBlockCache.step full).Ok
  | [], _, h => h
  | op :: ops, _, h => run ops (h.step op)

/-- After a success the cache shows the new entry, or the verified one that it held. -/
theorem Ok.resident (hfull : full.Ok) (h : (insert full blockHash entry).1 = true) :
    Lru.peek (insert full blockHash entry).2.entries blockHash = some entry ∨
      entry.verified = false ∧ ∃ previous, previous.verified = true ∧
        Lru.peek full.entries blockHash = some previous ∧
        Lru.peek (insert full blockHash entry).2.entries blockHash = some previous := by
  obtain ⟨-, rest, -, hentries⟩ := (hfull.inserted _ _).2.1 h
  have hshown : Lru.peek (insert full blockHash entry).2.entries blockHash = some (kept full blockHash entry) := by
    rw [hentries, Lru.peek, if_pos rfl]
  rw [hshown]
  unfold kept
  cases hprevious : Lru.peek full.entries blockHash with
  | none => exact .inl rfl
  | some previous =>
    dsimp only
    split_ifs with hkeep
    · rw [Bool.and_eq_true, Bool.not_eq_true'] at hkeep
      exact .inr ⟨hkeep.2, previous, hkeep.1, rfl, rfl⟩
    · exact .inl rfl

/-- What a step leaves of a verified entry: nothing, the entry itself, or a verified one that was inserted. -/
theorem Ok.verified_step (hfull : full.Ok) (hentry : Lru.peek full.entries blockHash = some entry)
    (hverified : entry.verified = true) : ∀ (op : FullBlockOp) {after : CompactFullBlockEntry},
    Lru.peek (full.step op).entries blockHash = some after →
      after = entry ∨ after.verified = true ∧ op = .insert blockHash after
  | .get other, after, hafter => by
    have hshown : Lru.peek (full.step (.get other)).entries blockHash = Lru.peek full.entries blockHash := by
      show Lru.peek (Lru.modify full.entries other id) blockHash = Lru.peek full.entries blockHash
      rw [Lru.peek_modify, Option.map_id]
      split_ifs with hsame
      · rw [hsame]
        rfl
      · rfl
    rw [hshown, hentry] at hafter
    exact .inl (Option.some.inj hafter).symm
  | .insert other new, after, hafter => by
    have hstep : full.step (.insert other new) = (insert full other new).2 := rfl
    rw [hstep] at hafter
    obtain ⟨-, hstored, hrefused⟩ := hfull.inserted other new
    cases hresult : (insert full other new).1 with
    | false =>
      rw [hrefused hresult, hentry] at hafter
      exact .inl (Option.some.inj hafter).symm
    | true =>
      obtain ⟨-, rest, hrest, hentries⟩ := hstored hresult
      rw [hentries, Lru.peek] at hafter
      by_cases hsame : other = blockHash
      · rw [if_pos hsame] at hafter
        obtain rfl := Option.some.inj hafter
        subst hsame
        unfold kept
        rw [hentry]
        dsimp only
        rw [hverified, Bool.true_and]
        cases hnew : new.verified with
        | true => exact .inr ⟨hnew, rfl⟩
        | false => exact .inl rfl
      · rw [if_neg hsame] at hafter
        have hold : (blockHash, after) ∈ full.entries := Lru.mem_of_mem_pop (hrest.subset (Lru.mem_of_peek hafter))
        have hpeek := Lru.peek_of_mem hfull.balanced.keys hold
        rw [hentry] at hpeek
        exact .inl (Option.some.inj hpeek).symm

end CompactFullBlockCache

/-! ### All three caches -/

/-- **Byte-accounted caches.** Whatever is done with them, the three caches keep count of their bytes, stay
within their limits, and hold what was inserted last; but an insertion leaves a verified full block in
its place when the new one is not verified. -/
theorem byte_accounted_caches (w : CompactCodec) :
    (∀ (countCap : ℕ+) (byteBudget : Fin (2 ^ 63)) (ops : List WitnessOp),
      (ops.foldl WitnessCache.step (.new countCap byteBudget)).Ok countCap byteBudget ∧
      ∀ txId tx, WitnessCache.entryBytes tx < 2 ^ 63 →
        Lru.peek ((ops.foldl WitnessCache.step (.new countCap byteBudget)).put txId tx).cache.entries txId =
          some tx) ∧
    (∀ ops : List (PendingOp w), ∃ pending, pending = ops.foldl CompactPendingCacheV2.step .empty ∧ pending.Ok w ∧
      (∀ blockHash entry, entry.Coherent w → (CompactPendingCacheV2.insert pending blockHash entry).1 = true →
        Lru.peek (CompactPendingCacheV2.insert pending blockHash entry).2.entries blockHash = some entry) ∧
      (∀ announcement source, (rememberPendingCompactV2 w pending announcement source).1 = true →
        ∃ e, Lru.peek (rememberPendingCompactV2 w pending announcement source).2.entries announcement.hash = some e ∧
          e.announcement.sameBlockCommitment announcement = true ∧ source ∈ e.sources) ∧
      ∀ blockHash index transaction, (cachePendingCompactTransactionV2 w pending blockHash index transaction).1 = true →
        ∃ e, Lru.peek (cachePendingCompactTransactionV2 w pending blockHash index transaction).2.entries blockHash =
          some e ∧ e.transactions.lookup index = some transaction) ∧
    ∀ ops : List FullBlockOp, ∃ full, full = ops.foldl CompactFullBlockCache.step .empty ∧ full.Ok ∧
      (∀ blockHash entry, (CompactFullBlockCache.insert full blockHash entry).1 = true →
        Lru.peek (CompactFullBlockCache.insert full blockHash entry).2.entries blockHash = some entry ∨
          entry.verified = false ∧ ∃ previous, previous.verified = true ∧
            Lru.peek full.entries blockHash = some previous ∧
            Lru.peek (CompactFullBlockCache.insert full blockHash entry).2.entries blockHash = some previous) ∧
      ∀ blockHash entry, Lru.peek full.entries blockHash = some entry → entry.verified = true →
        ∀ op after, Lru.peek (full.step op).entries blockHash = some after →
          after = entry ∨ after.verified = true ∧ op = .insert blockHash after := by
  refine ⟨fun countCap byteBudget ops => ?_, fun ops => ?_, fun ops => ?_⟩
  · have hnew : (WitnessCache.new countCap byteBudget).Ok countCap byteBudget :=
      ⟨rfl, rfl, .empty, .inl (Nat.zero_le _), Nat.zero_le _, fun _ h => nomatch h⟩
    have hrun := WitnessCache.Ok.run countCap.pos byteBudget.isLt ops hnew
    exact ⟨hrun, fun _ _ htx => (hrun.put countCap.pos byteBudget.isLt htx).2⟩
  · have hrun : CompactPendingCacheV2.Ok w (ops.foldl CompactPendingCacheV2.step .empty) :=
      CompactPendingCacheV2.Ok.run ops ⟨.empty, Nat.zero_le _, Nat.zero_le _, fun _ h => nomatch h⟩
    exact ⟨_, rfl, hrun, fun _ _ hentry => (hrun.inserted _ hentry).2, fun _ _ => hrun.remember.2,
      fun _ _ _ => hrun.grow.2⟩
  · have hrun : CompactFullBlockCache.Ok (ops.foldl CompactFullBlockCache.step .empty) :=
      CompactFullBlockCache.Ok.run ops ⟨.empty, Nat.zero_le _, Nat.zero_le _⟩
    exact ⟨_, rfl, hrun, fun _ _ => hrun.resident,
      fun _ _ hentry hverified op _ => hrun.verified_step hentry hverified op⟩

local instance sampleNeZero : NeZero (2 ^ 256) := ⟨by decide⟩

/-- An entry for a full block of a hundred bytes. -/
def sampleFullBlock (verified : Bool) : CompactFullBlockEntry where
  block := ⟨1, 0, 0, [], 0, 0, 0, 0⟩
  encodedBytes := 100
  verified := verified

/-- The insertion reports success and the entry is not in the cache. -/
theorem byte_accounted_kept_verified :
    ¬ ∀ (ops : List FullBlockOp) (blockHash : Hash) (entry : CompactFullBlockEntry),
      (CompactFullBlockCache.insert (ops.foldl CompactFullBlockCache.step .empty) blockHash entry).1 = true →
        Lru.peek (CompactFullBlockCache.insert (ops.foldl CompactFullBlockCache.step .empty) blockHash
          entry).2.entries blockHash = some entry := by
  intro h
  have hsame := h [.insert 0 (sampleFullBlock true)] 0 (sampleFullBlock false) (by decide)
  exact absurd hsame (by decide)

end Alphanumeric
