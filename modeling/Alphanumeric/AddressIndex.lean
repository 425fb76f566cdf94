/-
# The address index: rows, and the rows of a chain

One row an address and transaction (`src/a9/blockchain.rs`, `address_tx_key` to
`ensure_address_tx_index`). A key is the address, a zero byte, and height and position in
big-endian bytes, so that the rows of an address are in order of confirmation; a
value holds the role, the amounts, the transaction's own timestamp and the other party.
Committed blocks add their rows, reverted blocks take theirs away, and a rebuild derives all rows
from the stored chain.

Rows of different heights have different keys, so what a reorg takes away is what the
reverted blocks had added, and the rows are always those a rebuild would derive.

Key definitions: `addressTxKey`, `encodeAddressTxValue`, `decodeAddressTxEntry`, `addressIndexOps`,
`recordAddressTxEntries`, `removeAddressTxEntries`, `rebuildAddressTxIndex`, `ensureAddressTxIndex`,
`ChainIndex`, `CanonicalRun`.
Key theorems: `addressTxKey_lt_iff`, `decode_encode`, `addressIndexOps_toStorageBlock`,
`CanonicalRun.rows_eq_rebuild`.
-/
import Alphanumeric.SignatureCache
import Alphanumeric.TemplateFees
import Alphanumeric.Lib.Ordered

namespace Alphanumeric

open Guard

/-- Bytes compare as numbers. -/
instance byteOrder : LinearOrder UInt8 where
  le_refl := UInt8.le_refl
  le_trans _ _ _ := UInt8.le_trans
  le_antisymm _ _ := UInt8.le_antisymm
  le_total := UInt8.le_total
  lt_iff_le_not_ge a b := by
    simp only [UInt8.le_iff_toNat_le, UInt8.lt_iff_toNat_lt]
    omega
  toDecidableLE := inferInstance
  toDecidableLT := inferInstance
  toDecidableEq := inferInstance

abbrev Bytes : Type := List UInt8

/-! ### Fixed-width integers -/

/-- `u32::from_be_bytes` and its siblings are this read backwards. -/
def fromLeBytes : Bytes → ℕ
  | [] => 0
  | b :: bs => b.toNat + 256 * fromLeBytes bs

def fromBeBytes (bytes : Bytes) : ℕ := fromLeBytes bytes.reverse

/-- `i128::to_le_bytes`. -/
def i128ToLeBytes (n : ℤ) : Bytes := toLeBytes 16 (n % 2 ^ 128).toNat

/-- `i128::from_le_bytes`. -/
def i128FromLeBytes (bytes : Bytes) : ℤ :=
  let n := fromLeBytes bytes
  if n < 2 ^ 127 then n else (n : ℤ) - 2 ^ 128

/-- `std::str::from_utf8`. -/
def fromUtf8 (bytes : Bytes) : Option Text := bytes.toByteArray.utf8Decode?.map Array.toList

/-! ### Keys and values -/

/-- `ADDRESS_TX_FLAG_SENDER`. -/
def addressTxFlagSender : UInt8 := 0b01

/-- `ADDRESS_TX_FLAG_RECIPIENT`. -/
def addressTxFlagRecipient : UInt8 := 0b10

/-- One confirmed transaction from one address's point of view. -/
structure AddressTxEntry where
  height : ℕ
  position : ℕ
  flags : UInt8
  amountUnits : ℤ
  feeUnits : ℤ
  timestamp : ℕ
  counterparty : Text
deriving DecidableEq, Repr

/-- Why `decode_address_tx_entry` rejects a row ("entry key has _ bytes; expected _", "entry value
has _ bytes; expected fixed fields plus a counterparty", "entry has invalid role flags _",
"counterparty is not UTF-8: _"). -/
inductive DerivedIndexError where
  | keyLength (length expected : ℕ)
  | valueLength (length : ℕ)
  | invalidFlags (flags : UInt8)
  | counterpartyNotUtf8
deriving DecidableEq, Repr

def addressTxPrefix (address : Text) : Bytes := utf8 address ++ [0]

/-- `address || 0x00 || height_be || position_be`. -/
def addressTxKey (address : Text) (height position : ℕ) : Bytes :=
  utf8 address ++ 0 :: (toBeBytes 4 height ++ toBeBytes 4 position)

/-- `flags(1) || amount_units_le(16) || fee_units_le(16) || timestamp_le(8) || counterparty_utf8`. -/
def encodeAddressTxValue (flags : UInt8) (amountUnits feeUnits : ℤ) (timestamp : ℕ)
    (counterparty : Text) : Bytes :=
  flags :: (i128ToLeBytes amountUnits ++ i128ToLeBytes feeUnits ++ toLeBytes 8 timestamp ++
    utf8 counterparty)

def decodeAddressTxEntry (prefixLen : ℕ) (key value : Bytes) : Except DerivedIndexError AddressTxEntry := do
  ensure (key.length = prefixLen + 8) (.keyLength key.length (prefixLen + 8))
  ensure (41 < value.length) (.valueLength value.length)
  let flags := value.headD 0
  ensure (¬ (flags = 0 ∨ flags &&& ~~~(addressTxFlagSender ||| addressTxFlagRecipient) ≠ 0))
    (.invalidFlags flags)
  let counterparty ← need (fromUtf8 (value.drop 41)) .counterpartyNotUtf8
  .ok
    { height := fromBeBytes ((key.drop prefixLen).take 4)
      position := fromBeBytes (key.drop (prefixLen + 4))
      flags
      amountUnits := i128FromLeBytes ((value.drop 1).take 16)
      feeUnits := i128FromLeBytes ((value.drop 17).take 16)
      timestamp := fromLeBytes ((value.drop 33).take 8)
      counterparty }

/-! ### The rows of a block, and the index of a chain -/

/-- What one transaction adds: a row for its sender and one for its recipient, or a row with
both roles. -/
def addressTxOps (height position : ℕ) (tx : Transaction) : List (Bytes × Bytes) :=
  let senderIndexed := !systemAddresses.contains tx.sender
  let recipientIndexed := !systemAddresses.contains tx.recipient
  if senderIndexed && recipientIndexed && tx.sender == tx.recipient then
    [(addressTxKey tx.sender height position,
      encodeAddressTxValue (addressTxFlagSender ||| addressTxFlagRecipient) tx.amountUnits tx.feeUnits
        tx.timestamp tx.sender)]
  else
    (if senderIndexed then
      [(addressTxKey tx.sender height position,
        encodeAddressTxValue addressTxFlagSender tx.amountUnits tx.feeUnits tx.timestamp tx.recipient)]
    else []) ++
    if recipientIndexed then
      [(addressTxKey tx.recipient height position,
        encodeAddressTxValue addressTxFlagRecipient tx.amountUnits tx.feeUnits tx.timestamp tx.sender)]
    else []

/-- The `(key, value)` pairs a block contributes; a position is cast to `u32`. -/
def addressIndexOps (block : Block) : List (Bytes × Bytes) :=
  block.transactions.zipIdx.flatMap fun (tx, position) => addressTxOps block.index (position % 2 ^ 32) tx

/-- `ADDRESS_TX_TREE` and the block it is indexed up to (`ADDRESS_TX_META_KEY`). -/
structure AddressIndex where
  rows : Ordered Bytes Bytes
  indexedTip : Option (ℕ × Hash)

def recordAddressTxEntries (index : AddressIndex) (block : Block) : AddressIndex :=
  { rows := index.rows.insertAll (addressIndexOps block), indexedTip := some (block.index, block.hash) }

def removeAddressTxEntries (index : AddressIndex) (block : Block) : AddressIndex :=
  { index with rows := index.rows.eraseAll ((addressIndexOps block).map Prod.fst) }

/-- The loop of a rebuild over the stored blocks: the rows written, the batch that is not, and the last
block seen. A batch is written once it holds 4096 pairs. -/
def rebuildLoop : List Block → Ordered Bytes Bytes → List (Bytes × Bytes) → Option (ℕ × Hash) → AddressIndex
  | [], rows, batch, last => { rows := rows.insertAll batch, indexedTip := last }
  | block :: blocks, rows, batch, _ =>
    let batch := batch ++ addressIndexOps block
    let last := some (block.index, block.hash)
    if 4096 ≤ batch.length then rebuildLoop blocks (rows.insertAll batch) [] last
    else rebuildLoop blocks rows batch last

def rebuildAddressTxIndex (chain : List Block) : AddressIndex := rebuildLoop chain .empty [] none

/-- Rebuild when there is no index or its block is not in the chain, else index the blocks above. -/
def ensureAddressTxIndex (chain : List Block) (index : AddressIndex) : AddressIndex :=
  if chain.isEmpty then index
  else
    match index.indexedTip with
    | none => rebuildAddressTxIndex chain
    | some (height, hash) =>
      match chain[height]? with
      | none => rebuildAddressTxIndex chain
      | some block =>
        if block.hash = hash then (chain.drop (height + 1)).foldl recordAddressTxEntries index
        else rebuildAddressTxIndex chain

/-! ### Histories of the canonical chain -/

/-- The stored blocks from genesis to the tip, and the index beside them. -/
structure ChainIndex where
  chain : List Block
  index : AddressIndex

variable (E : Env)

/-- A block extends the tip: it is stored, and its rows are added. -/
def ChainIndex.extend (s : ChainIndex) (block : Block) : ChainIndex where
  chain := s.chain ++ [toStorageBlock E block]
  index := recordAddressTxEntries s.index block

/-- A reorg: the rows of the reverted blocks go, the slots from the fork on are the branch's and
none above it stays, then the rows of the branch are added. -/
def ChainIndex.adoptBranch (s : ChainIndex) : List Block → ChainIndex
  | [] => s
  | first :: rest =>
    { chain := s.chain.take first.index ++ (first :: rest).map (toStorageBlock E)
      index := (first :: rest).foldl recordAddressTxEntries
        ((s.chain.drop first.index).foldl removeAddressTxEntries s.index) }

/-- What the field types of a block say: `u32` heights and positions, `u64` times, `i128` amounts. -/
structure Block.InRange (b : Block) : Prop where
  index : b.index < 2 ^ 32
  positions : b.transactions.length ≤ 2 ^ 32
  timestamp : ∀ tx ∈ b.transactions, tx.timestamp < 2 ^ 64
  amountUnits : ∀ tx ∈ b.transactions, i128Min ≤ tx.amountUnits ∧ tx.amountUnits ≤ i128Max
  feeUnits : ∀ tx ∈ b.transactions, i128Min ≤ tx.feeUnits ∧ tx.feeUnits ≤ i128Max

/-- No `0x00` byte. -/
def NulFree (address : Text) : Prop := (0 : UInt8) ∉ utf8 address

/-- Blocks that stand at their heights, with addresses free of the `0x00` byte. -/
def Stacked (chain : List Block) : Prop :=
  ∀ (i : ℕ) (b : Block), chain[i]? = some b → b.index = i ∧ b.InRange ∧
    ∀ tx ∈ b.transactions, NulFree tx.sender ∧ NulFree tx.recipient

/-- A history: an index built from the chain, then tip extensions, reorgs and restarts. -/
inductive CanonicalRun : ChainIndex → Prop
  | built {chain : List Block} (hchain : Stacked chain) :
      CanonicalRun { chain, index := rebuildAddressTxIndex chain }
  | extend {s : ChainIndex} {block : Block} (h : CanonicalRun s) (hblock : Stacked (s.chain ++ [block])) :
      CanonicalRun (s.extend E block)
  | adoptBranch {s : ChainIndex} {first : Block} {rest : List Block} (h : CanonicalRun s)
      (hbranch : Stacked (s.chain.take first.index ++ first :: rest)) :
      CanonicalRun (s.adoptBranch E (first :: rest))
  | restart {s : ChainIndex} (h : CanonicalRun s) :
      CanonicalRun { s with index := ensureAddressTxIndex s.chain s.index }

variable {E}

/-! ### Round trips -/

theorem fromLeBytes_toLeBytes : ∀ {w n : ℕ}, n < 256 ^ w → fromLeBytes (toLeBytes w n) = n
  | 0, n, h => by
    rw [pow_zero] at h
    rw [toLeBytes, fromLeBytes]
    omega
  | w + 1, n, h => by
    rw [pow_succ] at h
    rw [toLeBytes, fromLeBytes, fromLeBytes_toLeBytes (w := w) (by omega), UInt8.toNat_ofNat']
    omega

theorem toBeBytes_length (w n : ℕ) : (toBeBytes w n).length = w := by
  rw [toBeBytes, List.length_reverse, toLeBytes_length]

theorem fromBeBytes_toBeBytes {w n : ℕ} (h : n < 256 ^ w) : fromBeBytes (toBeBytes w n) = n := by
  rw [fromBeBytes, toBeBytes, List.reverse_reverse, fromLeBytes_toLeBytes h]

theorem i128FromLeBytes_toLeBytes {n : ℤ} (hlow : i128Min ≤ n) (hhigh : n ≤ i128Max) :
    i128FromLeBytes (i128ToLeBytes n) = n := by
  have hmin : i128Min = -2 ^ 127 := rfl
  have hmax : i128Max = 2 ^ 127 - 1 := rfl
  have hbound : (n % 2 ^ 128).toNat < 256 ^ 16 := by
    have hpow : (256 : ℕ) ^ 16 = 2 ^ 128 := by norm_num
    omega
  rw [i128FromLeBytes, i128ToLeBytes, fromLeBytes_toLeBytes hbound]
  split <;> omega

theorem fromUtf8_utf8 (s : Text) : fromUtf8 (utf8 s) = some s := by
  have hbytes : (utf8 s).toByteArray = s.utf8Encode := rfl
  rw [fromUtf8, hbytes, List.utf8Decode?_utf8Encode, Option.map_some]

theorem addressTxKey_eq (address : Text) (height position : ℕ) :
    addressTxKey address height position =
      addressTxPrefix address ++ (toBeBytes 4 height ++ toBeBytes 4 position) := by
  rw [addressTxKey, addressTxPrefix, List.append_assoc, List.singleton_append]

/-! ### The order of the keys -/

theorem toBeBytes_succ (w n : ℕ) : toBeBytes (w + 1) n = toBeBytes w (n / 256) ++ [UInt8.ofNat (n % 256)] := by
  rw [toBeBytes, toLeBytes, List.reverse_cons, toBeBytes]

/-- Big-endian bytes compare as the numbers do. -/
theorem toBeBytes_lt_iff : ∀ {w n m : ℕ}, n < 256 ^ w → m < 256 ^ w → (toBeBytes w n < toBeBytes w m ↔ n < m)
  | 0, n, m, hn, hm => by
    rw [pow_zero] at hn hm
    have heq : n = m := by omega
    rw [heq]
    simp
  | w + 1, n, m, hn, hm => by
    rw [pow_succ] at hn hm
    have hn' : n / 256 < 256 ^ w := by omega
    have hm' : m / 256 < 256 ^ w := by omega
    have hbyte : [UInt8.ofNat (n % 256)] < [UInt8.ofNat (m % 256)] ↔ n % 256 < m % 256 := by
      rw [List.cons_lt_cons_iff, UInt8.lt_iff_toNat_lt, UInt8.toNat_ofNat', UInt8.toNat_ofNat']
      simp
    have hhigh : toBeBytes w (n / 256) = toBeBytes w (m / 256) ↔ n / 256 = m / 256 := by
      constructor
      · intro h
        rw [← fromBeBytes_toBeBytes hn', h, fromBeBytes_toBeBytes hm']
      · intro h
        rw [h]
    rw [toBeBytes_succ, toBeBytes_succ, List.append_lt_append_iff (by rw [toBeBytes_length, toBeBytes_length]),
      toBeBytes_lt_iff hn' hm', hhigh, hbyte]
    omega

/-- **The keys of an address are in order of confirmation.** -/
theorem addressTxKey_lt_iff {address : Text} {height height' position position' : ℕ} (hh : height < 2 ^ 32)
    (hh' : height' < 2 ^ 32) (hp : position < 2 ^ 32) (hp' : position' < 2 ^ 32) :
    addressTxKey address height position < addressTxKey address height' position' ↔
      height < height' ∨ height = height' ∧ position < position' := by
  have hheight : toBeBytes 4 height = toBeBytes 4 height' ↔ height = height' := by
    constructor
    · intro h
      rw [← fromBeBytes_toBeBytes (w := 4) hh, h, fromBeBytes_toBeBytes hh']
    · intro h
      rw [h]
  rw [addressTxKey_eq, addressTxKey_eq, List.append_lt_append_iff rfl,
    List.append_lt_append_iff (by rw [toBeBytes_length, toBeBytes_length]), toBeBytes_lt_iff hh hh',
    toBeBytes_lt_iff hp hp', hheight]
  simp

/-- A key is its address, height and position: the last eight bytes are the numbers. -/
theorem addressTxKey_inj {address address' : Text} {height height' position position' : ℕ}
    (hh : height < 2 ^ 32) (hh' : height' < 2 ^ 32) (hp : position < 2 ^ 32) (hp' : position' < 2 ^ 32)
    (h : addressTxKey address height position = addressTxKey address' height' position') :
    address = address' ∧ height = height' ∧ position = position' := by
  rw [addressTxKey_eq, addressTxKey_eq] at h
  obtain ⟨hfront, hnumbers⟩ := List.append_inj' h (by simp only [List.length_append, toBeBytes_length])
  obtain ⟨hheight, hposition⟩ := List.append_inj hnumbers (by rw [toBeBytes_length, toBeBytes_length])
  refine ⟨utf8_injective (List.append_cancel_right hfront), ?_, ?_⟩
  · rw [← fromBeBytes_toBeBytes (w := 4) hh, hheight, fromBeBytes_toBeBytes hh']
  · rw [← fromBeBytes_toBeBytes (w := 4) hp, hposition, fromBeBytes_toBeBytes hp']

/-- The prefix is exact: a key extends the prefix of its own address only. -/
theorem addressTxPrefix_isPrefix_iff {address address' : Text} {height position : ℕ} (ha : NulFree address)
    (ha' : NulFree address') :
    addressTxPrefix address <+: addressTxKey address' height position ↔ address = address' := by
  constructor
  · rintro ⟨rest, hrest⟩
    rw [addressTxPrefix, addressTxKey, List.append_assoc, List.singleton_append] at hrest
    -- the first zero byte ends the address on both sides
    have hfront : utf8 address = utf8 address' := by
      have htake := congrArg (List.takeWhile (· ≠ (0 : UInt8))) hrest
      have hall : ∀ {a : Text}, NulFree a → ∀ b ∈ utf8 a, decide (b ≠ 0) = true := fun h b hb =>
        decide_eq_true fun hzero => h (hzero ▸ hb)
      rwa [List.takeWhile_append_of_pos (hall ha), List.takeWhile_append_of_pos (hall ha'),
        List.takeWhile_cons_of_neg (by simp), List.takeWhile_cons_of_neg (by simp), List.append_nil,
        List.append_nil] at htake
    exact utf8_injective hfront
  · intro h
    rw [h, addressTxKey_eq]
    exact List.prefix_append _ _

/-! ### An entry and its row -/

/-- What the field types and the roles of an entry say. -/
structure AddressTxEntry.InRange (e : AddressTxEntry) : Prop where
  height : e.height < 2 ^ 32
  position : e.position < 2 ^ 32
  flags : e.flags = addressTxFlagSender ∨ e.flags = addressTxFlagRecipient ∨
    e.flags = addressTxFlagSender ||| addressTxFlagRecipient
  amountUnits : i128Min ≤ e.amountUnits ∧ e.amountUnits ≤ i128Max
  feeUnits : i128Min ≤ e.feeUnits ∧ e.feeUnits ≤ i128Max
  timestamp : e.timestamp < 2 ^ 64

/-- The key and the value of an entry of `address`. -/
def AddressTxEntry.row (address : Text) (e : AddressTxEntry) : Bytes × Bytes :=
  (addressTxKey address e.height e.position,
    encodeAddressTxValue e.flags e.amountUnits e.feeUnits e.timestamp e.counterparty)

theorem i128ToLeBytes_length (n : ℤ) : (i128ToLeBytes n).length = 16 := by
  rw [i128ToLeBytes, toLeBytes_length]

theorem encodeAddressTxValue_length (flags : UInt8) (amountUnits feeUnits : ℤ) (timestamp : ℕ)
    (counterparty : Text) :
    (encodeAddressTxValue flags amountUnits feeUnits timestamp counterparty).length =
      41 + (utf8 counterparty).length := by
  simp only [encodeAddressTxValue, List.length_cons, List.length_append, i128ToLeBytes_length, toLeBytes_length]
  omega

theorem addressTxKey_length (address : Text) (height position : ℕ) :
    (addressTxKey address height position).length = (addressTxPrefix address).length + 8 := by
  rw [addressTxKey_eq, List.length_append, List.length_append, toBeBytes_length, toBeBytes_length]

theorem utf8_pos {s : Text} (h : s ≠ []) : 0 < (utf8 s).length := by
  rw [List.length_pos_iff]
  exact fun hnil => h (utf8_injective (b := []) hnil)

/-- The fields of a value, cut out of it. -/
theorem value_fields (flags : UInt8) (amountUnits feeUnits : ℤ) (timestamp : ℕ) (counterparty : Text) :
    let value := encodeAddressTxValue flags amountUnits feeUnits timestamp counterparty
    (value.drop 1).take 16 = i128ToLeBytes amountUnits ∧
      (value.drop 17).take 16 = i128ToLeBytes feeUnits ∧ (value.drop 33).take 8 = toLeBytes 8 timestamp ∧
      value.drop 41 = utf8 counterparty := by
  have hamount := i128ToLeBytes_length amountUnits
  have hfee := i128ToLeBytes_length feeUnits
  have htime := toLeBytes_length 8 timestamp
  dsimp only
  rw [encodeAddressTxValue]
  refine ⟨?_, ?_, ?_, ?_⟩
  · simp [hamount]
  · simp [hamount, hfee]
  · simp [List.drop_append, hamount, hfee, htime, List.drop_eq_nil_of_le]
  · simp [List.drop_append, hamount, hfee, htime, List.drop_eq_nil_of_le]

theorem key_fields (address : Text) (height position : ℕ) :
    let key := addressTxKey address height position
    let prefixLen := (addressTxPrefix address).length
    (key.drop prefixLen).take 4 = toBeBytes 4 height ∧ key.drop (prefixLen + 4) = toBeBytes 4 position := by
  have hheight := toBeBytes_length 4 height
  have hposition := toBeBytes_length 4 position
  dsimp only
  rw [addressTxKey_eq]
  constructor
  · simp [hheight]
  · simp [List.drop_append, hheight, List.drop_eq_nil_of_le]

/-- **Decoding inverts the encoding**, where the other party has a name. -/
theorem decode_encode {address : Text} {e : AddressTxEntry} (he : e.InRange) (hname : e.counterparty ≠ []) :
    decodeAddressTxEntry (addressTxPrefix address).length (e.row address).1 (e.row address).2 = .ok e := by
  obtain ⟨hamount, hfee, htime, hparty⟩ :=
    value_fields e.flags e.amountUnits e.feeUnits e.timestamp e.counterparty
  obtain ⟨hheight, hposition⟩ := key_fields address e.height e.position
  have hvalid : ¬ (e.flags = 0 ∨ e.flags &&& ~~~(addressTxFlagSender ||| addressTxFlagRecipient) ≠ 0) := by
    rcases he.flags with h | h | h <;> rw [h] <;> decide
  have hlong : 41 < (e.row address).2.length := by
    rw [AddressTxEntry.row, encodeAddressTxValue_length]
    have := utf8_pos hname
    omega
  rw [decodeAddressTxEntry, bind_unit_eq_ok, bind_unit_eq_ok, ensure_eq_ok, ensure_eq_ok]
  refine ⟨addressTxKey_length _ _ _, hlong, ?_⟩
  simp only [AddressTxEntry.row]
  rw [bind_unit_eq_ok]
  refine ⟨ensure_eq_ok.mpr hvalid, ?_⟩
  rw [hparty, fromUtf8_utf8, hheight, hposition, hamount, hfee, htime,
      i128FromLeBytes_toLeBytes he.amountUnits.1 he.amountUnits.2,
    i128FromLeBytes_toLeBytes he.feeUnits.1 he.feeUnits.2, fromLeBytes_toLeBytes (w := 8) he.timestamp,
    fromBeBytes_toBeBytes (w := 4) he.height, fromBeBytes_toBeBytes (w := 4) he.position]
  rfl

/-- A row whose other party has no name is written, and rejected when it is read. -/
theorem decode_encode_nameless {address : Text} {e : AddressTxEntry} (hname : e.counterparty = []) :
    decodeAddressTxEntry (addressTxPrefix address).length (e.row address).1 (e.row address).2 =
      .error (.valueLength 41) := by
  have hlength : (e.row address).2.length = 41 := by
    rw [AddressTxEntry.row, encodeAddressTxValue_length, hname]
    rfl
  rw [decodeAddressTxEntry, hlength]
  have hkey : (e.row address).1.length = (addressTxPrefix address).length + 8 := addressTxKey_length _ _ _
  rw [hkey]
  simp [ensure]
  rfl

/-! ### The index follows the chain -/

theorem toStorageTransaction_fields (tx : Transaction) :
    (toStorageTransaction E tx).sender = tx.sender ∧ (toStorageTransaction E tx).recipient = tx.recipient ∧
      (toStorageTransaction E tx).amountUnits = tx.amountUnits ∧ (toStorageTransaction E tx).feeUnits = tx.feeUnits ∧
      (toStorageTransaction E tx).timestamp = tx.timestamp := by
  unfold toStorageTransaction
  split
  · exact ⟨rfl, rfl, rfl, rfl, rfl⟩
  · split
    · exact ⟨rfl, rfl, rfl, rfl, rfl⟩
    · split <;> exact ⟨rfl, rfl, rfl, rfl, rfl⟩

theorem addressTxOps_toStorageTransaction (height position : ℕ) (tx : Transaction) :
    addressTxOps height position (toStorageTransaction E tx) = addressTxOps height position tx := by
  obtain ⟨hsender, hrecipient, hamount, hfee, htime⟩ := toStorageTransaction_fields (E := E) tx
  simp only [addressTxOps, hsender, hrecipient, hamount, hfee, htime]

/-- Rows come from fields that the stored form keeps. -/
theorem addressIndexOps_toStorageBlock (b : Block) : addressIndexOps (toStorageBlock E b) = addressIndexOps b := by
  simp only [addressIndexOps, toStorageBlock, List.zipIdx_map, List.flatMap_map]
  refine List.flatMap_congr fun p _ => ?_
  exact addressTxOps_toStorageTransaction _ _ _

theorem flatMap_ops_map_toStorageBlock (blocks : List Block) :
    (blocks.map (toStorageBlock E)).flatMap addressIndexOps = blocks.flatMap addressIndexOps := by
  rw [List.flatMap_map]
  exact List.flatMap_congr fun b _ => addressIndexOps_toStorageBlock b

/-- A row of a block is at the block's height. -/
theorem key_of_mem_ops {b : Block} {op : Bytes × Bytes} (h : op ∈ addressIndexOps b) :
    ∃ address position, position < 2 ^ 32 ∧ op.1 = addressTxKey address b.index position := by
  obtain ⟨⟨tx, position⟩, -, hop⟩ := List.mem_flatMap.mp h
  have hlt : position % 2 ^ 32 < 2 ^ 32 := Nat.mod_lt _ (by norm_num)
  simp only [addressTxOps] at hop
  split at hop
  · rw [List.mem_singleton] at hop
    exact ⟨tx.sender, _, hlt, by rw [hop]⟩
  · rcases List.mem_append.mp hop with hop | hop
    · split at hop
      · rw [List.mem_singleton] at hop
        exact ⟨tx.sender, _, hlt, by rw [hop]⟩
      · cases hop
    · split at hop
      · rw [List.mem_singleton] at hop
        exact ⟨tx.recipient, _, hlt, by rw [hop]⟩
      · cases hop

theorem Stacked.lt_of_mem_take {chain : List Block} (h : Stacked chain) {k : ℕ} {b : Block}
    (hb : b ∈ chain.take k) : b.index < k := by
  obtain ⟨i, hi, hbi⟩ := List.mem_iff_getElem.mp hb
  have hsome : chain[i]? = some b := by
    rw [List.length_take] at hi
    rw [List.getElem?_eq_some_iff]
    exact ⟨by omega, by rw [← hbi, List.getElem_take]⟩
  rw [(h i b hsome).1]
  rw [List.length_take] at hi
  omega

theorem Stacked.le_of_mem_drop {chain : List Block} (h : Stacked chain) {k : ℕ} {b : Block}
    (hb : b ∈ chain.drop k) : k ≤ b.index := by
  obtain ⟨i, hi⟩ := List.mem_iff_getElem?.mp hb
  rw [List.getElem?_drop] at hi
  rw [(h (k + i) b hi).1]
  omega

theorem Stacked.inRange_of_mem {chain : List Block} (h : Stacked chain) {b : Block} (hb : b ∈ chain) :
    b.InRange := by
  obtain ⟨i, hi⟩ := List.mem_iff_getElem?.mp hb
  exact (h i b hi).2.1

/-- A branch may be stored in its stored form. -/
theorem Stacked.store {kept branch : List Block} (h : Stacked (kept ++ branch)) :
    Stacked (kept ++ branch.map (toStorageBlock E)) := by
  intro i b hb
  by_cases hi : i < kept.length
  · rw [List.getElem?_append_left hi] at hb
    exact h i b (by rw [List.getElem?_append_left hi, hb])
  · rw [List.getElem?_append_right (by omega), List.getElem?_map, Option.map_eq_some_iff] at hb
    obtain ⟨c, hc, rfl⟩ := hb
    obtain ⟨hindex, hrange, haddresses⟩ := h i c (by rw [List.getElem?_append_right (by omega), hc])
    refine ⟨hindex, ⟨hrange.index, ?_, ?_, ?_, ?_⟩, ?_⟩
    · rw [toStorageBlock, List.length_map]
      exact hrange.positions
    all_goals
      intro tx htx
      obtain ⟨tx', htx', rfl⟩ := List.mem_map.mp htx
      obtain ⟨hsender, hrecipient, hamount, hfee, htime⟩ := toStorageTransaction_fields (E := E) tx'
    · rw [htime]
      exact hrange.timestamp tx' htx'
    · rw [hamount]
      exact hrange.amountUnits tx' htx'
    · rw [hfee]
      exact hrange.feeUnits tx' htx'
    · rw [hsender, hrecipient]
      exact haddresses tx' htx'

theorem rebuildLoop_eq : ∀ (blocks : List Block) (rows : Ordered Bytes Bytes) (batch : List (Bytes × Bytes))
    (last : Option (ℕ × Hash)), rebuildLoop blocks rows batch last =
      { rows := rows.insertAll (batch ++ blocks.flatMap addressIndexOps)
        indexedTip := (blocks.getLast?.map fun b => (b.index, b.hash)).or last }
  | [], rows, batch, last => by simp [rebuildLoop]
  | block :: blocks, rows, batch, last => by
    have hlast : ((block :: blocks).getLast?.map fun b => (b.index, b.hash)).or last =
        (blocks.getLast?.map fun b => (b.index, b.hash)).or (some (block.index, block.hash)) := by
      cases blocks with
      | nil => rfl
      | cons b bs => simp [List.getLast?_cons]
    rw [rebuildLoop, hlast, List.flatMap_cons, ← List.append_assoc]
    split
    · rw [rebuildLoop_eq blocks, List.nil_append, Ordered.insertAll_append _ (batch ++ _)]
    · rw [rebuildLoop_eq blocks]

theorem foldl_record : ∀ (blocks : List Block) (index : AddressIndex),
    blocks.foldl recordAddressTxEntries index =
      { rows := index.rows.insertAll (blocks.flatMap addressIndexOps)
        indexedTip := (blocks.getLast?.map fun b => (b.index, b.hash)).or index.indexedTip }
  | [], index => rfl
  | block :: blocks, index => by
    rw [List.foldl_cons, foldl_record blocks, recordAddressTxEntries, List.flatMap_cons, Ordered.insertAll_append]
    congr 1
    cases blocks with
    | nil => rfl
    | cons b bs => simp [List.getLast?_cons]

theorem foldl_remove : ∀ (blocks : List Block) (index : AddressIndex),
    blocks.foldl removeAddressTxEntries index =
      { index with rows := index.rows.eraseAll ((blocks.flatMap addressIndexOps).map Prod.fst) }
  | [], index => rfl
  | block :: blocks, index => by
    rw [List.foldl_cons, foldl_remove blocks, removeAddressTxEntries, List.flatMap_cons, List.map_append,
      Ordered.eraseAll_append]

/-- The index holds the rows of the chain and is at its tip. -/
structure IndexCurrent (s : ChainIndex) : Prop where
  chain : Stacked s.chain
  rows : s.index.rows = Ordered.empty.insertAll (s.chain.flatMap addressIndexOps)
  indexedTip : s.index.indexedTip = s.chain.getLast?.map fun b => (b.index, b.hash)

theorem IndexCurrent.built {chain : List Block} (h : Stacked chain) :
    IndexCurrent { chain, index := rebuildAddressTxIndex chain } where
  chain := h
  rows := by rw [rebuildAddressTxIndex, rebuildLoop_eq, List.nil_append]
  indexedTip := by rw [rebuildAddressTxIndex, rebuildLoop_eq, Option.or_none]

theorem IndexCurrent.extend {s : ChainIndex} {block : Block} (h : IndexCurrent s)
    (hblock : Stacked (s.chain ++ [block])) : IndexCurrent (s.extend E block) where
  chain := hblock.store
  rows := by
    rw [ChainIndex.extend, recordAddressTxEntries, List.flatMap_append, Ordered.insertAll_append, ← h.rows,
      List.flatMap_singleton, addressIndexOps_toStorageBlock]
  indexedTip := by
    rw [ChainIndex.extend, recordAddressTxEntries, List.getLast?_append, List.getLast?_singleton, Option.some_or,
      Option.map_some]
    rfl

/-- What the reverted blocks had added is taken away: no kept block has a row at their heights. -/
theorem rows_revert {chain : List Block} (h : Stacked chain) (forkStart : ℕ) :
    (Ordered.empty.insertAll (chain.flatMap addressIndexOps)).eraseAll
        (((chain.drop forkStart).flatMap addressIndexOps).map Prod.fst) =
      Ordered.empty.insertAll ((chain.take forkStart).flatMap addressIndexOps) := by
  have hsplit : chain.flatMap addressIndexOps =
      (chain.take forkStart).flatMap addressIndexOps ++ (chain.drop forkStart).flatMap addressIndexOps := by
    rw [← List.flatMap_append, List.take_append_drop]
  rw [hsplit, Ordered.insertAll_append]
  apply Ordered.eraseAll_insertAll
  intro e he hkey
  have hkept : e ∈ (chain.take forkStart).flatMap addressIndexOps := by
    rcases Ordered.mem_of_mem_insertAll he with he | he
    · exact he
    · cases he
  obtain ⟨op, hop, hopkey⟩ := List.mem_map.mp hkey
  obtain ⟨kept, hkeptmem, hkept⟩ := List.mem_flatMap.mp hkept
  obtain ⟨reverted, hrevertedmem, hreverted⟩ := List.mem_flatMap.mp hop
  obtain ⟨address, position, hposition, hkeykept⟩ := key_of_mem_ops hkept
  obtain ⟨address', position', hposition', hkeyreverted⟩ := key_of_mem_ops hreverted
  have hlow := h.lt_of_mem_take hkeptmem
  have hhigh := h.le_of_mem_drop hrevertedmem
  have hkeptrange := h.inRange_of_mem (List.mem_of_mem_take hkeptmem)
  have hrevertedrange := h.inRange_of_mem (List.mem_of_mem_drop hrevertedmem)
  have hkeys : addressTxKey address kept.index position = addressTxKey address' reverted.index position' := by
    rw [← hkeykept, ← hopkey, hkeyreverted]
  have hsame := (addressTxKey_inj hkeptrange.index hrevertedrange.index hposition hposition' hkeys).2.1
  omega

theorem IndexCurrent.adoptBranch {s : ChainIndex} {first : Block} {rest : List Block} (h : IndexCurrent s)
    (hbranch : Stacked (s.chain.take first.index ++ first :: rest)) :
    IndexCurrent (s.adoptBranch E (first :: rest)) where
  chain := hbranch.store
  rows := by
    rw [ChainIndex.adoptBranch, foldl_record, foldl_remove, h.rows, rows_revert h.chain, List.flatMap_append,
      Ordered.insertAll_append, flatMap_ops_map_toStorageBlock]
  indexedTip := by
    have hlast : (first :: rest).getLast? = some ((first :: rest).getLast (List.cons_ne_nil _ _)) :=
      List.getLast?_eq_some_getLast _
    rw [ChainIndex.adoptBranch, foldl_record, List.getLast?_append, List.getLast?_map, hlast]
    rfl

/-- At the tip there is nothing to do. -/
theorem IndexCurrent.ensure {s : ChainIndex} (h : IndexCurrent s) :
    ensureAddressTxIndex s.chain s.index = s.index := by
  unfold ensureAddressTxIndex
  split
  · rfl
  · rename_i hne
    have hlast : s.chain.getLast? = s.chain[s.chain.length - 1]? := List.getLast?_eq_getElem?
    rw [h.indexedTip, hlast]
    have hlt : s.chain.length - 1 < s.chain.length := by
      rw [List.isEmpty_iff, ← List.length_eq_zero_iff] at hne
      omega
    have htip : s.chain[s.chain.length - 1]? = some s.chain[s.chain.length - 1] := List.getElem?_eq_getElem hlt
    have hindex := (h.chain _ _ htip).1
    rw [htip]
    simp only [Option.map_some]
    rw [hindex, htip]
    simp only [if_true]
    rw [List.drop_eq_nil_of_le (by omega), List.foldl_nil]

theorem CanonicalRun.current {s : ChainIndex} (h : CanonicalRun E s) : IndexCurrent s := by
  induction h with
  | built hchain => exact .built hchain
  | extend _ hblock ih => exact ih.extend hblock
  | adoptBranch _ hbranch ih => exact ih.adoptBranch hbranch
  | restart _ ih =>
    rw [ih.ensure]
    exact ih

/-- **The rows are those of a rebuild**, after any history. -/
theorem CanonicalRun.rows_eq_rebuild {s : ChainIndex} (h : CanonicalRun E s) :
    s.index.rows = (rebuildAddressTxIndex s.chain).rows := by
  rw [h.current.rows, (IndexCurrent.built h.current.chain).rows]

end Alphanumeric
