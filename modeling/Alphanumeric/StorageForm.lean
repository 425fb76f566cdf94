/-
# The stored form of a block

A block is stored with its signatures cut to 64 bytes (`to_storage_block` in `src/a9/blockchain.rs`).
What the chain computes from a block is the same for the stored form: the Merkle root, whose
leaves are taken in the stored form, the header hash, the weight, which charges every transaction
a full witness, the ids, the address index's rows and the replay. The stored form of a block that
was accepted with full signatures passes the lenient checks wherever the block passes the
strict ones, and storing it again changes nothing.

Key definitions: `MlDsa87`, `Env.withMldsa`, `Witnessed`, `StorageEquivalent`.
Key theorems: `hexDecode_hexEncode`, `merkleForm_toStorageTransaction`, `Witnessed.receipt`,
`storage_form_validates`, `storage_form_equivalent`.
-/
import Alphanumeric.Settled
import Alphanumeric.AddressIndex

namespace Alphanumeric

open Guard BlockchainError

variable {E : Env}

/-! ### Hexadecimal text -/

theorem hexVal_hexDigit : ∀ n < 16, hexVal (hexDigit n) = some n := by decide

theorem isLowerHexChar_hexDigit : ∀ n < 16, isLowerHexChar (hexDigit n) = true := by decide

theorem hexDecode_hexEncode : ∀ bytes : List UInt8, hexDecode (hexEncode bytes) = some bytes
  | [] => rfl
  | b :: bytes => by
    have hb := b.toNat_lt
    have hhigh := hexVal_hexDigit (b.toNat / 16) (by omega)
    have hlow := hexVal_hexDigit (b.toNat % 16) (by omega)
    have hrest := hexDecode_hexEncode bytes
    have hcons : hexEncode (b :: bytes) =
        hexDigit (b.toNat / 16) :: hexDigit (b.toNat % 16) :: hexEncode bytes := rfl
    have hbyte : b.toNat / 16 * 16 + b.toNat % 16 = b.toNat := by omega
    rw [hcons, hexDecode, hhigh, hlow, hrest]
    simp only [hbyte, UInt8.ofNat_toNat]

theorem hexEncode_lower (bytes : List UInt8) : (hexEncode bytes).all isLowerHexChar = true := by
  rw [List.all_eq_true]
  intro c hc
  obtain ⟨b, -, hcb⟩ := List.mem_flatMap.mp hc
  have hb := b.toNat_lt
  rcases List.mem_cons.mp hcb with rfl | hcb
  · exact isLowerHexChar_hexDigit _ (by omega)
  · rw [List.mem_singleton.mp hcb]
    exact isLowerHexChar_hexDigit _ (by omega)

theorem hexEncode_textLen (bytes : List UInt8) : textLen (hexEncode bytes) = 2 * bytes.length := by
  rw [textLen_of_lowerHex (hexEncode_lower bytes), hexEncode_length]

/-- What `hex::encode` writes has the length that the shape rules ask for. -/
theorem hexField_hexEncode (bytes : List UInt8) : hexFieldHasDecodedLen (hexEncode bytes) bytes.length = true := by
  rw [hexFieldHasDecodedLen, hexEncode_textLen, hexEncode_lower, Nat.mul_comm]
  simp

/-! ### One transaction -/

/-- What `src/a9/mldsa.rs` calls of the ML-DSA-87 crate: whether a signature decodes, and whether it
verifies for a key and a message. Every key of the right length decodes. -/
structure MlDsa87 where
  decodesSignature : List UInt8 → Bool
  verifies : List UInt8 → List UInt8 → List UInt8 → Bool

/-- `mldsa::validate_public_key`. -/
def MlDsa87.validatePublicKey (publicKey : List UInt8) : Bool := publicKey.length == publicKeyBytes

/-- `mldsa::verify`: the key is decoded, then the signature, then it is verified. -/
def MlDsa87.verify (C : MlDsa87) (message signature publicKey : List UInt8) : Bool :=
  validatePublicKey publicKey && (signature.length == signatureBytes && C.decodesSignature signature) &&
    C.verifies publicKey message signature

/-- The environment with ML-DSA as `src/a9/mldsa.rs` has it. -/
def Env.withMldsa (E : Env) (C : MlDsa87) : Env :=
  { E with mldsaVerify := C.verify, mldsaValidatePublicKey := MlDsa87.validatePublicKey }

/-- A key that verifies a signature is one that validates. -/
def KeyDecodedFirst (E : Env) : Prop :=
  ∀ message signature key, E.mldsaVerify message signature key = true → E.mldsaValidatePublicKey key = true

theorem keyDecodedFirst_withMldsa (E : Env) (C : MlDsa87) : KeyDecodedFirst (E.withMldsa C) := by
  intro message signature key h
  have hverify : C.verify message signature key = true := h
  rw [MlDsa87.verify, Bool.and_eq_true, Bool.and_eq_true] at hverify
  exact hverify.1.1

/-- What the strict check establishes of a regular transaction. -/
structure Witnessed (E : Env) (tx : Transaction) (sigBytes keyBytes : List UInt8) : Prop where
  signature : tx.sigBytes = some sigBytes
  long : 64 < sigBytes.length
  sigHash : tx.sigHash = some (signatureHashHex E sigBytes)
  pubKey : tx.pubKey.bind hexDecode = some keyBytes
  verified : E.mldsaVerify (getMessage E tx) sigBytes keyBytes = true
  owner : derivedAddress E keyBytes = tx.sender

theorem witnessed_of_strict {tx : Transaction} (hcb : tx.isCoinbase = false)
    (h : validateTransactionWitness E .requireFull tx = .ok ()) : ∃ sigBytes keyBytes,
        Witnessed E tx sigBytes keyBytes := by
  unfold validateTransactionWitness at h
  simp only [bind_eq_ok, need_eq_ok, ensure_eq_ok, exists_const, true_implies] at h
  obtain ⟨-, ⟨-, hhash⟩, sigBytes, hsig, hlong, hverify⟩ := h
  rw [if_pos hlong] at hverify
  unfold verifyTransactionSignature at hverify
  rw [Transaction.isSystem_eq_isCoinbase, hcb, if_neg Bool.false_ne_true] at hverify
  simp only [bind_eq_ok, need_eq_ok, ensure_eq_ok, exists_const] at hverify
  obtain ⟨sigHex, hsigHex, bytes, hbytes, -, pubKey, hpubKey, hall, keyBytes, hkeyBytes, hverified, howner⟩ := hverify
  have hsame : bytes = sigBytes := by
    rw [Transaction.sigBytes, hsigHex, Option.bind_some, hbytes] at hsig
    exact Option.some.inj hsig
  subst hsame
  obtain ⟨sigHash, hsigHash⟩ := Option.isSome_iff_exists.mp hhash
  refine ⟨bytes, keyBytes, hsig, hlong, ?_, ?_, hverified, howner⟩
  · rw [hsigHash, Option.all_some, beq_iff_eq] at hall
    rw [hsigHash, hall]
  · rw [hpubKey, Option.bind_some, hkeyBytes]

namespace Witnessed

variable {tx : Transaction} {sigBytes keyBytes : List UInt8}

theorem toStorage (h : Witnessed E tx sigBytes keyBytes) (hcb : tx.isCoinbase = false) :
    toStorageTransaction E tx =
      { tx with signature := some (hexEncode (sigBytes.take 64)), sigHash := some (signatureHashHex E sigBytes) } := by
  unfold toStorageTransaction
  rw [hcb, if_neg Bool.false_ne_true, h.sigHash]
  simp only [withTruncatedSignature, h.signature, Option.map_some]

theorem toStorage_sigBytes (h : Witnessed E tx sigBytes keyBytes) (hcb : tx.isCoinbase = false) :
    (toStorageTransaction E tx).sigBytes = some (sigBytes.take 64) := by
  rw [h.toStorage hcb, Transaction.sigBytes, Option.bind_some, hexDecode_hexEncode]

theorem take_length (h : Witnessed E tx sigBytes keyBytes) : (sigBytes.take 64).length = 64 := by
  have := h.long
  rw [List.length_take]
  omega

/-- Cutting a cut signature changes nothing. -/
theorem toStorage_toStorage (h : Witnessed E tx sigBytes keyBytes) (hcb : tx.isCoinbase = false) :
    toStorageTransaction E (toStorageTransaction E tx) = toStorageTransaction E tx := by
  have hbytes := h.toStorage_sigBytes hcb
  rw [h.toStorage hcb] at hbytes ⊢
  unfold toStorageTransaction
  rw [Transaction.isCoinbase] at hcb
  rw [Transaction.isCoinbase, hcb, if_neg Bool.false_ne_true]
  simp only [withTruncatedSignature, hbytes, Option.map_some, List.take_take, Nat.min_self]

/-- The Merkle leaf is the stored form's. -/
theorem merkleForm_toStorage (h : Witnessed E tx sigBytes keyBytes) (hcb : tx.isCoinbase = false) :
    merkleForm E (toStorageTransaction E tx) = merkleForm E tx := by
  have hfull : merkleForm E tx = toStorageTransaction E tx := by
    unfold merkleForm toStorageTransaction
    rw [hcb, if_neg Bool.false_ne_true, if_neg Bool.false_ne_true, h.sigHash]
  have hstored : merkleForm E (toStorageTransaction E tx) = toStorageTransaction E (toStorageTransaction E tx) := by
    rw [h.toStorage hcb]
    rw [Transaction.isCoinbase] at hcb
    unfold merkleForm toStorageTransaction
    simp only [Transaction.isCoinbase, hcb, if_neg Bool.false_ne_true]
  rw [hstored, h.toStorage_toStorage hcb, hfull]

/-- **The cut transaction is a receipt.** The checks of a truncated transaction hold of it. -/
theorem receipt (hE : KeyDecodedFirst E) (h : Witnessed E tx sigBytes keyBytes) (hcb : tx.isCoinbase = false) :
    validateTransactionWitness E .allowTruncatedStored (toStorageTransaction E tx) = .ok () := by
  have hlen := h.take_length
  obtain ⟨pubKey, hpubKey, hkeyBytes⟩ := Option.bind_eq_some_iff.mp h.pubKey
  have hne : sigBytes.take 64 ≠ [] := by
    intro hnil
    rw [hnil] at hlen
    cases hlen
  have hhash : textLen (signatureHashHex E sigBytes) = 64 := by
    rw [signatureHashHex, hexEncode_textLen, Hash.bytes, toBeBytes_length]
  have hdecodes : (hexDecode (signatureHashHex E sigBytes)).isSome := by
    rw [signatureHashHex, hexDecode_hexEncode, Option.isSome_some]
  rw [h.toStorage hcb]
  rw [Transaction.isCoinbase] at hcb
  unfold validateTransactionWitness verifyTransactionReceiptFields
  simp only [bind_eq_ok, need_eq_ok, ensure_eq_ok, exists_const, Transaction.isSystem_eq_isCoinbase,
    Transaction.isCoinbase, hcb, hpubKey, Option.isSome_some, reduceCtorEq, false_implies, true_and, and_true]
  refine ⟨sigBytes.take 64, hexDecode_hexEncode _, ?_⟩
  rw [if_neg (by omega)]
  simp only [if_false, bind_eq_ok, need_eq_ok, ensure_eq_ok, exists_const]
  exact ⟨_, rfl, _, hexDecode_hexEncode _, hne, _, rfl, _, hkeyBytes, hE _ _ _ h.verified, h.owner, _, rfl,
      hhash, hdecodes⟩

end Witnessed

/-! ### Shape rules -/

theorem toStorageTransaction_coinbase {tx : Transaction} (hcb : tx.isCoinbase = true) :
    toStorageTransaction E tx = tx := by
  unfold toStorageTransaction
  rw [hcb, if_pos rfl]

theorem isCoinbase_toStorageTransaction (tx : Transaction) :
    (toStorageTransaction E tx).isCoinbase = tx.isCoinbase := by
  rw [Transaction.isCoinbase, (toStorageTransaction_fields tx).1, Transaction.isCoinbase]

/-- A transaction of canonical shape keeps one when its signature is cut. -/
theorem shape_toStorageTransaction {tx : Transaction}
    (hwitness : tx.isCoinbase = false → ∃ sigBytes keyBytes, Witnessed E tx sigBytes keyBytes)
    (h : validateActivatedTransactionShape .requireFull tx = .ok ()) :
    validateActivatedTransactionShape .allowTruncatedStored (toStorageTransaction E tx) = .ok () := by
  cases hcb : tx.isCoinbase with
  | true =>
    rw [toStorageTransaction_coinbase hcb]
    unfold validateActivatedTransactionShape at h ⊢
    rwa [Transaction.isSystem_eq_isCoinbase, hcb, if_pos rfl] at h ⊢
  | false =>
    obtain ⟨sigBytes, keyBytes, hw⟩ := hwitness hcb
    have hfield := hexField_hexEncode (sigBytes.take 64)
    rw [hw.take_length] at hfield
    rw [hw.toStorage hcb]
    unfold validateActivatedTransactionShape at h ⊢
    rw [Transaction.isSystem_eq_isCoinbase, hcb, if_neg Bool.false_ne_true] at h
    rw [Transaction.isCoinbase] at hcb
    rw [Transaction.isSystem_eq_isCoinbase, Transaction.isCoinbase, hcb, if_neg Bool.false_ne_true]
    simp only [bind_eq_ok, need_eq_ok, ensure_eq_ok, exists_const] at h ⊢
    obtain ⟨hrecipient, hsender, pubKey, hpubKey, hkeyLen, sigHash, hsigHash, hhashLen, -⟩ := h
    refine ⟨hrecipient, hsender, pubKey, hpubKey, hkeyLen, sigHash, ?_, hhashLen, _, rfl, Or.inr ⟨trivial, hfield⟩⟩
    rw [← hsigHash, hw.sigHash]

theorem fullWitnessWeight_toStorageBlock (b : Block) :
    fullWitnessWeight (toStorageBlock E b) = fullWitnessWeight b := by
  have htx : ∀ tx, fullWitnessTransactionWeight (toStorageTransaction E tx) = fullWitnessTransactionWeight tx := by
    intro tx
    obtain ⟨hsender, hrecipient, -⟩ := toStorageTransaction_fields (E := E) tx
    rw [fullWitnessTransactionWeight, fullWitnessTransactionWeight, Transaction.isSystem, Transaction.isSystem, hsender,
      hrecipient]
  rw [fullWitnessWeight, fullWitnessWeight, toStorageBlock, List.map_map]
  simp only [Function.comp_def, htx]

/-! ### Reward rules -/

theorem coinbases_toStorageBlock : ∀ txs : List Transaction,
    (txs.map (toStorageTransaction E)).filter (·.isCoinbase) = txs.filter (·.isCoinbase)
  | [] => rfl
  | tx :: txs => by
    rw [List.map_cons, List.filter_cons, List.filter_cons, isCoinbase_toStorageTransaction,
        coinbases_toStorageBlock txs]
    cases hcb : tx.isCoinbase with
    | true => rw [if_pos rfl, if_pos rfl, toStorageTransaction_coinbase hcb]
    | false => rfl

theorem regularFees_toStorageBlock : ∀ txs : List Transaction,
    regularFees (txs.map (toStorageTransaction E)) = regularFees txs
  | [] => rfl
  | tx :: txs => by
    have ih := regularFees_toStorageBlock txs
    have hfee := (toStorageTransaction_fields (E := E) tx).2.2.2.1
    unfold regularFees at ih ⊢
    rw [List.map_cons, List.filter_cons, List.filter_cons, isCoinbase_toStorageTransaction]
    cases htx : tx.isCoinbase with
    | true => exact ih
    | false =>
      simp only [Bool.not_false, if_true, List.map_cons, hfee]
      rw [ih]

theorem rewardRules_toStorageBlock (s : ChainState) (activationHeight : ℕ) (b : Block) :
    validateBlockRewardRulesAt E s activationHeight (toStorageBlock E b) =
      validateBlockRewardRulesAt E s activationHeight b := by
  have hhead : (b.transactions.map (toStorageTransaction E)).head?.map (·.sender) =
      b.transactions.head?.map (·.sender) := by
    rw [List.head?_map, Option.map_map]
    congr 1
    funext tx
    exact (toStorageTransaction_fields tx).1
  have hfees := regularFees_toStorageBlock (E := E) b.transactions
  have haggregate : aggregateRegularFeeUnits (b.transactions.map (toStorageTransaction E)) =
      aggregateRegularFeeUnits b.transactions := by
    simp only [aggregateRegularFeeUnits, hfees]
  have hreward : calculateBlockRewardUnits E s (toStorageBlock E b) = calculateBlockRewardUnits E s b := by
    simp only [calculateBlockRewardUnits, toStorageBlock, hfees, haggregate]
  have hadmissible : ∀ expected, feeAccountingIsAdmissibleForBlock E s (toStorageBlock E b) expected =
      feeAccountingIsAdmissibleForBlock E s b expected := by
    intro expected
    simp only [feeAccountingIsAdmissibleForBlock, toStorageBlock, haggregate]
  have hcoinbases := coinbases_toStorageBlock (E := E) b.transactions
  simp only [validateBlockRewardRulesAt, hreward, hadmissible]
  simp only [toStorageBlock, hcoinbases, hhead]
  rfl

/-! ### Blocks -/

/-- A block whose regular transactions passed the strict check. -/
theorem witnessed_of_validate {now : ℕ} {s : ChainState} {b : Block}
    (h : validateBlockInternal E now s .requireFull b = .ok ()) {tx : Transaction} (htx : tx ∈ b.transactions)
    (hcb : tx.isCoinbase = false) : ∃ sigBytes keyBytes, Witnessed E tx sigBytes keyBytes := by
  have hv := (validateBlockInternal_eq_ok.mp h).2.2.2 tx htx
  unfold validateBlockTransaction at hv
  rw [hcb, if_neg Bool.false_ne_true] at hv
  simp only [bind_unit_eq_ok] at hv
  exact witnessed_of_strict hcb hv.2.2

theorem merkleRoot_toStorageBlock {b : Block}
    (h : ∀ tx ∈ b.transactions, tx.isCoinbase = false → ∃ sigBytes keyBytes, Witnessed E tx sigBytes keyBytes) :
    calculateMerkleRoot E (toStorageBlock E b).transactions = calculateMerkleRoot E b.transactions := by
  rw [calculateMerkleRoot, calculateMerkleRoot, toStorageBlock, List.map_map]
  congr 1
  refine List.map_congr_left fun tx htx => ?_
  rw [Function.comp_apply, calculateMerkleLeafHash, calculateMerkleLeafHash]
  cases hcb : tx.isCoinbase with
  | true => rw [toStorageTransaction_coinbase hcb]
  | false =>
    obtain ⟨sigBytes, keyBytes, hw⟩ := h tx htx hcb
    rw [hw.merkleForm_toStorage hcb]

theorem toStorageBlock_idem {b : Block}
    (h : ∀ tx ∈ b.transactions, tx.isCoinbase = false → ∃ sigBytes keyBytes, Witnessed E tx sigBytes keyBytes) :
    toStorageBlock E (toStorageBlock E b) = toStorageBlock E b := by
  simp only [toStorageBlock, List.map_map, Block.mk.injEq, true_and, and_true]
  refine List.map_congr_left fun tx htx => ?_
  rw [Function.comp_apply]
  cases hcb : tx.isCoinbase with
  | true => rw [toStorageTransaction_coinbase hcb, toStorageTransaction_coinbase hcb]
  | false =>
    obtain ⟨sigBytes, keyBytes, hw⟩ := h tx htx hcb
    exact hw.toStorage_toStorage hcb

/-! ### The stored form validates -/

/-- The shape rules of the stored form. -/
theorem shapeRules_toStorageBlock {b : Block}
    (hwitness : ∀ tx ∈ b.transactions, tx.isCoinbase = false → ∃ sigBytes keyBytes, Witnessed E tx sigBytes keyBytes)
    {activationHeight : ℕ} (h : validateBlockShapeRulesAt .requireFull activationHeight b = .ok ()) :
    validateBlockShapeRulesAt .allowTruncatedStored activationHeight (toStorageBlock E b) = .ok () := by
  rw [validateBlockShapeRulesAt] at h ⊢
  rw [toStorageBlock_index]
  by_cases hheight : b.index < activationHeight
  · rw [if_pos hheight]
  · rw [if_neg hheight, validateActivatedBlockShape, bind_unit_eq_ok, checkAll_eq_ok, ensure_eq_ok] at h
    rw [if_neg hheight, validateActivatedBlockShape, bind_unit_eq_ok, checkAll_eq_ok, ensure_eq_ok,
      fullWitnessWeight_toStorageBlock]
    refine ⟨fun tx' htx' => ?_, h.2⟩
    obtain ⟨tx, htx, rfl⟩ := List.mem_map.mp htx'
    exact shape_toStorageTransaction (hwitness tx htx) (h.1 tx htx)

/-- The checks of one stored transaction. -/
theorem blockTransaction_toStorageBlock (hE : KeyDecodedFirst E) {b : Block} {tx : Transaction}
    (hwitness : tx.isCoinbase = false → ∃ sigBytes keyBytes, Witnessed E tx sigBytes keyBytes)
    (h : validateBlockTransaction E .requireFull b tx = .ok ()) :
    validateBlockTransaction E .allowTruncatedStored (toStorageBlock E b) (toStorageTransaction E tx) = .ok () := by
  unfold validateBlockTransaction at h ⊢
  rw [isCoinbase_toStorageTransaction]
  cases hcb : tx.isCoinbase with
  | true => rfl
  | false =>
    rw [hcb, if_neg Bool.false_ne_true] at h
    obtain ⟨sigBytes, keyBytes, hw⟩ := hwitness hcb
    simp only [bind_unit_eq_ok, ensure_eq_ok] at h
    rw [if_neg Bool.false_ne_true]
    simp only [bind_unit_eq_ok, ensure_eq_ok]
    refine ⟨?_, ?_, hw.receipt hE hcb⟩
    · rw [hw.toStorage hcb]
      exact h.1
    · rw [hw.toStorage hcb]
      exact h.2.1

/-- **A stored block is judged as the full one.** A block that was accepted with full signatures somewhere is judged
by every node, at every time, in its stored form under the lenient mode as in full under the strict one. -/
theorem storage_form_validates (hE : KeyDecodedFirst E) {now : ℕ} {s : ChainState} {b : Block}
    (h : validateBlockInternal E now s .requireFull b = .ok ()) (now' : ℕ) (s' : ChainState) :
    validateBlockInternal E now' s' .allowTruncatedStored (toStorageBlock E b) =
      validateBlockInternal E now' s' .requireFull b := by
  have hwitness : ∀ tx ∈ b.transactions, tx.isCoinbase = false → ∃ sigBytes keyBytes,
      Witnessed E tx sigBytes keyBytes :=
    fun _ htx => witnessed_of_validate h htx
  obtain ⟨hstand, -, -, htxs⟩ := validateBlockInternal_eq_ok.mp h
  simp only [validateStandalone, bind_unit_eq_ok] at hstand
  have hshape : validateBlockShapeRulesAt .allowTruncatedStored feeSystemActivationHeight (toStorageBlock E b) =
      .ok () :=
    shapeRules_toStorageBlock hwitness hstand.2.2.1
  have hstandalone : validateStandalone E now' .allowTruncatedStored (toStorageBlock E b) =
      validateStandalone E now' .requireFull b := by
    have hheader : validateHeader E now' (toStorageBlock E b) = validateHeader E now' b := rfl
    have hlength : (toStorageBlock E b).transactions.length = b.transactions.length := List.length_map _
    have hdup : hasDuplicateRegularTx E (toStorageBlock E b).transactions = hasDuplicateRegularTx E b.transactions := by
      rw [hasDuplicateRegularTx, hasDuplicateRegularTx, regularIds_toStorageBlock]
    simp only [validateStandalone, hheader, hlength, hshape, hstand.2.2.1, hdup, merkleRoot_toStorageBlock hwitness]
    rfl
  have hparent : validateParent s' (toStorageBlock E b) = validateParent s' b := rfl
  have htransactions : checkAll (validateBlockTransaction E .allowTruncatedStored (toStorageBlock E b))
      (toStorageBlock E b).transactions = checkAll (validateBlockTransaction E .requireFull b) b.transactions := by
    rw [checkAll_eq_ok (u := ()) |>.mpr htxs, checkAll_eq_ok]
    intro tx' htx'
    obtain ⟨tx, htx, rfl⟩ := List.mem_map.mp htx'
    exact blockTransaction_toStorageBlock hE (hwitness tx htx) (htxs tx htx)
  rw [validateBlockInternal, validateBlockInternal, hstandalone, hparent, rewardRules_toStorageBlock, htransactions]

/-- What the stored form shares with the block, and how it is judged. -/
structure StorageEquivalent (E : Env) (b : Block) : Prop where
  merkleRoot : calculateMerkleRoot E (toStorageBlock E b).transactions = calculateMerkleRoot E b.transactions
  headerHash : calculateHashForBlock E (toStorageBlock E b) = calculateHashForBlock E b
  weight : fullWitnessWeight (toStorageBlock E b) = fullWitnessWeight b
  ids : (toStorageBlock E b).transactions.map (getTxId E) = b.transactions.map (getTxId E)
  rows : addressIndexOps (toStorageBlock E b) = addressIndexOps b
  replay : ∀ st, replayApplyBlockChecked (toStorageBlock E b).index (toStorageBlock E b).transactions st =
    replayApplyBlockChecked b.index b.transactions st
  shape : feeSystemActivationHeight ≤ b.index →
    validateActivatedBlockShape .allowTruncatedStored (toStorageBlock E b) = .ok ()
  idempotent : toStorageBlock E (toStorageBlock E b) = toStorageBlock E b
  validates : ∀ (now : ℕ)
      (s : ChainState), validateBlockInternal E now s .allowTruncatedStored (toStorageBlock E b) = .ok () ↔
    validateBlockInternal E now s .requireFull b = .ok ()

theorem StorageEquivalent.of_validate (hE : KeyDecodedFirst E) {now : ℕ} {s : ChainState} {b : Block}
    (h : validateBlockInternal E now s .requireFull b = .ok ()) : StorageEquivalent E b := by
  have hwitness : ∀ tx ∈ b.transactions, tx.isCoinbase = false → ∃ sigBytes keyBytes,
      Witnessed E tx sigBytes keyBytes :=
    fun _ htx => witnessed_of_validate h htx
  have hstand := (validateBlockInternal_eq_ok.mp h).1
  simp only [validateStandalone, bind_unit_eq_ok] at hstand
  have hid : ∀ tx, getTxId E (toStorageTransaction E tx) = getTxId E tx := by
    intro tx
    obtain ⟨hsender, hrecipient, hamount, hfee, htime⟩ := toStorageTransaction_fields (E := E) tx
    rw [getTxId, getTxId, hsender, hrecipient, hamount, hfee, htime]
  exact
    { merkleRoot := merkleRoot_toStorageBlock hwitness
      headerHash := rfl
      weight := fullWitnessWeight_toStorageBlock b
      ids := by
        rw [toStorageBlock, List.map_map]
        exact List.map_congr_left fun tx _ => hid tx
      rows := addressIndexOps_toStorageBlock b
      replay := fun st => replayApplyTxs_stored _ _ _
      shape := fun hheight => by
        have hshape := shapeRules_toStorageBlock hwitness hstand.2.2.1
        rwa [validateBlockShapeRulesAt, toStorageBlock_index, if_neg (by omega)] at hshape
      idempotent := toStorageBlock_idem hwitness
      validates := fun now' s' => by rw [storage_form_validates hE h] }

/-- **The stored form is equivalent to the full block**, for every block accepted with full signatures. -/
theorem storage_form_equivalent {E : Env} {C : MlDsa87} {now : ℕ} {s : ChainState} {b : Block}
    (h : validateBlockInternal (E.withMldsa C) now s .requireFull b = .ok ()) : StorageEquivalent (E.withMldsa C) b :=
  StorageEquivalent.of_validate (keyDecodedFirst_withMldsa E C) h

/-! ### A block with a signed payment -/

/-- Digests that are the same for every input, and a scheme that takes every signature of the right length. -/
def flatEnv : Env :=
  Env.withMldsa { toyEnv with sha256 := fun _ => zeroHash, blake3 := fun _ => zeroHash }
    { decodesSignature := fun _ => true, verifies := fun _ _ _ => true }

def signedKey : List UInt8 := List.replicate publicKeyBytes 7

def signedBytes : List UInt8 := List.replicate signatureBytes 3

/-- A payment with a key and a signature of full length. -/
def signedPay : Transaction :=
  { sender := derivedAddress flatEnv signedKey, recipient := Toy.bob, feeUnits := 0, amountUnits := 1000
    timestamp := genesisLaunchTimestamp + 8, signature := some (hexEncode signedBytes),
        pubKey := some (hexEncode signedKey)
    sigHash := some (signatureHashHex flatEnv signedBytes) }

def signedBlock : Block :=
  sealBlock flatEnv (genesisLaunchBlock flatEnv) 5 0 [toyReward Toy.alice genesisLaunchTimestamp, signedPay]

theorem signedPay_witness : validateTransactionWitness flatEnv .requireFull signedPay = .ok () := by
  have hsignature : signedPay.signature = some (hexEncode signedBytes) := rfl
  have hpubKey : signedPay.pubKey = some (hexEncode signedKey) := rfl
  have hsigHash : signedPay.sigHash = some (signatureHashHex flatEnv signedBytes) := rfl
  have hbytes : signedPay.sigBytes = some signedBytes := by
    rw [Transaction.sigBytes, hsignature, Option.bind_some, hexDecode_hexEncode]
  have hlength : signedBytes.length = signatureBytes := List.length_replicate
  have hkeyLength : signedKey.length = publicKeyBytes := List.length_replicate
  have hlong : 64 < signedBytes.length := by
    rw [hlength]
    decide
  have hne : signedBytes ≠ [] := by
    intro hnil
    rw [hnil] at hlong
    cases hlong
  have hverify : flatEnv.mldsaVerify (getMessage flatEnv signedPay) signedBytes signedKey = true := by
    have hscheme : flatEnv.mldsaVerify = MlDsa87.verify ⟨fun _ => true, fun _ _ _ => true⟩ := rfl
    rw [hscheme, MlDsa87.verify, MlDsa87.validatePublicKey, hlength, hkeyLength]
    rfl
  have hsystem : signedPay.isSystem = false := by decide +kernel
  unfold validateTransactionWitness verifyTransactionSignature
  simp only [bind_eq_ok, need_eq_ok, ensure_eq_ok, exists_const, true_implies]
  refine ⟨rfl, ⟨rfl, rfl⟩, signedBytes, hbytes, hlong, ?_⟩
  rw [if_pos hlong, hsystem, if_neg Bool.false_ne_true]
  simp only [bind_eq_ok, need_eq_ok, ensure_eq_ok, exists_const]
  refine ⟨_, hsignature, signedBytes, hexDecode_hexEncode _, hne, _, hpubKey, ?_, signedKey,
      hexDecode_hexEncode _, hverify, rfl⟩
  rw [hsigHash, Option.all_some, beq_self_eq_true]

/-- `storage_form_equivalent` on a block that confirms a payment. -/
theorem storage_form_equivalent_paid : StorageEquivalent flatEnv signedBlock := by
  have hvalid : validateBlockInternal flatEnv Toy.now (.holding toyEnv [genesisLaunchBlock flatEnv] []) .requireFull
      signedBlock = .ok () := by
    rw [validateBlockInternal_eq_ok]
    refine ⟨by decide +kernel, by decide +kernel, by decide +kernel, fun tx htx => ?_⟩
    have hmem : tx = toyReward Toy.alice genesisLaunchTimestamp ∨ tx = signedPay := List.mem_pair.mp htx
    rcases hmem with hreward | hsigned
    · rw [hreward]
      decide +kernel
    · have hcb : signedPay.isCoinbase = false := by decide +kernel
      rw [hsigned, validateBlockTransaction, hcb, if_neg Bool.false_ne_true, bind_unit_eq_ok, bind_unit_eq_ok]
      exact ⟨by decide +kernel, by decide +kernel, signedPay_witness⟩
  exact storage_form_equivalent hvalid

end Alphanumeric
