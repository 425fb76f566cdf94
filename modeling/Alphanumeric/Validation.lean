/-
# Block validation

`validate_block_internal` and the gates it is made of, in the source's order:
the header, the transaction count, the activated shape rules, duplicate ids, the
Merkle root, proof of work, the pinned genesis, the parent, the reward, and each
transaction. `prevalidate_unattached_block` is the subset that runs before the
parent is known. A validator reads the clock, the canonical slots and the orphan
pool, and changes nothing.

Key definitions: `validateHeader`, `verifyTransactionSignature`,
`verifyTransactionReceiptFields`, `validateBlockInternal`, `prevalidateUnattachedBlock`,
`blockSignaturesFullyVerified`.
Key theorems: `validateBlockInternal_eq_ok`, `validateParent_eq_ok`, `fresh_of_validate`.
-/
import Alphanumeric.State

namespace Alphanumeric

open Guard BlockchainError

variable (E : Env)

/-! ### Header and parent -/

def validateHeader (now : ℕ) (b : Block) : Res Unit := do
  ensure (b.index = 0 → b.previousHash = zeroHash) invalidBlockHeader
  ensure (b.timestamp ≤ now + maxBlockFutureTime) invalidBlockHeader
  ensure (calculateHashForBlock E b = b.hash) invalidHash
  ensure (verifyPow E b = true) invalidBlockHeader

/-- The linkage of a block to the parent it names. -/
def validateAgainstParent (parent b : Block) : Res Unit := do
  ensure (parent.hash = b.previousHash) invalidBlockHeader
  ensure (parent.index = b.index - 1) invalidBlockHeader
  ensure (parent.timestamp ≤ b.timestamp) invalidBlockHeader
  ensure (b.difficulty = consensusNextDifficulty parent.difficulty
    (b.timestamp - parent.timestamp) b.index) invalidBlockHeader

def validateParent (s : ChainState) (b : Block) : Res Unit :=
  if b.index = 0 then .ok ()
  else do
    let parent ← need (s.getParentBlockFor b) invalidBlockHeader
    validateAgainstParent parent b

/-! ### Shape rules -/

def fullWitnessTransactionWeight (tx : Transaction) : ℕ :=
  transactionWeightFixedBytes + textLen tx.sender + textLen tx.recipient +
    (if tx.isSystem then 0 else signatureBytes * 2 + publicKeyBytes * 2 + 64)

def fullWitnessWeight (b : Block) : ℕ :=
  blockWeightFixedBytes + (b.transactions.map fullWitnessTransactionWeight).sum

def validateActivatedTransactionShape (mode : SignatureValidationMode) (tx : Transaction) :
    Res Unit := do
  ensure (isCanonicalUserAddress tx.recipient = true) nonCanonicalTransaction
  if tx.isSystem then
    ensure (tx.signature = none ∧ tx.pubKey = none ∧ tx.sigHash = none) nonCanonicalTransaction
  else
    ensure (isCanonicalUserAddress tx.sender = true) nonCanonicalTransaction
    let pubKey ← need tx.pubKey nonCanonicalTransaction
    ensure (hexFieldHasDecodedLen pubKey publicKeyBytes = true) nonCanonicalTransaction
    let sigHash ← need tx.sigHash nonCanonicalTransaction
    ensure (hexFieldHasDecodedLen sigHash 32 = true) nonCanonicalTransaction
    let signature ← need tx.signature nonCanonicalTransaction
    ensure (hexFieldHasDecodedLen signature signatureBytes = true ∨
      (mode = .allowTruncatedStored ∧ hexFieldHasDecodedLen signature 64 = true))
      nonCanonicalTransaction

def validateActivatedBlockShape (mode : SignatureValidationMode) (b : Block) : Res Unit := do
  checkAll (validateActivatedTransactionShape mode) b.transactions
  ensure (fullWitnessWeight b ≤ maxBlockWeightBytes) blockWeightExceeded

def validateBlockShapeRulesAt (mode : SignatureValidationMode) (activationHeight : ℕ) (b : Block) :
    Res Unit :=
  if b.index < activationHeight then .ok () else validateActivatedBlockShape mode b

def regularIds (txs : List Transaction) : List Text :=
  (txs.filter fun tx => !tx.isCoinbase).map (getTxId E)

def hasDuplicateRegularTx (txs : List Transaction) : Bool := ¬ (regularIds E txs).Nodup

/-! ### Reward rules -/

def regularFees (txs : List Transaction) : List ℤ :=
  (txs.filter fun tx => !tx.isCoinbase).map (·.feeUnits)

/-- `aggregate_regular_fee_units`: a negative fee or an overflow is an error. -/
def aggregateRegularFeeUnits (txs : List Transaction) : Res ℤ := do
  ensure (∀ fee ∈ regularFees txs, 0 ≤ fee) invalidTransactionAmount
  ensure ((regularFees txs).sum ≤ i128Max) invalidTransactionAmount
  .ok (regularFees txs).sum

/-- The emission schedule is anchored at the stored genesis block. -/
def genesisTimestamp (s : ChainState) : Res ℕ :=
  need ((s.getBlock 0).map (·.timestamp)) invalidTransaction

/-- `reward_curve_v2_units`: the subsidy plus 65% of the fees. -/
def rewardCurveV2Units (subsidy : ℤ) (txCount : ℕ) (totalFeeUnits : ℤ) : Res ℤ := do
  ensure (0 ≤ totalFeeUnits ∧ ¬ (txCount = 0 ∧ totalFeeUnits ≠ 0)) invalidTransactionAmount
  ensure (totalFeeUnits * 65 ≤ i128Max) invalidTransactionAmount
  ensure (subsidy + totalFeeUnits * 65 / 100 ≤ i128Max) invalidTransactionAmount
  .ok (subsidy + totalFeeUnits * 65 / 100)

/-- The reward for the regular fees `fees` at a schedule point, in units. -/
def blockRewardUnitsFor (genesisTs index timestamp : ℕ) (fees : List ℤ) : Res ℤ :=
  if index < rewardCurveV2ActivationHeight then .ok (E.rewardLegacy genesisTs timestamp fees)
  else rewardCurveV2Units (E.subsidyUnits genesisTs timestamp) fees.length fees.sum

/-- `to_units(calculate_block_reward(block))`. -/
def calculateBlockRewardUnits (s : ChainState) (b : Block) : Res ℤ :=
  if b.index = 0 then .ok genesisLaunchAmountUnits
  else if b.index < rewardCurveV2ActivationHeight then do
    let genesisTs ← genesisTimestamp s
    blockRewardUnitsFor E genesisTs b.index b.timestamp (regularFees b.transactions)
  else do
    let _ ← aggregateRegularFeeUnits b.transactions
    let genesisTs ← genesisTimestamp s
    let units ← blockRewardUnitsFor E genesisTs b.index b.timestamp (regularFees b.transactions)
    .ok (E.unitsThroughF64 units)

/-- The accounting baseline: the best net issuance of an empty block, a block with one
free transaction and a block with one transaction at the low-fee envelope. -/
def scheduledBaselineUnitsAt (s : ChainState) (index timestamp : ℕ) : Res ℤ :=
  if index = 0 then .ok genesisLaunchAmountUnits
  else do
    let genesisTs ← genesisTimestamp s
    let empty ← blockRewardUnitsFor E genesisTs index timestamp []
    let nonemptyFloor ← blockRewardUnitsFor E genesisTs index timestamp [0]
    let compatibility ← blockRewardUnitsFor E genesisTs index timestamp
      [lowFeeCompatibilityEnvelopeUnits]
    .ok (max (max empty nonemptyFloor) (compatibility - lowFeeCompatibilityEnvelopeUnits))

def feeAccountingIsAdmissibleForBlock (s : ChainState) (b : Block) (expectedReward : ℤ) :
    Res Bool := do
  let totalFees ← aggregateRegularFeeUnits b.transactions
  let baseline ← scheduledBaselineUnitsAt E s b.index b.timestamp
  .ok (expectedReward - totalFees ≤ baseline)

def validateBlockRewardRulesAt (s : ChainState) (activationHeight : ℕ) (b : Block) : Res Unit := do
  let rewardTxs := b.transactions.filter (·.isCoinbase)
  ensure (rewardTxs.length = 1) invalidSystemTransaction
  ensure (b.transactions.head?.map (·.sender) = some miningRewards) invalidSystemTransaction
  let rewardTx ← need rewardTxs.head? invalidSystemTransaction
  ensure (rewardTx.feeUnits = networkFeeUnits) invalidSystemTransaction
  let expected ← calculateBlockRewardUnits E s b
  ensure (rewardTx.amountUnits = expected) invalidTransactionAmount
  if b.index < activationHeight then .ok ()
  else do
    let admissible ← feeAccountingIsAdmissibleForBlock E s b expected
    ensure (admissible = true) feeAccountingLimitExceeded

/-! ### Signatures -/

def derivedAddress (pubKeyBytes : List UInt8) : Text :=
  hexEncode ((Hash.bytes (E.sha256 pubKeyBytes)).take 20)

/-- The full ML-DSA check: the claimed signature hash is the signature's, the signature
verifies over the id, and the key owns the sender address. -/
def verifyTransactionSignature (tx : Transaction) : Res Unit :=
  if tx.isSystem then .ok ()
  else do
    let sigHex ← need tx.signature invalidTransactionSignature
    let sigBytes ← need (hexDecode sigHex) invalidTransactionSignature
    ensure (sigBytes ≠ []) invalidTransactionSignature
    let pubKey ← need tx.pubKey invalidTransactionSignature
    ensure (tx.sigHash.all (· == signatureHashHex E sigBytes) = true) invalidTransactionSignature
    let pubKeyBytes ← need (hexDecode pubKey) invalidTransactionSignature
    ensure (E.mldsaVerify (getMessage E tx) sigBytes pubKeyBytes = true)
      invalidTransactionSignature
    ensure (derivedAddress E pubKeyBytes = tx.sender) invalidTransactionSignature

/-- The receipt check of a truncated transaction: well-formed fields only. -/
def verifyTransactionReceiptFields (tx : Transaction) : Res Unit :=
  if tx.isSystem then .ok ()
  else do
    let sigHex ← need tx.signature invalidTransactionSignature
    let sigBytes ← need (hexDecode sigHex) invalidTransactionSignature
    ensure (sigBytes ≠ []) invalidTransactionSignature
    let pubKey ← need tx.pubKey invalidTransactionSignature
    let pubKeyBytes ← need (hexDecode pubKey) invalidTransactionSignature
    ensure (E.mldsaValidatePublicKey pubKeyBytes = true) invalidTransactionSignature
    ensure (derivedAddress E pubKeyBytes = tx.sender) invalidTransactionSignature
    let sigHash ← need tx.sigHash invalidTransactionSignature
    ensure (textLen sigHash = 64 ∧ (hexDecode sigHash).isSome) invalidTransactionSignature

/-- Full signatures are verified; a signature of at most 64 bytes is a receipt, which
only the lenient mode accepts. -/
def validateTransactionWitness (mode : SignatureValidationMode) (tx : Transaction) : Res Unit := do
  ensure (tx.signature.isSome) invalidTransactionSignature
  ensure (tx.pubKey.isSome ∧ tx.sigHash.isSome) invalidTransactionSignature
  let sigBytes ← need tx.sigBytes invalidTransactionSignature
  ensure (mode = .requireFull → 64 < sigBytes.length) invalidTransactionSignature
  if 64 < sigBytes.length then verifyTransactionSignature E tx
  else verifyTransactionReceiptFields E tx

/-- Freshness: mined within `maxTxAgeSecs` of its timestamp, dated at most
`maxBlockFutureTime` ahead of its block. -/
def validateFreshness (b : Block) (tx : Transaction) : Res Unit :=
  if b.index = 0 then .ok ()
  else do
    ensure (b.timestamp ≤ tx.timestamp + maxTxAgeSecs) invalidTransaction
    ensure (tx.timestamp ≤ b.timestamp + maxBlockFutureTime) invalidTransaction

def validateBlockTransaction (mode : SignatureValidationMode) (b : Block) (tx : Transaction) :
    Res Unit :=
  if tx.isCoinbase then .ok ()
  else do
    ensure (tx.hasValidRegularAmounts = true) invalidTransactionAmount
    validateFreshness b tx
    validateTransactionWitness E mode tx

def prevalidateTransaction (mode : SignatureValidationMode) (tx : Transaction) : Res Unit :=
  if tx.isCoinbase then .ok ()
  else do
    ensure (tx.hasValidRegularAmounts = true) invalidTransactionAmount
    validateTransactionWitness E mode tx

/-! ### Whole blocks -/

/-- The checks of a block alone, before its parent is looked up. -/
def validateStandalone (now : ℕ) (mode : SignatureValidationMode) (b : Block) : Res Unit := do
  validateHeader E now b
  ensure (b.transactions.length ≤ maxBlockTxCount) blockTransactionCountExceeded
  validateBlockShapeRulesAt mode feeSystemActivationHeight b
  ensure (hasDuplicateRegularTx E b.transactions = false) duplicateTransaction
  ensure (calculateMerkleRoot E b.transactions = b.merkleRoot) invalidBlockHeader
  ensure (isValidHashWithDifficulty b.hash b.difficulty = true) invalidHash
  ensure (b.index = 0 → b.hash = (genesisLaunchBlock E).hash) invalidBlockHeader

/-- The canonical validation gate of every persistence path. -/
def validateBlockInternal (now : ℕ) (s : ChainState) (mode : SignatureValidationMode) (b : Block) :
    Res Unit := do
  validateStandalone E now mode b
  validateParent s b
  validateBlockRewardRulesAt E s feeSystemActivationHeight b
  checkAll (validateBlockTransaction E mode b) b.transactions

def validateBlock (now : ℕ) (s : ChainState) (b : Block) : Res Unit :=
  validateBlockInternal E now s .allowTruncatedStored b

/-- What is checked of a block before its parent is known. -/
def prevalidateUnattachedBlock (now : ℕ) (mode : SignatureValidationMode) (b : Block) :
    Res Unit := do
  validateHeader E now b
  ensure (calculateMerkleRoot E b.transactions = b.merkleRoot) invalidBlockHeader
  checkAll (prevalidateTransaction E mode) b.transactions

def fullSigPresent (tx : Transaction) : Bool :=
  (tx.sigBytes.map fun bytes => decide (64 < bytes.length)).getD false

/-- Every regular transaction carries a full signature, and it verifies. -/
def blockSignaturesFullyVerified (b : Block) : Bool :=
  b.transactions.all fun tx =>
    tx.isSystem || (fullSigPresent tx && (verifyTransactionSignature E tx).isOk)

/-! ### What a validated block satisfies -/

variable {E}

theorem validateBlockInternal_eq_ok {now : ℕ} {s : ChainState} {mode : SignatureValidationMode}
    {b : Block} : validateBlockInternal E now s mode b = .ok () ↔
      validateStandalone E now mode b = .ok () ∧ validateParent s b = .ok () ∧
        validateBlockRewardRulesAt E s feeSystemActivationHeight b = .ok () ∧
        ∀ tx ∈ b.transactions, validateBlockTransaction E mode b tx = .ok () := by
  simp only [validateBlockInternal, bind_unit_eq_ok, checkAll_eq_ok]

/-- A parent that a child links to. -/
structure ParentOf (parent b : Block) : Prop where
  hash : parent.hash = b.previousHash
  index : parent.index = b.index - 1
  timestamp : parent.timestamp ≤ b.timestamp
  difficulty : b.difficulty =
    consensusNextDifficulty parent.difficulty (b.timestamp - parent.timestamp) b.index

theorem validateAgainstParent_eq_ok {parent b : Block} :
    validateAgainstParent parent b = .ok () ↔ ParentOf parent b := by
  simp only [validateAgainstParent, bind_unit_eq_ok, ensure_eq_ok]
  constructor
  · rintro ⟨hhash, hindex, htime, hdiff⟩
    exact ⟨hhash, hindex, htime, hdiff⟩
  · intro h
    exact ⟨h.hash, h.index, h.timestamp, h.difficulty⟩

theorem validateParent_eq_ok {s : ChainState} {b : Block} (h0 : b.index ≠ 0) :
    validateParent s b = .ok () ↔ ∃ parent, s.getParentBlockFor b = some parent ∧ ParentOf parent b := by
  simp only [validateParent, h0, if_false, bind_eq_ok, need_eq_ok, validateAgainstParent_eq_ok]

/-- The parent of a block whose previous hash is the canonical one a height below. -/
theorem getParentBlockFor_canonical {s : ChainState} {b parent : Block} (h0 : b.index ≠ 0)
    (hp : s.getBlock (b.index - 1) = some parent) (hh : parent.hash = b.previousHash) :
    s.getParentBlockFor b = some parent := by
  simp [ChainState.getParentBlockFor, h0, hp, hh]

/-- The dates a validated transaction may carry. -/
theorem fresh_of_validate {now : ℕ} {s : ChainState} {mode : SignatureValidationMode} {b : Block}
    (h : validateBlockInternal E now s mode b = .ok ()) (h0 : b.index ≠ 0) {tx : Transaction}
    (htx : tx ∈ b.transactions) (hcb : tx.isCoinbase = false) :
    b.timestamp ≤ tx.timestamp + maxTxAgeSecs ∧ tx.timestamp ≤ b.timestamp + maxBlockFutureTime := by
  have hv := (validateBlockInternal_eq_ok.mp h).2.2.2 tx htx
  simp only [validateBlockTransaction, hcb, Bool.false_eq_true, if_false, bind_unit_eq_ok,
    validateFreshness, h0, ensure_eq_ok] at hv
  exact hv.2.1

/-! ### Full witnesses

A block that carries every full signature is judged the same in both modes. -/

/-- Every regular transaction carries more than a truncated signature. -/
def FullWitness (b : Block) : Prop :=
  ∀ tx ∈ b.transactions, tx.isCoinbase = false → fullSigPresent tx = true

theorem hexDecode_length : ∀ {s : Text} {bytes : List UInt8}, hexDecode s = some bytes →
    s.length = 2 * bytes.length
  | [], bytes, h => by
    cases h
    rfl
  | [_], bytes, h => by cases h
  | c :: d :: rest, bytes, h => by
    unfold hexDecode at h
    split at h
    · rename_i hi lo tail _ _ hrest
      cases h
      have := hexDecode_length hrest
      simp only [List.length_cons]
      omega
    · cases h

theorem utf8Size_of_isLowerHexChar {c : Char} (h : isLowerHexChar c = true) : c.utf8Size = 1 := by
  have hle : c.val ≤ 127 := by
    simp only [isLowerHexChar, Bool.or_eq_true, Bool.and_eq_true, decide_eq_true_eq, Char.le_def] at h
    rcases h with ⟨-, h⟩ | ⟨-, h⟩
    · exact UInt32.le_trans h (by decide)
    · exact UInt32.le_trans h (by decide)
  simp [Char.utf8Size, hle]

theorem textLen_of_lowerHex : ∀ {s : Text}, s.all isLowerHexChar = true → textLen s = s.length
  | [], _ => rfl
  | c :: cs, h => by
    simp only [List.all_cons, Bool.and_eq_true] at h
    have ih := textLen_of_lowerHex h.2
    unfold textLen at ih ⊢
    rw [List.map_cons, List.sum_cons, ih, utf8Size_of_isLowerHexChar h.1, List.length_cons]
    omega

theorem fullSigPresent_iff {tx : Transaction} :
    fullSigPresent tx = true ↔ ∃ bytes, tx.sigBytes = some bytes ∧ 64 < bytes.length := by
  unfold fullSigPresent
  cases tx.sigBytes <;> simp

/-- A full signature is not of the truncated length. -/
theorem not_truncated_of_full {tx : Transaction} {signature : Text} (h : fullSigPresent tx = true)
    (hsig : tx.signature = some signature) : hexFieldHasDecodedLen signature 64 = false := by
  obtain ⟨bytes, hbytes, hlen⟩ := fullSigPresent_iff.mp h
  have hdec : hexDecode signature = some bytes := by simpa [Transaction.sigBytes, hsig] using hbytes
  have hlength := hexDecode_length hdec
  by_contra hfield
  simp only [hexFieldHasDecodedLen, Bool.and_eq_true, beq_iff_eq, Bool.not_eq_false] at hfield
  rw [textLen_of_lowerHex hfield.2] at hfield
  omega

theorem shape_mode_of_full {mode : SignatureValidationMode} {tx : Transaction}
    (h : tx.isCoinbase = false → fullSigPresent tx = true) :
    validateActivatedTransactionShape mode tx = validateActivatedTransactionShape .requireFull tx := by
  unfold validateActivatedTransactionShape
  cases hcb : tx.isCoinbase with
  | true => simp only [Transaction.isSystem_eq_isCoinbase, hcb, if_true]
  | false =>
    simp only [Transaction.isSystem_eq_isCoinbase, hcb, Bool.false_eq_true, if_false]
    cases hsig : tx.signature with
    | none => simp only [need, error_bind]
    | some signature =>
      have htrunc := not_truncated_of_full (h hcb) hsig
      simp only [need, ok_bind, htrunc, Bool.false_eq_true, and_false, or_false]

theorem witness_mode_of_full {mode : SignatureValidationMode} {tx : Transaction}
    (h : fullSigPresent tx = true) :
    validateTransactionWitness E mode tx = validateTransactionWitness E .requireFull tx := by
  obtain ⟨bytes, hbytes, hlen⟩ := fullSigPresent_iff.mp h
  simp only [validateTransactionWitness, hbytes, need, ok_bind, hlen, implies_true]

theorem checkAll_congr {α : Type} {f g : α → Res Unit} :
    ∀ {l : List α}, (∀ a ∈ l, f a = g a) → checkAll f l = checkAll g l
  | [], _ => rfl
  | a :: as, h => by
    simp only [checkAll]
    rw [h a (by simp), checkAll_congr fun b hb => h b (by simp [hb])]

theorem validateStandalone_mode {now : ℕ} {mode : SignatureValidationMode} {b : Block}
    (h : FullWitness b) : validateStandalone E now mode b = validateStandalone E now .requireFull b := by
  have hshape : validateBlockShapeRulesAt mode feeSystemActivationHeight b =
      validateBlockShapeRulesAt .requireFull feeSystemActivationHeight b := by
    unfold validateBlockShapeRulesAt validateActivatedBlockShape
    rw [checkAll_congr fun tx htx => shape_mode_of_full (h tx htx)]
  simp only [validateStandalone, hshape]

theorem validateBlockTransaction_mode {mode : SignatureValidationMode} {b : Block} (h : FullWitness b)
    {tx : Transaction} (htx : tx ∈ b.transactions) :
    validateBlockTransaction E mode b tx = validateBlockTransaction E .requireFull b tx := by
  unfold validateBlockTransaction
  cases hcb : tx.isCoinbase with
  | true => rfl
  | false => simp only [Bool.false_eq_true, if_false, witness_mode_of_full (h tx htx hcb)]

/-- **The mode does not matter** for a block with full witnesses. -/
theorem validateBlockInternal_mode {now : ℕ} {s : ChainState} {mode : SignatureValidationMode}
    {b : Block} (h : FullWitness b) :
    validateBlockInternal E now s mode b = validateBlockInternal E now s .requireFull b := by
  unfold validateBlockInternal
  rw [validateStandalone_mode h, checkAll_congr fun tx htx => validateBlockTransaction_mode h htx]

theorem prevalidate_of_validate {now : ℕ} {s : ChainState} {mode : SignatureValidationMode} {b : Block}
    (h : validateBlockInternal E now s mode b = .ok ()) :
    prevalidateUnattachedBlock E now mode b = .ok () := by
  obtain ⟨hstand, -, -, htxs⟩ := validateBlockInternal_eq_ok.mp h
  simp only [validateStandalone, bind_unit_eq_ok, ensure_eq_ok] at hstand
  simp only [prevalidateUnattachedBlock, bind_unit_eq_ok, ensure_eq_ok, checkAll_eq_ok]
  refine ⟨hstand.1, hstand.2.2.2.2.1, fun tx htx => ?_⟩
  have hv := htxs tx htx
  unfold validateBlockTransaction at hv
  unfold prevalidateTransaction
  split_ifs at hv ⊢
  · rfl
  · simp only [bind_unit_eq_ok] at hv ⊢
    exact ⟨hv.1, hv.2.2⟩

/-- Every regular transaction of a block validated in the full mode has a verified signature. -/
theorem signature_of_validate {now : ℕ} {s : ChainState} {b : Block}
    (h : validateBlockInternal E now s .requireFull b = .ok ()) {tx : Transaction}
    (htx : tx ∈ b.transactions) (hcb : tx.isCoinbase = false) :
    fullSigPresent tx = true ∧ verifyTransactionSignature E tx = .ok () := by
  have hv := (validateBlockInternal_eq_ok.mp h).2.2.2 tx htx
  simp only [validateBlockTransaction, hcb, Bool.false_eq_true, if_false, bind_unit_eq_ok,
    validateTransactionWitness, ensure_eq_ok] at hv
  obtain ⟨-, -, -, -, hv⟩ := hv
  obtain ⟨bytes, hbytes, hv⟩ := bind_eq_ok.mp hv
  simp only [bind_unit_eq_ok, ensure_eq_ok, forall_const] at hv
  rw [if_pos hv.1] at hv
  exact ⟨fullSigPresent_iff.mpr ⟨bytes, need_eq_ok.mp hbytes, hv.1⟩, hv.2⟩

theorem blockSignaturesFullyVerified_of_validate {now : ℕ} {s : ChainState} {b : Block}
    (h : validateBlockInternal E now s .requireFull b = .ok ()) :
    blockSignaturesFullyVerified E b = true := by
  simp only [blockSignaturesFullyVerified, List.all_eq_true, Bool.or_eq_true, Bool.and_eq_true]
  intro tx htx
  cases hcb : tx.isCoinbase with
  | true => exact .inl (by simp [hcb])
  | false =>
    obtain ⟨hfull, hverify⟩ := signature_of_validate h htx hcb
    exact .inr ⟨hfull, by rw [hverify]; rfl⟩

/-- A validated block pays one reward, first. -/
theorem reward_of_validate {now : ℕ} {s : ChainState} {mode : SignatureValidationMode} {b : Block}
    (h : validateBlockInternal E now s mode b = .ok ()) :
    ∃ reward txs, b.transactions = reward :: txs ∧ reward.isCoinbase = true ∧
      ∀ tx ∈ txs, tx.isCoinbase = false := by
  have hr := (validateBlockInternal_eq_ok.mp h).2.2.1
  simp only [validateBlockRewardRulesAt, bind_unit_eq_ok, ensure_eq_ok] at hr
  obtain ⟨hone, hhead, -⟩ := hr
  cases htxs : b.transactions with
  | nil => simp [htxs] at hone
  | cons reward txs =>
    simp only [htxs, List.head?_cons, Option.map_some, Option.some.injEq] at hhead
    have hcb : reward.isCoinbase = true := by simp [Transaction.isCoinbase, hhead]
    refine ⟨reward, txs, rfl, hcb, fun tx htx => ?_⟩
    simp only [htxs, List.filter_cons, hcb, if_true, List.length_cons, Nat.add_eq_right,
      List.length_eq_zero_iff, List.filter_eq_nil_iff, Bool.not_eq_true] at hone
    exact hone tx htx

end Alphanumeric
