/-
# The affordability gates

Four pieces of code decide whether the senders of a block can pay: `validate_new_block` and
`finalize_block` on the miner's side, `process_transactions_batch` when the block is written and
`replay_apply_block_checked` in every replay. The first two leave the block's own coinbase out,
the third counts it as a credit and as immature, the fourth pushes it into its rolling window; from
the activation of maturity on that is the same. The balances tree keeps its height marker under
a key of its own address space, so the list must not name that key.

Key definitions: `finalizeGate`, `batchGate`, `validateNewBlockGate`.
Key theorems: `finalizeAffordable_iff_replay`, `affordNewBlock_finalize`, `affordability_gates_agree`,
`marker_diverges`.
-/
import Alphanumeric.ForkState

namespace Alphanumeric

open Guard BlockchainError ChainState

section Gates

variable (E : Env) (markerUnits : ℕ → Res ℤ)

def regularSenders (txs : List Transaction) : List Text := (txs.filter fun tx => !tx.isCoinbase).map (·.sender)

/-! ### The gates -/

/-- The inline gate of `finalize_block`. -/
def finalizeGate (s : ChainState) (b : Block) : Res Unit := do
  let confirmed ← prefetchBalances markerUnits s (regularSenders b.transactions)
  ensure (finalizeAffordable { s with balances := confirmed } b b.transactions (fun _ => 0) = true) insufficientFunds

/-- `process_transactions_batch`, answering with what the tree then reads as: the new marker is in the same batch. -/
def batchGate (mode : SignatureValidationMode) (s : ChainState) (confirmHeight : ℕ) (txs : List Transaction) :
    Res (Text → Res ℤ) := do
  let current ← prefetchBalances markerUnits s (touches txs)
  let written ← processTransactionsBatch E mode s.blocks current confirmHeight txs
  .ok fun a => if a = balancesHeightKey then markerUnits confirmHeight else .ok (written a)

/-- `immature_rewards_by_recipient`: the block's own coinbase is left out. -/
def immatureRewardsByRecipient (chain : List Block) (txs : List Transaction) (spendHeight : ℕ) (address : Text) : ℤ :=
  if (txs.any fun tx => !tx.isCoinbase) && maturityActivationHeight ≤ spendHeight then
    immatureUnits (((chain.take spendHeight).drop (spendHeight - miningRewardMaturity + 1)).flatMap coinbases) address
  else 0

/-- The loop of `validate_new_block`: deductions add up, credits are not counted. -/
def affordNewBlock (confirmed : Balances) (immature : Text → ℤ) : List Transaction → Balances → Res Unit
  | [], _ => .ok ()
  | tx :: txs, deducted => do
    ensure (tx.hasValidRegularAmounts = true) invalidTransactionAmount
    ensure (tx.signature.isSome ∧ tx.pubKey.isSome ∧ tx.sigHash.isSome) invalidTransactionSignature
    let sigBytes ← need tx.sigBytes invalidTransactionSignature
    ensure (64 < sigBytes.length) invalidTransactionSignature
    verifyTransactionSignature E tx
    ensure (tx.totalDebitUnits ≤ confirmed tx.sender - deducted tx.sender - immature tx.sender) insufficientFunds
    affordNewBlock confirmed immature txs (credit deducted tx.sender tx.totalDebitUnits)

def validateNewBlockGate (s : ChainState) (b : Block) : Res Unit := do
  let confirmed ← prefetchBalances markerUnits s (regularSenders b.transactions)
  affordNewBlock E confirmed (immatureRewardsByRecipient s.blocks b.transactions b.index)
    (b.transactions.filter fun tx => !tx.isCoinbase) (fun _ => 0)

end Gates

variable {E : Env} {markerUnits : ℕ → Res ℤ}

/-! ### The miner's gate is the replay -/

/-- The window entering height `height`, without the coinbases that mature there. -/
def storedWindow (chain : List Block) (height : ℕ) : Recent :=
  ((chain.take height).drop (height - miningRewardMaturity + 1)).flatMap coinbases

/-- Two accounts of what a sender can spend: the replay's, with the block's coinbase credited and immature, and the
miner's, with neither. -/
def SameSpendable (height : ℕ) (s : ChainState) (pending : Balances) (st : Balances × Recent) : Prop :=
  ∀ a, st.1 a - immatureUnits st.2 a = s.balances a - pending a - immatureUnits (storedWindow s.blocks height) a

theorem finalizeAffordable_regular {s : ChainState} {b : Block} (hactive : maturityActivationHeight ≤ b.index) :
    ∀ (txs : List Transaction) {pending : Balances} {st : Balances × Recent},
      (∀ tx ∈ txs, tx.isCoinbase = false) → SameSpendable b.index s pending st →
      (finalizeAffordable s b txs pending = true ↔ ∃ st', replayApplyTxs b.index txs st = .ok st')
  | [], pending, st, _, _ => ⟨fun _ => ⟨st, rfl⟩, fun _ => rfl⟩
  | tx :: txs, pending, st, hregular, hsame => by
    have hcb : tx.isCoinbase = false := hregular tx List.mem_cons_self
    have hrest : ∀ t ∈ txs, t.isCoinbase = false := fun t ht => hregular t (List.mem_cons_of_mem _ ht)
    have hspend := hsame tx.sender
    have hnext : SameSpendable b.index s (credit (credit pending tx.sender tx.totalDebitUnits) tx.recipient
        (-tx.amountUnits)) (credit (credit st.1 tx.sender (-tx.totalDebitUnits)) tx.recipient tx.amountUnits,
            st.2) := by
      intro a
      have ha := hsame a
      simp only [credit_apply]
      split_ifs <;> omega
    have ih := finalizeAffordable_regular hactive txs hrest hnext
    have hwindow : immatureUnits (((s.blocks.take b.index).drop (b.index - miningRewardMaturity + 1)).flatMap coinbases)
        tx.sender = immatureUnits (storedWindow s.blocks b.index) tx.sender := rfl
    unfold finalizeAffordable replayApplyTxs replayApplyTx
    simp only [hcb, Bool.false_eq_true, if_false, if_pos hactive, hwindow]
    by_cases hpoor : s.balances tx.sender - pending tx.sender - immatureUnits
        (storedWindow s.blocks b.index) tx.sender <
        tx.totalDebitUnits
    · rw [if_pos hpoor, if_pos (by omega)]
      constructor
      · intro h
        cases h
      · rintro ⟨st', h⟩
        cases h
    · rw [if_neg hpoor, if_neg (by omega), ok_bind]
      exact ih

/-- The coinbase first: the miner skips it, the replay credits it and takes it for immature. -/
theorem finalizeAffordable_iff_replay {s : ChainState} {b : Block} {reward : Transaction} {txs : List Transaction}
    (hslots : Slotted s.blocks) (hheight : b.index = s.blocks.length) (hactive : maturityActivationHeight ≤ b.index)
    (htxs : b.transactions = reward :: txs) (hreward : reward.isCoinbase = true)
    (hregular : ∀ tx ∈ txs, tx.isCoinbase = false) :
    finalizeAffordable s b b.transactions (fun _ => 0) = true ↔
      ∃ st', replayApplyBlockChecked b.index b.transactions (s.balances, seedRecent s.blocks s.blocks.length) =
          .ok st' := by
  have hwindow : popMature b.index (seedRecent s.blocks s.blocks.length) = storedWindow s.blocks b.index := by
    have hmature : b.index - miningRewardMaturity + 1 = s.blocks.length + 1 - miningRewardMaturity := by
      unfold miningRewardMaturity maturityActivationHeight at *
      omega
    unfold storedWindow
    rw [hmature, hheight, popMature_seedRecent hslots, List.take_length]
  have hstart : SameSpendable b.index s (fun _ => 0) (credit s.balances reward.recipient reward.amountUnits,
      storedWindow s.blocks b.index ++ [(b.index, reward.recipient, reward.amountUnits)]) := by
    intro a
    have hown : immatureUnits [(b.index, reward.recipient, reward.amountUnits)] a =
        if a = reward.recipient then reward.amountUnits else 0 := by
      by_cases ha : a = reward.recipient
      · simp [immatureUnits, ha]
      · simp [immatureUnits, ha, Ne.symm ha]
    dsimp only
    rw [immatureUnits_append, hown, credit_apply]
    omega
  have hrest := finalizeAffordable_regular hactive txs hregular hstart
  rw [htxs]
  unfold finalizeAffordable replayApplyBlockChecked replayApplyTxs replayApplyTx
  rw [if_pos hreward, if_pos hreward, hwindow, ok_bind]
  exact hrest

/-! ### The stricter gate -/

theorem affordNewBlock_cons {confirmed deducted : Balances} {immature : Text → ℤ} {tx : Transaction}
    {txs : List Transaction} (h : affordNewBlock E confirmed immature (tx :: txs) deducted = .ok ()) :
    tx.hasValidRegularAmounts = true ∧ verifyTransactionSignature E tx = .ok () ∧
      tx.totalDebitUnits ≤ confirmed tx.sender - deducted tx.sender - immature tx.sender ∧
      affordNewBlock E confirmed immature txs (credit deducted tx.sender tx.totalDebitUnits) = .ok () := by
  unfold affordNewBlock at h
  obtain ⟨hamounts, h⟩ := bind_unit_eq_ok.mp h
  obtain ⟨-, h⟩ := bind_unit_eq_ok.mp h
  obtain ⟨sigBytes, -, h⟩ := bind_eq_ok.mp h
  obtain ⟨-, h⟩ := bind_unit_eq_ok.mp h
  obtain ⟨hverified, h⟩ := bind_unit_eq_ok.mp h
  obtain ⟨hfunds, h⟩ := bind_unit_eq_ok.mp h
  exact ⟨ensure_eq_ok.mp hamounts, hverified, ensure_eq_ok.mp hfunds, h⟩

theorem affordNewBlock_verified {confirmed : Balances} {immature : Text → ℤ} : ∀ {txs : List Transaction}
    {deducted : Balances}, affordNewBlock E confirmed immature txs deducted = .ok () →
    ∀ tx ∈ txs, verifyTransactionSignature E tx = .ok ()
  | [], _, _, tx, htx => absurd htx List.not_mem_nil
  | t :: txs, deducted, h, tx, htx => by
    obtain ⟨-, hverified, -, hrest⟩ := affordNewBlock_cons h
    rcases List.mem_cons.mp htx with rfl | htx
    · exact hverified
    · exact affordNewBlock_verified hrest tx htx

theorem amount_nonneg {tx : Transaction} (h : tx.hasValidRegularAmounts = true) : 0 ≤ tx.amountUnits := by
  unfold Transaction.hasValidRegularAmounts minTransactionAmountUnits at h
  simp only [Bool.and_eq_true, decide_eq_true_eq] at h
  omega

/-- Credits only help: a list that is affordable without them is affordable with them. -/
theorem affordNewBlock_finalize {s : ChainState} {b : Block} {immature : Text → ℤ}
    (himmature : ∀ a, immature a = immatureUnits (storedWindow s.blocks b.index) a)
    (hactive : maturityActivationHeight ≤ b.index) : ∀ {txs : List Transaction} {deducted pending : Balances},
    (∀ tx ∈ txs, tx.isCoinbase = false) → (∀ a, pending a ≤ deducted a) →
    affordNewBlock E s.balances immature txs deducted = .ok () → finalizeAffordable s b txs pending = true
  | [], _, _, _, _, _ => rfl
  | tx :: txs, deducted, pending, hregular, hle, h => by
    have hcb : tx.isCoinbase = false := hregular tx List.mem_cons_self
    have hrest : ∀ t ∈ txs, t.isCoinbase = false := fun t ht => hregular t (List.mem_cons_of_mem _ ht)
    obtain ⟨hamounts, -, hfunds, hnext⟩ := affordNewBlock_cons h
    have hamount := amount_nonneg hamounts
    have hsender := hle tx.sender
    rw [himmature] at hfunds
    have hwindow : immatureUnits (((s.blocks.take b.index).drop (b.index - miningRewardMaturity + 1)).flatMap coinbases)
        tx.sender = immatureUnits (storedWindow s.blocks b.index) tx.sender := rfl
    unfold finalizeAffordable
    simp only [hcb, Bool.false_eq_true, if_false, if_pos hactive, hwindow]
    rw [if_neg (by omega)]
    refine affordNewBlock_finalize himmature hactive hrest (fun a => ?_) hnext
    have ha := hle a
    simp only [credit_apply]
    split_ifs <;> omega

/-! ### All four -/

section Agreement

variable {s : ChainState} {b : Block} {reward : Transaction} {txs : List Transaction}

theorem touches_ne_key (hkey : ∀ tx ∈ txs, tx.sender ≠ balancesHeightKey ∧ tx.recipient ≠ balancesHeightKey) :
    ∀ a ∈ touches txs, a ≠ balancesHeightKey := by
  intro a ha
  obtain ⟨tx, htx, ha⟩ := List.mem_flatMap.mp ha
  split_ifs at ha
  · rw [List.mem_singleton.mp ha]
    exact (hkey tx htx).2
  · rcases List.mem_cons.mp ha with rfl | ha
    · exact (hkey tx htx).1
    · rw [List.mem_singleton.mp ha]
      exact (hkey tx htx).2

theorem regularSenders_ne_key (hkey : ∀ tx ∈ txs, tx.sender ≠ balancesHeightKey ∧ tx.recipient ≠ balancesHeightKey) :
    ∀ a ∈ regularSenders txs, a ≠ balancesHeightKey := by
  intro a ha
  obtain ⟨tx, htx, rfl⟩ := List.mem_map.mp ha
  exact (hkey tx (List.mem_of_mem_filter htx)).1

/-- The state as the gates read it. -/
def asRead (markerUnits : ℕ → Res ℤ) (s : ChainState) : ChainState := { s with balances := readBalances markerUnits s }

theorem finalizeGate_eq (hkey : ∀ tx ∈ b.transactions,
    tx.sender ≠ balancesHeightKey ∧ tx.recipient ≠ balancesHeightKey) :
    finalizeGate markerUnits s b = .ok () ↔
      finalizeAffordable (asRead markerUnits s) b b.transactions (fun _ => 0) = true := by
  unfold finalizeGate
  rw [prefetchBalances_eq (regularSenders_ne_key hkey), ok_bind, ensure_eq_ok]
  rfl

theorem batchGate_eq {mode : SignatureValidationMode} {height : ℕ}
    (hkey : ∀ tx ∈ b.transactions, tx.sender ≠ balancesHeightKey ∧ tx.recipient ≠ balancesHeightKey)
    {tree : Text → Res ℤ} :
    batchGate E markerUnits mode s height b.transactions = .ok tree ↔
      ∃ written, processTransactionsBatch E mode s.blocks (readBalances markerUnits s) height b.transactions =
          .ok written ∧
        tree = fun a => if a = balancesHeightKey then markerUnits height else .ok (written a) := by
  unfold batchGate
  rw [prefetchBalances_eq (touches_ne_key hkey), ok_bind, bind_eq_ok]
  simp only [Except.ok.injEq]
  exact exists_congr fun written => and_congr_right fun _ => eq_comm

/-- The replay from what the gates read, and from the replayed chain. -/
theorem replay_asRead {st : Balances × Recent} (hslots : Slotted s.blocks) (hreplay : replayChain s.blocks = .ok st)
    (hexact : ∀ a, a ≠ balancesHeightKey → s.balances a = st.1 a)
    (hkey : ∀ tx ∈ b.transactions, tx.sender ≠ balancesHeightKey ∧ tx.recipient ≠ balancesHeightKey) :
    SameOn (touches b.transactions)
      (replayApplyBlockChecked b.index b.transactions (readBalances markerUnits s, seedRecent s.blocks s.blocks.length))
      (replayApplyBlockChecked b.index b.transactions st) := by
  obtain ⟨below, hbelow, hwindow, -⟩ := below_fork hslots hreplay s.blocks.length le_rfl
  rw [List.take_length, hreplay] at hbelow
  cases hbelow
  refine replayApplyBlockChecked_agree ⟨hwindow.symm, fun a ha => ?_⟩ fun a ha => ha
  have hne := touches_ne_key hkey a ha
  dsimp only
  rw [readBalances_of_ne hne, hexact a hne]

/-- What the batch refuses for a signature, and what it refuses for the funds. -/
theorem batch_verified {mode : SignatureValidationMode} {current changes changes' : Balances} {immature : Text → ℤ} :
    ∀ {txs : List Transaction}, applyBatchTxs E mode current immature txs changes = .ok changes' →
      ∀ tx ∈ txs, tx.isCoinbase = false → verifyForMode E mode tx = .ok ()
  | [], _, tx, htx, _ => absurd htx List.not_mem_nil
  | t :: txs, h, tx, htx, hcb => by
    unfold applyBatchTxs at h
    obtain ⟨next, hfirst, hrest⟩ := bind_eq_ok.mp h
    rcases List.mem_cons.mp htx with rfl | htx
    · unfold applyBatchTx at hfirst
      rw [hcb, if_neg Bool.false_ne_true] at hfirst
      cases mode with
      | requireFull => exact (bind_unit_eq_ok.mp hfirst).1
      | allowTruncatedStored => exact (bind_unit_eq_ok.mp hfirst).1
    · exact batch_verified hrest tx htx hcb

end Agreement

/-- **Main result.** On a list with its one coinbase first that stays off the marker's key, from the activation of
maturity on: the miner's gate accepts what the replay accepts, the batch accepts it exactly when the signatures stand
too, what the batch writes is what the replay holds, and whatever `validate_new_block` accepts all three accept. -/
theorem affordability_gates_agree (E : Env) (markerUnits : ℕ → Res ℤ) (s : ChainState) {st : Balances × Recent}
    (hslots : Slotted s.blocks) (hreplay : replayChain s.blocks = .ok st)
    (hexact : ∀ a, a ≠ balancesHeightKey → s.balances a = st.1 a) (b : Block) (hheight : b.index = s.blocks.length)
    (hactive : 1500 ≤ b.index) {reward : Transaction} {txs : List Transaction} (htxs : b.transactions = reward :: txs)
    (hreward : reward.isCoinbase = true) (hregular : ∀ tx ∈ txs, tx.isCoinbase = false)
    (hkey : ∀ tx ∈ b.transactions, tx.sender ≠ balancesHeightKey ∧ tx.recipient ≠ balancesHeightKey) :
    (finalizeGate markerUnits s b = .ok () ↔ ∃ st', replayApplyBlockChecked b.index b.transactions st = .ok st') ∧
    (∀ mode, (∃ tree, batchGate E markerUnits mode s b.index b.transactions = .ok tree) ↔
      (∀ tx ∈ txs, verifyForMode E mode tx = .ok ()) ∧ finalizeGate markerUnits s b = .ok ()) ∧
    (∀ mode tree, batchGate E markerUnits mode s b.index b.transactions = .ok tree →
      ∃ st', replayApplyBlockChecked b.index b.transactions st = .ok st' ∧
        ∀ a, a ≠ balancesHeightKey → tree a = .ok (st'.1 a)) ∧
    (validateNewBlockGate E markerUnits s b = .ok () → finalizeGate markerUnits s b = .ok () ∧
      (∃ tree, batchGate E markerUnits .requireFull s b.index b.transactions = .ok tree) ∧
      ∃ st', replayApplyBlockChecked b.index b.transactions st = .ok st') := by
  have hsame : SameOn (touches b.transactions) (replayApplyBlockChecked b.index b.transactions
      (readBalances markerUnits s, seedRecent s.blocks s.blocks.length))
      (replayApplyBlockChecked b.index b.transactions st) := replay_asRead hslots hreplay hexact hkey
  have hminer := finalizeAffordable_iff_replay (s := asRead markerUnits s) hslots hheight hactive htxs hreward hregular
  have hfinalize : finalizeGate markerUnits s b = .ok () ↔
      ∃ st', replayApplyBlockChecked b.index b.transactions st = .ok st' := by
    rw [finalizeGate_eq hkey, hminer]
    exact hsame.accepts
  have hbatch : ∀ mode, (∀ tx ∈ txs, verifyForMode E mode tx = .ok ()) → ∀ bal,
      processTransactionsBatch E mode s.blocks (readBalances markerUnits s) b.index b.transactions = .ok bal ↔
        ∃ recent, replayApplyBlockChecked b.index b.transactions
          (readBalances markerUnits s, seedRecent s.blocks s.blocks.length) = .ok (bal, recent) := by
    intro mode hverified bal
    rw [htxs, hheight]
    exact processTransactionsBatch_eq_replay hslots hreward hregular hverified bal
  have hverifies : ∀ mode bal, processTransactionsBatch E mode s.blocks (readBalances markerUnits s) b.index
      b.transactions = .ok bal → ∀ tx ∈ txs, verifyForMode E mode tx = .ok () := by
    intro mode bal hok tx htx
    obtain ⟨changes, hchanges, -⟩ := bind_eq_ok.mp hok
    exact batch_verified hchanges tx (by rw [htxs]; exact List.mem_cons_of_mem _ htx) (hregular tx htx)
  have hboth : ∀ mode, (∃ tree, batchGate E markerUnits mode s b.index b.transactions = .ok tree) ↔
      (∀ tx ∈ txs, verifyForMode E mode tx = .ok ()) ∧ finalizeGate markerUnits s b = .ok () := by
    intro mode
    constructor
    · rintro ⟨tree, htree⟩
      obtain ⟨written, hwritten, -⟩ := (batchGate_eq hkey).mp htree
      have hverified := hverifies mode written hwritten
      obtain ⟨recent, hok⟩ := (hbatch mode hverified written).mp hwritten
      exact ⟨hverified, hfinalize.mpr (hsame.accepts.mp ⟨_, hok⟩)⟩
    · rintro ⟨hverified, hgate⟩
      obtain ⟨⟨bal, recent⟩, hok⟩ := hsame.accepts.mpr (hfinalize.mp hgate)
      exact ⟨_, (batchGate_eq hkey).mpr ⟨bal, (hbatch mode hverified bal).mpr ⟨recent, hok⟩, rfl⟩⟩
  refine ⟨hfinalize, hboth, ?_, ?_⟩
  · intro mode tree htree
    obtain ⟨written, hwritten, rfl⟩ := (batchGate_eq hkey).mp htree
    obtain ⟨recent, hok⟩ := (hbatch mode (hverifies mode written hwritten) written).mp hwritten
    obtain ⟨st', hst'⟩ := hsame.accepts.mp ⟨_, hok⟩
    refine ⟨st', hst', fun a ha => ?_⟩
    -- both add the block's amounts to equal totals
    have hleft := congrArg Prod.fst (replayApplyBlockChecked_ok hok)
    have hright := congrArg Prod.fst (replayApplyBlockChecked_ok hst')
    dsimp only at hleft hright ⊢
    rw [if_neg ha, hleft, hright]
    dsimp only
    rw [readBalances_of_ne ha, hexact a ha]
  · intro hnew
    unfold validateNewBlockGate at hnew
    rw [prefetchBalances_eq (regularSenders_ne_key hkey), ok_bind] at hnew
    have hlist : b.transactions.filter (fun tx => !tx.isCoinbase) = txs := by
      rw [htxs, List.filter_cons, hreward]
      exact List.filter_eq_self.mpr fun tx htx => by rw [hregular tx htx]; rfl
    rw [hlist] at hnew
    have hverified : ∀ tx ∈ txs, verifyForMode E .requireFull tx = .ok () := affordNewBlock_verified hnew
    have hgate : finalizeGate markerUnits s b = .ok () := by
      rw [finalizeGate_eq hkey, htxs]
      unfold finalizeAffordable
      rw [if_pos hreward]
      cases htail : txs with
      | nil => rfl
      | cons tx rest =>
        rw [← htail]
        have himmature : ∀ a, immatureRewardsByRecipient s.blocks b.transactions b.index a =
            immatureUnits (storedWindow s.blocks b.index) a := by
          intro a
          have hany : (b.transactions.any fun tx => !tx.isCoinbase) = true := by
            rw [List.any_eq_true]
            have hmem : tx ∈ txs := by
              rw [htail]
              exact List.mem_cons_self
            exact ⟨tx, by rw [htxs]; exact List.mem_cons_of_mem _ hmem, by rw [hregular tx hmem]; rfl⟩
          have hmaturity : decide (maturityActivationHeight ≤ b.index) = true := decide_eq_true hactive
          unfold immatureRewardsByRecipient
          rw [hany, hmaturity]
          rfl
        exact affordNewBlock_finalize (s := asRead markerUnits s) himmature hactive hregular (fun _ => le_rfl) hnew
    exact ⟨hgate, (hboth .requireFull).mpr ⟨hverified, hgate⟩, hfinalize.mp hgate⟩

/-! ### A chain at the activation -/

/-- `n` blocks that pay `recipient` and confirm nothing. -/
def paidChain (recipient : Text) (n : ℕ) : List Block :=
  (List.range n).map fun i => ⟨i, zeroHash, i, [toyReward recipient i], 0, 0, zeroHash, zeroHash⟩

theorem paidChain_slotted (recipient : Text) (n : ℕ) : Slotted (paidChain recipient n) := by
  intro h b hb
  obtain ⟨i, hi, rfl⟩ := List.mem_map.mp (List.mem_of_getElem? hb)
  rw [paidChain, List.getElem?_map] at hb
  obtain ⟨j, hj, heq⟩ := Option.map_eq_some_iff.mp hb
  obtain ⟨hlt, hget⟩ := List.getElem?_eq_some_iff.mp hj
  rw [List.getElem_range] at hget
  rw [← congrArg Block.index heq, ← hget]

theorem replayApplyTxs_coinbases {height : ℕ} : ∀ {txs : List Transaction} {st : Balances × Recent},
    (∀ tx ∈ txs, tx.isCoinbase = true) → ∃ st', replayApplyTxs height txs st = .ok st'
  | [], st, _ => ⟨st, rfl⟩
  | tx :: txs, st, h => by
    unfold replayApplyTxs replayApplyTx
    rw [if_pos (h tx List.mem_cons_self), ok_bind]
    exact replayApplyTxs_coinbases fun t ht => h t (List.mem_cons_of_mem _ ht)

theorem replayBlocks_coinbases : ∀ {bs : List Block} {st : Balances × Recent},
    (∀ b ∈ bs, ∀ tx ∈ b.transactions, tx.isCoinbase = true) → ∃ st', replayBlocks bs st = .ok st'
  | [], st, _ => ⟨st, rfl⟩
  | b :: bs, st, h => by
    have hfirst : ∃ next, replayApplyBlockChecked b.index b.transactions st = .ok next :=
      replayApplyTxs_coinbases (h b List.mem_cons_self)
    obtain ⟨next, hnext⟩ := hfirst
    unfold replayBlocks
    rw [hnext, ok_bind]
    exact replayBlocks_coinbases fun c hc => h c (List.mem_cons_of_mem _ hc)

theorem paidChain_replays (recipient : Text) (n : ℕ) : ∃ st, replayChain (paidChain recipient n) = .ok st ∧
    ∀ a, a ≠ recipient → st.1 a = 0 := by
  have hcoinbases : ∀ b ∈ paidChain recipient n, ∀ tx ∈ b.transactions, tx.isCoinbase = true := by
    intro b hb tx htx
    obtain ⟨i, -, rfl⟩ := List.mem_map.mp hb
    rw [List.mem_singleton.mp htx]
    rfl
  have hreplays : ∃ st, replayChain (paidChain recipient n) = .ok st := replayBlocks_coinbases hcoinbases
  obtain ⟨st, hst⟩ := hreplays
  refine ⟨st, hst, fun a ha => ?_⟩
  rw [replayBlocks_balances hst]
  have hnone : ∀ units ∈ (paidChain recipient n).map (fun b => blockDelta b.transactions a), units = 0 := by
    intro units hunits
    obtain ⟨b, hb, rfl⟩ := List.mem_map.mp hunits
    obtain ⟨i, -, rfl⟩ := List.mem_map.mp hb
    have hreward : (toyReward recipient i).isCoinbase = true := rfl
    have hrecipient : (toyReward recipient i).recipient = recipient := rfl
    simp only [blockDelta, List.map_cons, List.map_nil, List.sum_cons, List.sum_nil, txDelta, hreward, if_true,
      credit_apply, hrecipient]
    rw [if_neg ha]
    rfl
  dsimp only [chainDelta]
  rw [List.sum_eq_zero hnone]
  rfl

/-- A node that holds `n` such blocks, its balances replayed from them. -/
def paidNode (recipient : Text) (n : ℕ) : ChainState := .holding toyEnv (paidChain recipient n) []

/-- A block with the given transactions. -/
def blockAt (height : ℕ) (txs : List Transaction) : Block := ⟨height, zeroHash, height, txs, 0, 0, zeroHash, zeroHash⟩

theorem paidNode_length (recipient : Text) (n : ℕ) : n = (paidNode recipient n).blocks.length := by
  change n = ((List.range n).map _).length
  rw [List.length_map, List.length_range]

theorem paidNode_slotted (recipient : Text)
    (n : ℕ) : Slotted (paidNode recipient n).blocks := paidChain_slotted recipient n

theorem paidNode_replays (recipient : Text) (n : ℕ) : ∃ st, replayChain (paidNode recipient n).blocks = .ok st ∧
    (paidNode recipient n).balances = st.1 ∧ ∀ a, a ≠ recipient → st.1 a = 0 := by
  obtain ⟨st, hst, hnone⟩ := paidChain_replays recipient n
  refine ⟨st, hst, ?_, hnone⟩
  change ((replayChain (paidChain recipient n)).toOption.map (·.1)).getD (fun _ => 0) = st.1
  rw [hst]
  rfl

/-- A transfer from the miner of those blocks, as the first block past the activation. -/
def firstTransfer : Block := blockAt 1500 [toyReward ['m'] 1500, toyTransfer [1] ['b'] 5 1500]

theorem affordability_gates_agree_at_activation :
    finalizeGate (fun height => .ok height) (paidNode (toyAddress [1]) 1500) firstTransfer = .ok () ↔
      ∃ st st', replayChain (paidNode (toyAddress [1]) 1500).blocks = .ok st ∧
        replayApplyBlockChecked firstTransfer.index firstTransfer.transactions st = .ok st' := by
  obtain ⟨st, hst, hbalances, -⟩ := paidNode_replays (toyAddress [1]) 1500
  have hregular : ∀ tx ∈ [toyTransfer [1] ['b'] 5 1500], tx.isCoinbase = false := by decide +kernel
  have hkey : ∀ tx ∈ firstTransfer.transactions, tx.sender ≠ balancesHeightKey ∧ tx.recipient ≠ balancesHeightKey := by
    decide +kernel
  have hgates := (affordability_gates_agree toyEnv (fun height => .ok height) (paidNode (toyAddress [1]) 1500)
    (paidNode_slotted (toyAddress [1]) 1500) hst (fun a _ => congrFun hbalances a) firstTransfer
    (paidNode_length (toyAddress [1]) 1500) le_rfl rfl rfl hregular hkey).1
  rw [hgates]
  constructor
  · rintro ⟨st', hst'⟩
    exact ⟨st, st', hst, hst'⟩
  · rintro ⟨u, st', hu, hst'⟩
    rw [hst] at hu
    cases hu
    exact ⟨st', hst'⟩

/-- A block whose coinbase pays the marker's key. -/
def markerBlock (height : ℕ) (amount : ℤ) : Block :=
  blockAt height [{ toyReward balancesHeightKey height with amountUnits := amount }]

theorem replay_markerBlock (height : ℕ) (amount : ℤ) (st : Balances × Recent) :
    replayApplyBlockChecked height (markerBlock height amount).transactions st =
      .ok (credit st.1 balancesHeightKey amount, popMature height st.2 ++ [(height, balancesHeightKey, amount)]) := rfl

theorem batch_markerBlock {markerUnits : ℕ → Res ℤ} {s : ChainState} {height : ℕ} {amount : ℤ} {tree : Text → Res ℤ}
    (h : batchGate toyEnv markerUnits .requireFull s height (markerBlock height amount).transactions = .ok tree) :
    tree balancesHeightKey = markerUnits height := by
  unfold batchGate at h
  obtain ⟨current, -, hrest⟩ := bind_eq_ok.mp h
  obtain ⟨written, -, hwritten⟩ := bind_eq_ok.mp hrest
  cases hwritten
  exact if_pos rfl

/-- A coinbase to the marker's key is accepted by the replay, and for one of two amounts, whatever the marker reads as,
the batch does not write what the replay holds there. -/
theorem marker_diverges (markerUnits : ℕ → Res ℤ) : ∃ amount : ℤ, (amount = 1 ∨ amount = 2) ∧
    ∃ st st', replayChain (paidNode ['a'] 1500).blocks = .ok st ∧ (paidNode ['a'] 1500).balances = st.1 ∧
      replayApplyBlockChecked 1500 (markerBlock 1500 amount).transactions st = .ok st' ∧
      ∀ tree, batchGate toyEnv markerUnits .requireFull (paidNode ['a'] 1500) 1500
        (markerBlock 1500 amount).transactions = .ok tree → tree balancesHeightKey ≠ .ok (st'.1 balancesHeightKey) := by
  obtain ⟨st, hst, hbalances, hnone⟩ := paidNode_replays ['a'] 1500
  have hzero : st.1 balancesHeightKey = 0 := hnone _ (by decide)
  have hcredited : ∀ amount : ℤ, credit st.1 balancesHeightKey amount balancesHeightKey = amount := by
    intro amount
    rw [credit_apply, hzero, if_pos rfl, zero_add]
  by_cases hone : markerUnits 1500 = .ok 1
  · refine ⟨2, .inr rfl, st, _, hst, hbalances, replay_markerBlock 1500 2 st, fun tree htree => ?_⟩
    rw [batch_markerBlock htree, hone]
    dsimp only
    rw [hcredited]
    exact fun heq => absurd (Except.ok.inj heq) (by decide)
  · refine ⟨1, .inl rfl, st, _, hst, hbalances, replay_markerBlock 1500 1 st, fun tree htree => ?_⟩
    rw [batch_markerBlock htree]
    dsimp only
    rw [hcredited]
    exact hone

/-- Under no reading of the marker does the batch agree with the replay on both coinbases to its key. -/
theorem reserved_key_diverges : ¬ ∃ markerUnits : ℕ → Res ℤ, ∀ amount : ℤ, amount = 1 ∨ amount = 2 → ∀ st st',
    replayChain (paidNode ['a'] 1500).blocks = .ok st → (paidNode ['a'] 1500).balances = st.1 →
      replayApplyBlockChecked 1500 (markerBlock 1500 amount).transactions st = .ok st' →
      ∃ tree, batchGate toyEnv markerUnits .requireFull (paidNode ['a'] 1500) 1500
        (markerBlock 1500 amount).transactions = .ok tree ∧ tree balancesHeightKey = .ok (st'.1 balancesHeightKey) := by
  rintro ⟨markerUnits, hagree⟩
  obtain ⟨amount, hamount, st, st', hst, hbalances, hst', hdiverges⟩ := marker_diverges markerUnits
  obtain ⟨tree, htree, hkey⟩ := hagree amount hamount st st' hst hbalances hst'
  exact hdiverges tree htree hkey

end Alphanumeric
