/-
# Balances: replay, revert and the tip-extension batch

Three pieces of code move balances. `replay_apply_block_checked` applies one block
to running totals with a rolling window of immature coinbases (the rebuild, the
catch-up and the reorg dry-run use it); `replay_revert_block` is its inverse;
`process_transactions_batch` applies a tip extension and reads the immature
coinbases from the stored blocks. The theorems say that all three agree with one
thing, the replay of the whole chain from genesis, `replayChain`.

Key definitions: `replayApplyBlockChecked`, `replayRevertBlock`, `replayChain`,
`seedRecent`, `processTransactionsBatch`.
Key theorems: `replayBlocks_append`, `replayBlocks_recent`, `revert_replay`,
`processTransactionsBatch_eq_replay`.
-/
import Alphanumeric.Validation

namespace Alphanumeric

open Guard BlockchainError

variable (E : Env)

/-! ### Replay -/

abbrev Balances : Type := Text → ℤ

/-- The rolling window of immature coinbases, oldest first: height, recipient, amount. -/
abbrev Recent : Type := List (ℕ × Text × ℤ)

def credit (bal : Balances) (address : Text) (units : ℤ) : Balances :=
  fun a => if a = address then bal a + units else bal a

def immatureUnits (recent : Recent) (address : Text) : ℤ :=
  ((recent.filter fun r => r.2.1 = address).map (·.2.2)).sum

/-- Drop the coinbases that are mature at height `h` from the front of the window. -/
def popMature (h : ℕ) (recent : Recent) : Recent :=
  recent.dropWhile fun r => r.1 + miningRewardMaturity ≤ h

def replayApplyTx (height : ℕ) (st : Balances × Recent) (tx : Transaction) :
    Res (Balances × Recent) :=
  if tx.isCoinbase then
    .ok (credit st.1 tx.recipient tx.amountUnits,
      st.2 ++ [(height, tx.recipient, tx.amountUnits)])
  else
    let immature := if maturityActivationHeight ≤ height then immatureUnits st.2 tx.sender else 0
    if st.1 tx.sender - immature < tx.totalDebitUnits then .error insufficientFunds
    else .ok (credit (credit st.1 tx.sender (-tx.totalDebitUnits)) tx.recipient tx.amountUnits, st.2)

def replayApplyTxs (height : ℕ) : List Transaction → Balances × Recent → Res (Balances × Recent)
  | [], st => .ok st
  | tx :: txs, st => do
    let st' ← replayApplyTx height st tx
    replayApplyTxs height txs st'

def replayApplyBlockChecked (height : ℕ) (txs : List Transaction) (st : Balances × Recent) :
    Res (Balances × Recent) :=
  replayApplyTxs height txs (st.1, popMature height st.2)

def replayRevertTx (bal : Balances) (tx : Transaction) : Balances :=
  if tx.isCoinbase then credit bal tx.recipient (-tx.amountUnits)
  else credit (credit bal tx.sender tx.totalDebitUnits) tx.recipient (-tx.amountUnits)

def replayRevertBlock (txs : List Transaction) (bal : Balances) : Balances :=
  txs.foldl replayRevertTx bal

/-- Replay a run of blocks, each at its own height. -/
def replayBlocks : List Block → Balances × Recent → Res (Balances × Recent)
  | [], st => .ok st
  | b :: bs, st => do
    let st' ← replayApplyBlockChecked b.index b.transactions st
    replayBlocks bs st'

/-- The replay from genesis: what every balance path must agree with. -/
def replayChain (chain : List Block) : Res (Balances × Recent) := replayBlocks chain (fun _ => 0, [])

/-- A block's coinbases as window entries. -/
def coinbases (b : Block) : Recent :=
  (b.transactions.filter (·.isCoinbase)).map fun tx => (b.index, tx.recipient, tx.amountUnits)

/-- The window entering height `first`, read from the stored blocks
`[first - maturity, first)`. -/
def seedRecent (chain : List Block) (first : ℕ) : Recent :=
  ((chain.take first).drop (first - miningRewardMaturity)).flatMap coinbases

/-! ### The tip-extension batch -/

/-- The immature coinbases of each address at `height`: the block's own, and those of the
stored blocks in `[height - maturity + 1, height)`. -/
def immatureByAddr (chain : List Block) (txs : List Transaction) (height : ℕ) (address : Text) :
    ℤ :=
  if (txs.any fun tx => !tx.isCoinbase) && maturityActivationHeight ≤ height then
    (((txs.filter fun tx => tx.isCoinbase && tx.recipient = address).map (·.amountUnits)).sum) +
      immatureUnits (((chain.take height).drop (height - miningRewardMaturity + 1)).flatMap coinbases)
        address
  else 0

def applyBatchTx (mode : SignatureValidationMode) (current : Balances) (immature : Text → ℤ)
    (changes : Balances) (tx : Transaction) : Res Balances :=
  if tx.isCoinbase then .ok (credit changes tx.recipient tx.amountUnits)
  else do
    match mode with
    | .requireFull => verifyTransactionSignature E tx
    | .allowTruncatedStored => verifyTransactionReceiptFields E tx
    ensure (tx.totalDebitUnits ≤ current tx.sender + changes tx.sender - immature tx.sender)
      insufficientFunds
    .ok (credit (credit changes tx.sender (-tx.totalDebitUnits)) tx.recipient tx.amountUnits)

def applyBatchTxs (mode : SignatureValidationMode) (current : Balances) (immature : Text → ℤ) :
    List Transaction → Balances → Res Balances
  | [], changes => .ok changes
  | tx :: txs, changes => do
    let changes' ← applyBatchTx E mode current immature changes tx
    applyBatchTxs mode current immature txs changes'

/-- `process_transactions_batch`: the balances after a tip extension at `height`. -/
def processTransactionsBatch (mode : SignatureValidationMode) (chain : List Block)
    (current : Balances) (height : ℕ) (txs : List Transaction) : Res Balances := do
  let changes ← applyBatchTxs E mode current (immatureByAddr chain txs height) txs fun _ => 0
  .ok fun a => current a + changes a

/-! ### What a block does to the totals

Every path adds the same amounts to the totals: a block's effect is a sum over its
transactions, so the order in which blocks are reverted does not matter. -/

/-- What a transaction adds to each balance. -/
def txDelta (tx : Transaction) : Balances :=
  if tx.isCoinbase then credit (fun _ => 0) tx.recipient tx.amountUnits
  else credit (credit (fun _ => 0) tx.sender (-tx.totalDebitUnits)) tx.recipient tx.amountUnits

def blockDelta (txs : List Transaction) : Balances := fun a => (txs.map fun tx => txDelta tx a).sum

/-- A block's coinbases at a height, as window entries. -/
def coinbasesAt (height : ℕ) (txs : List Transaction) : Recent :=
  (txs.filter (·.isCoinbase)).map fun tx => (height, tx.recipient, tx.amountUnits)

theorem coinbases_eq (b : Block) : coinbases b = coinbasesAt b.index b.transactions := rfl

theorem credit_apply (bal : Balances) (address : Text) (units : ℤ) (a : Text) :
    credit bal address units a = bal a + if a = address then units else 0 := by
  by_cases h : a = address <;> simp [credit, h]

theorem txDelta_coinbase {tx : Transaction} (h : tx.isCoinbase = true) (bal : Balances) :
    credit bal tx.recipient tx.amountUnits = fun a => bal a + txDelta tx a := by
  funext a
  simp only [txDelta, h, if_true, credit_apply, zero_add]

theorem txDelta_regular {tx : Transaction} (h : tx.isCoinbase = false) (bal : Balances) :
    credit (credit bal tx.sender (-tx.totalDebitUnits)) tx.recipient tx.amountUnits =
      fun a => bal a + txDelta tx a := by
  funext a
  simp only [txDelta, h, Bool.false_eq_true, if_false, credit_apply, zero_add, add_assoc]

theorem replayApplyTx_ok {height : ℕ} {st st' : Balances × Recent} {tx : Transaction}
    (h : replayApplyTx height st tx = .ok st') :
    st' = ((fun a => st.1 a + txDelta tx a), st.2 ++ coinbasesAt height [tx]) := by
  unfold replayApplyTx at h
  cases hcb : tx.isCoinbase with
  | true =>
    rw [if_pos hcb] at h
    cases h
    simp [txDelta_coinbase hcb, coinbasesAt, hcb]
  | false =>
    rw [if_neg (by simp [hcb])] at h
    dsimp only at h
    generalize (if maturityActivationHeight ≤ height then immatureUnits st.2 tx.sender else 0) = m at h
    split_ifs at h
    cases h
    simp [txDelta_regular hcb, coinbasesAt, hcb]

theorem coinbasesAt_cons (height : ℕ) (tx : Transaction) (txs : List Transaction) :
    coinbasesAt height (tx :: txs) = coinbasesAt height [tx] ++ coinbasesAt height txs := by
  by_cases h : tx.isCoinbase = true <;> simp [coinbasesAt, h]

/-- Replaying transactions adds their amounts and appends their coinbases. -/
theorem replayApplyTxs_ok {height : ℕ} :
    ∀ {txs : List Transaction} {st st' : Balances × Recent}, replayApplyTxs height txs st = .ok st' →
      st' = ((fun a => st.1 a + blockDelta txs a), st.2 ++ coinbasesAt height txs)
  | [], st, st', h => by
    cases h
    simp [blockDelta, coinbasesAt]
  | tx :: txs, st, st', h => by
    unfold replayApplyTxs at h
    obtain ⟨st₁, h₁, h⟩ := bind_eq_ok.mp h
    rw [replayApplyTxs_ok h, replayApplyTx_ok h₁, coinbasesAt_cons height tx txs]
    simp only [blockDelta, List.map_cons, List.sum_cons, add_assoc, List.append_assoc]

theorem replayApplyBlockChecked_ok {height : ℕ} {txs : List Transaction} {st st' : Balances × Recent}
    (h : replayApplyBlockChecked height txs st = .ok st') :
    st' = ((fun a => st.1 a + blockDelta txs a), popMature height st.2 ++ coinbasesAt height txs) :=
  replayApplyTxs_ok h

theorem replayRevertTx_eq (bal : Balances) (tx : Transaction) :
    replayRevertTx bal tx = fun a => bal a - txDelta tx a := by
  funext a
  unfold replayRevertTx txDelta
  split_ifs <;> simp only [credit_apply] <;> split_ifs <;> ring

theorem replayRevertBlock_eq :
    ∀ (txs : List Transaction) (bal : Balances),
      replayRevertBlock txs bal = fun a => bal a - blockDelta txs a
  | [], bal => by simp [replayRevertBlock, blockDelta]
  | tx :: txs, bal => by
    have ih := replayRevertBlock_eq txs (replayRevertTx bal tx)
    unfold replayRevertBlock at ih ⊢
    rw [List.foldl_cons, ih, replayRevertTx_eq]
    funext a
    simp only [blockDelta, List.map_cons, List.sum_cons]
    ring

/-- What a run of blocks adds to each balance. -/
def chainDelta (bs : List Block) : Balances := fun a => (bs.map fun b => blockDelta b.transactions a).sum

theorem replayBlocks_balances :
    ∀ {bs : List Block} {st st' : Balances × Recent}, replayBlocks bs st = .ok st' →
      st'.1 = fun a => st.1 a + chainDelta bs a
  | [], st, st', h => by
    cases h
    simp [chainDelta]
  | b :: bs, st, st', h => by
    unfold replayBlocks at h
    obtain ⟨st₁, h₁, h⟩ := bind_eq_ok.mp h
    rw [replayBlocks_balances h, replayApplyBlockChecked_ok h₁]
    simp only [chainDelta, List.map_cons, List.sum_cons, add_assoc]

theorem revertBlocks_eq :
    ∀ (bs : List Block) (bal : Balances),
      bs.foldl (fun bal b => replayRevertBlock b.transactions bal) bal = fun a => bal a - chainDelta bs a
  | [], bal => by simp [chainDelta]
  | b :: bs, bal => by
    rw [List.foldl_cons, revertBlocks_eq bs, replayRevertBlock_eq]
    funext a
    simp only [chainDelta, List.map_cons, List.sum_cons]
    ring

theorem replayBlocks_append :
    ∀ (xs ys : List Block) (st : Balances × Recent),
      replayBlocks (xs ++ ys) st = replayBlocks xs st >>= replayBlocks ys
  | [], ys, st => rfl
  | x :: xs, ys, st => by
    simp only [List.cons_append, replayBlocks]
    cases replayApplyBlockChecked x.index x.transactions st with
    | error e => rfl
    | ok st' => exact replayBlocks_append xs ys st'

/-- **Reverting undoes replay**: the totals of a chain with the blocks above a fork
reverted are the totals of what lies below the fork. -/
theorem revert_replay {xs ys : List Block} {st st' : Balances × Recent}
    (hx : replayBlocks xs (fun _ => 0, []) = .ok st)
    (h : replayBlocks (xs ++ ys) (fun _ => 0, []) = .ok st') :
    ys.foldl (fun bal b => replayRevertBlock b.transactions bal) st'.1 = st.1 := by
  rw [replayBlocks_append, hx] at h
  rw [revertBlocks_eq, replayBlocks_balances h]
  funext a
  simp

/-! ### The maturity window

The rolling window of the replay and the window read from the stored blocks are the same
list: entering height `n` it holds the coinbases of the last `miningRewardMaturity` blocks. -/

theorem seedRecent_length (chain : List Block) :
    seedRecent chain chain.length = (chain.drop (chain.length - miningRewardMaturity)).flatMap coinbases := by
  simp [seedRecent]

theorem mem_flatMap_coinbases (bs : List Block) {r : ℕ × Text × ℤ} (h : r ∈ bs.flatMap coinbases) :
    ∃ b ∈ bs, r.1 = b.index := by
  obtain ⟨b, hb, hr⟩ := List.mem_flatMap.mp h
  simp only [coinbases, List.mem_map] at hr
  obtain ⟨tx, -, rfl⟩ := hr
  exact ⟨b, hb, rfl⟩

theorem popMature_eq_self {height : ℕ} {recent : Recent}
    (h : ∀ r ∈ recent, height < r.1 + miningRewardMaturity) : popMature height recent = recent := by
  unfold popMature
  cases recent with
  | nil => rfl
  | cons r rest =>
    have := h r (by simp)
    rw [List.dropWhile_cons_of_neg (by simpa using this)]

theorem popMature_append {height : ℕ} {mature rest : Recent}
    (h : ∀ r ∈ mature, r.1 + miningRewardMaturity ≤ height) :
    popMature height (mature ++ rest) = popMature height rest := by
  unfold popMature
  rw [List.dropWhile_append_of_pos fun r hr => by simpa using h r hr]

/-- Entering the next height drops the coinbases of one block. -/
theorem popMature_seedRecent {chain : List Block}
    (hs : Slotted chain) :
    popMature chain.length (seedRecent chain chain.length) =
      (chain.drop (chain.length + 1 - miningRewardMaturity)).flatMap coinbases := by
  have hyoung : ∀ n, chain.length < n + miningRewardMaturity →
      ∀ r ∈ (chain.drop n).flatMap coinbases, chain.length < r.1 + miningRewardMaturity := by
    intro n hn r hr
    obtain ⟨b, hb, hrb⟩ := mem_flatMap_coinbases _ hr
    obtain ⟨i, hi, rfl⟩ := List.getElem_of_mem hb
    have hget : chain[n + i]? = some (chain.drop n)[i] := by
      rw [← List.getElem?_drop, List.getElem?_eq_getElem hi]
    have := hs _ _ hget
    omega
  rw [seedRecent_length]
  rcases Nat.lt_or_ge chain.length miningRewardMaturity with hlt | hge
  · rw [show chain.length + 1 - miningRewardMaturity = 0 by omega,
      show chain.length - miningRewardMaturity = 0 by omega]
    exact popMature_eq_self (hyoung 0 (by omega))
  · have hpos : chain.length - miningRewardMaturity < chain.length := by
      unfold miningRewardMaturity at *
      omega
    rw [List.drop_eq_getElem_cons hpos, List.flatMap_cons, popMature_append,
      show chain.length + 1 - miningRewardMaturity = chain.length - miningRewardMaturity + 1 by omega]
    · exact popMature_eq_self (hyoung _ (by omega))
    · intro r hr
      obtain ⟨b, hb, hrb⟩ := mem_flatMap_coinbases [_] (by simpa using hr)
      obtain rfl := List.mem_singleton.mp hb
      have := hs _ _ (List.getElem?_eq_getElem hpos)
      omega

theorem seedRecent_snoc {chain : List Block} {b : Block}
    (hs : Slotted chain) (hb : b.index = chain.length) :
    popMature b.index (seedRecent chain chain.length) ++ coinbasesAt b.index b.transactions =
      seedRecent (chain ++ [b]) (chain ++ [b]).length := by
  have hle : chain.length + 1 - miningRewardMaturity ≤ chain.length := by
    unfold miningRewardMaturity
    omega
  rw [hb, popMature_seedRecent hs, seedRecent_length, ← hb, ← coinbases_eq, hb, List.length_append,
    List.length_singleton, List.drop_append_of_le_length hle]
  simp

/-- The window a replay leaves is the one read from the stored blocks. -/
theorem replayBlocks_recent :
    ∀ (bs chain : List Block) {bal : Balances} {st : Balances × Recent},
      Slotted (chain ++ bs) →
      replayBlocks bs (bal, seedRecent chain chain.length) = .ok st →
      st.2 = seedRecent (chain ++ bs) (chain ++ bs).length
  | [], chain, bal, st, _, h => by
    cases h
    simp
  | b :: bs, chain, bal, st, hs, h => by
    unfold replayBlocks at h
    obtain ⟨st₁, h₁, h⟩ := bind_eq_ok.mp h
    have hb : b.index = chain.length := hs chain.length b (by simp)
    have hpre : Slotted chain := fun i c hc =>
      hs i c (by rw [List.getElem?_append_left (List.getElem?_eq_some_iff.mp hc).1]; exact hc)
    have hst := replayApplyBlockChecked_ok h₁
    rw [hst, seedRecent_snoc hpre hb] at h
    rw [replayBlocks_recent bs (chain ++ [b]) (by simpa using hs) h]
    simp

/-! ### The batch is the replay -/

/-- The signature check of the batch, by mode. -/
def verifyForMode (mode : SignatureValidationMode) (tx : Transaction) : Res Unit :=
  match mode with
  | .requireFull => verifyTransactionSignature E tx
  | .allowTruncatedStored => verifyTransactionReceiptFields E tx

variable {E}

theorem applyBatchTx_ok {mode : SignatureValidationMode} {current changes changes' : Balances}
    {immature : Text → ℤ} {tx : Transaction} (hcb : tx.isCoinbase = false)
    (hsig : verifyForMode E mode tx = .ok ()) :
    applyBatchTx E mode current immature changes tx = .ok changes' ↔
      tx.totalDebitUnits ≤ current tx.sender + changes tx.sender - immature tx.sender ∧
        changes' = fun a => changes a + txDelta tx a := by
  rw [← txDelta_regular hcb changes]
  cases mode <;>
    simp only [verifyForMode] at hsig <;>
    simp only [applyBatchTx, hcb, Bool.false_eq_true, if_false, hsig, bind_unit_eq_ok, ensure_eq_ok,
      true_and, Except.ok.injEq] <;>
    exact and_congr_right fun _ => eq_comm

theorem replayApplyTx_regular {height : ℕ} {bal : Balances} {recent : Recent} {tx : Transaction}
    {st : Balances × Recent} (hcb : tx.isCoinbase = false) :
    replayApplyTx height (bal, recent) tx = .ok st ↔
      tx.totalDebitUnits ≤ bal tx.sender -
          (if maturityActivationHeight ≤ height then immatureUnits recent tx.sender else 0) ∧
        st = ((fun a => bal a + txDelta tx a), recent) := by
  simp only [replayApplyTx, hcb, Bool.false_eq_true, if_false, txDelta_regular hcb bal]
  generalize (if maturityActivationHeight ≤ height then immatureUnits recent tx.sender else 0) = m
  split_ifs with hlt
  · constructor
    · intro h
      cases h
    · rintro ⟨hle, -⟩
      omega
  · simp only [Except.ok.injEq]
    constructor
    · rintro rfl
      exact ⟨by omega, rfl⟩
    · rintro ⟨-, rfl⟩
      rfl

/-- The regular transactions of a block, one after the other: the batch keeps the changes
apart from the totals it started from, the replay adds them up. -/
theorem applyBatchTxs_eq_replay {mode : SignatureValidationMode} {height : ℕ} (current : Balances)
    {recent : Recent} {immature : Text → ℤ} :
    ∀ (txs : List Transaction) (changes : Balances), (∀ tx ∈ txs, tx.isCoinbase = false) →
      (∀ tx ∈ txs, verifyForMode E mode tx = .ok ()) →
      (∀ tx ∈ txs, immature tx.sender =
        if maturityActivationHeight ≤ height then immatureUnits recent tx.sender else 0) →
      ∀ bal, (∃ changes', applyBatchTxs E mode current immature txs changes = .ok changes' ∧
          bal = fun a => current a + changes' a) ↔
        ∃ recent', replayApplyTxs height txs ((fun a => current a + changes a), recent) =
          .ok (bal, recent')
  | [], changes, _, _, _, bal => by
    simp only [applyBatchTxs, replayApplyTxs, Except.ok.injEq, Prod.mk.injEq]
    exact ⟨fun ⟨_, h, h'⟩ => ⟨recent, by rw [h', ← h], rfl⟩, fun ⟨_, h, _⟩ => ⟨changes, rfl, h.symm⟩⟩
  | tx :: txs, changes, hcb, hsig, him, bal => by
    have ih := applyBatchTxs_eq_replay current txs (fun a => changes a + txDelta tx a)
      (fun t ht => hcb t (by simp [ht])) (fun t ht => hsig t (by simp [ht]))
      (fun t ht => him t (by simp [ht])) bal
    have hstep : ∀ st, replayApplyTx height ((fun a => current a + changes a), recent) tx = .ok st ↔
        tx.totalDebitUnits ≤ current tx.sender + changes tx.sender - immature tx.sender ∧
          st = ((fun a => current a + (changes a + txDelta tx a)), recent) := by
      intro st
      rw [replayApplyTx_regular (hcb tx (by simp)), him tx (by simp)]
      simp only [add_assoc]
    simp only [applyBatchTxs, replayApplyTxs, bind_eq_ok, hstep,
      applyBatchTx_ok (hcb tx (by simp)) (hsig tx (by simp))]
    constructor
    · rintro ⟨changes', ⟨_, ⟨hle, rfl⟩, h⟩, hbal⟩
      obtain ⟨recent', hr⟩ := ih.mp ⟨changes', h, hbal⟩
      exact ⟨recent', _, ⟨hle, rfl⟩, hr⟩
    · rintro ⟨recent', _, ⟨hle, rfl⟩, hr⟩
      obtain ⟨changes', h, hbal⟩ := ih.mpr ⟨recent', hr⟩
      exact ⟨changes', ⟨_, ⟨hle, rfl⟩, h⟩, hbal⟩

theorem immatureUnits_append (xs ys : Recent) (a : Text) :
    immatureUnits (xs ++ ys) a = immatureUnits xs a + immatureUnits ys a := by
  simp [immatureUnits]

/-- **The batch is the replay.** For a block whose coinbase comes first and alone, applying
it on the tip gives the totals that replaying it gives, or both refuse it. -/
theorem processTransactionsBatch_eq_replay {mode : SignatureValidationMode} {chain : List Block}
    {current : Balances} {reward : Transaction} {txs : List Transaction} (hs : Slotted chain)
    (hreward : reward.isCoinbase = true) (hcb : ∀ tx ∈ txs, tx.isCoinbase = false)
    (hsig : ∀ tx ∈ txs, verifyForMode E mode tx = .ok ()) (bal : Balances) :
    processTransactionsBatch E mode chain current chain.length (reward :: txs) = .ok bal ↔
      ∃ recent, replayApplyBlockChecked chain.length (reward :: txs)
        (current, seedRecent chain chain.length) = .ok (bal, recent) := by
  set recent := popMature chain.length (seedRecent chain chain.length) ++
    [(chain.length, reward.recipient, reward.amountUnits)] with hrecent
  have him : ∀ tx ∈ txs, immatureByAddr chain (reward :: txs) chain.length tx.sender =
      if maturityActivationHeight ≤ chain.length then immatureUnits recent tx.sender else 0 := by
    intro tx htx
    have hany : ((reward :: txs).any fun tx => !tx.isCoinbase) = true := by
      simp only [List.any_cons, Bool.or_eq_true, List.any_eq_true]
      exact .inr ⟨tx, htx, by simp [hcb tx htx]⟩
    have hown : (reward :: txs).filter (fun t => t.isCoinbase && decide (t.recipient = tx.sender)) =
        [reward].filter fun t => decide (t.recipient = tx.sender) := by
      rw [List.filter_cons, List.filter_cons, List.filter_nil, hreward, Bool.true_and,
        List.filter_eq_nil_iff.mpr fun t ht => by simp [hcb t ht]]
    unfold immatureByAddr
    simp only [hany, Bool.true_and, decide_eq_true_eq, hown]
    split_ifs with hact
    · have hmat : chain.length - miningRewardMaturity + 1 = chain.length + 1 - miningRewardMaturity := by
        unfold miningRewardMaturity maturityActivationHeight at *
        omega
      rw [hrecent, immatureUnits_append, popMature_seedRecent hs, hmat, List.take_length, add_comm]
      congr 1
      by_cases h : reward.recipient = tx.sender <;> simp [immatureUnits, h]
    · rfl
  have hrest := applyBatchTxs_eq_replay current txs
    (credit (fun _ => 0) reward.recipient reward.amountUnits) hcb hsig him bal
  have hfirst : (fun a => current a + credit (fun _ => 0) reward.recipient reward.amountUnits a) =
      credit current reward.recipient reward.amountUnits := by
    funext a
    simp [credit_apply]
  rw [hfirst] at hrest
  have hreplay : replayApplyBlockChecked chain.length (reward :: txs)
      (current, seedRecent chain chain.length) =
      replayApplyTxs chain.length txs (credit current reward.recipient reward.amountUnits, recent) := by
    simp only [replayApplyBlockChecked, replayApplyTxs, replayApplyTx, hreward, if_true]
    rfl
  rw [hreplay, ← hrest]
  simp only [processTransactionsBatch, applyBatchTxs, applyBatchTx, hreward, if_true, bind_eq_ok]
  constructor
  · rintro ⟨changes, ⟨_, h₁, h⟩, hbal⟩
    cases h₁
    cases hbal
    exact ⟨changes, h, rfl⟩
  · rintro ⟨changes, h, rfl⟩
    exact ⟨changes, ⟨_, rfl, h⟩, rfl⟩

end Alphanumeric
