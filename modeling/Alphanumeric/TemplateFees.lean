/-
# Fee accounting of blocks and templates

The miner packs a block with running totals (`TemplateFeeAccounting`) where validation folds the
whole list through `calculate_block_reward` (`src/a9/blockchain.rs`). Below the Reward V2
height fees are folded as `f64` coins, in the order of the list; above it in exact units. The coins
are a type with an addition and the two conversions, of which the lower height needs nothing.

Key definitions: `Coins`, `Coins.calculateBlockReward`, `TemplateFeeAccounting`, `Coins.admits`, `Coins.feed`,
`FaithfulUnits`.
Key theorems: `FaithfulUnits.reward_bounds`, `Coins.Carries.commit`, `Coins.feed_carries`,
`Coins.template_accounting_agrees`, `reward_v2_accounting`.
-/
import Alphanumeric.Validation

namespace Alphanumeric

open Guard BlockchainError

/-- `f64` coins and what is computed in them: the conversions, the sum of fees, the legacy reward
(from genesis time, block time, number of regular transactions and their fees) and the scheduled subsidy. -/
structure Coins (F : Type) where
  zero : F
  add : F → F → F
  fromUnits : ℤ → F
  toUnits : F → ℤ
  genesisAmount : F
  legacyReward : ℕ → ℕ → ℕ → F → F
  subsidyUnits : ℕ → ℕ → ℤ

def i128Min : ℤ := -2 ^ 127

/-- `checked_sub` on `i128`. -/
def checkedSub (a b : ℤ) : Res ℤ := do
  ensure (i128Min ≤ a - b ∧ a - b ≤ i128Max) invalidTransactionAmount
  .ok (a - b)

/-- One more fee: a negative one and an overflow are errors. -/
def addFee (total fee : ℤ) : Res ℤ := do
  ensure (0 ≤ fee) invalidTransactionAmount
  ensure (total + fee ≤ i128Max) invalidTransactionAmount
  .ok (total + fee)

/-- The `try_fold` over the fees. -/
def foldFees : List ℤ → ℤ → Res ℤ
  | [], total => .ok total
  | fee :: fees, total => do
    let total ← addFee total fee
    foldFees fees total

structure TemplateFeeAccounting (F : Type) where
  activated : Bool
  blockIndex : ℕ
  blockTimestamp : ℕ
  baselineUnits : ℤ
  txCount : ℕ
  totalFees : F
  totalFeeUnits : ℤ

namespace Coins

variable {F : Type} (C : Coins F) (genesis : Res ℕ)

/-- The witness-free view that the template check gives to the block form. -/
def accountingTransaction (tx : Transaction) : Transaction :=
  { sender := if tx.isCoinbase then miningRewards else [], recipient := [], feeUnits := tx.feeUnits
    amountUnits := tx.amountUnits, timestamp := tx.timestamp, signature := none, pubKey := none, sigHash := none }

/-! ### The block form -/

/-- `block_reward_from_totals` below the Reward V2 height. -/
def blockRewardFromTotals (index timestamp txCount : ℕ) (totalFees : F) : Res F :=
  if index = 0 then .ok C.genesisAmount
  else do
    let genesisTs ← genesis
    .ok (C.legacyReward genesisTs timestamp txCount totalFees)

def blockRewardUnitsFromTotals (index timestamp txCount : ℕ) (totalFeeUnits : ℤ) : Res ℤ :=
  if index = 0 then .ok (C.toUnits C.genesisAmount)
  else if index < rewardCurveV2ActivationHeight then do
    let reward ← C.blockRewardFromTotals genesis index timestamp txCount (C.fromUnits totalFeeUnits)
    .ok (C.toUnits reward)
  else do
    let genesisTs ← genesis
    rewardCurveV2Units (C.subsidyUnits genesisTs timestamp) txCount totalFeeUnits

def scheduledBaselineUnitsAt (index timestamp : ℕ) : Res ℤ :=
  if index = 0 then .ok (C.toUnits C.genesisAmount)
  else do
    let empty ← C.blockRewardUnitsFromTotals genesis index timestamp 0 0
    let nonemptyFloor ← C.blockRewardUnitsFromTotals genesis index timestamp 1 0
    let compatibility ← C.blockRewardUnitsFromTotals genesis index timestamp 1 lowFeeCompatibilityEnvelopeUnits
    let compatibilityNet ← checkedSub compatibility lowFeeCompatibilityEnvelopeUnits
    .ok (max (max empty nonemptyFloor) compatibilityNet)

/-- The fees as the legacy form adds them, in the order of the list. -/
def sumFees (fees : List ℤ) : F := fees.foldl (fun total fee => C.add total (C.fromUnits fee)) C.zero

def calculateBlockReward (index timestamp : ℕ) (txs : List Transaction) : Res F :=
  if index = 0 then .ok C.genesisAmount
  else if rewardCurveV2ActivationHeight ≤ index then do
    let totalFeeUnits ← foldFees (regularFees txs) 0
    let units ← C.blockRewardUnitsFromTotals genesis index timestamp (regularFees txs).length totalFeeUnits
    .ok (C.fromUnits units)
  else C.blockRewardFromTotals genesis index timestamp (regularFees txs).length (C.sumFees (regularFees txs))

def feeAccountingIsAdmissible (index timestamp : ℕ) (txs : List Transaction) (expectedRewardUnits : ℤ) : Res Bool := do
  let totalFeeUnits ← foldFees (regularFees txs) 0
  let baseline ← C.scheduledBaselineUnitsAt genesis index timestamp
  let net ← checkedSub expectedRewardUnits totalFeeUnits
  .ok (net ≤ baseline)

def templateFeeAccountingIsAdmissibleAt (index timestamp : ℕ) (txs : List Transaction) (activationHeight : ℕ) :
    Res Bool :=
  if index < activationHeight then .ok true
  else do
    let accountingTxs := txs.map accountingTransaction
    let reward ← C.calculateBlockReward genesis index timestamp accountingTxs
    C.feeAccountingIsAdmissible genesis index timestamp accountingTxs (C.toUnits reward)

/-! ### The running form -/

def newAccounting (index timestamp activationHeight : ℕ) : Res (TemplateFeeAccounting F) :=
  if activationHeight ≤ index then do
    let baseline ← C.scheduledBaselineUnitsAt genesis index timestamp
    .ok ⟨true, index, timestamp, baseline, 0, C.zero, 0⟩
  else .ok ⟨false, index, timestamp, 0, 0, C.zero, 0⟩

def totalsWith (acc : TemplateFeeAccounting F) (tx : Transaction) : Res (ℕ × F × ℤ) := do
  let totalFeeUnits ← addFee acc.totalFeeUnits tx.feeUnits
  .ok (acc.txCount + 1, C.add acc.totalFees (C.fromUnits tx.feeUnits), totalFeeUnits)

def admits (acc : TemplateFeeAccounting F) (tx : Transaction) : Res Bool :=
  if !acc.activated then .ok true
  else do
    let totals ← C.totalsWith acc tx
    let rewardUnits ←
      if rewardCurveV2ActivationHeight ≤ acc.blockIndex then
        C.blockRewardUnitsFromTotals genesis acc.blockIndex acc.blockTimestamp totals.1 totals.2.2
      else do
        let reward ← C.blockRewardFromTotals genesis acc.blockIndex acc.blockTimestamp totals.1 totals.2.1
        .ok (C.toUnits reward)
    let net ← checkedSub rewardUnits totals.2.2
    .ok (net ≤ acc.baselineUnits)

def commit (acc : TemplateFeeAccounting F) (tx : Transaction) : Res (TemplateFeeAccounting F) := do
  let totals ← C.totalsWith acc tx
  .ok { acc with txCount := totals.1, totalFees := totals.2.1, totalFeeUnits := totals.2.2 }

/-- The packer's loop: each candidate is skipped, or committed after it was admitted. What it selected comes second. -/
def feed : List (Transaction × Bool) → TemplateFeeAccounting F → List Transaction →
    TemplateFeeAccounting F × List Transaction
  | [], acc, selected => (acc, selected)
  | (tx, take) :: rest, acc, selected =>
    match take, C.admits genesis acc tx, C.commit acc tx with
    | true, .ok true, .ok acc' => feed rest acc' (selected ++ [tx])
    | _, _, _ => feed rest acc selected

end Coins

/-! ### Reward V2 in units -/

/-- What `to_units ∘ from_units` does: below 2^51 units it is the identity (the repository's test has the first drift at
3_355_443_200_000_019 units). From there on the seven roundings of its `f64` operations and the three to whole units
stay within a relative error of 2^-48. Every operation keeps order. -/
structure FaithfulUnits (through : ℤ → ℤ) : Prop where
  exact : ∀ n, 0 ≤ n → n < 2 ^ 51 → through n = n
  near : ∀ n, 2 ^ 51 ≤ n → (through n - n) * 2 ^ 48 ≤ n ∧ (n - through n) * 2 ^ 48 ≤ n
  mono : ∀ m n, m ≤ n → through m ≤ through n

/-- The scheduled subsidy is clamped between nothing and the largest reward, 50 coins. -/
def SubsidyBounded (subsidy : ℤ) : Prop := 0 ≤ subsidy ∧ subsidy ≤ 50 * 10 ^ 8

theorem rewardCurveV2Units_eq_ok {subsidy : ℤ} {txCount : ℕ} {fees reward : ℤ} :
    rewardCurveV2Units subsidy txCount fees = .ok reward ↔ (0 ≤ fees ∧ ¬ (txCount = 0 ∧ fees ≠ 0)) ∧
      fees * 65 ≤ i128Max ∧ subsidy + fees * 65 / 100 ≤ i128Max ∧ subsidy + fees * 65 / 100 = reward := by
  simp only [rewardCurveV2Units, bind_unit_eq_ok, ensure_eq_ok, Except.ok.injEq]

/-- The reward never falls below the subsidy, and never issues more than it, also after the round trip. -/
theorem FaithfulUnits.reward_bounds {through : ℤ → ℤ} (h : FaithfulUnits through) {subsidy fees : ℤ}
    (hs : SubsidyBounded subsidy) (hf : 0 ≤ fees) :
    subsidy ≤ through (subsidy + fees * 65 / 100) ∧ through (subsidy + fees * 65 / 100) - fees ≤ subsidy := by
  obtain ⟨hlow, hhigh⟩ := hs
  rcases lt_or_ge (subsidy + fees * 65 / 100) (2 ^ 51) with hsmall | hbig
  · rw [h.exact _ (by omega) hsmall]
    constructor
    · omega
    · omega
  · obtain ⟨hup, hdown⟩ := h.near _ hbig
    constructor
    · omega
    · omega

namespace Coins

variable {F : Type} {C : Coins F} {genesis : Res ℕ}

/-! ### The two forms agree -/

theorem foldFees_append (fee : ℤ) : ∀ (fees : List ℤ) (total : ℤ),
    foldFees (fees ++ [fee]) total = foldFees fees total >>= fun total => addFee total fee
  | [], total => by
    simp only [List.nil_append, foldFees, ok_bind]
    cases addFee total fee with
    | error e => rfl
    | ok total' => rfl
  | first :: fees, total => by
    simp only [List.cons_append, foldFees]
    cases addFee total first with
    | error e => rfl
    | ok total' => exact foldFees_append fee fees total'

theorem sumFees_append (fees : List ℤ) (fee : ℤ) :
    C.sumFees (fees ++ [fee]) = C.add (C.sumFees fees) (C.fromUnits fee) := by
  unfold sumFees
  rw [List.foldl_append]
  rfl

theorem addFee_eq_ok {total fee total' : ℤ} :
    addFee total fee = .ok total' ↔ 0 ≤ fee ∧ total + fee ≤ i128Max ∧ total + fee = total' := by
  simp only [addFee, bind_unit_eq_ok, ensure_eq_ok, Except.ok.injEq]

theorem regularFees_accounting (txs : List Transaction) :
    regularFees (txs.map accountingTransaction) = regularFees txs := by
  have hkind : ∀ tx : Transaction, (accountingTransaction tx).isCoinbase = tx.isCoinbase := by
    intro tx
    unfold accountingTransaction
    cases htx : tx.isCoinbase with
    | true => rfl
    | false => rfl
  unfold regularFees
  rw [List.filter_map, List.map_map]
  simp only [Function.comp_def, hkind]
  rfl

theorem regularFees_of_regular {txs : List Transaction} (h : ∀ tx ∈ txs, tx.isCoinbase = false) :
    regularFees txs = txs.map (·.feeUnits) := by
  have hall : (txs.filter fun tx => !tx.isCoinbase) = txs := List.filter_eq_self.mpr fun tx htx => by simp [h tx htx]
  rw [regularFees, hall]

/-- The running totals are those of the selected list. -/
structure Carries (C : Coins F) (genesis : Res ℕ) (index timestamp activationHeight : ℕ) (acc : TemplateFeeAccounting F)
    (selected : List Transaction) : Prop where
  activated : acc.activated = decide (activationHeight ≤ index)
  blockIndex : acc.blockIndex = index
  blockTimestamp : acc.blockTimestamp = timestamp
  baseline : activationHeight ≤ index → C.scheduledBaselineUnitsAt genesis index timestamp = .ok acc.baselineUnits
  regular : ∀ tx ∈ selected, tx.isCoinbase = false
  txCount : acc.txCount = selected.length
  totalFees : acc.totalFees = C.sumFees (selected.map (·.feeUnits))
  totalFeeUnits : foldFees (selected.map (·.feeUnits)) 0 = .ok acc.totalFeeUnits
  nonneg : 0 ≤ acc.totalFeeUnits

variable {index timestamp activationHeight : ℕ} {acc : TemplateFeeAccounting F} {selected : List Transaction}

theorem Carries.new {acc : TemplateFeeAccounting F}
    (h : C.newAccounting genesis index timestamp activationHeight = .ok acc) :
    C.Carries genesis index timestamp activationHeight acc [] := by
  unfold newAccounting at h
  by_cases hactive : activationHeight ≤ index
  · rw [if_pos hactive] at h
    obtain ⟨baseline, hbaseline, hacc⟩ := bind_eq_ok.mp h
    cases hacc
    exact ⟨by simp [hactive], rfl, rfl, fun _ => hbaseline, by simp, rfl, rfl, rfl, le_rfl⟩
  · rw [if_neg hactive] at h
    cases h
    exact ⟨by simp [hactive], rfl, rfl, fun hle => absurd hle hactive, by simp, rfl, rfl, rfl, le_rfl⟩

/-- A commit carries the totals on. -/
theorem Carries.commit (h : C.Carries genesis index timestamp activationHeight acc selected) {tx : Transaction}
    (htx : tx.isCoinbase = false) {acc' : TemplateFeeAccounting F} (hcommit : C.commit acc tx = .ok acc') :
    C.Carries genesis index timestamp activationHeight acc' (selected ++ [tx]) := by
  obtain ⟨totals, htotals, hacc⟩ := bind_eq_ok.mp hcommit
  obtain ⟨units, hunits, hsplit⟩ := bind_eq_ok.mp htotals
  cases hsplit
  cases hacc
  obtain ⟨hfee, -, rfl⟩ := addFee_eq_ok.mp hunits
  have hpos := h.nonneg
  refine ⟨h.activated, h.blockIndex, h.blockTimestamp, h.baseline, ?_, ?_, ?_, ?_, ?_⟩
  · intro u hu
    rcases List.mem_append.mp hu with hold | hlast
    · exact h.regular u hold
    · rw [List.mem_singleton.mp hlast]
      exact htx
  · simp [h.txCount]
  · rw [List.map_append, List.map_singleton, sumFees_append, ← h.totalFees]
  · rw [List.map_append, List.map_singleton, foldFees_append, h.totalFeeUnits, ok_bind]
    exact hunits
  · change 0 ≤ acc.totalFeeUnits + tx.feeUnits
    omega

theorem feed_carries : ∀ (candidates : List (Transaction × Bool)) {acc : TemplateFeeAccounting F}
    {selected : List Transaction}, (∀ c ∈ candidates, c.1.isCoinbase = false) →
    C.Carries genesis index timestamp activationHeight acc selected →
    C.Carries genesis index timestamp activationHeight (C.feed genesis candidates acc selected).1
      (C.feed genesis candidates acc selected).2
  | [], _, _, _, h => h
  | (tx, take) :: rest, acc, selected, hregular, h => by
    have hrest : ∀ c ∈ rest, c.1.isCoinbase = false := fun c hc => hregular c (List.mem_cons_of_mem _ hc)
    unfold feed
    split
    · rename_i acc' _ hcommit
      exact feed_carries rest hrest (h.commit (hregular _ List.mem_cons_self) hcommit)
    · exact feed_carries rest hrest h

theorem checkedSub_eq {a b : ℤ} (hlow : i128Min ≤ a - b) (hhigh : a - b ≤ i128Max) : checkedSub a b = .ok (a - b) := by
  unfold checkedSub ensure
  rw [if_pos ⟨hlow, hhigh⟩]
  rfl

/-- From Reward V2 on, the three probes of the baseline give the subsidy. -/
theorem baseline_eq_subsidy {genesisTs : ℕ} (hgenesis : genesis = .ok genesisTs)
    (hindex : rewardCurveV2ActivationHeight ≤ index) (hs : SubsidyBounded (C.subsidyUnits genesisTs timestamp)) :
    C.scheduledBaselineUnitsAt genesis index timestamp = .ok (C.subsidyUnits genesisTs timestamp) := by
  obtain ⟨hlow, hhigh⟩ := hs
  have hactivation : (569423 : ℕ) ≤ index := hindex
  have hpositive : index ≠ 0 := by omega
  have hprobe : ∀ (n : ℕ) (fees : ℤ), 0 ≤ fees → fees ≤ 500000 → ¬ (n = 0 ∧ fees ≠ 0) →
      C.blockRewardUnitsFromTotals genesis index timestamp n fees =
        .ok (C.subsidyUnits genesisTs timestamp + fees * 65 / 100) := by
    intro n fees hfees hsmall hshape
    have hmax : i128Max = 2 ^ 127 - 1 := rfl
    rw [blockRewardUnitsFromTotals, if_neg hpositive, if_neg (by omega), hgenesis, ok_bind]
    exact rewardCurveV2Units_eq_ok.mpr ⟨⟨hfees, hshape⟩, by omega, by omega, rfl⟩
  have henvelope : lowFeeCompatibilityEnvelopeUnits = 500000 := rfl
  have hmin : i128Min = -2 ^ 127 := rfl
  have hmax : i128Max = 2 ^ 127 - 1 := rfl
  rw [scheduledBaselineUnitsAt, if_neg hpositive, hprobe 0 0 (by omega) (by omega) (by omega), ok_bind,
    hprobe 1 0 (by omega) (by omega) (by omega), ok_bind, henvelope,
    hprobe 1 500000 (by omega) (by omega) (by omega), ok_bind, checkedSub_eq (by omega) (by omega), ok_bind]
  congr 1
  omega

theorem genesis_of_baseline {baseline : ℤ} (hindex : index ≠ 0)
    (h : C.scheduledBaselineUnitsAt genesis index timestamp = .ok baseline) : ∃ genesisTs, genesis = .ok genesisTs := by
  cases hgenesis : genesis with
  | ok genesisTs => exact ⟨genesisTs, rfl⟩
  | error e =>
    rw [scheduledBaselineUnitsAt, if_neg hindex, hgenesis] at h
    obtain ⟨empty, hempty, -⟩ := bind_eq_ok.mp h
    unfold blockRewardUnitsFromTotals blockRewardFromTotals at hempty
    rw [if_neg hindex, if_neg hindex] at hempty
    split at hempty
    · cases hempty
    · cases hempty

/-- A net issuance within the subsidy is admitted. -/
theorem net_admitted {reward fees subsidy : ℤ} (hs : SubsidyBounded subsidy) (hfees : fees ≤ i128Max)
    (hlow : subsidy ≤ reward) (hnet : reward - fees ≤ subsidy) :
    (do let net ← checkedSub reward fees; (Except.ok (decide (net ≤ subsidy)) : Res Bool)) = .ok true := by
  obtain ⟨hpos, hhigh⟩ := hs
  have hmin : i128Min = -2 ^ 127 := rfl
  have hmax : i128Max = 2 ^ 127 - 1 := rfl
  rw [checkedSub_eq (by omega) (by omega), ok_bind, decide_eq_true hnet]

section Candidate

variable {tx : Transaction}

theorem Carries.regularFees_next (h : C.Carries genesis index timestamp activationHeight acc selected)
    (htx : tx.isCoinbase = false) :
    regularFees ((selected ++ [tx]).map accountingTransaction) = selected.map (·.feeUnits) ++ [tx.feeUnits] := by
  rw [regularFees_accounting, regularFees_of_regular, List.map_append, List.map_singleton]
  intro u hu
  rcases List.mem_append.mp hu with hold | hlast
  · exact h.regular u hold
  · rw [List.mem_singleton.mp hlast]
    exact htx

theorem Carries.foldFees_next (h : C.Carries genesis index timestamp activationHeight acc selected)
    (htx : tx.isCoinbase = false) :
    foldFees (regularFees ((selected ++ [tx]).map accountingTransaction)) 0 = addFee acc.totalFeeUnits tx.feeUnits := by
  rw [h.regularFees_next htx, foldFees_append, h.totalFeeUnits, ok_bind]

theorem Carries.count_next (h : C.Carries genesis index timestamp activationHeight acc selected)
    (htx : tx.isCoinbase = false) :
    (regularFees ((selected ++ [tx]).map accountingTransaction)).length = acc.txCount + 1 := by
  rw [h.regularFees_next htx, h.txCount, List.length_append, List.length_map, List.length_singleton]

/-- Below Reward V2 both forms give the legacy curve the same sum of coins. -/
theorem Carries.legacy_agrees (h : C.Carries genesis index timestamp activationHeight acc selected)
    (htx : tx.isCoinbase = false) (hactive : activationHeight ≤ index)
    (hlegacy : index < rewardCurveV2ActivationHeight) :
    C.admits genesis acc tx =
      C.templateFeeAccountingIsAdmissibleAt genesis index timestamp (selected ++ [tx]) activationHeight := by
  have hsum : C.sumFees (regularFees ((selected ++ [tx]).map accountingTransaction)) =
      C.add acc.totalFees (C.fromUnits tx.feeUnits) := by
    rw [h.regularFees_next htx, sumFees_append, h.totalFees]
  -- the block form computes the reward first; the baseline was found, so that cannot fail
  have hreward : ∃ reward, C.blockRewardFromTotals genesis index timestamp (acc.txCount + 1)
      (C.add acc.totalFees (C.fromUnits tx.feeUnits)) = .ok reward := by
    unfold blockRewardFromTotals
    by_cases hindex : index = 0
    · exact ⟨_, if_pos hindex⟩
    · obtain ⟨genesisTs, hgenesis⟩ := genesis_of_baseline hindex (h.baseline hactive)
      rw [if_neg hindex, hgenesis]
      exact ⟨_, rfl⟩
  obtain ⟨reward, hreward⟩ := hreward
  have hcalc : C.calculateBlockReward genesis index timestamp ((selected ++ [tx]).map accountingTransaction) =
      .ok reward := by
    unfold calculateBlockReward
    rw [if_neg (by omega : ¬ rewardCurveV2ActivationHeight ≤ index), h.count_next htx, hsum, hreward]
    split_ifs with hindex
    · rw [blockRewardFromTotals, if_pos hindex] at hreward
      exact hreward
    · rfl
  unfold admits templateFeeAccountingIsAdmissibleAt totalsWith
  simp only [hcalc, ok_bind, feeAccountingIsAdmissible]
  rw [if_neg (by omega : ¬ index < activationHeight), h.foldFees_next htx, h.baseline hactive,
    h.activated, h.blockIndex, h.blockTimestamp, decide_eq_true hactive, if_neg (by decide)]
  cases haddFee : addFee acc.totalFeeUnits tx.feeUnits with
  | error e => rfl
  | ok units =>
    simp only [ok_bind, if_neg (by omega : ¬ rewardCurveV2ActivationHeight ≤ index), hreward]

/-- From Reward V2 on, the running form stays in units where the block form goes through coins and back. -/
theorem Carries.v2_agrees (h : C.Carries genesis index timestamp activationHeight acc selected)
    (htx : tx.isCoinbase = false) (hactive : activationHeight ≤ index) (hv2 : rewardCurveV2ActivationHeight ≤ index)
    (hfaithful : FaithfulUnits fun units => C.toUnits (C.fromUnits units))
    (hsubsidy : ∀ genesisTs, SubsidyBounded (C.subsidyUnits genesisTs timestamp)) :
    C.admits genesis acc tx =
      C.templateFeeAccountingIsAdmissibleAt genesis index timestamp (selected ++ [tx]) activationHeight := by
  have hactivation : (569423 : ℕ) ≤ index := hv2
  have hpositive : index ≠ 0 := by omega
  obtain ⟨genesisTs, hgenesis⟩ := genesis_of_baseline hpositive (h.baseline hactive)
  have hbaseline : acc.baselineUnits = C.subsidyUnits genesisTs timestamp := by
    have heq := h.baseline hactive
    rw [baseline_eq_subsidy hgenesis hv2 (hsubsidy genesisTs)] at heq
    exact (Except.ok.inj heq).symm
  unfold admits templateFeeAccountingIsAdmissibleAt totalsWith
  simp only [calculateBlockReward, feeAccountingIsAdmissible]
  rw [if_neg (by omega : ¬ index < activationHeight), if_neg hpositive, if_pos hv2, h.foldFees_next htx,
    h.count_next htx, h.baseline hactive, h.activated, h.blockIndex, h.blockTimestamp, decide_eq_true hactive,
    if_neg (by decide)]
  cases haddFee : addFee acc.totalFeeUnits tx.feeUnits with
  | error e => rfl
  | ok units =>
    obtain ⟨hfee, hfits, rfl⟩ := addFee_eq_ok.mp haddFee
    have hpos := h.nonneg
    simp only [ok_bind, if_pos hv2]
    cases hreward : C.blockRewardUnitsFromTotals genesis index timestamp (acc.txCount + 1)
        (acc.totalFeeUnits + tx.feeUnits) with
    | error e => rfl
    | ok reward =>
      rw [blockRewardUnitsFromTotals, if_neg hpositive, if_neg (by omega), hgenesis, ok_bind] at hreward
      obtain ⟨-, -, -, rfl⟩ := rewardCurveV2Units_eq_ok.mp hreward
      have hnonneg : 0 ≤ acc.totalFeeUnits + tx.feeUnits := by omega
      obtain ⟨hlow, hnet⟩ := hfaithful.reward_bounds (hsubsidy genesisTs) hnonneg
      simp only [ok_bind, hbaseline]
      rw [net_admitted (hsubsidy genesisTs) hfits (by omega) (by omega),
        net_admitted (hsubsidy genesisTs) hfits hlow hnet]

end Candidate

/-- **Main result.** Whatever was committed and skipped so far, the running totals answer for the next candidate what
the block form answers for the list selected so far with that candidate appended, errors included. -/
theorem template_accounting_agrees (C : Coins F) (genesis : Res ℕ) (index timestamp activationHeight : ℕ)
    {acc₀ : TemplateFeeAccounting F} (hnew : C.newAccounting genesis index timestamp activationHeight = .ok acc₀)
    (candidates : List (Transaction × Bool)) (hcandidates : ∀ c ∈ candidates, c.1.isCoinbase = false)
    (tx : Transaction) (htx : tx.isCoinbase = false)
    (hfaithful : rewardCurveV2ActivationHeight ≤ index → FaithfulUnits fun units => C.toUnits (C.fromUnits units))
    (hsubsidy : rewardCurveV2ActivationHeight ≤ index →
      ∀ genesisTs, SubsidyBounded (C.subsidyUnits genesisTs timestamp)) :
    C.admits genesis (C.feed genesis candidates acc₀ []).1 tx =
      C.templateFeeAccountingIsAdmissibleAt genesis index timestamp ((C.feed genesis candidates acc₀ []).2 ++ [tx])
        activationHeight := by
  have hcarries := feed_carries candidates hcandidates (Carries.new hnew)
  by_cases hactive : activationHeight ≤ index
  · by_cases hv2 : rewardCurveV2ActivationHeight ≤ index
    · exact hcarries.v2_agrees htx hactive hv2 (hfaithful hv2) (hsubsidy hv2)
    · exact hcarries.legacy_agrees htx hactive (by omega)
  · rw [templateFeeAccountingIsAdmissibleAt, if_pos (by omega), admits, hcarries.activated, decide_eq_false hactive]
    rfl

/-- Coins kept as whole units, paying the first period's 10 coins. -/
def wholeUnits : Coins ℤ where
  zero := 0
  add := (· + ·)
  fromUnits units := units
  toUnits coins := coins
  genesisAmount := genesisLaunchAmountUnits
  legacyReward _ _ _ _ := 1000000000
  subsidyUnits _ _ := 1000000000

theorem wholeUnits_faithful : FaithfulUnits fun units => wholeUnits.toUnits (wholeUnits.fromUnits units) where
  exact _ _ _ := rfl
  near n hn := by
    change (n - n) * 2 ^ 48 ≤ n ∧ (n - n) * 2 ^ 48 ≤ n
    omega
  mono _ _ h := h

/-- At the Reward V2 height, after one commit and one skip. -/
theorem template_accounting_agrees_twice :
    wholeUnits.admits (.ok 0) (wholeUnits.feed (.ok 0)
        [(toyTransfer [1] ['a'] 5 7, true), (toyTransfer [1] ['b'] 5 8, false)]
        ⟨true, 569423, 100, 1000000000, 0, 0, 0⟩ []).1 (toyTransfer [1] ['c'] 5 9) =
      wholeUnits.templateFeeAccountingIsAdmissibleAt (.ok 0) 569423 100
        ((wholeUnits.feed (.ok 0) [(toyTransfer [1] ['a'] 5 7, true), (toyTransfer [1] ['b'] 5 8, false)]
          ⟨true, 569423, 100, 1000000000, 0, 0, 0⟩ []).2 ++ [toyTransfer [1] ['c'] 5 9]) 517583 := by
  refine template_accounting_agrees wholeUnits (.ok 0) 569423 100 517583 ?_ _ ?_ _ ?_ (fun _ => wholeUnits_faithful) ?_
  · rfl
  · simp only [List.mem_cons, List.not_mem_nil, or_false, forall_eq_or_imp, forall_eq]
    exact ⟨by decide +kernel, by decide +kernel⟩
  · decide +kernel
  · intro _ _
    change SubsidyBounded 1000000000
    exact ⟨by decide, by decide⟩

end Coins

/-! ### Reward V2 over blocks -/

section RewardV2

variable {F : Type} (E : Env) (s : ChainState)

/-- Regular fees that are not negative and whose 65-fold sum fits. -/
def FeesFit (txs : List Transaction) : Prop :=
  (∀ fee ∈ regularFees txs, 0 ≤ fee) ∧ (regularFees txs).sum * 65 ≤ i128Max

/-- The two abstractions of the `f64` functions are of the same functions. -/
def Coins.Describes (C : Coins F) (E : Env) : Prop :=
  (∀ units, E.unitsThroughF64 units = C.toUnits (C.fromUnits units)) ∧ E.subsidyUnits = C.subsidyUnits

/-- `R ≥ S` and `R - F ≤ S` in exact units, for every subsidy. -/
theorem rewardCurveV2Units_bounds {subsidy fees reward : ℤ} {txCount : ℕ}
    (h : rewardCurveV2Units subsidy txCount fees = .ok reward) : subsidy ≤ reward ∧ reward - fees ≤ subsidy := by
  obtain ⟨⟨hfees, -⟩, -, -, rfl⟩ := rewardCurveV2Units_eq_ok.mp h
  constructor
  · omega
  · omega

variable {E s}

theorem FeesFit.sum_nonneg {txs : List Transaction} (h : FeesFit txs) : 0 ≤ (regularFees txs).sum :=
  List.sum_nonneg h.1

theorem FeesFit.sum_le {txs : List Transaction} (h : FeesFit txs) : (regularFees txs).sum ≤ i128Max := by
  have hpos := h.sum_nonneg
  have hfits := h.2
  omega

theorem FeesFit.shape {txs : List Transaction} : ¬ ((regularFees txs).length = 0 ∧ (regularFees txs).sum ≠ 0) := by
  rintro ⟨hlength, hsum⟩
  rw [List.length_eq_zero_iff.mp hlength] at hsum
  exact hsum rfl

theorem FeesFit.aggregate {txs : List Transaction} (h : FeesFit txs) :
    aggregateRegularFeeUnits txs = .ok (regularFees txs).sum := by
  unfold aggregateRegularFeeUnits ensure
  rw [if_pos h.1, ok_bind, if_pos h.sum_le]
  rfl

theorem foldFees_eq_sum : ∀ (fees : List ℤ) (total : ℤ), (∀ fee ∈ fees, 0 ≤ fee) → 0 ≤ total →
    total + fees.sum ≤ i128Max → foldFees fees total = .ok (total + fees.sum)
  | [], total, _, _, _ => by
    rw [List.sum_nil, add_zero]
    rfl
  | fee :: fees, total, hfees, hpos, hmax => by
    have hfee : 0 ≤ fee := hfees fee List.mem_cons_self
    have hrest : ∀ f ∈ fees, 0 ≤ f := fun f hf => hfees f (List.mem_cons_of_mem _ hf)
    have hsum : 0 ≤ fees.sum := List.sum_nonneg hrest
    rw [List.sum_cons] at hmax ⊢
    have hadd : addFee total fee = .ok (total + fee) := Coins.addFee_eq_ok.mpr ⟨hfee, by omega, rfl⟩
    rw [foldFees, hadd, ok_bind, foldFees_eq_sum fees (total + fee) hrest (by omega) (by omega), add_assoc]

theorem FeesFit.rewardCurve {txs : List Transaction} (h : FeesFit txs) {subsidy : ℤ} (hs : SubsidyBounded subsidy) :
    rewardCurveV2Units subsidy (regularFees txs).length (regularFees txs).sum =
      .ok (subsidy + (regularFees txs).sum * 65 / 100) := by
  obtain ⟨-, hhigh⟩ := hs
  have hpos := h.sum_nonneg
  have hfits := h.2
  have hmax : i128Max = 2 ^ 127 - 1 := rfl
  exact rewardCurveV2Units_eq_ok.mpr ⟨⟨hpos, FeesFit.shape⟩, hfits, by omega, rfl⟩

variable {genesisTs : ℕ} {b : Block}

/-- The coinbase a block at these heights must pay. -/
theorem calculateBlockRewardUnits_v2 (hgenesis : genesisTimestamp s = .ok genesisTs)
    (hv2 : rewardCurveV2ActivationHeight ≤ b.index) (hfit : FeesFit b.transactions)
    (hs : SubsidyBounded (E.subsidyUnits genesisTs b.timestamp)) :
    calculateBlockRewardUnits E s b = .ok (E.unitsThroughF64
      (E.subsidyUnits genesisTs b.timestamp + (regularFees b.transactions).sum * 65 / 100)) := by
  have hactivation : (569423 : ℕ) ≤ b.index := hv2
  rw [calculateBlockRewardUnits, if_neg (by omega), if_neg (by omega), hfit.aggregate, ok_bind, hgenesis, ok_bind,
    blockRewardUnitsFor, if_neg (by omega), hfit.rewardCurve hs, ok_bind]

theorem scheduledBaselineUnitsAt_v2 (hgenesis : genesisTimestamp s = .ok genesisTs) {index timestamp : ℕ}
    (hv2 : rewardCurveV2ActivationHeight ≤ index) (hs : SubsidyBounded (E.subsidyUnits genesisTs timestamp)) :
    scheduledBaselineUnitsAt E s index timestamp = .ok (E.subsidyUnits genesisTs timestamp) := by
  obtain ⟨hlow, hhigh⟩ := hs
  have hactivation : (569423 : ℕ) ≤ index := hv2
  have hmax : i128Max = 2 ^ 127 - 1 := rfl
  have henvelope : lowFeeCompatibilityEnvelopeUnits = 500000 := rfl
  have hprobe : ∀ fees : List ℤ, 0 ≤ fees.sum → fees.sum ≤ 500000 → ¬ (fees.length = 0 ∧ fees.sum ≠ 0) →
      blockRewardUnitsFor E genesisTs index timestamp fees =
        .ok (E.subsidyUnits genesisTs timestamp + fees.sum * 65 / 100) := by
    intro fees hpos hsmall hshape
    rw [blockRewardUnitsFor, if_neg (by omega)]
    exact rewardCurveV2Units_eq_ok.mpr ⟨⟨hpos, hshape⟩, by omega, by omega, rfl⟩
  rw [scheduledBaselineUnitsAt, if_neg (by omega), hgenesis, ok_bind, hprobe [] (by simp) (by simp) (by simp), ok_bind,
    hprobe [0] (by simp) (by simp) (by simp), ok_bind, henvelope, hprobe [500000] (by simp) (by simp)
        (by simp), ok_bind]
  congr 1
  simp only [List.sum_nil, List.sum_cons]
  omega

/-- The rule lets every such block through. -/
theorem feeAccounting_v2 (hgenesis : genesisTimestamp s = .ok genesisTs)
    (hv2 : rewardCurveV2ActivationHeight ≤ b.index) (hfit : FeesFit b.transactions)
    (hs : SubsidyBounded (E.subsidyUnits genesisTs b.timestamp)) {reward : ℤ}
    (hnet : reward - (regularFees b.transactions).sum ≤ E.subsidyUnits genesisTs b.timestamp) :
    feeAccountingIsAdmissibleForBlock E s b reward = .ok true := by
  rw [feeAccountingIsAdmissibleForBlock, hfit.aggregate, ok_bind, scheduledBaselineUnitsAt_v2 hgenesis hv2 hs, ok_bind,
    decide_eq_true hnet]

/-- An admissible block fails its reward rules for another reason, if at all. -/
theorem rules_not_limited {reward : ℤ} (hreward : calculateBlockRewardUnits E s b = .ok reward)
    (hadmitted : feeAccountingIsAdmissibleForBlock E s b reward = .ok true) (activationHeight : ℕ) :
    validateBlockRewardRulesAt E s activationHeight b ≠ .error feeAccountingLimitExceeded := by
  intro h
  unfold validateBlockRewardRulesAt at h
  simp only [hreward, hadmitted, ok_bind] at h
  rcases ensure_bind_eq_error h with hone | h
  · cases hone
  rcases ensure_bind_eq_error h with hfirst | h
  · cases hfirst
  rcases need_bind_eq_error h with hnone | ⟨rewardTx, h⟩
  · cases hnone
  rcases ensure_bind_eq_error h with hfee | h
  · cases hfee
  rcases ensure_bind_eq_error h with hamount | h
  · cases hamount
  split_ifs at h
  cases h

/-- So does the template's. -/
theorem templateFeeAccounting_v2 {C : Coins F} {genesis : Res ℕ} (hgenesis : genesis = .ok genesisTs)
    {index timestamp : ℕ} (hv2 : rewardCurveV2ActivationHeight ≤ index) {txs : List Transaction} (hfit : FeesFit txs)
    (hs : SubsidyBounded (C.subsidyUnits genesisTs timestamp))
    (hfaithful : FaithfulUnits fun units => C.toUnits (C.fromUnits units)) (activationHeight : ℕ) :
    C.templateFeeAccountingIsAdmissibleAt genesis index timestamp txs activationHeight = .ok true := by
  have hactivation : (569423 : ℕ) ≤ index := hv2
  have hfold : foldFees (regularFees txs) 0 = .ok (regularFees txs).sum := by
    rw [foldFees_eq_sum _ _ hfit.1 le_rfl (by rw [zero_add]; exact hfit.sum_le), zero_add]
  obtain ⟨hlow, hnet⟩ := hfaithful.reward_bounds hs hfit.sum_nonneg
  rw [Coins.templateFeeAccountingIsAdmissibleAt]
  split_ifs with hactive
  · rfl
  · simp only [Coins.calculateBlockReward, Coins.feeAccountingIsAdmissible, Coins.regularFees_accounting]
    rw [if_neg (by omega), if_pos hv2, hfold, ok_bind, Coins.blockRewardUnitsFromTotals, if_neg (by omega),
      if_neg (by omega), hgenesis, ok_bind, hfit.rewardCurve hs]
    simp only [ok_bind]
    rw [Coins.baseline_eq_subsidy rfl hv2 hs, ok_bind]
    exact Coins.net_admitted hs hfit.sum_le hlow hnet

/-- **Main result.** From the Reward V2 height on, every block whose fees fit owes its miner a reward `R` with
`S ≤ R` and `R - F ≤ S`; the fee accounting rule rejects neither it nor the template it came from; `R` grows with `F`,
and is a function of `F` and of whether there are regular transactions. -/
theorem reward_v2_accounting (E : Env) (s : ChainState) (C : Coins F) (hC : C.Describes E)
    (hfaithful : FaithfulUnits E.unitsThroughF64) {genesisTs : ℕ} (hgenesis : genesisTimestamp s = .ok genesisTs)
    (b : Block) (hv2 : rewardCurveV2ActivationHeight ≤ b.index) (hfit : FeesFit b.transactions)
    (hs : SubsidyBounded (E.subsidyUnits genesisTs b.timestamp)) :
    (∀ subsidy fees reward txCount, rewardCurveV2Units subsidy txCount fees = .ok reward →
      subsidy ≤ reward ∧ reward - fees ≤ subsidy) ∧
    ∃ reward, calculateBlockRewardUnits E s b = .ok reward ∧
      E.subsidyUnits genesisTs b.timestamp ≤ reward ∧
      reward - (regularFees b.transactions).sum ≤ E.subsidyUnits genesisTs b.timestamp ∧
      feeAccountingIsAdmissibleForBlock E s b reward = .ok true ∧
      (∀ activationHeight, validateBlockRewardRulesAt E s activationHeight b ≠ .error feeAccountingLimitExceeded ∧
        C.templateFeeAccountingIsAdmissibleAt (genesisTimestamp s) b.index b.timestamp b.transactions
          activationHeight = .ok true) ∧
      ∀ b' : Block, b'.index = b.index → b'.timestamp = b.timestamp → FeesFit b'.transactions →
        ((regularFees b.transactions).sum ≤ (regularFees b'.transactions).sum →
          ∃ reward', calculateBlockRewardUnits E s b' = .ok reward' ∧ reward ≤ reward') ∧
        ((regularFees b'.transactions).sum = (regularFees b.transactions).sum →
          (regularFees b'.transactions = [] ↔ regularFees b.transactions = []) →
          calculateBlockRewardUnits E s b' = .ok reward) := by
  have hreward := calculateBlockRewardUnits_v2 hgenesis hv2 hfit hs
  obtain ⟨hlow, hnet⟩ := hfaithful.reward_bounds hs hfit.sum_nonneg
  have hadmitted := feeAccounting_v2 hgenesis hv2 hfit hs hnet
  refine ⟨fun _ _ _ _ h => rewardCurveV2Units_bounds h, _, hreward, hlow, hnet, hadmitted, ?_, ?_⟩
  · intro activationHeight
    constructor
    · exact rules_not_limited hreward hadmitted activationHeight
    · refine templateFeeAccounting_v2 hgenesis hv2 hfit ?_ ?_ activationHeight
      · rw [← hC.2]
        exact hs
      · have hthrough : (fun units => C.toUnits (C.fromUnits units)) = E.unitsThroughF64 :=
          funext fun units => (hC.1 units).symm
        rw [hthrough]
        exact hfaithful
  · intro b' hindex htimestamp hfit'
    have hreward' := calculateBlockRewardUnits_v2 (b := b') hgenesis (by rw [hindex]; exact hv2) hfit'
      (by rw [htimestamp]; exact hs)
    rw [htimestamp] at hreward'
    constructor
    · intro hle
      refine ⟨_, hreward', hfaithful.mono _ _ ?_⟩
      omega
    · intro heq _
      rw [hreward', heq]

/-- A node that holds the genesis block only. -/
def genesisOnly : ChainState :=
  { blocks := [genesisLaunchBlock toyEnv], orphans := [], registry := ⟨fun _ => none, []⟩, balances := fun _ => 0
    balancesHeight := none, trustedCheckpoint := none, witnessBlocked := [], dirty := false, lastVerification := 0 }

/-- The first Reward V2 block, with two transfers that pay fees. -/
def firstV2Block : Block :=
  { toyBlock (genesisLaunchBlock toyEnv) 5 ['m'] [{ toyTransfer [1] ['a'] 5 7 with feeUnits := 250000 },
      { toyTransfer [2] ['b'] 6 8 with feeUnits := 30 }] with index := 569423 }

/-- The fees come to 250030 units, 65 hundredths of them to 162519. -/
theorem reward_v2_accounting_first : calculateBlockRewardUnits toyEnv genesisOnly firstV2Block = .ok 1000162519 ∧
    feeAccountingIsAdmissibleForBlock toyEnv genesisOnly firstV2Block 1000162519 = .ok true := by
  have hfees : regularFees firstV2Block.transactions = [250000, 30] := by decide +kernel
  have hfit : FeesFit firstV2Block.transactions := by
    unfold FeesFit
    rw [hfees]
    exact ⟨by decide, by decide⟩
  have hgenesis : genesisTimestamp genesisOnly = .ok genesisLaunchTimestamp := rfl
  have hsubsidy : SubsidyBounded (toyEnv.subsidyUnits genesisLaunchTimestamp firstV2Block.timestamp) := by
    change SubsidyBounded 1000000000
    exact ⟨by decide, by decide⟩
  obtain ⟨reward, hreward, -, -, hadmitted, -⟩ :=
    (reward_v2_accounting toyEnv genesisOnly Coins.wholeUnits ⟨fun _ => rfl, rfl⟩ Coins.wholeUnits_faithful hgenesis
      firstV2Block (by decide) hfit hsubsidy).2
  have hpaid := hreward
  rw [calculateBlockRewardUnits_v2 hgenesis (by decide) hfit hsubsidy, hfees] at hpaid
  cases hpaid
  exact ⟨hreward, hadmitted⟩

end RewardV2

end Alphanumeric
