/-
# Conservation and solvency of the replayed ledger

A run of blocks that the replay accepts in height order keeps every balance
non-negative, creates money only by coinbases and destroys it only by fees, and from
the activation height on never lets a sender spend a coinbase that is less than
`miningRewardMaturity` blocks old. The third fact needs the rolling window: it is popped
only at its front, which drops exactly the mature credits because credits enter it in
height order (`popMature_replay`).

Key definitions: `SoundAmounts`, `HeightOrder`, `rewardsWithin`, `Solvent`.
Key theorems: `replayBlocks_solvent`, `popMature_replay`, `immatureUnits_upTo`,
`ledger_conserves_and_stays_solvent`.
-/
import Alphanumeric.Ledger

namespace Alphanumeric

open Guard BlockchainError

/-! ### What the theorems speak of -/

/-- Coinbases pay a non-negative amount and regular transactions pass the amount check. -/
structure SoundAmounts (b : Block) : Prop where
  coinbase : ∀ tx ∈ b.transactions, tx.isCoinbase = true → 0 ≤ tx.amountUnits
  regular : ∀ tx ∈ b.transactions, tx.isCoinbase = false → tx.hasValidRegularAmounts = true

def HeightOrder (chain : List Block) : Prop := chain.Pairwise fun b c => b.index ≤ c.index

def coinbaseUnits (b : Block) : ℤ := ((b.transactions.filter (·.isCoinbase)).map (·.amountUnits)).sum

def feeUnitsOf (b : Block) : ℤ := (regularFees b.transactions).sum

/-- What the coinbases of a block pay one address. -/
def coinbaseUnitsTo (a : Text) (b : Block) : ℤ :=
  ((b.transactions.filter fun tx => tx.isCoinbase && tx.recipient = a).map (·.amountUnits)).sum

/-- The coinbase credits of an address in the blocks at heights `lo..=hi`. -/
def rewardsWithin (chain : List Block) (lo hi : ℕ) (a : Text) : ℤ :=
  ((chain.filter fun b => lo ≤ b.index && b.index ≤ hi).map (coinbaseUnitsTo a)).sum

/-- The chain up to a point inside a block: the blocks below it and the first of its transactions. -/
def upTo (below : List Block) (b : Block) (pre : List Transaction) : List Block :=
  below ++ [{ b with transactions := pre }]

/-- Running totals that can be spent from: nothing negative, and only finitely many accounts. -/
structure Solvent (st : Balances × Recent) : Prop where
  balances : ∀ a, 0 ≤ st.1 a
  window : ∀ r ∈ st.2, 0 ≤ r.2.2
  finite : (Function.support st.1).Finite

/-! ### One transaction -/

theorem totalDebitUnits_of_valid {tx : Transaction} (h : tx.hasValidRegularAmounts = true) :
    tx.totalDebitUnits = tx.amountUnits + tx.feeUnits ∧ 0 ≤ tx.amountUnits ∧ 0 ≤ tx.feeUnits := by
  simp only [Transaction.hasValidRegularAmounts, Bool.and_eq_true, decide_eq_true_eq] at h
  obtain ⟨⟨hamount, hfee⟩, hsum⟩ := h
  have hmin : minTransactionAmountUnits = 564 := rfl
  have hmax : i128Max = 2 ^ 127 - 1 := rfl
  refine ⟨?_, by omega, hfee⟩
  unfold Transaction.totalDebitUnits
  rw [min_eq_left hsum, max_eq_right (by omega)]

theorem immatureUnits_nonneg {recent : Recent} (h : ∀ r ∈ recent, 0 ≤ r.2.2) (a : Text) :
    0 ≤ immatureUnits recent a := by
  apply List.sum_nonneg
  intro x hx
  obtain ⟨r, hr, rfl⟩ := List.mem_map.mp hx
  exact h r (List.mem_filter.mp hr).1

theorem support_credit (bal : Balances) (address : Text) (units : ℤ) :
    Function.support (credit bal address units) ⊆ Function.support bal ∪ {address} := by
  intro a ha
  by_cases h : a = address
  · exact .inr h
  · left
    rw [Function.mem_support] at ha ⊢
    rwa [credit_apply, if_neg h, add_zero] at ha

theorem finite_credit {bal : Balances} (h : (Function.support bal).Finite) (address : Text)
    (units : ℤ) : (Function.support (credit bal address units)).Finite :=
  (h.union (Set.finite_singleton address)).subset (support_credit bal address units)

/-- A credit adds its units to the sum of all balances. -/
theorem finsum_credit {bal : Balances} (h : (Function.support bal).Finite) (address : Text)
    (units : ℤ) : ∑ᶠ a, credit bal address units a = (∑ᶠ a, bal a) + units := by
  have hsingle : (Function.support fun a => if a = address then units else 0).Finite := by
    refine (Set.finite_singleton address).subset fun a ha => ?_
    rw [Function.mem_support] at ha
    by_contra hne
    exact ha (if_neg hne)
  calc ∑ᶠ a, credit bal address units a
      = ∑ᶠ a, (bal a + if a = address then units else 0) :=
        finsum_congr fun a => credit_apply bal address units a
    _ = (∑ᶠ a, bal a) + ∑ᶠ a, (if a = address then units else 0) := finsum_add_distrib h hsingle
    _ = (∑ᶠ a, bal a) + units := by
        rw [finsum_eq_single _ address fun a ha => if_neg ha, if_pos rfl]

/-- A regular transaction that the replay accepts leaves its sender, after the debit and
before any credit, at least the immature part. -/
theorem replayApplyTx_debit {height : ℕ} {st st' : Balances × Recent} {tx : Transaction}
    (hcb : tx.isCoinbase = false) (h : replayApplyTx height st tx = .ok st') :
    (if maturityActivationHeight ≤ height then immatureUnits st.2 tx.sender else 0) ≤
      st.1 tx.sender - tx.totalDebitUnits := by
  have := ((replayApplyTx_regular hcb).mp h).1
  omega

theorem replayApplyTx_solvent {height : ℕ} {st st' : Balances × Recent} {tx : Transaction}
    (hcoin : tx.isCoinbase = true → 0 ≤ tx.amountUnits)
    (hreg : tx.isCoinbase = false → tx.hasValidRegularAmounts = true) (hs : Solvent st)
    (h : replayApplyTx height st tx = .ok st') : Solvent st' := by
  by_cases hcb : tx.isCoinbase = true
  · have hamount := hcoin hcb
    rw [replayApplyTx, if_pos hcb] at h
    cases h
    refine ⟨fun a => ?_, fun r hr => ?_, finite_credit hs.finite _ _⟩
    · have := hs.balances a
      simp only [credit_apply]
      split_ifs <;> omega
    · rcases List.mem_append.mp hr with hr | hr
      · exact hs.window r hr
      · rw [List.mem_singleton.mp hr]
        exact hamount
  · rw [Bool.not_eq_true] at hcb
    obtain ⟨hdebit, hamount, hfee⟩ := totalDebitUnits_of_valid (hreg hcb)
    have hkept := replayApplyTx_debit hcb h
    have himm := immatureUnits_nonneg hs.window tx.sender
    have hleft : 0 ≤ st.1 tx.sender - tx.totalDebitUnits := by
      split_ifs at hkept <;> omega
    obtain ⟨-, rfl⟩ := (replayApplyTx_regular hcb).mp h
    rw [← txDelta_regular hcb st.1]
    refine ⟨fun a => ?_, hs.window, finite_credit (finite_credit hs.finite _ _) _ _⟩
    have := hs.balances a
    simp only [credit_apply]
    by_cases ha : a = tx.sender
    · rw [if_pos ha, ha]
      split_ifs <;> omega
    · rw [if_neg ha]
      split_ifs <;> omega

/-- What a transaction adds to the sum of all balances. -/
def txSupply (tx : Transaction) : ℤ := if tx.isCoinbase then tx.amountUnits else -tx.feeUnits

theorem replayApplyTx_supply {height : ℕ} {st st' : Balances × Recent} {tx : Transaction}
    (hreg : tx.isCoinbase = false → tx.hasValidRegularAmounts = true)
    (hfin : (Function.support st.1).Finite) (h : replayApplyTx height st tx = .ok st') :
    ∑ᶠ a, st'.1 a = (∑ᶠ a, st.1 a) + txSupply tx := by
  rw [txSupply]
  by_cases hcb : tx.isCoinbase = true
  · rw [replayApplyTx, if_pos hcb] at h
    cases h
    rw [if_pos hcb, finsum_credit hfin]
  · rw [Bool.not_eq_true] at hcb
    obtain ⟨hdebit, -, -⟩ := totalDebitUnits_of_valid (hreg hcb)
    obtain ⟨-, rfl⟩ := (replayApplyTx_regular hcb).mp h
    rw [← txDelta_regular hcb st.1, finsum_credit (finite_credit hfin _ _), finsum_credit hfin, hdebit,
      if_neg (by simp [hcb])]
    ring

/-! ### A block, and a run of blocks -/

theorem replayApplyTxs_append (height : ℕ) :
    ∀ (pre post : List Transaction) (st : Balances × Recent),
      replayApplyTxs height (pre ++ post) st =
        replayApplyTxs height pre st >>= replayApplyTxs height post
  | [], post, st => rfl
  | tx :: pre, post, st => by
    simp only [List.cons_append, replayApplyTxs]
    cases replayApplyTx height st tx with
    | error e => rfl
    | ok st' => exact replayApplyTxs_append height pre post st'

theorem replayApplyTxs_solvent {height : ℕ} :
    ∀ {txs : List Transaction} {st st' : Balances × Recent},
      (∀ tx ∈ txs, tx.isCoinbase = true → 0 ≤ tx.amountUnits) →
      (∀ tx ∈ txs, tx.isCoinbase = false → tx.hasValidRegularAmounts = true) →
      Solvent st → replayApplyTxs height txs st = .ok st' →
      Solvent st' ∧ ∑ᶠ a, st'.1 a = (∑ᶠ a, st.1 a) + (txs.map txSupply).sum
  | [], st, st', _, _, hs, h => by
    cases h
    exact ⟨hs, by simp⟩
  | tx :: txs, st, st', hcoin, hreg, hs, h => by
    unfold replayApplyTxs at h
    obtain ⟨st₁, h₁, h⟩ := bind_eq_ok.mp h
    have hs₁ := replayApplyTx_solvent (hcoin tx (by simp)) (hreg tx (by simp)) hs h₁
    have hsum := replayApplyTx_supply (hreg tx (by simp)) hs.finite h₁
    obtain ⟨hs', hsum'⟩ := replayApplyTxs_solvent (fun t ht => hcoin t (by simp [ht]))
      (fun t ht => hreg t (by simp [ht])) hs₁ h
    refine ⟨hs', ?_⟩
    rw [hsum', hsum, List.map_cons, List.sum_cons, add_assoc]

theorem sum_txSupply : ∀ txs : List Transaction,
    (txs.map txSupply).sum = ((txs.filter (·.isCoinbase)).map (·.amountUnits)).sum - (regularFees txs).sum
  | [] => by simp [regularFees]
  | tx :: txs => by
    rw [List.map_cons, List.sum_cons, sum_txSupply txs, txSupply]
    by_cases h : tx.isCoinbase = true
    · simp only [regularFees, h, if_true, List.filter_cons, List.map_cons, List.sum_cons, Bool.not_true,
        Bool.false_eq_true, if_false]
      ring
    · rw [Bool.not_eq_true] at h
      simp only [regularFees, h, Bool.false_eq_true, if_false, List.filter_cons, List.map_cons,
        List.sum_cons, Bool.not_false, if_true]
      ring

theorem replayApplyBlockChecked_solvent {b : Block} {st st' : Balances × Recent}
    (hb : SoundAmounts b) (hs : Solvent st)
    (h : replayApplyBlockChecked b.index b.transactions st = .ok st') :
    Solvent st' ∧ ∑ᶠ a, st'.1 a = (∑ᶠ a, st.1 a) + (coinbaseUnits b - feeUnitsOf b) := by
  have hpop : Solvent (st.1, popMature b.index st.2) :=
    ⟨hs.balances, fun r hr => hs.window r ((List.dropWhile_sublist _).mem hr), hs.finite⟩
  have hrun := replayApplyTxs_solvent hb.coinbase hb.regular hpop h
  rw [sum_txSupply] at hrun
  exact hrun

/-- **Run lemma.** A replayed run of blocks keeps the totals solvent, and adds to their sum
the coinbases less the fees. -/
theorem replayBlocks_solvent :
    ∀ {bs : List Block} {st st' : Balances × Recent}, (∀ b ∈ bs, SoundAmounts b) → Solvent st →
      replayBlocks bs st = .ok st' →
      Solvent st' ∧ ∑ᶠ a, st'.1 a =
        (∑ᶠ a, st.1 a) + ((bs.map coinbaseUnits).sum - (bs.map feeUnitsOf).sum)
  | [], st, st', _, hs, h => by
    cases h
    exact ⟨hs, by simp⟩
  | b :: bs, st, st', hb, hs, h => by
    unfold replayBlocks at h
    obtain ⟨st₁, h₁, h⟩ := bind_eq_ok.mp h
    obtain ⟨hs₁, hsum⟩ := replayApplyBlockChecked_solvent (hb b (by simp)) hs h₁
    obtain ⟨hs', hsum'⟩ := replayBlocks_solvent (fun c hc => hb c (by simp [hc])) hs₁ h
    refine ⟨hs', ?_⟩
    rw [hsum', hsum, List.map_cons, List.map_cons, List.sum_cons, List.sum_cons]
    ring

theorem solvent_empty : Solvent ((fun _ => 0, []) : Balances × Recent) :=
  ⟨fun _ => le_rfl, by simp, by simp [Function.support]⟩

/-! ### The window holds the immature credits -/

theorem popMature_sorted (height : ℕ) :
    ∀ {recent : Recent}, recent.Pairwise (fun r r' => r.1 ≤ r'.1) →
      popMature height recent = recent.filter fun r => height < r.1 + miningRewardMaturity
  | [], _ => rfl
  | r :: recent, h => by
    obtain ⟨hr, hrec⟩ := List.pairwise_cons.mp h
    unfold popMature
    by_cases hm : r.1 + miningRewardMaturity ≤ height
    · rw [List.dropWhile_cons_of_pos (by simpa using hm), List.filter_cons_of_neg (by simpa using hm)]
      exact popMature_sorted height hrec
    · -- the front is immature, and everything behind it is younger
      rw [List.dropWhile_cons_of_neg (by simpa using hm), List.filter_eq_self.mpr]
      intro r' hr'
      rcases List.mem_cons.mp hr' with rfl | hr'
      · simpa using hm
      · have := hr r' hr'
        simp only [decide_eq_true_eq]
        omega

theorem pairwise_coinbases {chain : List Block} (h : HeightOrder chain) :
    (chain.flatMap coinbases).Pairwise fun r r' => r.1 ≤ r'.1 := by
  rw [List.pairwise_flatMap]
  refine ⟨fun b _ => ?_, h.imp ?_⟩
  · rw [coinbases, List.pairwise_map]
    exact List.pairwise_of_forall fun _ _ => le_rfl
  · intro b c hbc r hr r' hr'
    simp only [coinbases, List.mem_map] at hr hr'
    obtain ⟨_, -, rfl⟩ := hr
    obtain ⟨_, -, rfl⟩ := hr'
    exact hbc

/-- Popping the window of a replay at a later height leaves exactly the credits that are
immature there: those popped on the way are mature at that height too. -/
theorem popMature_replay {height : ℕ} :
    ∀ {bs : List Block} {st st' : Balances × Recent},
      (st.2 ++ bs.flatMap coinbases).Pairwise (fun r r' => r.1 ≤ r'.1) →
      (∀ b ∈ bs, b.index ≤ height) → replayBlocks bs st = .ok st' →
      popMature height st'.2 =
        (st.2 ++ bs.flatMap coinbases).filter fun r => height < r.1 + miningRewardMaturity
  | [], st, st', hsort, _, h => by
    cases h
    rw [List.flatMap_nil, List.append_nil] at hsort ⊢
    exact popMature_sorted height hsort
  | b :: bs, st, st', hsort, hle, h => by
    unfold replayBlocks at h
    obtain ⟨st₁, h₁, h⟩ := bind_eq_ok.mp h
    have hb := hle b (by simp)
    have hst₁ : st₁.2 = st.2.filter (fun r => b.index < r.1 + miningRewardMaturity) ++ coinbases b := by
      rw [replayApplyBlockChecked_ok h₁, popMature_sorted _ (List.pairwise_append.mp hsort).1]
      rfl
    have hsub : (st₁.2 ++ bs.flatMap coinbases).Sublist (st.2 ++ (b :: bs).flatMap coinbases) := by
      rw [hst₁, List.flatMap_cons, List.append_assoc]
      exact List.Sublist.append List.filter_sublist (List.Sublist.refl _)
    have hfilter : (st.2.filter fun r => b.index < r.1 + miningRewardMaturity).filter
        (fun r => height < r.1 + miningRewardMaturity) =
        st.2.filter fun r => height < r.1 + miningRewardMaturity := by
      rw [List.filter_filter]
      refine List.filter_congr fun r _ => ?_
      rw [Bool.and_eq_left_iff_imp]
      simp only [decide_eq_true_eq]
      omega
    rw [popMature_replay (hsort.sublist hsub) (fun c hc => hle c (by simp [hc])) h, hst₁, List.flatMap_cons]
    simp only [List.filter_append, hfilter, List.append_assoc]

/-! ### Points inside a block -/

/-- A replayed chain was replayed up to every point inside its blocks. -/
theorem replayChain_upTo {below above : List Block} {b : Block} {pre post : List Transaction}
    {st : Balances × Recent} (h : replayChain (below ++ b :: above) = .ok st)
    (hb : b.transactions = pre ++ post) :
    ∃ under mid rest, replayChain below = .ok under ∧
      replayApplyTxs b.index pre (under.1, popMature b.index under.2) = .ok mid ∧
      replayChain (upTo below b pre) = .ok mid ∧ replayApplyTxs b.index post mid = .ok rest := by
  unfold replayChain at h ⊢
  rw [replayBlocks_append] at h
  obtain ⟨under, hunder, h⟩ := bind_eq_ok.mp h
  rw [replayBlocks] at h
  obtain ⟨rest, hrest, -⟩ := bind_eq_ok.mp h
  rw [replayApplyBlockChecked, hb, replayApplyTxs_append] at hrest
  obtain ⟨mid, hmid, hpost⟩ := bind_eq_ok.mp hrest
  refine ⟨under, mid, rest, hunder, hmid, ?_, hpost⟩
  rw [upTo, replayBlocks_append, hunder]
  show (do let st' ← replayApplyBlockChecked b.index pre under; replayBlocks [] st') = .ok mid
  rw [replayApplyBlockChecked, hmid]
  rfl

theorem soundAmounts_upTo {below above : List Block} {b : Block} {pre post : List Transaction}
    (h : ∀ c ∈ below ++ b :: above, SoundAmounts c) (hb : b.transactions = pre ++ post) :
    ∀ c ∈ upTo below b pre, SoundAmounts c := by
  intro c hc
  rcases List.mem_append.mp hc with hc | hc
  · exact h c (by simp [hc])
  · obtain rfl := List.mem_singleton.mp hc
    have hsound := h b (by simp)
    exact ⟨fun tx htx => hsound.coinbase tx (by simp [hb, show tx ∈ pre from htx]),
      fun tx htx => hsound.regular tx (by simp [hb, show tx ∈ pre from htx])⟩

theorem immatureUnits_flatMap (a : Text) : ∀ bs : List Block,
    immatureUnits (bs.flatMap coinbases) a = (bs.map (coinbaseUnitsTo a)).sum
  | [] => rfl
  | b :: bs => by
    rw [List.flatMap_cons, immatureUnits_append, immatureUnits_flatMap a bs, List.map_cons, List.sum_cons]
    congr 1
    simp only [immatureUnits, coinbases, coinbaseUnitsTo, List.filter_map, List.map_map,
      List.filter_filter]
    congr 2
    refine List.filter_congr fun tx _ => ?_
    simp [Bool.and_comm]

theorem filter_flatMap_coinbases (height : ℕ) : ∀ bs : List Block,
    (bs.flatMap coinbases).filter (fun r => height < r.1 + miningRewardMaturity) =
      (bs.filter fun b => height < b.index + miningRewardMaturity).flatMap coinbases
  | [] => rfl
  | b :: bs => by
    have hown : (coinbases b).filter (fun r => height < r.1 + miningRewardMaturity) =
        if height < b.index + miningRewardMaturity then coinbases b else [] := by
      split_ifs with hb
      · refine List.filter_eq_self.mpr fun r hr => ?_
        obtain ⟨_, -, rfl⟩ := List.mem_map.mp hr
        simpa using hb
      · refine List.filter_eq_nil_iff.mpr fun r hr => ?_
        obtain ⟨_, -, rfl⟩ := List.mem_map.mp hr
        simpa using hb
    rw [List.flatMap_cons, List.filter_append, hown, filter_flatMap_coinbases height bs, List.filter_cons]
    by_cases hb : height < b.index + miningRewardMaturity <;> simp [hb]

/-- The window at a point inside a block holds the credits of the last `miningRewardMaturity`
heights, the block's own so far included. -/
theorem immatureUnits_upTo {below : List Block} {b : Block} {pre : List Transaction}
    {under mid : Balances × Recent} (hord : HeightOrder below) (hle : ∀ c ∈ below, c.index ≤ b.index)
    (hunder : replayChain below = .ok under)
    (hmid : replayApplyTxs b.index pre (under.1, popMature b.index under.2) = .ok mid) (a : Text) :
    immatureUnits mid.2 a =
      rewardsWithin (upTo below b pre) (b.index + 1 - miningRewardMaturity) b.index a := by
  have hpop : popMature b.index under.2 =
      (below.flatMap coinbases).filter fun r => b.index < r.1 + miningRewardMaturity :=
    popMature_replay (by simpa using pairwise_coinbases hord) hle hunder
  have hwin : below.filter (fun c => b.index + 1 - miningRewardMaturity ≤ c.index && c.index ≤ b.index) =
      below.filter fun c => b.index < c.index + miningRewardMaturity := by
    refine List.filter_congr fun c hc => ?_
    have := hle c hc
    simp only [this, decide_true, Bool.and_true, decide_eq_decide]
    omega
  have hown : b.index + 1 - miningRewardMaturity ≤ b.index := by
    unfold miningRewardMaturity
    omega
  rw [replayApplyTxs_ok hmid, immatureUnits_append, hpop, filter_flatMap_coinbases, immatureUnits_flatMap,
    rewardsWithin, upTo, List.filter_append, List.map_append, List.sum_append, hwin]
  congr 1
  rw [List.filter_cons_of_pos (by simpa using hown), List.filter_nil]
  simpa [coinbases, coinbasesAt] using immatureUnits_flatMap a [{ b with transactions := pre }]

/-! ### The ledger -/

/-- **Conservation and solvency.** For every run of blocks that the replay accepts in height
order: no balance is ever negative, at any point inside any block; the balances add up to
the coinbases less the fees; and from the activation height on, what a debit leaves its
sender (before the transfer's own credit) covers the coinbases the sender received in the
last `miningRewardMaturity` heights up to that point, which are all of them unless one
follows the debit in the same block. -/
theorem ledger_conserves_and_stays_solvent {chain : List Block} {st : Balances × Recent}
    (hord : HeightOrder chain) (hsound : ∀ b ∈ chain, SoundAmounts b)
    (haccepted : replayChain chain = .ok st) :
    (∀ a, 0 ≤ st.1 a) ∧
    ∑ᶠ a, st.1 a = (chain.map coinbaseUnits).sum - (chain.map feeUnitsOf).sum ∧
    ∀ below b above pre post, chain = below ++ b :: above → b.transactions = pre ++ post →
      ∃ mid, replayChain (upTo below b pre) = .ok mid ∧ (∀ a, 0 ≤ mid.1 a) ∧
        ∑ᶠ a, mid.1 a =
          ((upTo below b pre).map coinbaseUnits).sum - ((upTo below b pre).map feeUnitsOf).sum ∧
        ∀ tx rest, post = tx :: rest → tx.isCoinbase = false → maturityActivationHeight ≤ b.index →
          rewardsWithin (upTo below b pre) (b.index - 99) b.index tx.sender ≤
            mid.1 tx.sender - tx.totalDebitUnits ∧
          ((∀ t ∈ rest, t.isCoinbase = true → t.recipient ≠ tx.sender) →
            rewardsWithin (below ++ [b]) (b.index - 99) b.index tx.sender ≤
              mid.1 tx.sender - tx.totalDebitUnits) := by
  have htotal : ∀ {bs : List Block} {st : Balances × Recent}, (∀ b ∈ bs, SoundAmounts b) →
      replayChain bs = .ok st → (∀ a, 0 ≤ st.1 a) ∧
        ∑ᶠ a, st.1 a = (bs.map coinbaseUnits).sum - (bs.map feeUnitsOf).sum := by
    intro bs st hbs hst
    obtain ⟨hs, hsum⟩ := replayBlocks_solvent hbs solvent_empty hst
    rw [finsum_zero, zero_add] at hsum
    exact ⟨hs.balances, hsum⟩
  obtain ⟨hbal, hsum⟩ := htotal hsound haccepted
  refine ⟨hbal, hsum, ?_⟩
  rintro below b above pre post rfl hb
  obtain ⟨under, mid, last, hunder, hpre, hmid, hpost⟩ := replayChain_upTo haccepted hb
  obtain ⟨hmidbal, hmidsum⟩ := htotal (soundAmounts_upTo hsound hb) hmid
  refine ⟨mid, hmid, hmidbal, hmidsum, ?_⟩
  rintro tx rest rfl hcb hact
  obtain ⟨hbelow, -, hcross⟩ := List.pairwise_append.mp hord
  have hle : ∀ c ∈ below, c.index ≤ b.index := fun c hc => hcross c hc b (by simp)
  have hwin := immatureUnits_upTo hbelow hle hunder hpre tx.sender
  rw [replayApplyTxs] at hpost
  obtain ⟨st₁, hstep, -⟩ := bind_eq_ok.mp hpost
  have hleft := replayApplyTx_debit hcb hstep
  rw [if_pos hact, hwin] at hleft
  refine ⟨hleft, fun hlater => ?_⟩
  have hsame : rewardsWithin (below ++ [b]) (b.index + 1 - miningRewardMaturity) b.index tx.sender =
      rewardsWithin (upTo below b pre) (b.index + 1 - miningRewardMaturity) b.index tx.sender := by
    have hnone : (tx :: rest).filter (fun t => t.isCoinbase && decide (t.recipient = tx.sender)) = [] := by
      refine List.filter_eq_nil_iff.mpr fun t ht => ?_
      rcases List.mem_cons.mp ht with rfl | ht
      · simp [hcb]
      · by_cases h : t.isCoinbase = true <;> simp [h, hlater t ht]
    have hunits : coinbaseUnitsTo tx.sender b = coinbaseUnitsTo tx.sender { b with transactions := pre } := by
      unfold coinbaseUnitsTo
      rw [hb, List.filter_append, hnone, List.append_nil]
    unfold rewardsWithin upTo
    simp only [List.filter_append, List.map_append, List.sum_append, List.filter_cons, List.filter_nil]
    split_ifs <;> simp [hunits]
  rw [show b.index - 99 = b.index + 1 - miningRewardMaturity by unfold miningRewardMaturity; omega, hsame]
  exact hleft

/-- A miner, paid at height 0 and again at the activation height, sends part of the old
reward on. -/
def maturityTransfer : Transaction :=
  { sender := ['m'], recipient := ['r'], feeUnits := 10, amountUnits := 600, timestamp := 1
    signature := none, pubKey := none, sigHash := none }

def maturityBlock (index : ℕ) (transactions : List Transaction) : Block :=
  { index, previousHash := zeroHash, timestamp := index, transactions, nonce := 0, difficulty := 0
    hash := zeroHash, merkleRoot := zeroHash }

def maturityExample : List Block :=
  [maturityBlock 0 [toyReward ['m'] 0],
    maturityBlock 1500 [toyReward ['m'] 1500, maturityTransfer]]

theorem maturityExample_solvent :
    ∃ st, replayChain maturityExample = .ok st ∧ (∀ a, 0 ≤ st.1 a) ∧ ∑ᶠ a, st.1 a = 1999999990 ∧
      ∃ mid : Balances × Recent, 1000000000 ≤ mid.1 ['m'] - 610 := by
  obtain ⟨st, hst⟩ : ∃ st, replayChain maturityExample = .ok st := by
    cases h : replayChain maturityExample with
    | ok st => exact ⟨st, rfl⟩
    | error e =>
      have hok : (replayChain maturityExample).isOk = true := by decide +kernel
      rw [h] at hok
      cases hok
  have hord : HeightOrder maturityExample := by
    unfold HeightOrder
    decide +kernel
  have hsound : ∀ b ∈ maturityExample, SoundAmounts b := by
    intro b hb
    have hcoin : ∀ b ∈ maturityExample, ∀ tx ∈ b.transactions, tx.isCoinbase = true → 0 ≤ tx.amountUnits := by
      decide +kernel
    have hreg : ∀ b ∈ maturityExample, ∀ tx ∈ b.transactions, tx.isCoinbase = false →
        tx.hasValidRegularAmounts = true := by
      decide +kernel
    exact ⟨hcoin b hb, hreg b hb⟩
  obtain ⟨hbal, hsum, hpoints⟩ := ledger_conserves_and_stays_solvent hord hsound hst
  obtain ⟨mid, -, -, -, hdebit⟩ := hpoints [maturityBlock 0 [toyReward ['m'] 0]]
    (maturityBlock 1500 [toyReward ['m'] 1500, maturityTransfer]) [] [toyReward ['m'] 1500]
    [maturityTransfer] rfl rfl
  obtain ⟨hkept, -⟩ := hdebit maturityTransfer [] rfl (by decide +kernel) (by decide)
  have hwindow : rewardsWithin (upTo [maturityBlock 0 [toyReward ['m'] 0]]
      (maturityBlock 1500 [toyReward ['m'] 1500, maturityTransfer]) [toyReward ['m'] 1500])
      (1500 - 99) 1500 ['m'] = 1000000000 := by
    decide +kernel
  have hspent : maturityTransfer.totalDebitUnits = 610 := by decide +kernel
  refine ⟨st, hst, hbal, hsum.trans (by decide +kernel), mid, ?_⟩
  exact hspent ▸ hwindow ▸ hkept

end Alphanumeric
