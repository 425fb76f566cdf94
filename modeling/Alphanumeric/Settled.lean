/-
# A node at rest, and one block at a time

A settled node holds the indexes its canonical chain determines: balances by replay,
registry by derivation. On such a node `save_block` accepts the next block exactly if
it is valid, carries no transaction of the chain, and is solvent, and it leaves a
settled node one block higher. So a linked branch can be followed block by block with
`Settled` as the invariant.

Key definitions: `Settled`, `NextGates`, `saveAll`, `Apart`.
Key theorems: `blockHasReplayedTx_settled`, `saveBlock_settled`, `saveAll_settled`.
-/
import Alphanumeric.Replay

namespace Alphanumeric

open Guard BlockchainError ChainState

variable {E : Env}

/-! ### A node at rest -/

/-- A node whose indexes are the ones its canonical chain determines. -/
structure Settled (E : Env) (s : ChainState) : Prop where
  nonempty : s.blocks ≠ []
  slotted : Slotted s.blocks
  linked : s.blocks.IsChain ParentOf
  dated : Dated s.blocks
  registry : ∀ tip, s.blocks.getLast? = some tip →
    s.registry.Same (Registry.derived E s.blocks tip.timestamp)
  balances : ∃ recent, replayChain s.blocks = .ok (s.balances, recent)
  balancesHeight : s.balancesHeight = some s.getLatestBlockIndex
  clean : s.dirty = false

/-- The window a settled node's replay ends in. -/
theorem Settled.replay {s : ChainState} (h : Settled E s) :
    replayChain s.blocks = .ok (s.balances, seedRecent s.blocks s.blocks.length) := by
  obtain ⟨recent, hr⟩ := h.balances
  have hseed : replayBlocks s.blocks ((fun _ => 0), seedRecent [] ([] : List Block).length) =
    .ok (s.balances, recent) := hr
  have hrec := replayBlocks_recent s.blocks [] (by simpa using h.slotted) hseed
  simp only [List.nil_append] at hrec
  rw [hr, ← hrec]

theorem replayBlocks_singleton (b : Block) (st : Balances × Recent) :
    replayBlocks [b] st = replayApplyBlockChecked b.index b.transactions st := by
  simp only [replayBlocks]
  cases replayApplyBlockChecked b.index b.transactions st <;> rfl

/-- The transactions of the stored form move the same money. -/
theorem replayApplyTxs_stored (height : ℕ) :
    ∀ (txs : List Transaction) (st : Balances × Recent),
      replayApplyTxs height (txs.map (toStorageTransaction E)) st = replayApplyTxs height txs st
  | [], _ => rfl
  | tx :: txs, st => by
    have htx : replayApplyTx height st (toStorageTransaction E tx) = replayApplyTx height st tx := by
      unfold toStorageTransaction
      split_ifs
      · rfl
      · split
        · rfl
        · split <;> rfl
    simp only [List.map_cons, replayApplyTxs, htx]
    cases replayApplyTx height st tx with
    | error e => rfl
    | ok st' => exact replayApplyTxs_stored height txs st'

theorem replayBlocks_stored :
    ∀ (bs : List Block) (st : Balances × Recent),
      replayBlocks (bs.map (toStorageBlock E)) st = replayBlocks bs st
  | [], _ => rfl
  | b :: bs, st => by
    have hb : replayApplyBlockChecked (toStorageBlock E b).index (toStorageBlock E b).transactions st =
        replayApplyBlockChecked b.index b.transactions st := replayApplyTxs_stored _ _ _
    simp only [List.map_cons, replayBlocks, hb]
    cases replayApplyBlockChecked b.index b.transactions st with
    | error e => rfl
    | ok st' => exact replayBlocks_stored bs st'

theorem parentOf_toStorageBlock {a b : Block} :
    ParentOf (toStorageBlock E a) b ↔ ParentOf a b :=
  ⟨fun h => ⟨h.hash, h.index, h.timestamp, h.difficulty⟩,
    fun h => ⟨h.hash, h.index, h.timestamp, h.difficulty⟩⟩

/-- A settled node could have stopped at any height it has passed. -/
theorem Settled.take {s : ChainState} (hs : Settled E s) {n : ℕ} (h0 : 0 < n)
    (hle : n ≤ s.blocks.length) : ∃ t, Settled E t ∧ t.blocks = s.blocks.take n := by
  have hlen : (s.blocks.take n).length = n := by simpa using hle
  have hne : s.blocks.take n ≠ [] := List.ne_nil_of_length_pos (by omega)
  have hsplit := hs.replay
  unfold replayChain at hsplit
  rw [← List.take_append_drop n s.blocks, replayBlocks_append] at hsplit
  obtain ⟨st, hst, -⟩ := bind_eq_ok.mp hsplit
  refine ⟨{ s with
    blocks := s.blocks.take n
    registry := Registry.derived E (s.blocks.take n) ((s.blocks.take n).getLast hne).timestamp
    balances := st.1
    balancesHeight := some (n - 1) }, ⟨hne, slotted_take hs.slotted n, hs.linked.take n, ?_, ?_, ?_, ?_,
      hs.clean⟩, rfl⟩
  · exact fun b hb => hs.dated b (List.mem_of_mem_take hb)
  · intro tip ht
    obtain rfl : (s.blocks.take n).getLast hne = tip := by
      simpa [List.getLast?_eq_some_getLast hne] using ht
    exact ⟨fun _ => rfl, fun _ => Iff.rfl⟩
  · exact ⟨st.2, hst⟩
  · rw [getLatestBlockIndex_eq]
    simp [hlen]

/-! ### The gates that a settled node passes for free -/

theorem integrityPairs_of_linked : ∀ {bs : List Block}, bs.IsChain ParentOf → integrityPairs bs = true
  | [], _ => rfl
  | [_], _ => rfl
  | a :: b :: rest, h => by
    rw [List.isChain_cons_cons] at h
    simp only [integrityPairs, Bool.and_eq_true, beq_iff_eq, decide_eq_true_eq]
    exact ⟨⟨⟨h.1.hash.symm, h.1.timestamp⟩, h.1.difficulty⟩, integrityPairs_of_linked h.2⟩

theorem Settled.integrity {s : ChainState} (h : Settled E s) : s.verifyRecentChainIntegrity = true := by
  unfold verifyRecentChainIntegrity
  split
  · rfl
  · exact integrityPairs_of_linked (h.linked.drop _)

theorem systemTxRules_of_validate {now : ℕ} {s : ChainState} {mode : SignatureValidationMode}
    {b : Block} (h : validateBlockInternal E now s mode b = .ok ()) : systemTxRules b = true := by
  obtain ⟨reward, txs, htxs, hreward, hregular⟩ := reward_of_validate h
  have hnone : txs.filter (·.isCoinbase) = [] :=
    List.filter_eq_nil_iff.mpr fun tx htx => by simp [hregular tx htx]
  simp [systemTxRules, htxs, List.findIdx?_cons, hreward, hnone]

/-- No transaction of `b` stands on `chain`. -/
def FreshOn (E : Env) (chain : List Block) (b : Block) : Prop :=
  ∀ c ∈ chain, ∀ id ∈ blockIds E c, id ∉ blockIds E b

/-- On a settled node the registry lookup of a tip extension sees the whole chain: what has
been pruned is too old for a block on the tip. -/
theorem blockHasReplayedTx_settled {now : ℕ} {mode : SignatureValidationMode} {s : ChainState}
    {b tip : Block} (hs : Settled E s) (ht : s.blocks.getLast? = some tip)
    (hi : b.index = s.blocks.length) (hp : b.previousHash = tip.hash)
    (hv : validateBlockInternal E now s mode b = .ok ()) :
    s.registry.blockHasReplayedTx E b = false ↔ FreshOn E s.blocks b := by
  have hreg := hs.registry tip ht
  have hlen := List.length_pos_of_ne_nil hs.nonempty
  have hle := tip_timestamp_le ht hi hp hv
  rw [Registry.blockHasReplayedTx_eq_false]
  constructor
  · intro h c hc id hidc hidb
    obtain ⟨u, hu, hucb, hueq⟩ := mem_regularIds.mp hidb
    have hfresh := fresh_of_validate hv (by omega) hu hucb
    obtain ⟨d, hd, hidd, he⟩ := Registry.recordAll_entry_of_mem s.blocks Registry.empty ⟨c, hc, hidc⟩
    have hentry : s.registry.entry id = some d.index := by
      rw [hreg.entry, Registry.derived_entry]
      refine ⟨he, fun a ha hida => ?_⟩
      obtain ⟨tx, htx, hcb, hteq⟩ := mem_regularIds.mp hida
      have hdate := hs.dated a ha tx htx hcb
      have := timestamp_of_getTxId (hteq.trans hueq.symm)
      unfold Registry.horizon maxTxAgeSecs maxBlockFutureTime at *
      omega
    have hb := h id hidb _ hentry
    obtain ⟨i, hlt, rfl⟩ := List.getElem_of_mem hd
    have := hs.slotted i _ (List.getElem?_eq_getElem hlt)
    omega
  · intro h id hid i hentry
    rw [hreg.entry, Registry.derived_entry] at hentry
    obtain ⟨c, hc, hidc⟩ := Registry.exists_of_ofChain_entry hentry.1
    exact absurd hid (h c hc id hidc)

/-! ### The pool-free node -/

theorem reconcile_clean {s : ChainState} (h : s.dirty = false) :
    reconcileChainStateIfDirty E s = (s, .ok ()) := by
  simp [reconcileChainStateIfDirty, h]

theorem promoteOrphans_empty (now : ℕ) {s : ChainState} (h : s.orphans = []) :
    promoteOrphansFromTip E now s = s := by
  have hprune : s.pruneOrphans now = s := by
    unfold pruneOrphans pruneOrphansAt
    simp only [h, List.filter_nil]
    rw [← h]
  have hloop : promoteLoop E now 256 s = s := by
    unfold promoteLoop
    split
    · rfl
    · have hnil : ∀ x, s.orphanChildrenOf x = [] := by simp [orphanChildrenOf, h]
      simp only [hnil, List.filter_nil, promoteChildren]
  rw [promoteOrphansFromTip, hloop, hprune]

theorem tryAdopt_empty (now : ℕ) {s : ChainState} (h : s.orphans = []) (hd : s.dirty = false) :
    tryAdoptOrphanBranch E now s = (s, .ok false) := by
  have hnil : ∀ tip, s.rankedBranches tip = [] := by
    intro tip
    simp [rankedBranches, reorgCandidates, enumeratedBranches, h]
  unfold tryAdoptOrphanBranch
  rw [reconcile_clean hd]
  simp only [andThen]
  split
  · rfl
  · simp only [hnil, List.take_nil, List.map_nil, adoptFirst]

/-! ### One block at a time -/

/-- The child of the tip that the next block of a branch is. -/
structure NextBlock (s : ChainState) (tip b : Block) : Prop where
  last : s.blocks.getLast? = some tip
  index : b.index = s.blocks.length
  previousHash : b.previousHash = tip.hash

theorem NextBlock.placement {s : ChainState} {tip b : Block} (h : NextBlock s tip b) :
    s.placement b = .extendsTip := by
  have hne : s.blocks ≠ [] := by
    intro hnil
    simpa [hnil] using h.last
  have hlen := List.length_pos_of_ne_nil hne
  have hidx := s.getLatestBlockIndex_eq
  unfold ChainState.placement
  rw [show s.getLastBlock = some tip from h.last]
  dsimp only
  rw [if_neg (by rw [hidx, h.index]; omega), if_pos ⟨by rw [hidx, h.index]; omega, h.previousHash⟩]

/-- The three verdicts on the next block: valid, not a replay, solvent. -/
structure NextGates (E : Env) (now : ℕ) (s : ChainState) (b : Block) : Prop where
  valid : validateBlockInternal E now s .requireFull b = .ok ()
  fresh : FreshOn E s.blocks b
  solvent : (replayBlocks [b] (s.balances, seedRecent s.blocks s.blocks.length)).isOk = true

/-- The tip-extension batch accepts a validated block exactly if its replay does. -/
theorem batch_iff_replay {now : ℕ} {s : ChainState} {b : Block} (hs : Slotted s.blocks)
    (hi : b.index = s.blocks.length) (hv : validateBlockInternal E now s .requireFull b = .ok ())
    (bal : Balances) :
    processTransactionsBatch E .requireFull s.blocks s.balances b.index b.transactions = .ok bal ↔
      ∃ recent, replayBlocks [b] (s.balances, seedRecent s.blocks s.blocks.length) =
        .ok (bal, recent) := by
  obtain ⟨reward, txs, htxs, hreward, hregular⟩ := reward_of_validate hv
  rw [replayBlocks_singleton, htxs, hi]
  refine processTransactionsBatch_eq_replay hs hreward hregular (fun tx htx => ?_) bal
  exact (signature_of_validate hv (by simp [htxs, htx]) (hregular tx htx)).2

theorem exists_ok_of_isOk {α : Type} {x : Res α} (h : x.isOk = true) : ∃ a, x = .ok a := by
  cases x with
  | error e => simp [Except.isOk, Except.toBool] at h
  | ok a => exact ⟨a, rfl⟩

/-- What `save_block` does to the next block on a settled node with an empty pool. -/
theorem saveBlock_eq (now : ℕ) {s : ChainState} {tip b : Block} (hs : Settled E s)
    (hpool : s.orphans = []) (hn : NextBlock s tip b) :
    ((saveBlock E now s b).2 = .ok () → NextGates E now s b) ∧
      (NextGates E now s b → ∃ bal recent,
        replayBlocks [b] (s.balances, seedRecent s.blocks s.blocks.length) = .ok (bal, recent) ∧
        saveBlock E now s b =
          ((commitTip E (noteIntegrity now s b) bal b).removeOrphanByHash b.hash, .ok ())) := by
  have hsame := noteIntegrity_same now s b
  have hbal : (noteIntegrity now s b).balances = s.balances := by
    unfold noteIntegrity
    split <;> rfl
  have horphans : (noteIntegrity now s b).orphans = [] := by
    unfold noteIntegrity
    split <;> exact hpool
  have hpre_error : ∀ e, prevalidateUnattachedBlock E now .requireFull b = .error e →
      saveBlock E now s b = (s, .error e) := by
    intro e hpre
    unfold saveBlock saveBlockWithMode
    rw [hpre]
  have hgate_error : ∀ e, prevalidateUnattachedBlock E now .requireFull b = .ok () →
      persistGates E now .requireFull s b = .error e → saveBlock E now s b = (s, .error e) := by
    intro e hpre hg
    unfold saveBlock saveBlockWithMode
    rw [hpre]
    simp only [reconcile_clean hs.clean, andThen, hn.placement, persistValidatedBlockWithMode, hg]
  have hbatch_error : ∀ e, prevalidateUnattachedBlock E now .requireFull b = .ok () →
      persistGates E now .requireFull s b = .ok () →
      processTransactionsBatch E .requireFull s.blocks s.balances b.index b.transactions = .error e →
      saveBlock E now s b = ((noteIntegrity now s b).markDirty, .error e) := by
    intro e hpre hg hb
    unfold saveBlock saveBlockWithMode
    rw [hpre]
    simp only [reconcile_clean hs.clean, andThen, hn.placement, persistValidatedBlockWithMode, hg, applyTip,
      hsame.blocks, hbal, hb]
  have hsaved : ∀ bal, prevalidateUnattachedBlock E now .requireFull b = .ok () →
      persistGates E now .requireFull s b = .ok () →
      processTransactionsBatch E .requireFull s.blocks s.balances b.index b.transactions = .ok bal →
      saveBlock E now s b = ((commitTip E (noteIntegrity now s b) bal b).removeOrphanByHash b.hash, .ok ()) := by
    intro bal hpre hg hb
    have hempty : ((commitTip E (noteIntegrity now s b) bal b).removeOrphanByHash b.hash).orphans = [] := by
      simp [removeOrphanByHash, commitTip, horphans]
    unfold saveBlock saveBlockWithMode
    rw [hpre]
    simp only [reconcile_clean hs.clean, andThen, hn.placement, persistValidatedBlockWithMode, hg, applyTip,
      hsame.blocks, hbal, hb, promoteOrphans_empty now hempty, tryAdopt_empty now hempty rfl]
  constructor
  · intro h
    cases hpre : prevalidateUnattachedBlock E now .requireFull b with
    | error e => simp [hpre_error e hpre] at h
    | ok u =>
      cases hg : persistGates E now .requireFull s b with
      | error e => simp [hgate_error e hpre hg] at h
      | ok u =>
        cases hb : processTransactionsBatch E .requireFull s.blocks s.balances b.index b.transactions with
        | error e => simp [hbatch_error e hpre hg hb] at h
        | ok bal =>
          simp only [persistGates, bind_unit_eq_ok, ensure_eq_ok] at hg
          obtain ⟨recent, hr⟩ := (batch_iff_replay hs.slotted hn.index hg.1 bal).mp hb
          refine ⟨hg.1, ?_, by rw [hr]; rfl⟩
          exact (blockHasReplayedTx_settled hs hn.last hn.index hn.previousHash hg.1).mp hg.2.1
  · rintro ⟨hv, hfresh, hsolv⟩
    obtain ⟨⟨bal, recent⟩, hr⟩ := exists_ok_of_isOk hsolv
    refine ⟨bal, recent, hr, ?_⟩
    have hg : persistGates E now .requireFull s b = .ok () := by
      simp only [persistGates, bind_unit_eq_ok, ensure_eq_ok]
      exact ⟨hv, (blockHasReplayedTx_settled hs hn.last hn.index hn.previousHash hv).mpr hfresh,
        fun _ => hs.integrity, systemTxRules_of_validate hv⟩
    exact hsaved bal (prevalidate_of_validate hv) hg
      ((batch_iff_replay hs.slotted hn.index hv bal).mpr ⟨recent, hr⟩)

/-- A block that passes the gates leaves a settled node one block higher. -/
theorem commitTip_settled {now : ℕ} {s : ChainState} {tip b : Block} (hs : Settled E s)
    (hpool : s.orphans = []) (hn : NextBlock s tip b) (hg : NextGates E now s b) {bal : Balances}
    {recent : Recent}
    (hr : replayBlocks [b] (s.balances, seedRecent s.blocks s.blocks.length) = .ok (bal, recent)) :
    Settled E ((commitTip E (noteIntegrity now s b) bal b).removeOrphanByHash b.hash) ∧
      ((commitTip E (noteIntegrity now s b) bal b).removeOrphanByHash b.hash).blocks =
        s.blocks ++ [toStorageBlock E b] ∧
      ((commitTip E (noteIntegrity now s b) bal b).removeOrphanByHash b.hash).orphans = [] := by
  have hsame := noteIntegrity_same now s b
  set t := (commitTip E (noteIntegrity now s b) bal b).removeOrphanByHash b.hash with htdef
  have hblocks : t.blocks = s.blocks ++ [toStorageBlock E b] := by
    rw [htdef]
    simp only [removeOrphanByHash, commitTip, hsame.blocks]
    exact setSlot_length hn.index
  have hlen := List.length_pos_of_ne_nil hs.nonempty
  have h0 : b.index ≠ 0 := by
    rw [hn.index]
    omega
  have hle := tip_timestamp_le hn.last hn.index hn.previousHash hg.valid
  refine ⟨⟨?_, ?_, ?_, ?_, ?_, ?_, ?_, rfl⟩, hblocks, ?_⟩
  · simp [hblocks]
  · rw [hblocks]
    refine slotted_append hs.slotted fun i c hc => ?_
    cases i with
    | zero =>
      obtain rfl : toStorageBlock E b = c := by simpa using hc
      simpa using hn.index
    | succ i => simp at hc
  · rw [hblocks]
    refine List.isChain_append.mpr ⟨hs.linked, .singleton _, ?_⟩
    intro x hx y hy
    obtain rfl : tip = x := by simpa [hn.last] using hx
    obtain rfl : toStorageBlock E b = y := by simpa using hy
    obtain ⟨parent, hparent, hof⟩ :=
      (validateParent_eq_ok h0).mp (validateBlockInternal_eq_ok.mp hg.valid).2.1
    have hget : s.getBlock (b.index - 1) = some tip := by
      rw [getBlock, hn.index, ← hn.last, List.getLast?_eq_getElem?]
    rw [getParentBlockFor_canonical h0 hget hn.previousHash.symm, Option.some.injEq] at hparent
    rw [hparent]
    exact ⟨hof.hash, hof.index, hof.timestamp, hof.difficulty⟩
  · rw [hblocks]
    refine dated_append [b] hs.dated fun c hc tx htx hcb => ?_
    obtain rfl : c = b := by simpa using hc
    exact (fresh_of_validate hg.valid h0 htx hcb).2
  · intro tip' ht'
    obtain rfl : toStorageBlock E b = tip' := by simpa [hblocks] using ht'
    have hreg : t.registry = (s.registry.recordConfirmedTxs E b).pruneConfirmedTxs b.timestamp := by
      rw [htdef]
      simp only [removeOrphanByHash, commitTip, hsame.registry]
    rw [hreg, hblocks, toStorageBlock_timestamp]
    exact (hs.registry tip hn.last).extend hle hg.fresh
  · refine ⟨recent, ?_⟩
    have hstored : replayBlocks [toStorageBlock E b]
        (s.balances, seedRecent s.blocks s.blocks.length) = .ok (bal, recent) :=
      (replayBlocks_stored [b] _).trans hr
    have hbal : t.balances = bal := by
      rw [htdef]
      rfl
    rw [hbal, hblocks]
    unfold replayChain
    rw [replayBlocks_append, show replayBlocks s.blocks (fun _ => 0, []) = _ from hs.replay, ok_bind,
      hstored]
  · rw [getLatestBlockIndex_eq, hblocks]
    have : t.balancesHeight = some b.index := by
      rw [htdef]
      rfl
    rw [this, hn.index]
    simp
  · have horphans : (noteIntegrity now s b).orphans = [] := by
      unfold noteIntegrity
      split <;> exact hpool
    rw [htdef]
    simp [removeOrphanByHash, commitTip, horphans]

/-- **One block**: `save_block` on a settled node accepts the next block exactly if it passes
the three gates, and leaves a settled node one block higher. -/
theorem saveBlock_settled (now : ℕ) {s : ChainState} {tip b : Block} (hs : Settled E s)
    (hpool : s.orphans = []) (hn : NextBlock s tip b) :
    ((saveBlock E now s b).2 = .ok () ↔ NextGates E now s b) ∧
      (NextGates E now s b → ∃ t, saveBlock E now s b = (t, .ok ()) ∧ Settled E t ∧ t.orphans = [] ∧
        t.blocks = s.blocks ++ [toStorageBlock E b] ∧
        replayBlocks [b] (s.balances, seedRecent s.blocks s.blocks.length) =
          .ok (t.balances, seedRecent t.blocks t.blocks.length)) := by
  obtain ⟨hmp, hmpr⟩ := saveBlock_eq now hs hpool hn
  refine ⟨⟨hmp, fun hg => ?_⟩, fun hg => ?_⟩
  · obtain ⟨bal, recent, -, heq⟩ := hmpr hg
    rw [heq]
  · obtain ⟨bal, recent, hr, heq⟩ := hmpr hg
    obtain ⟨ht, hblocks, horphans⟩ := commitTip_settled hs hpool hn hg hr
    refine ⟨_, heq, ht, horphans, hblocks, ?_⟩
    have hreplay := ht.replay
    rw [hblocks] at hreplay
    unfold replayChain at hreplay
    rw [replayBlocks_append, show replayBlocks s.blocks (fun _ => 0, []) = _ from hs.replay, ok_bind,
      show [toStorageBlock E b] = [b].map (toStorageBlock E) from rfl, replayBlocks_stored, hr] at hreplay
    rw [hr, hreplay, hblocks]
    rfl

/-! ### The whole branch, block by block -/

variable (E) in
/-- Save the blocks of a branch in order, stopping at the first that is refused. -/
def saveAll (now : ℕ) : List Block → ChainState → ChainState × Res Unit
  | [], s => (s, .ok ())
  | b :: bs, s => andThen (saveBlock E now s b) fun _ s => saveAll now bs s

/-- A branch shares no id with `chain` and repeats none among its blocks. -/
def Apart (E : Env) (chain branch : List Block) : Prop :=
  (∀ b ∈ branch, FreshOn E chain b) ∧ NoReplay E branch

theorem apart_cons {chain bs : List Block} {b : Block} :
    Apart E chain (b :: bs) ↔ FreshOn E chain b ∧ Apart E (chain ++ [toStorageBlock E b]) bs := by
  simp only [Apart, NoReplay, List.forall_mem_cons, List.pairwise_cons, FreshOn, List.mem_append,
    List.mem_singleton, or_imp, forall_and, forall_eq, blockIds_toStorageBlock]
  tauto

/-- Reward rules read the genesis timestamp only. -/
theorem validateBlockRewardRulesAt_congr {s t : ChainState}
    (h : (s.getBlock 0).map (·.timestamp) = (t.getBlock 0).map (·.timestamp)) (height : ℕ) (b : Block) :
    validateBlockRewardRulesAt E s height b = validateBlockRewardRulesAt E t height b := by
  have hg : genesisTimestamp s = genesisTimestamp t := by
    unfold genesisTimestamp
    rw [h]
  simp only [validateBlockRewardRulesAt, calculateBlockRewardUnits, feeAccountingIsAdmissibleForBlock,
    scheduledBaselineUnitsAt, hg]

/-- A block is judged the same on two nodes that find the same parent header. -/
theorem validate_congr {now : ℕ} {s t : ChainState} {p q b : Block} (mode : SignatureValidationMode)
    (hgen : (s.getBlock 0).map (·.timestamp) = (t.getBlock 0).map (·.timestamp)) (h0 : b.index ≠ 0)
    (hs : s.getParentBlockFor b = some p) (ht : t.getParentBlockFor b = some q)
    (hsame : ParentOf p b ↔ ParentOf q b) :
    validateBlockInternal E now s mode b = .ok () ↔ validateBlockInternal E now t mode b = .ok () := by
  have hpar : validateParent s b = .ok () ↔ validateParent t b = .ok () := by
    rw [validateParent_eq_ok h0, validateParent_eq_ok h0, hs, ht]
    simpa using hsame
  rw [validateBlockInternal_eq_ok, validateBlockInternal_eq_ok, validateBlockRewardRulesAt_congr hgen, hpar]

/-- The same header judgement, whether the parent is found in the pool or on the tip. -/
theorem validate_transfer (now : ℕ) {s t : ChainState} {tip parent b : Block}
    (hgen : (s.getBlock 0).map (·.timestamp) = (t.getBlock 0).map (·.timestamp))
    (hn : NextBlock t tip b) (hparent : s.getParentBlockFor b = some parent)
    (hsame : ParentOf parent b ↔ ParentOf tip b) (hfull : FullWitness b) :
    validateBlockInternal E now s .allowTruncatedStored b = .ok () ↔
      validateBlockInternal E now t .requireFull b = .ok () := by
  have hne : t.blocks ≠ [] := by
    intro hnil
    simpa [hnil] using hn.last
  have hlen := List.length_pos_of_ne_nil hne
  have h0 : b.index ≠ 0 := by
    rw [hn.index]
    omega
  have hget : t.getBlock (b.index - 1) = some tip := by
    rw [getBlock, hn.index, ← hn.last, List.getLast?_eq_getElem?]
  rw [validateBlockInternal_mode hfull]
  exact validate_congr .requireFull hgen h0 hparent
    (getParentBlockFor_canonical h0 hget hn.previousHash.symm) hsame

/-- **Block by block**: a settled node on the fork parent accepts the branch exactly if every
block validates in the reorg's view, the branch replays on the fork's totals, and no id
repeats; it ends settled on the branch. -/
theorem saveAll_settled (now : ℕ) {s : ChainState} :
    ∀ (branch : List Block) (t : ChainState), Settled E t → t.orphans = [] →
      (s.getBlock 0).map (·.timestamp) = (t.getBlock 0).map (·.timestamp) →
      (∀ first ∈ branch.head?, ∃ tip parent, NextBlock t tip first ∧
        s.getParentBlockFor first = some parent ∧ ∀ b, ParentOf parent b ↔ ParentOf tip b) →
      branch.IsChain BranchLink → (branch.IsChain fun a b => s.getParentBlockFor b = some a) →
      (∀ b ∈ branch, FullWitness b) →
      ((saveAll E now branch t).2 = .ok () ↔
        (∀ b ∈ branch, validateBlockInternal E now s .allowTruncatedStored b = .ok ()) ∧
          (replayBlocks branch (t.balances, seedRecent t.blocks t.blocks.length)).isOk = true ∧
          Apart E t.blocks branch) ∧
        ((saveAll E now branch t).2 = .ok () → Settled E (saveAll E now branch t).1 ∧
          (saveAll E now branch t).1.blocks = t.blocks ++ branch.map (toStorageBlock E))
  | [], t, ht, _, _, _, _, _, _ => by
    simp only [saveAll, List.map_nil, List.append_nil, true_iff, forall_const]
    exact ⟨⟨by simp, rfl, by simp [Apart, NoReplay]⟩, ht, trivial⟩
  | b :: bs, t, ht, hpool, hgen, hhead, hlink, hfound, hfull => by
    obtain ⟨tip, parent, hn, hparent, hsame⟩ := hhead b (by simp)
    have hv := validate_transfer (E := E) now hgen hn hparent (hsame b) (hfull b (by simp))
    obtain ⟨hiff, hstep⟩ := saveBlock_settled now ht hpool hn
    by_cases hg : NextGates E now t b
    swap
    · -- the block is refused: some verdict of the branch fails with it
      have hrefused : (saveAll E now (b :: bs) t).2 ≠ .ok () := by
        intro h
        refine hg (hiff.mp ?_)
        unfold saveAll at h
        rcases hsave : saveBlock E now t b with ⟨t', r⟩
        rw [hsave] at h
        cases r with
        | error e => simp [andThen] at h
        | ok u => rfl
      refine ⟨⟨fun h => absurd h hrefused, ?_⟩, fun h => absurd h hrefused⟩
      rintro ⟨hvalid, hreplay, hapart⟩
      refine absurd ⟨hv.mp (hvalid b (by simp)), (apart_cons.mp hapart).1, ?_⟩ hg
      obtain ⟨st, hst⟩ := exists_ok_of_isOk hreplay
      rw [show b :: bs = [b] ++ bs from rfl, replayBlocks_append] at hst
      obtain ⟨st₁, hst₁, -⟩ := bind_eq_ok.mp hst
      rw [hst₁]
      rfl
    · obtain ⟨t', hsave, ht', hpool', hblocks', hreplay'⟩ := hstep hg
      have hall : saveAll E now (b :: bs) t = saveAll E now bs t' := by
        simp only [saveAll, hsave, andThen]
      have hgen' : (s.getBlock 0).map (·.timestamp) = (t'.getBlock 0).map (·.timestamp) := by
        rw [hgen, getBlock, getBlock, hblocks',
          List.getElem?_append_left (List.length_pos_of_ne_nil ht.nonempty)]
      have hhead' : ∀ first ∈ bs.head?, ∃ tip parent, NextBlock t' tip first ∧
          s.getParentBlockFor first = some parent ∧ ∀ c, ParentOf parent c ↔ ParentOf tip c := by
        intro first hfirst
        obtain ⟨rest, rfl⟩ : ∃ rest, bs = first :: rest := by
          cases bs with
          | nil => simp at hfirst
          | cons x xs => exact ⟨xs, by simpa using hfirst⟩
        have hbl := (List.isChain_cons_cons.mp hlink).1
        refine ⟨toStorageBlock E b, b, ⟨by simp [hblocks'], ?_, hbl.2⟩,
          (List.isChain_cons_cons.mp hfound).1, fun c => parentOf_toStorageBlock.symm⟩
        rw [hbl.1, hn.index, hblocks']
        simp
      have ih := saveAll_settled now bs t' ht' hpool' hgen' hhead' hlink.of_cons hfound.of_cons
        fun c hc => hfull c (by simp [hc])
      have hrest : replayBlocks (b :: bs) (t.balances, seedRecent t.blocks t.blocks.length) =
          replayBlocks bs (t'.balances, seedRecent t'.blocks t'.blocks.length) := by
        rw [show b :: bs = [b] ++ bs from rfl, replayBlocks_append, hreplay', ok_bind]
      rw [hall, hrest, apart_cons, ← hblocks', ih.1]
      constructor
      · constructor
        · rintro ⟨hvalid, hsolv, hapart⟩
          exact ⟨by simpa using ⟨hv.mpr hg.valid, hvalid⟩, hsolv, hg.fresh, hapart⟩
        · rintro ⟨hvalid, hsolv, -, hapart⟩
          exact ⟨fun c hc => hvalid c (by simp [hc]), hsolv, hapart⟩
      · intro h
        obtain ⟨hsettled, hblocks⟩ := ih.2 (ih.1.mpr h)
        refine ⟨hsettled, ?_⟩
        rw [hblocks, hblocks']
        simp

/-! ### A settled start -/

instance (a b : Block) : Decidable (ParentOf a b) :=
  decidable_of_iff (a.hash = b.previousHash ∧ a.index = b.index - 1 ∧ a.timestamp ≤ b.timestamp ∧
    b.difficulty = consensusNextDifficulty a.difficulty (b.timestamp - a.timestamp) b.index)
    ⟨fun h => ⟨h.1, h.2.1, h.2.2.1, h.2.2.2⟩, fun h => ⟨h.hash, h.index, h.timestamp, h.difficulty⟩⟩

instance (a b : Block) : Decidable (BranchLink a b) :=
  inferInstanceAs (Decidable (b.index = a.index + 1 ∧ b.previousHash = a.hash))

instance (b : Block) : Decidable (FullWitness b) :=
  inferInstanceAs (Decidable (∀ tx ∈ b.transactions, tx.isCoinbase = false → fullSigPresent tx = true))

instance (chain : List Block) (b : Block) : Decidable (FreshOn E chain b) :=
  inferInstanceAs (Decidable (∀ c ∈ chain, ∀ id ∈ blockIds E c, id ∉ blockIds E b))

/-- A clean node on a valid chain, none of whose transactions has aged out, is settled. -/
theorem settled_holding {blocks : List Block} {orphans : List OrphanStoredBlock} (hne : blocks ≠ [])
    (hslot : Slotted blocks) (hlink : blocks.IsChain ParentOf) (hdated : Dated blocks)
    (hsolv : (replayChain blocks).isOk = true)
    (hyoung : ∀ tip ∈ blocks.getLast?, ∀ b ∈ blocks, blockIds E b ≠ [] →
      tip.timestamp ≤ b.timestamp + Registry.horizon) : Settled E (holding E blocks orphans) where
  nonempty := hne
  slotted := hslot
  linked := hlink
  dated := hdated
  registry tip ht := by
    have hy := hyoung tip ht
    refine ⟨fun id => Registry.entry_eq_of_some_iff fun i => ?_, fun k => ?_⟩
    · rw [Registry.derived_entry]
      exact ⟨fun h => ⟨h, fun b hb hid => hy b hb (List.ne_nil_of_mem hid)⟩, fun h => h.1⟩
    · rw [Registry.mem_derived_index]
      refine ⟨fun hk => ?_, fun h => Registry.mem_ofChain_index.mpr h.1⟩
      obtain ⟨b, hb, hts, hid⟩ := Registry.mem_ofChain_index.mp hk
      exact ⟨⟨b, hb, hts, hid⟩, hts ▸ hy b hb (List.ne_nil_of_mem hid)⟩
  balances := by
    obtain ⟨st, hst⟩ := exists_ok_of_isOk hsolv
    exact ⟨st.2, by simp [holding, hst, Except.toOption]⟩
  balancesHeight := by rw [getLatestBlockIndex_eq]; rfl
  clean := rfl

namespace Toy

/-- The node that stopped at the fork parent. -/
def atFork : ChainState := .holding toyEnv [genesis, b1] []

theorem settled_fork (pool : List Block) : Settled toyEnv (fork pool) :=
  settled_holding (by decide +kernel) (by decide +kernel) (by decide +kernel) (by decide +kernel)
    (by decide +kernel) (by decide +kernel)

theorem settled_atFork : Settled toyEnv atFork :=
  settled_holding (by decide +kernel) (by decide +kernel) (by decide +kernel) (by decide +kernel)
    (by decide +kernel) (by decide +kernel)

end Toy

end Alphanumeric
