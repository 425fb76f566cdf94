/-
# Which branch a reorg finds

`try_adopt_orphan_branch` enumerates the maximal branches of the pool, ranks those that
beat the canonical suffix, and adopts the first that passes every gate. Within the search
budgets the enumeration is complete, so it adopts the best maximal branch that passes.
A sequence that wins and is valid but has an invalid child is no maximal branch, and is
never looked at: the search is right as far as every winning sequence is matched by a
maximal one that ranks as high (`SearchSound`).

Key definitions: `WithinBudget`, `MaximalWinner`, `BestWinner`, `Retained`, `SearchSound`, `Adopted`.
Key theorems: `branchSolvent_eq_replay`, `tryAdopt_iff_maximal`, `winning_transfer`,
`try_adopt_finds_the_best`.
-/
import Alphanumeric.Attempts
import Alphanumeric.ForkState

namespace Alphanumeric

open Guard BlockchainError ChainState

variable {E : Env}

/-! ### The budgets of the search -/

/-- No budget of the search is hit. -/
structure WithinBudget (s : ChainState) (tip : Block) : Prop where
  branches : ∀ c ∈ s.reorgCandidates tip,
    (Paths.allPaths s.branchChildren (orphanReorgDepth - 1) c).length < orphanBranchSearchLimit
  total : ((s.reorgCandidates tip).flatMap
    (Paths.allPaths s.branchChildren (orphanReorgDepth - 1))).length < maxReorgBranchesEvaluated
  depth : ∀ c ∈ s.poolBlocks, ∀ branch, s.PoolBranch c branch → branch.length < orphanReorgDepth
  ranked : (s.rankedBranches tip).length ≤ maxReorgAdoptAttempts

theorem sum_length_filter_le {α β : Type} (f : α → List β) (p : α → Bool) :
    ∀ as : List α, ((as.filter p).flatMap f).length ≤ (as.flatMap f).length
  | [] => le_rfl
  | a :: as => by
    have ih := sum_length_filter_le f p as
    rw [List.filter_cons, List.flatMap_cons, List.length_append]
    split_ifs
    · rw [List.flatMap_cons, List.length_append]
      omega
    · omega

/-- Within the budgets the search enumerates every path of the pool from every candidate. -/
theorem WithinBudget.enumerated {s : ChainState} {tip : Block} (h : WithinBudget s tip) :
    s.enumeratedBranches (s.reorgCandidates tip) =
      ((s.reorgCandidates tip).filter fun c => s.trustedCheckpointHeight < c.index).flatMap
        (Paths.allPaths s.branchChildren (orphanReorgDepth - 1)) := by
  have hcollect : ((s.reorgCandidates tip).filter fun c => s.trustedCheckpointHeight < c.index).flatMap
      (fun c => s.collectOrphanBranchesFrom c orphanReorgDepth orphanBranchSearchLimit) =
      ((s.reorgCandidates tip).filter fun c => s.trustedCheckpointHeight < c.index).flatMap
        (Paths.allPaths s.branchChildren (orphanReorgDepth - 1)) := by
    refine List.flatMap_congr fun c hc => ?_
    exact Paths.enumerate_eq_allPaths (by decide) (h.branches c (List.mem_of_mem_filter hc))
  have hlen := sum_length_filter_le (Paths.allPaths s.branchChildren (orphanReorgDepth - 1))
    (fun c => decide (s.trustedCheckpointHeight < c.index)) (s.reorgCandidates tip)
  have htotal := h.total
  unfold enumeratedBranches
  rw [hcollect, List.take_of_length_le (by omega)]

theorem ChainState.Contender.mem_enumerated {s : ChainState} {tip first branchTip : Block} {branch : List Block}
    (hb : WithinBudget s tip) (h : s.Contender tip first branchTip branch)
    (hleaf : s.branchChildren branchTip = []) :
    branch ∈ s.enumeratedBranches (s.reorgCandidates tip) := by
  have hc := mem_reorgCandidates.mpr ⟨h.firstPool, h.candidate⟩
  have hlen := hb.depth first h.firstPool branch h.path
  rw [hb.enumerated, List.mem_flatMap]
  refine ⟨first, List.mem_filter.mpr ⟨hc, by simpa using h.aboveCheckpoint⟩, ?_⟩
  exact Paths.mem_allPaths _ h.path.head h.path.isChain_children h.last hleaf (by omega)

/-- A branch of the ranking ends in a block without a child. -/
theorem childless_of_ranked {s : ChainState} {tip first branchTip : Block} {r : RankedBranch}
    (hb : WithinBudget s tip) (hr : r ∈ s.rankedBranches tip)
    (h : s.Contender tip first branchTip r.branch) : s.branchChildren branchTip = [] := by
  have hlen := hb.depth first h.firstPool r.branch h.path
  simp only [rankedBranches, List.mem_insertionSort, List.mem_filterMap] at hr
  obtain ⟨branch, hmem, hrank⟩ := hr
  obtain ⟨f, l, -, -, -, rfl⟩ := rankBranch_eq_some hrank
  rw [hb.enumerated, List.mem_flatMap] at hmem
  obtain ⟨c, -, hpath⟩ := hmem
  obtain ⟨last, hlast, hleaf⟩ := Paths.leaf_of_mem_allPaths _ hpath (by dsimp only at hlen; omega)
  obtain rfl : branchTip = last := by simpa [h.last] using hlast
  exact hleaf

/-! ### What the search adopts -/

/-- A winning sequence that leaves the chain at or below the tip and cannot be extended in
the pool. -/
structure MaximalWinner (E : Env) (now : ℕ) (s : ChainState) (tip first branchTip : Block)
    (branch : List Block) : Prop where
  winning : WinningSequence E now s tip first branchTip branch
  fork_le : first.index ≤ tip.index
  childless : s.branchChildren branchTip = []

/-- A maximal winner that ranks at least as high as every other one. -/
structure BestWinner (E : Env) (now : ℕ) (s : ChainState) (tip first branchTip : Block)
    (branch : List Block) : Prop where
  maximal : MaximalWinner E now s tip first branchTip branch
  best : ∀ f l b, MaximalWinner E now s tip f l b →
    rankedLe (rankOf s first branchTip branch) (rankOf s f l b) = true

theorem ChainState.Contender.toCandidate {s : ChainState} {tip first branchTip : Block} {branch : List Block}
    (h : s.Contender tip first branchTip branch) (ht : s.blocks.getLast? = some tip) :
    Candidate s tip branch first branchTip := by
  obtain ⟨p, hp, hhash⟩ := h.parent
  exact ⟨h.forksOff ht, h.path.mem h.firstPool, p, List.mem_of_getElem? hp, hhash⟩

/-- What one call of the search does: it refuses everything and no maximal sequence wins, or
it adopts a best one. -/
theorem tryAdopt_best {now : ℕ} {s : ChainState} {tip : Block} (hs : Settled E s) (hp : OrphanPool s)
    (ht : s.blocks.getLast? = some tip) (hb : WithinBudget s tip) (hback : BackoffOnly now s []) :
    ((tryAdoptOrphanBranch E now s).2 = .ok false ∧
        ∀ first branchTip branch, ¬ MaximalWinner E now s tip first branchTip branch) ∨
      ∃ w s' first branchTip branch, BestWinner E now s tip first branchTip branch ∧
        adoptBranchIfValid E now (withMemo s w) branch tip = (s', .ok true) ∧
        tryAdoptOrphanBranch E now s = (s', .ok true) := by
  have hlast := hs.slotted.lastIndex ht
  set ranked := (s.rankedBranches tip).map (·.branch) with hranked
  have htry : tryAdoptOrphanBranch E now s = adoptFirst E now tip ranked (withMemo s s.witnessBlocked) := by
    unfold tryAdoptOrphanBranch
    rw [reconcile_clean hs.clean]
    simp only [andThen, show s.getLastBlock = some tip from ht]
    rw [List.take_of_length_le hb.ranked]
    rfl
  have hcand : ∀ branch ∈ [] ++ ranked, ∃ first branchTip, Candidate s tip branch first branchTip := by
    intro branch hmem
    rw [List.nil_append] at hmem
    obtain ⟨r, hr, rfl⟩ := List.mem_map.mp hmem
    obtain ⟨first, branchTip, hc, -⟩ := contender_of_mem_ranked hlast hr
    exact ⟨first, branchTip, hc.toCandidate ht⟩
  -- every maximal winner is in the ranking, and passes there
  have hmem : ∀ {first branchTip branch}, MaximalWinner E now s tip first branchTip branch →
      rankOf s first branchTip branch ∈ s.rankedBranches tip ∧
        Candidate s tip branch first branchTip := by
    intro first branchTip branch hm
    have hc := hm.winning.contender hs.slotted hp ht hm.fork_le
    exact ⟨mem_ranked_of_enumerated hlast hc (hc.mem_enumerated hb hm.childless), hc.toCandidate ht⟩
  rcases adoptFirst_finds now hs hp ranked [] s.witnessBlocked hcand (by simp) hback with
    ⟨w, hres, hnone⟩ | ⟨pre, branch, post, w, s', first, branchTip, hsplit, hc, hg, hpre, hadopt, hres⟩
  · refine .inl ⟨by rw [htry, hres], fun first branchTip branch hm => ?_⟩
    obtain ⟨hin, hc⟩ := hmem hm
    exact hnone branch (List.mem_map_of_mem hin) first branchTip hc hm.winning.gates
  · obtain ⟨rpre, rest, hrsplit, hmpre, hmrest⟩ := List.map_eq_append_iff.mp (hranked.symm.trans hsplit)
    obtain ⟨r, rpost, rfl, rfl, hmpost⟩ := List.map_eq_cons_iff.mp hmrest
    have hr : r ∈ s.rankedBranches tip := by
      rw [hrsplit]
      simp
    obtain ⟨f, l, hcon, hval⟩ := contender_of_mem_ranked hlast hr
    obtain rfl : first = f := by simpa [hc.forks.head] using hcon.path.head
    obtain rfl : branchTip = l := by simpa [hc.forks.last] using hcon.last
    have hwin : WinningSequence E now s tip first branchTip r.branch :=
      ⟨hcon.path, hcon.firstPool, hcon.parent, hcon.last, hcon.aboveCheckpoint, hg, hcon.beats⟩
    refine .inr ⟨w, s', first, branchTip, r.branch,
      ⟨⟨hwin, hc.forks.fork_le, childless_of_ranked hb hr hcon⟩, fun f' l' b' hm => ?_⟩, hadopt,
      by rw [htry, hres]⟩
    obtain ⟨hin, hc'⟩ := hmem hm
    have hsorted := rankedBranches_sorted s tip
    rw [hrsplit] at hin hsorted
    rw [show rankOf s first branchTip r.branch = r from hval.symm]
    rcases List.mem_append.mp hin with hin | hin
    · -- a winner before the adopted branch would have been adopted
      have hb' : b' ∈ pre := by
        rw [← hmpre]
        exact List.mem_map_of_mem (f := (·.branch)) hin
      exact absurd hm.winning.gates (hpre b' hb' f' l' hc')
    · rcases List.mem_cons.mp hin with heq | hin
      · rw [heq]
        exact (rankedLe_iff.mpr (.inr ⟨rfl, le_rfl⟩))
      · exact (List.pairwise_cons.mp (List.pairwise_append.mp hsorted).2.1).1 _ hin

/-! ### Solvency is replay from genesis -/

/-- The balances index is the one the chain determines. -/
structure BalancesCurrent (s : ChainState) : Prop where
  slotted : Slotted s.blocks
  balances : ∃ recent, replayChain s.blocks = .ok (s.balances, recent)
  height : s.balancesHeight = some s.getLatestBlockIndex

theorem Settled.balancesCurrent {s : ChainState} (hs : Settled E s) : BalancesCurrent s :=
  ⟨hs.slotted, hs.balances, hs.balancesHeight⟩

/-- The dry-run of a branch from the fork state is the replay of its chain from genesis. -/
theorem branchSolvent_eq_replay {s : ChainState} {tip : Block} {forkStart : ℕ} {branch : List Block}
    (h : BalancesCurrent s) (ht : s.blocks.getLast? = some tip) (h0 : 0 < forkStart)
    (hle : forkStart ≤ tip.index) :
    s.branchSolvent E forkStart tip.index branch =
      .ok (replayChain (s.blocks.take forkStart ++ branch)).isOk := by
  have hlen := h.slotted.lastIndex ht
  obtain ⟨recent, hreplay⟩ := h.balances
  obtain ⟨st, hst, hrecent, hbalances⟩ := below_fork h.slotted hreplay forkStart (by omega)
  have hrevert : (s.blocks.drop forkStart).foldl (fun bal b => replayRevertBlock b.transactions bal) s.balances =
      st.1 := by
    rw [revertBlocks_eq]
    funext a
    have hraw := hbalances a
    dsimp only at hraw ⊢
    omega
  have hheight : s.balancesHeight = some tip.index := by
    rw [h.height, getLatestBlockIndex_eq]
    congr 1
    omega
  have hst' : replayBlocks branch (st.1, seedRecent s.blocks forkStart) = replayBlocks branch st := by
    rw [← hrecent]
  unfold replayChain at hst
  unfold branchSolvent balancesAtForkState replayChain
  rw [if_neg (by omega), if_neg (by simp [hheight]), hrevert, replayBlocks_append, hst, ok_bind]
  dsimp only
  rw [hst']

/-! ### After the adoption -/

/-- What an adoption of `branch` leaves of `s`. -/
structure Adopted (E : Env) (s s' : ChainState) (first branchTip : Block) (branch : List Block) :
    Prop where
  blocks : s'.blocks = s.blocks.take first.index ++ branch.map (toStorageBlock E)
  registry : s'.registry = s.reorgRegistry E first.index branch branchTip
  checkpoint : s'.trustedCheckpoint = s.trustedCheckpoint
  orphans : s'.orphans.Sublist s.orphans
  gone : ∀ e ∈ s'.orphans, ∀ b ∈ branch, e.block.hash ≠ b.hash
  balances : BalancesCurrent s'

theorem adopted_of_adopt {now : ℕ} {s s' : ChainState} {tip first branchTip : Block}
    {branch : List Block} (hs : Settled E s) (h : ForksOff s tip first branchTip branch)
    (hadopt : adoptBranchIfValid E now s branch tip = (s', .ok true)) :
    Adopted E s s' first branchTip branch := by
  obtain ⟨t, ht, hblocks⟩ := h.exists_atFork hs
  obtain ⟨hg, hcommit⟩ := adopt_gates h (by rw [hadopt])
  rw [hadopt] at hcommit
  have hle : first.index ≤ s.blocks.length := by
    have := hs.slotted.lastIndex h.chainTip
    have := h.fork_le
    omega
  obtain ⟨hslots, hreg, hcp⟩ := commitBranch_fields hcommit
  rw [rewriteSlots_eq h.linked h.head hle] at hslots
  have hsolv := hg.solvent
  rw [branchSolvent_settled hs ht h hblocks, Except.ok.injEq] at hsolv
  obtain ⟨st, hst⟩ := exists_ok_of_isOk hsolv
  obtain ⟨s'', hcommit', hbal, hheight, -, horph, hgone⟩ := commitBranch_settled now hs ht h hblocks hst
  rw [hcommit] at hcommit'
  obtain rfl : s' = s'' := (Prod.mk.inj hcommit').1
  refine ⟨hslots, hreg, hcp, horph, hgone, ?_, ⟨st.2, ?_⟩, hheight⟩
  · rw [hslots]
    refine slotted_append (slotted_take hs.slotted _) fun i b hb => ?_
    rw [List.getElem?_map, Option.map_eq_some_iff] at hb
    obtain ⟨c, hc, rfl⟩ := hb
    rw [h.take_length hs.slotted, toStorageBlock_index, linked_index h.linked h.head i c hc]
  · have hreplay : replayBlocks t.blocks (fun _ => 0, []) = _ := ht.replay
    rw [hslots, ← hblocks, replayChain, replayBlocks_append, hreplay, ok_bind, replayBlocks_stored, hst, hbal]

namespace Adopted

variable {s s' : ChainState} {first branchTip : Block} {branch : List Block}

theorem mem_pool (h : Adopted E s s' first branchTip branch) {c : Block} (hc : c ∈ s'.poolBlocks) :
    c ∈ s.poolBlocks :=
  (h.orphans.map _).subset hc

theorem notMem_branch (h : Adopted E s s' first branchTip branch) {c : Block} (hc : c ∈ s'.poolBlocks) :
    c ∉ branch := by
  obtain ⟨e, he, rfl⟩ := List.mem_map.mp hc
  exact fun hmem => h.gone e he e.block hmem rfl

theorem orphanPool (h : Adopted E s s' first branchTip branch) (hp : OrphanPool s) : OrphanPool s' := by
  refine ⟨hp.keyed.sublist ((h.orphans.map _).map _), fun c hc b hb => ?_⟩
  rw [h.blocks] at hb
  rcases List.mem_append.mp hb with hb | hb
  · exact hp.stray c (h.mem_pool hc) b (List.mem_of_mem_take hb)
  · obtain ⟨d, hd, rfl⟩ := List.mem_map.mp hb
    obtain ⟨e, he, rfl⟩ := List.mem_map.mp hc
    exact h.gone e he d hd

theorem getBlock_below (h : Adopted E s s' first branchTip branch) {i : ℕ} (hi : i < first.index)
    (hle : first.index ≤ s.blocks.length) : s'.getBlock i = s.getBlock i := by
  rw [getBlock, getBlock, h.blocks, List.getElem?_append_left (by rw [List.length_take]; omega),
    List.getElem?_take, if_pos hi]

theorem trustedCheckpointHeight (h : Adopted E s s' first branchTip branch) :
    s'.trustedCheckpointHeight = s.trustedCheckpointHeight := by
  unfold ChainState.trustedCheckpointHeight
  rw [h.checkpoint]

theorem tip (h : Adopted E s s' first branchTip branch) (hlast : branch.getLast? = some branchTip) :
    s'.blocks.getLast? = some (toStorageBlock E branchTip) := by
  simp [h.blocks, List.getLast?_append, List.getLast?_map, hlast]

end Adopted

/-! ### A winner that is left was a winner before -/

/-- The registry lists an id at the height of the last block that carries it. -/
theorem index_le_of_ofChain_entry {id : Text} {h : ℕ} :
    ∀ {chain : List Block}, Slotted chain → (Registry.ofChain E chain).entry id = some h →
      ∀ b ∈ chain, id ∈ blockIds E b → b.index ≤ h := by
  intro chain
  induction chain using List.reverseRecOn with
  | nil => simp
  | append_singleton chain c ih =>
    intro hs hentry b hb hid
    have hc : c.index = chain.length := hs chain.length c (by simp)
    have hpre : Slotted chain := fun i d hd =>
      hs i d (by rw [List.getElem?_append_left (List.getElem?_eq_some_iff.mp hd).1]; exact hd)
    rw [Registry.ofChain_append] at hentry
    simp only [List.foldl_cons, List.foldl_nil, Registry.recordConfirmedTxs] at hentry
    have hbelow : ∀ d ∈ chain, d.index < chain.length := by
      intro d hd
      obtain ⟨i, hi, rfl⟩ := List.getElem_of_mem hd
      rw [hpre i _ (List.getElem?_eq_getElem hi)]
      exact hi
    by_cases hidc : id ∈ regularIds E c.transactions
    · rw [if_pos hidc, Option.some.injEq] at hentry
      rcases List.mem_append.mp hb with hb | hb
      · have := hbelow b hb
        omega
      · rw [List.mem_singleton.mp hb]
        omega
    · rw [if_neg hidc] at hentry
      rcases List.mem_append.mp hb with hb | hb
      · exact ih hpre hentry b hb hid
      · rw [List.mem_singleton.mp hb] at hid
        exact absurd hid hidc

/-- Adopting the branch keeps the registry entry of every id that a valid sequence left in the pool would repeat above
it: no canonical copy below both forks is past the retention horizon of the branch tip. -/
def Retained (E : Env) (now : ℕ) (s : ChainState) (first branchTip : Block) (branch : List Block) : Prop :=
  ∀ f q, s.PoolBranch f q → f ∈ s.poolBlocks →
    (∃ p ∈ s.blocks.take first.index ++ branch, p.hash = f.previousHash) →
    (∀ c ∈ q, c ∉ branch ∧ validateBlockInternal E now s .allowTruncatedStored c = .ok ()) →
    ∀ c ∈ q, ∀ id ∈ blockIds E c, (s.registry.entry id).isSome = true →
      ∀ b ∈ s.blocks.take (min first.index f.index), id ∈ blockIds E b →
        branchTip.timestamp ≤ b.timestamp + Registry.horizon

theorem listed_stays {s s' : ChainState} {tip first branchTip : Block} {branch : List Block}
    (hs : Settled E s) (ht : s.blocks.getLast? = some tip) (ha : Adopted E s s' first branchTip branch)
    (hnone : s.registry.branchReplaysBelow E first.index branch = false) {id : Text} {h : ℕ}
    (he : s.registry.entry id = some h) (hlt : h < first.index)
    (hcopies : ∀ b ∈ s.blocks.take (h + 1), id ∈ blockIds E b → branchTip.timestamp ≤ b.timestamp + Registry.horizon) :
    s'.registry.entry id = some h := by
  have hreg := hs.registry tip ht
  have hderived := he
  rw [hreg.entry, Registry.derived_entry] at hderived
  have hmax := index_le_of_ofChain_entry hs.slotted hderived.1
  have hbranch : ∀ b ∈ branch, id ∉ blockIds E b := by
    intro b hb hidb
    have := Registry.branchReplaysBelow_eq_false.mp hnone b hb id hidb h he
    omega
  have hdrop : ∀ d ∈ s.blocks.drop first.index, id ∉ blockIds E d := by
    intro d hd hidd
    have hle := hmax d (List.mem_of_mem_drop hd) hidd
    obtain ⟨i, hi, rfl⟩ := List.getElem_of_mem hd
    rw [List.getElem_drop, hs.slotted _ _ (List.getElem?_eq_getElem _)] at hle
    omega
  have hsplit : Registry.ofChain E s.blocks =
      Registry.ofChain E (s.blocks.take first.index ++ s.blocks.drop first.index) := by
    rw [List.take_append_drop]
  rw [ha.registry, reorgRegistry_entry_kept hreg hbranch]
  refine ⟨?_, hdrop, fun b hb hidb => ?_⟩
  · rw [← Registry.recordAll_entry_of_notMem _ _ hdrop, ← Registry.ofChain_append, ← hsplit]
    exact hderived.1
  · have hmem := List.mem_of_mem_take hb
    refine ⟨hderived.2 b hmem hidb, hcopies b ?_ hidb⟩
    have hle := hmax b hmem hidb
    obtain ⟨i, hi, rfl⟩ := List.getElem_of_mem hmem
    rw [hs.slotted i _ (List.getElem?_eq_getElem hi)] at hle
    exact List.mem_take_iff_getElem.mpr ⟨i, by omega, rfl⟩

/-- Two nodes with the same genesis whose pools agree on a linked run judge it alike, if they
find like parents for its first block. -/
theorem validate_agree {now : ℕ} {s s' : ChainState} (hp : OrphanPool s) (hp' : OrphanPool s')
    (hgen : (s'.getBlock 0).map (·.timestamp) = (s.getBlock 0).map (·.timestamp)) :
    ∀ (q : List Block), q.IsChain BranchLink → (∀ c ∈ q, c ∈ s.poolBlocks ∧ c ∈ s'.poolBlocks) →
      (∀ c ∈ q, c.index ≠ 0) →
      (∀ f ∈ q.head?, ∃ p p', s.getParentBlockFor f = some p ∧ s'.getParentBlockFor f = some p' ∧
        (ParentOf p' f ↔ ParentOf p f)) →
      (∀ c ∈ q, validateBlockInternal E now s' .allowTruncatedStored c = .ok ()) →
      ∀ c ∈ q, validateBlockInternal E now s .allowTruncatedStored c = .ok ()
  | [], _, _, _, _, _ => by simp
  | a :: rest, hl, hpool, h0, hhead, hv => by
    obtain ⟨p, p', hfind, hfind', hsame⟩ := hhead a (by simp)
    have hstart := (validate_congr _ hgen (h0 a (by simp)) hfind' hfind hsame).mp (hv a (by simp))
    refine List.forall_mem_cons.mpr ⟨hstart, ?_⟩
    refine validate_agree hp hp' hgen rest hl.of_cons (fun c hc => hpool c (by simp [hc]))
      (fun c hc => h0 c (by simp [hc])) (fun f hf => ?_) (fun c hc => hv c (by simp [hc]))
    obtain ⟨rest', rfl⟩ : ∃ rest', rest = f :: rest' := by
      cases rest with
      | nil => simp at hf
      | cons x xs => exact ⟨xs, by simpa using hf⟩
    have hlink := (List.isChain_cons_cons.mp hl).1
    exact ⟨a, a, hp.parent (hpool a (by simp)).1 hlink, hp'.parent (hpool a (by simp)).2 hlink, Iff.rfl⟩

/-- Beating a branch that beats the tip: the gains add up. -/
theorem beats_compose {tip tip' branchTip last : Block} {wP cP wQ cQ w c : ℕ}
    (hP : beatsCanonical tip branchTip wP cP = true) (hQ : beatsCanonical tip' last wQ cQ = true)
    (hhash : tip'.hash = branchTip.hash) (hidx : tip'.index = branchTip.index)
    (hsum : w + cP + cQ = c + wP + wQ) (b b' : List Block) :
    beatsCanonical tip last w c = true ∧
      rankedLe ⟨b, wP, cP, branchTip.hash⟩ ⟨b', w, c, last.hash⟩ = false := by
  simp only [beatsCanonical, Bool.or_eq_true, Bool.and_eq_true, decide_eq_true_eq] at hP hQ ⊢
  rw [hhash, hidx] at hQ
  constructor
  · rcases hP with hP | ⟨⟨hP, hPi⟩, hPh⟩
    · left
      omega
    · rcases hQ with hQ | ⟨⟨hQ, hQi⟩, hQh⟩
      · left
        omega
      · exact .inr ⟨⟨by omega, hQi.trans hPi⟩, hQh.trans hPh⟩
  · rw [Bool.eq_false_iff]
    intro hle
    rw [rankedLe_iff] at hle
    simp only [RankedBranch.gain] at hle
    rcases hle with hle | ⟨heq, hle⟩
    · omega
    · rcases hQ with hQ | ⟨-, hQh⟩
      · omega
      · exact absurd hle (not_le.mpr hQh)

section Transfer

variable {now : ℕ} {s s' : ChainState} {tip first branchTip f l : Block} {branch q : List Block}

theorem WinningSequence.index_pos (hw : WinningSequence E now s tip f l q) : ∀ c ∈ q, c.index ≠ 0 := by
  intro c hc
  obtain ⟨i, hi, rfl⟩ := List.getElem_of_mem hc
  have hidx := linked_index hw.path.linked hw.path.head i _ (List.getElem?_eq_getElem hi)
  have := hw.finality
  omega

/-- The genesis block stays through an adoption. -/
theorem Adopted.genesis (hs : Settled E s) (ht : s.blocks.getLast? = some tip)
    (hm : MaximalWinner E now s tip first branchTip branch)
    (ha : Adopted E s s' first branchTip branch) :
    (s'.getBlock 0).map (·.timestamp) = (s.getBlock 0).map (·.timestamp) := by
  have hpos := hm.winning.finality
  have hlen := hs.slotted.lastIndex ht
  have hle := hm.fork_le
  rw [ha.getBlock_below (by omega) (by omega)]

theorem Adopted.witnessed (ha : Adopted E s s' first branchTip branch)
    (hw : WinningSequence E now s' (toStorageBlock E branchTip) f l q) :
    ∀ b ∈ q, s.verificationFloor < b.index → blockSignaturesFullyVerified E b = true := by
  intro b hb hlt
  refine hw.gates.witnessed b hb ?_
  unfold verificationFloor at hlt ⊢
  rw [ha.trustedCheckpointHeight]
  exact hlt

/-- A block that a sequence stands on after the adoption is a kept block or one of the branch. -/
theorem Adopted.parent_mem (ha : Adopted E s s' first branchTip branch)
    (hparent : ∃ p, s'.getBlock (f.index - 1) = some p ∧ p.hash = f.previousHash) :
    ∃ p ∈ s.blocks.take first.index ++ branch, p.hash = f.previousHash := by
  obtain ⟨p, hget, hhash⟩ := hparent
  have hp := List.mem_of_getElem? hget
  rw [ha.blocks] at hp
  rcases List.mem_append.mp hp with hp | hp
  · exact ⟨p, List.mem_append_left _ hp, hhash⟩
  · obtain ⟨x, hx, rfl⟩ := List.mem_map.mp hp
    rw [toStorageBlock_hash] at hhash
    exact ⟨x, List.mem_append_right _ hx, hhash⟩

/-- An id of a sequence left in the pool that the registry listed below the fork is still
listed there, so the sequence does not pass the gate after the adoption either. -/
theorem Adopted.listed_ge (hs : Settled E s) (ht : s.blocks.getLast? = some tip)
    (hret : Retained E now s first branchTip branch) (hm : MaximalWinner E now s tip first branchTip branch)
    (ha : Adopted E s s' first branchTip branch)
    (hw : WinningSequence E now s' (toStorageBlock E branchTip) f l q)
    (hvalid : ∀ b ∈ q, validateBlockInternal E now s .allowTruncatedStored b = .ok ()) :
    ∀ b ∈ q, ∀ id ∈ blockIds E b, ∀ h, s.registry.entry id = some h →
      first.index ≤ h ∨ f.index ≤ h := by
  intro b hb id hid h he
  by_contra hno
  push Not at hno
  have hpath : s.PoolBranch f q := ⟨hw.path.head, hw.path.linked, fun c hc => ha.mem_pool (hw.path.pool c hc)⟩
  have hleft : ∀ c ∈ q, c ∉ branch ∧ validateBlockInternal E now s .allowTruncatedStored c = .ok () :=
    fun c hc => ⟨ha.notMem_branch (hw.path.mem hw.firstPool c hc), hvalid c hc⟩
  have hstays := listed_stays hs ht ha hm.winning.gates.noReplay he hno.1 fun c hc hidc =>
    hret f q hpath (ha.mem_pool hw.firstPool) (ha.parent_mem hw.parent) hleft b hb id hid (by simp [he]) c
      (List.take_subset_take_left _ (by omega) hc) hidc
  have := Registry.branchReplaysBelow_eq_false.mp hw.gates.noReplay b hb id hid h hstays
  omega

/-- A winner on the kept blocks was a winner before. -/
theorem winning_transfer_below (hs : Settled E s) (hp : OrphanPool s) (ht : s.blocks.getLast? = some tip)
    (hret : Retained E now s first branchTip branch) (hm : MaximalWinner E now s tip first branchTip branch)
    (ha : Adopted E s s' first branchTip branch)
    (hw : WinningSequence E now s' (toStorageBlock E branchTip) f l q) (hle : f.index ≤ first.index) :
    WinningSequence E now s tip f l q ∧
      rankedLe (rankOf s first branchTip branch) (rankOf s f l q) = false := by
  have hlen := hs.slotted.lastIndex ht
  have hfork := hm.fork_le
  have hq0 := hw.finality
  have hbt := linked_last_index hm.winning.path.linked hm.winning.path.head hm.winning.last
  have hne : 0 < branch.length := List.length_pos_of_mem (List.mem_of_getLast? hm.winning.last)
  have hpool : ∀ c ∈ q, c ∈ s.poolBlocks ∧ c ∈ s'.poolBlocks := fun c hc =>
    ⟨ha.mem_pool (hw.path.mem hw.firstPool c hc), hw.path.mem hw.firstPool c hc⟩
  obtain ⟨p, hget', hhash⟩ := hw.parent
  have hget : s.getBlock (f.index - 1) = some p := by
    rw [← ha.getBlock_below (by omega) (by omega)]
    exact hget'
  have hdrop : s.blocks.drop f.index =
      (s.blocks.take first.index).drop f.index ++ s.blocks.drop first.index := by
    rw [List.drop_take, ← List.take_append_drop (first.index - f.index) (s.blocks.drop f.index),
      List.drop_drop, List.take_left' (by rw [List.length_take, List.length_drop]; omega)]
    congr 2
    omega
  have hdrop' : s'.blocks.drop f.index =
      (s.blocks.take first.index).drop f.index ++ branch.map (toStorageBlock E) := by
    rw [ha.blocks, List.drop_append_of_le_length (by rw [List.length_take]; omega)]
  have hbeats := beats_compose hm.winning.beats hw.beats rfl rfl
    (w := totalWork q) (c := totalWork (s.blocks.drop f.index))
    (by
      rw [hdrop, hdrop', totalWork_append, totalWork_append, totalWork_map_toStorageBlock]
      omega) branch q
  have hvalid := validate_agree hp (ha.orphanPool hp) (ha.genesis hs ht hm) q hw.path.linked hpool hw.index_pos
    (fun g hg => by
      obtain rfl : f = g := by simpa [hw.path.head] using hg
      exact ⟨p, p, getParentBlockFor_canonical (by omega) hget hhash,
        getParentBlockFor_canonical (by omega) hget' hhash, Iff.rfl⟩) hw.gates.valid
  refine ⟨⟨⟨hw.path.head, hw.path.linked, fun b hb => ha.mem_pool (hw.path.pool b hb)⟩,
    ha.mem_pool hw.firstPool, ⟨p, hget, hhash⟩, hw.last, ?_, ⟨hvalid, ha.witnessed hw, ?_, ?_⟩, hbeats.1⟩,
    hbeats.2⟩
  · rw [← ha.trustedCheckpointHeight]
    exact hw.finality
  · have hsolv := hw.gates.solvent
    rw [branchSolvent_eq_replay ha.balances (ha.tip hm.winning.last) (by omega)
      (by rw [toStorageBlock_index]; omega)] at hsolv
    rw [branchSolvent_eq_replay hs.balancesCurrent ht (by omega) (by omega), ← hsolv, ha.blocks,
      List.take_append_of_le_length (by rw [List.length_take]; omega), List.take_take, min_eq_left hle]
  · refine Registry.branchReplaysBelow_eq_false.mpr fun b hb id hid h he => ?_
    rcases ha.listed_ge hs ht hret hm hw hvalid b hb id hid h he with hge | hge
    · exact hle.trans hge
    · exact hge

/-- The stored form of a stretch of a chain replays as the stretch does. -/
theorem replayChain_stored_middle (xs ys zs : List Block) :
    replayChain ((xs ++ ys.map (toStorageBlock E)) ++ zs) = replayChain (xs ++ (ys ++ zs)) := by
  simp only [replayChain, replayBlocks_append, List.append_assoc]
  congr 1
  funext st
  rw [replayBlocks_append, replayBlocks_append, replayBlocks_stored]

/-- A winner above the fork stands on a block of the adopted branch, and not on its tip, which has no child. -/
theorem Adopted.parent_inside (hm : MaximalWinner E now s tip first branchTip branch)
    (ha : Adopted E s s' first branchTip branch) (hfork : first.index ≤ s.blocks.length)
    (hw : WinningSequence E now s' (toStorageBlock E branchTip) f l q) {n : ℕ}
    (hn : f.index = first.index + (n + 1)) :
    ∃ x, branch[n]? = some x ∧ s'.getBlock (f.index - 1) = some (toStorageBlock E x) ∧ BranchLink x f ∧
      n + 1 < branch.length := by
  have htake : (s.blocks.take first.index).length = first.index := by
    rw [List.length_take, min_eq_left hfork]
  obtain ⟨p, hget, hhash⟩ := hw.parent
  have hslot := hget
  rw [getBlock, ha.blocks, hn, List.getElem?_append_right (by rw [htake]; omega), htake,
    show first.index + (n + 1) - 1 - first.index = n by omega, List.getElem?_map,
    Option.map_eq_some_iff] at hslot
  obtain ⟨x, hx, rfl⟩ := hslot
  rw [toStorageBlock_hash] at hhash
  have hxidx := linked_index hm.winning.path.linked hm.winning.path.head n x hx
  have hlink : BranchLink x f := ⟨by omega, hhash.symm⟩
  refine ⟨x, hx, hget, hlink, ?_⟩
  have hnlt : n < branch.length := (List.getElem?_eq_some_iff.mp hx).1
  by_contra hge
  have hlast : branch.getLast? = some x := by
    rw [List.getLast?_eq_getElem?, show branch.length - 1 = n by omega]
    exact hx
  obtain rfl : branchTip = x := by simpa [hm.winning.last] using hlast
  have hchild : f ∈ s.branchChildren branchTip :=
    mem_branchChildren.mpr ⟨ha.mem_pool hw.firstPool, hlink.1, hlink.2⟩
  rw [hm.childless] at hchild
  simp at hchild

/-- The adopted chain up to a block of the branch. -/
theorem Adopted.take_inside (ha : Adopted E s s' first branchTip branch) (hfork : first.index ≤ s.blocks.length)
    (n : ℕ) :
    s'.blocks.take (first.index + n) = s.blocks.take first.index ++ (branch.take n).map (toStorageBlock E) := by
  have htake : (s.blocks.take first.index).length = first.index := by
    rw [List.length_take, min_eq_left hfork]
  rw [ha.blocks, List.take_append, htake, List.take_of_length_le (by rw [htake]; omega),
    Nat.add_sub_cancel_left, List.map_take]

theorem Adopted.work_above (ha : Adopted E s s' first branchTip branch) (hfork : first.index ≤ s.blocks.length)
    (n : ℕ) : totalWork (s'.blocks.drop (first.index + n)) = totalWork (branch.drop n) := by
  have htake : (s.blocks.take first.index).length = first.index := by
    rw [List.length_take, min_eq_left hfork]
  rw [ha.blocks, List.drop_append, htake, List.drop_eq_nil_of_le (by rw [htake]; omega), List.nil_append,
    Nat.add_sub_cancel_left, ← List.map_drop, totalWork_map_toStorageBlock]

/-- A winner on the adopted blocks, with the stretch of them below it, was a winner before. -/
theorem winning_transfer_above (hs : Settled E s) (hp : OrphanPool s) (ht : s.blocks.getLast? = some tip)
    (hret : Retained E now s first branchTip branch) (hm : MaximalWinner E now s tip first branchTip branch)
    (ha : Adopted E s s' first branchTip branch)
    (hw : WinningSequence E now s' (toStorageBlock E branchTip) f l q) (hlt : first.index < f.index) :
    ∃ x, WinningSequence E now s tip first l (x ++ q) ∧
      rankedLe (rankOf s first branchTip branch) (rankOf s first l (x ++ q)) = false := by
  obtain ⟨n, hn⟩ : ∃ n, f.index = first.index + (n + 1) := ⟨f.index - first.index - 1, by omega⟩
  have hlen := hs.slotted.lastIndex ht
  have hfork := hm.fork_le
  have hbt := linked_last_index hm.winning.path.linked hm.winning.path.head hm.winning.last
  have hmem := hm.winning.path.mem hm.winning.firstPool
  have hqpool : ∀ c ∈ q, c ∈ s.poolBlocks ∧ c ∈ s'.poolBlocks := fun c hc =>
    ⟨ha.mem_pool (hw.path.mem hw.firstPool c hc), hw.path.mem hw.firstPool c hc⟩
  obtain ⟨x, hx, hget, hlink, hninner⟩ := ha.parent_inside hm (by omega) hw hn
  have hxmem : x ∈ branch := List.mem_of_getElem? hx
  set below := branch.take (n + 1) with hbelow
  have hbelow_mem : ∀ b ∈ below, b ∈ branch := fun b hb => List.mem_of_mem_take hb
  have hbelow_last : below.getLast? = some x := by
    rw [hbelow, List.getLast?_take]
    simp [hx]
  have hbelow_head : below.head? = some first := by
    rw [hbelow, List.head?_take, if_neg (by omega)]
    exact hm.winning.path.head
  have hsplit : totalWork branch = totalWork below + totalWork (branch.drop (n + 1)) := by
    rw [← totalWork_append, List.take_append_drop]
  have hdrop : totalWork (s'.blocks.drop f.index) = totalWork (branch.drop (n + 1)) := by
    rw [hn, ha.work_above (by omega)]
  have hbeats := beats_compose hm.winning.beats hw.beats rfl rfl
    (w := totalWork (below ++ q)) (c := totalWork (s.blocks.drop first.index))
    (by
      rw [hdrop, hsplit, totalWork_append]
      omega) branch (below ++ q)
  have hqne : q ≠ [] := by
    rintro rfl
    simpa using hw.last
  have hvalid := validate_agree hp (ha.orphanPool hp) (ha.genesis hs ht hm) q hw.path.linked hqpool hw.index_pos
    (fun g hg => by
      obtain rfl : f = g := by simpa [hw.path.head] using hg
      exact ⟨x, toStorageBlock E x, hp.parent (hmem x hxmem) hlink,
        getParentBlockFor_canonical (by omega) hget hlink.2.symm, parentOf_toStorageBlock⟩) hw.gates.valid
  refine ⟨below, ⟨⟨?_, ?_, fun b hb => ?_⟩, hm.winning.firstPool, hm.winning.parent, ?_,
    hm.winning.finality, ⟨?_, ?_, ?_, ?_⟩, hbeats.1⟩, hbeats.2⟩
  · rw [List.head?_append, hbelow_head]
    rfl
  · refine List.isChain_append.mpr ⟨hm.winning.path.linked.take _, hw.path.linked, ?_⟩
    intro a haux c hc
    obtain rfl : x = a := by simpa [hbelow_last] using haux
    obtain rfl : f = c := by simpa [hw.path.head] using hc
    exact hlink
  · rcases List.mem_append.mp (List.mem_of_mem_tail hb) with hb | hb
    · exact hmem b (hbelow_mem b hb)
    · exact (hqpool b hb).1
  · rw [List.getLast?_append_of_ne_nil _ hqne]
    exact hw.last
  · intro b hb
    rcases List.mem_append.mp hb with hb | hb
    · exact hm.winning.gates.valid b (hbelow_mem b hb)
    · exact hvalid b hb
  · intro b hb
    rcases List.mem_append.mp hb with hb | hb
    · exact hm.winning.gates.witnessed b (hbelow_mem b hb)
    · exact ha.witnessed hw b hb
  · have hsolv := hw.gates.solvent
    have htake : s'.blocks.take f.index = s.blocks.take first.index ++ below.map (toStorageBlock E) := by
      rw [hn, ha.take_inside (by omega)]
    rw [branchSolvent_eq_replay ha.balances (ha.tip hm.winning.last) (by omega)
      (by rw [toStorageBlock_index]; omega), htake, replayChain_stored_middle] at hsolv
    have hpos := hm.winning.finality
    rw [branchSolvent_eq_replay hs.balancesCurrent ht (by omega) hfork]
    exact hsolv
  · refine Registry.branchReplaysBelow_eq_false.mpr fun b hb id hid h he => ?_
    rcases List.mem_append.mp hb with hb | hb
    · exact Registry.branchReplaysBelow_eq_false.mp hm.winning.gates.noReplay b (hbelow_mem b hb) id hid h he
    · rcases ha.listed_ge hs ht hret hm hw hvalid b hb id hid h he with hge | hge
      · exact hge
      · omega

/-- **A winner that is left was a better winner before**: whatever beats the new tip, with the
adopted blocks it stands on, beat the old tip and ranked above the adopted branch. -/
theorem winning_transfer (hs : Settled E s) (hp : OrphanPool s) (ht : s.blocks.getLast? = some tip)
    (hret : Retained E now s first branchTip branch) (hm : MaximalWinner E now s tip first branchTip branch)
    (ha : Adopted E s s' first branchTip branch)
    (hw : WinningSequence E now s' (toStorageBlock E branchTip) f l q) :
    ∃ f' q', WinningSequence E now s tip f' l q' ∧
      rankedLe (rankOf s first branchTip branch) (rankOf s f' l q') = false := by
  rcases Nat.lt_or_ge first.index f.index with hlt | hle
  · obtain ⟨x, hx⟩ := winning_transfer_above hs hp ht hret hm ha hw hlt
    exact ⟨first, x ++ q, hx⟩
  · exact ⟨f, q, winning_transfer_below hs hp ht hret hm ha hw hle⟩

end Transfer

/-! ### The best valid branch -/

/-- Every winning sequence is matched by a maximal one that ranks at least as high, and the
adoption of a best one prunes no registry entry that the pool could confirm again. -/
structure SearchSound (E : Env) (now : ℕ) (s : ChainState) (tip : Block) : Prop where
  matched : ∀ f l q, WinningSequence E now s tip f l q →
    ∃ f' l' q', MaximalWinner E now s tip f' l' q' ∧ rankedLe (rankOf s f' l' q') (rankOf s f l q) = true
  retained : ∀ f l q, BestWinner E now s tip f l q → Retained E now s f l q

/-- What fork choice is for: if a winning sequence exists a branch is adopted, and no
sequence that beats the new tip is left. -/
def FindsTheBest (E : Env) (now : ℕ) (s : ChainState) (tip : Block) : Prop :=
  (∃ f l q, WinningSequence E now s tip f l q) →
    ∃ s' tip', tryAdoptOrphanBranch E now s = (s', .ok true) ∧ s'.blocks.getLast? = some tip' ∧
      ∀ f l q, ¬ WinningSequence E now s' tip' f l q

/-- **Fork choice finds the best valid branch**, for a settled node within the search budgets
and without a backoff. It adopts a branch exactly if some maximal sequence wins; and if the
search is sound it does all that fork choice is for. -/
theorem try_adopt_finds_the_best (now : ℕ) {s : ChainState} {tip : Block} (hs : Settled E s)
    (hp : OrphanPool s) (ht : s.blocks.getLast? = some tip) (hb : WithinBudget s tip)
    (hback : BackoffOnly now s []) :
    ((tryAdoptOrphanBranch E now s).2 = .ok true ↔
        ∃ f l q, MaximalWinner E now s tip f l q) ∧
      (SearchSound E now s tip → FindsTheBest E now s tip) := by
  have hbest := tryAdopt_best hs hp ht hb hback
  constructor
  · rcases hbest with ⟨hfalse, hnone⟩ | ⟨w, s', f, l, q, hm, -, htry⟩
    · rw [hfalse]
      constructor
      · intro h
        simp at h
      · rintro ⟨f, l, q, hm⟩
        exact absurd hm (hnone f l q)
    · rw [htry]
      exact ⟨fun _ => ⟨f, l, q, hm.maximal⟩, fun _ => rfl⟩
  · rintro hsound ⟨f, l, q, hw⟩
    obtain ⟨f₁, l₁, q₁, hm₁, -⟩ := hsound.matched f l q hw
    rcases hbest with ⟨-, hnone⟩ | ⟨w, s', first, branchTip, branch, hbestOne, hadopt, htry⟩
    · exact absurd hm₁ (hnone f₁ l₁ q₁)
    · have hm := hbestOne.maximal
      have hforks := (hm.winning.contender hs.slotted hp ht hm.fork_le).forksOff ht
      have hmemo := adopted_of_adopt (hs.withMemo w) (hforks.withMemo w) hadopt
      have ha : Adopted E s s' first branchTip branch :=
        ⟨hmemo.blocks, hmemo.registry, hmemo.checkpoint, hmemo.orphans, hmemo.gone, hmemo.balances⟩
      refine ⟨s', toStorageBlock E branchTip, htry, ha.tip hm.winning.last, fun f' l' q' hleft => ?_⟩
      obtain ⟨f₂, q₂, hw₂, hbetter⟩ := winning_transfer hs hp ht (hsound.retained _ _ _ hbestOne) hm ha hleft
      obtain ⟨f₃, l₃, q₃, hm₃, hle₃⟩ := hsound.matched f₂ l' q₂ hw₂
      have htrans : rankedLe (rankOf s first branchTip branch) (rankOf s f₂ l' q₂) = true :=
        IsTrans.trans (r := fun a b : RankedBranch => rankedLe a b = true) _ _ _ (hbestOne.best f₃ l₃ q₃ hm₃) hle₃
      rw [htrans] at hbetter
      cases hbetter

/-! ### The small fork, with and without an invalid child -/

/-- Heights bound the length of a branch. -/
theorem poolBranch_length_le {s : ChainState} {first : Block} {branch : List Block} {height : ℕ}
    (h : s.PoolBranch first branch) (hfirst : first ∈ s.poolBlocks)
    (hheight : ∀ c ∈ s.poolBlocks, c.index ≤ height) : branch.length ≤ height + 1 := by
  cases hl : branch.getLast? with
  | none =>
    rw [List.getLast?_eq_none_iff.mp hl]
    exact Nat.zero_le _
  | some last =>
    have hidx := linked_last_index h.linked h.head hl
    have hle := hheight last (h.mem hfirst last (List.mem_of_getLast? hl))
    omega

namespace Toy

/-- A child of the branch tip that spends what its sender never had. -/
def over4 : Block :=
  toyBlock (c3 []) 5 alice [toyTransfer [3] bob 1000000000000 (genesisLaunchTimestamp + 15)]

/-- In every pool that holds both blocks, the same facts make `[c2, c3]` a winning sequence. -/
theorem winning_fork {pool : List Block}
    (hfacts : (c2 ∈ (fork pool).poolBlocks ∧ c3 [] ∈ (fork pool).poolBlocks) ∧ [c2, c3 []].IsChain BranchLink ∧
      ((fork pool).getBlock (c2.index - 1) = some b1 ∧ b1.hash = c2.previousHash) ∧
      (fork pool).trustedCheckpointHeight < c2.index ∧
      (∀ b ∈ [c2, c3 []], validateBlockInternal toyEnv now (fork pool) .allowTruncatedStored b = .ok ()) ∧
      (∀ b ∈ [c2, c3 []], (fork pool).verificationFloor < b.index → blockSignaturesFullyVerified toyEnv b = true) ∧
      (fork pool).branchSolvent toyEnv c2.index b2.index [c2, c3 []] = .ok true ∧
      (fork pool).registry.branchReplaysBelow toyEnv c2.index [c2, c3 []] = false ∧
      beatsCanonical b2 (c3 []) (totalWork [c2, c3 []]) (totalWork ((fork pool).blocks.drop c2.index)) = true) :
    WinningSequence toyEnv now (fork pool) b2 c2 (c3 []) [c2, c3 []] := by
  obtain ⟨⟨hc2, hc3⟩, hlinked, hparent, hfinal, hvalid, hwitnessed, hsolvent, hreplay, hbeats⟩ := hfacts
  exact
    { path := ⟨rfl, hlinked, by simpa using hc3⟩
      firstPool := hc2
      parent := ⟨b1, hparent⟩
      last := rfl
      finality := hfinal
      gates := ⟨hvalid, hwitnessed, hsolvent, hreplay⟩
      beats := hbeats }

theorem winning_honest : WinningSequence toyEnv now (fork [c2, c3 []]) b2 c2 (c3 []) [c2, c3 []] :=
  winning_fork (by decide +kernel)

theorem maximal_honest : MaximalWinner toyEnv now (fork [c2, c3 []]) b2 c2 (c3 []) [c2, c3 []] :=
  ⟨winning_honest, by decide +kernel, by decide +kernel⟩

/-- The only sequences of the honest pool on a canonical parent. -/
theorem sequences_honest {f : Block} {q : List Block} (h : (fork [c2, c3 []]).PoolBranch f q)
    (hf : f ∈ (fork [c2, c3 []]).poolBlocks)
    (hparent : ∃ p, (fork [c2, c3 []]).getBlock (f.index - 1) = some p ∧ p.hash = f.previousHash) :
    f = c2 ∧ (q = [c2] ∨ q = [c2, c3 []]) := by
  have hpool : ∀ c ∈ (fork [c2, c3 []]).poolBlocks, c = c2 ∨ c = c3 [] := by
    intro c hc
    simpa [fork, holding, poolBlocks] using hc
  have hfc : f = c2 := by
    rcases hpool f hf with rfl | rfl
    · rfl
    · obtain ⟨p, hp, hhash⟩ := hparent
      obtain rfl : b2 = p := by
        rw [show (fork [c2, c3 []]).getBlock ((c3 []).index - 1) = some b2 by decide +kernel] at hp
        exact Option.some.inj hp
      exact absurd hhash (by decide +kernel)
  subst hfc
  refine ⟨rfl, ?_⟩
  have hidx := linked_index h.linked h.head
  have hmem := h.mem hf
  -- the height of each block of the sequence says which one it is
  have hone : ∀ i b, q[i]? = some b → (i = 0 ∧ b = c2) ∨ (i = 1 ∧ b = c3 []) := by
    intro i b hb
    have hi := hidx i b hb
    rcases hpool b (hmem b (List.mem_of_getElem? hb)) with rfl | rfl
    · exact .inl ⟨by omega, rfl⟩
    · refine .inr ⟨?_, rfl⟩
      rw [show (c3 []).index = 3 by decide +kernel, show c2.index = 2 by decide +kernel] at hi
      omega
  have hhead := h.head
  rcases q with _ | ⟨a, _ | ⟨b, _ | ⟨c, rest⟩⟩⟩
  · simp at hhead
  · exact .inl (by simpa using hhead)
  · rcases hone 1 b rfl with ⟨hi, -⟩ | ⟨-, rfl⟩
    · omega
    · exact .inr (by simpa using hhead)
  · rcases hone 2 c rfl with ⟨hi, -⟩ | ⟨hi, -⟩ <;> omega

theorem withinBudget_fork {pool : List Block}
    (hcounts : (∀ c ∈ (fork pool).reorgCandidates b2,
        (Paths.allPaths (fork pool).branchChildren (orphanReorgDepth - 1) c).length < orphanBranchSearchLimit) ∧
      (((fork pool).reorgCandidates b2).flatMap
        (Paths.allPaths (fork pool).branchChildren (orphanReorgDepth - 1))).length < maxReorgBranchesEvaluated ∧
      (∀ c ∈ (fork pool).poolBlocks, c.index ≤ 4) ∧
      ((fork pool).rankedBranches b2).length ≤ maxReorgAdoptAttempts) :
    WithinBudget (fork pool) b2 := by
  obtain ⟨hpaths, htotal, hheight, hranked⟩ := hcounts
  refine ⟨hpaths, htotal, fun c hc branch h => ?_, hranked⟩
  have hlen := poolBranch_length_le h hc hheight
  unfold orphanReorgDepth
  omega

theorem searchSound_honest : SearchSound toyEnv now (fork [c2, c3 []]) b2 where
  matched f l q hw := by
    obtain ⟨rfl, rfl | rfl⟩ := sequences_honest hw.path hw.firstPool hw.parent
    · obtain rfl : c2 = l := by simpa using hw.last
      exact ⟨c2, c3 [], _, maximal_honest, by decide +kernel⟩
    · obtain rfl : c3 [] = l := by simpa using hw.last
      exact ⟨c2, c3 [], _, maximal_honest, by decide +kernel⟩
  retained f l q h := by
    have hw := h.maximal.winning
    obtain ⟨rfl, rfl | rfl⟩ := sequences_honest hw.path hw.firstPool hw.parent
    · exact absurd h.maximal.childless (by rw [show l = c2 by simpa using hw.last.symm]; decide +kernel)
    · obtain rfl : c3 [] = l := by simpa using hw.last
      intro f q hpath hf _ hleft c hc
      have hall : ∀ d ∈ (fork [c2, c3 []]).poolBlocks, d ∈ [c2, c3 []] := by decide +kernel
      exact absurd (hall c (hpath.mem hf c hc)) (hleft c hc).1

end Toy

theorem honest_branch_is_found :
    (tryAdoptOrphanBranch toyEnv Toy.now (Toy.fork [Toy.c2, Toy.c3 []])).2 = .ok true ∧
      FindsTheBest toyEnv Toy.now (Toy.fork [Toy.c2, Toy.c3 []]) Toy.b2 := by
  have h := try_adopt_finds_the_best (E := toyEnv) Toy.now (Toy.settled_fork [Toy.c2, Toy.c3 []])
    ⟨by decide +kernel, by decide +kernel⟩ (show _ = some Toy.b2 by decide +kernel)
    (Toy.withinBudget_fork (by decide +kernel))
    (by simp [BackoffOnly, Toy.fork, holding])
  exact ⟨h.1.mpr ⟨Toy.c2, Toy.c3 [], _, Toy.maximal_honest⟩, h.2 Toy.searchSound_honest⟩

/-- With an insolvent child on it in the pool, the honest branch is not adopted. -/
theorem invalid_child_hides_winner :
    Settled toyEnv (Toy.fork [Toy.c2, Toy.c3 [], Toy.over4]) ∧
      OrphanPool (Toy.fork [Toy.c2, Toy.c3 [], Toy.over4]) ∧
      WithinBudget (Toy.fork [Toy.c2, Toy.c3 [], Toy.over4]) Toy.b2 ∧
      BackoffOnly Toy.now (Toy.fork [Toy.c2, Toy.c3 [], Toy.over4]) [] ∧
      prevalidateUnattachedBlock toyEnv Toy.now .requireFull Toy.over4 = .ok () ∧
      WinningSequence toyEnv Toy.now (Toy.fork [Toy.c2, Toy.c3 [], Toy.over4]) Toy.b2 Toy.c2 (Toy.c3 [])
        [Toy.c2, Toy.c3 []] ∧
      (tryAdoptOrphanBranch toyEnv Toy.now (Toy.fork [Toy.c2, Toy.c3 [], Toy.over4])).2 = .ok false := by
  refine ⟨Toy.settled_fork _, ⟨by decide +kernel, by decide +kernel⟩, ?_, ?_, ?_, ?_, ?_⟩
  · exact Toy.withinBudget_fork (by decide +kernel)
  · simp [BackoffOnly, Toy.fork, holding]
  · decide +kernel
  · exact Toy.winning_fork (by decide +kernel)
  · decide +kernel

end Alphanumeric
