/-
# The convergence verdict and the engine's ranking

The convergence path asks `external_branch_wins_fork_choice` whether a branch it
fetched is worth adopting; the engine asks the same of the branches it finds in the
orphan pool, with a search and a memo of the canonical work. Over a pool that holds
one branch and nothing else the search cannot split, so it returns that branch, and
the two verdicts are one comparison of work. The search goes `ORPHAN_REORG_DEPTH`
blocks deep and no further: a longer branch is never ranked as a whole.

Key definitions: `Rival`.
Key theorems: `collect_single`, `Rival.mem_enumerated`, `verdict_agrees_with_ranking`.
-/
import Alphanumeric.ForkChoice

namespace Alphanumeric

open BlockchainError

namespace ChainState

/-- A branch on top of canonical block `ancestor`, above the checkpoint, that differs from the
canonical block a height up and is all the orphan pool holds. -/
structure Rival (s : ChainState) (tip : Block) (ancestor : ℕ) (branch : List Block) : Prop where
  slotted : Slotted s.blocks
  tip : s.getLastBlock = some tip
  aboveCheckpoint : s.trustedCheckpointHeight ≤ ancestor
  linked : branch.IsChain BranchLink
  onTop : ∃ first base, branch.head? = some first ∧ s.getBlock ancestor = some base ∧
    first.index = ancestor + 1 ∧ first.previousHash = base.hash
  differs : ∀ first ∈ branch.head?, ∃ existing, s.getBlock (ancestor + 1) = some existing ∧
    existing.hash ≠ first.hash
  pool : s.poolBlocks.Perm branch

variable {s : ChainState} {tip : Block} {ancestor : ℕ} {branch : List Block}

/-! ### One branch, one path -/

/-- The heights of a linked branch are all different. -/
theorem linked_pairwise_index (h : branch.IsChain BranchLink) :
    branch.Pairwise fun a b => a.index ≠ b.index := by
  cases hf : branch.head? with
  | none =>
    rw [List.head?_eq_none_iff.mp hf]
    exact .nil
  | some first =>
    rw [List.pairwise_iff_getElem]
    intro i j hi hj hij
    have h₁ := linked_index h hf i _ (List.getElem?_eq_getElem hi)
    have h₂ := linked_index h hf j _ (List.getElem?_eq_getElem hj)
    omega

theorem length_branchChildren_le_one (hlinked : branch.IsChain BranchLink)
    (hpool : s.poolBlocks.Perm branch) (b : Block) : (s.branchChildren b).length ≤ 1 := by
  have hdistinct : (s.branchChildren b).Pairwise fun a b => a.index ≠ b.index := by
    have hpoolDistinct := hpool.symm.pairwise (linked_pairwise_index hlinked) fun h => h.symm
    have hnamed := hpoolDistinct.filter fun c => decide (c.previousHash = b.hash)
    have hsorted := (List.perm_insertionSort (fun a b => childLe a b = true) _).symm.pairwise hnamed
      fun h => h.symm
    exact hsorted.filter _
  -- All children are one height up, so two of them would share it.
  match hchildren : s.branchChildren b with
  | [] => simp
  | [_] => simp
  | c :: d :: rest =>
    have hc := mem_branchChildren.mp (hchildren ▸ List.mem_cons_self : c ∈ s.branchChildren b)
    have hd := mem_branchChildren.mp (by simp [hchildren] : d ∈ s.branchChildren b)
    rw [hchildren, List.pairwise_cons] at hdistinct
    exact absurd (hc.2.1.trans hd.2.1.symm) (hdistinct.1 d (by simp))

theorem collect_single (hlinked : branch.IsChain BranchLink) (hpool : s.poolBlocks.Perm branch)
    (b : Block) :
    s.collectOrphanBranchesFrom b orphanReorgDepth orphanBranchSearchLimit =
      Paths.allPaths s.branchChildren (orphanReorgDepth - 1) b :=
  Paths.enumerate_single (length_branchChildren_le_one hlinked hpool) (by decide) (by decide) b

/-- No enumerated branch is longer than the search is deep. -/
theorem length_enumerated_le (hlinked : branch.IsChain BranchLink) (hpool : s.poolBlocks.Perm branch)
    {candidates : List Block} {path : List Block} (h : path ∈ s.enumeratedBranches candidates) :
    path.length ≤ orphanReorgDepth := by
  obtain ⟨c, -, hc⟩ := List.mem_flatMap.mp (List.mem_of_mem_take h)
  rw [collect_single hlinked hpool] at hc
  exact Paths.length_le_of_mem_allPaths _ hc

/-! ### The search finds a short branch -/

theorem Rival.tipIndex (h : s.Rival tip ancestor branch) : tip.index + 1 = s.blocks.length :=
  h.slotted.lastIndex h.tip

theorem Rival.candidate (h : s.Rival tip ancestor branch) {first : Block}
    (hf : branch.head? = some first) : first ∈ s.reorgCandidates tip := by
  obtain ⟨first', base, hf', hbase, hindex, hprev⟩ := h.onTop
  obtain rfl : first' = first := by simpa [hf] using hf'.symm
  obtain ⟨existing, hexisting, hne⟩ := h.differs first' hf
  have hle : first'.index ≤ tip.index := by
    have := h.tipIndex
    have hlt : ancestor + 1 < s.blocks.length := (List.getElem?_eq_some_iff.mp hexisting).1
    omega
  refine mem_reorgCandidates.mpr ⟨h.pool.mem_iff.mpr (List.mem_of_mem_head? hf), ?_⟩
  unfold isReorgCandidate
  rw [hindex] at hle ⊢
  simp [hle, hbase, hexisting, hne, hprev]

theorem chain_of_linked (hpool : s.poolBlocks.Perm branch) (hlinked : branch.IsChain BranchLink) :
    branch.IsChain fun x y => y ∈ s.branchChildren x := by
  have hmem : ∀ path : List Block, (∀ b ∈ path, b ∈ s.poolBlocks) → path.IsChain BranchLink →
      path.IsChain fun x y => y ∈ s.branchChildren x := by
    intro path hpath hchain
    induction path with
    | nil => exact .nil
    | cons a rest ih =>
      cases rest with
      | nil => exact .singleton a
      | cons b rest =>
        rw [List.isChain_cons_cons] at hchain ⊢
        have hb := hpath b (by simp)
        exact ⟨mem_branchChildren.mpr ⟨hb, hchain.1⟩,
          ih (fun x hx => hpath x (List.mem_cons_of_mem _ hx)) hchain.2⟩
  exact hmem branch (fun b hb => hpool.mem_iff.mpr hb) hlinked

/-- Nothing in the pool continues the branch. -/
theorem children_last (hpool : s.poolBlocks.Perm branch) (hlinked : branch.IsChain BranchLink)
    {first last : Block} (hf : branch.head? = some first) (hl : branch.getLast? = some last) :
    s.branchChildren last = [] := by
  apply List.eq_nil_iff_forall_not_mem.mpr
  intro c hc
  obtain ⟨hmem, hindex, -⟩ := mem_branchChildren.mp hc
  obtain ⟨i, hi, rfl⟩ := List.getElem_of_mem (hpool.mem_iff.mp hmem)
  have hc := linked_index hlinked hf i _ (List.getElem?_eq_getElem hi)
  have hlast := linked_last_index hlinked hf hl
  omega

theorem Rival.mem_enumerated (h : s.Rival tip ancestor branch) (hshort : branch.length ≤ orphanReorgDepth) :
    branch ∈ s.enumeratedBranches (s.reorgCandidates tip) := by
  obtain ⟨first, base, hf, hbase, hindex, hprev⟩ := h.onTop
  obtain ⟨last, hl⟩ : ∃ last, branch.getLast? = some last := by
    cases branch with
    | nil => simp at hf
    | cons a rest => exact ⟨_, List.getLast?_cons⟩
  set above := (s.reorgCandidates tip).filter fun c => s.trustedCheckpointHeight < c.index with habove
  have hone : ∀ c ∈ above,
      (s.collectOrphanBranchesFrom c orphanReorgDepth orphanBranchSearchLimit).length = 1 := by
    intro c _
    rw [collect_single h.linked h.pool]
    exact Paths.length_allPaths_single (length_branchChildren_le_one h.linked h.pool) _ _
  -- One path a candidate, and no more candidates than blocks: the budget is not reached.
  have hbudget : (above.flatMap fun c =>
      s.collectOrphanBranchesFrom c orphanReorgDepth orphanBranchSearchLimit).length ≤
      maxReorgBranchesEvaluated := by
    have hcount : above.length ≤ branch.length := by
      calc above.length ≤ (s.reorgCandidates tip).length := List.length_filter_le _ _
        _ ≤ s.poolBlocks.length := by
            unfold reorgCandidates
            rw [List.length_insertionSort]
            exact List.length_filter_le _ _
        _ = branch.length := h.pool.length_eq
    rw [List.length_flatMap, List.map_congr_left hone, List.map_const', List.sum_replicate]
    have : orphanReorgDepth ≤ maxReorgBranchesEvaluated := by decide
    simp only [smul_eq_mul, mul_one]
    omega
  unfold enumeratedBranches
  rw [List.take_of_length_le hbudget]
  refine List.mem_flatMap.mpr ⟨first, List.mem_filter.mpr ⟨h.candidate hf, ?_⟩, ?_⟩
  · have := h.aboveCheckpoint
    simp only [decide_eq_true_eq]
    omega
  · rw [collect_single h.linked h.pool]
    refine Paths.mem_allPaths _ hf (chain_of_linked h.pool h.linked) hl
      (children_last h.pool h.linked hf hl) ?_
    have : 0 < orphanReorgDepth := by decide
    omega

/-! ### The two verdicts -/

/-- Both verdicts are the comparison of the branch's work with the suffix it replaces. -/
theorem Rival.wins_iff_beats (h : s.Rival tip ancestor branch) {first last : Block}
    (hf : branch.head? = some first) (hl : branch.getLast? = some last) :
    s.externalBranchWinsForkChoice branch ancestor tip.index =
      beatsCanonical tip last (totalWork branch) (totalWork (s.blocks.drop (ancestor + 1))) := by
  have htip := h.tipIndex
  have hrange : s.canonicalWorkRange (ancestor + 1) tip.index =
      .ok (totalWork (s.blocks.drop (ancestor + 1))) := by
    obtain ⟨existing, hexisting, -⟩ := h.differs first hf
    have hlt : ancestor + 1 < s.blocks.length := (List.getElem?_eq_some_iff.mp hexisting).1
    unfold canonicalWorkRange
    rw [if_neg (by omega), if_pos (by omega), htip, List.take_length]
  have hlast : s.getBlock tip.index = some tip := by
    have hget := h.tip
    unfold getLastBlock at hget
    rw [List.getLast?_eq_getElem?, ← htip] at hget
    exact hget
  unfold externalBranchWinsForkChoice beatsCanonical
  rw [hl]
  simp only [hrange, branchWorkToHeight_last h.linked hf hl, hlast, Option.any_some]
  by_cases hlt : totalWork (s.blocks.drop (ancestor + 1)) < totalWork branch
  · simp [hlt]
  · by_cases heq : totalWork branch = totalWork (s.blocks.drop (ancestor + 1))
    · simp [heq]
    · simp [hlt, heq]

theorem Rival.ranked_iff_beats (h : s.Rival tip ancestor branch)
    (hshort : branch.length ≤ orphanReorgDepth) {first last : Block}
    (hf : branch.head? = some first) (hl : branch.getLast? = some last) :
    (∃ r ∈ s.rankedBranches tip, r.branch = branch) ↔
      beatsCanonical tip last (totalWork branch) (totalWork (s.blocks.drop (ancestor + 1))) = true := by
  obtain ⟨first', base, hf', hbase, hindex, hprev⟩ := h.onTop
  obtain rfl : first' = first := by simpa [hf] using hf'.symm
  constructor
  · rintro ⟨r, hr, rfl⟩
    obtain ⟨start, branchTip, hcontender, -⟩ := contender_of_mem_ranked h.tipIndex hr
    have hstart : start = first' := by simpa [hf] using hcontender.path.head.symm
    have hlast : branchTip = last := by simpa [hl] using hcontender.last.symm
    rw [hstart, hlast] at hcontender
    have := hcontender.beats
    rwa [hindex] at this
  · intro hbeats
    have hcandidate := mem_reorgCandidates.mp (h.candidate hf)
    have hcontender : s.Contender tip first' last branch :=
      { path := ⟨hf, h.linked, fun b hb => h.pool.mem_iff.mpr (List.mem_of_mem_tail hb)⟩
        firstPool := hcandidate.1
        candidate := hcandidate.2
        last := hl
        aboveCheckpoint := by
          have := h.aboveCheckpoint
          omega
        beats := by rwa [hindex] }
    exact ⟨_, mem_ranked_of_enumerated h.tipIndex hcontender (h.mem_enumerated hshort), rfl⟩

theorem length_ranked_le (hlinked : branch.IsChain BranchLink) (hpool : s.poolBlocks.Perm branch)
    {r : RankedBranch} (h : r ∈ s.rankedBranches tip) : r.branch.length ≤ orphanReorgDepth := by
  simp only [rankedBranches, List.mem_insertionSort, List.mem_filterMap] at h
  obtain ⟨path, hpath, hrank⟩ := h
  obtain ⟨-, -, -, -, -, rfl⟩ := rankBranch_eq_some hrank
  exact length_enumerated_le hlinked hpool hpath

/-- **One fork choice.** A branch of at most `ORPHAN_REORG_DEPTH` blocks wins the convergence
path's verdict exactly when the engine, finding it in the pool, ranks it; a longer one is never
ranked as a whole. -/
theorem verdict_agrees_with_ranking (h : s.Rival tip ancestor branch) :
    (branch.length ≤ orphanReorgDepth →
      (s.externalBranchWinsForkChoice branch ancestor tip.index = true ↔
        ∃ r ∈ s.rankedBranches tip, r.branch = branch)) ∧
    (orphanReorgDepth < branch.length → ∀ r ∈ s.rankedBranches tip, r.branch ≠ branch) := by
  obtain ⟨first, base, hf, -, -, -⟩ := h.onTop
  obtain ⟨last, hl⟩ : ∃ last, branch.getLast? = some last := by
    cases branch with
    | nil => simp at hf
    | cons a rest => exact ⟨_, List.getLast?_cons⟩
  refine ⟨fun hshort => ?_, fun hlong r hr heq => ?_⟩
  · rw [h.wins_iff_beats hf hl, h.ranked_iff_beats hshort hf hl]
  · have := length_ranked_le h.linked h.pool hr
    rw [heq] at this
    omega

/-! ### Two races

A canonical run of `n` blocks and a rival run of `m` that leaves it at height 1, all of the same
difficulty, so that the longer run has more work. -/

namespace Race

instance : NeZero (2 ^ 256) := ⟨by decide⟩

def digest (n : ℕ) : Hash := Fin.ofNat (2 ^ 256) n

def mined (index : ℕ) (previousHash hash : Hash) : Block :=
  { index, previousHash, timestamp := index, transactions := [], nonce := 0
    difficulty := networkMinDifficulty, hash, merkleRoot := zeroHash }

def slot (i : ℕ) : Block := mined i (digest (i - 1)) (digest i)

def rival (i : ℕ) : Block :=
  mined (i + 2) (if i = 0 then digest 1 else digest (5000 + (i - 1))) (digest (5000 + i))

def rivals (m : ℕ) : List Block := (List.range m).map rival

def race (n m : ℕ) : ChainState :=
  { blocks := (List.range n).map slot, orphans := (rivals m).map fun b => ⟨b, 0⟩, registry := ⟨fun _ => none, []⟩
    balances := fun _ => 0, balancesHeight := some (n - 1), trustedCheckpoint := none, witnessBlocked := []
    dirty := false, lastVerification := 0 }

theorem digest_inj {i j : ℕ} (hi : i < 10000) (hj : j < 10000) : digest i = digest j ↔ i = j := by
  have hlt : (10000 : ℕ) < 2 ^ 256 := by norm_num
  rw [digest, digest, Fin.ext_iff, Fin.val_ofNat, Fin.val_ofNat, Nat.mod_eq_of_lt (hi.trans hlt),
    Nat.mod_eq_of_lt (hj.trans hlt)]

theorem poolBlocks_race (n m : ℕ) : (race n m).poolBlocks = rivals m := by
  simp [poolBlocks, race, Function.comp_def]

theorem getBlock_race {n m i : ℕ} (h : i < n) : (race n m).getBlock i = some (slot i) := by
  simp [getBlock, race, h]

theorem linked_rivals (m : ℕ) : (rivals m).IsChain BranchLink := by
  rw [List.isChain_iff_getElem]
  intro i hi
  simp [rivals, rival, mined, BranchLink]

theorem rival_race {n m : ℕ} (hn : 3 ≤ n) (hm : 1 ≤ m) :
    (race n m).Rival (slot (n - 1)) 1 (rivals m) := by
  have hhead : (rivals m).head? = some (rival 0) := by
    obtain ⟨k, rfl⟩ : ∃ k, m = k + 1 := ⟨m - 1, by omega⟩
    simp [rivals, List.range_succ_eq_map]
  refine ⟨?_, ?_, Nat.zero_le _, linked_rivals m, ?_, ?_, by rw [poolBlocks_race]⟩
  · intro i b hb
    obtain ⟨hi, rfl⟩ := List.getElem?_eq_some_iff.mp hb
    simp [race, slot, mined]
  · obtain ⟨k, rfl⟩ : ∃ k, n = k + 1 := ⟨n - 1, by omega⟩
    simp [getLastBlock, race, List.range_succ]
  · exact ⟨rival 0, slot 1, hhead, getBlock_race (by omega), rfl, rfl⟩
  · intro first hfirst
    obtain rfl : rival 0 = first := by simpa [hhead] using hfirst
    refine ⟨slot 2, getBlock_race (by omega), fun heq => ?_⟩
    have := (digest_inj (by omega) (by omega)).mp heq
    omega

/-! Every block carries the same work. -/

theorem totalWork_const {w : ℕ} : ∀ {bs : List Block}, (∀ b ∈ bs, blockWork b = w) →
    totalWork bs = bs.length * w
  | [], _ => by simp [totalWork]
  | b :: bs, h => by
    have ih := totalWork_const fun x hx => h x (List.mem_cons_of_mem b hx)
    simp only [totalWork, List.map_cons, List.sum_cons, List.length_cons] at ih ⊢
    rw [ih, h b (by simp)]
    ring

def unit : ℕ := workUnitsForDifficulty networkMinDifficulty

theorem work_rivals {path : List Block} {m : ℕ} (h : ∀ b ∈ path, b ∈ rivals m) :
    totalWork path = path.length * unit := by
  apply totalWork_const
  intro b hb
  obtain ⟨i, -, rfl⟩ := List.mem_map.mp (h b hb)
  rfl

theorem work_suffix (n m k : ℕ) : totalWork ((race n m).blocks.drop k) = (n - k) * unit := by
  rw [totalWork_const (w := unit)]
  · simp [race]
  · intro b hb
    obtain ⟨i, -, rfl⟩ := List.mem_map.mp (List.mem_of_mem_drop hb)
    rfl

/-- Only the first rival leaves the canonical run. -/
theorem first_of_candidate {n m : ℕ} (hm : m < 4000) {tip b : Block} (hb : b ∈ rivals m)
    (h : (race n m).isReorgCandidate tip b = true) : b = rival 0 := by
  obtain ⟨i, hi, rfl⟩ := List.mem_map.mp hb
  have hi' : i < m := List.mem_range.mp hi
  by_contra hne
  have hpos : i ≠ 0 := fun h0 => hne (by rw [h0])
  simp only [isReorgCandidate, Bool.and_eq_true] at h
  have hparent := h.1.2
  have hindex : (rival i).index = i + 2 := rfl
  rw [hindex, if_neg (by omega), Option.any_eq_true] at hparent
  obtain ⟨parent, hparent, hhash⟩ := hparent
  obtain ⟨hlt, rfl⟩ := List.getElem?_eq_some_iff.mp hparent
  simp only [race, List.getElem_map, List.getElem_range, decide_eq_true_eq, slot, rival, mined, hpos,
    if_false] at hhash
  have := (digest_inj (by simp [race] at hlt; omega) (by omega)).mp hhash
  omega

end Race

theorem two_rivals_verdict :
    (Race.race 3 2).externalBranchWinsForkChoice (Race.rivals 2) 1 2 = true ∧
      ∃ r ∈ (Race.race 3 2).rankedBranches (Race.slot 2), r.branch = Race.rivals 2 := by
  have h := (verdict_agrees_with_ranking (Race.rival_race (n := 3) (m := 2) (by omega) (by omega))).1
    (by decide)
  have hwins : (Race.race 3 2).externalBranchWinsForkChoice (Race.rivals 2) 1 2 = true := by decide +kernel
  exact ⟨hwins, h.mp hwins⟩

/-- A rival run of 1026 blocks has more work than the 1025 it would replace, and the engine, which
looks 1024 blocks deep, ranks nothing. -/
theorem long_rival_wins_unranked :
    (Race.race 1027 1026).Rival (Race.slot 1026) 1 (Race.rivals 1026) ∧
      (Race.race 1027 1026).externalBranchWinsForkChoice (Race.rivals 1026) 1 (Race.slot 1026).index = true ∧
      (Race.race 1027 1026).rankedBranches (Race.slot 1026) = [] := by
  have hrival := Race.rival_race (n := 1027) (m := 1026) (by omega) (by omega)
  have hunit : 0 < Race.unit := by decide
  refine ⟨hrival, ?_, ?_⟩
  · obtain ⟨first, base, hf, -, -, -⟩ := hrival.onTop
    have hl : (Race.rivals 1026).getLast? = some (Race.rival 1025) := by
      simp [Race.rivals, List.getLast?_map, List.getLast?_range]
    rw [hrival.wins_iff_beats hf hl, Race.work_suffix, Race.work_rivals fun b hb => hb]
    simp only [beatsCanonical, Race.rivals, List.length_map, List.length_range]
    simp [hunit]
  · apply List.eq_nil_iff_forall_not_mem.mpr
    intro r hr
    have hlen := length_ranked_le hrival.linked hrival.pool hr
    obtain ⟨first, branchTip, hcontender, -⟩ := contender_of_mem_ranked hrival.tipIndex hr
    have hfirst : first = Race.rival 0 :=
      Race.first_of_candidate (by omega) (Race.poolBlocks_race _ _ ▸ hcontender.firstPool) hcontender.candidate
    have hmem : ∀ b ∈ r.branch, b ∈ Race.rivals 1026 := by
      intro b hb
      rw [← Race.poolBlocks_race 1027]
      rcases List.mem_cons.mp (List.cons_head?_tail hcontender.path.head ▸ hb) with rfl | htail
      · exact hcontender.firstPool
      · exact hcontender.path.pool b htail
    have hbeats := hcontender.beats
    rw [hfirst, Race.work_rivals hmem, Race.work_suffix] at hbeats
    have hlt : r.branch.length * Race.unit < (1027 - (Race.rival 0).index) * Race.unit := by
      apply Nat.mul_lt_mul_of_pos_right _ hunit
      have : (Race.rival 0).index = 2 := rfl
      have : orphanReorgDepth = 1024 := rfl
      omega
    simp only [beatsCanonical, Bool.or_eq_true, Bool.and_eq_true, decide_eq_true_eq] at hbeats
    omega

end ChainState

end Alphanumeric
