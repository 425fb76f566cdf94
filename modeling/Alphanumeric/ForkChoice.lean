/-
# Work and the ranking of competing branches

The work of a block is `2 ^ (difficulty / 16)`. A branch competes with the
canonical suffix it would replace: it must carry strictly more work, or the same
work at the same height with a lower tip hash. `try_adopt_orphan_branch` lists the
pool blocks that leave the canonical chain at or below the tip, collects the
branches from each, ranks those that could be adopted by the work they gain and
then by tip hash, and tries them in that order.

Key definitions: `workUnitsForDifficulty`, `canonicalSuffix`, `branchWorkToHeight`,
`reorgCandidates`, `rankedBranches`, `externalBranchWinsForkChoice`, `Contender`.
Key theorems: `suffixWalk_lookup`, `contender_of_mem_ranked`, `rankedBranches_sorted`.
-/
import Alphanumeric.Orphans

namespace Alphanumeric

open Guard BlockchainError

def workUnitsForDifficulty (difficulty : ℕ) : ℕ := 2 ^ min (difficulty / 16) 255

def blockWork (b : Block) : ℕ := workUnitsForDifficulty b.difficulty

/-- The work of a run of blocks. -/
def totalWork (bs : List Block) : ℕ := (bs.map blockWork).sum

theorem totalWork_append (xs ys : List Block) :
    totalWork (xs ++ ys) = totalWork xs + totalWork ys := by
  simp [totalWork]

/-- `branch_work_to_height`. -/
def branchWorkToHeight (branch : List Block) (maxHeight : ℕ) : ℕ :=
  totalWork (branch.filter fun b => b.index ≤ maxHeight)

namespace ChainState

/-- `canonical_work_range`: an unreadable height is an error. -/
def canonicalWorkRange (s : ChainState) (start stop : ℕ) : Res ℕ :=
  if stop < start then .ok 0
  else if stop < s.blocks.length then .ok (totalWork ((s.blocks.take (stop + 1)).drop start))
  else .error invalidTransaction

/-- The walk down from the tip that memoises the canonical work of every suffix:
`steps` more heights below `h`, with `running` the work above `h`. -/
def suffixWalk (blocks : List Block) : ℕ → ℕ → ℕ → List (ℕ × ℕ)
  | 0, h, running => [(h, running + (blocks[h]?.map blockWork).getD 0)]
  | steps + 1, h, running =>
    let running' := running + (blocks[h]?.map blockWork).getD 0
    (h, running') :: suffixWalk blocks steps (h - 1) running'

/-- The memo over the fork heights `[minFork, tip]`. -/
def canonicalSuffix (s : ChainState) (minFork tip : ℕ) : List (ℕ × ℕ) :=
  suffixWalk s.blocks (tip - minFork) tip 0

/-- A pool block that leaves the canonical chain at or below the tip. -/
def isReorgCandidate (s : ChainState) (tip b : Block) : Bool :=
  b.index ≤ tip.index &&
    (if b.index = 0 then b.previousHash = zeroHash
      else (s.getBlock (b.index - 1)).any fun parent => parent.hash = b.previousHash) &&
    (s.getBlock b.index).any fun existing => existing.hash ≠ b.hash

/-- Higher fork first, then higher difficulty, then lower hash. -/
def candidateLe (a b : Block) : Bool :=
  ((compare b.index a.index).then <| (compare b.difficulty a.difficulty).then
    (compare a.hash b.hash)).isLE

def reorgCandidates (s : ChainState) (tip : Block) : List Block :=
  ((s.orphans.map (·.block)).filter (s.isReorgCandidate tip)).insertionSort fun a b => candidateLe a b = true

/-- A branch with its own work and the canonical work it competes with. -/
structure RankedBranch where
  branch : List Block
  branchWork : ℕ
  canonicalWork : ℕ
  tipHash : Hash

/-- Could a branch with this tip and work be adopted over `tip`? -/
def beatsCanonical (tip branchTip : Block) (branchWork canonicalWork : ℕ) : Bool :=
  canonicalWork < branchWork ||
    (branchWork = canonicalWork && branchTip.index = tip.index && branchTip.hash < tip.hash)

def rankBranch (tip : Block) (suffix : List (ℕ × ℕ)) (branch : List Block) : Option RankedBranch :=
  match branch.head?, branch.getLast? with
  | some first, some branchTip =>
    let canonicalWork := (suffix.lookup first.index).getD 0
    let work := branchWorkToHeight branch branchTip.index
    if beatsCanonical tip branchTip work canonicalWork then
      some ⟨branch, work, canonicalWork, branchTip.hash⟩
    else none
  | _, _ => none

/-- Best first: the greater gain of work, then the lower tip hash. -/
def rankedLe (a b : RankedBranch) : Bool :=
  ((compare (b.branchWork + a.canonicalWork) (a.branchWork + b.canonicalWork)).then
    (compare a.tipHash b.tipHash)).isLE

/-- Every branch the search enumerates above the checkpoint, up to the evaluation budget. -/
def enumeratedBranches (s : ChainState) (candidates : List Block) : List (List Block) :=
  ((candidates.filter fun c => s.trustedCheckpointHeight < c.index).flatMap fun c =>
    s.collectOrphanBranchesFrom c orphanReorgDepth orphanBranchSearchLimit).take
      maxReorgBranchesEvaluated

def rankedBranches (s : ChainState) (tip : Block) : List RankedBranch :=
  let candidates := s.reorgCandidates tip
  let minFork := (candidates.map (·.index)).foldl min tip.index
  let suffix := s.canonicalSuffix minFork tip.index
  ((s.enumeratedBranches candidates).filterMap (rankBranch tip suffix)).insertionSort fun a b => rankedLe a b = true

/-- The fork-choice verdict of the convergence path. -/
def externalBranchWinsForkChoice (s : ChainState) (branch : List Block) (ancestor tip : ℕ) : Bool :=
  match branch.getLast? with
  | none => false
  | some branchTip =>
    match s.canonicalWorkRange (ancestor + 1) tip with
    | .error _ => false
    | .ok canonicalWork =>
      let work := branchWorkToHeight branch branchTip.index
      if canonicalWork < work then true
      else if work = canonicalWork then
        (s.getBlock tip).any fun localTip =>
          branchTip.index = tip && branchTip.hash < localTip.hash
      else false

/-! ### The memo is the work of the suffix -/

theorem totalWork_drop {blocks : List Block} {h : ℕ} (hh : h < blocks.length) :
    totalWork (blocks.drop h) =
      totalWork (blocks.drop (h + 1)) + (blocks[h]?.map blockWork).getD 0 := by
  rw [List.drop_eq_getElem_cons hh, List.getElem?_eq_getElem hh]
  simp only [totalWork, List.map_cons, List.sum_cons, Option.map_some, Option.getD_some]
  exact Nat.add_comm _ _

theorem suffixWalk_lookup (blocks : List Block) :
    ∀ (steps h x running : ℕ), steps ≤ h → h < blocks.length →
      running = totalWork (blocks.drop (h + 1)) → h - steps ≤ x → x ≤ h →
      (suffixWalk blocks steps h running).lookup x = some (totalWork (blocks.drop x))
  | 0, h, x, running, _, hh, hr, hx, hx' => by
    obtain rfl : x = h := by omega
    simp [suffixWalk, totalWork_drop hh, hr]
  | steps + 1, h, x, running, hs, hh, hr, hx, hx' => by
    unfold suffixWalk
    rcases Nat.lt_or_ge x h with hlt | hge
    · have hne : (x == h) = false := by simp; omega
      simp only [List.lookup_cons, hne]
      refine suffixWalk_lookup blocks steps (h - 1) x _ (by omega) (by omega) ?_ (by omega) (by omega)
      rw [Nat.sub_add_cancel (by omega), totalWork_drop hh, hr]
    · obtain rfl : x = h := by omega
      simp [totalWork_drop hh, hr]

/-! ### What a ranked branch is -/

theorem linked_index {branch : List Block} (h : branch.IsChain BranchLink) {first : Block}
    (hf : branch.head? = some first) :
    ∀ (i : ℕ) (b : Block), branch[i]? = some b → b.index = first.index + i := by
  induction branch generalizing first with
  | nil => simp at hf
  | cons a rest ih =>
    obtain rfl : a = first := by simpa using hf
    intro i b hb
    cases i with
    | zero =>
      obtain rfl : a = b := by simpa using hb
      rfl
    | succ i =>
      cases rest with
      | nil => simp at hb
      | cons c rest =>
        have hlink := List.isChain_cons_cons.mp h
        rw [ih hlink.2 rfl i b (by simpa using hb), hlink.1.1]
        omega

theorem linked_last_index {branch : List Block} (h : branch.IsChain BranchLink) {first last : Block}
    (hf : branch.head? = some first) (hl : branch.getLast? = some last) :
    last.index + 1 = first.index + branch.length := by
  have hlen : 0 < branch.length := by
    cases branch <;> simp_all
  rw [List.getLast?_eq_getElem?] at hl
  rw [linked_index h hf _ _ hl]
  omega

theorem branchWorkToHeight_last {branch : List Block} (h : branch.IsChain BranchLink)
    {first last : Block} (hf : branch.head? = some first) (hl : branch.getLast? = some last) :
    branchWorkToHeight branch last.index = totalWork branch := by
  unfold branchWorkToHeight
  rw [List.filter_eq_self.mpr]
  intro b hb
  obtain ⟨i, hi, rfl⟩ := List.getElem_of_mem hb
  have hb' := linked_index h hf i _ (List.getElem?_eq_getElem hi)
  have := linked_last_index h hf hl
  simp only [decide_eq_true_eq]
  omega

/-- A branch of the pool that could be adopted over `tip`: it leaves the canonical chain
above the checkpoint and beats the suffix it would replace. -/
structure Contender (s : ChainState) (tip first branchTip : Block) (branch : List Block) : Prop where
  path : s.PoolBranch first branch
  firstPool : first ∈ s.poolBlocks
  candidate : s.isReorgCandidate tip first = true
  last : branch.getLast? = some branchTip
  aboveCheckpoint : s.trustedCheckpointHeight < first.index
  beats : beatsCanonical tip branchTip (totalWork branch) (totalWork (s.blocks.drop first.index)) = true

theorem foldl_min_le : ∀ (xs : List ℕ) (m : ℕ), xs.foldl min m ≤ m ∧ ∀ x ∈ xs, xs.foldl min m ≤ x
  | [], m => by simp
  | y :: ys, m => by
    have ih := foldl_min_le ys (min m y)
    simp only [List.foldl_cons, List.forall_mem_cons]
    exact ⟨ih.1.trans (min_le_left _ _), ih.1.trans (min_le_right _ _), ih.2⟩

theorem rankBranch_eq_some {tip : Block} {suffix : List (ℕ × ℕ)} {branch : List Block}
    {r : RankedBranch} (h : rankBranch tip suffix branch = some r) :
    ∃ first branchTip, branch.head? = some first ∧ branch.getLast? = some branchTip ∧
      beatsCanonical tip branchTip (branchWorkToHeight branch branchTip.index)
        ((suffix.lookup first.index).getD 0) = true ∧
      r = ⟨branch, branchWorkToHeight branch branchTip.index, (suffix.lookup first.index).getD 0,
        branchTip.hash⟩ := by
  unfold rankBranch at h
  split at h
  · rename_i first branchTip hf hl
    dsimp only at h
    split_ifs at h with hb
    exact ⟨first, branchTip, hf, hl, hb, (Option.some.inj h).symm⟩
  · simp at h

theorem mem_reorgCandidates {s : ChainState} {tip b : Block} :
    b ∈ s.reorgCandidates tip ↔ b ∈ s.poolBlocks ∧ s.isReorgCandidate tip b = true := by
  simp [reorgCandidates, poolBlocks]

/-- The memo covers every candidate's fork height, since the walk goes down to the lowest. -/
theorem canonicalSuffix_lookup {s : ChainState} {tip c : Block}
    (htip : tip.index + 1 = s.blocks.length) (hc : c ∈ s.reorgCandidates tip) :
    (s.canonicalSuffix (((s.reorgCandidates tip).map (·.index)).foldl min tip.index)
      tip.index).lookup c.index = some (totalWork (s.blocks.drop c.index)) := by
  have hle : c.index ≤ tip.index := by
    have := (mem_reorgCandidates.mp hc).2
    simp only [isReorgCandidate, Bool.and_eq_true, decide_eq_true_eq] at this
    exact this.1.1
  have hmin := foldl_min_le ((s.reorgCandidates tip).map (·.index)) tip.index
  refine suffixWalk_lookup s.blocks _ tip.index c.index 0 (by omega) (by omega) ?_ ?_ hle
  · rw [htip, List.drop_length]
    rfl
  · have := hmin.2 c.index (List.mem_map_of_mem hc)
    omega

theorem contender_of_mem_ranked {s : ChainState} {tip : Block} {r : RankedBranch}
    (htip : tip.index + 1 = s.blocks.length) (hr : r ∈ s.rankedBranches tip) :
    ∃ first branchTip, s.Contender tip first branchTip r.branch ∧
      r = ⟨r.branch, totalWork r.branch, totalWork (s.blocks.drop first.index), branchTip.hash⟩ := by
  simp only [rankedBranches, List.mem_insertionSort, List.mem_filterMap] at hr
  obtain ⟨branch, hbranch, hrank⟩ := hr
  obtain ⟨first, branchTip, hf, hl, hbeats, rfl⟩ := rankBranch_eq_some hrank
  obtain ⟨c, hc, hcollect⟩ := List.mem_flatMap.mp (List.mem_of_mem_take hbranch)
  simp only [List.mem_filter, decide_eq_true_eq] at hc
  have hpath := poolBranch_of_mem_collect hcollect
  obtain rfl : c = first := by simpa [hpath.head] using hf
  have hcand := mem_reorgCandidates.mp hc.1
  rw [canonicalSuffix_lookup htip hc.1, branchWorkToHeight_last hpath.linked hpath.head hl] at hbeats ⊢
  exact ⟨c, branchTip, ⟨hpath, hcand.1, hcand.2, hl, hc.2, hbeats⟩, rfl⟩

/-- An enumerated branch that beats the canonical suffix is ranked. -/
theorem mem_ranked_of_enumerated {s : ChainState} {tip first branchTip : Block} {branch : List Block}
    (htip : tip.index + 1 = s.blocks.length) (h : s.Contender tip first branchTip branch)
    (hmem : branch ∈ s.enumeratedBranches (s.reorgCandidates tip)) :
    ⟨branch, totalWork branch, totalWork (s.blocks.drop first.index), branchTip.hash⟩ ∈
      s.rankedBranches tip := by
  have hc := mem_reorgCandidates.mpr ⟨h.firstPool, h.candidate⟩
  simp only [rankedBranches, List.mem_insertionSort, List.mem_filterMap]
  refine ⟨branch, hmem, ?_⟩
  unfold rankBranch
  rw [h.path.head, h.last]
  dsimp only
  rw [canonicalSuffix_lookup htip hc, branchWorkToHeight_last h.path.linked h.path.head h.last,
    Option.getD_some, if_pos h.beats]

/-! ### The order of the ranking -/

/-- The work a branch gains over the suffix it replaces. -/
def RankedBranch.gain (r : RankedBranch) : ℤ := (r.branchWork : ℤ) - r.canonicalWork

theorem rankedLe_iff {a b : RankedBranch} :
    rankedLe a b = true ↔ b.gain < a.gain ∨ a.gain = b.gain ∧ a.tipHash ≤ b.tipHash := by
  unfold rankedLe RankedBranch.gain
  have hhash : (compare a.tipHash b.tipHash).isLE = true ↔ a.tipHash ≤ b.tipHash :=
    Std.LawfulBCmp.isLE_iff_le
  rw [Ordering.isLE_then_iff_or, hhash, Nat.compare_eq_lt, Nat.compare_eq_eq]
  refine or_congr ?_ (and_congr_left fun _ => ?_)
  · omega
  · omega

instance : Std.Total fun a b : RankedBranch => rankedLe a b = true where
  total a b := by
    simp only [rankedLe_iff]
    rcases lt_trichotomy a.gain b.gain with h | h | h
    · exact .inr (.inl h)
    · rcases le_total a.tipHash b.tipHash with h' | h'
      · exact .inl (.inr ⟨h, h'⟩)
      · exact .inr (.inr ⟨h.symm, h'⟩)
    · exact .inl (.inl h)

instance : IsTrans RankedBranch fun a b => rankedLe a b = true where
  trans a b c := by
    simp only [rankedLe_iff]
    rintro (h | ⟨h, h'⟩) (k | ⟨k, k'⟩)
    · exact .inl (k.trans h)
    · exact .inl (k ▸ h)
    · exact .inl (h ▸ k)
    · exact .inr ⟨h.trans k, h'.trans k'⟩

theorem rankedBranches_sorted (s : ChainState) (tip : Block) :
    (s.rankedBranches tip).Pairwise fun a b => rankedLe a b = true :=
  List.pairwise_insertionSort _ _

end ChainState

end Alphanumeric
