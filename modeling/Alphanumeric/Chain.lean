/-
# What a step does to the canonical chain

`StepEffect` says once what an engine step can do to the canonical slots, the
registry and the checkpoint: append a validated child of the tip, replace the suffix
above a fork by a branch that passed every gate, derive the registry again, move the
checkpoint, or nothing. Every invariant of the chain is proved from it.

Key definitions: `BranchGates`, `StepEffect`.
Key theorems: `rewriteSlots_eq`, `adopt_cases`, `stepEffect_of_step`, `StepEffect.slotted`.
-/
import Alphanumeric.Runs

namespace Alphanumeric

open Guard BlockchainError ChainState

variable {E : Env}

/-! ### Stored blocks -/

@[simp] theorem toStorageBlock_index (b : Block) : (toStorageBlock E b).index = b.index := rfl
@[simp] theorem toStorageBlock_hash (b : Block) : (toStorageBlock E b).hash = b.hash := rfl
@[simp] theorem toStorageBlock_previousHash (b : Block) :
    (toStorageBlock E b).previousHash = b.previousHash := rfl
@[simp] theorem toStorageBlock_timestamp (b : Block) :
    (toStorageBlock E b).timestamp = b.timestamp := rfl
@[simp] theorem toStorageBlock_difficulty (b : Block) :
    (toStorageBlock E b).difficulty = b.difficulty := rfl
@[simp] theorem blockWork_toStorageBlock (b : Block) : blockWork (toStorageBlock E b) = blockWork b := rfl

@[simp] theorem totalWork_map_toStorageBlock (bs : List Block) :
    totalWork (bs.map (toStorageBlock E)) = totalWork bs := by
  simp [totalWork, Function.comp_def]

/-! ### The rewrite of a reorg -/

theorem setSlot_length {blocks : List Block} {b : Block} (h : b.index = blocks.length) :
    setSlot E blocks b = blocks ++ [toStorageBlock E b] := by
  simp [setSlot, h]

theorem foldl_setSlot :
    ∀ (branch pre rest : List Block),
      (∀ (i : ℕ) (b : Block), branch[i]? = some b → b.index = pre.length + i) →
      branch.foldl (setSlot E) (pre ++ rest) =
        pre ++ branch.map (toStorageBlock E) ++ rest.drop branch.length
  | [], pre, rest, _ => by simp
  | b :: branch, pre, rest, hi => by
    have hb : b.index = pre.length := by simpa using hi 0 b rfl
    have hset : setSlot E (pre ++ rest) b = (pre ++ [toStorageBlock E b]) ++ rest.drop 1 := by
      simp [setSlot, hb, List.drop_append]
    rw [List.foldl_cons, hset, foldl_setSlot branch _ _ fun i c hc => ?_]
    · simp
    · rw [hi (i + 1) c (by simpa using hc)]
      simp
      omega

/-- A linked branch replaces everything from its fork height on. -/
theorem rewriteSlots_eq {blocks branch : List Block} {first : Block}
    (hl : branch.IsChain BranchLink) (hf : branch.head? = some first)
    (hle : first.index ≤ blocks.length) :
    rewriteSlots E blocks branch = blocks.take first.index ++ branch.map (toStorageBlock E) := by
  have hne : branch ≠ [] := by
    rintro rfl
    simp at hf
  have hlast : branch.getLast? = some (branch.getLast hne) := List.getLast?_eq_some_getLast hne
  have hlen : (blocks.take first.index).length = first.index := by simpa using hle
  unfold rewriteSlots
  rw [hlast]
  dsimp only
  have hfold := foldl_setSlot (E := E) branch (blocks.take first.index) (blocks.drop first.index)
    fun i b hb => by rw [hlen]; exact linked_index hl hf i b hb
  rw [List.take_append_drop] at hfold
  rw [hfold, linked_last_index hl hf hlast, List.take_append_of_le_length (by simp [hlen])]
  exact List.take_of_length_le (by simp [hlen])

/-- The gates a branch has passed when it is adopted. -/
structure BranchGates (E : Env) (now : ℕ) (s : ChainState) (tip first branchTip : Block)
    (branch : List Block) : Prop where
  valid : ∀ b ∈ branch, validateBlockInternal E now s .allowTruncatedStored b = .ok ()
  finality : s.trustedCheckpointHeight < first.index
  noBackoff : s.witnessBranchBackoffActive now branchTip.hash = false
  witnessed : ∀ b ∈ branch, s.verificationFloor < b.index → blockSignaturesFullyVerified E b = true
  solvent : s.branchSolvent E first.index tip.index branch = .ok true
  noReplay : s.registry.branchReplaysBelow E first.index branch = false

theorem isOk_eq_ok {x : Res Unit} (h : x.isOk = true) : x = .ok () := by
  cases x with
  | error e => simp [Except.isOk, Except.toBool] at h
  | ok u => rfl

theorem witnessShort_eq_nil {s : ChainState} {branch : List Block} :
    s.witnessShort E branch = [] ↔
      ∀ b ∈ branch, s.verificationFloor < b.index → blockSignaturesFullyVerified E b = true := by
  simp [witnessShort, List.filter_eq_nil_iff]

/-- What `adopt_branch_if_valid` can do when it does not reject: fail before any write, or
run the commit of a branch that passed every gate. -/
theorem adopt_cases {now : ℕ} {s s' : ChainState} {branch : List Block} {tip : Block} {r : Res Bool}
    (h : adoptBranchIfValid E now s branch tip = (s', r)) (hr : r ≠ .ok false) :
    (s' = s ∧ ∃ e, r = .error e) ∨ ∃ first branchTip, branch.head? = some first ∧ branch.getLast? = some branchTip ∧
      BranchGates E now s tip first branchTip branch ∧
      s.commitBranch E now first.index tip.index branch branchTip = (s', r) := by
  unfold adoptBranchIfValid at h
  split at h
  · rename_i first branchTip hf hl
    by_cases hv : branchValid E now s first.index branch = true
    swap
    · simp only [hv] at h
      cases h
      exact absurd rfl hr
    by_cases hb : s.witnessBranchBackoffActive now branchTip.hash = true
    · simp only [hv, hb] at h
      cases h
      exact absurd rfl hr
    by_cases hw : s.witnessShort E branch = []
    swap
    · simp only [hv, hb, hw, Bool.not_true, Bool.false_eq_true, ne_eq, not_false_eq_true, if_false,
        if_true] at h
      cases h
      exact absurd rfl hr
    simp only [hv, hb, hw, Bool.not_true, Bool.false_eq_true, ne_eq, not_true_eq_false, if_false] at h
    cases hs : s.branchSolvent E first.index tip.index branch with
    | error e =>
      simp only [hs] at h
      cases h
      exact .inl ⟨rfl, e, rfl⟩
    | ok solvent =>
      cases solvent with
      | false =>
        simp only [hs] at h
        cases h
        exact absurd rfl hr
      | true =>
        simp only [hs] at h
        split_ifs at h with hreplay
        · cases h
          exact absurd rfl hr
        · simp only [branchValid, Bool.and_eq_true, List.all_eq_true, decide_eq_true_eq] at hv
          exact .inr ⟨first, branchTip, hf, hl, ⟨fun b hb => isOk_eq_ok (hv.1 b hb), hv.2,
            by simpa using hb, witnessShort_eq_nil.mp hw, hs, by simpa using hreplay⟩, h⟩
  · cases h
    exact absurd rfl hr

/-- The slots, the registry and the checkpoint a commit leaves, whether or not the balances
could be written. -/
theorem commitBranch_fields {now forkStart oldTip : ℕ} {s s' : ChainState} {branch : List Block}
    {branchTip : Block} {r : Res Bool}
    (h : s.commitBranch E now forkStart oldTip branch branchTip = (s', r)) :
    s'.blocks = rewriteSlots E s.blocks branch ∧
      s'.registry = s.reorgRegistry E forkStart branch branchTip ∧
      s'.trustedCheckpoint = s.trustedCheckpoint := by
  unfold commitBranch at h
  dsimp only at h
  generalize hrw : ({ s with
    blocks := rewriteSlots E s.blocks branch
    registry := s.reorgRegistry E forkStart branch branchTip
    dirty := true } : ChainState) = rewritten at h
  have hpool := (foldl_frame (fun t b => removeOrphanByHash_frame t (Block.hash b)) branch rewritten).trans
    (pruneOrphansAt_frame now (some oldTip) _)
  generalize (branch.foldl (fun s b => s.removeOrphanByHash b.hash) rewritten).pruneOrphansAt now
    (some oldTip) = pooled at h hpool
  have hfields : pooled.blocks = rewriteSlots E s.blocks branch ∧
      pooled.registry = s.reorgRegistry E forkStart branch branchTip ∧
      pooled.trustedCheckpoint = s.trustedCheckpoint := by
    rw [hpool, ← hrw]
    exact ⟨rfl, rfl, rfl⟩
  split at h
  · cases h
    exact hfields
  · rename_i t ht
    cases h
    have hsame : t.blocks = pooled.blocks ∧ t.registry = pooled.registry ∧
        t.trustedCheckpoint = pooled.trustedCheckpoint := by
      unfold reorgBalances at ht
      split at ht
      · have := (catchUpBalancesIndex_frame ht).sameChain
        exact ⟨this.blocks, this.registry, this.checkpoint⟩
      · have := (rebuildBalancesIndex_frame ht).sameChain
        exact ⟨this.blocks, this.registry, this.checkpoint⟩
    exact ⟨hsame.1.trans hfields.1, hsame.2.1.trans hfields.2.1, hsame.2.2.trans hfields.2.2⟩

/-! ### The effect of a step -/

/-- What a step can do to the slots, the registry and the checkpoint. -/
inductive StepEffect (E : Env) (s : ChainState) : EngineEvent → ChainState → Prop
  /-- A validated child of the tip is appended and recorded. -/
  | extended {now : ℕ} {mode : SignatureValidationMode} {b : Block} {s' : ChainState} :
    b.index = s.blocks.length → (∀ tip, s.blocks.getLast? = some tip → b.previousHash = tip.hash) →
    validateBlockInternal E now s mode b = .ok () → s.registry.blockHasReplayedTx E b = false →
    s'.blocks = s.blocks ++ [toStorageBlock E b] →
    s'.registry = (s.registry.recordConfirmedTxs E b).pruneConfirmedTxs b.timestamp →
    s'.trustedCheckpoint = s.trustedCheckpoint → StepEffect E s (.extended mode b) s'
  /-- A branch that passed every gate replaces the slots from its fork height on. -/
  | adopted {now : ℕ} {tip first branchTip : Block} {branch : List Block} {s' : ChainState} :
    s.blocks.getLast? = some tip → s.Contender tip first branchTip branch →
    BranchGates E now s tip first branchTip branch →
    s'.blocks = s.blocks.take first.index ++ branch.map (toStorageBlock E) →
    s'.registry = s.reorgRegistry E first.index branch branchTip →
    s'.trustedCheckpoint = s.trustedCheckpoint → StepEffect E s (.adopted branch) s'
  /-- The registry is derived from the slots again. -/
  | rederived {ev : EngineEvent} {tip : Block} {s' : ChainState} :
    s.blocks.getLast? = some tip → s'.blocks = s.blocks →
    s'.registry = (Registry.ofChain E s.blocks).pruneConfirmedTxs tip.timestamp →
    s'.trustedCheckpoint = s.trustedCheckpoint → StepEffect E s ev s'
  | emptied {ev : EngineEvent} {s' : ChainState} :
    s.blocks = [] → s'.blocks = [] → s'.registry = Registry.empty →
    s'.trustedCheckpoint = s.trustedCheckpoint → StepEffect E s ev s'
  | raised (height : ℕ) : StepEffect E s .checkpoint (s.raiseTrustedCheckpoint height)
  | seeded : StepEffect E s .checkpoint s.seedTrustedCheckpointIfUnset
  | unchanged {ev : EngineEvent} {s' : ChainState} :
    s'.blocks = s.blocks → s'.registry = s.registry →
    s'.trustedCheckpoint = s.trustedCheckpoint → StepEffect E s ev s'

theorem extendsTip_index {s : ChainState} {b : Block} (hs : Slotted s.blocks) (h : ExtendsTip s b) :
    b.index = s.blocks.length ∧ ∀ tip, s.blocks.getLast? = some tip → b.previousHash = tip.hash := by
  unfold ExtendsTip at h
  cases ht : s.getLastBlock with
  | none =>
    simp only [ht] at h
    have hnil : s.blocks = [] := List.getLast?_eq_none_iff.mp ht
    exact ⟨by rw [h.1, hnil]; rfl, by simp [hnil]⟩
  | some tip =>
    simp only [ht] at h
    have hlen := hs.lastIndex ht
    refine ⟨?_, fun tip' ht' => ?_⟩
    · rcases h.2 with h' | h'
      · omega
      · rw [h', s.getLatestBlockIndex_eq]
        omega
    · obtain rfl : tip = tip' := by simpa [getLastBlock, ht'] using ht.symm
      exact h.1

theorem adopt_effect {now : ℕ} {s s' : ChainState} {tip : Block} {rb : RankedBranch} {r : Res Bool}
    (hs : Slotted s.blocks) (ht : s.getLastBlock = some tip) (hrank : rb ∈ s.rankedBranches tip)
    (h : adoptBranchIfValid E now s rb.branch tip = (s', r)) (hr : r ≠ .ok false) :
    StepEffect E s (.adopted rb.branch) s' := by
  rcases adopt_cases h hr with ⟨rfl, -⟩ | ⟨first, branchTip, hf, hl, hgates, hcommit⟩
  · exact .unchanged rfl rfl rfl
  · obtain ⟨first', branchTip', hcont, -⟩ := contender_of_mem_ranked (hs.lastIndex ht) hrank
    obtain rfl : first' = first := by simpa [hcont.path.head] using hf
    obtain rfl : branchTip' = branchTip := by simpa [hcont.last] using hl
    obtain ⟨hb, hreg, hcp⟩ := commitBranch_fields hcommit
    have hle : first'.index ≤ s.blocks.length := by
      have hcand := hcont.candidate
      have := hs.lastIndex ht
      simp only [isReorgCandidate, Bool.and_eq_true, decide_eq_true_eq] at hcand
      omega
    rw [rewriteSlots_eq hcont.path.linked hf hle] at hb
    exact .adopted ht hcont hgates hb hreg hcp

theorem rebuild_effect {s s' : ChainState} (ev : EngineEvent)
    (h : rebuildConfirmedTxIndex E s = .ok s') : StepEffect E s ev s' := by
  rcases rebuildConfirmedTxIndex_cases h with ⟨hnone, rfl⟩ | ⟨tip, htip, -, rfl⟩
  · have hnil : s.blocks = [] := List.getLast?_eq_none_iff.mp hnone
    exact .emptied hnil hnil rfl rfl
  · exact .rederived htip rfl rfl rfl

theorem StepEffect.congr_left {s t u v : ChainState} {ev : EngineEvent} (h : StepEffect E t .recovered u)
    (hb : t.blocks = s.blocks) (hr : t.registry = s.registry)
    (hc : t.trustedCheckpoint = s.trustedCheckpoint) (hub : v.blocks = u.blocks)
    (hur : v.registry = u.registry) (huc : v.trustedCheckpoint = u.trustedCheckpoint) :
    StepEffect E s ev v := by
  cases h with
  | rederived h₁ h₂ h₃ h₄ =>
    exact .rederived (hb ▸ h₁) (by rw [hub, h₂, hb]) (by rw [hur, h₃, hb]) (by rw [huc, h₄, hc])
  | emptied h₁ h₂ h₃ h₄ =>
    exact .emptied (by rw [← hb, h₁]) (by rw [hub, h₂]) (by rw [hur, h₃]) (by rw [huc, h₄, hc])
  | unchanged h₁ h₂ h₃ =>
    exact .unchanged (by rw [hub, h₁, hb]) (by rw [hur, h₂, hr]) (by rw [huc, h₃, hc])

/-- **What an engine step does**, from a state whose slots hold their heights. -/
theorem stepEffect_of_step {s s' : ChainState} {ev : EngineEvent} (hs : Slotted s.blocks)
    (h : EngineStep E s ev s') : StepEffect E s ev s' := by
  cases h with
  | extend _ ht hv hr happly =>
    obtain ⟨hi, hp⟩ := extendsTip_index hs ht
    unfold applyTip at happly
    split at happly
    · simp at happly
    · cases happly
      exact .extended hi hp hv hr (setSlot_length hi) rfl rfl
  | adopt _ ht hrank h => exact adopt_effect hs ht hrank h (by simp)
  | adoptFailed _ ht hrank h => exact adopt_effect hs ht hrank h (by simp)
  | applyFailed _ => exact .unchanged rfl rfl rfl
  | recover _ =>
    rcases recover_cases (E := E) s with ⟨e, h⟩ | ⟨t, ht, ⟨e, h⟩ | ⟨u, hu, h⟩⟩ <;> rw [h]
    · exact .unchanged rfl rfl rfl
    · exact .unchanged ht.sameChain.blocks ht.sameChain.registry ht.sameChain.checkpoint
    · exact (rebuild_effect .recovered hu).congr_left ht.sameChain.blocks
        ht.sameChain.registry ht.sameChain.checkpoint rfl rfl rfl
  | rebuild h => exact rebuild_effect _ h
  | raise height => exact .raised height
  | seed => exact .seeded
  | housekeep h => exact .unchanged h.blocks h.registry h.checkpoint

@[simp] theorem raiseTrustedCheckpoint_blocks (s : ChainState) (height : ℕ) :
    (s.raiseTrustedCheckpoint height).blocks = s.blocks := by
  unfold raiseTrustedCheckpoint
  dsimp only
  split <;> rfl

@[simp] theorem raiseTrustedCheckpoint_registry (s : ChainState) (height : ℕ) :
    (s.raiseTrustedCheckpoint height).registry = s.registry := by
  unfold raiseTrustedCheckpoint
  dsimp only
  split <;> rfl

@[simp] theorem seedTrustedCheckpointIfUnset_blocks (s : ChainState) :
    s.seedTrustedCheckpointIfUnset.blocks = s.blocks := by
  unfold seedTrustedCheckpointIfUnset
  split <;> rfl

@[simp] theorem seedTrustedCheckpointIfUnset_registry (s : ChainState) :
    s.seedTrustedCheckpointIfUnset.registry = s.registry := by
  unfold seedTrustedCheckpointIfUnset
  split <;> rfl

/-- The fork of a contender lies inside the chain. -/
theorem Contender.fork_le {s : ChainState} {tip first branchTip : Block} {branch : List Block}
    (h : s.Contender tip first branchTip branch) (hs : Slotted s.blocks)
    (ht : s.blocks.getLast? = some tip) : first.index < s.blocks.length := by
  have hcand := h.candidate
  have := hs.lastIndex ht
  simp only [isReorgCandidate, Bool.and_eq_true, decide_eq_true_eq] at hcand
  omega

theorem StepEffect.slotted {s s' : ChainState} {ev : EngineEvent} (h : StepEffect E s ev s')
    (hs : Slotted s.blocks) : Slotted s'.blocks := by
  cases h with
  | extended hi _ _ _ hb _ _ =>
    rw [hb]
    refine slotted_append hs fun i c hc => ?_
    cases i with
    | zero =>
      obtain rfl : toStorageBlock E _ = c := by simpa using hc
      simpa using hi
    | succ i => simp at hc
  | adopted ht hcont _ hb _ _ =>
    rw [hb]
    have hlt := Contender.fork_le hcont hs ht
    refine slotted_append (slotted_take hs _) fun i c hc => ?_
    rw [List.getElem?_map] at hc
    obtain ⟨d, hd, rfl⟩ := Option.map_eq_some_iff.mp hc
    rw [toStorageBlock_index, linked_index hcont.path.linked hcont.path.head i d hd,
      List.length_take, min_eq_left hlt.le]
  | rederived _ hb _ _ => rw [hb]; exact hs
  | emptied _ hb _ _ => rw [hb]; intro i b hi; simp at hi
  | raised height => rw [raiseTrustedCheckpoint_blocks]; exact hs
  | seeded => rw [seedTrustedCheckpointIfUnset_blocks]; exact hs
  | unchanged hb _ _ => rw [hb]; exact hs

theorem EngineStep.slotted {s s' : ChainState} {ev : EngineEvent} (hs : Slotted s.blocks)
    (h : EngineStep E s ev s') : Slotted s'.blocks :=
  (stepEffect_of_step hs h).slotted hs

end Alphanumeric
