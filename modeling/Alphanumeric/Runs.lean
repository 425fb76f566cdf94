/-
# The engine as a transition system

Every entry of the engine is a sequence of a few kinds of step: extend the tip,
adopt a branch, fail in an apply, recover, move the checkpoint, or touch only the
pool and the memos. `EngineStep` is that step relation, with the gates each step has
passed; `ChainOp.run` is the entries themselves. The theorem of the module is that
every entry decomposes into engine steps, so that what every step keeps, every run
of entries keeps.

Key definitions: `EngineEvent`, `EngineStep`, `EngineRun`, `ChainOp`, `ChainOp.run`, `OpRun`.
Key theorems: `chainOp_reaches`, `opRun_exists`, `OpRun.engineRun`.
-/
import Alphanumeric.Lib.Trace
import Alphanumeric.Reorg

namespace Alphanumeric

open Guard BlockchainError ChainState

variable (E : Env)

/-! ### Steps -/

inductive EngineEvent where
  | extended (mode : SignatureValidationMode) (b : Block)
  | adopted (branch : List Block)
  | applyFailed
  | recovered
  | checkpoint
  | housekeeping

/-- `b` is a child of the tip, or a first block on an empty chain. -/
def ExtendsTip (s : ChainState) (b : Block) : Prop :=
  match s.getLastBlock with
  | none => b.index = 0 ∧ b.previousHash = zeroHash
  | some tip =>
    b.previousHash = tip.hash ∧ (b.index = tip.index + 1 ∨ b.index = s.getLatestBlockIndex + 1)

/-- `s'` has the canonical slots, the registry, the checkpoint and the dirty marker of `s`. -/
structure SameChain (s s' : ChainState) : Prop where
  blocks : s'.blocks = s.blocks
  registry : s'.registry = s.registry
  checkpoint : s'.trustedCheckpoint = s.trustedCheckpoint
  dirty : s'.dirty = s.dirty

inductive EngineStep : ChainState → EngineEvent → ChainState → Prop
  | extend {now : ℕ} {mode : SignatureValidationMode} {s s' : ChainState} {b : Block} :
    s.dirty = false → ExtendsTip s b → validateBlockInternal E now s mode b = .ok () →
    s.registry.blockHasReplayedTx E b = false → applyTip E mode s b = (s', .ok ()) →
    EngineStep s (.extended mode b) s'
  | adopt {now : ℕ} {s s' : ChainState} {tip : Block} {r : RankedBranch} :
    s.dirty = false → s.getLastBlock = some tip → r ∈ s.rankedBranches tip →
    adoptBranchIfValid E now s r.branch tip = (s', .ok true) →
    EngineStep s (.adopted r.branch) s'
  | adoptFailed {now : ℕ} {s s' : ChainState} {tip : Block} {r : RankedBranch}
    {e : BlockchainError} :
    s.dirty = false → s.getLastBlock = some tip → r ∈ s.rankedBranches tip →
    adoptBranchIfValid E now s r.branch tip = (s', .error e) →
    EngineStep s (.adopted r.branch) s'
  | applyFailed {s : ChainState} : s.dirty = false → EngineStep s .applyFailed s.markDirty
  | recover {s : ChainState} : s.dirty = true → EngineStep s .recovered (recoverDirtyChainState E s).1
  | rebuild {s s' : ChainState} : rebuildConfirmedTxIndex E s = .ok s' → EngineStep s .recovered s'
  | raise {s : ChainState} (height : ℕ) :
    EngineStep s .checkpoint (s.raiseTrustedCheckpoint height)
  | seed {s : ChainState} : EngineStep s .checkpoint s.seedTrustedCheckpointIfUnset
  | housekeep {s s' : ChainState} : SameChain s s' → EngineStep s .housekeeping s'

/-- A run of engine steps; the trace has the state before each step and its event. -/
abbrev EngineRun : ChainState → List (ChainState × EngineEvent) → ChainState → Prop :=
  Trace.Run (EngineStep E)

/-- Only the blocks of `ok` extend the tip in the mode that trusts receipts. -/
def EngineEvent.Within (ok : Block → Prop) : EngineEvent → Prop
  | .extended .allowTruncatedStored b => ok b
  | _ => True

/-- Some run of engine steps leads from `s` to `t`, with receipts trusted in `ok` only. -/
def Reaches (ok : Block → Prop) (s t : ChainState) : Prop :=
  ∃ tr, EngineRun E s tr t ∧ ∀ x ∈ tr, x.2.Within ok

namespace Reaches

variable {E} {ok : Block → Prop}

theorem refl (s : ChainState) : Reaches E ok s s := ⟨[], .nil s, by simp⟩

theorem step {s t : ChainState} {e : EngineEvent} (h : EngineStep E s e t) (he : e.Within ok) :
    Reaches E ok s t :=
  ⟨_, .single h, by simpa using he⟩

theorem trans {s t u : ChainState} : Reaches E ok s t → Reaches E ok t u → Reaches E ok s u := by
  rintro ⟨_, h, hok⟩ ⟨_, h', hok'⟩
  refine ⟨_, h.trans h', fun x hx => ?_⟩
  rcases List.mem_append.mp hx with hx | hx
  · exact hok x hx
  · exact hok' x hx

theorem pool {s t : ChainState} (h : s.SamePoolFrame t) : Reaches E ok s t := by
  refine step (.housekeep ⟨?_, ?_, ?_, ?_⟩) trivial <;> rw [h]

theorem andThen {α β : Type} {s : ChainState} {x : ChainState × Res α}
    {f : α → ChainState → ChainState × Res β} (hx : Reaches E ok s x.1)
    (hf : ∀ a t, x = (t, .ok a) → Reaches E ok t (f a t).1) : Reaches E ok s (andThen x f).1 := by
  obtain ⟨t, r⟩ := x
  cases r with
  | error e => exact hx
  | ok a => exact hx.trans (hf a t rfl)

end Reaches

variable {E} {ok : Block → Prop}

/-! ### Recovery -/

theorem reconcile_reaches (s : ChainState) : Reaches E ok s (reconcileChainStateIfDirty E s).1 := by
  unfold reconcileChainStateIfDirty
  split
  · exact .step (.recover ‹_›) trivial
  · exact .refl s

/-- `s'` differs from `s` in the balances index only. -/
def SameIndexFrame (s s' : ChainState) : Prop :=
  s' = { s with balances := s'.balances, balancesHeight := s'.balancesHeight }

theorem SameIndexFrame.sameChain {s s' : ChainState} (h : SameIndexFrame s s') : SameChain s s' := by
  unfold SameIndexFrame at h
  constructor <;> rw [h]

theorem rebuildBalancesIndex_frame {s s' : ChainState} {covered : Option ℕ}
    (h : rebuildBalancesIndex E covered s = .ok s') : SameIndexFrame s s' := by
  unfold rebuildBalancesIndex at h
  simp only [bind_eq_ok, ensure_eq_ok] at h
  obtain ⟨-, -, st, -, h⟩ := h
  cases h
  rfl

theorem catchUpBalancesIndex_frame {s s' : ChainState} {covered : Option ℕ} {marker : ℕ}
    (h : catchUpBalancesIndex E covered s marker = .ok s') : SameIndexFrame s s' := by
  unfold catchUpBalancesIndex at h
  split at h
  · cases h
    rfl
  · exact rebuildBalancesIndex_frame h

theorem ensureBalancesIndex_frame {s s' : ChainState} (h : ensureBalancesIndex E s = .ok s') :
    SameIndexFrame s s' := by
  unfold ensureBalancesIndex at h
  split_ifs at h
  · cases h
    rfl
  · cases h
    rfl
  · split at h
    · split_ifs at h
      · exact catchUpBalancesIndex_frame h
      · exact rebuildBalancesIndex_frame h
    · exact rebuildBalancesIndex_frame h

theorem balancesForRead_frame {s s' : ChainState} {b : Block} (h : balancesForRead E s b = .ok s') :
    SameIndexFrame s s' := by
  unfold balancesForRead at h
  split_ifs at h
  · exact ensureBalancesIndex_frame h
  · cases h
    rfl

/-- The registry rebuild writes the registry only, from the slots alone. -/
theorem rebuildConfirmedTxIndex_cases {s s' : ChainState}
    (h : rebuildConfirmedTxIndex E s = .ok s') :
    (s.getLastBlock = none ∧ s' = { s with registry := Registry.empty }) ∨
      ∃ tip, s.getLastBlock = some tip ∧ structurallyValid E s.blocks = true ∧
        s' = { s with registry := (Registry.ofChain E s.blocks).pruneConfirmedTxs tip.timestamp } := by
  unfold rebuildConfirmedTxIndex at h
  split at h
  · rename_i hnone
    cases h
    exact .inl ⟨hnone, rfl⟩
  · rename_i tip htip
    simp only [bind_eq_ok, ensure_eq_ok] at h
    obtain ⟨-, hv, h⟩ := h
    cases h
    exact .inr ⟨tip, htip, hv, rfl⟩

/-- What recovery can do: fail before it wrote anything, fail with only the balances
rebuilt, or rebuild both and clear the marker. -/
theorem recover_cases (s : ChainState) :
    (∃ e, recoverDirtyChainState E s = (s, .error e)) ∨
      ∃ t, SameIndexFrame s t ∧
        ((∃ e, recoverDirtyChainState E s = (t, .error e)) ∨
          ∃ u, rebuildConfirmedTxIndex E t = .ok u ∧
            recoverDirtyChainState E s = ({ u with dirty := false }, .ok ())) := by
  cases h : rebuildBalancesIndex E s.highestBlockIndex s with
  | error e => exact .inl ⟨e, by simp [recoverDirtyChainState, andThen, attempt, h]⟩
  | ok t =>
    refine .inr ⟨t, rebuildBalancesIndex_frame h, ?_⟩
    cases h' : rebuildConfirmedTxIndex E t with
    | error e => exact .inl ⟨e, by simp [recoverDirtyChainState, andThen, attempt, h, h']⟩
    | ok u => exact .inr ⟨u, rfl, by simp [recoverDirtyChainState, andThen, attempt, h, h']⟩

/-- Recovery keeps the canonical slots and the checkpoint. -/
theorem recover_blocks (s : ChainState) :
    (recoverDirtyChainState E s).1.blocks = s.blocks ∧
      (recoverDirtyChainState E s).1.trustedCheckpoint = s.trustedCheckpoint := by
  rcases recover_cases (E := E) s with ⟨e, h⟩ | ⟨t, ht, ⟨e, h⟩ | ⟨u, hu, h⟩⟩ <;> rw [h]
  · exact ⟨rfl, rfl⟩
  · exact ⟨ht.sameChain.blocks, ht.sameChain.checkpoint⟩
  · rcases rebuildConfirmedTxIndex_cases hu with ⟨-, rfl⟩ | ⟨tip, -, -, rfl⟩
    · exact ⟨ht.sameChain.blocks, ht.sameChain.checkpoint⟩
    · exact ⟨ht.sameChain.blocks, ht.sameChain.checkpoint⟩

/-- After a reconciliation that returns, the state is clean. -/
theorem reconcile_ok {s t : ChainState} {u : Unit} (h : reconcileChainStateIfDirty E s = (t, .ok u)) :
    t.dirty = false ∧ t.blocks = s.blocks := by
  unfold reconcileChainStateIfDirty at h
  split at h
  · refine ⟨?_, ?_⟩
    · rcases recover_cases (E := E) s with ⟨e, h'⟩ | ⟨t', -, ⟨e, h'⟩ | ⟨u', -, h'⟩⟩ <;> rw [h'] at h <;>
        cases h
      rfl
    · simpa [h] using (recover_blocks (E := E) s).1
  · rename_i hd
    cases h
    exact ⟨by simpa using hd, rfl⟩

/-! ### Tip extension -/

theorem ExtendsTip.of_blocks {s t : ChainState} {b : Block} (h : ExtendsTip s b)
    (hb : t.blocks = s.blocks) : ExtendsTip t b := by
  unfold ExtendsTip getLastBlock getLatestBlockIndex highestBlockIndex at *
  rw [hb]
  exact h

theorem applyTip_reaches (now : ℕ) {mode : SignatureValidationMode} {s : ChainState} {b : Block}
    (hd : s.dirty = false) (ht : ExtendsTip s b) (hv : validateBlockInternal E now s mode b = .ok ())
    (hr : s.registry.blockHasReplayedTx E b = false) (hok : mode = .allowTruncatedStored → ok b) :
    Reaches E ok s (applyTip E mode s b).1 := by
  rcases h : applyTip E mode s b with ⟨s', r⟩
  cases r with
  | ok u =>
    refine .step (.extend hd ht hv hr h) ?_
    cases mode with
    | requireFull => trivial
    | allowTruncatedStored => exact hok rfl
  | error e =>
    unfold applyTip at h
    split at h
    · cases h
      exact .step (.applyFailed hd) trivial
    · simp at h

theorem noteIntegrity_same (now : ℕ) (s : ChainState) (b : Block) :
    SameChain s (noteIntegrity now s b) := by
  unfold noteIntegrity
  split <;> exact ⟨rfl, rfl, rfl, rfl⟩

theorem validateBlockInternal_noteIntegrity (now now' : ℕ) (mode : SignatureValidationMode)
    (s : ChainState) (b c : Block) :
    validateBlockInternal E now (noteIntegrity now' s c) mode b =
      validateBlockInternal E now s mode b := by
  unfold noteIntegrity
  split <;> rfl

theorem persist_reaches (now : ℕ) (mode : SignatureValidationMode) {s : ChainState} {b : Block}
    (ht : ExtendsTip s b) (hok : mode = .allowTruncatedStored → ok b) :
    Reaches E ok s (persistValidatedBlockWithMode E now mode s b).1 := by
  unfold persistValidatedBlockWithMode
  refine .andThen (reconcile_reaches s) fun _ t h => ?_
  obtain ⟨hd, hb⟩ := reconcile_ok h
  cases hg : persistGates E now mode t b with
  | error e => exact .refl t
  | ok u =>
    simp only [persistGates, bind_unit_eq_ok, ensure_eq_ok] at hg
    have hsame := noteIntegrity_same now t b
    refine (Reaches.step (.housekeep hsame) trivial).trans (.andThen ?_ fun _ u _ => .pool rfl)
    refine applyTip_reaches now (hsame.dirty.trans hd)
      (ht.of_blocks (hsame.blocks.trans hb)) ?_ ?_ hok
    · rw [validateBlockInternal_noteIntegrity]
      exact hg.1
    · rw [hsame.registry]
      exact hg.2.1

theorem applyTip_error_blocks {mode : SignatureValidationMode} {s s' : ChainState} {b : Block}
    {e : BlockchainError} (h : applyTip E mode s b = (s', .error e)) : s'.blocks = s.blocks := by
  unfold applyTip at h
  split at h
  · cases h
    rfl
  · simp at h

/-- A persist that fails leaves the canonical slots alone. -/
theorem persist_error_blocks {now : ℕ} {mode : SignatureValidationMode} {s s' : ChainState} {b : Block}
    {e : BlockchainError} (h : persistValidatedBlockWithMode E now mode s b = (s', .error e)) :
    s'.blocks = s.blocks := by
  unfold persistValidatedBlockWithMode at h
  rcases hr : reconcileChainStateIfDirty E s with ⟨t, r⟩
  have hb : t.blocks = s.blocks := by
    unfold reconcileChainStateIfDirty at hr
    split at hr
    · simpa [hr] using (recover_blocks (E := E) s).1
    · cases hr
      rfl
  rw [hr] at h
  cases r with
  | error e' =>
    cases h
    exact hb
  | ok u =>
    simp only [andThen] at h
    cases hg : persistGates E now mode t b with
    | error e' =>
      rw [hg] at h
      cases h
      exact hb
    | ok u =>
      rw [hg] at h
      rcases ha : applyTip E mode (noteIntegrity now t b) b with ⟨t', r'⟩
      rw [ha] at h
      cases r' with
      | error e' =>
        cases h
        rw [applyTip_error_blocks ha, (noteIntegrity_same now t b).blocks, hb]
      | ok u' => simp at h

/-! ### Promotion -/

theorem promoteChildren_reaches (now : ℕ) {tip : Block} :
    ∀ (cs : List Block) (s : ChainState), s.getLastBlock = some tip →
      (∀ c ∈ cs, c.index = tip.index + 1 ∧ c.previousHash = tip.hash) →
      Reaches E ok s (promoteChildren E now cs s).1
  | [], s, _, _ => .refl s
  | c :: cs, s, ht, hcs => by
    have hc := hcs c (by simp)
    have hext : ExtendsTip s c := by
      unfold ExtendsTip
      rw [ht]
      exact ⟨hc.2, .inl hc.1⟩
    have hp : Reaches E ok s _ := persist_reaches now .requireFull hext nofun
    unfold promoteChildren
    rcases h : persistValidatedBlockWithMode E now .requireFull s c with ⟨s', r⟩
    rw [h] at hp
    cases r with
    | ok u => exact hp
    | error e =>
      have ht' : (s'.removeOrphanByHash c.hash).getLastBlock = some tip := by
        have hb := persist_error_blocks h
        rw [← ht]
        exact congrArg List.getLast? hb
      have hpool : Reaches E ok s' (s'.removeOrphanByHash c.hash) := .pool rfl
      exact (hp.trans hpool).trans
        (promoteChildren_reaches now cs _ ht' fun c' hc' => hcs c' (by simp [hc']))

theorem promoteLoop_reaches (now : ℕ) :
    ∀ (rounds : ℕ) (s : ChainState), Reaches E ok s (promoteLoop E now rounds s)
  | 0, s => .refl s
  | rounds + 1, s => by
    unfold promoteLoop
    split
    · exact .refl s
    · rename_i tip ht
      have hp : Reaches E ok s _ := promoteChildren_reaches now ((s.orphanChildrenOf tip.hash).filter
        fun c => c.index = tip.index + 1 && c.previousHash = tip.hash) s ht (by simp)
      split
      · rename_i s' h
        rw [h] at hp
        exact hp.trans (promoteLoop_reaches now rounds s')
      · rename_i s' h
        rw [h] at hp
        exact hp

theorem promote_reaches (now : ℕ) (s : ChainState) : Reaches E ok s (promoteOrphansFromTip E now s) :=
  (promoteLoop_reaches now 256 s).trans (.pool (pruneOrphansAt_frame now _ _))

/-! ### Reorganisation -/

theorem commitBranch_ne_false {now forkStart oldTip : ℕ} {s s' : ChainState} {branch : List Block}
    {branchTip : Block} : s.commitBranch E now forkStart oldTip branch branchTip ≠ (s', .ok false) := by
  unfold commitBranch
  dsimp only
  split <;> simp

/-- A rejected branch changes the witness memo at most. -/
theorem adopt_rejected {now : ℕ} {s s' : ChainState} {branch : List Block} {tip : Block}
    (h : adoptBranchIfValid E now s branch tip = (s', .ok false)) :
    s' = { s with witnessBlocked := s'.witnessBlocked } := by
  unfold adoptBranchIfValid at h
  split at h
  · split_ifs at h
    · cases h
      rfl
    · cases h
      rfl
    · cases h
      rfl
    · split at h
      · cases h
      · cases h
        rfl
      · cases h
        rfl
    · split at h
      · cases h
      · cases h
        rfl
      · exact absurd h commitBranch_ne_false
  · cases h
    rfl

theorem adoptFirst_reaches (now : ℕ) (tip : Block) :
    ∀ (branches : List (List Block)) (s : ChainState), s.dirty = false → s.getLastBlock = some tip →
      (∀ branch ∈ branches, ∃ r ∈ s.rankedBranches tip, r.branch = branch) →
      Reaches E ok s (adoptFirst E now tip branches s).1
  | [], s, _, _, _ => .refl s
  | branch :: rest, s, hd, ht, hr => by
    obtain ⟨r, hmem, rfl⟩ := hr branch (by simp)
    unfold adoptFirst
    rcases h : adoptBranchIfValid E now s r.branch tip with ⟨s', res⟩
    rcases res with e | ok
    · exact .step (.adoptFailed hd ht hmem h) trivial
    · cases ok with
      | true => exact .step (.adopt hd ht hmem h) trivial
      | false =>
        have hs' := adopt_rejected h
        have hsame : SameChain s s' := by constructor <;> rw [hs']
        refine (Reaches.step (.housekeep hsame) trivial).trans
          (adoptFirst_reaches now tip rest s' ?_ ?_ fun b hb => ?_)
        · rw [hs']
          exact hd
        · rw [hs']
          exact ht
        · rw [hs']
          exact hr b (by simp [hb])

theorem tryAdopt_reaches (now : ℕ) (s : ChainState) :
    Reaches E ok s (tryAdoptOrphanBranch E now s).1 := by
  unfold tryAdoptOrphanBranch
  refine .andThen (reconcile_reaches s) fun _ t h => ?_
  split
  · exact .refl t
  · rename_i tip ht
    refine adoptFirst_reaches now tip _ t (reconcile_ok h).1 ht fun branch hb => ?_
    obtain ⟨r, hr, rfl⟩ := List.mem_map.mp hb
    exact ⟨r, List.mem_of_mem_take hr, rfl⟩

/-- If the best-ranked branch passes every gate, it is adopted. -/
theorem tryAdopt_of_first {now : ℕ} {s s' : ChainState} {tip : Block} {branch : List Block}
    {rest : List (List Block)} (hd : s.dirty = false) (ht : s.getLastBlock = some tip)
    (hr : ((s.rankedBranches tip).take maxReorgAdoptAttempts).map (·.branch) = branch :: rest)
    (ha : adoptBranchIfValid E now s branch tip = (s', .ok true)) :
    tryAdoptOrphanBranch E now s = (s', .ok true) := by
  simp only [tryAdoptOrphanBranch, reconcileChainStateIfDirty, hd, Bool.false_eq_true, if_false,
    Alphanumeric.andThen, ht, hr, adoptFirst, ha]

theorem adoptExternal_reaches (now : ℕ) (s : ChainState) (branch : List Block) :
    Reaches E ok s (adoptExternalBranch E now s branch).1 := by
  unfold adoptExternalBranch
  split
  · exact .refl s
  · exact (Reaches.pool (foldl_frame (storeOrphanBlock_frame now) branch s)).trans
      (tryAdopt_reaches now _)

/-! ### The entries -/

theorem extendsTip_of_placement {s : ChainState} {b : Block} (h : s.placement b = .extendsTip) :
    ExtendsTip s b := by
  unfold placement at h
  unfold ExtendsTip
  cases ht : s.getLastBlock with
  | none =>
    simp only [ht] at h
    split_ifs at h with h'
    exact h'
  | some tip =>
    simp only [ht] at h
    split_ifs at h with _ _ h'
    exact ⟨h'.2, .inr h'.1⟩

theorem saveBlockWithMode_reaches (now : ℕ) (mode : SignatureValidationMode) (s : ChainState)
    (b : Block) (hok : mode = .allowTruncatedStored → ok b) :
    Reaches E ok s (saveBlockWithMode E now mode s b).1 := by
  unfold saveBlockWithMode
  split
  · exact .refl s
  · refine .andThen (reconcile_reaches s) fun _ t _ => ?_
    split
    · exact .refl t
    · exact .andThen ((Reaches.pool (storeOrphanBlock_frame now t b)).trans (tryAdopt_reaches now _))
        fun _ u _ => .refl u
    · rename_i hp
      refine .andThen (persist_reaches now mode (extendsTip_of_placement hp) hok) fun _ u _ => ?_
      exact .andThen ((promote_reaches now u).trans (tryAdopt_reaches now _)) fun _ v _ => .refl v

theorem attempt_reaches {s : ChainState} {x : Res ChainState}
    (h : ∀ s', x = .ok s' → SameIndexFrame s s') : Reaches E ok s (s.attempt x).1 := by
  unfold attempt
  split
  · rename_i s'
    exact .step (.housekeep (h s' rfl).sameChain) trivial
  · exact .refl s

theorem finalizeBlock_reaches (now : ℕ) (s : ChainState) (b : Block) :
    Reaches E ok s (finalizeBlock E now s b).1 := by
  unfold finalizeBlock
  refine .andThen (reconcile_reaches s) fun _ t h => ?_
  have hd := (reconcile_ok h).1
  split
  · exact .refl t
  rename_i hp
  split
  · exact .refl t
  rename_i hv
  split
  · exact .refl t
  rename_i hr
  refine .andThen (attempt_reaches fun _ => balancesForRead_frame) fun _ u hu => ?_
  split_ifs
  · exact .refl u
  have hframe : SameIndexFrame t u := by
    unfold attempt at hu
    split at hu
    · cases hu
      exact balancesForRead_frame ‹_›
    · simp at hu
  have hsame := hframe.sameChain
  refine .andThen (applyTip_reaches now (hsame.dirty.trans hd)
    ((extendsTip_of_placement (not_not.mp hp)).of_blocks hsame.blocks) ?_ ?_ nofun)
    fun _ v _ => promote_reaches now v
  · rw [hframe]
    exact hv
  · rw [hsame.registry]
    simpa using hr

/-- The entries of the engine, each with the clock it reads. -/
inductive ChainOp where
  | saveBlock (now : ℕ) (b : Block)
  | saveReceiptVerifiedBlock (now : ℕ) (b : Block)
  | finalizeBlock (now : ℕ) (b : Block)
  | adoptExternalBranch (now : ℕ) (branch : List Block)
  | tryAdoptOrphanBranch (now : ℕ)
  | rebuildConfirmedTxIndex
  | raiseTrustedCheckpoint (height : ℕ)
  | seedTrustedCheckpointIfUnset
  | advanceCheckpointBehind (height : ℕ)

variable (E) in
/-- The state an entry leaves, whatever it answers. -/
def ChainOp.run (s : ChainState) : ChainOp → ChainState
  | .saveBlock now b => (ChainState.saveBlock E now s b).1
  | .saveReceiptVerifiedBlock now b => (ChainState.saveReceiptVerifiedBlock E now s b).1
  | .finalizeBlock now b => (ChainState.finalizeBlock E now s b).1
  | .adoptExternalBranch now branch => (ChainState.adoptExternalBranch E now s branch).1
  | .tryAdoptOrphanBranch now => (ChainState.tryAdoptOrphanBranch E now s).1
  | .rebuildConfirmedTxIndex => (s.attempt (ChainState.rebuildConfirmedTxIndex E s)).1
  | .raiseTrustedCheckpoint height => s.raiseTrustedCheckpoint height
  | .seedTrustedCheckpointIfUnset => s.seedTrustedCheckpointIfUnset
  | .advanceCheckpointBehind height => s.advanceCheckpointBehind height

/-- The block an entry may append on its receipts. -/
def ChainOp.receipts : ChainOp → Block → Prop
  | .saveReceiptVerifiedBlock _ b => (· = b)
  | _ => fun _ => False

/-- **Every entry is a run of engine steps**, and trusts no receipts but those of the block
given to `save_receipt_verified_block`. -/
theorem chainOp_reaches (s : ChainState) (op : ChainOp) : Reaches E op.receipts s (op.run E s) := by
  cases op with
  | saveBlock now b => exact saveBlockWithMode_reaches now .requireFull s b nofun
  | saveReceiptVerifiedBlock now b =>
    exact saveBlockWithMode_reaches now .allowTruncatedStored s b fun _ => rfl
  | finalizeBlock now b => exact finalizeBlock_reaches now s b
  | adoptExternalBranch now branch => exact adoptExternal_reaches now s branch
  | tryAdoptOrphanBranch now => exact tryAdopt_reaches now s
  | rebuildConfirmedTxIndex =>
    unfold ChainOp.run attempt
    dsimp only
    split
    · exact .step (.rebuild ‹_›) trivial
    · exact .refl s
  | raiseTrustedCheckpoint height => exact .step (.raise height) trivial
  | seedTrustedCheckpointIfUnset => exact .step .seed trivial
  | advanceCheckpointBehind height => exact .step (.raise _) trivial

variable (E) in
/-- A run of entries, with the trace of the engine steps they take. -/
inductive OpRun : ChainState → List (ChainState × EngineEvent) → ChainState → Prop
  | nil (s : ChainState) : OpRun s [] s
  | snoc {s t : ChainState} {tr tr' : List (ChainState × EngineEvent)} (op : ChainOp) :
    OpRun s tr t → EngineRun E t tr' (op.run E t) → OpRun s (tr ++ tr') (op.run E t)

theorem OpRun.engineRun {s t : ChainState} {tr : List (ChainState × EngineEvent)}
    (h : OpRun E s tr t) : EngineRun E s tr t := by
  induction h with
  | nil => exact .nil _
  | snoc op _ h' ih => exact ih.trans h'

/-- Any sequence of entries is such a run. -/
theorem opRun_exists (s : ChainState) :
    ∀ ops : List ChainOp, ∃ tr, OpRun E s tr (ops.foldl (fun t op => op.run E t) s) := by
  intro ops
  induction ops using List.reverseRecOn with
  | nil => exact ⟨[], .nil s⟩
  | append_singleton ops op ih =>
    obtain ⟨tr, h⟩ := ih
    obtain ⟨tr', h', -⟩ := chainOp_reaches (E := E) (ops.foldl (fun t op => op.run E t) s) op
    rw [List.foldl_append]
    exact ⟨tr ++ tr', .snoc op h h'⟩

/-- The run of one reorg to the best-ranked branch. -/
theorem opRun_of_first {now : ℕ} {s : ChainState} {tip : Block} {branch : List Block}
    (rest : List (List Block)) (hd : s.dirty = false) (ht : s.getLastBlock = some tip)
    (hr : ((s.rankedBranches tip).take maxReorgAdoptAttempts).map (·.branch) = branch :: rest)
    (ha : (adoptBranchIfValid E now s branch tip).2 = .ok true) :
    OpRun E s [(s, .adopted branch)] (adoptBranchIfValid E now s branch tip).1 := by
  obtain ⟨r, hmem, rfl⟩ := List.mem_map.mp (hr ▸ List.mem_cons_self : branch ∈ _)
  rcases hadopt : adoptBranchIfValid E now s r.branch tip with ⟨s', res⟩
  obtain rfl : res = .ok true := by simpa [hadopt] using ha
  have hstep : EngineStep E s (.adopted r.branch) s' :=
    .adopt hd ht (List.mem_of_mem_take hmem) hadopt
  have hrun : (ChainOp.tryAdoptOrphanBranch now).run E s = s' := by
    simp only [ChainOp.run, tryAdopt_of_first hd ht hr hadopt]
  exact hrun ▸ OpRun.snoc (.tryAdoptOrphanBranch now) (.nil s) (hrun.symm ▸ .single hstep)

/-- The small fork reorganises to its heavier branch. -/
theorem Toy.honest_reorg :
    OpRun toyEnv (Toy.fork [Toy.c2, Toy.c3 []])
      [(Toy.fork [Toy.c2, Toy.c3 []], .adopted [Toy.c2, Toy.c3 []])]
      (adoptBranchIfValid toyEnv Toy.now (Toy.fork [Toy.c2, Toy.c3 []])
        [Toy.c2, Toy.c3 []] Toy.b2).1 :=
  opRun_of_first [] (by decide +kernel) (by decide +kernel) (by decide +kernel)
    (by decide +kernel)

end Alphanumeric
