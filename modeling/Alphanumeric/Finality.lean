/-
# Fork choice only improves, and finality holds

A chain is scored by its total work and, at equal work and height, by a lower tip
hash. An extension adds the work of one block, and an adopted branch beats the suffix
it replaces, so every change of the canonical slots improves the score and no chain
that was replaced comes back. The checkpoint is raised only to a height the margin
behind the tip, and a branch may fork only above it, so it stays at or below the tip
and the blocks under it are never touched.

Key definitions: `Improves`, `FinalityInv`, `Succeeds`.
Key theorems: `StepEffect.improves`, `StepEffect.succeeds`,
`fork_choice_improves_and_respects_finality`.
-/
import Alphanumeric.Chain

namespace Alphanumeric

open Guard BlockchainError ChainState

variable {E : Env}

/-! ### The score of a chain -/

/-- `new` is a better chain than `old`: more work, or the same work at the same height with
a lower tip hash. -/
def Improves (old new : List Block) : Prop :=
  totalWork old < totalWork new ∨
    totalWork new = totalWork old ∧ new.length = old.length ∧
      ∃ oldTip newTip, old.getLast? = some oldTip ∧ new.getLast? = some newTip ∧
        newTip.hash < oldTip.hash

/-- The headers a chain is identified by: difficulty and hash at each height. -/
def headers (chain : List Block) : List (ℕ × Hash) := chain.map fun b => (b.difficulty, b.hash)

theorem blockWork_pos (b : Block) : 0 < blockWork b := Nat.two_pow_pos _

theorem Improves.work_le {old new : List Block} (h : Improves old new) :
    totalWork old ≤ totalWork new := by
  rcases h with h | ⟨h, -⟩ <;> omega

theorem Improves.trans {a b c : List Block} (h : Improves a b) (h' : Improves b c) : Improves a c := by
  rcases h with h | ⟨hw, hl, x, y, hx, hy, hxy⟩
  · exact .inl (lt_of_lt_of_le h h'.work_le)
  · rcases h' with h' | ⟨hw', hl', y', z, hy', hz, hyz⟩
    · exact .inl (by omega)
    · obtain rfl : y = y' := by simpa [hy] using hy'
      exact .inr ⟨hw'.trans hw, hl'.trans hl, x, z, hx, hz, Fin.lt_trans hyz hxy⟩

theorem totalWork_of_headers {a b : List Block} (h : headers a = headers b) :
    totalWork a = totalWork b := by
  have : ∀ c : List Block, totalWork c = ((headers c).map fun p => workUnitsForDifficulty p.1).sum := by
    intro c
    simp only [totalWork, headers, List.map_map]
    rfl
  rw [this a, this b, h]

/-- A better chain is another chain. -/
theorem Improves.headers_ne {old new : List Block} (h : Improves old new) :
    headers new ≠ headers old := by
  intro heq
  have hw := totalWork_of_headers heq
  rcases h with h | ⟨-, -, x, y, hx, hy, hxy⟩
  · omega
  · have hlast : (headers new).getLast?.map (·.2) = (headers old).getLast?.map (·.2) := by rw [heq]
    simp only [headers, List.getLast?_map, hx, hy, Option.map_some, Option.some.injEq] at hlast
    exact absurd hlast (Fin.ne_of_lt hxy)

theorem beats_improves {s : ChainState} {tip first branchTip : Block} {branch : List Block}
    (hs : Slotted s.blocks) (ht : s.blocks.getLast? = some tip)
    (h : s.Contender tip first branchTip branch) :
    Improves s.blocks (s.blocks.take first.index ++ branch.map (toStorageBlock E)) := by
  have hsplit : totalWork s.blocks =
      totalWork (s.blocks.take first.index) + totalWork (s.blocks.drop first.index) := by
    rw [← totalWork_append, List.take_append_drop]
  have hbeats := h.beats
  simp only [beatsCanonical, Bool.or_eq_true, Bool.and_eq_true, decide_eq_true_eq] at hbeats
  rcases hbeats with hgt | ⟨⟨heq, hidx⟩, hhash⟩
  · left
    rw [totalWork_append, totalWork_map_toStorageBlock]
    omega
  · right
    refine ⟨?_, ?_, tip, toStorageBlock E branchTip, ht, ?_, hhash⟩
    · rw [totalWork_append, totalWork_map_toStorageBlock]
      omega
    · have hlt := Contender.fork_le h hs ht
      have htip := hs.lastIndex ht
      have hlast := linked_last_index h.path.linked h.path.head h.last
      simp only [List.length_append, List.length_take, List.length_map]
      omega
    · simp [List.getLast?_append, List.getLast?_map, h.last]

/-- A step leaves the slots as they are or improves them. -/
theorem StepEffect.improves {s s' : ChainState} {ev : EngineEvent} (h : StepEffect E s ev s')
    (hs : Slotted s.blocks) : s'.blocks = s.blocks ∨ Improves s.blocks s'.blocks := by
  cases h with
  | extended _ _ _ _ hb _ _ =>
    right
    left
    rw [hb, totalWork_append]
    have := blockWork_pos (toStorageBlock E ‹Block›)
    simp only [totalWork, List.map_cons, List.map_nil, List.sum_cons, List.sum_nil]
    omega
  | adopted ht hcont _ hb _ _ =>
    rw [hb]
    exact .inr (beats_improves hs ht hcont)
  | rederived _ hb _ _ => exact .inl hb
  | emptied hnil hb _ _ => exact .inl (by rw [hb, hnil])
  | raised height => exact .inl (raiseTrustedCheckpoint_blocks s height)
  | seeded => exact .inl (seedTrustedCheckpointIfUnset_blocks s)
  | unchanged hb _ _ => exact .inl hb

/-! ### The checkpoint -/

/-- The slots hold their heights, and the checkpoint is at most the tip. -/
structure FinalityInv (s : ChainState) : Prop where
  slotted : Slotted s.blocks
  checkpoint_le : s.trustedCheckpointHeight ≤ s.getLatestBlockIndex

/-- What a step and a run leave: no less work, a checkpoint that is no lower, and every
block at or below the old checkpoint in place. -/
structure Succeeds (s s' : ChainState) : Prop where
  work : totalWork s.blocks ≤ totalWork s'.blocks
  checkpoint : s.trustedCheckpointHeight ≤ s'.trustedCheckpointHeight
  finalized : ∀ (h : ℕ) (b : Block), h ≤ s.trustedCheckpointHeight → s.blocks[h]? = some b →
    s'.blocks[h]? = some b

theorem Succeeds.refl (s : ChainState) : Succeeds s s := ⟨le_rfl, le_rfl, fun _ _ _ h => h⟩

theorem Succeeds.trans {s t u : ChainState} (h : Succeeds s t) (h' : Succeeds t u) : Succeeds s u where
  work := h.work.trans h'.work
  checkpoint := h.checkpoint.trans h'.checkpoint
  finalized i b hi hb := h'.finalized i b (hi.trans h.checkpoint) (h.finalized i b hi hb)

theorem checkpointHeight_congr {s s' : ChainState} (h : s'.trustedCheckpoint = s.trustedCheckpoint) :
    s'.trustedCheckpointHeight = s.trustedCheckpointHeight := by
  unfold trustedCheckpointHeight
  rw [h]

theorem raise_checkpointHeight (s : ChainState) (height : ℕ) :
    (s.raiseTrustedCheckpoint height).trustedCheckpointHeight =
      max s.trustedCheckpointHeight (min height (s.getLatestBlockIndex - checkpointReorgMargin)) := by
  unfold raiseTrustedCheckpoint
  dsimp only
  split_ifs with h
  · simp only [trustedCheckpointHeight, Option.getD_some] at h ⊢
    omega
  · omega

theorem seed_checkpointHeight (s : ChainState) :
    s.trustedCheckpointHeight ≤ s.seedTrustedCheckpointIfUnset.trustedCheckpointHeight ∧
      s.seedTrustedCheckpointIfUnset.trustedCheckpointHeight ≤
        max s.trustedCheckpointHeight (s.getLatestBlockIndex - checkpointReorgMargin) := by
  unfold seedTrustedCheckpointIfUnset
  split
  · omega
  · rename_i h
    simp [trustedCheckpointHeight, h]

theorem latestIndex_congr {s s' : ChainState} (h : s'.blocks = s.blocks) :
    s'.getLatestBlockIndex = s.getLatestBlockIndex := by
  rw [getLatestBlockIndex_eq, getLatestBlockIndex_eq, h]

theorem StepEffect.succeeds {s s' : ChainState} {ev : EngineEvent} (h : StepEffect E s ev s')
    (hs : FinalityInv s) : Succeeds s s' := by
  have hwork : totalWork s.blocks ≤ totalWork s'.blocks := by
    rcases h.improves hs.slotted with h | h
    · rw [h]
    · exact h.work_le
  cases h with
  | extended _ _ _ _ hb _ hc =>
    refine ⟨hwork, (checkpointHeight_congr hc).ge, fun i c _ hi => ?_⟩
    rw [hb, List.getElem?_append_left (List.getElem?_eq_some_iff.mp hi).1]
    exact hi
  | @adopted _ tip first branchTip branch _ ht hcont hgates hb _ hc =>
    refine ⟨hwork, (checkpointHeight_congr hc).ge, fun i c hle hi => ?_⟩
    have hfork := Contender.fork_le hcont hs.slotted ht
    have hi' : i < first.index := lt_of_le_of_lt hle hgates.finality
    have hlt : i < (s.blocks.take first.index).length := by
      rw [List.length_take]
      omega
    rw [hb, List.getElem?_append_left hlt, List.getElem?_take, if_pos hi']
    exact hi
  | rederived _ hb _ hc => exact ⟨hwork, (checkpointHeight_congr hc).ge, fun i c _ hi => hb ▸ hi⟩
  | emptied hnil hb _ hc =>
    exact ⟨hwork, (checkpointHeight_congr hc).ge, fun i c _ hi => by simp [hnil] at hi⟩
  | raised height =>
    refine ⟨hwork, ?_, fun i c _ hi => by rw [raiseTrustedCheckpoint_blocks]; exact hi⟩
    rw [raise_checkpointHeight]
    exact le_max_left _ _
  | seeded =>
    exact ⟨hwork, (seed_checkpointHeight s).1,
      fun i c _ hi => by rw [seedTrustedCheckpointIfUnset_blocks]; exact hi⟩
  | unchanged hb _ hc => exact ⟨hwork, (checkpointHeight_congr hc).ge, fun i c _ hi => hb ▸ hi⟩

theorem StepEffect.finalityInv {s s' : ChainState} {ev : EngineEvent} (h : StepEffect E s ev s')
    (hs : FinalityInv s) : FinalityInv s' := by
  refine ⟨h.slotted hs.slotted, ?_⟩
  have hle := hs.checkpoint_le
  cases h with
  | extended _ _ _ _ hb _ hc =>
    rw [checkpointHeight_congr hc, getLatestBlockIndex_eq, hb]
    rw [getLatestBlockIndex_eq] at hle
    simp only [List.length_append, List.length_cons, List.length_nil]
    omega
  | @adopted _ tip first branchTip branch _ ht hcont hgates hb _ hc =>
    -- the new tip is at least the fork height, and the fork lies above the checkpoint
    have hlt := Contender.fork_le hcont hs.slotted ht
    have hfin := hgates.finality
    have hpos : 0 < branch.length := by
      have := hcont.path.head
      cases branch <;> simp_all
    rw [checkpointHeight_congr hc, getLatestBlockIndex_eq, hb]
    simp only [List.length_append, List.length_take, List.length_map]
    omega
  | rederived _ hb _ hc => rw [checkpointHeight_congr hc, latestIndex_congr hb]; exact hle
  | emptied hnil hb _ hc =>
    rw [checkpointHeight_congr hc, latestIndex_congr (hb.trans hnil.symm)]
    exact hle
  | raised height =>
    rw [raise_checkpointHeight, latestIndex_congr (raiseTrustedCheckpoint_blocks s height)]
    omega
  | seeded =>
    have := (seed_checkpointHeight s).2
    rw [latestIndex_congr (seedTrustedCheckpointIfUnset_blocks s)]
    omega
  | unchanged hb _ hc => rw [checkpointHeight_congr hc, latestIndex_congr hb]; exact hle

/-! ### Runs -/

theorem run_succeeds {s t : ChainState} {tr : List (ChainState × EngineEvent)} (h : EngineRun E s tr t)
    (hs : FinalityInv s) : Succeeds s t :=
  h.relates (I := FinalityInv) Succeeds.refl (fun _ _ _ => Succeeds.trans)
    (fun _ _ _ hi hstep => (stepEffect_of_step hi.slotted hstep).finalityInv hi)
    (fun _ _ _ hi hstep => (stepEffect_of_step hi.slotted hstep).succeeds hi) hs

theorem run_finalityInv {s t : ChainState} {tr : List (ChainState × EngineEvent)}
    (h : EngineRun E s tr t) (hs : FinalityInv s) : FinalityInv t := by
  refine Trace.Run.invariant (I := FinalityInv) (C := fun _ _ => True) ?_ h hs (by simp)
  intro a ev b hi _ hstep
  exact (stepEffect_of_step hi.slotted hstep).finalityInv hi

theorem run_improves {s t : ChainState} {tr : List (ChainState × EngineEvent)} (h : EngineRun E s tr t)
    (hs : FinalityInv s) : t.blocks = s.blocks ∨ Improves s.blocks t.blocks := by
  refine h.relates (I := FinalityInv)
    (R := fun s t => t.blocks = s.blocks ∨ Improves s.blocks t.blocks) (fun _ => .inl rfl) ?_
    (fun _ _ _ hi hstep => (stepEffect_of_step hi.slotted hstep).finalityInv hi)
    (fun _ _ _ hi hstep => (stepEffect_of_step hi.slotted hstep).improves hi.slotted) hs
  rintro a b c (hab | hab) (hbc | hbc)
  · exact .inl (hbc.trans hab)
  · exact .inr (hab ▸ hbc)
  · exact .inr (hbc ▸ hab)
  · exact .inr (hab.trans hbc)

/-- **Fork choice only improves, and respects finality.** Along every run of the engine's
entries from a chain whose checkpoint is at most its tip: the work never decreases, the
checkpoint never decreases and never passes the tip, and the blocks at or below it stay.
Every reorg of the run that changes the slots raises the work, or keeps it with the same
height and a lower tip hash, and the chain it replaced is never canonical again. -/
theorem fork_choice_improves_and_respects_finality {s₀ s : ChainState}
    {tr : List (ChainState × EngineEvent)} (h₀ : FinalityInv s₀) (h : OpRun E s₀ tr s) :
    (totalWork s₀.blocks ≤ totalWork s.blocks ∧
      s₀.trustedCheckpointHeight ≤ s.trustedCheckpointHeight ∧
      s.trustedCheckpointHeight ≤ s.getLatestBlockIndex ∧
      ∀ (i : ℕ) (b : Block), i ≤ s₀.trustedCheckpointHeight → s₀.blocks[i]? = some b →
        s.blocks[i]? = some b) ∧
    ∀ (tr₁ tr₂ : List (ChainState × EngineEvent)) (t t' : ChainState) (branch : List Block),
      EngineRun E s₀ tr₁ t → EngineStep E t (.adopted branch) t' → EngineRun E t' tr₂ s →
      t'.blocks = t.blocks ∨ Improves t.blocks t'.blocks ∧ headers s.blocks ≠ headers t.blocks := by
  have hsucc := run_succeeds h.engineRun h₀
  refine ⟨⟨hsucc.work, hsucc.checkpoint, (run_finalityInv h.engineRun h₀).checkpoint_le,
    hsucc.finalized⟩, fun tr₁ tr₂ t t' branch h₁ hstep h₂ => ?_⟩
  have ht := run_finalityInv h₁ h₀
  have heffect := stepEffect_of_step ht.slotted hstep
  rcases heffect.improves ht.slotted with heq | himp
  · exact .inl heq
  · refine .inr ⟨himp, ?_⟩
    rcases run_improves h₂ (heffect.finalityInv ht) with heq | himp'
    · rw [heq]
      exact himp.headers_ne
    · exact (himp.trans himp').headers_ne

theorem honest_reorg_improves :
    totalWork [Toy.genesis, Toy.b1, Toy.b2] ≤
      totalWork (adoptBranchIfValid toyEnv Toy.now (Toy.fork [Toy.c2, Toy.c3 []])
        [Toy.c2, Toy.c3 []] Toy.b2).1.blocks :=
  (fork_choice_improves_and_respects_finality ⟨by decide +kernel, by decide +kernel⟩
    Toy.honest_reorg).1.1

end Alphanumeric
