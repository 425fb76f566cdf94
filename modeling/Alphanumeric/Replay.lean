/-
# Replay protection over whole runs

The registry must know every canonical transaction that a block on the tip could
still carry. Its entries always name a canonical height (`RegistrySound`), whatever
the engine does. That every replayable transaction is listed, and that no id is
canonical twice, holds along the runs whose reorgs are clean (`AdoptionClean`): the
adopted branch has no id in two of its blocks, and every transaction it keeps below
the fork that the registry no longer lists is too old for every block of the branch.
Both conditions are needed: `adopt_branch_if_valid` compares a branch with the registry
of the chain it replaces and never with itself, and pruning follows the tip timestamp,
which a reorg may move back.

Key definitions: `NoReplay`, `RegistrySound`, `AdoptionClean`, `ReplayStart`, `ReplayInv`.
Key theorems: `StepEffect.registrySound`, `StepEffect.replayInv`, `no_replay_on_any_path`,
`registry_lists_replayable`.
-/
import Alphanumeric.Finality

namespace Alphanumeric

open Guard BlockchainError ChainState

variable {E : Env}

/-! ### The properties -/

/-- The ids of a block's non-system transactions. -/
def blockIds (E : Env) (b : Block) : List Text := regularIds E b.transactions

@[simp] theorem blockIds_toStorageBlock (b : Block) : blockIds E (toStorageBlock E b) = blockIds E b :=
  regularIds_toStorageBlock E b

/-- No non-system id stands in two blocks. -/
def NoReplay (E : Env) (chain : List Block) : Prop :=
  chain.Pairwise fun a b => ∀ id ∈ blockIds E a, id ∉ blockIds E b

instance (chain : List Block) : Decidable (NoReplay E chain) :=
  inferInstanceAs (Decidable (List.Pairwise _ chain))

/-- Every entry names a canonical height of its id, and every index key a canonical block. -/
structure RegistrySound (E : Env) (chain : List Block) (r : Registry) : Prop where
  entry : ∀ id h, r.entry id = some h → ∃ b, chain[h]? = some b ∧ id ∈ blockIds E b
  index : ∀ ts id, (ts, id) ∈ r.index → ∃ b ∈ chain, b.timestamp = ts ∧ id ∈ blockIds E b

/-- The registry lists exactly the chain's transactions. -/
structure RegistryExact (E : Env) (chain : List Block) (r : Registry) : Prop where
  entry : ∀ id h, r.entry id = some h ↔ ∃ b, chain[h]? = some b ∧ id ∈ blockIds E b
  index : ∀ ts id, (ts, id) ∈ r.index ↔ ∃ b ∈ chain, b.timestamp = ts ∧ id ∈ blockIds E b

/-- A block extending a tip with timestamp `tipTs` could still carry `tx`. -/
def Replayable (tipTs : ℕ) (tx : Transaction) : Prop := tipTs ≤ tx.timestamp + maxTxAgeSecs

/-- Every canonical transaction is listed at its height, or too old for a block on the tip. -/
def Covered (E : Env) (chain : List Block) (r : Registry) (tipTs : ℕ) : Prop :=
  ∀ (h : ℕ) (b : Block), chain[h]? = some b → ∀ tx ∈ b.transactions, tx.isCoinbase = false →
    r.entry (getTxId E tx) = some h ∨ ¬ Replayable tipTs tx

/-- Transactions are dated at most `maxBlockFutureTime` ahead of their block. -/
def Dated (chain : List Block) : Prop :=
  ∀ b ∈ chain, ∀ tx ∈ b.transactions, tx.isCoinbase = false →
    tx.timestamp ≤ b.timestamp + maxBlockFutureTime

instance (chain : List Block) : Decidable (Dated chain) :=
  inferInstanceAs (Decidable (∀ b ∈ chain, ∀ tx ∈ b.transactions, tx.isCoinbase = false →
    tx.timestamp ≤ b.timestamp + maxBlockFutureTime))

/-- A reorg is clean: the branch repeats no id among its blocks, and the transactions kept
below the fork that the registry does not list are too old for every block of the branch. -/
def AdoptionClean (E : Env) (s : ChainState) : EngineEvent → Prop
  | .adopted branch =>
    NoReplay E branch ∧ ∀ first ∈ branch.head?, ∀ b ∈ s.blocks.take first.index,
      ∀ tx ∈ b.transactions, tx.isCoinbase = false → s.registry.entry (getTxId E tx) = none →
      ∀ c ∈ branch, tx.timestamp + maxTxAgeSecs < c.timestamp
  | _ => True

/-- A node's chain with no repeated id and a registry that lists exactly its transactions. -/
structure ReplayStart (E : Env) (s : ChainState) : Prop where
  nonempty : s.blocks ≠ []
  slotted : Slotted s.blocks
  dated : Dated s.blocks
  noReplay : NoReplay E s.blocks
  registry : RegistryExact E s.blocks s.registry

structure ReplayInv (E : Env) (s : ChainState) : Prop where
  nonempty : s.blocks ≠ []
  slotted : Slotted s.blocks
  dated : Dated s.blocks
  noReplay : NoReplay E s.blocks
  sound : RegistrySound E s.blocks s.registry
  covered : ∀ tip, s.blocks.getLast? = some tip → Covered E s.blocks s.registry tip.timestamp

/-! ### Chains without a repeated id -/

theorem noReplay_height {chain : List Block} (h : NoReplay E chain) {i j : ℕ} {a b : Block}
    {id : Text} (hi : chain[i]? = some a) (hj : chain[j]? = some b) (ha : id ∈ blockIds E a)
    (hb : id ∈ blockIds E b) : i = j := by
  obtain ⟨hi', rfl⟩ := List.getElem?_eq_some_iff.mp hi
  obtain ⟨hj', rfl⟩ := List.getElem?_eq_some_iff.mp hj
  have hp := List.pairwise_iff_getElem.mp h
  rcases Nat.lt_trichotomy i j with hlt | heq | hgt
  · exact absurd hb (hp i j hi' hj' hlt id ha)
  · exact heq
  · exact absurd ha (hp j i hj' hi' hgt id hb)

theorem noReplay_append {xs ys : List Block} (hx : NoReplay E xs) (hy : NoReplay E ys)
    (hxy : ∀ a ∈ xs, ∀ b ∈ ys, ∀ id ∈ blockIds E a, id ∉ blockIds E b) : NoReplay E (xs ++ ys) :=
  List.pairwise_append.mpr ⟨hx, hy, hxy⟩

theorem noReplay_map_toStorageBlock {bs : List Block} :
    NoReplay E (bs.map (toStorageBlock E)) ↔ NoReplay E bs := by
  simp [NoReplay, List.pairwise_map]

theorem mem_blockIds_of_mem {b : Block} {tx : Transaction} (h : tx ∈ b.transactions)
    (hcb : tx.isCoinbase = false) : getTxId E tx ∈ blockIds E b :=
  mem_regularIds.mpr ⟨tx, h, hcb, rfl⟩

/-! ### The registry is sound after every step -/

theorem RegistrySound.prune {chain : List Block} {r : Registry} (h : RegistrySound E chain r)
    (ts : ℕ) : RegistrySound E chain (r.pruneConfirmedTxs ts) where
  entry id i hi := h.entry id i (Registry.prune_entry_eq_some.mp hi).1
  index t id hk := h.index t id (Registry.mem_prune_index.mp hk).1

/-- Recording blocks that sit on top of `chain` keeps the registry sound. -/
theorem RegistrySound.recordAll {chain : List Block} {r : Registry} (branch : List Block)
    (h : RegistrySound E chain r)
    (hidx : ∀ b ∈ branch, ∃ c, (chain ++ branch.map (toStorageBlock E))[b.index]? = some c ∧
      blockIds E c = blockIds E b) :
    RegistrySound E (chain ++ branch.map (toStorageBlock E))
      (branch.foldl (Registry.recordConfirmedTxs E) r) where
  entry id i hi := by
    by_cases hmem : ∃ b ∈ branch, id ∈ regularIds E b.transactions
    · obtain ⟨b, hb, hid, he⟩ := Registry.recordAll_entry_of_mem branch r hmem
      obtain ⟨c, hc, hids⟩ := hidx b hb
      rw [he, Option.some.injEq] at hi
      exact ⟨c, hi ▸ hc, hids ▸ hid⟩
    · push Not at hmem
      rw [Registry.recordAll_entry_of_notMem branch r hmem] at hi
      obtain ⟨c, hc, hid⟩ := h.entry id i hi
      exact ⟨c, by rw [List.getElem?_append_left (List.getElem?_eq_some_iff.mp hc).1]; exact hc, hid⟩
  index t id hk := by
    rcases (Registry.mem_recordAll_index branch r).mp hk with hk | ⟨b, hb, rfl, hid⟩
    · obtain ⟨c, hc, hts, hid⟩ := h.index t id hk
      exact ⟨c, List.mem_append_left _ hc, hts, hid⟩
    · refine ⟨toStorageBlock E b, List.mem_append_right _ (List.mem_map_of_mem hb), rfl, ?_⟩
      rw [blockIds_toStorageBlock]
      exact hid

/-- Removing the blocks above a fork leaves a registry of what lies below it. -/
theorem RegistrySound.removeAll {chain : List Block} {r : Registry} (h : RegistrySound E chain r)
    (n : ℕ) : RegistrySound E (chain.take n)
      ((chain.drop n).foldl (Registry.removeConfirmedTxs E) r) where
  entry id i hi := by
    obtain ⟨he, hout⟩ := (Registry.removeAll_entry_eq_some _ r).mp hi
    obtain ⟨b, hb, hid⟩ := h.entry id i he
    rcases Nat.lt_or_ge i n with hlt | hge
    · exact ⟨b, by rw [List.getElem?_take, if_pos hlt]; exact hb, hid⟩
    · have hdrop : (chain.drop n)[i - n]? = some b := by
        rw [List.getElem?_drop, Nat.add_sub_cancel' hge]
        exact hb
      exact absurd hid (hout b (List.mem_of_getElem? hdrop))
  index t id hk := by
    obtain ⟨hk, hout⟩ := (Registry.mem_removeAll_index _ r).mp hk
    obtain ⟨b, hb, hts, hid⟩ := h.index t id hk
    rw [← List.take_append_drop n chain] at hb
    rcases List.mem_append.mp hb with hb | hb
    · exact ⟨b, hb, hts, hid⟩
    · exact absurd ⟨hts.symm, hid⟩ (hout b hb)

/-- The slots a branch is written to hold its blocks. -/
theorem branch_slot {chain branch : List Block} {first : Block} (hl : branch.IsChain BranchLink)
    (hf : branch.head? = some first) (hlen : chain.length = first.index) :
    ∀ b ∈ branch, (chain ++ branch.map (toStorageBlock E))[b.index]? = some (toStorageBlock E b) := by
  intro b hb
  obtain ⟨i, hi, rfl⟩ := List.getElem_of_mem hb
  have hidx := linked_index hl hf i _ (List.getElem?_eq_getElem hi)
  rw [hidx, List.getElem?_append_right (by omega), List.getElem?_map,
    show first.index + i - chain.length = i by omega, List.getElem?_eq_getElem hi, Option.map_some]

/-- The registry derived from the slots is sound. -/
theorem registrySound_ofChain {chain : List Block} (hs : Slotted chain) :
    RegistrySound E chain (Registry.ofChain E chain) where
  entry id i hi := by
    by_cases hmem : ∃ b ∈ chain, id ∈ regularIds E b.transactions
    · obtain ⟨b, hb, hid, he⟩ := Registry.recordAll_entry_of_mem chain Registry.empty hmem
      obtain ⟨j, hj, rfl⟩ := List.getElem_of_mem hb
      rw [Registry.ofChain, he, Option.some.injEq, hs j _ (List.getElem?_eq_getElem hj)] at hi
      exact ⟨_, hi ▸ List.getElem?_eq_getElem hj, hid⟩
    · push Not at hmem
      rw [Registry.ofChain, Registry.recordAll_entry_of_notMem _ _ hmem] at hi
      simp [Registry.empty] at hi
  index t id hk := by
    rcases (Registry.mem_recordAll_index _ _).mp hk with hk | ⟨b, hb, rfl, hid⟩
    · simp [Registry.empty] at hk
    · exact ⟨b, hb, rfl, hid⟩

theorem StepEffect.registrySound {s s' : ChainState} {ev : EngineEvent} (h : StepEffect E s ev s')
    (hs : Slotted s.blocks) (hr : RegistrySound E s.blocks s.registry) :
    RegistrySound E s'.blocks s'.registry := by
  cases h with
  | @extended _ _ b _ hi _ _ _ hb hreg _ =>
    rw [hb, hreg]
    refine (hr.recordAll [b] fun c hc => ?_).prune _
    obtain rfl : c = b := by simpa using hc
    exact ⟨toStorageBlock E c, by simp [hi], blockIds_toStorageBlock c⟩
  | @adopted _ tip first branchTip branch _ ht hcont _ hb hreg _ =>
    have hlen : (s.blocks.take first.index).length = first.index := by
      have := Contender.fork_le hcont hs ht
      simpa using this.le
    rw [hb, hreg]
    refine ((hr.removeAll first.index).recordAll branch fun c hc => ?_).prune _
    exact ⟨toStorageBlock E c, branch_slot hcont.path.linked hcont.path.head hlen c hc,
      blockIds_toStorageBlock c⟩
  | rederived _ hb hreg _ =>
    rw [hb, hreg]
    exact (registrySound_ofChain hs).prune _
  | emptied _ _ hreg _ =>
    rw [hreg]
    exact ⟨fun id i hi => by simp [Registry.empty] at hi, fun t id hk => by simp [Registry.empty] at hk⟩
  | raised height =>
    rw [raiseTrustedCheckpoint_blocks, raiseTrustedCheckpoint_registry]
    exact hr
  | seeded =>
    rw [seedTrustedCheckpointIfUnset_blocks, seedTrustedCheckpointIfUnset_registry]
    exact hr
  | unchanged hb hreg _ => rw [hb, hreg]; exact hr

/-! ### Coverage and uniqueness -/

/-- Pruning at the tip drops no entry that is still replayable, when no id is repeated. -/
theorem covered_prune {chain : List Block} {r : Registry} {tipTs : ℕ} (hd : Dated chain)
    (hn : NoReplay E chain) (hs : RegistrySound E chain r) (hc : Covered E chain r tipTs) :
    Covered E chain (r.pruneConfirmedTxs tipTs) tipTs := by
  intro h b hb tx htx hcb
  rcases hc h b hb tx htx hcb with he | hold
  · by_cases hkeep : ∀ ts, (ts, getTxId E tx) ∈ r.index → tipTs ≤ ts + Registry.horizon
    · exact .inl (Registry.prune_entry_eq_some.mpr ⟨he, hkeep⟩)
    · -- a key beyond the horizon belongs to the confirming block, so the transaction is old
      push Not at hkeep
      obtain ⟨ts, hk, hlt⟩ := hkeep
      obtain ⟨c, hcmem, rfl, hid⟩ := hs.index ts _ hk
      obtain ⟨j, hj, rfl⟩ := List.getElem_of_mem hcmem
      have hj' := List.getElem?_eq_getElem hj
      obtain rfl : h = j := noReplay_height hn hb hj' (mem_blockIds_of_mem htx hcb) hid
      obtain rfl : b = chain[h] := by simpa [hj'] using hb.symm
      have := hd _ hcmem tx htx hcb
      refine .inr ?_
      unfold Replayable Registry.horizon maxTxAgeSecs maxBlockFutureTime at *
      omega
  · exact .inr hold

theorem Covered.mono {chain : List Block} {r : Registry} {ts ts' : ℕ} (h : Covered E chain r ts)
    (hle : ts ≤ ts') : Covered E chain r ts' := by
  intro i b hb tx htx hcb
  refine (h i b hb tx htx hcb).imp id fun hold => ?_
  unfold Replayable at *
  omega

/-- Recording the blocks put on top of a covered chain covers the longer chain. -/
theorem covered_recordAll {chain : List Block} {r : Registry} {ts : ℕ} (branch : List Block)
    (hc : Covered E chain r ts)
    (hslot : ∀ b ∈ branch, (chain ++ branch.map (toStorageBlock E))[b.index]? = some (toStorageBlock E b))
    (hn : NoReplay E (chain ++ branch.map (toStorageBlock E))) :
    Covered E (chain ++ branch.map (toStorageBlock E))
      (branch.foldl (Registry.recordConfirmedTxs E) r) ts := by
  intro h b hb tx htx hcb
  have hid := mem_blockIds_of_mem (E := E) htx hcb
  by_cases hmem : ∃ c ∈ branch, getTxId E tx ∈ regularIds E c.transactions
  · obtain ⟨c, hcmem, hidc, he⟩ := Registry.recordAll_entry_of_mem branch r hmem
    have hidc' : getTxId E tx ∈ blockIds E (toStorageBlock E c) := by
      rw [blockIds_toStorageBlock]
      exact hidc
    exact .inl (by rw [he, noReplay_height hn hb (hslot c hcmem) hid hidc'])
  · push Not at hmem
    rw [Registry.recordAll_entry_of_notMem branch r hmem]
    rcases Nat.lt_or_ge h chain.length with hlt | hge
    · rw [List.getElem?_append_left hlt] at hb
      exact hc h b hb tx htx hcb
    · rw [List.getElem?_append_right hge, List.getElem?_map] at hb
      obtain ⟨c, hcget, rfl⟩ := Option.map_eq_some_iff.mp hb
      rw [blockIds_toStorageBlock] at hid
      exact absurd hid (hmem c (List.mem_of_getElem? hcget))

/-- The registry derived from the slots lists every transaction. -/
theorem covered_ofChain {chain : List Block} (ts : ℕ) (hs : Slotted chain) (hn : NoReplay E chain) :
    Covered E chain (Registry.ofChain E chain) ts := by
  intro h b hb tx htx hcb
  have hid := mem_blockIds_of_mem (E := E) htx hcb
  obtain ⟨c, hc, hidc, he⟩ := Registry.recordAll_entry_of_mem chain Registry.empty
    ⟨b, List.mem_of_getElem? hb, hid⟩
  obtain ⟨j, hj, rfl⟩ := List.getElem_of_mem hc
  have hget := List.getElem?_eq_getElem hj
  obtain rfl : h = j := noReplay_height hn hb hget hid hidc
  exact .inl (by rw [Registry.ofChain, he, hs h _ hget])

/-- The registry below a fork, after the blocks above it are removed. -/
theorem covered_removeAll {s : ChainState} {n ts : ℕ} (hn : NoReplay E s.blocks)
    (hs : RegistrySound E s.blocks s.registry)
    (hold : ∀ b ∈ s.blocks.take n, ∀ tx ∈ b.transactions, tx.isCoinbase = false →
      s.registry.entry (getTxId E tx) = none → ¬ Replayable ts tx) :
    Covered E (s.blocks.take n)
      ((s.blocks.drop n).foldl (Registry.removeConfirmedTxs E) s.registry) ts := by
  intro h b hb tx htx hcb
  have hid := mem_blockIds_of_mem (E := E) htx hcb
  have hb' : s.blocks[h]? = some b ∧ h < n := by
    rw [List.getElem?_take] at hb
    split_ifs at hb with hlt
    exact ⟨hb, hlt⟩
  cases he : s.registry.entry (getTxId E tx) with
  | none => exact .inr (hold b (List.mem_of_getElem? hb) tx htx hcb he)
  | some i =>
    obtain ⟨c, hcget, hidc⟩ := hs.entry _ i he
    obtain rfl : h = i := noReplay_height hn hb'.1 hcget hid hidc
    refine .inl ((Registry.removeAll_entry_eq_some _ _).mpr ⟨he, fun d hd hdid => ?_⟩)
    obtain ⟨j, hj, rfl⟩ := List.getElem_of_mem hd
    have hdget : s.blocks[n + j]? = some (s.blocks.drop n)[j] := by
      rw [← List.getElem?_drop, List.getElem?_eq_getElem hj]
    have := noReplay_height hn hb'.1 hdget hid hdid
    omega

/-- A transaction on a validated child of the tip stands nowhere on a covered chain. -/
theorem extension_apart {now : ℕ} {mode : SignatureValidationMode} {s : ChainState} {b tip : Block}
    (hs : ReplayInv E s) (ht : s.blocks.getLast? = some tip) (hi : b.index = s.blocks.length)
    (hv : validateBlockInternal E now s mode b = .ok ()) (hle : tip.timestamp ≤ b.timestamp)
    (hr : s.registry.blockHasReplayedTx E b = false) :
    ∀ a ∈ s.blocks, ∀ id ∈ blockIds E a, id ∉ blockIds E b := by
  intro a ha id hida hidb
  obtain ⟨h, hh, rfl⟩ := List.getElem_of_mem ha
  have hget := List.getElem?_eq_getElem hh
  obtain ⟨tx, htx, hcb, rfl⟩ := mem_regularIds.mp hida
  obtain ⟨u, hu, hucb, hueq⟩ := mem_regularIds.mp hidb
  have hfresh := fresh_of_validate hv (by omega) hu hucb
  rcases hs.covered tip ht h _ hget tx htx hcb with he | hold
  · have := Registry.blockHasReplayedTx_eq_false.mp hr _ hidb h he
    omega
  · have := timestamp_of_getTxId hueq
    unfold Replayable at hold
    omega

/-- A clean branch shares no id with what it keeps. -/
theorem branch_apart {now : ℕ} {s : ChainState} {tip first branchTip : Block} {branch : List Block}
    (hs : ReplayInv E s) (hcont : s.Contender tip first branchTip branch)
    (hg : BranchGates E now s tip first branchTip branch)
    (hclean : AdoptionClean E s (.adopted branch)) :
    ∀ a ∈ s.blocks.take first.index, ∀ c ∈ branch, ∀ id ∈ blockIds E a, id ∉ blockIds E c := by
  intro a ha c hc id hida hidc
  obtain ⟨h, hh, hget⟩ := List.getElem_of_mem ha
  have hlt : h < first.index := by
    rw [List.length_take] at hh
    omega
  have hget' : s.blocks[h]? = some a := by
    rw [← hget, List.getElem_take]
    exact List.getElem?_eq_getElem _
  obtain ⟨tx, htx, hcb, rfl⟩ := mem_regularIds.mp hida
  obtain ⟨u, hu, hucb, hueq⟩ := mem_regularIds.mp hidc
  cases he : s.registry.entry (getTxId E tx) with
  | some i =>
    obtain ⟨d, hd, hidd⟩ := hs.sound.entry _ i he
    obtain rfl : h = i := noReplay_height hs.noReplay hget' hd hida hidd
    have := Registry.branchReplaysBelow_eq_false.mp hg.noReplay c hc _ hidc h he
    omega
  | none =>
    obtain ⟨j, hj, rfl⟩ := List.getElem_of_mem hc
    have hidx := linked_index hcont.path.linked hcont.path.head j _ (List.getElem?_eq_getElem hj)
    have hfin := hg.finality
    have hfresh := fresh_of_validate (hg.valid _ hc) (by omega) hu hucb
    have hold := hclean.2 first hcont.path.head a ha tx htx hcb he _ hc
    have := timestamp_of_getTxId hueq
    omega

theorem dated_append {chain : List Block} (branch : List Block) (hd : Dated chain)
    (hb : ∀ b ∈ branch, ∀ tx ∈ b.transactions, tx.isCoinbase = false →
      tx.timestamp ≤ b.timestamp + maxBlockFutureTime) :
    Dated (chain ++ branch.map (toStorageBlock E)) := by
  intro c hc tx htx hcb
  rcases List.mem_append.mp hc with hc | hc
  · exact hd c hc tx htx hcb
  · obtain ⟨b, hbmem, rfl⟩ := List.mem_map.mp hc
    -- a stored transaction has the id, and so the date, of the one it was stored from
    have hid : getTxId E tx ∈ blockIds E (toStorageBlock E b) := mem_blockIds_of_mem htx hcb
    rw [blockIds_toStorageBlock] at hid
    obtain ⟨u, hu, hucb, hueq⟩ := mem_regularIds.mp hid
    rw [← timestamp_of_getTxId hueq, toStorageBlock_timestamp]
    exact hb b hbmem u hu hucb

theorem ReplayStart.inv {s : ChainState} (h : ReplayStart E s) : ReplayInv E s where
  nonempty := h.nonempty
  slotted := h.slotted
  dated := h.dated
  noReplay := h.noReplay
  sound := ⟨fun id i => (h.registry.entry id i).mp, fun t id => (h.registry.index t id).mp⟩
  covered _ _ i b hb _ htx hcb :=
    .inl ((h.registry.entry _ i).mpr ⟨b, hb, mem_blockIds_of_mem htx hcb⟩)

/-- The tip a validated child of the tip is checked against. -/
theorem tip_timestamp_le {now : ℕ} {mode : SignatureValidationMode} {s : ChainState} {b tip : Block}
    (ht : s.blocks.getLast? = some tip) (hi : b.index = s.blocks.length)
    (hp : b.previousHash = tip.hash) (hv : validateBlockInternal E now s mode b = .ok ()) :
    tip.timestamp ≤ b.timestamp := by
  have hpos : s.blocks ≠ [] := by
    rintro h
    simp [h] at ht
  have hlen := List.length_pos_of_ne_nil hpos
  have h0 : b.index ≠ 0 := by omega
  have hget : s.getBlock (b.index - 1) = some tip := by
    rw [getBlock, hi, ← ht, List.getLast?_eq_getElem?]
  obtain ⟨parent, hparent, hof⟩ := (validateParent_eq_ok h0).mp (validateBlockInternal_eq_ok.mp hv).2.1
  rw [getParentBlockFor_canonical h0 hget hp.symm, Option.some.injEq] at hparent
  rw [hparent]
  exact hof.timestamp

theorem StepEffect.replayInv {s s' : ChainState} {ev : EngineEvent} (h : StepEffect E s ev s')
    (hs : ReplayInv E s) (hclean : AdoptionClean E s ev) : ReplayInv E s' := by
  have hslot := h.slotted hs.slotted
  have hsound := h.registrySound hs.slotted hs.sound
  cases h with
  | @extended _ _ b _ hi hp hv hr hb hreg _ =>
    have ht := List.getLast?_eq_some_getLast hs.nonempty
    set tip := s.blocks.getLast hs.nonempty with htip
    have hle := tip_timestamp_le ht hi (hp tip ht) hv
    have hlen := List.length_pos_of_ne_nil hs.nonempty
    have happend : s'.blocks = s.blocks ++ [b].map (toStorageBlock E) := hb
    have hno : NoReplay E s'.blocks := by
      rw [happend]
      refine noReplay_append hs.noReplay (by simp [NoReplay]) fun a ha c hc id hida => ?_
      obtain rfl : c = toStorageBlock E b := by simpa using hc
      rw [blockIds_toStorageBlock]
      exact extension_apart hs ht hi hv hle hr a ha id hida
    have hdated : Dated s'.blocks := by
      rw [happend]
      refine dated_append [b] hs.dated fun c hc tx htx hcb => ?_
      obtain rfl : c = b := by simpa using hc
      exact (fresh_of_validate hv (by omega) htx hcb).2
    refine ⟨by simp [hb], hslot, hdated, hno, hsound, fun tip' ht' => ?_⟩
    obtain rfl : toStorageBlock E b = tip' := by simpa [hb] using ht'
    have hcov : Covered E s'.blocks (s.registry.recordConfirmedTxs E b) b.timestamp := by
      rw [happend] at hno ⊢
      refine covered_recordAll [b] ((hs.covered tip ht).mono hle) (fun c hc => ?_) hno
      obtain rfl : c = b := by simpa using hc
      simp [hi]
    have hsound' : RegistrySound E s'.blocks (s.registry.recordConfirmedTxs E b) := by
      rw [happend]
      refine hs.sound.recordAll [b] fun c hc => ?_
      obtain rfl : c = b := by simpa using hc
      exact ⟨toStorageBlock E c, by simp [hi], blockIds_toStorageBlock c⟩
    rw [hreg, toStorageBlock_timestamp]
    exact covered_prune hdated hno hsound' hcov
  | @adopted _ tip first branchTip branch _ ht hcont hgates hb hreg _ =>
    have hlen : (s.blocks.take first.index).length = first.index := by
      have := Contender.fork_le hcont hs.slotted ht
      simpa using this.le
    have hslots := branch_slot (E := E) hcont.path.linked hcont.path.head hlen
    have hne : branch ≠ [] := by
      rintro rfl
      simpa using hcont.path.head
    have hno : NoReplay E s'.blocks := by
      rw [hb]
      refine noReplay_append (hs.noReplay.sublist (List.take_sublist _ _))
        (noReplay_map_toStorageBlock.mpr hclean.1) fun a ha c hc id hida => ?_
      obtain ⟨d, hd, rfl⟩ := List.mem_map.mp hc
      rw [blockIds_toStorageBlock]
      exact branch_apart hs hcont hgates hclean a ha d hd id hida
    have hfresh : ∀ c ∈ branch, ∀ tx ∈ c.transactions, tx.isCoinbase = false →
        tx.timestamp ≤ c.timestamp + maxBlockFutureTime := by
      intro c hc tx htx hcb
      obtain ⟨j, hj, rfl⟩ := List.getElem_of_mem hc
      have hidx := linked_index hcont.path.linked hcont.path.head j _ (List.getElem?_eq_getElem hj)
      have := hgates.finality
      exact (fresh_of_validate (hgates.valid _ hc) (by omega) htx hcb).2
    have hdated : Dated s'.blocks := by
      rw [hb]
      exact dated_append branch (fun c hc => hs.dated c (List.mem_of_mem_take hc)) hfresh
    refine ⟨by simp [hb, hne], hslot, hdated, hno, hsound, fun tip' ht' => ?_⟩
    obtain rfl : toStorageBlock E branchTip = tip' := by
      simpa [hb, List.getLast?_append, List.getLast?_map, hcont.last] using ht'
    have htipmem : branchTip ∈ branch := List.mem_of_getLast? hcont.last
    have hkept : Covered E (s.blocks.take first.index)
        ((s.blocks.drop first.index).foldl (Registry.removeConfirmedTxs E) s.registry)
        branchTip.timestamp := by
      refine covered_removeAll hs.noReplay hs.sound fun c hc tx htx hcb he => ?_
      have := hclean.2 first hcont.path.head c hc tx htx hcb he branchTip htipmem
      unfold Replayable
      omega
    rw [hreg, toStorageBlock_timestamp, reorgRegistry]
    refine covered_prune hdated hno ?_ ?_
    · rw [hb]
      refine (hs.sound.removeAll first.index).recordAll branch fun c hc => ?_
      exact ⟨toStorageBlock E c, hslots c hc, blockIds_toStorageBlock c⟩
    · rw [hb] at hno ⊢
      exact covered_recordAll branch hkept hslots hno
  | rederived ht hb hreg _ =>
    refine ⟨hb ▸ hs.nonempty, hslot, hb ▸ hs.dated, hb ▸ hs.noReplay, hsound, fun tip' ht' => ?_⟩
    rw [hb, ht, Option.some.injEq] at ht'
    rw [hreg, hb, ht']
    exact covered_prune hs.dated hs.noReplay (registrySound_ofChain hs.slotted)
      (covered_ofChain _ hs.slotted hs.noReplay)
  | emptied hnil _ _ _ => exact absurd hnil hs.nonempty
  | raised height =>
    refine ⟨?_, hslot, ?_, ?_, hsound, ?_⟩ <;>
      simp only [raiseTrustedCheckpoint_blocks, raiseTrustedCheckpoint_registry]
    exacts [hs.nonempty, hs.dated, hs.noReplay, hs.covered]
  | seeded =>
    refine ⟨?_, hslot, ?_, ?_, hsound, ?_⟩ <;>
      simp only [seedTrustedCheckpointIfUnset_blocks, seedTrustedCheckpointIfUnset_registry]
    exacts [hs.nonempty, hs.dated, hs.noReplay, hs.covered]
  | unchanged hb hreg _ =>
    refine ⟨hb ▸ hs.nonempty, hslot, hb ▸ hs.dated, hb ▸ hs.noReplay, hsound, ?_⟩
    rw [hb, hreg]
    exact hs.covered

/-- A node whose registry is derived from a chain without repeated ids is a valid start. -/
theorem replayStart_holding {blocks : List Block} {orphans : List OrphanStoredBlock}
    (hne : blocks ≠ []) (hs : Slotted blocks) (hd : Dated blocks) (hn : NoReplay E blocks) :
    ReplayStart E (holding E blocks orphans) := by
  have hsound := registrySound_ofChain (E := E) hs
  refine ⟨hne, hs, hd, hn, fun id h => ⟨hsound.entry id h, ?_⟩, fun ts id => ⟨hsound.index ts id, ?_⟩⟩
  · rintro ⟨b, hb, hid⟩
    obtain ⟨tx, htx, hcb, rfl⟩ := mem_regularIds.mp hid
    exact (covered_ofChain 0 hs hn h b hb tx htx hcb).resolve_right
      fun h => h (Nat.zero_le _)
  · rintro ⟨b, hb, rfl, hid⟩
    exact (Registry.mem_recordAll_index _ _).mpr (.inr ⟨b, hb, rfl, hid⟩)

/-! ### Runs -/

theorem run_replayInv {s₀ s : ChainState} {tr : List (ChainState × EngineEvent)}
    (h₀ : ReplayInv E s₀) (h : EngineRun E s₀ tr s) (hclean : ∀ p ∈ tr, AdoptionClean E p.1 p.2) :
    ReplayInv E s :=
  Trace.Run.invariant (I := ReplayInv E) (C := AdoptionClean E)
    (fun _ _ _ hi hc hstep => (stepEffect_of_step hi.slotted hstep).replayInv hi hc) h h₀ hclean

/-- **No replay on any path, when reorgs are clean.** From a chain without repeated ids and
a registry that lists exactly its transactions, every run of the engine's entries whose
adoptions are clean leaves a chain without repeated ids. -/
theorem no_replay_on_any_path {s₀ s : ChainState} {tr : List (ChainState × EngineEvent)}
    (h₀ : ReplayStart E s₀) (h : OpRun E s₀ tr s) (hclean : ∀ p ∈ tr, AdoptionClean E p.1 p.2) :
    NoReplay E s.blocks :=
  (run_replayInv h₀.inv h.engineRun hclean).noReplay

/-- A clean reorg of the small fork. -/
theorem Toy.adoption_clean :
    ∀ p ∈ [(Toy.fork [Toy.c2, Toy.c3 []], EngineEvent.adopted [Toy.c2, Toy.c3 []])],
      AdoptionClean toyEnv p.1 p.2 := by
  intro p hp
  obtain rfl := List.mem_singleton.mp hp
  exact ⟨by decide +kernel, by decide +kernel⟩

theorem Toy.replayStart (pool : List Block) : ReplayStart toyEnv (Toy.fork pool) :=
  replayStart_holding (by decide +kernel) (by decide +kernel) (by decide +kernel) (by decide +kernel)

theorem no_replay_after_honest_reorg :
    NoReplay toyEnv (adoptBranchIfValid toyEnv Toy.now (Toy.fork [Toy.c2, Toy.c3 []])
      [Toy.c2, Toy.c3 []] Toy.b2).1.blocks :=
  no_replay_on_any_path (Toy.replayStart _) Toy.honest_reorg Toy.adoption_clean

/-- The payment stands twice in a branch that `adopt_branch_if_valid` takes: once its first
block waits in the pool, delivering the second one makes the chain confirm it twice. -/
theorem branch_replays_itself :
    ReplayStart toyEnv (Toy.fork [Toy.c2]) ∧
      (∃ tr, OpRun toyEnv (Toy.fork [Toy.c2]) tr
        ((ChainOp.saveBlock Toy.now (Toy.c3 [Toy.pay])).run toyEnv (Toy.fork [Toy.c2]))) ∧
      ¬ NoReplay toyEnv
        ((ChainOp.saveBlock Toy.now (Toy.c3 [Toy.pay])).run toyEnv (Toy.fork [Toy.c2])).blocks :=
  ⟨Toy.replayStart _, opRun_exists _ [.saveBlock Toy.now (Toy.c3 [Toy.pay])], by decide +kernel⟩

theorem run_registrySound {s₀ s : ChainState} {tr : List (ChainState × EngineEvent)}
    (h₀ : ReplayStart E s₀) (h : EngineRun E s₀ tr s) :
    Slotted s.blocks ∧ RegistrySound E s.blocks s.registry := by
  refine Trace.Run.invariant (I := fun t => Slotted t.blocks ∧ RegistrySound E t.blocks t.registry)
    (C := fun _ _ => True) (fun a ev b hi _ hstep => ?_) h ⟨h₀.slotted, h₀.inv.sound⟩ (by simp)
  have heffect := stepEffect_of_step hi.1 hstep
  exact ⟨heffect.slotted hi.1, heffect.registrySound hi.1 hi.2⟩

/-- **The registry invariant.** In every run of the engine's entries, each entry names a
canonical height of its id; and when the adoptions of the run are clean, every canonical
transaction that a block on the tip could still carry is listed at its height. -/
theorem registry_lists_replayable {s₀ s : ChainState} {tr : List (ChainState × EngineEvent)}
    (h₀ : ReplayStart E s₀) (h : OpRun E s₀ tr s) :
    (∀ id i, s.registry.entry id = some i → ∃ b, s.blocks[i]? = some b ∧ id ∈ blockIds E b) ∧
      ((∀ p ∈ tr, AdoptionClean E p.1 p.2) → ∀ tip, s.blocks.getLast? = some tip →
        ∀ (i : ℕ) (b : Block), s.blocks[i]? = some b → ∀ tx ∈ b.transactions,
          tx.isCoinbase = false → Replayable tip.timestamp tx →
          s.registry.entry (getTxId E tx) = some i) := by
  refine ⟨(run_registrySound h₀ h.engineRun).2.entry, fun hclean tip ht i b hb tx htx hcb hfresh => ?_⟩
  exact ((run_replayInv h₀.inv h.engineRun hclean).covered tip ht i b hb tx htx hcb).resolve_right
    fun hold => hold hfresh

theorem registry_lists_after_honest_reorg :
    (adoptBranchIfValid toyEnv Toy.now (Toy.fork [Toy.c2, Toy.c3 []])
      [Toy.c2, Toy.c3 []] Toy.b2).1.registry.entry
        (getTxId toyEnv (toStorageTransaction toyEnv Toy.pay)) = some 2 :=
  (registry_lists_replayable (Toy.replayStart _) Toy.honest_reorg).2 Toy.adoption_clean
    (Toy.c3 []) (by decide +kernel) 2 (toStorageBlock toyEnv Toy.c2) (by decide +kernel)
    (toStorageTransaction toyEnv Toy.pay) (by decide +kernel) (by decide +kernel)
    (by unfold Replayable; decide +kernel)

namespace Toy

/-- A chain that ends in the payment, and a block so much later that it prunes it. -/
def paid : ChainState := .holding toyEnv [genesis, b1, toStorageBlock toyEnv c2] []
def late : Block := toyBlock c2 22000 bob []
def early3 : Block := toyBlock c2 5 bob []
def early4 : Block := toyBlock early3 5 bob []

/-- The late block, and then a heavier branch that goes back in time. -/
def backwards : List ChainOp :=
  [.saveBlock late.timestamp late, .saveBlock late.timestamp early3,
    .saveBlock late.timestamp early4]

def wentBack : ChainState := backwards.foldl (fun s op => op.run toyEnv s) paid

end Toy

/-- After a reorg to an earlier tip, a payment that a block on it could carry again is no
longer listed: the late tip had pruned it. -/
theorem reorg_back_forgets :
    ReplayStart toyEnv Toy.paid ∧ (∃ tr, OpRun toyEnv Toy.paid tr Toy.wentBack) ∧
      Toy.wentBack.blocks.getLast? = some Toy.early4 ∧
      Toy.wentBack.blocks[2]? = some (toStorageBlock toyEnv Toy.c2) ∧
      toStorageTransaction toyEnv Toy.pay ∈ (toStorageBlock toyEnv Toy.c2).transactions ∧
      (toStorageTransaction toyEnv Toy.pay).isCoinbase = false ∧
      Replayable Toy.early4.timestamp (toStorageTransaction toyEnv Toy.pay) ∧
      Toy.wentBack.registry.entry (getTxId toyEnv (toStorageTransaction toyEnv Toy.pay)) = none := by
  refine ⟨?_, opRun_exists Toy.paid Toy.backwards, ?_, ?_, ?_, ?_, ?_, ?_⟩
  · exact replayStart_holding (by decide +kernel) (by decide +kernel) (by decide +kernel)
      (by decide +kernel)
  · decide +kernel
  · decide +kernel
  · decide +kernel
  · decide +kernel
  · unfold Replayable
    decide +kernel
  · decide +kernel

end Alphanumeric
