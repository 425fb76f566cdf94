/-
# One branch, two ways to arrive

A branch can arrive as a reorg, judged as a whole against the chain it leaves, or
block by block on a node whose tip is the fork parent. Both paths check headers,
shape, rewards, freshness, signatures and solvency, by different code for the last
two, and agree on them. They part on replay only: the reorg compares a branch with the
registry of the chain it replaces, the tip extension with the registry of everything
below.

Key definitions: `ForksOff`, `KeptStays`, `PathsAgree`, `PathCondition`.
Key theorems: `adopt_settled`, `reorgRegistry_same`, `arrival_path_independence`.
-/
import Alphanumeric.Settled

namespace Alphanumeric

open Guard BlockchainError ChainState

variable {E : Env}

/-! ### The whole branch, as a reorg -/

/-- A linked branch that leaves the canonical chain of `s` above its checkpoint. -/
structure ForksOff (s : ChainState) (tip first branchTip : Block) (branch : List Block) : Prop where
  chainTip : s.blocks.getLast? = some tip
  head : branch.head? = some first
  last : branch.getLast? = some branchTip
  linked : branch.IsChain BranchLink
  fork_le : first.index ≤ tip.index
  finality : s.trustedCheckpointHeight < first.index

theorem ForksOff.take_length {s : ChainState} {tip first branchTip : Block} {branch : List Block}
    (h : ForksOff s tip first branchTip branch) (hs : Slotted s.blocks) :
    (s.blocks.take first.index).length = first.index := by
  have := hs.lastIndex h.chainTip
  have := h.fork_le
  rw [List.length_take]
  omega

/-- The fork-boundary state of a reorg is the state of a node that stopped at the fork. -/
theorem balancesAtForkState_settled {s t : ChainState} {tip first branchTip : Block}
    {branch : List Block} (hs : Settled E s) (ht : Settled E t)
    (h : ForksOff s tip first branchTip branch) (hblocks : t.blocks = s.blocks.take first.index) :
    s.balancesAtForkState first.index tip.index =
      some (t.balances, seedRecent t.blocks t.blocks.length) := by
  have hpos := h.finality
  have hle := h.fork_le
  have hlen := hs.slotted.lastIndex h.chainTip
  have hheight : s.balancesHeight = some tip.index := by
    rw [hs.balancesHeight, getLatestBlockIndex_eq]
    congr 1
    omega
  have htake := h.take_length hs.slotted
  have hsplit : replayBlocks (t.blocks ++ s.blocks.drop first.index) (fun _ => 0, []) =
      .ok (s.balances, seedRecent s.blocks s.blocks.length) := by
    rw [hblocks, List.take_append_drop]
    exact hs.replay
  have hrevert := revert_replay ht.replay hsplit
  have hseed : seedRecent s.blocks first.index = seedRecent t.blocks t.blocks.length := by
    simp only [seedRecent, hblocks, htake, List.take_take, min_self]
  unfold balancesAtForkState
  rw [if_neg (by omega), if_neg (by simp [hheight]), hrevert, hseed]

theorem branchSolvent_settled {s t : ChainState} {tip first branchTip : Block} {branch : List Block}
    (hs : Settled E s) (ht : Settled E t) (h : ForksOff s tip first branchTip branch)
    (hblocks : t.blocks = s.blocks.take first.index) :
    s.branchSolvent E first.index tip.index branch =
      .ok (replayBlocks branch (t.balances, seedRecent t.blocks t.blocks.length)).isOk := by
  unfold branchSolvent
  rw [balancesAtForkState_settled hs ht h hblocks]

theorem foldl_removeOrphan :
    ∀ (branch : List Block) (s : ChainState),
      (branch.foldl (fun s b => s.removeOrphanByHash b.hash) s).orphans.Sublist s.orphans ∧
        ∀ e ∈ (branch.foldl (fun s b => s.removeOrphanByHash b.hash) s).orphans, ∀ b ∈ branch,
          e.block.hash ≠ b.hash
  | [], s => by simp
  | b :: branch, s => by
    obtain ⟨hsub, hout⟩ := foldl_removeOrphan branch (s.removeOrphanByHash b.hash)
    refine ⟨hsub.trans List.filter_sublist, fun e he c hc => ?_⟩
    rcases List.mem_cons.mp hc with rfl | hc
    · have hmem : e ∈ (s.removeOrphanByHash c.hash).orphans := hsub.subset he
      simpa [removeOrphanByHash] using (List.mem_filter.mp hmem).2
    · exact hout e he c hc

/-- An adoption only takes entries out of the pool, the adopted blocks among them. -/
theorem orphans_after_adoption (now oldTip : ℕ) (branch : List Block) (s : ChainState) :
    ((branch.foldl (fun s b => s.removeOrphanByHash b.hash) s).pruneOrphansAt now
        (some oldTip)).orphans.Sublist s.orphans ∧
      ∀ e ∈ ((branch.foldl (fun s b => s.removeOrphanByHash b.hash) s).pruneOrphansAt now
        (some oldTip)).orphans, ∀ b ∈ branch, e.block.hash ≠ b.hash := by
  obtain ⟨hsub, hout⟩ := foldl_removeOrphan branch s
  have hprune : ∀ t : ChainState, (t.pruneOrphansAt now (some oldTip)).orphans.Sublist t.orphans :=
    fun t => List.filter_sublist.trans List.filter_sublist
  exact ⟨(hprune _).trans hsub, fun e he => hout e ((hprune _).subset he)⟩

/-- The commit of a branch that replays on the fork's totals. -/
theorem commitBranch_settled (now : ℕ) {s t : ChainState} {tip first branchTip : Block}
    {branch : List Block} (hs : Settled E s) (ht : Settled E t)
    (h : ForksOff s tip first branchTip branch) (hblocks : t.blocks = s.blocks.take first.index)
    {st : Balances × Recent}
    (hst : replayBlocks branch (t.balances, seedRecent t.blocks t.blocks.length) = .ok st) :
    ∃ s', s.commitBranch E now first.index tip.index branch branchTip = (s', .ok true) ∧
      s'.balances = st.1 ∧ s'.balancesHeight = some s'.getLatestBlockIndex ∧ s'.dirty = false ∧
      s'.orphans.Sublist s.orphans ∧ ∀ e ∈ s'.orphans, ∀ b ∈ branch, e.block.hash ≠ b.hash := by
  have htake := h.take_length hs.slotted
  have hpos := h.finality
  have hle : first.index ≤ s.blocks.length := by
    have := hs.slotted.lastIndex h.chainTip
    have := h.fork_le
    omega
  have hrewrite := rewriteSlots_eq (E := E) h.linked h.head hle
  unfold commitBranch
  dsimp only
  generalize hrw : ({ s with
    blocks := rewriteSlots E s.blocks branch
    registry := s.reorgRegistry E first.index branch branchTip
    dirty := true } : ChainState) = rewritten
  have hpool := (foldl_frame (fun t b => removeOrphanByHash_frame t (Block.hash b)) branch rewritten).trans
    (pruneOrphansAt_frame now (some tip.index) _)
  have horphans : rewritten.orphans = s.orphans := by rw [← hrw]
  have hleft := orphans_after_adoption now tip.index branch rewritten
  rw [horphans] at hleft
  generalize (branch.foldl (fun s b => s.removeOrphanByHash b.hash) rewritten).pruneOrphansAt now
    (some tip.index) = pooled at hpool hleft ⊢
  have hslots : pooled.blocks = t.blocks ++ branch.map (toStorageBlock E) := by
    rw [hpool, ← hrw, hblocks]
    exact hrewrite
  have htlen : t.blocks.length = first.index := by rw [hblocks, htake]
  have hdrop : pooled.blocks.drop first.index = branch.map (toStorageBlock E) := by
    rw [hslots, ← htlen, List.drop_left]
  have hseed : seedRecent pooled.blocks first.index = seedRecent t.blocks t.blocks.length := by
    simp only [seedRecent, hslots, ← htlen, List.take_left, List.take_length]
  have hcatch : replayBlocks (pooled.blocks.drop (first.index - 1 + 1))
      (t.balances, seedRecent pooled.blocks (first.index - 1 + 1)) = .ok st := by
    rw [Nat.sub_add_cancel (by omega), hdrop, hseed, replayBlocks_stored, hst]
  simp only [balancesAtForkState_settled hs ht h hblocks, reorgBalances, catchUpBalancesIndex, hcatch]
  exact ⟨_, rfl, rfl, rfl, rfl, hleft⟩

theorem witnessShort_of_valid {now : ℕ} {s : ChainState} {branch : List Block}
    (hv : ∀ b ∈ branch, validateBlockInternal E now s .allowTruncatedStored b = .ok ())
    (hfull : ∀ b ∈ branch, FullWitness b) : s.witnessShort E branch = [] := by
  refine witnessShort_eq_nil.mpr fun b hb _ => ?_
  have hvalid : validateBlockInternal E now s .requireFull b = .ok () := by
    rw [← validateBlockInternal_mode (hfull b hb)]
    exact hv b hb
  exact blockSignaturesFullyVerified_of_validate hvalid

theorem adopt_gates {now : ℕ} {s : ChainState} {tip first branchTip : Block} {branch : List Block}
    (h : ForksOff s tip first branchTip branch)
    (hok : (adoptBranchIfValid E now s branch tip).2 = .ok true) :
    BranchGates E now s tip first branchTip branch ∧
      s.commitBranch E now first.index tip.index branch branchTip =
        ((adoptBranchIfValid E now s branch tip).1, .ok true) := by
  have heq : adoptBranchIfValid E now s branch tip =
      ((adoptBranchIfValid E now s branch tip).1, .ok true) := Prod.ext rfl hok
  rcases adopt_cases heq (by simp) with ⟨-, e, he⟩ | ⟨f, l, hf, hl, hg, hcommit⟩
  · cases he
  · obtain rfl : first = f := by simpa [h.head] using hf
    obtain rfl : branchTip = l := by simpa [h.last] using hl
    exact ⟨hg, hcommit⟩

/-- **As a reorg**: a settled node adopts the branch exactly if every block validates, no
backoff is active, the branch replays on the fork's totals, and the registry lists none of
its ids below the fork. -/
theorem adopt_settled (now : ℕ) {s t : ChainState} {tip first branchTip : Block} {branch : List Block}
    (hs : Settled E s) (ht : Settled E t) (h : ForksOff s tip first branchTip branch)
    (hblocks : t.blocks = s.blocks.take first.index) (hfull : ∀ b ∈ branch, FullWitness b) :
    ((adoptBranchIfValid E now s branch tip).2 = .ok true ↔
      (∀ b ∈ branch, validateBlockInternal E now s .allowTruncatedStored b = .ok ()) ∧
        s.witnessBranchBackoffActive now branchTip.hash = false ∧
        (replayBlocks branch (t.balances, seedRecent t.blocks t.blocks.length)).isOk = true ∧
        s.registry.branchReplaysBelow E first.index branch = false) ∧
      ((adoptBranchIfValid E now s branch tip).2 = .ok true →
        (adoptBranchIfValid E now s branch tip).1.blocks =
            t.blocks ++ branch.map (toStorageBlock E) ∧
          (∃ recent, replayBlocks branch (t.balances, seedRecent t.blocks t.blocks.length) =
            .ok ((adoptBranchIfValid E now s branch tip).1.balances, recent)) ∧
          (adoptBranchIfValid E now s branch tip).1.registry =
            s.reorgRegistry E first.index branch branchTip) := by
  have hsolvent := branchSolvent_settled hs ht h hblocks
  have hle : first.index ≤ s.blocks.length := by
    have := hs.slotted.lastIndex h.chainTip
    have := h.fork_le
    omega
  constructor
  · constructor
    · intro hok
      obtain ⟨hg, -⟩ := adopt_gates h hok
      refine ⟨hg.valid, hg.noBackoff, ?_, hg.noReplay⟩
      simpa [hsolvent] using hg.solvent
    · rintro ⟨hv, hb, hr, hn⟩
      obtain ⟨st, hst⟩ := exists_ok_of_isOk hr
      obtain ⟨s', hcommit, -⟩ := commitBranch_settled now hs ht h hblocks hst
      have hvalid : branchValid E now s first.index branch = true := by
        simp only [branchValid, Bool.and_eq_true, List.all_eq_true, decide_eq_true_eq]
        exact ⟨fun b hb => by rw [hv b hb]; rfl, h.finality⟩
      simp only [adoptBranchIfValid, h.head, h.last, hvalid, hb, witnessShort_of_valid hv hfull, hsolvent,
        hr, hn, hcommit, Bool.not_true, Bool.false_eq_true, ne_eq, not_true_eq_false, if_false]
  · intro hok
    obtain ⟨hg, hcommit⟩ := adopt_gates h hok
    obtain ⟨hslots, hreg, -⟩ := commitBranch_fields hcommit
    have hsolv : (replayBlocks branch (t.balances, seedRecent t.blocks t.blocks.length)).isOk = true := by
      simpa [hsolvent] using hg.solvent
    obtain ⟨st, hst⟩ := exists_ok_of_isOk hsolv
    obtain ⟨s', hcommit', hbal, -⟩ := commitBranch_settled now hs ht h hblocks hst
    rw [hcommit] at hcommit'
    obtain rfl : (adoptBranchIfValid E now s branch tip).1 = s' := (Prod.mk.inj hcommit').1
    refine ⟨?_, ⟨st.2, by rw [hst, hbal]⟩, hreg⟩
    rw [hslots, rewriteSlots_eq h.linked h.head hle, hblocks]

/-! ### The two registries -/

/-- What the kept blocks confirm within the horizon of the new tip was within the horizon of
the old tip, and the replaced blocks do not confirm it again. The last two clauses say
nothing of a chain without repeated ids. -/
structure KeptStays (E : Env) (kept replaced : List Block) (oldTs newTs : ℕ) : Prop where
  aged : ∀ b ∈ kept, blockIds E b ≠ [] → newTs ≤ b.timestamp + Registry.horizon →
    oldTs ≤ b.timestamp + Registry.horizon
  key : ∀ b ∈ kept, ∀ d ∈ replaced, ∀ id ∈ blockIds E b, newTs ≤ b.timestamp + Registry.horizon →
    d.timestamp = b.timestamp → id ∉ blockIds E d
  again : ∀ b ∈ kept, ∀ d ∈ replaced, ∀ id ∈ blockIds E b, id ∈ blockIds E d →
    ∃ c ∈ kept, id ∈ blockIds E c ∧ c.timestamp + Registry.horizon < newTs

section Registries

variable {s : ChainState} {f oldTs : ℕ} {branch : List Block} {branchTip : Block}

theorem mem_reorgRegistry_index (hreg : s.registry.Same (Registry.derived E s.blocks oldTs))
    {k : ℕ × Text} :
    k ∈ (s.reorgRegistry E f branch branchTip).index ↔
      ((((∃ b ∈ s.blocks, k.1 = b.timestamp ∧ k.2 ∈ blockIds E b) ∧ oldTs ≤ k.1 + Registry.horizon) ∧
          ∀ d ∈ s.blocks.drop f, ¬ (k.1 = d.timestamp ∧ k.2 ∈ blockIds E d)) ∨
        ∃ b ∈ branch, k.1 = b.timestamp ∧ k.2 ∈ blockIds E b) ∧
      branchTip.timestamp ≤ k.1 + Registry.horizon := by
  simp only [reorgRegistry, Registry.mem_prune_index, Registry.mem_recordAll_index,
    Registry.mem_removeAll_index, hreg.index, Registry.mem_derived_index, blockIds]

/-- The keys that survive are those of the kept blocks and of the branch. -/
theorem mem_reorgRegistry_index_kept (hreg : s.registry.Same (Registry.derived E s.blocks oldTs))
    {k : ℕ × Text} (hk : k ∈ (s.reorgRegistry E f branch branchTip).index) :
    (∃ b ∈ s.blocks.take f, k.1 = b.timestamp ∧ k.2 ∈ blockIds E b) ∨
      ∃ b ∈ branch, k.1 = b.timestamp ∧ k.2 ∈ blockIds E b := by
  obtain ⟨⟨⟨⟨b, hb, hkey⟩, -⟩, hout⟩ | hbranch, -⟩ := (mem_reorgRegistry_index hreg).mp hk
  · rw [← List.take_append_drop f s.blocks] at hb
    rcases List.mem_append.mp hb with hb | hb
    · exact .inl ⟨b, hb, hkey⟩
    · exact absurd hkey (hout b hb)
  · exact .inr hbranch

/-- An id of the branch has the entry it has in the registry of the new chain. -/
theorem reorgRegistry_entry_branch (hreg : s.registry.Same (Registry.derived E s.blocks oldTs))
    (hapart : Apart E (s.blocks.take f) branch) {id : Text} (hid : ∃ b ∈ branch, id ∈ blockIds E b)
    (i : ℕ) :
    (s.reorgRegistry E f branch branchTip).entry id = some i ↔
      (Registry.derived E (s.blocks.take f ++ branch.map (toStorageBlock E))
        branchTip.timestamp).entry id = some i := by
  have hkept : ∀ c ∈ s.blocks.take f, id ∉ blockIds E c := by
    obtain ⟨b, hb, hidb⟩ := hid
    exact fun c hc hidc => hapart.1 b hb c hc id hidc hidb
  have hentry : (branch.foldl (Registry.recordConfirmedTxs E)
      ((s.blocks.drop f).foldl (Registry.removeConfirmedTxs E) s.registry)).entry id =
      (Registry.ofChain E (s.blocks.take f ++ branch.map (toStorageBlock E))).entry id := by
    rw [Registry.ofChain_append, Registry.recordAll_map_toStorageBlock]
    exact Registry.recordAll_entry_congr branch _ _ hid
  rw [Registry.derived_entry, ← hentry, reorgRegistry, Registry.prune_entry_eq_some]
  refine and_congr_right fun _ => ⟨fun h b hb hidb => ?_, fun h ts hts => ?_⟩
  · rcases List.mem_append.mp hb with hb | hb
    · exact absurd hidb (hkept b hb)
    · obtain ⟨c, hc, rfl⟩ := List.mem_map.mp hb
      rw [regularIds_toStorageBlock] at hidb
      exact h c.timestamp ((Registry.mem_recordAll_index _ _).mpr (.inr ⟨c, hc, rfl, hidb⟩))
  · by_contra hlt
    have hmem : ∃ b ∈ branch, ts = b.timestamp ∧ id ∈ blockIds E b := by
      rcases (Registry.mem_recordAll_index _ _).mp hts with hold | hbranch
      · rw [Registry.mem_removeAll_index, hreg.index, Registry.mem_derived_index] at hold
        obtain ⟨⟨⟨b, hb, hkey⟩, -⟩, hout⟩ := hold
        rw [← List.take_append_drop f s.blocks] at hb
        rcases List.mem_append.mp hb with hb | hb
        · exact absurd hkey.2 (hkept b hb)
        · exact absurd hkey (hout b hb)
      · exact hbranch
    obtain ⟨b, hb, rfl, hidb⟩ := hmem
    refine hlt (h (toStorageBlock E b) (List.mem_append_right _ (List.mem_map_of_mem hb)) ?_)
    rw [regularIds_toStorageBlock]
    exact hidb

/-- An id outside the branch keeps its entry if no replaced block carries it and every kept
copy is within both horizons. -/
theorem reorgRegistry_entry_kept (hreg : s.registry.Same (Registry.derived E s.blocks oldTs))
    {id : Text} (hid : ∀ b ∈ branch, id ∉ blockIds E b) (i : ℕ) :
    (s.reorgRegistry E f branch branchTip).entry id = some i ↔
      (Registry.ofChain E (s.blocks.take f)).entry id = some i ∧
        (∀ d ∈ s.blocks.drop f, id ∉ blockIds E d) ∧
        ∀ b ∈ s.blocks.take f, id ∈ blockIds E b →
          oldTs ≤ b.timestamp + Registry.horizon ∧
            branchTip.timestamp ≤ b.timestamp + Registry.horizon := by
  have hsplit : Registry.ofChain E s.blocks = Registry.ofChain E (s.blocks.take f ++ s.blocks.drop f) := by
    rw [List.take_append_drop]
  rw [reorgRegistry, Registry.prune_entry_eq_some, Registry.recordAll_entry_of_notMem branch _ hid,
    Registry.removeAll_entry_eq_some, hreg.entry, Registry.derived_entry]
  constructor
  · rintro ⟨⟨⟨hentry, hold⟩, hout⟩, hkeys⟩
    have hmem : ∀ b ∈ s.blocks.take f, b ∈ s.blocks := fun b hb => List.mem_of_mem_take hb
    refine ⟨?_, hout, fun b hb hidb => ⟨hold b (hmem b hb) hidb, hkeys b.timestamp ?_⟩⟩
    · rw [hsplit, Registry.ofChain_append, Registry.recordAll_entry_of_notMem _ _ hout] at hentry
      exact hentry
    · refine (Registry.mem_recordAll_index _ _).mpr (.inl ((Registry.mem_removeAll_index _ _).mpr ⟨?_, ?_⟩))
      · rw [hreg.index, Registry.mem_derived_index]
        exact ⟨⟨b, hmem b hb, rfl, hidb⟩, hold b (hmem b hb) hidb⟩
      · exact fun d hd hkey => hout d hd hkey.2
  · rintro ⟨hentry, hout, hkept⟩
    have hall : ∀ b ∈ s.blocks, id ∈ blockIds E b → b ∈ s.blocks.take f := by
      intro b hb hidb
      rw [← List.take_append_drop f s.blocks] at hb
      rcases List.mem_append.mp hb with hb | hb
      · exact hb
      · exact absurd hidb (hout b hb)
    refine ⟨⟨⟨?_, fun b hb hidb => (hkept b (hall b hb hidb) hidb).1⟩, hout⟩, fun ts hts => ?_⟩
    · rw [hsplit, Registry.ofChain_append, Registry.recordAll_entry_of_notMem _ _ hout]
      exact hentry
    · rcases (Registry.mem_recordAll_index _ _).mp hts with hold | ⟨b, hb, -, hidb⟩
      · rw [Registry.mem_removeAll_index, hreg.index, Registry.mem_derived_index] at hold
        obtain ⟨⟨⟨b, hb, hbts, hidb⟩, -⟩, -⟩ := hold
        obtain rfl : ts = b.timestamp := hbts
        exact (hkept b (hall b hb hidb) hidb).2
      · exact absurd hidb (hid b hb)

/-- **The registry of a reorg** is the one the new chain determines exactly if what is kept
stays. -/
theorem reorgRegistry_same (hreg : s.registry.Same (Registry.derived E s.blocks oldTs))
    (hapart : Apart E (s.blocks.take f) branch) :
    (s.reorgRegistry E f branch branchTip).Same
        (Registry.derived E (s.blocks.take f ++ branch.map (toStorageBlock E)) branchTip.timestamp) ↔
      KeptStays E (s.blocks.take f) (s.blocks.drop f) oldTs branchTip.timestamp := by
  have hderived : ∀ k : ℕ × Text, k ∈ (Registry.derived E
      (s.blocks.take f ++ branch.map (toStorageBlock E)) branchTip.timestamp).index ↔
      ((∃ b ∈ s.blocks.take f, k.1 = b.timestamp ∧ k.2 ∈ blockIds E b) ∨
        ∃ b ∈ branch, k.1 = b.timestamp ∧ k.2 ∈ blockIds E b) ∧
      branchTip.timestamp ≤ k.1 + Registry.horizon := by
    intro k
    rw [Registry.mem_derived_index]
    simp only [List.mem_append, List.mem_map, or_and_right, exists_or, exists_exists_and_eq_and,
      toStorageBlock_timestamp, regularIds_toStorageBlock, blockIds]
  have hbranch_kept : ∀ b ∈ s.blocks.take f, ∀ id ∈ blockIds E b, ∀ c ∈ branch, id ∉ blockIds E c :=
    fun b hb id hid c hc => hapart.1 c hc b hb id hid
  constructor
  · intro hsame
    have hkey : ∀ b ∈ s.blocks.take f, ∀ id ∈ blockIds E b,
        branchTip.timestamp ≤ b.timestamp + Registry.horizon →
        oldTs ≤ b.timestamp + Registry.horizon ∧
          ∀ d ∈ s.blocks.drop f, ¬ (b.timestamp = d.timestamp ∧ id ∈ blockIds E d) := by
      intro b hb id hid hfresh
      have hmem := (hsame.index (b.timestamp, id)).mpr
        ((hderived _).mpr ⟨.inl ⟨b, hb, rfl, hid⟩, hfresh⟩)
      obtain ⟨⟨⟨-, hold⟩, hout⟩ | ⟨c, hc, -, hidc⟩, -⟩ := (mem_reorgRegistry_index hreg).mp hmem
      · exact ⟨hold, hout⟩
      · exact absurd hidc (hbranch_kept b hb id hid c hc)
    refine ⟨fun b hb hne hfresh => ?_, fun b hb d hd id hid hfresh hts hidd => ?_,
      fun b hb d hd id hid hidd => ?_⟩
    · obtain ⟨id, hid⟩ := List.exists_mem_of_ne_nil _ hne
      exact (hkey b hb id hid hfresh).1
    · exact (hkey b hb id hid hfresh).2 d hd ⟨hts.symm, hidd⟩
    · by_contra hno
      push Not at hno
      obtain ⟨c, hc, -, he⟩ := Registry.recordAll_entry_of_mem (E := E) (s.blocks.take f) Registry.empty
        ⟨b, hb, hid⟩
      have hnew : (Registry.derived E (s.blocks.take f ++ branch.map (toStorageBlock E))
          branchTip.timestamp).entry id = some c.index := by
        rw [Registry.derived_entry, Registry.ofChain_append, Registry.recordAll_map_toStorageBlock,
          Registry.recordAll_entry_of_notMem branch _ (hbranch_kept b hb id hid)]
        refine ⟨he, fun a ha hida => ?_⟩
        rcases List.mem_append.mp ha with ha | ha
        · exact hno a ha hida
        · obtain ⟨e, he', rfl⟩ := List.mem_map.mp ha
          rw [regularIds_toStorageBlock] at hida
          exact absurd hida (hbranch_kept b hb id hid e he')
      rw [← hsame.entry, reorgRegistry_entry_kept hreg (hbranch_kept b hb id hid)] at hnew
      exact hnew.2.1 d hd hidd
  · intro hstays
    refine ⟨fun id => Registry.entry_eq_of_some_iff fun i => ?_, fun k => ⟨fun hk => ?_, fun hk => ?_⟩⟩
    · by_cases hid : ∃ b ∈ branch, id ∈ blockIds E b
      · exact reorgRegistry_entry_branch hreg hapart hid i
      · push Not at hid
        rw [reorgRegistry_entry_kept hreg hid, Registry.derived_entry, Registry.ofChain_append,
          Registry.recordAll_map_toStorageBlock, Registry.recordAll_entry_of_notMem branch _ hid]
        refine and_congr_right fun hentry => ⟨?_, fun h => ?_⟩
        · rintro ⟨-, hkept⟩ b hb hidb
          rcases List.mem_append.mp hb with hb | hb
          · exact (hkept b hb hidb).2
          · obtain ⟨c, hc, rfl⟩ := List.mem_map.mp hb
            rw [regularIds_toStorageBlock] at hidb
            exact absurd hidb (hid c hc)
        · have hfresh : ∀ b ∈ s.blocks.take f, id ∈ blockIds E b →
              branchTip.timestamp ≤ b.timestamp + Registry.horizon :=
            fun b hb hidb => h b (List.mem_append_left _ hb) hidb
          obtain ⟨b₀, hb₀, hid₀⟩ := Registry.exists_of_ofChain_entry hentry
          refine ⟨fun d hd hidd => ?_, fun b hb hidb => ⟨?_, hfresh b hb hidb⟩⟩
          · obtain ⟨c, hc, hidc, hlt⟩ := hstays.again b₀ hb₀ d hd id hid₀ hidd
            exact absurd (hfresh c hc hidc) (by omega)
          · exact hstays.aged b hb (List.ne_nil_of_mem hidb) (hfresh b hb hidb)
    · exact (hderived k).mpr ⟨mem_reorgRegistry_index_kept hreg hk, ((mem_reorgRegistry_index hreg).mp hk).2⟩
    · obtain ⟨⟨b, hb, hts, hid⟩ | hbranch, hfresh⟩ := (hderived k).mp hk
      · rw [hts] at hfresh
        refine (mem_reorgRegistry_index hreg).mpr ⟨.inl ⟨⟨⟨b, List.mem_of_mem_take hb, hts, hid⟩, ?_⟩,
          fun d hd hkey => ?_⟩, by rw [hts]; exact hfresh⟩
        · rw [hts]
          exact hstays.aged b hb (List.ne_nil_of_mem hid) hfresh
        · exact hstays.key b hb d hd k.2 hid hfresh (hkey.1.symm.trans hts) hkey.2
      · exact (mem_reorgRegistry_index hreg).mpr ⟨.inr hbranch, hfresh⟩

end Registries

/-! ### The two paths -/

/-- The reorg and the block-by-block path give the same verdict and, where they accept, the
same chain, balances and registry. -/
def PathsAgree (E : Env) (now : ℕ) (s t : ChainState) (tip : Block) (branch : List Block) : Prop :=
  ((adoptBranchIfValid E now s branch tip).2 = .ok true ↔ (saveAll E now branch t).2 = .ok ()) ∧
    ((adoptBranchIfValid E now s branch tip).2 = .ok true →
      (adoptBranchIfValid E now s branch tip).1.blocks = (saveAll E now branch t).1.blocks ∧
        (adoptBranchIfValid E now s branch tip).1.balances = (saveAll E now branch t).1.balances ∧
        (adoptBranchIfValid E now s branch tip).1.registry.Same (saveAll E now branch t).1.registry)

/-- When they do: if the branch passes validation and the solvency dry-run and the registry
lists none of its ids below the fork, then it repeats no id, shares none with the kept
blocks, and what is kept stays. While a backoff refuses the branch, it must be one that the
other path refuses too. -/
def PathCondition (E : Env) (now : ℕ) (s : ChainState) (tip first branchTip : Block)
    (branch : List Block) : Prop :=
  branchValid E now s first.index branch = true →
    s.branchSolvent E first.index tip.index branch = .ok true →
    s.registry.branchReplaysBelow E first.index branch = false →
    if s.witnessBranchBackoffActive now branchTip.hash then
      ¬ Apart E (s.blocks.take first.index) branch
    else
      Apart E (s.blocks.take first.index) branch ∧
        KeptStays E (s.blocks.take first.index) (s.blocks.drop first.index) tip.timestamp
          branchTip.timestamp

theorem branchValid_iff (now : ℕ) {s : ChainState} {forkStart : ℕ} (branch : List Block)
    (hfin : s.trustedCheckpointHeight < forkStart) :
    branchValid E now s forkStart branch = true ↔
      ∀ b ∈ branch, validateBlockInternal E now s .allowTruncatedStored b = .ok () := by
  simp only [branchValid, Bool.and_eq_true, List.all_eq_true, decide_eq_true_eq, hfin, and_true]
  exact forall₂_congr fun b _ => ⟨isOk_eq_ok, fun h => by rw [h]; rfl⟩

/-- A branch that shares no id with the kept blocks is not listed below the fork. -/
theorem branchReplaysBelow_of_apart {s : ChainState} {tip : Block} {forkStart : ℕ}
    {branch : List Block} (hs : Settled E s) (ht : s.blocks.getLast? = some tip)
    (h : Apart E (s.blocks.take forkStart) branch) :
    s.registry.branchReplaysBelow E forkStart branch = false := by
  rw [Registry.branchReplaysBelow_eq_false]
  intro b hb id hid i hentry
  rw [(hs.registry tip ht).entry, Registry.derived_entry] at hentry
  obtain ⟨c, hc, hidc⟩ := (registrySound_ofChain (E := E) hs.slotted).entry id i hentry.1
  by_contra hlt
  have hmem : c ∈ s.blocks.take forkStart := by
    refine List.mem_of_getElem? (i := i) ?_
    rw [List.getElem?_take, if_pos (not_le.mp hlt)]
    exact hc
  exact h.1 b hb c hmem id hidc hid

/-- **Arrival-path independence, exactly when.** For a settled node and a linked branch of
full-witness blocks that leaves its chain above the checkpoint, whose parents it finds, and
a settled node without a pool that stopped at the fork parent: the reorg and the
block-by-block path agree if and only if `PathCondition` holds. -/
theorem arrival_path_independence {now : ℕ} {s t : ChainState} {tip first branchTip parent : Block}
    {branch : List Block} (hs : Settled E s) (ht : Settled E t) (hpool : t.orphans = [])
    (h : ForksOff s tip first branchTip branch) (hblocks : t.blocks = s.blocks.take first.index)
    (hparent : t.blocks.getLast? = some parent) (hprev : first.previousHash = parent.hash)
    (hfound : branch.IsChain fun a b => s.getParentBlockFor b = some a)
    (hfull : ∀ b ∈ branch, FullWitness b) :
    PathsAgree E now s t tip branch ↔ PathCondition E now s tip first branchTip branch := by
  have htlen : t.blocks.length = first.index := by rw [hblocks, h.take_length hs.slotted]
  have htpos := List.length_pos_of_ne_nil ht.nonempty
  have hgen : (s.getBlock 0).map (·.timestamp) = (t.getBlock 0).map (·.timestamp) := by
    rw [getBlock, getBlock, hblocks, List.getElem?_take, if_pos (by omega)]
  have hget : s.getBlock (first.index - 1) = some parent := by
    rw [← hparent, List.getLast?_eq_getElem?, htlen, hblocks, List.getElem?_take, if_pos (by omega)]
    rfl
  have hhead : ∀ b ∈ branch.head?, ∃ tip' parent', NextBlock t tip' b ∧
      s.getParentBlockFor b = some parent' ∧ ∀ c, ParentOf parent' c ↔ ParentOf tip' c := by
    intro b hb
    obtain rfl : first = b := by simpa [h.head] using hb
    exact ⟨parent, parent, ⟨hparent, htlen.symm, hprev⟩,
      getParentBlockFor_canonical (by omega) hget hprev.symm, fun _ => Iff.rfl⟩
  obtain ⟨hB, hBstate⟩ := saveAll_settled (E := E) now branch t ht hpool hgen hhead h.linked hfound hfull
  obtain ⟨hA, hAstate⟩ := adopt_settled (E := E) now hs ht h hblocks hfull
  have hvalid := branchValid_iff (E := E) now branch h.finality
  have hsolvent := branchSolvent_settled hs ht h hblocks
  -- where both accept, everything but the registry agrees already
  have hregs : (adoptBranchIfValid E now s branch tip).2 = .ok true →
      (saveAll E now branch t).2 = .ok () →
      ((adoptBranchIfValid E now s branch tip).1.registry.Same (saveAll E now branch t).1.registry ↔
        KeptStays E (s.blocks.take first.index) (s.blocks.drop first.index) tip.timestamp
          branchTip.timestamp) := by
    intro hokA hokB
    obtain ⟨hsettled, hblocksB⟩ := hBstate hokB
    have hapart := (hB.mp hokB).2.2
    rw [hblocks] at hapart
    have hlast : (saveAll E now branch t).1.blocks.getLast? = some (toStorageBlock E branchTip) := by
      simp [hblocksB, List.getLast?_append, List.getLast?_map, h.last]
    have hregB := hsettled.registry _ hlast
    rw [hblocksB, hblocks, toStorageBlock_timestamp] at hregB
    rw [(hAstate hokA).2.2, ← reorgRegistry_same (hs.registry tip h.chainTip) hapart]
    exact ⟨fun hsame => hsame.trans hregB, fun hsame => hsame.trans hregB.symm⟩
  have hrest : (adoptBranchIfValid E now s branch tip).2 = .ok true →
      (saveAll E now branch t).2 = .ok () →
      (adoptBranchIfValid E now s branch tip).1.blocks = (saveAll E now branch t).1.blocks ∧
        (adoptBranchIfValid E now s branch tip).1.balances = (saveAll E now branch t).1.balances := by
    intro hokA hokB
    obtain ⟨hsettled, hblocksB⟩ := hBstate hokB
    obtain ⟨hblocksA, ⟨recent, hreplay⟩, -⟩ := hAstate hokA
    refine ⟨by rw [hblocksA, hblocksB], ?_⟩
    have hfinal := hsettled.replay
    rw [hblocksB] at hfinal
    unfold replayChain at hfinal
    rw [replayBlocks_append, show replayBlocks t.blocks (fun _ => 0, []) = _ from ht.replay, ok_bind,
      replayBlocks_stored, hreplay] at hfinal
    exact (Prod.mk.inj (Except.ok.inj hfinal)).1
  unfold PathsAgree PathCondition
  rw [hvalid, hsolvent]
  simp only [Except.ok.injEq]
  constructor
  · rintro ⟨hiff, hsame⟩ hv hsolv hnone
    split_ifs with hback
    · -- the backoff refuses, so the other path must refuse: only replay is left
      intro hapart
      have hokB := hB.mpr ⟨hv, hsolv, by rw [hblocks]; exact hapart⟩
      have := (hA.mp (hiff.mpr hokB)).2.1
      rw [hback] at this
      cases this
    · have hokA := hA.mpr ⟨hv, by simpa using hback, hsolv, hnone⟩
      have hokB := hiff.mp hokA
      have hapart := (hB.mp hokB).2.2
      rw [hblocks] at hapart
      exact ⟨hapart, (hregs hokA hokB).mp (hsame hokA).2.2⟩
  · intro hcond
    have hiff : (adoptBranchIfValid E now s branch tip).2 = .ok true ↔
        (saveAll E now branch t).2 = .ok () := by
      constructor
      · intro hokA
        obtain ⟨hv, hback, hsolv, hnone⟩ := hA.mp hokA
        have hc := hcond hv hsolv hnone
        rw [hback] at hc
        exact hB.mpr ⟨hv, hsolv, by rw [hblocks]; exact hc.1⟩
      · intro hokB
        obtain ⟨hv, hsolv, hapart⟩ := hB.mp hokB
        rw [hblocks] at hapart
        have hnone := branchReplaysBelow_of_apart hs h.chainTip hapart
        have hc := hcond hv hsolv hnone
        split_ifs at hc with hback
        · exact absurd hapart hc
        · exact hA.mpr ⟨hv, by simpa using hback, hsolv, hnone⟩
    refine ⟨hiff, fun hokA => ?_⟩
    have hokB := hiff.mp hokA
    obtain ⟨hv, hback, hsolv, hnone⟩ := hA.mp hokA
    have hc := hcond hv hsolv hnone
    rw [hback] at hc
    obtain ⟨hb, hbal⟩ := hrest hokA hokB
    exact ⟨hb, hbal, (hregs hokA hokB).mpr hc.2⟩

theorem honest_branch_agrees :
    PathsAgree toyEnv Toy.now (Toy.fork [Toy.c2, Toy.c3 []]) Toy.atFork Toy.b2 [Toy.c2, Toy.c3 []] := by
  refine (arrival_path_independence (Toy.settled_fork _) Toy.settled_atFork rfl
    ⟨by decide +kernel, rfl, rfl, by decide +kernel, by decide +kernel, by decide +kernel⟩
    (by decide +kernel) (show _ = some Toy.b1 by decide +kernel) (by decide +kernel)
    (by decide +kernel) (by decide +kernel)).mpr fun _ _ _ => ?_
  rw [if_neg (by decide +kernel)]
  exact ⟨⟨by decide +kernel, by decide +kernel⟩, by decide +kernel, by decide +kernel, by decide +kernel⟩

/-- The branch that repeats a payment is adopted as a reorg, and refused block by block. -/
theorem replaying_branch_splits :
    Settled toyEnv (Toy.fork [Toy.c2, Toy.c3 [Toy.pay]]) ∧ Settled toyEnv Toy.atFork ∧
      ForksOff (Toy.fork [Toy.c2, Toy.c3 [Toy.pay]]) Toy.b2 Toy.c2 (Toy.c3 [Toy.pay])
        [Toy.c2, Toy.c3 [Toy.pay]] ∧
      (∀ b ∈ [Toy.c2, Toy.c3 [Toy.pay]], FullWitness b) ∧
      beatsCanonical Toy.b2 (Toy.c3 [Toy.pay]) (totalWork [Toy.c2, Toy.c3 [Toy.pay]])
        (totalWork [Toy.b2]) = true ∧
      (adoptBranchIfValid toyEnv Toy.now (Toy.fork [Toy.c2, Toy.c3 [Toy.pay]])
        [Toy.c2, Toy.c3 [Toy.pay]] Toy.b2).2 = .ok true ∧
      (saveAll toyEnv Toy.now [Toy.c2, Toy.c3 [Toy.pay]] Toy.atFork).2 ≠ .ok () := by
  refine ⟨Toy.settled_fork _, Toy.settled_atFork, ?_, ?_, ?_, ?_, ?_⟩
  · exact ⟨by decide +kernel, rfl, rfl, by decide +kernel, by decide +kernel, by decide +kernel⟩
  · decide +kernel
  · decide +kernel
  · decide +kernel
  · decide +kernel

end Alphanumeric
