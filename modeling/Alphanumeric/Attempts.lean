/-
# The attempts of a reorg

`try_adopt_orphan_branch` tries the ranked branches in order and adopts the first that
passes every gate. A refused branch leaves at most a note on its own tip, and a branch
is determined by its tip, so a refusal never stands in the way of a later branch.

Key definitions: `OrphanPool`, `PassesGates`, `WinningSequence`, `Candidate`.
Key theorems: `poolBranch_unique`, `adopt_of_passes`, `adopt_of_fails`, `adoptFirst_finds`.
-/
import Alphanumeric.ArrivalPath

namespace Alphanumeric

open Guard BlockchainError ChainState

variable {E : Env}

/-! ### The pool -/

/-- The pool is keyed by hash and holds no canonical block. -/
structure OrphanPool (s : ChainState) : Prop where
  keyed : (s.poolBlocks.map (·.hash)).Nodup
  stray : ∀ c ∈ s.poolBlocks, ∀ b ∈ s.blocks, c.hash ≠ b.hash

theorem OrphanPool.eq_of_hash {s : ChainState} (h : OrphanPool s) {a b : Block} (ha : a ∈ s.poolBlocks)
    (hb : b ∈ s.poolBlocks) (hab : a.hash = b.hash) : a = b :=
  List.inj_on_of_nodup_map h.keyed ha hb hab

theorem OrphanPool.lookup {s : ChainState} (h : OrphanPool s) {p : Block} (hp : p ∈ s.poolBlocks) :
    s.getOrphanBlockByHash p.hash = some p := by
  unfold getOrphanBlockByHash
  cases hfind : s.orphans.find? fun entry => entry.block.hash = p.hash with
  | none =>
    obtain ⟨entry, hentry, rfl⟩ := List.mem_map.mp hp
    have := List.find?_eq_none.mp hfind entry hentry
    simp at this
  | some entry =>
    have hmem : entry.block ∈ s.poolBlocks := List.mem_map_of_mem (List.mem_of_find?_eq_some hfind)
    have hhash : entry.block.hash = p.hash := by simpa using List.find?_some hfind
    rw [Option.map_some, h.eq_of_hash hmem hp hhash]

/-- Inside a branch the parent is found in the pool. -/
theorem OrphanPool.parent {s : ChainState} (h : OrphanPool s) {p c : Block} (hp : p ∈ s.poolBlocks)
    (hlink : BranchLink p c) : s.getParentBlockFor c = some p := by
  have hfind : s.getOrphanBlockByHash c.previousHash = some p := by
    rw [hlink.2]
    exact h.lookup hp
  unfold getParentBlockFor
  rw [if_neg (by rw [hlink.1]; omega)]
  split
  · rename_i b hb
    rw [if_neg, hfind]
    rw [hlink.2]
    exact fun heq => h.stray p hp b (List.mem_of_getElem? hb) heq.symm
  · exact hfind

/-- A branch whose first block is in the pool lies in the pool. -/
theorem ChainState.PoolBranch.mem {s : ChainState} {first : Block} {branch : List Block}
    (h : s.PoolBranch first branch) (hfirst : first ∈ s.poolBlocks) : ∀ b ∈ branch, b ∈ s.poolBlocks := by
  intro b hb
  cases branch with
  | nil => simp at hb
  | cons a rest =>
    obtain rfl : a = first := by simpa using h.head
    rcases List.mem_cons.mp hb with rfl | hb
    · exact hfirst
    · exact h.pool b hb

theorem ChainState.PoolBranch.isChain_children {s : ChainState} {first : Block} {branch : List Block}
    (h : s.PoolBranch first branch) : branch.IsChain fun x y => y ∈ s.branchChildren x := by
  have haux : ∀ {l : List Block}, l.IsChain BranchLink → (∀ b ∈ l.tail, b ∈ s.poolBlocks) →
      l.IsChain fun x y => y ∈ s.branchChildren x := by
    intro l hl hpool
    induction l with
    | nil => exact .nil
    | cons x rest ih =>
      cases rest with
      | nil => exact .singleton _
      | cons y rest =>
        rw [List.isChain_cons_cons] at hl ⊢
        refine ⟨mem_branchChildren.mpr ⟨hpool y (by simp), hl.1.1, hl.1.2⟩, ih hl.2 fun b hb => ?_⟩
        exact hpool b (by simp only [List.tail_cons] at hb ⊢; exact List.mem_cons_of_mem _ hb)
  exact haux h.linked h.pool

/-- **A branch is determined by its tip**: two branches on canonical parents with the same
tip hash are the same. -/
theorem poolBranch_unique {s : ChainState} (h : OrphanPool s) :
    ∀ {xs ys : List Block} {x y : Block},
      (∀ b ∈ xs, b ∈ s.poolBlocks) → (∀ b ∈ ys, b ∈ s.poolBlocks) →
      xs.IsChain BranchLink → ys.IsChain BranchLink →
      (∀ f ∈ xs.head?, ∃ p ∈ s.blocks, p.hash = f.previousHash) →
      (∀ f ∈ ys.head?, ∃ p ∈ s.blocks, p.hash = f.previousHash) →
      xs.getLast? = some x → ys.getLast? = some y → x.hash = y.hash → xs = ys := by
  intro xs
  induction xs using List.reverseRecOn with
  | nil => simp
  | append_singleton xs x' ih =>
    intro ys x y hxp hyp hxl hyl hxf hyf hx hy hxy
    obtain ⟨ys, rfl⟩ := List.getLast?_eq_some_iff.mp hy
    obtain rfl : x' = x := by simpa using hx
    have hxmem := hxp x' (by simp)
    have hymem := hyp y (by simp)
    obtain rfl := h.eq_of_hash hxmem hymem hxy
    congr 1
    rw [List.isChain_append] at hxl hyl
    -- the parents carry one hash, so both ends are at a canonical parent or neither
    have hclash : ∀ {zs : List Block} {z : Block}, (∀ b ∈ zs ++ [x'], b ∈ s.poolBlocks) →
        zs.getLast? = some z → BranchLink z x' → ¬ ∃ p ∈ s.blocks, p.hash = x'.previousHash := by
      rintro zs z hzp hz hlink ⟨p, hp, hhash⟩
      refine h.stray z (hzp z (by simp [List.mem_of_getLast? hz])) p hp ?_
      rw [hhash, hlink.2]
    cases hxs : xs.getLast? with
    | none =>
      obtain rfl : xs = [] := List.getLast?_eq_none_iff.mp hxs
      cases hys : ys.getLast? with
      | none => exact (List.getLast?_eq_none_iff.mp hys).symm
      | some z =>
        have hlink := hyl.2.2 z (by simp [hys]) x' (by simp)
        exact absurd (hxf x' (by simp)) (hclash hyp hys hlink)
    | some w =>
      have hlinkw := hxl.2.2 w (by simp [hxs]) x' (by simp)
      cases hys : ys.getLast? with
      | none =>
        obtain rfl : ys = [] := List.getLast?_eq_none_iff.mp hys
        exact absurd (hyf x' (by simp)) (hclash hxp hxs hlinkw)
      | some z =>
        have hlinkz := hyl.2.2 z (by simp [hys]) x' (by simp)
        have hhead : ∀ {zs : List Block}, zs ≠ [] → (zs ++ [x']).head? = zs.head? := by
          intro zs hne
          cases zs with
          | nil => exact absurd rfl hne
          | cons a as => rfl
        have hxne : xs ≠ [] := by
          rintro rfl
          simp at hxs
        have hyne : ys ≠ [] := by
          rintro rfl
          simp at hys
        rw [hhead hxne] at hxf
        rw [hhead hyne] at hyf
        exact ih (fun b hb => hxp b (by simp [hb])) (fun b hb => hyp b (by simp [hb])) hxl.1 hyl.1 hxf hyf
          hxs hys (hlinkw.2.symm.trans hlinkz.2)

/-! ### Winning sequences -/

/-- The verdicts of `adopt_branch_if_valid` on a branch, but for the backoff. -/
structure PassesGates (E : Env) (now : ℕ) (s : ChainState) (tip first : Block) (branch : List Block) :
    Prop where
  valid : ∀ b ∈ branch, validateBlockInternal E now s .allowTruncatedStored b = .ok ()
  witnessed : ∀ b ∈ branch, s.verificationFloor < b.index → blockSignaturesFullyVerified E b = true
  solvent : s.branchSolvent E first.index tip.index branch = .ok true
  noReplay : s.registry.branchReplaysBelow E first.index branch = false

/-- A linked sequence of orphans on a canonical parent above the checkpoint that passes the
gates and beats the canonical work from its fork. -/
structure WinningSequence (E : Env) (now : ℕ) (s : ChainState) (tip first branchTip : Block)
    (branch : List Block) : Prop where
  path : s.PoolBranch first branch
  firstPool : first ∈ s.poolBlocks
  parent : ∃ p, s.getBlock (first.index - 1) = some p ∧ p.hash = first.previousHash
  last : branch.getLast? = some branchTip
  finality : s.trustedCheckpointHeight < first.index
  gates : PassesGates E now s tip first branch
  beats : beatsCanonical tip branchTip (totalWork branch) (totalWork (s.blocks.drop first.index)) = true

/-- The rank of a branch of `s`. -/
def rankOf (s : ChainState) (first branchTip : Block) (branch : List Block) : RankedBranch :=
  ⟨branch, totalWork branch, totalWork (s.blocks.drop first.index), branchTip.hash⟩

/-- A winning sequence that leaves the chain at or below the tip is a contender. -/
theorem WinningSequence.contender {now : ℕ} {s : ChainState} {tip first branchTip : Block}
    {branch : List Block} (h : WinningSequence E now s tip first branchTip branch) (hs : Slotted s.blocks)
    (hp : OrphanPool s) (ht : s.blocks.getLast? = some tip) (hle : first.index ≤ tip.index) :
    s.Contender tip first branchTip branch := by
  refine ⟨h.path, h.firstPool, ?_, h.last, h.finality, h.beats⟩
  obtain ⟨p, hget, hhash⟩ := h.parent
  have hpos := h.finality
  have hlen := hs.lastIndex ht
  have hlt : first.index < s.blocks.length := by omega
  simp only [isReorgCandidate, Bool.and_eq_true, decide_eq_true_eq]
  refine ⟨⟨hle, ?_⟩, ?_⟩
  · rw [if_neg (by omega), hget]
    simpa using hhash
  · rw [getBlock, List.getElem?_eq_getElem hlt]
    simpa using (hp.stray first h.firstPool _ (List.getElem_mem hlt)).symm

theorem ChainState.Contender.forksOff {s : ChainState} {tip first branchTip : Block} {branch : List Block}
    (h : s.Contender tip first branchTip branch) (ht : s.blocks.getLast? = some tip) :
    ForksOff s tip first branchTip branch := by
  have hcand := h.candidate
  simp only [isReorgCandidate, Bool.and_eq_true, decide_eq_true_eq] at hcand
  exact ⟨ht, h.path.head, h.last, h.path.linked, hcand.1.1, h.aboveCheckpoint⟩

theorem ChainState.Contender.parent {s : ChainState} {tip first branchTip : Block} {branch : List Block}
    (h : s.Contender tip first branchTip branch) :
    ∃ p, s.getBlock (first.index - 1) = some p ∧ p.hash = first.previousHash := by
  have hcand := h.candidate
  have hpos := h.aboveCheckpoint
  simp only [isReorgCandidate, Bool.and_eq_true, decide_eq_true_eq] at hcand
  have hparent := hcand.1.2
  rw [if_neg (by omega)] at hparent
  cases hget : s.getBlock (first.index - 1) with
  | none => simp [hget] at hparent
  | some p => exact ⟨p, rfl, by simpa [hget] using hparent⟩

/-! ### One attempt -/

theorem ForksOff.exists_atFork {s : ChainState} {tip first branchTip : Block} {branch : List Block}
    (h : ForksOff s tip first branchTip branch) (hs : Settled E s) :
    ∃ t, Settled E t ∧ t.blocks = s.blocks.take first.index := by
  have hpos := h.finality
  have hle := h.fork_le
  have hlen := hs.slotted.lastIndex h.chainTip
  exact hs.take (by omega) (by omega)

/-- A branch that passes the gates is adopted, unless its tip is backing off. -/
theorem adopt_of_passes {now : ℕ} {s : ChainState} {tip first branchTip : Block} {branch : List Block}
    (hs : Settled E s) (h : ForksOff s tip first branchTip branch)
    (hg : PassesGates E now s tip first branch)
    (hb : s.witnessBranchBackoffActive now branchTip.hash = false) :
    (adoptBranchIfValid E now s branch tip).2 = .ok true := by
  obtain ⟨t, ht, hblocks⟩ := h.exists_atFork hs
  have hsolvent := hg.solvent
  rw [branchSolvent_settled hs ht h hblocks, Except.ok.injEq] at hsolvent
  obtain ⟨st, hst⟩ := exists_ok_of_isOk hsolvent
  obtain ⟨s', hcommit, -⟩ := commitBranch_settled now hs ht h hblocks hst
  have hvalid := (branchValid_iff now branch h.finality).mpr hg.valid
  simp only [adoptBranchIfValid, h.head, h.last, hvalid, hb, witnessShort_eq_nil.mpr hg.witnessed,
    hg.solvent, hg.noReplay, hcommit, Bool.not_true, Bool.false_eq_true, ne_eq, not_true_eq_false,
    if_false]

/-- A branch that fails a gate leaves the state as it was, but for a note on its own tip. -/
theorem adopt_of_fails (now : ℕ) {s : ChainState} {tip first branchTip : Block} {branch : List Block}
    (hs : Settled E s) (h : ForksOff s tip first branchTip branch)
    (hg : ¬ PassesGates E now s tip first branch) :
    ∃ w, adoptBranchIfValid E now s branch tip = ({ s with witnessBlocked := w }, .ok false) ∧
      ∀ e ∈ w, e ∈ s.witnessBlocked ∨ e.1 = branchTip.hash := by
  obtain ⟨t, ht, hblocks⟩ := h.exists_atFork hs
  have hsolvent := branchSolvent_settled hs ht h hblocks
  have hvalid := branchValid_iff (E := E) now branch h.finality
  by_cases hv : branchValid E now s first.index branch = true
  swap
  · refine ⟨s.witnessBlocked, ?_, fun e he => .inl he⟩
    simp [adoptBranchIfValid, h.head, h.last, hv]
  by_cases hb : s.witnessBranchBackoffActive now branchTip.hash = true
  · refine ⟨s.witnessBlocked, ?_, fun e he => .inl he⟩
    simp [adoptBranchIfValid, h.head, h.last, hv, hb]
  by_cases hw : s.witnessShort E branch = []
  swap
  · refine ⟨(s.recordWitnessBlocked now branchTip.hash (s.witnessShort E branch)).witnessBlocked, ?_, ?_⟩
    · simp only [adoptBranchIfValid, h.head, h.last, hv, hb, hw, Bool.not_true, Bool.false_eq_true, ne_eq,
        not_false_eq_true, if_false, if_true]
      rfl
    · intro e he
      simp only [recordWitnessBlocked, List.mem_cons, List.mem_filter] at he
      rcases he with rfl | ⟨⟨he, -⟩, -⟩
      · exact .inr rfl
      · exact .inl he
  refine ⟨s.witnessBlocked, ?_, fun e he => .inl he⟩
  cases hsolv : (replayBlocks branch (t.balances, seedRecent t.blocks t.blocks.length)).isOk with
  | false =>
    rw [hsolv] at hsolvent
    simp [adoptBranchIfValid, h.head, h.last, hv, hb, hw, hsolvent]
  | true =>
    rw [hsolv] at hsolvent
    have hreplay : s.registry.branchReplaysBelow E first.index branch = true := by
      by_contra hno
      exact hg ⟨hvalid.mp hv, witnessShort_eq_nil.mp hw, hsolvent, by simpa using hno⟩
    simp [adoptBranchIfValid, h.head, h.last, hv, hb, hw, hsolvent, hreplay]

/-! ### The attempts in order -/

/-- Every memo entry in its backoff is on the tip of one of `refused`. -/
def BackoffOnly (now : ℕ) (s : ChainState) (refused : List Hash) : Prop :=
  ∀ e ∈ s.witnessBlocked, now < e.2.retryAfter → e.1 ∈ refused

theorem backoff_false {now : ℕ} {s : ChainState} {refused : List Hash} (h : BackoffOnly now s refused)
    {hash : Hash} (hout : hash ∉ refused) : s.witnessBranchBackoffActive now hash = false := by
  unfold witnessBranchBackoffActive
  cases hl : s.witnessBlocked.lookup hash with
  | none => rfl
  | some e =>
    obtain ⟨l₁, l₂, hlist, -⟩ := List.lookup_eq_some_iff.mp hl
    have hmem : (hash, e) ∈ s.witnessBlocked := by
      rw [hlist]
      simp
    simp only [Option.any_some, decide_eq_false_iff_not, not_lt]
    by_contra hlt
    exact hout (h _ hmem (not_le.mp hlt))

/-- A branch the search may try on `s`. -/
structure Candidate (s : ChainState) (tip : Block) (branch : List Block) (first branchTip : Block) :
    Prop where
  forks : ForksOff s tip first branchTip branch
  pool : ∀ b ∈ branch, b ∈ s.poolBlocks
  parent : ∃ p ∈ s.blocks, p.hash = first.previousHash

theorem Candidate.unique {s : ChainState} {tip first first' branchTip branchTip' : Block}
    {branch branch' : List Block} (hp : OrphanPool s) (h : Candidate s tip branch first branchTip)
    (h' : Candidate s tip branch' first' branchTip') (hhash : branchTip.hash = branchTip'.hash) :
    branch = branch' := by
  refine poolBranch_unique hp h.pool h'.pool h.forks.linked h'.forks.linked ?_ ?_ h.forks.last
    h'.forks.last hhash
  · intro f hf
    obtain rfl : first = f := by simpa [h.forks.head] using hf
    exact h.parent
  · intro f hf
    obtain rfl : first' = f := by simpa [h'.forks.head] using hf
    exact h'.parent

/-- `s` with another witness memo. -/
def withMemo (s : ChainState) (w : List (Hash × WitnessBlockedBranch)) : ChainState :=
  { s with witnessBlocked := w }

theorem Settled.withMemo {s : ChainState} (hs : Settled E s) (w : List (Hash × WitnessBlockedBranch)) :
    Settled E (withMemo s w) :=
  ⟨hs.nonempty, hs.slotted, hs.linked, hs.dated, hs.registry, hs.balances, hs.balancesHeight, hs.clean⟩

theorem ForksOff.withMemo {s : ChainState} {tip first branchTip : Block} {branch : List Block}
    (h : ForksOff s tip first branchTip branch) (w : List (Hash × WitnessBlockedBranch)) :
    ForksOff (withMemo s w) tip first branchTip branch :=
  ⟨h.chainTip, h.head, h.last, h.linked, h.fork_le, h.finality⟩

theorem passesGates_withMemo {now : ℕ} {s : ChainState} {tip first : Block} {branch : List Block}
    {w : List (Hash × WitnessBlockedBranch)} :
    PassesGates E now (withMemo s w) tip first branch ↔ PassesGates E now s tip first branch :=
  ⟨fun h => ⟨h.valid, h.witnessed, h.solvent, h.noReplay⟩,
    fun h => ⟨h.valid, h.witnessed, h.solvent, h.noReplay⟩⟩

/-- **The attempts find the first branch that passes.** Either no branch of the list passes
the gates and none is adopted, or the first that does is. -/
theorem adoptFirst_finds (now : ℕ) {s : ChainState} {tip : Block} (hs : Settled E s)
    (hp : OrphanPool s) :
    ∀ (branches : List (List Block)) (refused : List (List Block))
      (w : List (Hash × WitnessBlockedBranch)),
      (∀ branch ∈ refused ++ branches, ∃ first branchTip, Candidate s tip branch first branchTip) →
      (∀ branch ∈ refused, ∀ first branchTip, Candidate s tip branch first branchTip →
        ¬ PassesGates E now s tip first branch) →
      BackoffOnly now (withMemo s w) (refused.filterMap fun b => b.getLast?.map (·.hash)) →
      (∃ w', adoptFirst E now tip branches (withMemo s w) = (withMemo s w', .ok false) ∧
        ∀ branch ∈ branches, ∀ first branchTip, Candidate s tip branch first branchTip →
          ¬ PassesGates E now s tip first branch) ∨
      ∃ pre branch post w' s' first branchTip, branches = pre ++ branch :: post ∧
        Candidate s tip branch first branchTip ∧ PassesGates E now s tip first branch ∧
        (∀ b ∈ pre, ∀ f l, Candidate s tip b f l → ¬ PassesGates E now s tip f b) ∧
        adoptBranchIfValid E now (withMemo s w') branch tip = (s', .ok true) ∧
        adoptFirst E now tip branches (withMemo s w) = (s', .ok true)
  | [], _, w, _, _, _ => .inl ⟨w, rfl, by simp⟩
  | branch :: rest, refused, w, hcand, hfail, hback => by
    obtain ⟨first, branchTip, hc⟩ := hcand branch (by simp)
    by_cases hg : PassesGates E now s tip first branch
    · -- a refused branch with the same tip would be this one
      have hout : branchTip.hash ∉ refused.filterMap fun b => b.getLast?.map (·.hash) := by
        intro hmem
        obtain ⟨x, hx, hxl⟩ := List.mem_filterMap.mp hmem
        obtain ⟨f, l, hcx⟩ := hcand x (by simp [hx])
        rw [hcx.forks.last, Option.map_some, Option.some.injEq] at hxl
        have hsame := hcx.unique hp hc hxl
        subst hsame
        obtain rfl : f = first := by simpa [hcx.forks.head] using hc.forks.head
        exact hfail x hx f l hcx hg
      have hok := adopt_of_passes (hs.withMemo w) (hc.forks.withMemo w) (passesGates_withMemo.mpr hg)
        (backoff_false hback hout)
      refine .inr ⟨[], branch, rest, w, (adoptBranchIfValid E now (withMemo s w) branch tip).1, first,
        branchTip, rfl, hc, hg, by simp, Prod.ext rfl hok, ?_⟩
      have heq : adoptBranchIfValid E now (withMemo s w) branch tip =
          ((adoptBranchIfValid E now (withMemo s w) branch tip).1, .ok true) := Prod.ext rfl hok
      unfold adoptFirst
      rw [heq]
    · obtain ⟨w₁, hadopt, hw₁⟩ := adopt_of_fails now (hs.withMemo w) (hc.forks.withMemo w)
        fun h => hg (passesGates_withMemo.mp h)
      have hstep : adoptFirst E now tip (branch :: rest) (withMemo s w) =
          adoptFirst E now tip rest (withMemo s w₁) := by
        simp only [adoptFirst, hadopt]
        rfl
      have hall : ∀ b ∈ [branch], ∀ f l, Candidate s tip b f l → ¬ PassesGates E now s tip f b := by
        intro b hb f l hcb
        obtain rfl := List.mem_singleton.mp hb
        obtain rfl : f = first := by simpa [hcb.forks.head] using hc.forks.head
        exact hg
      have hback' : BackoffOnly now (withMemo s w₁)
          ((refused ++ [branch]).filterMap fun b => b.getLast?.map (·.hash)) := by
        intro e he hlt
        rw [List.filterMap_append]
        rcases hw₁ e he with hold | hnew
        · exact List.mem_append_left _ (hback e hold hlt)
        · refine List.mem_append_right _ ?_
          simp [hc.forks.last, hnew]
      have ih := adoptFirst_finds now hs hp rest (refused ++ [branch]) w₁ (by simpa using hcand)
        (fun b hb => by
          rcases List.mem_append.mp hb with hb | hb
          · exact hfail b hb
          · exact hall b hb) hback'
      rw [hstep]
      rcases ih with ⟨w', hres, hnone⟩ | ⟨pre, b, post, w', s', f, l, rfl, hcb, hgb, hpre, ha, hres⟩
      · refine .inl ⟨w', hres, fun b hb => ?_⟩
        rcases List.mem_cons.mp hb with rfl | hb
        · exact hall b (by simp)
        · exact hnone b hb
      · refine .inr ⟨branch :: pre, b, post, w', s', f, l, rfl, hcb, hgb, fun x hx => ?_, ha, hres⟩
        rcases List.mem_cons.mp hx with rfl | hx
        · exact hall x (by simp)
        · exact hpre x hx

end Alphanumeric
