/-
# Ingest only improves the chain

Blocks come in over several paths at once: a convergence to a beacon, the relay stream, blocks that
peers deliver. Each path asks relays, peers and clocks between its steps, and each step that touches
the chain is one entry of the engine. So in every run of any of them in any order, whatever they
are answered and wherever they are cancelled, the chain changes only as a run of the engine does:
the work and the checkpoint never decrease, the checkpoint never passes the tip, and the blocks at
or below it stay.

Key definitions: `OnEngine`, `IngestTask`.
Key theorems: `convergeToCanonical_obeys`, `syncWithBlockRelay_obeys`, `acceptPeerBlock_obeys`,
`ingest_only_improves`.
-/
import Alphanumeric.Converge
import Alphanumeric.Finality

namespace Alphanumeric

open ChainState Proc

/-- The chain changes by engine steps, or not at all. -/
def OnEngine (E : Env) (s t : NodeState) : Prop := ∃ tr, EngineRun E s.chain tr t.chain

theorem OnEngine.refl {E : Env} (s : NodeState) : OnEngine E s s := ⟨[], .nil _⟩

theorem OnEngine.trans {E : Env} (s t u : NodeState) (h : OnEngine E s t) (h' : OnEngine E t u) : OnEngine E s u := by
  obtain ⟨tr, hrun⟩ := h
  obtain ⟨tr', hrun'⟩ := h'
  exact ⟨tr ++ tr', hrun.trans hrun'⟩

section Tasks

variable {E : Env}

theorem onChain_obeys {α : Type} {op : ChainState → ChainState × α}
    (h : ∀ c, ∃ entry : ChainOp, (op c).1 = entry.run E c) : Obeys (OnEngine E) (onChain op) := by
  refine .act fun s => ?_
  obtain ⟨entry, heq⟩ := h s.chain
  obtain ⟨tr, hrun, -⟩ := chainOp_reaches (E := E) s.chain entry
  exact ⟨tr, heq ▸ hrun⟩

theorem onNode_obeys {α : Type} (op : NodeState → α × NodeState) : Obeys (OnEngine E) (onNode op) :=
  .act fun s => OnEngine.refl s

theorem readChain_obeys {α : Type} (g : ChainState → α) : Obeys (OnEngine E) (readChain g) := .read OnEngine.refl

theorem read_obeys {α : Type} (g : NodeState → α) : Obeys (OnEngine E) (Proc.read g : NodeM α) := .read OnEngine.refl

/-! ### Blocks that peers deliver -/

theorem saveReceipt_obeys (b : Block) : Obeys (OnEngine E) (saveReceipt E b) :=
  .bind .query fun now => onChain_obeys fun _ => ⟨.saveReceiptVerifiedBlock now b, rfl⟩

theorem advanceCheckpoint_obeys (height : ℕ) : Obeys (OnEngine E) (advanceCheckpoint height) :=
  onChain_obeys fun _ => ⟨.advanceCheckpointBehind height, rfl⟩

theorem resolveFullTxForBlock_obeys (tx : Transaction) (peer : Bool) (budget : ℕ) :
    Obeys (OnEngine E) (resolveFullTxForBlock E tx peer budget) := by
  refine .bind (onNode_obeys _) fun cached => ?_
  split
  · exact .pure
  split
  · exact .pure
  refine .bind (read_obeys _) fun pending => ?_
  dsimp only
  split
  · exact .pure
  split
  · exact .pure
  refine .bind .query fun expired => ?_
  split
  · exact .pure
  split
  · exact .pure
  refine .bind .query fun slot => ?_
  split
  · exact .pure
  · exact .bind .query fun _ => .pure

theorem resolveWitnesses_obeys (peer : Bool) : ∀ (txs : List Transaction) (budget : ℕ) (resolved : List Transaction),
    Obeys (OnEngine E) (resolveWitnesses E peer budget txs resolved)
  | [], _, _ => .pure
  | tx :: txs, budget, resolved => by
    refine .bind .query fun expired => ?_
    split
    · exact .pure
    split
    · exact resolveWitnesses_obeys peer txs budget resolved
    refine .bind (resolveFullTxForBlock_obeys tx peer budget) fun found => ?_
    split
    split
    · exact .pure
    · exact resolveWitnesses_obeys peer txs _ _

theorem cachedVerdict_obeys (key : ValidationKey) : Obeys (OnEngine E) (cachedVerdict key) := by
  refine .bind (read_obeys _) fun entry => ?_
  split
  · exact .pure
  refine .bind .query fun now => ?_
  split
  · exact .pure
  · exact onNode_obeys _

theorem uncachedVerdict_obeys (b : Block) (peer : Bool) : Obeys (OnEngine E) (uncachedVerdict E b peer) := by
  refine .bind (resolveWitnesses_obeys peer _ _ _) fun resolved => ?_
  split
  · exact .pure
  refine .bind .query fun permit => ?_
  split
  · exact .pure
  split
  · exact .pure
  refine .bind (onNode_obeys _) fun _ => .bind .query fun now => .bind (readChain_obeys _) fun verdict => ?_
  exact .bind .query fun stamp => .bind (onNode_obeys _) fun _ => .bind .query fun later =>
    .bind (onNode_obeys _) fun _ => .pure

theorem acceptPeerBlock_obeys (b : Block) (peer : Bool) : Obeys (OnEngine E) (acceptPeerBlock E b peer) := by
  refine .bind ?_ fun verified => ?_
  · unfold verifyBlockWithWitness
    split
    · exact .pure
    refine .bind (cachedVerdict_obeys _) fun cached => ?_
    split
    · exact .pure
    · exact uncachedVerdict_obeys b peer
  · split
    · exact .bind (saveReceipt_obeys b) fun _ => .pure
    · exact .pure

/-! ### The relay stream -/

theorem fetchRelayBlocks_obeys (start stop : ℕ) : Obeys (OnEngine E) (fetchRelayBlocks E start stop) := by
  unfold fetchRelayBlocks
  split
  · exact .pure
  · exact .bind .query fun _ => .pure

theorem saveReceiptWithTips_obeys (b : Block) : Obeys (OnEngine E) (saveReceiptWithTips E b) :=
  .bind .query fun now => onChain_obeys fun _ => ⟨.saveReceiptVerifiedBlock now b, rfl⟩

theorem ingestRelayed_obeys (b : Block) : Obeys (OnEngine E) (ingestRelayed E b) := by
  refine .bind (readChain_obeys _) fun floor => ?_
  split
  split
  · exact .pure
  refine .bind (saveReceiptWithTips_obeys b) fun saved => ?_
  split
  · exact .pure
  · split
    · exact .bind (advanceCheckpoint_obeys _) fun _ => .pure
    · exact .pure

theorem ingestAllRelayed_obeys : ∀ blocks : List Block, Obeys (OnEngine E) (ingestAllRelayed E blocks)
  | [] => .pure
  | b :: bs => .bind (ingestRelayed_obeys b) fun _ => .bind (ingestAllRelayed_obeys bs) fun _ => .pure

theorem relaySyncRounds_obeys (currentHeight : ℕ) : ∀ (rounds cursor : ℕ) (total : ℕ × Bool),
    Obeys (OnEngine E) (relaySyncRounds E currentHeight rounds cursor total)
  | 0, _, _ => .pure
  | rounds + 1, cursor, (saved, accepted) => by
    refine .bind (fetchRelayBlocks_obeys _ _) fun blocks => ?_
    split
    · exact .pure
    · split
      · exact relaySyncRounds_obeys currentHeight rounds _ _
      · exact .pure
    · refine .bind (readChain_obeys _) fun before => .bind (ingestAllRelayed_obeys _) fun more => ?_
      refine .bind (readChain_obeys _) fun after => ?_
      split
      · exact .pure
      · exact relaySyncRounds_obeys currentHeight rounds _ _

theorem syncWithBlockRelay_obeys (cfg : RelaySyncConfig) (currentHeight : ℕ) :
    Obeys (OnEngine E) (syncWithBlockRelay E cfg currentHeight) := by
  refine .bind (relaySyncRounds_obeys currentHeight _ _ _) fun total => ?_
  split
  · exact .pure
  · split
    · exact .pure
    · split
      · exact .pure
      · exact .pure

/-! ### Convergence to a beacon -/

theorem walkDown_obeys (beacon : TipBeaconInfo) (floor winBase : ℕ) : ∀ (fuel : ℕ) (w : WalkState),
    Obeys (OnEngine E) (walkDown E beacon floor winBase fuel w)
  | 0, _ => .pure
  | fuel + 1, w => by
    have hfound : ∀ b : Block, Obeys (OnEngine E) (do
        let localHash ← readChain fun c => (c.getBlock b.index).map (·.hash)
        if localHash = some b.hash then return .ended (.found b.index (b :: w.canon)) (keepBody w.bodies b)
        else if b.index ≤ floor then return .ended .noneBelowFloor (keepBody w.bodies b)
        else if b.index - 1 < winBase then
          return .nextWindow ⟨keepBody w.bodies b, b :: w.canon, b.previousHash, b.index - 1⟩
        else
          walkDown E beacon floor winBase fuel
            ⟨keepBody w.bodies b, b :: w.canon, b.previousHash, b.index - 1⟩ : NodeM WalkEnd) := by
      intro b
      refine .bind (readChain_obeys _) fun localHash => ?_
      split
      · exact .pure
      split
      · exact .pure
      split
      · exact .pure
      · exact walkDown_obeys beacon floor winBase fuel _
    unfold walkDown
    dsimp only
    split
    · exact hfound _
    · refine .bind (.bind .query fun _ => .pure) fun body => ?_
      cases body with
      | found b => exact hfound b
      | missing => exact .pure
      | transient => exact .pure

theorem walkWindows_obeys (fuel : ℕ) (beacon : TipBeaconInfo) (floor : ℕ) : ∀ (rounds : ℕ) (w : WalkState),
    Obeys (OnEngine E) (walkWindows E fuel beacon floor rounds w)
  | 0, _ => .pure
  | rounds + 1, w => by
    refine .bind ?_ fun window => ?_
    · unfold windowBodies
      split
      · exact .pure
      · refine .bind (fetchRelayBlocks_obeys _ _) fun blocks => ?_
        split
        · exact .pure
        · exact .pure
        · exact .pure
    split
    · exact .pure
    · refine .bind (walkDown_obeys beacon floor _ fuel _) fun walked => ?_
      split
      · exact .pure
      · exact .pure
      · exact walkWindows_obeys fuel beacon floor rounds _

theorem convergeStalled_obeys (beacon : TipBeaconInfo) (entryTip : ℕ) :
    Obeys (OnEngine E) (convergeStalled beacon entryTip) := by
  refine .bind (onNode_obeys _) fun lastTip => .bind (read_obeys _) fun previous => ?_
  dsimp only
  split
  · exact .bind (onNode_obeys _) fun _ => .pure
  · refine .bind .query fun nowMs => .bind (read_obeys _) fun lastMs => ?_
    split
    · exact .bind (onNode_obeys _) fun _ => .pure
    · exact .bind (read_obeys _) fun _ => .pure

theorem appendBlocks_obeys (floor ceiling : ℕ) : ∀ blocks : List Block,
    Obeys (OnEngine E) (appendBlocks E floor ceiling blocks)
  | [] => .pure
  | b :: bs => by
    refine .bind (readChain_obeys _) fun sigsOk => ?_
    split
    · exact .pure
    refine .bind (saveReceiptWithTips_obeys b) fun saved => ?_
    split
    · exact .pure
    · split
      · exact .bind (advanceCheckpoint_obeys _) fun _ => appendBlocks_obeys floor ceiling bs
      · exact appendBlocks_obeys floor ceiling bs

theorem appendRound_obeys (cfg : RelaySyncConfig) (beacon : TipBeaconInfo) (tip : ℕ) (canon : List Block) :
    Obeys (OnEngine E) (appendRound E cfg beacon tip canon) := by
  unfold appendRound
  split
  · exact .pure
  dsimp only
  split
  · exact .bind (syncWithBlockRelay_obeys cfg tip) fun _ => .pure
  · exact .bind (readChain_obeys _) fun floor => appendBlocks_obeys floor _ _

theorem divergentRound_obeys (beacon : TipBeaconInfo) (tip ancestor : ℕ) (canon : List Block) :
    Obeys (OnEngine E) (divergentRound E beacon tip ancestor canon) := by
  unfold divergentRound
  dsimp only
  split
  · exact .pure
  refine .bind (readChain_obeys _) fun wins => ?_
  split
  · exact .pure
  refine .bind (readChain_obeys _) fun checkpoint => ?_
  split
  · exact .pure
  split
  · exact .pure
  split
  · exact .pure
  refine .bind .query fun now => .bind (onChain_obeys fun _ => ⟨.adoptExternalBranch now _, rfl⟩) fun adopted => ?_
  split
  · exact .pure
  · exact .pure
  · exact .pure

theorem convergeRound_obeys (cfg : RelaySyncConfig) (fuel : ℕ) (beacon : TipBeaconInfo) (bodies : List Block) :
    Obeys (OnEngine E) (convergeRound E cfg fuel beacon bodies) := by
  have hafter : ∀ (tip : ℕ) (bodies : List Block), Obeys (OnEngine E) (do
      let after ← readChain (·.getLatestBlockIndex)
      if after = tip then return .stop else return .again bodies : NodeM Round) := by
    intro tip bodies
    refine .bind (readChain_obeys _) fun after => ?_
    split
    · exact .pure
    · exact .pure
  refine .bind (readChain_obeys _) fun here => ?_
  split
  split
  · exact .pure
  refine .bind (readChain_obeys _) fun floor => .bind (walkWindows_obeys fuel beacon floor _ _) fun found => ?_
  split
  · exact .pure
  · exact .pure
  · exact .pure
  · exact .pure
  · dsimp only
    split
    · refine .bind (appendRound_obeys cfg beacon _ _) fun early => ?_
      cases early with
      | some v => exact .pure
      | none => exact hafter _ _
    · refine .bind (divergentRound_obeys beacon _ _ _) fun early => ?_
      cases early with
      | some v => exact .pure
      | none => exact hafter _ _

theorem convergeOutcome_obeys (beacon : TipBeaconInfo) (entryTip : ℕ) :
    Obeys (OnEngine E) (convergeOutcome beacon entryTip) := by
  refine .bind (readChain_obeys _) fun here => ?_
  split
  split
  · exact .pure
  split
  · exact .pure
  · exact .pure

theorem convergeRounds_obeys (cfg : RelaySyncConfig) (fuel : ℕ) (beacon : TipBeaconInfo) (entryTip : ℕ) :
    ∀ (rounds : ℕ) (bodies : List Block), Obeys (OnEngine E) (convergeRounds E cfg fuel beacon entryTip rounds bodies)
  | 0, _ => convergeOutcome_obeys beacon entryTip
  | rounds + 1, bodies => by
    refine .bind (convergeRound_obeys cfg fuel beacon bodies) fun round => ?_
    split
    · exact .pure
    · exact .pure
    · exact convergeOutcome_obeys beacon entryTip
    · exact convergeRounds_obeys cfg fuel beacon entryTip rounds _

theorem convergeToCanonical_obeys (cfg : RelaySyncConfig) (fuel : ℕ) (beacon : TipBeaconInfo) :
    Obeys (OnEngine E) (convergeToCanonical E cfg fuel beacon) := by
  refine .bind (readChain_obeys _) fun entryTip => .bind (convergeStalled_obeys beacon entryTip) fun stalled => ?_
  split
  · exact .pure
  · exact convergeRounds_obeys cfg fuel beacon entryTip _ _

end Tasks

/-! ### All of them at once -/

/-- The tasks that bring blocks in, run for what they do. -/
inductive IngestTask (E : Env) : NodeM Unit → Prop
  | converge (cfg : RelaySyncConfig) (fuel : ℕ) (beacon : TipBeaconInfo) :
    IngestTask E (convergeToCanonical E cfg fuel beacon >>= fun _ => pure ())
  | relay (cfg : RelaySyncConfig) (currentHeight : ℕ) :
    IngestTask E (syncWithBlockRelay E cfg currentHeight >>= fun _ => pure ())
  | peer (b : Block) (peer : Bool) : IngestTask E (acceptPeerBlock E b peer >>= fun _ => pure ())

theorem IngestTask.obeys {E : Env} {p : NodeM Unit} (h : IngestTask E p) : Obeys (OnEngine E) p := by
  cases h with
  | converge cfg fuel beacon => exact .bind (convergeToCanonical_obeys cfg fuel beacon) fun _ => .pure
  | relay cfg currentHeight => exact .bind (syncWithBlockRelay_obeys cfg currentHeight) fun _ => .pure
  | peer b peer => exact .bind (acceptPeerBlock_obeys b peer) fun _ => .pure

/-- A run of any of the tasks in any order, whatever they are answered; each may be cancelled before any step. -/
abbrev IngestRun (E : Env) : NodeState × List (NodeM Unit) → List ((NodeState × List (NodeM Unit)) × Unit) →
    NodeState × List (NodeM Unit) → Prop :=
  Trace.Run (Interleave (fun _ _ => True) (IngestTask E))

/-- **Ingest only improves the chain.** Between any two moments of a run the chain changed by engine steps; so it has no
less work and is the same or better, its checkpoint is no lower and at most its tip, and the blocks at or below the
checkpoint are in place. -/
theorem ingest_only_improves (E : Env) {s : NodeState} (hs : FinalityInv s.chain)
    {tr tr' : List ((NodeState × List (NodeM Unit)) × Unit)} {c c' : NodeState × List (NodeM Unit)}
    (h : IngestRun E (s, []) tr c) (h' : IngestRun E c tr' c') :
    OnEngine E c.1 c'.1 ∧ Succeeds c.1.chain c'.1.chain ∧ FinalityInv c'.1.chain ∧
      (c'.1.chain.blocks = c.1.chain.blocks ∨ Improves c.1.chain.blocks c'.1.chain.blocks) := by
  have hGI : ∀ s t : NodeState, FinalityInv s.chain → OnEngine E s t → FinalityInv t.chain := by
    rintro s t hinv ⟨tr, hrun⟩
    exact run_finalityInv hrun hinv
  have hrelates : ∀ {c c' : NodeState × List (NodeM Unit)} {tr : List ((NodeState × List (NodeM Unit)) × Unit)},
      Pool (OnEngine E) (fun s => FinalityInv s.chain) (OnEngine E) (fun _ _ => True) c → IngestRun E c tr c' →
      Pool (OnEngine E) (fun s => FinalityInv s.chain) (OnEngine E) (fun _ _ => True) c' ∧ OnEngine E c.1 c'.1 :=
    fun hc hrun => interleave_relates OnEngine.refl OnEngine.trans (fun _ _ _ => id) hGI
      (fun _ hp t _ => hp.obeys.holds t) hc hrun
  obtain ⟨hpool, -⟩ := hrelates ⟨hs, by simp⟩ h
  obtain ⟨hpool', hengine⟩ := hrelates hpool h'
  obtain ⟨steps, hsteps⟩ := hengine
  exact ⟨⟨steps, hsteps⟩, run_succeeds hsteps hpool.inv, hpool'.inv, run_improves hsteps hpool.inv⟩

/-- A node on `b1` with empty caches. -/
def Toy.node : NodeState where
  chain := .holding toyEnv [Toy.genesis, Toy.b1] []
  mempool _ := none
  witnessCache _ := none
  validationCache := []
  convergeStallTip := 0
  convergeStallCycles := 0
  convergeStallLastMs := 0
  fullSyncInFlight := false

/-- Clocks at `Toy.now`, permits granted, and nobody else answers. -/
def quietAnswer : ∀ q : Query, Answer q
  | .unixSecs => Toy.now
  | .unixMillis => Toy.now
  | .relayPages _ _ => none
  | .relayBlock _ _ => []
  | .peerBlocks _ _ => none
  | .txWitness _ => none
  | .sliceExpired => false
  | .witnessDeadline => false
  | .fetchSlot => true
  | .validationPermit => true

/-- Two peers deliver `c2` and `b2`; their tasks take `n` turns each, one after the other. -/
def deliveries (n : ℕ) : NodeState × List (NodeM Unit) :=
  (List.replicate n [0, 1]).flatten.foldl (turn quietAnswer)
    (Toy.node, [acceptPeerBlock toyEnv Toy.c2 true >>= fun _ => pure (),
      acceptPeerBlock toyEnv Toy.b2 true >>= fun _ => pure ()])

def tipHash (c : NodeState × List (NodeM Unit)) : Option Hash := c.1.chain.blocks.getLast?.map (·.hash)

/-- `b2` is in first, and `c2`, which ranks higher, takes its place. -/
theorem deliveries_improve : ∃ tr tr', IngestRun toyEnv (Toy.node, []) tr (deliveries 12) ∧
    IngestRun toyEnv (deliveries 12) tr' (deliveries 14) ∧ tipHash (deliveries 12) = some Toy.b2.hash ∧
    tipHash (deliveries 14) = some Toy.c2.hash ∧
    Improves (deliveries 12).1.chain.blocks (deliveries 14).1.chain.blocks := by
  have htip : tipHash (deliveries 12) = some Toy.b2.hash := by decide +kernel
  have htip' : tipHash (deliveries 14) = some Toy.c2.hash := by decide +kernel
  have hstart : ∃ tr, IngestRun toyEnv (Toy.node, []) tr (deliveries 0) :=
    ⟨_, .cons (.start _ (.peer Toy.b2 true)) (.single (.start _ (.peer Toy.c2 true)))⟩
  have hmore : ∀ m n k, k = m + n → ∃ tr, IngestRun toyEnv (deliveries m) tr (deliveries k) := by
    rintro m n k rfl
    obtain ⟨tr, hrun⟩ := @run_turns NodeState Query Answer (fun _ _ => True) (IngestTask toyEnv) quietAnswer
      (fun _ => trivial) (List.replicate n [0, 1]).flatten (deliveries m)
    refine ⟨tr, ?_⟩
    rwa [deliveries, ← List.foldl_append, ← List.flatten_append, List.replicate_append_replicate] at hrun
  obtain ⟨tr₀, h₀⟩ := hstart
  obtain ⟨tr₁, h₁⟩ := hmore 0 12 12 rfl
  obtain ⟨tr', h'⟩ := hmore 12 2 14 rfl
  have hrun := h₀.trans h₁
  refine ⟨_, _, hrun, h', htip, htip', ?_⟩
  have hfinal := ingest_only_improves toyEnv (s := Toy.node) ⟨by decide +kernel, by decide +kernel⟩ hrun h'
  refine hfinal.2.2.2.resolve_left fun heq => ?_
  have hsame : tipHash (deliveries 14) = tipHash (deliveries 12) := by rw [tipHash, heq, tipHash]
  rw [htip, htip'] at hsame
  exact absurd hsame (by decide +kernel)

end Alphanumeric
