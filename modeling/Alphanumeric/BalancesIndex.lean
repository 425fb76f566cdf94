/-
# The balances index, store write by store write

`Engine` treats every operation as one step. The balances tree has writers that do not
exclude each other: a tip extension holds the state lock and a reader's lazy upkeep
(`ensure_balances_index`) holds the index gate, so their store accesses interleave. Here
one action is one access: a tip extension marks the chain dirty, reads its balances one by
one, writes content and marker in one batch, stores the block, publishes the tip and clears
the mark; upkeep looks at the mark, the tip and the marker at three moments, catches up
block by block or rebuilds. A reorg holds both locks and is one action, and so is the
recovery of a dirty chain. The marker is a field of its own: no address is the reserved key.

Key definitions: `IndexedChain`, `confirmedBalance`, `catchUpBlock`, `Upkeep`, `Extension`,
`IndexAction`, `IndexedChain.step`.
-/
import Alphanumeric.Settled

namespace Alphanumeric

open Guard BlockchainError ChainState

variable (E : Env)

/-! ### The tree -/

/-- The addresses whose balance a block's transactions read or change. -/
def touched (txs : List Transaction) : List Text :=
  txs.flatMap fun tx => if tx.isCoinbase then [tx.recipient] else [tx.sender, tx.recipient]

/-- The balances tree: an address may have no entry. -/
abbrev Tree : Type := Text → Option ℤ

def Tree.read (t : Tree) (a : Text) : ℤ := (t a).getD 0

/-- One batch: new values for `keys`. -/
def Tree.write (t : Tree) (keys : List Text) (bal : Balances) : Tree :=
  fun a => if a ∈ keys then some (bal a) else t a

/-! ### Who is at work -/

/-- Where a tip extension stands. -/
inductive ExtensionPhase where
  | reading (todo : List Text) (current : Balances)
  | applied
  | stored
  | published

structure Extension where
  mode : SignatureValidationMode
  block : Block
  phase : ExtensionPhase

/-- A rebuilt index that is not published yet: the tip it covers, the addresses it writes,
the addresses that had an entry when it looked, and the totals. -/
structure Rebuilt where
  covered : ℕ
  keys : List Text
  seen : Text → Bool
  totals : Balances

/-- Where the holder of the index gate stands: before the dirty check, past it, past the
read of the tip, at block `next` of a catch-up to `tip`, about to rebuild, or about to
publish what it rebuilt. -/
inductive Upkeep where
  | entered
  | checked
  | sawTip (tip : ℕ)
  | catching (cache : Tree) (recent : Recent) (next tip : ℕ)
  | rebuilding
  | publishing (r : Rebuilt)

structure IndexedChain where
  /-- The canonical slots, by height, in stored form. -/
  slots : List Block
  tree : Tree
  marker : Option ℕ
  dirty : Bool
  /-- What `highest_block_index` answers: the tip of the last published metadata. -/
  tip : Option ℕ
  /-- The tip extension that holds the state lock. -/
  extension : Option Extension
  /-- The holder of the index gate. -/
  gate : Option Upkeep
  /-- Readers that found the index stale and wait for the gate. -/
  waiting : ℕ

namespace IndexedChain

def latest (s : IndexedChain) : ℕ := s.tip.getD 0

/-! ### Reads -/

/-- The slow path of a balance read: the sum over all stored blocks. -/
def scanBalance (slots : List Block) (a : Text) : ℤ :=
  (slots.map fun b => (b.transactions.map fun tx =>
    (if tx.recipient = a then tx.amountUnits else 0) -
      (if tx.sender = a then tx.totalDebitUnits else 0)).sum).sum

/-- `get_confirmed_balance_units`, once its own upkeep has returned. -/
def confirmedBalance (s : IndexedChain) (a : Text) : ℤ :=
  match s.tree a with
  | some units => units
  | none => if s.latest ≤ s.marker.getD s.latest then 0 else scanBalance s.slots a

/-! ### Catch-up and rebuild -/

/-- Load the entries of `keys` that the catch-up has not loaded before. -/
def loadCache (t : Tree) (keys : List Text) (cache : Tree) : Tree :=
  fun a => match cache a with
    | some units => some units
    | none => if a ∈ keys then some (t.read a) else none

/-- One block of a catch-up: the new tree, cache and window, or `none` if the block is
missing or does not replay. -/
def catchUpBlock (slots : List Block) (t cache : Tree) (recent : Recent) (height : ℕ) :
    Option (Tree × Tree × Recent) :=
  match slots[height]? with
  | none => none
  | some b =>
    let keys := touched b.transactions
    let cache := loadCache t keys cache
    match replayApplyBlockChecked b.index b.transactions (cache.read, recent) with
    | .error _ => none
    | .ok st => some (t.write keys st.1, fun a => (cache a).map fun _ => st.1 a, st.2)

/-- The catch-up of a reorg: `count` blocks from `next` on. Stops at a block that fails,
with what was committed before it. -/
def catchUpLoop (slots : List Block) : ℕ → ℕ → Tree → Tree → Recent → Option ℕ → Tree × Option ℕ × Bool
  | 0, _, t, _, _, marker => (t, marker, true)
  | count + 1, next, t, cache, recent, marker =>
    match catchUpBlock slots t cache recent next with
    | none => (t, marker, false)
    | some (t', cache', recent') => catchUpLoop slots count (next + 1) t' cache' recent' (some next)

/-- The replay of `rebuild_balances_index` over the slots up to `covered`. -/
def rebuild (slots : List Block) (t : Tree) (covered : Option ℕ) : Option Rebuilt :=
  let replayed := slots.take ((covered.map (· + 1)).getD 0)
  if covered.all (· < slots.length) ∧ structurallyValid E replayed = true then
    match replayChain replayed with
    | .error _ => none
    | .ok st => some ⟨covered.getD 0, replayed.flatMap fun b => touched b.transactions,
        fun a => (t a).isSome, st.1⟩
  else none

/-- The batch of a rebuild: vanished entries removed, every total written. -/
def publish (t : Tree) (r : Rebuilt) : Tree :=
  fun a => if a ∈ r.keys then some (r.totals a) else if r.seen a then none else t a

/-! ### Upkeep -/

/-- The choice between nothing to do, a catch-up and a rebuild. -/
def upkeepChoice (s : IndexedChain) (tip : ℕ) : Option Upkeep :=
  match s.marker with
  | none => some .rebuilding
  | some m =>
    if m = tip then none
    else if m < tip ∧ m < s.slots.length then
      some (.catching (fun _ => none) (seedRecent s.slots (m + 1)) (m + 1) tip)
    else some .rebuilding

/-- The next step of the holder of the gate; without a holder the gate is free. -/
def upkeepStep (s : IndexedChain) : Upkeep → IndexedChain
  | .entered => { s with gate := if s.dirty then none else some .checked }
  | .checked => { s with gate := some (.sawTip s.latest) }
  | .sawTip tip => { s with gate := s.upkeepChoice tip }
  | .catching cache recent next tip =>
    if tip < next then { s with gate := none }
    else
      match catchUpBlock s.slots s.tree cache recent next with
      | none => { s with gate := some .rebuilding }
      | some (t, cache, recent) =>
        { s with tree := t, marker := some next, gate := some (.catching cache recent (next + 1) tip) }
  | .rebuilding => { s with gate := (rebuild E s.slots s.tree s.tip).map .publishing }
  | .publishing r => { s with tree := publish s.tree r, marker := some r.covered, gate := none }

/-! ### Tip extension -/

/-- The shape every validated block has: its reward first, and no other coinbase. -/
def rewardFirst (b : Block) : Bool :=
  match b.transactions with
  | [] => false
  | reward :: txs => reward.isCoinbase && txs.all fun tx => !tx.isCoinbase

/-- The next step of the tip extension. A balance read with a lagging marker waits for the
gate (and then finds the chain dirty); a batch that is refused leaves the mark. -/
def extensionStep (s : IndexedChain) (x : Extension) : Option IndexedChain :=
  match x.phase with
  | .reading (a :: todo) current =>
    if s.marker.getD 0 < s.latest ∧ s.gate.isSome then none
    else
      some { s with
        extension := some { x with
          phase := .reading todo fun a' => if a' = a then s.confirmedBalance a else current a' } }
  | .reading [] current =>
    match processTransactionsBatch E x.mode s.slots current x.block.index x.block.transactions with
    | .error _ => some { s with extension := none }
    | .ok bal =>
      some { s with
        tree := s.tree.write (touched x.block.transactions) bal
        marker := some x.block.index
        extension := some { x with phase := .applied } }
  | .applied => some { s with slots := setSlot E s.slots x.block, extension := some { x with phase := .stored } }
  | .stored => some { s with tip := some x.block.index, extension := some { x with phase := .published } }
  | .published => some { s with dirty := false, extension := none }

/-! ### Reorganisation and recovery -/

/-- `balances_at_fork_state`: the values of the touched addresses just below the fork, and
the window there. -/
def forkState (s : IndexedChain) (forkStart oldTip : ℕ) (branch : List Block) :
    Option (Tree × Recent) :=
  if forkStart = 0 ∨ oldTip < forkStart ∨ s.marker ≠ some oldTip then none
  else
    let reverted := s.slots.drop forkStart
    let keys := (reverted ++ branch).flatMap fun b => touched b.transactions
    let totals := reverted.foldl (fun bal b => replayRevertBlock b.transactions bal) s.tree.read
    some (fun a => if a ∈ keys then some (totals a) else none, seedRecent s.slots forkStart)

/-- The solvency dry-run of a branch. -/
def branchReplays (s : IndexedChain) (forkStart : ℕ) (branch : List Block) :
    Option (Tree × Recent) → Bool
  | some (reverted, recent) => (replayBlocks branch (reverted.read, recent)).isOk
  | none => structurallyValid E (s.slots.take forkStart) &&
      (replayChain (s.slots.take forkStart ++ branch)).isOk

/-- The index after the slots are rewritten, and whether a rebuild is still needed. The tip
metadata is written later, so the rebuild covers the old tip. -/
def reorgIndex (s : IndexedChain) (slots : List Block) (forkStart count : ℕ) :
    Option (Tree × Recent) → Tree × Option ℕ × Bool
  | some (reverted, _) =>
    catchUpLoop slots count forkStart
      (fun a => (reverted a).or (s.tree a))
      (fun _ => none) (seedRecent slots forkStart) (some (forkStart - 1))
  | none => (s.tree, s.marker, false)

/-- `adopt_branch_if_valid` from its dry-run on, for a branch of consecutive heights that
forks at or below the tip and above the checkpoint, hence above genesis. -/
def reorgStep (s : IndexedChain) (branch : List Block) : Option IndexedChain :=
  match branch.head?, branch.getLast?, s.tip with
  | some first, some branchTip, some oldTip =>
    let fork := s.forkState first.index oldTip branch
    if 0 < first.index ∧ first.index ≤ oldTip ∧ (branch.map (·.index) = List.range' first.index branch.length) ∧
        s.branchReplays E first.index branch fork = true then
      let slots := rewriteSlots E s.slots branch
      let adopted : IndexedChain := { s with slots, dirty := true }
      match s.reorgIndex slots first.index branch.length fork with
      | (t, marker, true) =>
        some { adopted with tree := t, marker, tip := some branchTip.index, dirty := false }
      | (t, marker, false) =>
        match rebuild E slots t (some oldTip) with
        | none => some { adopted with tree := t, marker }
        | some r => some { adopted with
            tree := publish t r, marker := some r.covered, tip := some branchTip.index, dirty := false }
    else none
  | _, _, _ => none

/-- `recover_dirty_chain_state`: the tip re-anchored at the slots, then a full rebuild. -/
def recoverStep (s : IndexedChain) : IndexedChain :=
  let tip := if s.slots = [] then none else some (s.slots.length - 1)
  match rebuild E s.slots s.tree tip with
  | none => { s with tip }
  | some r => { s with tip, tree := publish s.tree r, marker := some r.covered, dirty := false }

/-! ### Actions -/

inductive IndexAction where
  /-- A reader finds the index stale and queues for the gate. -/
  | look
  | enter
  | upkeep
  /-- A tip extension marks the chain dirty. -/
  | begin (mode : SignatureValidationMode) (b : Block)
  | advance
  | reorg (branch : List Block)
  | recover

/-- The state an action leads to, `none` if it is not enabled. Tip extensions, reorgs and
recoveries exclude each other; a reorg and a recovery also take the gate. -/
def step (s : IndexedChain) : IndexAction → Option IndexedChain
  | .look => if s.marker = some s.latest then none else some { s with waiting := s.waiting + 1 }
  | .enter =>
    if s.waiting = 0 ∨ s.gate.isSome then none
    else some { s with waiting := s.waiting - 1, gate := some .entered }
  | .upkeep => s.gate.map (s.upkeepStep E)
  | .begin mode b =>
    if s.extension.isSome ∨ s.dirty ∨ b.index ≠ s.slots.length ∨ rewardFirst b = false then none
    else
      some { s with
        dirty := true
        extension := some ⟨mode, b, .reading (touched b.transactions).dedup fun _ => 0⟩ }
  | .advance => s.extension.bind (s.extensionStep E)
  | .reorg branch =>
    if s.extension.isSome ∨ s.dirty ∨ s.gate.isSome then none else s.reorgStep E branch
  | .recover =>
    if s.extension.isSome ∨ s.dirty = false ∨ s.gate.isSome then none else some (s.recoverStep E)

end IndexedChain

end Alphanumeric
