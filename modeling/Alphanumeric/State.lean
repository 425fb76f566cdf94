/-
# What a node stores, and the lookups over it

The canonical slots `block_0 … block_tip`, the orphan pool, the replay registry
with its prune index, the balances index with its height marker, the trusted
checkpoint, the witness-blocked memo and the dirty marker. The canonical slots
are contiguous, so they are a list indexed by height.

Left out, because no modelled decision reads it: the mempool and pending trees,
the retained witnesses, the address history index, the supply memo, and the
signature cache (its key binds the transaction id, the public key and the
signature, and it stores only successes).

Key definitions: `ChainState`, `getBlock`, `getParentBlockFor`, `trustedCheckpointHeight`,
`verificationFloor`, `Slotted`.
-/
import Alphanumeric.Types

namespace Alphanumeric

structure OrphanStoredBlock where
  block : Block
  receivedAt : ℕ
deriving DecidableEq, Repr

/-- A reorg branch deferred for missing witnesses. -/
structure WitnessBlockedBranch where
  retryAfter : ℕ
  attempts : ℕ
  needed : List (ℕ × Hash)
  recordedAt : ℕ
deriving DecidableEq, Repr

/-- The replay registry: transaction id to confirming height, and its prune index, the
keys (confirming block's timestamp, transaction id). -/
structure Registry where
  entry : Text → Option ℕ
  index : List (ℕ × Text)

structure ChainState where
  /-- The canonical slots, by height, in stored form. -/
  blocks : List Block
  orphans : List OrphanStoredBlock
  registry : Registry
  /-- Raw confirmed balances; an absent address reads as 0. -/
  balances : Text → ℤ
  balancesHeight : Option ℕ
  trustedCheckpoint : Option ℕ
  witnessBlocked : List (Hash × WitnessBlockedBranch)
  dirty : Bool
  /-- `chain_sentinel.last_verification`. -/
  lastVerification : ℕ

namespace ChainState

def getBlock (s : ChainState) (height : ℕ) : Option Block := s.blocks[height]?

def highestBlockIndex (s : ChainState) : Option ℕ :=
  if s.blocks = [] then none else some (s.blocks.length - 1)

def getLatestBlockIndex (s : ChainState) : ℕ := s.highestBlockIndex.getD 0

def getLastBlock (s : ChainState) : Option Block := s.blocks.getLast?

def getOrphanBlockByHash (s : ChainState) (hash : Hash) : Option Block :=
  (s.orphans.find? fun entry => entry.block.hash = hash).map (·.block)

/-- The block a header names as its parent: the canonical one a height below if its
hash matches, else whatever the orphan pool holds under that hash. -/
def getParentBlockFor (s : ChainState) (b : Block) : Option Block :=
  if b.index = 0 then none
  else
    match s.getBlock (b.index - 1) with
    | some parent =>
      if parent.hash = b.previousHash then some parent else s.getOrphanBlockByHash b.previousHash
    | none => s.getOrphanBlockByHash b.previousHash

def trustedCheckpointHeight (s : ChainState) : ℕ := s.trustedCheckpoint.getD 0

def verificationFloor (s : ChainState) : ℕ := max s.trustedCheckpointHeight witnessLossFloor

theorem getLatestBlockIndex_eq (s : ChainState) : s.getLatestBlockIndex = s.blocks.length - 1 := by
  unfold getLatestBlockIndex highestBlockIndex
  split <;> simp_all

end ChainState

/-! ### Slots and heights -/

/-- Slot `h` holds a block of height `h`. -/
def Slotted (blocks : List Block) : Prop := ∀ (h : ℕ) (b : Block), blocks[h]? = some b → b.index = h

theorem slotted_iff {blocks : List Block} :
    Slotted blocks ↔ blocks.map (·.index) = List.range blocks.length := by
  constructor
  · intro h
    refine List.ext_getElem (by simp) fun i hi _ => ?_
    have hi' : i < blocks.length := by simpa using hi
    simpa using h i _ (List.getElem?_eq_getElem hi')
  · intro h i b hb
    obtain ⟨hlt, rfl⟩ := List.getElem?_eq_some_iff.mp hb
    simpa [hlt] using congrArg (·[i]?) h

instance (blocks : List Block) : Decidable (Slotted blocks) := decidable_of_iff _ slotted_iff.symm

theorem Slotted.lastIndex {blocks : List Block} (h : Slotted blocks) {tip : Block}
    (ht : blocks.getLast? = some tip) : tip.index + 1 = blocks.length := by
  have hne : blocks ≠ [] := by
    rintro rfl
    simp at ht
  have := List.length_pos_of_ne_nil hne
  rw [List.getLast?_eq_getElem?] at ht
  rw [h _ _ ht]
  omega

theorem slotted_append {blocks branch : List Block} (h : Slotted blocks)
    (hb : ∀ i b, branch[i]? = some b → b.index = blocks.length + i) : Slotted (blocks ++ branch) := by
  intro i b hi
  rcases Nat.lt_or_ge i blocks.length with hlt | hge
  · rw [List.getElem?_append_left hlt] at hi
    exact h i b hi
  · rw [List.getElem?_append_right hge] at hi
    rw [hb _ b hi]
    omega

theorem slotted_take {blocks : List Block} (h : Slotted blocks) (n : ℕ) : Slotted (blocks.take n) := by
  intro i b hi
  rw [List.getElem?_take] at hi
  split_ifs at hi
  exact h i b hi

end Alphanumeric
