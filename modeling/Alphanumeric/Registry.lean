/-
# The replay registry

Which transaction ids are confirmed, and at which height. A block that becomes
canonical is recorded, a reverted one is removed, and entries whose confirming
block is older than the freshness horizon are pruned through the timestamp index.

Key definitions: `recordConfirmedTxs`, `removeConfirmedTxs`, `pruneConfirmedTxs`,
`blockHasReplayedTx`, `branchReplaysBelow`, `ofChain`.
Key theorems: `prune_entry_eq_some`, `removeAll_entry_eq_some`, `recordAll_entry`.
-/
import Alphanumeric.Validation

namespace Alphanumeric

open Guard BlockchainError

variable (E : Env)

namespace Registry

def empty : Registry := ⟨fun _ => none, []⟩

def recordConfirmedTxs (r : Registry) (b : Block) : Registry where
  entry id := if id ∈ regularIds E b.transactions then some b.index else r.entry id
  index := r.index ++ (regularIds E b.transactions).map fun id => (b.timestamp, id)

def removeConfirmedTxs (r : Registry) (b : Block) : Registry where
  entry id := if id ∈ regularIds E b.transactions then none else r.entry id
  index := r.index.filter fun k => ¬ (k.1 = b.timestamp ∧ k.2 ∈ regularIds E b.transactions)

def horizon : ℕ := maxTxAgeSecs + maxBlockFutureTime

def pruneConfirmedTxs (r : Registry) (tipTimestamp : ℕ) : Registry :=
  if tipTimestamp ≤ horizon then r
  else
    let cutoff := tipTimestamp - horizon
    let stale := (r.index.filter fun k => k.1 < cutoff).map (·.2)
    { entry := fun id => if id ∈ stale then none else r.entry id
      index := r.index.filter fun k => ¬ k.1 < cutoff }

/-- A non-system transaction of `b` is already confirmed at another height. -/
def blockHasReplayedTx (r : Registry) (b : Block) : Bool :=
  (regularIds E b.transactions).any fun id => (r.entry id).any (· ≠ b.index)

/-- The fork-aware guard of a reorg: a branch transaction confirmed below the fork. -/
def branchReplaysBelow (r : Registry) (forkStart : ℕ) (branch : List Block) : Bool :=
  branch.any fun b => (regularIds E b.transactions).any fun id => (r.entry id).any (· < forkStart)

/-- The registry of a whole chain, before pruning. -/
def ofChain (chain : List Block) : Registry := chain.foldl (recordConfirmedTxs E) empty

/-! ### What the operations leave -/

variable {E}

/-- Pruning keeps the entries with no index key beyond the horizon. -/
theorem prune_entry_eq_some {r : Registry} {tipTs h : ℕ} {id : Text} :
    (r.pruneConfirmedTxs tipTs).entry id = some h ↔
      r.entry id = some h ∧ ∀ ts, (ts, id) ∈ r.index → tipTs ≤ ts + horizon := by
  unfold pruneConfirmedTxs
  split_ifs with hle
  · exact ⟨fun h => ⟨h, fun _ _ => by omega⟩, fun h => h.1⟩
  · have hstale : id ∈ (r.index.filter fun k => k.1 < tipTs - horizon).map (·.2) ↔
        ∃ ts, (ts, id) ∈ r.index ∧ ts + horizon < tipTs := by
      simp only [List.mem_map, List.mem_filter, decide_eq_true_eq, Prod.exists, exists_eq_right]
      exact exists_congr fun ts => and_congr_right fun _ => by omega
    dsimp only
    by_cases hid : id ∈ (r.index.filter fun k => k.1 < tipTs - horizon).map (·.2)
    · obtain ⟨ts, hts, hlt⟩ := hstale.mp hid
      rw [if_pos hid]
      exact ⟨fun h => by simp at h, fun h => absurd (h.2 ts hts) (by omega)⟩
    · have hall : ∀ ts, (ts, id) ∈ r.index → tipTs ≤ ts + horizon := fun ts hts =>
        not_lt.mp fun hlt => hid (hstale.mpr ⟨ts, hts, hlt⟩)
      rw [if_neg hid]
      exact ⟨fun h => ⟨h, hall⟩, fun h => h.1⟩

theorem mem_prune_index {r : Registry} {tipTs : ℕ} {k : ℕ × Text} :
    k ∈ (r.pruneConfirmedTxs tipTs).index ↔ k ∈ r.index ∧ tipTs ≤ k.1 + horizon := by
  unfold pruneConfirmedTxs
  split_ifs with hle
  · exact ⟨fun h => ⟨h, by omega⟩, fun h => h.1⟩
  · simp only [List.mem_filter, decide_eq_true_eq]
    exact and_congr_right fun _ => by omega

theorem removeAll_entry_eq_some {h : ℕ} {id : Text} :
    ∀ (bs : List Block) (r : Registry),
      (bs.foldl (removeConfirmedTxs E) r).entry id = some h ↔
        r.entry id = some h ∧ ∀ b ∈ bs, id ∉ regularIds E b.transactions
  | [], r => by simp
  | b :: bs, r => by
    rw [List.foldl_cons, removeAll_entry_eq_some bs]
    by_cases hid : id ∈ regularIds E b.transactions <;> simp [removeConfirmedTxs, hid]

theorem mem_removeAll_index {k : ℕ × Text} :
    ∀ (bs : List Block) (r : Registry), k ∈ (bs.foldl (removeConfirmedTxs E) r).index ↔
      k ∈ r.index ∧ ∀ b ∈ bs, ¬ (k.1 = b.timestamp ∧ k.2 ∈ regularIds E b.transactions)
  | [], r => by simp
  | b :: bs, r => by
    rw [List.foldl_cons, mem_removeAll_index bs]
    simp only [removeConfirmedTxs, List.mem_filter, decide_eq_true_eq, List.forall_mem_cons, and_assoc]

theorem mem_recordAll_index {k : ℕ × Text} :
    ∀ (bs : List Block) (r : Registry), k ∈ (bs.foldl (recordConfirmedTxs E) r).index ↔
      k ∈ r.index ∨ ∃ b ∈ bs, k.1 = b.timestamp ∧ k.2 ∈ regularIds E b.transactions
  | [], r => by simp
  | b :: bs, r => by
    rw [List.foldl_cons, mem_recordAll_index bs]
    simp only [recordConfirmedTxs, List.mem_append, List.mem_map, List.exists_mem_cons_iff, or_assoc]
    refine or_congr_right (or_congr_left ⟨?_, ?_⟩)
    · rintro ⟨id, hid, rfl⟩
      exact ⟨rfl, hid⟩
    · rintro ⟨hts, hid⟩
      exact ⟨k.2, hid, by rw [← hts]⟩

/-- Ids outside the recorded blocks keep their entry. -/
theorem recordAll_entry_of_notMem {id : Text} :
    ∀ (bs : List Block) (r : Registry), (∀ b ∈ bs, id ∉ regularIds E b.transactions) →
      (bs.foldl (recordConfirmedTxs E) r).entry id = r.entry id
  | [], r, _ => rfl
  | b :: bs, r, h => by
    rw [List.foldl_cons, recordAll_entry_of_notMem bs _ fun c hc => h c (by simp [hc])]
    simp [recordConfirmedTxs, h b (by simp)]

/-- A recorded id gets the height of a block that carries it. -/
theorem recordAll_entry_of_mem {id : Text} :
    ∀ (bs : List Block) (r : Registry), (∃ b ∈ bs, id ∈ regularIds E b.transactions) →
      ∃ b ∈ bs, id ∈ regularIds E b.transactions ∧
        (bs.foldl (recordConfirmedTxs E) r).entry id = some b.index
  | [], r, h => by simp at h
  | b :: bs, r, h => by
    rw [List.foldl_cons]
    by_cases hrest : ∃ c ∈ bs, id ∈ regularIds E c.transactions
    · obtain ⟨c, hc, hid, he⟩ := recordAll_entry_of_mem bs (r.recordConfirmedTxs E b) hrest
      exact ⟨c, by simp [hc], hid, he⟩
    · push Not at hrest
      obtain ⟨c, hc, hid⟩ := h
      obtain rfl : c = b := by
        rcases List.mem_cons.mp hc with rfl | hc
        · rfl
        · exact absurd hid (hrest c hc)
      refine ⟨c, by simp, hid, ?_⟩
      rw [recordAll_entry_of_notMem bs _ hrest]
      simp [recordConfirmedTxs, hid]

theorem blockHasReplayedTx_eq_false {r : Registry} {b : Block} :
    r.blockHasReplayedTx E b = false ↔
      ∀ id ∈ regularIds E b.transactions, ∀ h, r.entry id = some h → h = b.index := by
  simp only [blockHasReplayedTx, List.any_eq_false]
  refine forall₂_congr fun id _ => ?_
  cases r.entry id <;> simp

theorem branchReplaysBelow_eq_false {r : Registry} {forkStart : ℕ} {branch : List Block} :
    r.branchReplaysBelow E forkStart branch = false ↔
      ∀ b ∈ branch, ∀ id ∈ regularIds E b.transactions, ∀ h, r.entry id = some h → forkStart ≤ h := by
  simp only [branchReplaysBelow, List.any_eq_false, Bool.not_eq_true]
  refine forall₂_congr fun b _ => forall₂_congr fun id _ => ?_
  cases r.entry id <;> simp

end Registry

theorem mem_regularIds {E : Env} {txs : List Transaction} {id : Text} :
    id ∈ regularIds E txs ↔ ∃ tx ∈ txs, tx.isCoinbase = false ∧ getTxId E tx = id := by
  simp [regularIds, and_assoc]

/-- Storing a block does not change its ids. -/
@[simp] theorem regularIds_toStorageBlock (E : Env) (b : Block) :
    regularIds E (toStorageBlock E b).transactions = regularIds E b.transactions := by
  have hid : ∀ tx, getTxId E (toStorageTransaction E tx) = getTxId E tx := by
    intro tx
    unfold toStorageTransaction
    split_ifs
    · rfl
    · split
      · rfl
      · split <;> rfl
  have hcb : ∀ tx, (toStorageTransaction E tx).isCoinbase = tx.isCoinbase := by
    intro tx
    unfold toStorageTransaction
    split_ifs
    · rfl
    · split
      · rfl
      · split <;> rfl
  simp [regularIds, toStorageBlock, List.filter_map, Function.comp_def, hid, hcb]

namespace Registry

/-! ### The registry a chain determines -/

variable {E : Env}

/-- The same entries and the same prune keys; the keys are a set. -/
structure Same (r r' : Registry) : Prop where
  entry : ∀ id, r.entry id = r'.entry id
  index : ∀ k, k ∈ r.index ↔ k ∈ r'.index

theorem Same.symm {r r' : Registry} (h : r.Same r') : r'.Same r :=
  ⟨fun id => (h.entry id).symm, fun k => (h.index k).symm⟩

theorem Same.trans {r r' r'' : Registry} (h : r.Same r') (h' : r'.Same r'') : r.Same r'' :=
  ⟨fun id => (h.entry id).trans (h'.entry id), fun k => (h.index k).trans (h'.index k)⟩

theorem entry_eq_of_some_iff {r r' : Registry} {id : Text}
    (h : ∀ i, r.entry id = some i ↔ r'.entry id = some i) : r.entry id = r'.entry id := by
  cases he : r.entry id with
  | some i => exact ((h i).mp he).symm
  | none =>
    cases he' : r'.entry id with
    | none => rfl
    | some i => rw [(h i).mpr he'] at he; cases he

variable (E) in
/-- What `rebuild_confirmed_tx_index` leaves for a chain whose tip has timestamp `ts`. -/
def derived (chain : List Block) (ts : ℕ) : Registry := (ofChain E chain).pruneConfirmedTxs ts

theorem ofChain_append (xs ys : List Block) :
    ofChain E (xs ++ ys) = ys.foldl (recordConfirmedTxs E) (ofChain E xs) :=
  List.foldl_append

@[simp] theorem recordConfirmedTxs_toStorageBlock (r : Registry) (b : Block) :
    r.recordConfirmedTxs E (toStorageBlock E b) = r.recordConfirmedTxs E b := by
  simp only [recordConfirmedTxs, regularIds_toStorageBlock]
  rfl

theorem recordAll_map_toStorageBlock (bs : List Block) (r : Registry) :
    (bs.map (toStorageBlock E)).foldl (recordConfirmedTxs E) r = bs.foldl (recordConfirmedTxs E) r := by
  simp [List.foldl_map]

theorem mem_ofChain_index {chain : List Block} {k : ℕ × Text} :
    k ∈ (ofChain E chain).index ↔ ∃ b ∈ chain, k.1 = b.timestamp ∧ k.2 ∈ regularIds E b.transactions := by
  rw [ofChain, mem_recordAll_index]
  simp [empty]

theorem ofChain_entry_eq_none {chain : List Block} {id : Text}
    (h : ∀ b ∈ chain, id ∉ regularIds E b.transactions) : (ofChain E chain).entry id = none := by
  rw [ofChain, recordAll_entry_of_notMem chain _ h]
  rfl

theorem exists_of_ofChain_entry {chain : List Block} {id : Text} {i : ℕ}
    (h : (ofChain E chain).entry id = some i) : ∃ b ∈ chain, id ∈ regularIds E b.transactions := by
  by_contra hno
  push Not at hno
  rw [ofChain_entry_eq_none hno] at h
  cases h

theorem derived_entry {chain : List Block} {ts i : ℕ} {id : Text} :
    (derived E chain ts).entry id = some i ↔ (ofChain E chain).entry id = some i ∧
      ∀ b ∈ chain, id ∈ regularIds E b.transactions → ts ≤ b.timestamp + horizon := by
  rw [derived, prune_entry_eq_some]
  refine and_congr_right fun _ => ⟨fun h b hb hid => ?_, fun h t ht => ?_⟩
  · exact h b.timestamp (mem_ofChain_index.mpr ⟨b, hb, rfl, hid⟩)
  · obtain ⟨b, hb, hts, hid⟩ := mem_ofChain_index.mp ht
    simp only at hts hid
    rw [hts]
    exact h b hb hid

theorem mem_derived_index {chain : List Block} {ts : ℕ} {k : ℕ × Text} :
    k ∈ (derived E chain ts).index ↔
      (∃ b ∈ chain, k.1 = b.timestamp ∧ k.2 ∈ regularIds E b.transactions) ∧ ts ≤ k.1 + horizon := by
  rw [derived, mem_prune_index, mem_ofChain_index]

/-- Recording on top does not depend on what was there, for an id that is recorded. -/
theorem recordAll_entry_congr {id : Text} :
    ∀ (bs : List Block) (r r' : Registry), (∃ b ∈ bs, id ∈ regularIds E b.transactions) →
      (bs.foldl (recordConfirmedTxs E) r).entry id = (bs.foldl (recordConfirmedTxs E) r').entry id
  | [], _, _, h => by simp at h
  | b :: bs, r, r', h => by
    rw [List.foldl_cons, List.foldl_cons]
    by_cases hrest : ∃ c ∈ bs, id ∈ regularIds E c.transactions
    · exact recordAll_entry_congr bs _ _ hrest
    · push Not at hrest
      have hid : id ∈ regularIds E b.transactions := by
        obtain ⟨c, hc, hid⟩ := h
        rcases List.mem_cons.mp hc with rfl | hc
        · exact hid
        · exact absurd hid (hrest c hc)
      rw [recordAll_entry_of_notMem bs _ hrest, recordAll_entry_of_notMem bs _ hrest]
      simp [recordConfirmedTxs, hid]

/-- Extending the tip by a block with fresh ids, recording it and pruning at its timestamp
leaves the registry of the longer chain. -/
theorem Same.extend {chain : List Block} {r : Registry} {ts : ℕ} {b : Block}
    (h : r.Same (derived E chain ts)) (hts : ts ≤ b.timestamp)
    (hnew : ∀ c ∈ chain, ∀ id ∈ regularIds E c.transactions, id ∉ regularIds E b.transactions) :
    ((r.recordConfirmedTxs E b).pruneConfirmedTxs b.timestamp).Same
      (derived E (chain ++ [toStorageBlock E b]) b.timestamp) := by
  have hindex : ∀ k, k ∈ (r.recordConfirmedTxs E b).index ↔
      ((∃ c ∈ chain, k.1 = c.timestamp ∧ k.2 ∈ regularIds E c.transactions) ∧ ts ≤ k.1 + horizon) ∨
        (k.1 = b.timestamp ∧ k.2 ∈ regularIds E b.transactions) := by
    intro k
    have := mem_recordAll_index (E := E) (k := k) [b] r
    simp only [List.foldl_cons, List.foldl_nil, List.mem_singleton, exists_eq_left] at this
    rw [this, h.index k, mem_derived_index]
  have hmem : ∀ k : ℕ × Text, (∃ c ∈ chain ++ [toStorageBlock E b],
      k.1 = c.timestamp ∧ k.2 ∈ regularIds E c.transactions) ↔
      (∃ c ∈ chain, k.1 = c.timestamp ∧ k.2 ∈ regularIds E c.transactions) ∨
        (k.1 = b.timestamp ∧ k.2 ∈ regularIds E b.transactions) := by
    intro k
    simp only [List.mem_append, List.mem_singleton, or_and_right, exists_or, exists_eq_left,
      regularIds_toStorageBlock]
    rfl
  constructor
  · refine fun id => entry_eq_of_some_iff fun i => ?_
    rw [prune_entry_eq_some, derived_entry, ofChain_append]
    simp only [List.foldl_cons, List.foldl_nil, recordConfirmedTxs_toStorageBlock]
    by_cases hid : id ∈ regularIds E b.transactions
    · -- a recorded id has one key, that of its own block
      have hold : ∀ c ∈ chain, id ∉ regularIds E c.transactions := fun c hc hidc => hnew c hc id hidc hid
      have hfresh : (∀ t, (t, id) ∈ (r.recordConfirmedTxs E b).index → b.timestamp ≤ t + horizon) := by
        intro t ht
        rcases (hindex (t, id)).mp ht with ⟨⟨c, hc, -, hidc⟩, -⟩ | ⟨rfl, -⟩
        · exact absurd hidc (hold c hc)
        · exact Nat.le_add_right _ _
      have hfresh' : ∀ c ∈ chain ++ [toStorageBlock E b], id ∈ regularIds E c.transactions →
          b.timestamp ≤ c.timestamp + horizon := by
        intro c hc hidc
        rcases List.mem_append.mp hc with hc | hc
        · exact absurd hidc (hold c hc)
        · rw [List.mem_singleton.mp hc]
          exact Nat.le_add_right _ _
      simp only [recordConfirmedTxs, hid, if_true] at hfresh ⊢
      exact ⟨fun h => ⟨h.1, hfresh'⟩, fun h => ⟨h.1, hfresh⟩⟩
    · have hentry : ∀ q : Registry, (q.recordConfirmedTxs E b).entry id = q.entry id := by
        intro q
        simp [recordConfirmedTxs, hid]
      rw [hentry, hentry, h.entry, derived_entry, and_assoc]
      refine and_congr_right fun _ => ⟨?_, ?_⟩
      · rintro ⟨hts', hkeys⟩ c hc hidc
        rcases List.mem_append.mp hc with hc | hc
        · exact hkeys c.timestamp ((hindex _).mpr (.inl ⟨⟨c, hc, rfl, hidc⟩, hts' c hc hidc⟩))
        · rw [List.mem_singleton.mp hc] at hidc
          exact absurd (by simpa using hidc) hid
      · intro hall
        refine ⟨fun c hc hidc => hts.trans (hall c (by simp [hc]) hidc), fun t ht => ?_⟩
        rcases (hindex (t, id)).mp ht with ⟨⟨c, hc, hct, hidc⟩, -⟩ | ⟨-, hidb⟩
        · obtain rfl : t = c.timestamp := hct
          exact hall c (by simp [hc]) hidc
        · exact absurd hidb hid
  · intro k
    rw [mem_prune_index, mem_derived_index, hindex, hmem]
    constructor
    · rintro ⟨⟨hc, -⟩ | hb, hfresh⟩
      · exact ⟨.inl hc, hfresh⟩
      · exact ⟨.inr hb, hfresh⟩
    · rintro ⟨hc | hb, hfresh⟩
      · exact ⟨.inl ⟨hc, hts.trans hfresh⟩, hfresh⟩
      · exact ⟨.inr hb, hfresh⟩

end Registry

end Alphanumeric
