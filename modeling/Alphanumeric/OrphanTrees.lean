/-
# The orphan pool as it is stored: bodies and index

The pool of `src/a9/blockchain.rs` is two trees: the stored bodies, keyed by the hash in
hexadecimal, and an index whose keys are `{prev_hash}:{index}:{hash}` and whose values are arrival
times. No transaction covers both. `prune_orphans` decides from the index alone; it reads a body only
where an entry has no time, sweeps the entries whose body is gone, and once a process
writes the entries that bodies lack.

A body is modelled by what it decodes to: `none` is a body that `codec::deserialize` rejects. The
choice of `select_nth_unstable_by_key` among equal arrival times is left open: `PruneOrphans` is a
relation, and `pruneOrphans` is one of its runs.

Key definitions: `OrphanTrees`, `orphanIndexKey`, `parseOrphanIndexEntry`, `OrphanTrees.judged`,
`OrphanTrees.pruneWith`, `OrphanTrees.PruneOrphans`, `OrphanTrees.StoreOrphanBlock`.
Key theorems: `parseOrphanIndexEntry_key`, `OrphanTrees.mem_index_removeAll`,
`OrphanTrees.mem_index_sweepDangling`, `OrphanTrees.reconcile_index`.
-/
import Alphanumeric.StorageForm
import Alphanumeric.Orphans
import Mathlib

namespace Alphanumeric

/-! ### Keys and values of the index -/

/-- The part of `s` after its last `':'` (the first part of `rsplit`). -/
def lastPart (s : Text) : Text := (s.reverse.takeWhile (· ≠ ':')).reverse

/-- What stands before the last `':'`, which the rest of `rsplit` splits. -/
def beforeLast (s : Text) : Option Text :=
  match s.reverse.dropWhile (· ≠ ':') with
  | [] => none
  | _ :: rest => some rest.reverse

/-- `str::parse::<u32>`: decimal digits, after a plus sign if there is one. -/
def parseU32 (s : Text) : Option ℕ :=
  let digits := if s.head? = some '+' then s.tail else s
  if digits ≠ [] ∧ digits.all Char.isDigit ∧ Nat.ofDigitChars 10 digits 0 < 2 ^ 32 then
    some (Nat.ofDigitChars 10 digits 0)
  else none

local instance hexNeZero : NeZero (2 ^ 256) := ⟨by decide⟩

/-- `hex::decode`, then `<[u8; 32]>::try_from`. -/
def hashOfHex (s : Text) : Option Hash :=
  match hexDecode s with
  | some bytes => if bytes.length = 32 then some (Fin.ofNat (2 ^ 256) (fromBeBytes bytes)) else none
  | none => none

def orphanHashKey (hash : Hash) : Bytes := utf8 (hexEncode hash.bytes)

/-- `{prev_hash}:{index}:{hash}`. -/
def orphanIndexKey (prevHash : Hash) (index : ℕ) (hash : Hash) : Bytes :=
  utf8 ((hexEncode prevHash.bytes ++ ':' :: Nat.toDigits 10 index) ++ ':' :: hexEncode hash.bytes)

def parseOrphanIndexHash (key : Bytes) : Option Text := (fromUtf8 key).map lastPart

/-- Height and hash, from an index key. -/
def parseOrphanIndexEntry (key : Bytes) : Option (ℕ × Text) := do
  let keyStr ← fromUtf8 key
  let rest ← beforeLast keyStr
  let index ← parseU32 (lastPart rest)
  some (index, lastPart keyStr)

def orphanIndexValue (receivedAt : ℕ) : Bytes := toBeBytes 8 receivedAt

/-- Eight bytes are an arrival time; an entry of an earlier version has none. -/
def parseOrphanIndexReceivedAt (value : Bytes) : Option ℕ :=
  if value.length = 8 then some (fromBeBytes value) else none

/-- The index key of a stored body. -/
def OrphanStoredBlock.indexKey (o : OrphanStoredBlock) : Bytes :=
  orphanIndexKey o.block.previousHash o.block.index o.block.hash

/-! ### What the keys say -/

theorem lastPart_append {xs ys : Text} (h : ':' ∉ ys) : lastPart (xs ++ ':' :: ys) = ys := by
  have hys : ∀ c ∈ ys.reverse, decide (c ≠ ':') = true := by
    intro c hc
    rw [decide_eq_true_eq]
    rintro rfl
    exact h (List.mem_reverse.mp hc)
  rw [lastPart, List.reverse_append, List.reverse_cons, List.append_assoc, List.takeWhile_append_of_pos hys]
  simp

theorem beforeLast_append {xs ys : Text} (h : ':' ∉ ys) : beforeLast (xs ++ ':' :: ys) = some xs := by
  have hys : ∀ c ∈ ys.reverse, decide (c ≠ ':') = true := by
    intro c hc
    rw [decide_eq_true_eq]
    rintro rfl
    exact h (List.mem_reverse.mp hc)
  rw [beforeLast, List.reverse_append, List.reverse_cons, List.append_assoc, List.dropWhile_append_of_pos hys]
  simp

theorem colon_notMem_hexEncode (bytes : List UInt8) : ':' ∉ hexEncode bytes := by
  intro h
  have hlower := List.all_eq_true.mp (hexEncode_lower bytes) ':' h
  exact absurd hlower (by decide)

theorem parseU32_toDigits {n : ℕ} (h : n < 2 ^ 32) : parseU32 (Nat.toDigits 10 n) = some n := by
  have hdigit : ∀ c ∈ Nat.toDigits 10 n, c.isDigit = true := fun c hc =>
    Nat.isDigit_of_mem_toDigits (by decide) (by decide) hc
  have hplus : (Nat.toDigits 10 n).head? ≠ some '+' := by
    intro hhead
    exact absurd (hdigit '+' (List.mem_of_mem_head? hhead)) (by decide)
  have hne : Nat.toDigits 10 n ≠ [] := Nat.toDigits_ne_nil
  have hval : Nat.ofDigitChars 10 (Nat.toDigits 10 n) 0 = n := Nat.ofDigitChars_toDigits (by decide) (by decide)
  rw [parseU32, if_neg hplus]
  simp only [hval]
  rw [if_pos ⟨hne, List.all_eq_true.mpr hdigit, h⟩]

theorem hashOfHex_hexEncode (h : Hash) : hashOfHex (hexEncode h.bytes) = some h := by
  have hlen : h.bytes.length = 32 := toBeBytes_length 32 h.val
  have hval : fromBeBytes h.bytes = h.val := fromBeBytes_toBeBytes (by
    have := h.isLt
    norm_num at this ⊢
    exact this)
  unfold hashOfHex
  rw [hexDecode_hexEncode]
  simp only [hlen, if_true, hval]
  rw [Fin.ofNat_val_eq_self]

theorem orphanHashKey_inj {h h' : Hash} (heq : orphanHashKey h = orphanHashKey h') : h = h' := by
  have htext := utf8_injective heq
  have hhash := congrArg hashOfHex htext
  rw [hashOfHex_hexEncode, hashOfHex_hexEncode] at hhash
  exact Option.some.inj hhash

theorem parseOrphanIndexHash_key (prevHash : Hash) (index : ℕ) (hash : Hash) :
    parseOrphanIndexHash (orphanIndexKey prevHash index hash) = some (hexEncode hash.bytes) := by
  rw [parseOrphanIndexHash, orphanIndexKey, fromUtf8_utf8, Option.map_some,
    lastPart_append (colon_notMem_hexEncode _)]

/-- Height and hash come back from a key. -/
theorem parseOrphanIndexEntry_key {prevHash : Hash} {index : ℕ} {hash : Hash} (h : index < 2 ^ 32) :
    parseOrphanIndexEntry (orphanIndexKey prevHash index hash) = some (index, hexEncode hash.bytes) := by
  rw [parseOrphanIndexEntry, orphanIndexKey, fromUtf8_utf8]
  simp only [Option.bind_eq_bind, Option.bind_some, beforeLast_append (colon_notMem_hexEncode _),
    lastPart_append (colon_notMem_hexEncode _), lastPart_append (colon_notMem_toDigits _), parseU32_toDigits h]

theorem hash_of_parseOrphanIndexEntry {prevHash : Hash} {index index' : ℕ} {hash : Hash} {hashHex : Text}
    (h : parseOrphanIndexEntry (orphanIndexKey prevHash index hash) = some (index', hashHex)) :
    hashHex = hexEncode hash.bytes := by
  rw [parseOrphanIndexEntry, orphanIndexKey, fromUtf8_utf8] at h
  simp only [Option.bind_eq_bind, Option.bind_some, beforeLast_append (colon_notMem_hexEncode _),
    lastPart_append (colon_notMem_hexEncode _)] at h
  obtain ⟨n, -, hn⟩ := Option.bind_eq_some_iff.mp h
  exact (congrArg Prod.snd (Option.some.inj hn)).symm

/-- A key names one hash. -/
theorem orphanIndexKey_hash {prevHash prevHash' : Hash} {index index' : ℕ} {hash hash' : Hash}
    (h : orphanIndexKey prevHash index hash = orphanIndexKey prevHash' index' hash') : hash = hash' := by
  have hhash := congrArg parseOrphanIndexHash h
  rw [parseOrphanIndexHash_key, parseOrphanIndexHash_key] at hhash
  exact orphanHashKey_inj (congrArg utf8 (Option.some.inj hhash))

theorem parse_orphanIndexValue {t : ℕ} (h : t < 2 ^ 64) :
    parseOrphanIndexReceivedAt (orphanIndexValue t) = some t := by
  rw [parseOrphanIndexReceivedAt, orphanIndexValue, toBeBytes_length, if_pos rfl,
    fromBeBytes_toBeBytes (by norm_num at h ⊢; exact h)]

/-! ### The trees and the operations -/

/-- The two trees, and `orphan_index_reconciled`, which a process starts with unset. -/
structure OrphanTrees where
  blocks : Ordered Bytes (Option OrphanStoredBlock)
  index : Ordered Bytes Bytes
  reconciled : Bool

/-- What an operation reads of the clock and of the chain. -/
structure PoolContext where
  now : ℕ
  tip : Option ℕ
  checkpoint : ℕ
  range : now < 2 ^ 64

/-- The three rules by which an orphan is dropped whatever the pool's size. -/
def PoolContext.dead (ctx : PoolContext) (index receivedAt : ℕ) : Bool :=
  orphanTtlSecs < ctx.now - receivedAt || ctx.tip.any (fun tip => index + orphanReorgDepth < tip) ||
    (0 < ctx.checkpoint && index ≤ ctx.checkpoint)

/-- An index entry as `prune_orphans` reads it; a `recovered` time came from the body. -/
structure Judged where
  key : Bytes
  index : ℕ
  hash : Hash
  receivedAt : ℕ
  recovered : Bool

/-- `select_nth_unstable_by_key(overflow, ..)`, then `take(overflow)`: some `overflow` entries none of which
arrived after one that stays. -/
def Selected (overflow : ℕ) (entries victims : List Judged) : Prop :=
  ∃ kept, (victims ++ kept).Perm entries ∧ victims.length = overflow ∧
    ∀ v ∈ victims, ∀ k ∈ kept, v.receivedAt ≤ k.receivedAt

namespace OrphanTrees

/-- The bodies that decode, in order of their keys. -/
def orphans (s : OrphanTrees) : List OrphanStoredBlock := s.blocks.entries.filterMap Prod.snd

def removeOrphanByHash (s : OrphanTrees) (hash : Hash) : OrphanTrees :=
  match s.blocks.get (orphanHashKey hash) with
  | none => s
  | some none => { s with blocks := s.blocks.erase (orphanHashKey hash) }
  | some (some o) =>
    { s with blocks := s.blocks.erase (orphanHashKey hash), index := s.index.erase o.indexKey }

def judgeEntry (s : OrphanTrees) (e : Bytes × Bytes) : Option Judged := do
  let (index, hashHex) ← parseOrphanIndexEntry e.1
  let hash ← hashOfHex hashHex
  match parseOrphanIndexReceivedAt e.2 with
  | some receivedAt => some ⟨e.1, index, hash, receivedAt, false⟩
  | none =>
    -- the body is decoded; an entry without one is left to the sweep
    let o ← (s.blocks.get (utf8 hashHex)).join
    some ⟨e.1, index, hash, o.receivedAt, true⟩

def judged (s : OrphanTrees) : List Judged := s.index.entries.filterMap s.judgeEntry

/-- The values that are written back. -/
def backfill (s : OrphanTrees) : List (Bytes × Bytes) :=
  (s.judged.filter (·.recovered)).map fun j => (j.key, orphanIndexValue j.receivedAt)

def expired (ctx : PoolContext) (s : OrphanTrees) : List Judged :=
  s.judged.filter fun j => ctx.dead j.index j.receivedAt

def retained (ctx : PoolContext) (s : OrphanTrees) : List Judged :=
  s.judged.filter fun j => !ctx.dead j.index j.receivedAt

/-- The entries whose key names no stored body are removed. -/
def sweepDangling (s : OrphanTrees) : OrphanTrees :=
  let dangling := s.index.entries.filter fun e =>
    (parseOrphanIndexHash e.1).any fun hashHex => (s.blocks.get (utf8 hashHex)).isNone
  { s with index := s.index.eraseAll (dangling.map Prod.fst) }

/-- One body of the reconciliation pass: its entry is written if it is missing. -/
def repairEntry (index : Ordered Bytes Bytes) (e : Bytes × Option OrphanStoredBlock) : Ordered Bytes Bytes :=
  match e.2 with
  | none => index
  | some o =>
    if (index.get o.indexKey).isNone then index.insert o.indexKey (orphanIndexValue o.receivedAt) else index

/-- The pass that runs once a process. -/
def reconcile (s : OrphanTrees) : OrphanTrees :=
  if s.reconciled then s
  else { s with index := s.blocks.entries.foldl repairEntry s.index, reconciled := true }

/-- `prune_orphans` past its fast path, with `victims` the overflow it selects. -/
def pruneWith (ctx : PoolContext) (victims : List Judged) (s : OrphanTrees) : OrphanTrees :=
  let filled := { s with index := s.index.insertAll s.backfill }
  let removed := ((s.expired ctx ++ victims).map (·.hash)).foldl removeOrphanByHash filled
  removed.sweepDangling.reconcile

/-- `prune_orphans`. -/
def PruneOrphans (ctx : PoolContext) (s s' : OrphanTrees) : Prop :=
  if s.blocks.entries = [] ∧ s.index.entries = [] then s' = s
  else ∃ victims, Selected ((s.retained ctx).length - orphanMaxCount) (s.retained ctx) victims ∧
    s' = s.pruneWith ctx victims

/-- `prune_orphans` with the oldest taken in order. -/
def pruneOrphans (ctx : PoolContext) (s : OrphanTrees) : OrphanTrees :=
  let retained := s.retained ctx
  let oldest := retained.insertionSort fun a b => a.receivedAt ≤ b.receivedAt
  if s.blocks.entries = [] ∧ s.index.entries = [] then s
  else s.pruneWith ctx (oldest.take (retained.length - orphanMaxCount))

/-- `store_orphan_block` returns before it writes: finalized, out of reach, or stored already. -/
def storeSkipped (ctx : PoolContext) (b : Block) (s : OrphanTrees) : Bool :=
  (0 < ctx.checkpoint && b.index ≤ ctx.checkpoint) ||
    ctx.tip.any (fun tip => tip + orphanReorgDepth < b.index) ||
    (s.blocks.get (orphanHashKey b.hash)).isSome

/-- The first write of `store_orphan_block`. -/
def writeIndex (ctx : PoolContext) (b : Block) (s : OrphanTrees) : OrphanTrees :=
  { s with index := s.index.insert (orphanIndexKey b.previousHash b.index b.hash) (orphanIndexValue ctx.now) }

/-- The second write. -/
def writeBody (ctx : PoolContext) (b : Block) (s : OrphanTrees) : OrphanTrees :=
  { s with blocks := s.blocks.insert (orphanHashKey b.hash) (some ⟨b, ctx.now⟩) }

/-- `store_orphan_block`; the prune at its end reads the clock again. -/
def StoreOrphanBlock (ctx ctx' : PoolContext) (b : Block) (s s' : OrphanTrees) : Prop :=
  if s.storeSkipped ctx b then s' = s
  else PruneOrphans ctx' ((s.writeIndex ctx b).writeBody ctx b) s'

/-- A process ends and the next one starts. -/
def restart (s : OrphanTrees) : OrphanTrees := { s with reconciled := false }

end OrphanTrees

/-! ### What the operations leave -/

namespace OrphanTrees

variable {s : OrphanTrees}

theorem mem_orphans {o : OrphanStoredBlock} : o ∈ s.orphans ↔ ∃ k, (k, some o) ∈ s.blocks.entries := by
  simp [orphans]

theorem mem_blocks_remove {hash : Hash} {e : Bytes × Option OrphanStoredBlock} :
    e ∈ (s.removeOrphanByHash hash).blocks.entries ↔ e ∈ s.blocks.entries ∧ e.1 ≠ orphanHashKey hash := by
  unfold removeOrphanByHash
  split
  · rename_i hnone
    have hkey : orphanHashKey hash ∉ s.blocks.keys := Ordered.get_eq_none.mp hnone
    refine ⟨fun he => ⟨he, ?_⟩, And.left⟩
    intro heq
    exact hkey (heq ▸ Ordered.mem_keys_of_mem he)
  · exact Ordered.mem_erase
  · exact Ordered.mem_erase

theorem mem_index_remove {hash : Hash} {e : Bytes × Bytes} :
    e ∈ (s.removeOrphanByHash hash).index.entries ↔
      e ∈ s.index.entries ∧ ∀ o, (orphanHashKey hash, some o) ∈ s.blocks.entries → e.1 ≠ o.indexKey := by
  unfold removeOrphanByHash
  split
  · rename_i hnone
    have hkey : orphanHashKey hash ∉ s.blocks.keys := Ordered.get_eq_none.mp hnone
    exact ⟨fun he => ⟨he, fun o ho => absurd (Ordered.mem_keys_of_mem ho) hkey⟩, And.left⟩
  · rename_i hsome
    have hraw := Ordered.get_eq_some.mp hsome
    refine ⟨fun he => ⟨he, fun o ho => ?_⟩, And.left⟩
    have heq := Ordered.eq_of_key ho hraw rfl
    simp at heq
  · rename_i o hsome
    have hraw := Ordered.get_eq_some.mp hsome
    rw [Ordered.mem_erase]
    refine and_congr_right fun _ => ⟨fun hne o' ho' => ?_, fun h => h o hraw⟩
    have heq := Ordered.eq_of_key ho' hraw rfl
    simp only [Prod.mk.injEq, Option.some.injEq, true_and] at heq
    rw [heq]
    exact hne

@[simp] theorem reconciled_remove (hash : Hash) : (s.removeOrphanByHash hash).reconciled = s.reconciled := by
  unfold removeOrphanByHash
  split <;> rfl

theorem mem_blocks_removeAll : ∀ {hashes : List Hash} {s : OrphanTrees} {e : Bytes × Option OrphanStoredBlock},
    e ∈ (hashes.foldl removeOrphanByHash s).blocks.entries ↔
      e ∈ s.blocks.entries ∧ ∀ hash ∈ hashes, e.1 ≠ orphanHashKey hash
  | [], s, e => by simp
  | hash :: hashes, s, e => by
    rw [List.foldl_cons, mem_blocks_removeAll, mem_blocks_remove, List.forall_mem_cons, and_assoc]

/-- The index loses the entries of the bodies that go, and no other. -/
theorem mem_index_removeAll : ∀ {hashes : List Hash} {s : OrphanTrees} {e : Bytes × Bytes},
    e ∈ (hashes.foldl removeOrphanByHash s).index.entries ↔
      e ∈ s.index.entries ∧
        ∀ hash ∈ hashes, ∀ o, (orphanHashKey hash, some o) ∈ s.blocks.entries → e.1 ≠ o.indexKey
  | [], s, e => by simp
  | hash :: hashes, s, e => by
    rw [List.foldl_cons, mem_index_removeAll, mem_index_remove, List.forall_mem_cons, and_assoc]
    refine and_congr_right fun _ => and_congr_right fun hhead => ?_
    constructor
    · intro h hash' hmem o ho
      -- a hash listed twice is removed once
      by_cases heq : orphanHashKey hash' = orphanHashKey hash
      · exact hhead o (heq ▸ ho)
      · exact h hash' hmem o (mem_blocks_remove.mpr ⟨ho, heq⟩)
    · intro h hash' hmem o ho
      exact h hash' hmem o (mem_blocks_remove.mp ho).1

theorem reconciled_removeAll : ∀ (hashes : List Hash) (s : OrphanTrees),
    (hashes.foldl removeOrphanByHash s).reconciled = s.reconciled
  | [], _ => rfl
  | hash :: hashes, s => by
    rw [List.foldl_cons, reconciled_removeAll hashes, reconciled_remove]

theorem mem_index_sweepDangling {e : Bytes × Bytes} :
    e ∈ s.sweepDangling.index.entries ↔
      e ∈ s.index.entries ∧ ∀ hashHex, parseOrphanIndexHash e.1 = some hashHex → utf8 hashHex ∈ s.blocks.keys := by
  have hdangling : ∀ k : Bytes,
      (parseOrphanIndexHash k).any (fun hashHex => (s.blocks.get (utf8 hashHex)).isNone) = false ↔
      ∀ hashHex, parseOrphanIndexHash k = some hashHex → utf8 hashHex ∈ s.blocks.keys := by
    intro k
    cases parseOrphanIndexHash k with
    | none => simp
    | some hashHex =>
      rw [Option.any_some, Option.isNone_eq_false_iff, Ordered.get_isSome]
      simp
  unfold sweepDangling
  rw [Ordered.mem_eraseAll, ← hdangling]
  refine and_congr_right fun he => ?_
  constructor
  · intro hkeys
    by_contra hany
    exact hkeys (List.mem_map.mpr ⟨e, List.mem_filter.mpr ⟨he, by simpa using hany⟩, rfl⟩)
  · intro hany hkeys
    obtain ⟨e', he', hkey⟩ := List.mem_map.mp hkeys
    have htrue := (List.mem_filter.mp he').2
    rw [hkey, hany] at htrue
    cases htrue

@[simp] theorem blocks_reconcile : s.reconcile.blocks = s.blocks := by
  unfold reconcile
  split <;> rfl

@[simp] theorem reconciled_reconcile : s.reconcile.reconciled = true := by
  unfold reconcile
  split
  · assumption
  · rfl

/-! The repair pass only adds entries, and adds the entry of every body. -/

theorem mem_repairEntry {index : Ordered Bytes Bytes} {b : Bytes × Option OrphanStoredBlock} {e : Bytes × Bytes}
    (h : e ∈ index.entries) : e ∈ (repairEntry index b).entries := by
  unfold repairEntry
  split
  · exact h
  · rename_i o _
    split
    · rename_i hnone
      have hkey : o.indexKey ∉ index.keys := Ordered.get_eq_none.mp (Option.isNone_iff_eq_none.mp hnone)
      refine Ordered.mem_insert.mpr (Or.inr ⟨h, fun heq => ?_⟩)
      exact hkey (heq ▸ Ordered.mem_keys_of_mem h)
    · exact h

theorem of_mem_repairEntry {index : Ordered Bytes Bytes} {b : Bytes × Option OrphanStoredBlock} {e : Bytes × Bytes}
    (h : e ∈ (repairEntry index b).entries) :
    e ∈ index.entries ∨ ∃ o, b.2 = some o ∧ e = (o.indexKey, orphanIndexValue o.receivedAt) := by
  unfold repairEntry at h
  split at h
  · exact Or.inl h
  · rename_i o ho
    split at h
    · rcases Ordered.mem_insert.mp h with heq | ⟨hmem, -⟩
      · exact Or.inr ⟨o, ho, heq⟩
      · exact Or.inl hmem
    · exact Or.inl h

theorem repairEntry_has (index : Ordered Bytes Bytes) (k : Bytes) (o : OrphanStoredBlock) :
    o.indexKey ∈ (repairEntry index (k, some o)).keys := by
  simp only [repairEntry]
  split
  · exact Ordered.mem_keys_insert.mpr (Or.inl rfl)
  · rename_i hsome
    exact Ordered.get_isSome.mp (Option.isSome_iff_ne_none.mpr (by simpa using hsome))

theorem mem_repairAll : ∀ (bodies : List (Bytes × Option OrphanStoredBlock)) {index : Ordered Bytes Bytes}
    {e : Bytes × Bytes}, e ∈ index.entries → e ∈ (bodies.foldl repairEntry index).entries
  | [], _, _, h => h
  | _ :: bodies, _, _, h => mem_repairAll bodies (mem_repairEntry h)

theorem of_mem_repairAll : ∀ (bodies : List (Bytes × Option OrphanStoredBlock)) {index : Ordered Bytes Bytes}
    {e : Bytes × Bytes}, e ∈ (bodies.foldl repairEntry index).entries →
      e ∈ index.entries ∨ ∃ k o, (k, some o) ∈ bodies ∧ e = (o.indexKey, orphanIndexValue o.receivedAt)
  | [], _, _, h => Or.inl h
  | b :: bodies, index, e, h => by
    rcases of_mem_repairAll bodies h with hmem | ⟨k, o, hmem, heq⟩
    · rcases of_mem_repairEntry hmem with hindex | ⟨o, ho, heq⟩
      · exact Or.inl hindex
      · exact Or.inr ⟨b.1, o, by rw [← ho]; exact List.mem_cons_self, heq⟩
    · exact Or.inr ⟨k, o, List.mem_cons_of_mem _ hmem, heq⟩

theorem repairAll_has : ∀ (bodies : List (Bytes × Option OrphanStoredBlock)) {index : Ordered Bytes Bytes}
    {k : Bytes} {o : OrphanStoredBlock}, (k, some o) ∈ bodies → o.indexKey ∈ (bodies.foldl repairEntry index).keys
  | b :: bodies, index, k, o, h => by
    rcases List.mem_cons.mp h with rfl | h
    · obtain ⟨v, hv⟩ := Ordered.mem_keys.mp (repairEntry_has index k o)
      exact Ordered.mem_keys_of_mem (mem_repairAll bodies hv)
    · exact repairAll_has bodies h

/-- **What reconciliation writes.** Entries stay; a new one is a stored body's; in a process that has not
reconciled, every decodable body has its entry afterwards. -/
theorem reconcile_index (s : OrphanTrees) :
    (∀ e ∈ s.index.entries, e ∈ s.reconcile.index.entries) ∧
      (∀ e ∈ s.reconcile.index.entries, e ∈ s.index.entries ∨
        ∃ k o, (k, some o) ∈ s.blocks.entries ∧ e = (o.indexKey, orphanIndexValue o.receivedAt)) ∧
      (s.reconciled = false → ∀ k o, (k, some o) ∈ s.blocks.entries → o.indexKey ∈ s.reconcile.index.keys) := by
  unfold reconcile
  split
  · rename_i hrec
    refine ⟨fun e he => he, fun e he => Or.inl he, fun hfalse => ?_⟩
    rw [hrec] at hfalse
    cases hfalse
  · exact ⟨fun e he => mem_repairAll _ he, fun e he => of_mem_repairAll _ he, fun _ k o ho => repairAll_has _ ho⟩

/-! ### Every prune has a run -/

theorem selected_oldest (overflow : ℕ) {entries : List Judged} (h : overflow ≤ entries.length) :
    Selected overflow entries
      ((entries.insertionSort fun a b => a.receivedAt ≤ b.receivedAt).take overflow) := by
  set oldest := entries.insertionSort fun a b => a.receivedAt ≤ b.receivedAt with hsorted
  have hperm : oldest.Perm entries := List.perm_insertionSort _ _
  refine ⟨oldest.drop overflow, by rw [List.take_append_drop]; exact hperm, ?_, ?_⟩
  · rw [List.length_take, hperm.length_eq]
    exact min_eq_left h
  · have hsort : oldest.Pairwise fun a b => a.receivedAt ≤ b.receivedAt := by
      have : IsTrans Judged fun a b => a.receivedAt ≤ b.receivedAt := ⟨fun _ _ _ => le_trans⟩
      have : Std.Total fun a b : Judged => a.receivedAt ≤ b.receivedAt := ⟨fun _ _ => le_total _ _⟩
      exact List.pairwise_insertionSort _ _
    intro v hv k hk
    rw [← List.take_append_drop overflow oldest, List.pairwise_append] at hsort
    exact hsort.2.2 v hv k hk

theorem pruneOrphans_prunes (ctx : PoolContext) (s : OrphanTrees) : PruneOrphans ctx s (pruneOrphans ctx s) := by
  unfold PruneOrphans pruneOrphans
  split_ifs
  · rfl
  · exact ⟨_, selected_oldest _ (Nat.sub_le _ _), rfl⟩

end OrphanTrees

end Alphanumeric
