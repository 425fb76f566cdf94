/-
# The orphan pool stays consistent

Over every run of stores, removals, prunes, restarts and crashes between the two writes of a
store: once a process has reconciled, each prune leaves the index with exactly the keys of the
stored decodable bodies, at most `ORPHAN_MAX_COUNT` orphans, and has removed an orphan only by age, depth or
finality, or as one of the oldest of an over-full pool.

One kind of inherited entry stands in the way: one that names a body that no longer decodes.
Retention skips it when its value is empty, the sweep keeps it because the body is there, and the
reconciliation pass only adds entries. So neither is ever removed.

The hash of a block is the hash of its header, so it stands for one parent and one height: `names` is
that map, and every block of the run is `Named` by it.

Key definitions: `OrphanRun`, `PruneOfRun`, `InheritedPool`, `Readable`, `PruneExact`, `Consistent`.
Key theorems: `Consistent.of_run`, `prune_exact`, `orphan_pool_consistent`, `unreadable_survives`,
`prune_refines_list`.
-/
import Alphanumeric.OrphanTrees

namespace Alphanumeric

namespace OrphanTrees

/-! ### Runs -/

/-- `names` gives the parent and the height of the block. -/
structure Named (names : Hash → Hash × ℕ) (b : Block) : Prop where
  fields : names b.hash = (b.previousHash, b.index)
  range : b.index < 2 ^ 32

/-- The index key of the block that a hash stands for. -/
def keyOf (names : Hash → Hash × ℕ) (hash : Hash) : Bytes := orphanIndexKey (names hash).1 (names hash).2 hash

/-- Bodies are stored under their hashes, index keys are those of blocks, and a time in the index is the
time in the body. -/
structure WellFormed (names : Hash → Hash × ℕ) (s : OrphanTrees) : Prop where
  body : ∀ e ∈ s.blocks.entries, ∃ hash, e.1 = orphanHashKey hash ∧
    ∀ o, e.2 = some o → o.block.hash = hash ∧ Named names o.block ∧ o.receivedAt < 2 ^ 64
  entry : ∀ k ∈ s.index.keys, ∃ hash, k = keyOf names hash
  time : ∀ hash v o t, (keyOf names hash, v) ∈ s.index.entries → (orphanHashKey hash, some o) ∈ s.blocks.entries →
    parseOrphanIndexReceivedAt v = some t → t = o.receivedAt

/-- What a first process finds: bodies may lack entries, entries may lack bodies and times, and bodies may not
decode. -/
structure InheritedPool (names : Hash → Hash × ℕ) (s : OrphanTrees) : Prop extends WellFormed names s where
  started : s.reconciled = false

/-- No index entry names a stored body that does not decode. -/
def Readable (s : OrphanTrees) : Prop :=
  ∀ k ∈ s.index.keys, ∀ hashHex, parseOrphanIndexHash k = some hashHex → (utf8 hashHex, none) ∉ s.blocks.entries

/-- The states of a run from `s₀`. -/
inductive OrphanRun (names : Hash → Hash × ℕ) (s₀ : OrphanTrees) : OrphanTrees → Prop
  | inherited : OrphanRun names s₀ s₀
  | store {s s' : OrphanTrees} {ctx ctx' : PoolContext} {b : Block} : OrphanRun names s₀ s → Named names b →
    StoreOrphanBlock ctx ctx' b s s' → OrphanRun names s₀ s'
  | crash {s : OrphanTrees} {ctx : PoolContext} {b : Block} : OrphanRun names s₀ s → Named names b →
    s.storeSkipped ctx b = false → OrphanRun names s₀ (s.writeIndex ctx b).restart
  | remove {s : OrphanTrees} (hash : Hash) : OrphanRun names s₀ s → OrphanRun names s₀ (s.removeOrphanByHash hash)
  | prune {s s' : OrphanTrees} {ctx : PoolContext} : OrphanRun names s₀ s → PruneOrphans ctx s s' →
    OrphanRun names s₀ s'
  | restart {s : OrphanTrees} : OrphanRun names s₀ s → OrphanRun names s₀ s.restart

/-- A prune of a run: a call of its own, or the one at the end of a store. -/
inductive PruneOfRun (names : Hash → Hash × ℕ) (s₀ : OrphanTrees) (ctx : PoolContext) (s s' : OrphanTrees) : Prop
  | call : OrphanRun names s₀ s → PruneOrphans ctx s s' → PruneOfRun names s₀ ctx s s'
  | stored {t : OrphanTrees} {ctx₀ : PoolContext} {b : Block} : OrphanRun names s₀ t → Named names b →
    t.storeSkipped ctx₀ b = false → s = (t.writeIndex ctx₀ b).writeBody ctx₀ b → PruneOrphans ctx s s' →
    PruneOfRun names s₀ ctx s s'

/-! ### What a prune should do -/

/-- The orphans that age, depth and finality leave. -/
def alive (ctx : PoolContext) (s : OrphanTrees) : List OrphanStoredBlock :=
  s.orphans.filter fun o => !ctx.dead o.block.index o.receivedAt

/-- Why an orphan goes: older than 6 hours, more than 1,024 below the tip, finalized, or one of the oldest
arrivals of an over-full pool, of which exactly `ORPHAN_MAX_COUNT` stay. -/
def RemovalReason (ctx : PoolContext) (s s' : OrphanTrees) (o : OrphanStoredBlock) : Prop :=
  orphanTtlSecs < ctx.now - o.receivedAt ∨
    (∃ tip, ctx.tip = some tip ∧ o.block.index + orphanReorgDepth < tip) ∨
    (0 < ctx.checkpoint ∧ o.block.index ≤ ctx.checkpoint) ∨
    (orphanMaxCount < (s.alive ctx).length ∧ s'.orphans.length = orphanMaxCount ∧
      ∀ o' ∈ s'.orphans, o.receivedAt ≤ o'.receivedAt)

/-- A prune from `s` to `s'` did what it should. -/
structure PruneExact (ctx : PoolContext) (s s' : OrphanTrees) : Prop where
  indexed : ∀ k, k ∈ s'.index.keys ↔ ∃ o ∈ s'.orphans, k = o.indexKey
  bounded : s'.orphans.length ≤ orphanMaxCount
  kept : ∀ e ∈ s'.blocks.entries, e ∈ s.blocks.entries
  removed : ∀ e ∈ s.blocks.entries, e ∉ s'.blocks.entries → ∃ o, e.2 = some o ∧ RemovalReason ctx s s' o

/-! ### Well-formed trees -/

variable {names : Hash → Hash × ℕ} {s s' t : OrphanTrees} {ctx : PoolContext}

theorem keyOf_inj {hash hash' : Hash} (h : keyOf names hash = keyOf names hash') : hash = hash' :=
  orphanIndexKey_hash h

theorem parseOrphanIndexHash_keyOf (hash : Hash) :
    parseOrphanIndexHash (keyOf names hash) = some (hexEncode hash.bytes) := parseOrphanIndexHash_key _ _ _

theorem Named.indexKey {o : OrphanStoredBlock} (h : Named names o.block) : o.indexKey = keyOf names o.block.hash := by
  rw [OrphanStoredBlock.indexKey, keyOf, h.fields]

theorem WellFormed.body_key (h : WellFormed names s) {k : Bytes} {o : OrphanStoredBlock}
    (ho : (k, some o) ∈ s.blocks.entries) : k = orphanHashKey o.block.hash := by
  obtain ⟨hash, hkey, hdecoded⟩ := h.body _ ho
  rw [(hdecoded o rfl).1]
  exact hkey

theorem WellFormed.named (h : WellFormed names s) {k : Bytes} {o : OrphanStoredBlock}
    (ho : (k, some o) ∈ s.blocks.entries) : Named names o.block := by
  obtain ⟨hash, -, hdecoded⟩ := h.body _ ho
  exact (hdecoded o rfl).2.1

theorem WellFormed.hash_eq (h : WellFormed names s) {hash : Hash} {o : OrphanStoredBlock}
    (ho : (orphanHashKey hash, some o) ∈ s.blocks.entries) : o.block.hash = hash :=
  (orphanHashKey_inj (h.body_key ho)).symm

theorem WellFormed.indexKey (h : WellFormed names s) {k : Bytes} {o : OrphanStoredBlock}
    (ho : (k, some o) ∈ s.blocks.entries) : o.indexKey = keyOf names o.block.hash := (h.named ho).indexKey

theorem WellFormed.mem_orphans (h : WellFormed names s) {o : OrphanStoredBlock} :
    o ∈ s.orphans ↔ (orphanHashKey o.block.hash, some o) ∈ s.blocks.entries := by
  rw [OrphanTrees.mem_orphans]
  constructor
  · rintro ⟨k, ho⟩
    rw [← h.body_key ho]
    exact ho
  · exact fun ho => ⟨_, ho⟩

theorem WellFormed.orphans_nodup (h : WellFormed names s) : (s.orphans.map (·.block.hash)).Nodup := by
  refine List.pairwise_map.mpr (List.pairwise_filterMap.mpr (s.blocks.increasing.imp_of_mem ?_))
  intro e e' he he' hlt o ho o' ho' heq
  have hkey := h.body_key (k := e.1) (o := o) (by rw [← ho]; exact he)
  have hkey' := h.body_key (k := e'.1) (o := o') (by rw [← ho']; exact he')
  rw [heq, ← hkey'] at hkey
  exact absurd hlt (by rw [hkey]; exact lt_irrefl _)

/-- The body that an entry names decodes, where there is one. -/
theorem Readable.decodes (h : Readable s) {hash : Hash} {raw : Option OrphanStoredBlock}
    (hkey : keyOf names hash ∈ s.index.keys) (hraw : (orphanHashKey hash, raw) ∈ s.blocks.entries) :
    ∃ o, raw = some o := by
  cases raw with
  | some o => exact ⟨o, rfl⟩
  | none => exact absurd hraw (h _ hkey _ (parseOrphanIndexHash_keyOf hash))

/-! ### Operations that only take away -/

/-- `s'` holds no body that `s` does not, and no entry but those of `s` and of the bodies of `s`. -/
structure Below (s s' : OrphanTrees) : Prop where
  blocks : ∀ e ∈ s'.blocks.entries, e ∈ s.blocks.entries
  index : ∀ e ∈ s'.index.entries, e ∈ s.index.entries ∨
    ∃ k o, (k, some o) ∈ s.blocks.entries ∧ e = (o.indexKey, orphanIndexValue o.receivedAt)

theorem Below.refl (s : OrphanTrees) : Below s s := ⟨fun _ he => he, fun _ he => Or.inl he⟩

theorem Below.trans (h : Below s s') (h' : Below s' t) : Below s t := by
  refine ⟨fun e he => h.blocks e (h'.blocks e he), fun e he => ?_⟩
  rcases h'.index e he with hmem | ⟨k, o, ho, heq⟩
  · exact h.index e hmem
  · exact Or.inr ⟨k, o, h.blocks _ ho, heq⟩

theorem WellFormed.below (h : WellFormed names s) (hb : Below s s') : WellFormed names s' := by
  refine ⟨fun e he => h.body e (hb.blocks e he), fun k hk => ?_, fun hash v o t hv ho ht => ?_⟩
  · obtain ⟨v, hv⟩ := Ordered.mem_keys.mp hk
    rcases hb.index _ hv with hmem | ⟨k', o, ho, heq⟩
    · exact h.entry k (Ordered.mem_keys_of_mem hmem)
    · exact ⟨o.block.hash, by rw [← h.indexKey ho]; exact congrArg Prod.fst heq⟩
  · have hbody := hb.blocks _ ho
    rcases hb.index _ hv with hmem | ⟨k', o', ho', heq⟩
    · exact h.time hash v o t hmem hbody ht
    · -- the entry is the one of the body itself
      obtain ⟨hkey, hval⟩ := Prod.mk.injEq .. ▸ heq
      have hhash : hash = o'.block.hash := keyOf_inj (hkey.trans (h.indexKey ho'))
      rw [h.body_key ho', ← hhash] at ho'
      have hsame : o = o' := Option.some.inj (congrArg Prod.snd (Ordered.eq_of_key hbody ho' rfl))
      obtain ⟨_, -, hdecoded⟩ := h.body _ ho'
      rw [hval, parse_orphanIndexValue (hdecoded o' rfl).2.2] at ht
      rw [hsame]
      exact (Option.some.inj ht).symm

theorem Readable.below (h : Readable s) (hwf : WellFormed names s) (hb : Below s s') : Readable s' := by
  intro k hk hashHex hparse hnone
  have hbody := hb.blocks _ hnone
  obtain ⟨v, hv⟩ := Ordered.mem_keys.mp hk
  rcases hb.index _ hv with hmem | ⟨k', o, ho, heq⟩
  · exact h k (Ordered.mem_keys_of_mem hmem) hashHex hparse hbody
  · have hkey : k = keyOf names o.block.hash := (congrArg Prod.fst heq).trans (hwf.indexKey ho)
    rw [hkey, parseOrphanIndexHash_keyOf] at hparse
    rw [← Option.some.inj hparse] at hbody
    rw [hwf.body_key ho] at ho
    have hsame := congrArg Prod.snd (Ordered.eq_of_key hbody ho rfl)
    cases hsame

theorem below_removeAll (hashes : List Hash) (s : OrphanTrees) : Below s (hashes.foldl removeOrphanByHash s) :=
  ⟨fun _ he => (mem_blocks_removeAll.mp he).1, fun _ he => Or.inl (mem_index_removeAll.mp he).1⟩

theorem below_sweepDangling (s : OrphanTrees) : Below s s.sweepDangling :=
  ⟨fun _ he => he, fun _ he => Or.inl (mem_index_sweepDangling.mp he).1⟩

theorem below_reconcile (s : OrphanTrees) : Below s s.reconcile :=
  ⟨fun _ he => by rwa [blocks_reconcile] at he, (reconcile_index s).2.1⟩

/-! ### What the retention rules read -/

/-- An entry is judged by the facts of the body it names. -/
theorem WellFormed.judgeEntry (h : WellFormed names s) {e : Bytes × Bytes} (he : e ∈ s.index.entries) {j : Judged}
    (hj : s.judgeEntry e = some j) :
    j.key = e.1 ∧ j.key = keyOf names j.hash ∧
      (∀ o, (orphanHashKey j.hash, some o) ∈ s.blocks.entries → j.index = o.block.index ∧ j.receivedAt = o.receivedAt) ∧
      (j.recovered = true → ∃ o, (orphanHashKey j.hash, some o) ∈ s.blocks.entries ∧ j.receivedAt = o.receivedAt) := by
  obtain ⟨hash, hkey⟩ := h.entry e.1 (Ordered.mem_keys_of_mem he)
  unfold OrphanTrees.judgeEntry at hj
  obtain ⟨⟨index, hashHex⟩, hentry, hj⟩ := Option.bind_eq_some_iff.mp hj
  obtain ⟨hash', hhash, hj⟩ := Option.bind_eq_some_iff.mp hj
  have hhex : hashHex = hexEncode hash.bytes := by
    rw [hkey] at hentry
    exact hash_of_parseOrphanIndexEntry hentry
  have hsame : hash' = hash := by
    simp only [hhex, hashOfHex_hexEncode, Option.some.injEq] at hhash
    exact hhash.symm
  have hheight : ∀ o, (orphanHashKey hash, some o) ∈ s.blocks.entries → index = o.block.index := by
    intro o ho
    have hown : e.1 = o.indexKey := by rw [h.indexKey ho, h.hash_eq ho, hkey]
    rw [hown, OrphanStoredBlock.indexKey, parseOrphanIndexEntry_key (h.named ho).range] at hentry
    exact (congrArg Prod.fst (Option.some.inj hentry)).symm
  subst hsame
  split at hj
  · rename_i receivedAt htime
    obtain rfl := Option.some.inj hj
    refine ⟨rfl, hkey, fun o ho => ⟨hheight o ho, ?_⟩, fun hrec => by cases hrec⟩
    exact h.time _ e.2 o receivedAt (by rw [← hkey]; exact he) ho htime
  · obtain ⟨o, ho, hj⟩ := Option.bind_eq_some_iff.mp hj
    obtain rfl := Option.some.inj hj
    have hbody : (orphanHashKey hash', some o) ∈ s.blocks.entries := by
      rw [orphanHashKey, ← hhex]
      exact Ordered.get_eq_some.mp (Option.join_eq_some_iff.mp ho)
    refine ⟨rfl, hkey, fun o' ho' => ⟨hheight o' ho', ?_⟩, fun _ => ⟨o, hbody, rfl⟩⟩
    have heq : o' = o := Option.some.inj (congrArg Prod.snd (Ordered.eq_of_key ho' hbody rfl))
    rw [heq]

theorem WellFormed.judged (h : WellFormed names s) {j : Judged} (hj : j ∈ s.judged) :
    j.key ∈ s.index.keys ∧ j.key = keyOf names j.hash ∧
      (∀ o, (orphanHashKey j.hash, some o) ∈ s.blocks.entries → j.index = o.block.index ∧ j.receivedAt = o.receivedAt) ∧
      (j.recovered = true → ∃ o, (orphanHashKey j.hash, some o) ∈ s.blocks.entries ∧ j.receivedAt = o.receivedAt) := by
  obtain ⟨e, he, hje⟩ := List.mem_filterMap.mp hj
  obtain ⟨hkey, hrest⟩ := h.judgeEntry he hje
  exact ⟨by rw [hkey]; exact Ordered.mem_keys_of_mem he, hrest⟩

/-- An entry whose body is there and decodes is judged. -/
theorem WellFormed.exists_judged (h : WellFormed names s) {hash : Hash} {o : OrphanStoredBlock}
    (hkey : keyOf names hash ∈ s.index.keys) (ho : (orphanHashKey hash, some o) ∈ s.blocks.entries) :
    ∃ j ∈ s.judged, j.hash = hash := by
  obtain ⟨v, hv⟩ := Ordered.mem_keys.mp hkey
  have hown : keyOf names hash = o.indexKey := by rw [h.indexKey ho, h.hash_eq ho]
  have hentry : parseOrphanIndexEntry (keyOf names hash) = some (o.block.index, hexEncode hash.bytes) := by
    rw [hown, OrphanStoredBlock.indexKey, parseOrphanIndexEntry_key (h.named ho).range, h.hash_eq ho]
  have hbody : s.blocks.get (utf8 (hexEncode hash.bytes)) = some (some o) := Ordered.get_eq_some.mpr ho
  cases htime : parseOrphanIndexReceivedAt v with
  | some receivedAt =>
    refine ⟨⟨keyOf names hash, o.block.index, hash, receivedAt, false⟩, List.mem_filterMap.mpr ⟨_, hv, ?_⟩, rfl⟩
    simp [OrphanTrees.judgeEntry, hentry, hashOfHex_hexEncode, htime]
  | none =>
    refine ⟨⟨keyOf names hash, o.block.index, hash, o.receivedAt, true⟩, List.mem_filterMap.mpr ⟨_, hv, ?_⟩, rfl⟩
    simp [OrphanTrees.judgeEntry, hentry, hashOfHex_hexEncode, htime, hbody]

theorem WellFormed.judged_nodup (h : WellFormed names s) : (s.judged.map (·.hash)).Nodup := by
  refine List.pairwise_map.mpr (List.pairwise_filterMap.mpr (s.index.increasing.imp_of_mem ?_))
  intro e e' he he' hlt j hj j' hj' heq
  obtain ⟨hkey, hname, -⟩ := h.judgeEntry he hj
  obtain ⟨hkey', hname', -⟩ := h.judgeEntry he' hj'
  have hsame : e.1 = e'.1 := by rw [← hkey, ← hkey', hname, hname', heq]
  exact absurd hlt (by rw [hsame]; exact lt_irrefl _)

theorem below_filled (h : WellFormed names s) : Below s { s with index := s.index.insertAll s.backfill } := by
  refine ⟨fun _ he => he, fun e he => ?_⟩
  rcases Ordered.mem_of_mem_insertAll he with hmem | hmem
  · obtain ⟨j, hj, rfl⟩ := List.mem_map.mp hmem
    obtain ⟨hjudged, hrec⟩ := List.mem_filter.mp hj
    obtain ⟨-, hname, -, hrecovered⟩ := h.judged hjudged
    obtain ⟨o, ho, htime⟩ := hrecovered hrec
    exact Or.inr ⟨_, o, ho, by rw [hname, h.indexKey ho, h.hash_eq ho, htime]⟩
  · exact Or.inl hmem

/-! ### One prune -/

theorem mem_blocks_pruneWith {victims : List Judged} {e : Bytes × Option OrphanStoredBlock} :
    e ∈ (s.pruneWith ctx victims).blocks.entries ↔
      e ∈ s.blocks.entries ∧ ∀ hash ∈ (s.expired ctx ++ victims).map (·.hash), e.1 ≠ orphanHashKey hash := by
  simp only [pruneWith, blocks_reconcile]
  exact mem_blocks_removeAll

theorem below_pruneWith (ctx : PoolContext) (h : WellFormed names s)
    (victims : List Judged) : Below s (s.pruneWith ctx victims) :=
  (below_filled h).trans <| (below_removeAll _ _).trans <| (below_sweepDangling _).trans (below_reconcile _)

theorem below_prune (h : WellFormed names s) (hp : PruneOrphans ctx s s') : Below s s' := by
  unfold PruneOrphans at hp
  split_ifs at hp
  · rw [hp]
    exact .refl s
  · obtain ⟨victims, -, rfl⟩ := hp
    exact below_pruneWith ctx h victims

/-- The index keys are those of the bodies that decode. -/
def Mirrored (names : Hash → Hash × ℕ) (s : OrphanTrees) : Prop :=
  ∀ hash, keyOf names hash ∈ s.index.keys ↔ ∃ o, (orphanHashKey hash, some o) ∈ s.blocks.entries

/-- What every state of a run keeps. -/
structure Consistent (names : Hash → Hash × ℕ) (s : OrphanTrees) : Prop where
  formed : WellFormed names s
  readable : Readable s
  mirrored : s.reconciled = true → Mirrored names s

theorem Consistent.below (h : Consistent names s) (hb : Below s s') (hm : s'.reconciled = true → Mirrored names s') :
    Consistent names s' := ⟨h.formed.below hb, h.readable.below h.formed hb, hm⟩

/-- The removal of hashes keeps the trees a mirror of each other. -/
theorem mirrored_removeAll (hwf : WellFormed names s) (hashes : List Hash) {hash : Hash}
    (hkey : keyOf names hash ∈ s.index.keys) (hstays : hash ∉ hashes) :
    keyOf names hash ∈ (hashes.foldl removeOrphanByHash s).index.keys := by
  obtain ⟨v, hv⟩ := Ordered.mem_keys.mp hkey
  refine Ordered.mem_keys.mpr ⟨v, mem_index_removeAll.mpr ⟨hv, fun hash' hmem o ho heq => ?_⟩⟩
  have hsame : hash = o.block.hash := keyOf_inj (heq.trans (hwf.indexKey ho))
  rw [hwf.hash_eq ho] at hsame
  exact hstays (hsame ▸ hmem)

theorem Consistent.pruned (h : Consistent names s) (ctx : PoolContext) (victims : List Judged) :
    Consistent names (s.pruneWith ctx victims) := by
  have hbelow := below_pruneWith ctx h.formed victims
  refine h.below hbelow fun _ hash => ?_
  set hashes := (s.expired ctx ++ victims).map (·.hash) with hhashes
  set filled : OrphanTrees := { s with index := s.index.insertAll s.backfill } with hfilled
  set swept := (hashes.foldl removeOrphanByHash filled).sweepDangling with hswept
  have hprune : s.pruneWith ctx victims = swept.reconcile := rfl
  have hfilledWf := h.formed.below (below_filled h.formed)
  have hsweptBelow : Below s swept :=
    (below_filled h.formed).trans ((below_removeAll _ _).trans (below_sweepDangling _))
  rw [hprune, blocks_reconcile]
  constructor
  · intro hkey
    obtain ⟨v, hv⟩ := Ordered.mem_keys.mp hkey
    rcases (reconcile_index swept).2.1 _ hv with hmem | ⟨k, o, ho, heq⟩
    · -- the sweep has left no entry without a body
      have hbody := (mem_index_sweepDangling.mp hmem).2 _ (parseOrphanIndexHash_keyOf hash)
      obtain ⟨raw, hraw⟩ := Ordered.mem_keys.mp hbody
      have hraw' : (orphanHashKey hash, raw) ∈ swept.blocks.entries := hraw
      obtain ⟨o, rfl⟩ := (h.readable.below h.formed hsweptBelow).decodes (Ordered.mem_keys_of_mem hmem) hraw'
      exact ⟨o, hraw'⟩
    · have hwf := h.formed.below hsweptBelow
      have hsame : hash = o.block.hash := keyOf_inj ((congrArg Prod.fst heq).trans (hwf.indexKey ho))
      rw [hwf.body_key ho, ← hsame] at ho
      exact ⟨o, ho⟩
  · rintro ⟨o, ho⟩
    have hwf := h.formed.below hsweptBelow
    by_cases hrec : swept.reconciled = true
    · have hrec' : s.reconciled = true := by
        rw [hswept] at hrec
        exact (reconciled_removeAll hashes filled).symm.trans hrec
      obtain ⟨hbody, hstays⟩ := mem_blocks_removeAll.mp ho
      have hkey : keyOf names hash ∈ filled.index.keys :=
        Ordered.mem_keys_insertAll.mpr (Or.inr ((h.mirrored hrec' hash).mpr ⟨o, hbody⟩))
      have hremoved := mirrored_removeAll hfilledWf hashes hkey fun hmem => hstays hash hmem rfl
      obtain ⟨v, hv⟩ := Ordered.mem_keys.mp hremoved
      refine Ordered.mem_keys_of_mem ((reconcile_index swept).1 (keyOf names hash, v)
        (mem_index_sweepDangling.mpr ⟨hv, fun hashHex hparse => ?_⟩))
      rw [parseOrphanIndexHash_keyOf, Option.some.injEq] at hparse
      rw [← hparse]
      exact Ordered.mem_keys_of_mem ho
    · have hown := (reconcile_index swept).2.2 (by simpa using hrec) _ o ho
      rwa [hwf.indexKey ho, hwf.hash_eq ho] at hown

theorem Consistent.prune (h : Consistent names s) (hp : PruneOrphans ctx s s') : Consistent names s' := by
  unfold PruneOrphans at hp
  split_ifs at hp
  · rw [hp]
    exact h
  · obtain ⟨victims, -, rfl⟩ := hp
    exact h.pruned ctx victims

/-! ### The other steps -/

theorem Consistent.remove (h : Consistent names s) (hash : Hash) : Consistent names (s.removeOrphanByHash hash) := by
  have hfold : s.removeOrphanByHash hash = [hash].foldl removeOrphanByHash s := rfl
  refine h.below (below_removeAll [hash] s) fun hrec hash' => ?_
  have hmirror := h.mirrored (by rwa [reconciled_remove] at hrec)
  constructor
  · intro hkey
    obtain ⟨v, hv⟩ := Ordered.mem_keys.mp hkey
    obtain ⟨hmem, hother⟩ := mem_index_remove.mp hv
    obtain ⟨o, ho⟩ := (hmirror hash').mp (Ordered.mem_keys_of_mem hmem)
    refine ⟨o, mem_blocks_remove.mpr ⟨ho, fun heq => ?_⟩⟩
    have heq' : orphanHashKey hash' = orphanHashKey hash := heq
    refine hother o (heq' ▸ ho) ?_
    rw [h.formed.indexKey ho, h.formed.hash_eq ho]
  · rintro ⟨o, ho⟩
    obtain ⟨hbody, hne⟩ := mem_blocks_remove.mp ho
    rw [hfold]
    refine mirrored_removeAll h.formed [hash] ((hmirror hash').mpr ⟨o, hbody⟩) fun hmem => hne ?_
    rw [List.mem_singleton.mp hmem]

theorem Consistent.restart (h : Consistent names s) : Consistent names s.restart :=
  ⟨⟨h.formed.body, h.formed.entry, h.formed.time⟩, h.readable, fun hrec => by cases hrec⟩

theorem not_stored {b : Block} (h : s.storeSkipped ctx b = false) : orphanHashKey b.hash ∉ s.blocks.keys := by
  rw [storeSkipped, Bool.or_eq_false_iff] at h
  rw [← Ordered.get_isSome, h.2]
  exact Bool.false_ne_true

/-- The index is written, and the body is not there. -/
theorem Consistent.writeIndex (h : Consistent names s) (ctx : PoolContext) {b : Block} (hb : Named names b)
    (hnew : orphanHashKey b.hash ∉ s.blocks.keys) :
    WellFormed names (s.writeIndex ctx b) ∧ Readable (s.writeIndex ctx b) := by
  have hown : orphanIndexKey b.previousHash b.index b.hash = keyOf names b.hash := by rw [keyOf, hb.fields]
  have hkeys : ∀ k, k ∈ (s.writeIndex ctx b).index.keys ↔ k = keyOf names b.hash ∨ k ∈ s.index.keys := by
    intro k
    rw [← hown]
    exact Ordered.mem_keys_insert
  refine ⟨⟨h.formed.body, fun k hk => ?_, fun hash v o t hv ho ht => ?_⟩, fun k hk hashHex hparse hnone => ?_⟩
  · rcases (hkeys k).mp hk with rfl | hk
    · exact ⟨_, rfl⟩
    · exact h.formed.entry k hk
  · rcases Ordered.mem_insert.mp hv with heq | ⟨hmem, -⟩
    · have hsame : hash = b.hash := keyOf_inj ((congrArg Prod.fst heq).trans hown)
      exact absurd (Ordered.mem_keys_of_mem ho) (hsame ▸ hnew)
    · exact h.formed.time hash v o t hmem ho ht
  · rcases (hkeys k).mp hk with rfl | hk
    · rw [parseOrphanIndexHash_keyOf, Option.some.injEq] at hparse
      exact hnew (by rw [orphanHashKey, hparse]; exact Ordered.mem_keys_of_mem hnone)
    · exact h.readable k hk hashHex hparse hnone

theorem Consistent.crash (h : Consistent names s) {b : Block} (hb : Named names b)
    (hnew : s.storeSkipped ctx b = false) : Consistent names (s.writeIndex ctx b).restart := by
  obtain ⟨hwf, hread⟩ := h.writeIndex ctx hb (not_stored hnew)
  exact ⟨⟨hwf.body, hwf.entry, hwf.time⟩, hread, fun hrec => by cases hrec⟩

/-- Both writes of a store. -/
theorem Consistent.write (h : Consistent names s) {b : Block} (hb : Named names b)
    (hnew : s.storeSkipped ctx b = false) : Consistent names ((s.writeIndex ctx b).writeBody ctx b) := by
  have hfresh := not_stored hnew
  obtain ⟨hwf, hread⟩ := h.writeIndex ctx hb hfresh
  have hown : orphanIndexKey b.previousHash b.index b.hash = keyOf names b.hash := by rw [keyOf, hb.fields]
  have hblocks : ∀ e, e ∈ ((s.writeIndex ctx b).writeBody ctx b).blocks.entries ↔
      e = (orphanHashKey b.hash, some ⟨b, ctx.now⟩) ∨ e ∈ s.blocks.entries ∧ e.1 ≠ orphanHashKey b.hash :=
    fun e => Ordered.mem_insert
  refine ⟨⟨fun e he => ?_, hwf.entry, fun hash v o t hv ho ht => ?_⟩, fun k hk hashHex hparse hnone => ?_,
    fun hrec hash => ?_⟩
  · rcases (hblocks e).mp he with rfl | ⟨hmem, -⟩
    · refine ⟨b.hash, rfl, fun o ho => ?_⟩
      obtain rfl := Option.some.inj ho
      exact ⟨rfl, hb, ctx.range⟩
    · exact h.formed.body e hmem
  · rcases (hblocks _).mp ho with heq | ⟨hmem, hne⟩
    · obtain ⟨hkey, hbody⟩ := Prod.mk.injEq .. ▸ heq
      have hsame : hash = b.hash := orphanHashKey_inj hkey
      rcases Ordered.mem_insert.mp hv with hentry | ⟨-, hother⟩
      · have hval : v = orphanIndexValue ctx.now := congrArg Prod.snd hentry
        rw [hval, parse_orphanIndexValue ctx.range] at ht
        rw [Option.some.inj hbody]
        exact (Option.some.inj ht).symm
      · exact absurd (by rw [hsame, hown]) hother
    · rcases Ordered.mem_insert.mp hv with hval | ⟨hmemv, -⟩
      · have hsame : hash = b.hash := keyOf_inj ((congrArg Prod.fst hval).trans hown)
        exact absurd (by rw [hsame]) hne
      · exact h.formed.time hash v o t hmemv hmem ht
  · rcases (hblocks _).mp hnone with heq | ⟨hmem, -⟩
    · cases congrArg Prod.snd heq
    · exact hread k hk hashHex hparse hmem
  · have hmirror := h.mirrored hrec hash
    have hkeys : keyOf names hash ∈ ((s.writeIndex ctx b).writeBody ctx b).index.keys ↔
        keyOf names hash = keyOf names b.hash ∨ keyOf names hash ∈ s.index.keys := by
      rw [← hown]
      exact Ordered.mem_keys_insert
    rw [hkeys, hmirror]
    constructor
    · rintro (heq | ⟨o, ho⟩)
      · exact ⟨_, (hblocks _).mpr (Or.inl (by rw [keyOf_inj heq]))⟩
      · refine ⟨o, (hblocks _).mpr (Or.inr ⟨ho, fun heq => hfresh ?_⟩)⟩
        have heq' : orphanHashKey hash = orphanHashKey b.hash := heq
        rw [← heq']
        exact Ordered.mem_keys_of_mem ho
    · rintro ⟨o, ho⟩
      rcases (hblocks _).mp ho with heq | ⟨hmem, -⟩
      · exact Or.inl (by rw [orphanHashKey_inj (congrArg Prod.fst heq)])
      · exact Or.inr ⟨o, hmem⟩

theorem Consistent.store {ctx' : PoolContext} {b : Block} (h : Consistent names s) (hb : Named names b)
    (hstep : StoreOrphanBlock ctx ctx' b s s') : Consistent names s' := by
  unfold StoreOrphanBlock at hstep
  split_ifs at hstep with hskip
  · rw [hstep]
    exact h
  · exact (h.write hb (by simpa using hskip)).prune hstep

/-- **Every state of a run is consistent**, when the inherited pool has no entry that names an undecodable
body. -/
theorem Consistent.of_run {s₀ : OrphanTrees} (h₀ : InheritedPool names s₀) (hread : Readable s₀)
    (h : OrphanRun names s₀ s) : Consistent names s := by
  induction h with
  | inherited => exact ⟨h₀.toWellFormed, hread, fun hrec => by rw [h₀.started] at hrec; cases hrec⟩
  | store _ hb hstep ih => exact ih.store hb hstep
  | crash _ hb hnew ih => exact ih.crash hb hnew
  | remove hash _ ih => exact ih.remove hash
  | prune _ hstep ih => exact ih.prune hstep
  | restart _ ih => exact ih.restart

/-! ### Counting -/

theorem mem_retained_hash (ctx : PoolContext) (h : Consistent names s) (hrec : s.reconciled = true)
    (dead : Bool) (hash : Hash) :
    (∃ j ∈ s.judged, ctx.dead j.index j.receivedAt = dead ∧ j.hash = hash) ↔
      ∃ o ∈ s.orphans, ctx.dead o.block.index o.receivedAt = dead ∧ o.block.hash = hash := by
  have hmirror := h.mirrored hrec
  constructor
  · rintro ⟨j, hj, hdead, rfl⟩
    obtain ⟨hkey, hname, hfacts, -⟩ := h.formed.judged hj
    obtain ⟨o, ho⟩ := (hmirror j.hash).mp (by rw [← hname]; exact hkey)
    obtain ⟨hindex, htime⟩ := hfacts o ho
    exact ⟨o, OrphanTrees.mem_orphans.mpr ⟨_, ho⟩, by rw [← hindex, ← htime]; exact hdead, h.formed.hash_eq ho⟩
  · rintro ⟨o, ho, hdead, rfl⟩
    have hbody := h.formed.mem_orphans.mp ho
    obtain ⟨j, hj, hhash⟩ := h.formed.exists_judged ((hmirror _).mpr ⟨o, hbody⟩) hbody
    obtain ⟨-, -, hfacts, -⟩ := h.formed.judged hj
    obtain ⟨hindex, htime⟩ := hfacts o (by rw [hhash]; exact hbody)
    exact ⟨j, hj, by rw [hindex, htime]; exact hdead, hhash⟩

theorem mem_retained {j : Judged} :
    j ∈ s.retained ctx ↔ j ∈ s.judged ∧ ctx.dead j.index j.receivedAt = false := by
  simp [retained]

theorem mem_expired {j : Judged} :
    j ∈ s.expired ctx ↔ j ∈ s.judged ∧ ctx.dead j.index j.receivedAt = true := by
  simp [expired]

theorem mem_alive {o : OrphanStoredBlock} :
    o ∈ s.alive ctx ↔ o ∈ s.orphans ∧ ctx.dead o.block.index o.receivedAt = false := by
  simp [alive]

theorem retained_nodup (h : WellFormed names s) : ((s.retained ctx).map (·.hash)).Nodup :=
  h.judged_nodup.sublist (List.filter_sublist.map _)

/-- In a reconciled process the entries that retention keeps are the live orphans. -/
theorem retained_perm (ctx : PoolContext) (h : Consistent names s) (hrec : s.reconciled = true) :
    ((s.retained ctx).map (·.hash)).Perm ((s.alive ctx).map (·.block.hash)) := by
  have halive : ((s.alive ctx).map (·.block.hash)).Nodup :=
    h.formed.orphans_nodup.sublist (List.filter_sublist.map _)
  refine (List.perm_ext_iff_of_nodup (retained_nodup h.formed) halive).mpr fun hash => ?_
  have hboth := mem_retained_hash ctx h hrec false hash
  simp only [List.mem_map, mem_retained, mem_alive, and_assoc]
  exact hboth

theorem mem_orphans_pruneWith (hwf : WellFormed names s) {victims : List Judged} {o : OrphanStoredBlock} :
    o ∈ (s.pruneWith ctx victims).orphans ↔
      o ∈ s.orphans ∧ o.block.hash ∉ (s.expired ctx ++ victims).map (·.hash) := by
  rw [(hwf.below (below_pruneWith ctx hwf victims)).mem_orphans, mem_blocks_pruneWith, hwf.mem_orphans]
  refine and_congr_right fun _ => ⟨fun h hmem => h _ hmem rfl, fun h hash hmem heq => h ?_⟩
  rw [orphanHashKey_inj heq]
  exact hmem

theorem mem_expired_hash (h : Consistent names s) (hrec : s.reconciled = true) {o : OrphanStoredBlock}
    (ho : o ∈ s.orphans) :
    o.block.hash ∈ (s.expired ctx).map (·.hash) ↔ ctx.dead o.block.index o.receivedAt = true := by
  constructor
  · intro hmem
    obtain ⟨j, hj, hhash⟩ := List.mem_map.mp hmem
    obtain ⟨hjudged, hdead⟩ := mem_expired.mp hj
    obtain ⟨o', ho', hdead', hhash'⟩ := (mem_retained_hash ctx h hrec true o.block.hash).mp ⟨j, hjudged, hdead, hhash⟩
    rw [List.inj_on_of_nodup_map h.formed.orphans_nodup ho ho' hhash'.symm]
    exact hdead'
  · intro hdead
    obtain ⟨j, hj, hjdead, hhash⟩ := (mem_retained_hash ctx h hrec true o.block.hash).mpr ⟨o, ho, hdead, rfl⟩
    exact List.mem_map.mpr ⟨j, mem_expired.mpr ⟨hj, hjdead⟩, hhash⟩

/-- What the selection keeps is what the pool holds afterwards. -/
theorem survivors_perm (h : Consistent names s) (hrec : s.reconciled = true) {victims kept : List Judged}
    (hperm : (victims ++ kept).Perm (s.retained ctx)) :
    ((s.pruneWith ctx victims).orphans.map (·.block.hash)).Perm (kept.map (·.hash)) := by
  have hnodup : ((victims ++ kept).map (·.hash)).Nodup :=
    (hperm.map (·.hash)).nodup_iff.mpr (retained_nodup h.formed)
  rw [List.map_append] at hnodup
  obtain ⟨-, hkept, hdisjoint⟩ := List.nodup_append.mp hnodup
  have hafter := (h.pruned ctx victims).formed.orphans_nodup
  refine (List.perm_ext_iff_of_nodup hafter hkept).mpr fun hash => ?_
  constructor
  · intro hmem
    obtain ⟨o, ho, rfl⟩ := List.mem_map.mp hmem
    obtain ⟨hbefore, hout⟩ := (mem_orphans_pruneWith h.formed).mp ho
    rw [List.map_append, List.mem_append, not_or] at hout
    rw [mem_expired_hash h hrec hbefore, Bool.not_eq_true] at hout
    obtain ⟨j, hj, hjlive, hjhash⟩ := (mem_retained_hash ctx h hrec false o.block.hash).mpr
      ⟨o, hbefore, hout.1, rfl⟩
    rcases List.mem_append.mp (hperm.mem_iff.mpr (mem_retained.mpr ⟨hj, hjlive⟩)) with hvictim | hkeep
    · exact absurd (List.mem_map.mpr ⟨j, hvictim, hjhash⟩) hout.2
    · exact List.mem_map.mpr ⟨j, hkeep, hjhash⟩
  · intro hmem
    obtain ⟨j, hj, rfl⟩ := List.mem_map.mp hmem
    obtain ⟨hjudged, hlive⟩ := mem_retained.mp (hperm.mem_iff.mp (List.mem_append_right _ hj))
    obtain ⟨o, ho, holive, hohash⟩ := (mem_retained_hash ctx h hrec false j.hash).mp ⟨j, hjudged, hlive, rfl⟩
    refine List.mem_map.mpr ⟨o, (mem_orphans_pruneWith h.formed).mpr ⟨ho, fun hout => ?_⟩, hohash⟩
    rw [List.map_append, List.mem_append, mem_expired_hash h hrec ho, holive, hohash] at hout
    rcases hout with hdead | hvictim
    · cases hdead
    · exact hdisjoint _ hvictim _ (List.mem_map_of_mem hj) rfl

theorem dead_cases {index receivedAt : ℕ} (h : ctx.dead index receivedAt = true) :
    orphanTtlSecs < ctx.now - receivedAt ∨ (∃ tip, ctx.tip = some tip ∧ index + orphanReorgDepth < tip) ∨
      (0 < ctx.checkpoint ∧ index ≤ ctx.checkpoint) := by
  simp only [PoolContext.dead, Bool.or_eq_true, Bool.and_eq_true, decide_eq_true_eq, Option.any_eq_true] at h
  exact or_assoc.mp h

theorem Consistent.indexed (h : Consistent names s) (hrec : s.reconciled = true) (k : Bytes) :
    k ∈ s.index.keys ↔ ∃ o ∈ s.orphans, k = o.indexKey := by
  have hmirror := h.mirrored hrec
  constructor
  · intro hk
    obtain ⟨hash, rfl⟩ := h.formed.entry k hk
    obtain ⟨o, ho⟩ := (hmirror hash).mp hk
    exact ⟨o, OrphanTrees.mem_orphans.mpr ⟨_, ho⟩, by rw [h.formed.indexKey ho, h.formed.hash_eq ho]⟩
  · rintro ⟨o, ho, rfl⟩
    have hbody := h.formed.mem_orphans.mp ho
    rw [h.formed.indexKey hbody]
    exact (hmirror _).mpr ⟨o, hbody⟩

/-- A prune of a consistent pool, in a process that has reconciled. -/
theorem Consistent.exact (h : Consistent names s) (hrec : s.reconciled = true) (hp : PruneOrphans ctx s s') :
    PruneExact ctx s s' := by
  have hafter := h.prune hp
  unfold PruneOrphans at hp
  split_ifs at hp with hempty
  · subst hp
    refine ⟨hafter.indexed hrec, ?_, fun e he => he, fun e he hout => absurd he hout⟩
    rw [orphans, hempty.1]
    exact Nat.zero_le _
  · obtain ⟨victims, ⟨kept, hperm, hoverflow, hle⟩, rfl⟩ := hp
    have hsurvivors := survivors_perm h hrec hperm
    have hcount : (s.pruneWith ctx victims).orphans.length = kept.length := by
      simpa using hsurvivors.length_eq
    have hretained : victims.length + kept.length = (s.retained ctx).length := by
      rw [← List.length_append]
      exact hperm.length_eq
    have halive : (s.retained ctx).length = (s.alive ctx).length := by
      simpa using (retained_perm ctx h hrec).length_eq
    refine ⟨hafter.indexed reconciled_reconcile, by omega, (below_pruneWith ctx h.formed victims).blocks, ?_⟩
    intro e he hout
    rw [mem_blocks_pruneWith] at hout
    push Not at hout
    obtain ⟨hash, hmem, hkey⟩ := hout he
    obtain ⟨j, hj, rfl⟩ := List.mem_map.mp hmem
    -- the entry that was judged names a body that decodes
    have hfound : j ∈ s.judged → ∃ o, (orphanHashKey j.hash, some o) ∈ s.blocks.entries ∧ e.2 = some o ∧
        j.index = o.block.index ∧ j.receivedAt = o.receivedAt := by
      intro hjudged
      obtain ⟨hin, hname, hfacts, -⟩ := h.formed.judged hjudged
      obtain ⟨o, ho⟩ := (h.mirrored hrec j.hash).mp (by rw [← hname]; exact hin)
      exact ⟨o, ho, congrArg Prod.snd (Ordered.eq_of_key he ho hkey), hfacts o ho⟩
    rcases List.mem_append.mp hj with hexpired | hvictim
    · obtain ⟨hjudged, hdead⟩ := mem_expired.mp hexpired
      obtain ⟨o, -, hraw, hindex, htime⟩ := hfound hjudged
      rw [hindex, htime] at hdead
      refine ⟨o, hraw, ?_⟩
      rcases dead_cases hdead with hold | hdeep | hfinal
      · exact Or.inl hold
      · exact Or.inr (Or.inl hdeep)
      · exact Or.inr (Or.inr (Or.inl hfinal))
    · obtain ⟨hjudged, -⟩ := mem_retained.mp (hperm.mem_iff.mp (List.mem_append_left _ hvictim))
      obtain ⟨o, -, hraw, -, htime⟩ := hfound hjudged
      have hpos : 0 < victims.length := List.length_pos_of_mem hvictim
      refine ⟨o, hraw, Or.inr (Or.inr (Or.inr ⟨by omega, by omega, fun o' ho' => ?_⟩))⟩
      obtain ⟨j', hj', hhash⟩ := List.mem_map.mp (hsurvivors.mem_iff.mp (List.mem_map_of_mem ho'))
      obtain ⟨hjudged', -⟩ := mem_retained.mp (hperm.mem_iff.mp (List.mem_append_right _ hj'))
      obtain ⟨-, -, hfacts', -⟩ := h.formed.judged hjudged'
      have hbody' := h.formed.mem_orphans.mp ((mem_orphans_pruneWith h.formed).mp ho').1
      have htime' := (hfacts' o' (by rw [hhash]; exact hbody')).2
      rw [← htime, ← htime']
      exact hle j hvictim j' hj'

/-- **A reconciled process keeps the pool exact.** In every run from an inherited pool in which no index
entry names an undecodable body, a prune in a process that has reconciled leaves exactly the index keys of
the stored decodable bodies and at most 10,000 orphans, and removes an orphan only for its age, its depth,
finality, or as one of the oldest of an over-full pool. -/
theorem orphan_pool_consistent {s₀ : OrphanTrees} (h₀ : InheritedPool names s₀) (hread : Readable s₀)
    (hprune : PruneOfRun names s₀ ctx s s') (hrec : s.reconciled = true) : PruneExact ctx s s' := by
  cases hprune with
  | call hrun hp => exact (Consistent.of_run h₀ hread hrun).exact hrec hp
  | stored hrun hb hnew hs hp =>
    have hconsistent := (Consistent.of_run h₀ hread hrun).write hb hnew
    rw [← hs] at hconsistent
    exact hconsistent.exact hrec hp

/-- A process that prunes twice. -/
theorem prunedTwice (names : Hash → Hash × ℕ) (s : OrphanTrees) (ctx : PoolContext) :
    PruneOfRun names s ctx (pruneOrphans ctx s) (pruneOrphans ctx (pruneOrphans ctx s)) :=
  .call (.prune .inherited (pruneOrphans_prunes ctx s)) (pruneOrphans_prunes ctx _)

/-! A pool inherited with one entry, which carries no time. -/

def oneEntryPool (body : Option OrphanStoredBlock) : OrphanTrees where
  blocks := Ordered.empty.insert (orphanHashKey zeroHash) body
  index := Ordered.empty.insert (orphanIndexKey zeroHash 5 zeroHash) []
  reconciled := false

def orphanAtFive : OrphanStoredBlock where
  block :=
    { index := 5, previousHash := zeroHash, timestamp := 0, transactions := [], nonce := 0, difficulty := 0,
      hash := zeroHash, merkleRoot := zeroHash }
  receivedAt := 100

def poolContext : PoolContext := ⟨200, some 7, 0, by norm_num⟩

def namesFive : Hash → Hash × ℕ := fun _ => (zeroHash, 5)

theorem oneEntryPool_blocks {body : Option OrphanStoredBlock} {e : Bytes × Option OrphanStoredBlock} :
    e ∈ (oneEntryPool body).blocks.entries ↔ e = (orphanHashKey zeroHash, body) := by
  rw [oneEntryPool, Ordered.mem_insert]
  simp [Ordered.empty]

theorem oneEntryPool_index {body : Option OrphanStoredBlock} {e : Bytes × Bytes} :
    e ∈ (oneEntryPool body).index.entries ↔ e = (keyOf namesFive zeroHash, []) := by
  rw [oneEntryPool, Ordered.mem_insert]
  simp [keyOf, namesFive, Ordered.empty]

theorem oneEntryPool_inherited {body : Option OrphanStoredBlock} (h : ∀ o, body = some o → o = orphanAtFive) :
    InheritedPool namesFive (oneEntryPool body) := by
  refine ⟨⟨fun e he => ⟨zeroHash, ?_, fun o ho => ?_⟩, fun k hk => ⟨zeroHash, ?_⟩, fun hash v o t hv _ ht => ?_⟩, rfl⟩
  · rw [oneEntryPool_blocks.mp he]
  · rw [oneEntryPool_blocks.mp he] at ho
    rw [h o ho]
    exact ⟨rfl, ⟨rfl, by norm_num [orphanAtFive]⟩, by norm_num [orphanAtFive]⟩
  · obtain ⟨v, hv⟩ := Ordered.mem_keys.mp hk
    exact congrArg Prod.fst (oneEntryPool_index.mp hv)
  · have hval : v = [] := congrArg Prod.snd (oneEntryPool_index.mp hv)
    rw [hval] at ht
    cases ht

theorem reconciled_pruneOrphans (h : s.index.entries ≠ []) : (pruneOrphans ctx s).reconciled = true := by
  rw [pruneOrphans, if_neg fun hempty => h hempty.2]
  exact reconciled_reconcile

theorem oneEntryPool_pruned (body : Option OrphanStoredBlock) :
    (pruneOrphans poolContext (oneEntryPool body)).reconciled = true :=
  reconciled_pruneOrphans (List.ne_nil_of_mem (oneEntryPool_index.mpr rfl))

theorem orphan_pool_consistent_twice :
    PruneExact poolContext (pruneOrphans poolContext (oneEntryPool (some orphanAtFive)))
      (pruneOrphans poolContext (pruneOrphans poolContext (oneEntryPool (some orphanAtFive)))) := by
  have hread : Readable (oneEntryPool (some orphanAtFive)) := by
    intro k _ hashHex _ hnone
    cases congrArg Prod.snd (oneEntryPool_blocks.mp hnone)
  have hinherited : InheritedPool namesFive (oneEntryPool (some orphanAtFive)) :=
    oneEntryPool_inherited fun o ho => (Option.some.inj ho).symm
  exact orphan_pool_consistent hinherited hread (prunedTwice namesFive _ poolContext) (oneEntryPool_pruned _)

/-! ### The abstract pool -/

/-- **The trees refine the list.** Where the pool is not over-full, a prune leaves the orphans that the
pool kept as one list leaves. -/
theorem prune_refines_list {c : ChainState} (h : Consistent names s) (hrec : s.reconciled = true)
    (hpool : c.orphans.Perm s.orphans) (hcheckpoint : c.trustedCheckpointHeight = ctx.checkpoint)
    (hroom : (s.alive ctx).length ≤ orphanMaxCount) (hp : PruneOrphans ctx s s') :
    (c.pruneOrphansAt ctx.now ctx.tip).orphans.Perm s'.orphans := by
  have hafter := h.prune hp
  have hnodup : s'.orphans.Nodup := List.Nodup.of_map _ hafter.formed.orphans_nodup
  have hpooled : c.orphans.Nodup := hpool.nodup_iff.mpr (List.Nodup.of_map _ h.formed.orphans_nodup)
  have hdead : ∀ o, c.orphanExpired ctx.now ctx.tip o = ctx.dead o.block.index o.receivedAt := by
    intro o
    rw [ChainState.orphanExpired, hcheckpoint, PoolContext.dead]
  have hlist : (c.pruneOrphansAt ctx.now ctx.tip).orphans =
      c.orphans.filter fun o => !ctx.dead o.block.index o.receivedAt := by
    have hfit : (c.orphans.filter fun o => !ctx.dead o.block.index o.receivedAt).length ≤ orphanMaxCount := by
      rw [(hpool.filter _).length_eq]
      exact hroom
    simp only [ChainState.pruneOrphansAt, hdead, Nat.sub_eq_zero_of_le hfit, List.take_zero, List.map_nil,
      List.not_mem_nil, not_false_eq_true, decide_true, List.filter_true]
  rw [hlist]
  refine (List.perm_ext_iff_of_nodup (hpooled.filter _) hnodup).mpr fun o => ?_
  rw [List.mem_filter, Bool.not_eq_true', hpool.mem_iff]
  unfold PruneOrphans at hp
  split_ifs at hp with hempty
  · have hnone : s.orphans = [] := by rw [orphans, hempty.1, List.filterMap_nil]
    rw [hp, hnone]
    simp
  · obtain ⟨victims, ⟨kept, hperm, hoverflow, -⟩, rfl⟩ := hp
    have hcount : (s.retained ctx).length = (s.alive ctx).length := by
      simpa using (retained_perm ctx h hrec).length_eq
    have hvictims : victims = [] := List.eq_nil_of_length_eq_zero (by omega)
    rw [mem_orphans_pruneWith h.formed, hvictims, List.append_nil]
    refine and_congr_right fun ho => ?_
    rw [mem_expired_hash h hrec ho, Bool.not_eq_true]

/-! ### The entries that stay -/

/-- **An unreadable entry outlives every prune.** An entry without a time whose body is there and does not
decode is passed over by retention, kept by the sweep, and not touched by reconciliation; its body
stays with it. -/
theorem unreadable_survives (h : WellFormed names s) {hash : Hash} {v : Bytes}
    (hentry : (keyOf names hash, v) ∈ s.index.entries) (htime : parseOrphanIndexReceivedAt v = none)
    (hbody : (orphanHashKey hash, none) ∈ s.blocks.entries) (hp : PruneOrphans ctx s s') :
    (keyOf names hash, v) ∈ s'.index.entries ∧ (orphanHashKey hash, none) ∈ s'.blocks.entries := by
  unfold PruneOrphans at hp
  split_ifs at hp
  · rw [hp]
    exact ⟨hentry, hbody⟩
  · obtain ⟨victims, ⟨kept, hperm, -, -⟩, rfl⟩ := hp
    -- no entry with this hash is judged
    have hjudged : ∀ j ∈ s.judged, j.hash ≠ hash := by
      intro j hj hhash
      obtain ⟨e, he, hje⟩ := List.mem_filterMap.mp hj
      obtain ⟨hkey, hname, -⟩ := h.judgeEntry he hje
      have hsame : e = (keyOf names hash, v) := Ordered.eq_of_key he hentry (by rw [← hkey, hname, hhash])
      subst hsame
      unfold OrphanTrees.judgeEntry at hje
      obtain ⟨⟨index, hashHex⟩, hparse, hje⟩ := Option.bind_eq_some_iff.mp hje
      obtain ⟨hash', -, hje⟩ := Option.bind_eq_some_iff.mp hje
      simp only [htime] at hje
      obtain ⟨o, ho, -⟩ := Option.bind_eq_some_iff.mp hje
      rw [hash_of_parseOrphanIndexEntry hparse] at ho
      have hraw := Ordered.get_eq_some.mp (Option.join_eq_some_iff.mp ho)
      cases congrArg Prod.snd (Ordered.eq_of_key hraw hbody rfl)
    have hout : hash ∉ (s.expired ctx ++ victims).map (·.hash) := by
      intro hmem
      obtain ⟨j, hj, hhash⟩ := List.mem_map.mp hmem
      refine hjudged j ?_ hhash
      rcases List.mem_append.mp hj with hexpired | hvictim
      · exact (mem_expired.mp hexpired).1
      · exact (mem_retained.mp (hperm.mem_iff.mp (List.mem_append_left _ hvictim))).1
    have hstays : (orphanHashKey hash, none) ∈ (s.pruneWith ctx victims).blocks.entries :=
      mem_blocks_pruneWith.mpr ⟨hbody, fun hash' hmem heq => hout (orphanHashKey_inj heq ▸ hmem)⟩
    refine ⟨?_, hstays⟩
    have hfilled : (keyOf names hash, v) ∈ (s.index.insertAll s.backfill).entries := by
      refine (Ordered.mem_insertAll_of_notMem fun hmem => ?_).mpr hentry
      obtain ⟨op, hop, hkey⟩ := List.mem_map.mp hmem
      obtain ⟨j, hj, rfl⟩ := List.mem_map.mp hop
      have hj' := (List.mem_filter.mp hj).1
      obtain ⟨-, hname, -⟩ := h.judged hj'
      have hsame : keyOf names j.hash = keyOf names hash := hname.symm.trans hkey
      exact hjudged j hj' (keyOf_inj hsame)
    refine (reconcile_index _).1 _ (mem_index_sweepDangling.mpr ⟨mem_index_removeAll.mpr ⟨hfilled, ?_⟩, ?_⟩)
    · intro hash' hmem o ho heq
      have hsame : hash = o.block.hash := keyOf_inj (heq.trans (h.indexKey ho))
      rw [h.hash_eq ho] at hsame
      exact hout (hsame ▸ hmem)
    · intro hashHex hparse
      rw [parseOrphanIndexHash_keyOf, Option.some.injEq] at hparse
      rw [← hparse]
      rw [pruneWith, blocks_reconcile] at hstays
      exact Ordered.mem_keys_of_mem hstays

/-- Such a pool is not exact after any prune, and not after the next. -/
theorem not_exact_of_unreadable (h : WellFormed names s) {hash : Hash} {v : Bytes}
    (hentry : (keyOf names hash, v) ∈ s.index.entries) (htime : parseOrphanIndexReceivedAt v = none)
    (hbody : (orphanHashKey hash, none) ∈ s.blocks.entries) (hp : PruneOrphans ctx s s') :
    ¬ PruneExact ctx s s' := by
  intro hexact
  obtain ⟨hentry', hbody'⟩ := unreadable_survives h hentry htime hbody hp
  obtain ⟨o, ho, hown⟩ := (hexact.indexed _).mp (Ordered.mem_keys_of_mem hentry')
  -- the key would have to be that of a body that decodes
  have hafter := h.below (below_prune h hp)
  have hdecoded := hafter.mem_orphans.mp ho
  have hhash : hash = o.block.hash := keyOf_inj (hown.trans (hafter.indexKey hdecoded))
  rw [← hhash] at hdecoded
  cases congrArg Prod.snd (Ordered.eq_of_key hdecoded hbody' rfl)

theorem not_exact_twice (h : WellFormed names s) {hash : Hash} {v : Bytes}
    (hentry : (keyOf names hash, v) ∈ s.index.entries) (htime : parseOrphanIndexReceivedAt v = none)
    (hbody : (orphanHashKey hash, none) ∈ s.blocks.entries) :
    ¬ PruneExact ctx (pruneOrphans ctx s) (pruneOrphans ctx (pruneOrphans ctx s)) := by
  have hfirst := pruneOrphans_prunes ctx s
  obtain ⟨hentry', hbody'⟩ := unreadable_survives h hentry htime hbody hfirst
  exact not_exact_of_unreadable (h.below (below_prune h hfirst)) hentry' htime hbody' (pruneOrphans_prunes ctx _)

/-- The entry of an inherited body that does not decode is in the index after every prune. -/
theorem undecodable_body_stays_indexed :
    ¬ ∀ (names : Hash → Hash × ℕ) (s₀ s s' : OrphanTrees) (ctx : PoolContext), InheritedPool names s₀ →
      PruneOfRun names s₀ ctx s s' → s.reconciled = true → PruneExact ctx s s' := by
  intro hall
  have hinherited : InheritedPool namesFive (oneEntryPool none) := oneEntryPool_inherited fun o ho => by cases ho
  have hexact := hall namesFive _ _ _ poolContext hinherited (prunedTwice namesFive _ poolContext)
    (oneEntryPool_pruned none)
  exact not_exact_twice hinherited.toWellFormed (oneEntryPool_index.mpr rfl) rfl (oneEntryPool_blocks.mpr rfl) hexact

end OrphanTrees

end Alphanumeric
