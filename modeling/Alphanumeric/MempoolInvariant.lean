/-
# The mempool keeps its books

In every state that admissions, clearings, prunings and evictions reach from the
empty pool, the index, the bucket lengths and the two totals are those of the
buckets, no bucket is empty, no transaction is stored twice, and the three limits
hold. All removals come down to one: some entries leave one bucket (`Removed`), and
the index loses their ids.

Clearing trusts the sender of the transaction it is given, so ids must determine
senders; `owner` is that function.

Key definitions: `Consistent`, `Removed`, `Lockstep`.
Key theorems: `Consistent.removed`, `removeAll_consistent`, `admitTransaction_consistent`, `mempool_lockstep`.
-/
import Alphanumeric.Mempool

namespace Alphanumeric

open Mempool

variable {M : MempoolEnv} {owner : Text → Text}

/-! ### The invariant -/

def ids (bucket : List MempoolEntry) : List Text := bucket.map (·.txId)

/-- The buckets and their counters. -/
structure Books (p : Mempool) : Prop where
  once : ∀ s b, p.transactions.lookup s = some b → (ids b).Nodup
  nonempty : ∀ s b, p.transactions.lookup s = some b → b ≠ []
  counts : ∀ s, p.addressCounts.lookup s = (p.transactions.lookup s).map List.length
  count : p.totalCount = Table.total List.length p.transactions
  size : p.totalSize = Table.total entriesSize p.transactions
  maxCount : p.totalCount ≤ mempoolMaxTransactions
  maxSize : p.totalSize ≤ mempoolMaxBytes
  maxAddress : ∀ s b, p.transactions.lookup s = some b → b.length ≤ mempoolMaxPerAddress
  sound : p.underflowed = false

/-- The index, too, agrees with the buckets. -/
structure Consistent (owner : Text → Text) (p : Mempool) : Prop extends Books p where
  owned : ∀ id s, p.txLocator.lookup id = some s → owner id = s
  located : ∀ id s, p.txLocator.lookup id = some s ↔ ∃ b, p.transactions.lookup s = some b ∧ id ∈ ids b

theorem new_consistent : Consistent owner Mempool.new where
  owned _ _ h := by cases h
  located id s := by simp [Mempool.new]
  once _ _ h := by cases h
  nonempty _ _ h := by cases h
  counts s := by simp [Mempool.new]
  count := rfl
  size := rfl
  maxCount := Nat.zero_le _
  maxSize := Nat.zero_le _
  maxAddress _ _ h := by cases h
  sound := rfl

theorem Books.of_locator {p : Mempool} (h : Books p) (t : Table Text Text) :
    Books { p with txLocator := t } :=
  ⟨h.once, h.nonempty, h.counts, h.count, h.size, h.maxCount, h.maxSize, h.maxAddress, h.sound⟩

/-- An id that is indexed nowhere may be taken from the index. -/
theorem Consistent.of_locator {p : Mempool} (h : Consistent owner p) {t : Table Text Text}
    (ht : ∀ id, t.lookup id = p.txLocator.lookup id) : Consistent owner { p with txLocator := t } where
  toBooks := h.toBooks.of_locator t
  owned id s hs := h.owned id s ((ht id).symm.trans hs)
  located id s := by
    rw [← h.located]
    exact (congrArg (· = some s) (ht id)).to_iff

/-! ### Counters -/

theorem fetchSub_eq {a n : ℕ} (hle : n ≤ a) : fetchSub a n = a - n := if_pos hle

theorem entriesSize_append (a b : List MempoolEntry) : entriesSize (a ++ b) = entriesSize a + entriesSize b := by
  simp [entriesSize]

theorem entriesSize_perm {a b : List MempoolEntry} (h : a.Perm b) : entriesSize a = entriesSize b :=
  (h.map _).sum_eq

theorem Books.bucket_le {p : Mempool} (h : Books p) {s : Text} {b : List MempoolEntry}
    (hb : p.transactions.lookup s = some b) : b.length ≤ p.totalCount ∧ entriesSize b ≤ p.totalSize := by
  rw [h.count, h.size, Table.total_erase List.length hb, Table.total_erase entriesSize hb]
  exact ⟨Nat.le_add_right _ _, Nat.le_add_right _ _⟩

/-! ### Removal from one bucket -/

/-- In `q`, the bucket of `addr` is `kept` (or gone, if nothing is), and the totals are less by
`gone`. -/
structure Removed (addr : Text) (kept gone : List MempoolEntry) (p q : Mempool) : Prop where
  lookup : ∀ s, q.transactions.lookup s =
    if s = addr then (if kept = [] then none else some kept) else p.transactions.lookup s
  counts : ∀ s, q.addressCounts.lookup s =
    if s = addr then (if kept = [] then none else some kept.length) else p.addressCounts.lookup s
  totals : ∀ w : List MempoolEntry → ℕ, w [] = 0 →
    Table.total w q.transactions = w kept + Table.total w (p.transactions.erase addr)
  count : q.totalCount = p.totalCount - gone.length
  size : q.totalSize = p.totalSize - entriesSize gone
  sound : q.underflowed = p.underflowed

/-- The bucket alone. -/
def setBucket (p : Mempool) (addr : Text) (kept : List MempoolEntry) : Mempool :=
  let p := { p with transactions := p.transactions.insert addr kept }
  if kept = [] then p.removeIfEmpty addr else p

theorem setBucket_nil (p : Mempool) (addr : Text) :
    setBucket p addr [] = { p with transactions := (p.transactions.insert addr []).erase addr } := by
  simp only [setBucket, if_true, removeIfEmpty, AList.lookup_insert]

theorem setBucket_cons (p : Mempool) (addr : Text) {kept : List MempoolEntry} (h : kept ≠ []) :
    setBucket p addr kept = { p with transactions := p.transactions.insert addr kept } := by
  simp only [setBucket, h, if_false]

theorem setBucket_lookup (p : Mempool) (addr : Text) (kept : List MempoolEntry) (s : Text) :
    (setBucket p addr kept).transactions.lookup s =
      if s = addr then (if kept = [] then none else some kept) else p.transactions.lookup s := by
  by_cases hkept : kept = []
  · rw [hkept, setBucket_nil, if_pos rfl, Table.lookup_erase_ite, Table.lookup_insert_ite]
    split_ifs <;> rfl
  · rw [setBucket_cons p addr hkept, if_neg hkept, Table.lookup_insert_ite]

theorem setBucket_total (p : Mempool) (addr : Text) (kept : List MempoolEntry) {w : List MempoolEntry → ℕ}
    (hw : w [] = 0) : Table.total w (setBucket p addr kept).transactions =
      w kept + Table.total w (p.transactions.erase addr) := by
  have hset := Table.total_set w p.transactions addr kept
  by_cases hkept : kept = []
  · subst hkept
    have herase := Table.total_erase w
      (AList.lookup_insert (a := addr) (b := ([] : List MempoolEntry)) p.transactions)
    rw [setBucket_nil]
    dsimp only
    omega
  · rw [setBucket_cons p addr hkept]
    exact hset

/-- Every removal is a bucket, then the totals, then the count of the address. -/
theorem retain_eq (p : Mempool) (addr : Text) (kept gone : List MempoolEntry) :
    p.retain addr kept gone =
      if gone = [] then setBucket p addr kept
      else ((setBucket p addr kept).subtractTotals gone).decrementAddressCount addr gone.length := by
  by_cases hgone : gone = []
  · simp only [Mempool.retain, hgone, if_true, setBucket]
  · simp only [Mempool.retain, hgone, if_false]
    congr 1
    by_cases hkept : kept = []
    · simp only [hkept, if_true, setBucket_nil, removeIfEmpty, subtractTotals, AList.lookup_insert]
    · simp only [hkept, if_false, setBucket_cons p addr hkept]

/-- The books of entries that are there to take out. -/
theorem books_removed {q : Mempool} {addr : Text} {gone : List MempoolEntry} {count : ℕ}
    (hcount : q.addressCounts.lookup addr = some count) (hle : gone.length ≤ count)
    (htc : gone.length ≤ q.totalCount) (hts : entriesSize gone ≤ q.totalSize) :
    (q.subtractTotals gone).decrementAddressCount addr gone.length =
      { q with
        totalCount := q.totalCount - gone.length
        totalSize := q.totalSize - entriesSize gone
        addressCounts :=
          if count - gone.length = 0 then q.addressCounts.erase addr
          else q.addressCounts.insert addr (count - gone.length) } := by
  have hsub : q.subtractTotals gone = { q with
      totalCount := q.totalCount - gone.length, totalSize := q.totalSize - entriesSize gone } := by
    unfold subtractTotals
    rw [fetchSub_eq htc, fetchSub_eq hts, decide_eq_false (Nat.not_lt.mpr htc),
      decide_eq_false (Nat.not_lt.mpr hts), Bool.or_false, Bool.or_false]
  rw [hsub]
  unfold decrementAddressCount
  dsimp only
  rw [hcount]
  dsimp only
  rw [decide_eq_false (Nat.not_lt.mpr hle), Bool.or_false]

theorem setBucket_fields (p : Mempool) (addr : Text) (kept : List MempoolEntry) :
    (setBucket p addr kept).addressCounts = p.addressCounts ∧
      (setBucket p addr kept).totalCount = p.totalCount ∧ (setBucket p addr kept).totalSize = p.totalSize ∧
      (setBucket p addr kept).underflowed = p.underflowed := by
  by_cases hkept : kept = []
  · rw [hkept, setBucket_nil]
    exact ⟨rfl, rfl, rfl, rfl⟩
  · rw [setBucket_cons p addr hkept]
    exact ⟨rfl, rfl, rfl, rfl⟩

theorem retain_removed {p : Mempool} (h : Books p) {addr : Text}
    {bucket kept gone : List MempoolEntry} (hb : p.transactions.lookup addr = some bucket)
    (hperm : (kept ++ gone).Perm bucket) : Removed addr kept gone p (p.retain addr kept gone) := by
  have hlen : kept.length + gone.length = bucket.length := by
    rw [← List.length_append]
    exact hperm.length_eq
  have hsize : entriesSize kept + entriesSize gone = entriesSize bucket := by
    rw [← entriesSize_append]
    exact entriesSize_perm hperm
  obtain ⟨hcount, hbytes⟩ := h.bucket_le hb
  have hcounts : p.addressCounts.lookup addr = some bucket.length := by rw [h.counts, hb, Option.map_some]
  obtain ⟨hacc, htc, hts, hu⟩ := setBucket_fields p addr kept
  rw [retain_eq]
  by_cases hgone : gone = []
  · subst hgone
    have hkept : kept ≠ [] := by
      intro hnil
      subst hnil
      exact h.nonempty addr bucket hb (List.perm_nil.mp hperm.symm)
    rw [if_pos rfl]
    refine ⟨setBucket_lookup p addr kept, fun s => ?_, fun w hw => setBucket_total p addr kept hw, htc, hts, hu⟩
    rw [hacc, if_neg hkept]
    split_ifs with hs
    · rw [hs, hcounts]
      simpa using hlen.symm
    · rfl
  · rw [if_neg hgone, books_removed (hacc ▸ hcounts) (by omega) (by omega) (by omega)]
    have hleft : bucket.length - gone.length = kept.length := by omega
    rw [hleft]
    constructor
    · exact setBucket_lookup p addr kept
    · intro s
      dsimp only
      rw [hacc]
      by_cases hkept : kept = []
      · rw [if_pos hkept, if_pos (by rw [hkept]; rfl), Table.lookup_erase_ite]
      · have hne : kept.length ≠ 0 := fun h0 => hkept (List.eq_nil_of_length_eq_zero h0)
        rw [if_neg hkept, if_neg hne, Table.lookup_insert_ite]
    · exact fun w hw => setBucket_total p addr kept hw
    · dsimp only
      rw [htc]
    · dsimp only
      rw [hts]
    · exact hu

/-- **Entries that leave one bucket**, and the index with them. -/
theorem Consistent.removed {p q : Mempool} (h : Consistent owner p) {addr : Text}
    {bucket kept gone : List MempoolEntry} (hb : p.transactions.lookup addr = some bucket)
    (hperm : (kept ++ gone).Perm bucket) (hr : Removed addr kept gone p q) {t : Table Text Text}
    (ht : ∀ id, t.lookup id = if id ∈ ids gone then none else p.txLocator.lookup id) :
    Consistent owner { q with txLocator := t } := by
  have hids : ∀ id, id ∈ ids bucket ↔ id ∈ ids kept ∨ id ∈ ids gone := by
    intro id
    rw [← List.mem_append, ids, ids, ids, ← List.map_append]
    exact (hperm.map _).mem_iff.symm
  have hnodup : (ids kept ++ ids gone).Nodup := by
    rw [ids, ids, ← List.map_append]
    exact ((hperm.map MempoolEntry.txId).nodup_iff).mpr (h.once addr bucket hb)
  have hlen : kept.length + gone.length = bucket.length := by
    rw [← List.length_append]
    exact hperm.length_eq
  have hsize : entriesSize kept + entriesSize gone = entriesSize bucket := by
    rw [← entriesSize_append]
    exact entriesSize_perm hperm
  have htotal : ∀ w : List MempoolEntry → ℕ, w [] = 0 →
      Table.total w q.transactions + w bucket = w kept + Table.total w p.transactions := by
    intro w hw
    rw [hr.totals w hw, Table.total_erase w hb]
    omega
  have hcount := htotal List.length rfl
  have hbytes := htotal entriesSize rfl
  obtain ⟨hle, hle'⟩ := h.bucket_le hb
  refine ⟨⟨?_, ?_, ?_, ?_, ?_, ?_, ?_, ?_, hr.sound.trans h.sound⟩, ?_, ?_⟩
  · intro s b hs
    rw [hr.lookup] at hs
    split_ifs at hs
    · cases hs
      exact (List.nodup_append.mp hnodup).1
    · exact h.once s b hs
  · intro s b hs
    rw [hr.lookup] at hs
    split_ifs at hs with haddr hnil
    · cases hs
      exact hnil
    · exact h.nonempty s b hs
  · intro s
    rw [hr.counts, hr.lookup]
    split_ifs
    · rfl
    · rfl
    · exact h.counts s
  · change q.totalCount = Table.total List.length q.transactions
    have hp := h.count
    have hq := hr.count
    omega
  · change q.totalSize = Table.total entriesSize q.transactions
    have hp := h.size
    have hq := hr.size
    omega
  · rw [hr.count]
    exact le_trans (Nat.sub_le _ _) h.maxCount
  · rw [hr.size]
    exact le_trans (Nat.sub_le _ _) h.maxSize
  · intro s b hs
    rw [hr.lookup] at hs
    split_ifs at hs
    · cases hs
      have := h.maxAddress addr bucket hb
      omega
    · exact h.maxAddress s b hs
  · intro id s hs
    rw [ht] at hs
    split_ifs at hs
    exact h.owned id s hs
  · intro id s
    simp only [ht, hr.lookup]
    constructor
    · intro hs
      split_ifs at hs with hgone
      obtain ⟨b, hb', hid⟩ := (h.located id s).mp hs
      by_cases haddr : s = addr
      · subst haddr
        rw [hb] at hb'
        cases hb'
        have hid' : id ∈ ids kept := ((hids id).mp hid).resolve_right hgone
        have hne : kept ≠ [] := by
          rintro rfl
          cases hid'
        exact ⟨kept, by rw [if_pos rfl, if_neg hne], hid'⟩
      · exact ⟨b, by rw [if_neg haddr, hb'], hid⟩
    · rintro ⟨b, hb', hid⟩
      by_cases haddr : s = addr
      · subst haddr
        rw [if_pos rfl] at hb'
        split_ifs at hb'
        cases hb'
        rw [if_neg (fun hgone => (List.disjoint_of_nodup_append hnodup) hid hgone), h.located]
        exact ⟨bucket, hb, (hids id).mpr (.inl hid)⟩
      · rw [if_neg haddr] at hb'
        have hloc := (h.located id s).mpr ⟨b, hb', hid⟩
        rw [if_neg, hloc]
        intro hgone
        have hloc' := (h.located id addr).mpr ⟨bucket, hb, (hids id).mpr (.inr hgone)⟩
        rw [hloc] at hloc'
        exact haddr (Option.some.inj hloc')

/-! ### The three ways out -/

theorem filter_perm (bucket : List MempoolEntry) (gone : MempoolEntry → Bool) :
    ((bucket.filter fun e => !gone e) ++ bucket.filter gone).Perm bucket :=
  List.perm_append_comm.trans (List.filter_append_perm gone bucket)

theorem lookup_foldl_erase : ∀ (txIds : List Text) (t : Table Text Text) (id : Text),
    (txIds.foldl (fun t txId => t.erase txId) t).lookup id = if id ∈ txIds then none else t.lookup id
  | [], t, id => by simp
  | txId :: txIds, t, id => by
    rw [List.foldl_cons, lookup_foldl_erase txIds, Table.lookup_erase_ite]
    by_cases hmem : id ∈ txIds
    · rw [if_pos hmem, if_pos (List.mem_cons_of_mem _ hmem)]
    · by_cases heq : id = txId
      · rw [if_neg hmem, if_pos heq, if_pos (heq ▸ List.mem_cons_self)]
      · rw [if_neg hmem, if_neg heq, if_neg]
        intro hmem'
        rcases List.mem_cons.mp hmem' with h | h
        · exact heq h
        · exact hmem h

theorem mem_ids_filter {bucket : List MempoolEntry} {txIds : List Text} {id : Text} :
    id ∈ ids (bucket.filter fun e => txIds.contains e.txId) ↔ id ∈ ids bucket ∧ id ∈ txIds := by
  simp only [ids, List.mem_map, List.mem_filter, List.contains_iff_mem]
  constructor
  · rintro ⟨e, ⟨hmem, hin⟩, rfl⟩
    exact ⟨⟨e, hmem, rfl⟩, hin⟩
  · rintro ⟨⟨e, hmem, rfl⟩, hin⟩
    exact ⟨e, ⟨hmem, hin⟩, rfl⟩

@[simp] theorem subtractTotals_txLocator (p : Mempool) (gone : List MempoolEntry) :
    (p.subtractTotals gone).txLocator = p.txLocator := rfl

@[simp] theorem decrementAddressCount_txLocator (p : Mempool) (addr : Text) (n : ℕ) :
    (p.decrementAddressCount addr n).txLocator = p.txLocator := by
  unfold decrementAddressCount
  split <;> rfl

@[simp] theorem setBucket_txLocator (p : Mempool) (addr : Text) (kept : List MempoolEntry) :
    (setBucket p addr kept).txLocator = p.txLocator := by
  by_cases hkept : kept = []
  · rw [hkept, setBucket_nil]
  · rw [setBucket_cons p addr hkept]

@[simp] theorem retain_txLocator (p : Mempool) (addr : Text) (kept gone : List MempoolEntry) :
    (p.retain addr kept gone).txLocator = p.txLocator := by
  rw [retain_eq]
  split_ifs <;> simp

theorem removeIds_none {p : Mempool} {addr : Text} (h : p.transactions.lookup addr = none) (txIds : List Text) :
    (p.removeIds addr txIds).1 =
      { p with txLocator := txIds.foldl (fun t txId => t.erase txId) p.txLocator } := by
  simp only [removeIds, h]

theorem removeIds_some {p : Mempool} {addr : Text} {bucket : List MempoolEntry}
    (h : p.transactions.lookup addr = some bucket) (txIds : List Text) :
    (p.removeIds addr txIds).1 =
      { p.retain addr (bucket.filter fun e => !txIds.contains e.txId)
          (bucket.filter fun e => txIds.contains e.txId) with
        txLocator := txIds.foldl (fun t txId => t.erase txId) p.txLocator } := by
  simp only [removeIds, h, retain_txLocator]

theorem removeIds_locator (p : Mempool) (addr : Text) (txIds : List Text) (id : Text) :
    (p.removeIds addr txIds).1.txLocator.lookup id = if id ∈ txIds then none else p.txLocator.lookup id := by
  cases h : p.transactions.lookup addr with
  | none => rw [removeIds_none h, lookup_foldl_erase]
  | some bucket => rw [removeIds_some h, lookup_foldl_erase]

/-- Pruning and eviction take ids out of the bucket they were found in. -/
theorem removeIds_consistent {p : Mempool} (h : Consistent owner p) {addr : Text} {txIds : List Text}
    (hin : ∀ id ∈ txIds, ∀ s, p.txLocator.lookup id = some s → s = addr) :
    Consistent owner (p.removeIds addr txIds).1 := by
  cases hb : p.transactions.lookup addr with
  | none =>
    rw [removeIds_none hb]
    refine h.of_locator fun id => ?_
    rw [lookup_foldl_erase]
    split_ifs with hid
    · cases hs : p.txLocator.lookup id with
      | none => rfl
      | some s =>
        obtain ⟨b, hb', -⟩ := (h.located id s).mp hs
        rw [hin id hid s hs, hb] at hb'
        cases hb'
    · rfl
  | some bucket =>
    have hperm := filter_perm bucket fun e => txIds.contains e.txId
    rw [removeIds_some hb]
    refine h.removed hb hperm (retain_removed h.toBooks hb hperm) fun id => ?_
    rw [lookup_foldl_erase]
    by_cases hid : id ∈ txIds
    · rw [if_pos hid]
      split_ifs with hgone
      · rfl
      · rw [mem_ids_filter] at hgone
        cases hs : p.txLocator.lookup id with
        | none => rfl
        | some s =>
          obtain ⟨b, hb', hmem⟩ := (h.located id s).mp hs
          rw [hin id hid s hs, hb] at hb'
          cases hb'
          exact absurd ⟨hmem, hid⟩ hgone
    · rw [if_neg hid, if_neg]
      rw [mem_ids_filter]
      exact fun hgone => hid hgone.2

/-- A whole plan of removals, each id under the sender it is stored under. -/
theorem removeAll_consistent : ∀ (plan : List (Text × List Text)) {p : Mempool}, Consistent owner p →
    (∀ r ∈ plan, ∀ id ∈ r.2, ∀ s, p.txLocator.lookup id = some s → s = r.1) →
    Consistent owner (removeAll plan p).1
  | [], _, h, _ => h
  | (addr, txIds) :: plan, p, h, hin => by
    simp only [List.forall_mem_cons] at hin
    have hfirst := removeIds_consistent h hin.1
    have hrest : ∀ r ∈ plan, ∀ id ∈ r.2, ∀ s,
        (p.removeIds addr txIds).1.txLocator.lookup id = some s → s = r.1 := by
      intro r hr id hid s hs
      rw [removeIds_locator] at hs
      split_ifs at hs
      exact hin.2 r hr id hid s hs
    exact removeAll_consistent plan hfirst hrest

theorem mem_listing {p : Mempool} {c : Text × MempoolEntry} (hc : c ∈ p.listing) :
    ∃ b, p.transactions.lookup c.1 = some b ∧ c.2 ∈ b := by
  obtain ⟨⟨s, b⟩, hmem, hc⟩ := List.mem_flatMap.mp hc
  obtain ⟨e, he, rfl⟩ := List.mem_map.mp hc
  exact ⟨b, AList.mem_lookup_iff.mpr hmem, he⟩

/-- What is listed is indexed where it is listed. -/
theorem Consistent.listed {p : Mempool} (h : Consistent owner p) {c : Text × MempoolEntry} (hc : c ∈ p.listing) :
    p.txLocator.lookup c.2.txId = some c.1 := by
  obtain ⟨b, hb, he⟩ := mem_listing hc
  exact (h.located _ _).mpr ⟨b, hb, List.mem_map_of_mem he⟩

theorem bySender_consistent {p : Mempool} (h : Consistent owner p) {plan : List (Text × Text)}
    (hplan : ∀ r ∈ plan, p.txLocator.lookup r.2 = some r.1) :
    Consistent owner (removeAll (bySender plan) p).1 := by
  refine removeAll_consistent _ h fun r hr id hid s hs => ?_
  obtain ⟨addr, -, rfl⟩ := List.mem_map.mp hr
  obtain ⟨r', hr', rfl⟩ := List.mem_map.mp hid
  obtain ⟨hmem, haddr⟩ := List.mem_filter.mp hr'
  have hloc := hplan r' hmem
  rw [hs] at hloc
  rw [Option.some.inj hloc]
  exact of_decide_eq_true haddr

theorem pruneExpired_consistent {p : Mempool} (h : Consistent owner p) (now : ℕ) :
    Consistent owner (p.pruneExpired M now).1 := by
  unfold pruneExpired
  cases M.ttlSecs with
  | none => exact h
  | some ttl =>
    refine bySender_consistent h fun r hr => ?_
    obtain ⟨c, hc, rfl⟩ := List.mem_map.mp hr
    exact h.listed (List.mem_of_mem_filter hc)

theorem planEviction_sub (space count : ℕ) : ∀ (candidates : List (Text × MempoolEntry)) {spaceFreed countFreed : ℕ}
    {plan : List (Text × Text)}, planEviction space count candidates spaceFreed countFreed = some plan →
    ∀ r ∈ plan, ∃ c ∈ candidates, r = (c.1, c.2.txId)
  | [], _, _, plan, h => by
    unfold planEviction at h
    split_ifs at h
    cases h
    intro r hr
    cases hr
  | c :: candidates, _, _, plan, h => by
    unfold planEviction at h
    split_ifs at h
    · obtain ⟨rest, hrest, rfl⟩ := Option.map_eq_some_iff.mp h
      intro r hr
      rcases List.mem_cons.mp hr with rfl | hr
      · exact ⟨c, List.mem_cons_self, rfl⟩
      · obtain ⟨c', hc', rfl⟩ := planEviction_sub space count candidates hrest r hr
        exact ⟨c', List.mem_cons_of_mem _ hc', rfl⟩
    · cases h
      intro r hr
      cases hr

theorem tryEvictBelow_consistent {p q : Mempool} (h : Consistent owner p) {space count : ℕ} {fee : FeePerByte}
    (he : p.tryEvictBelow space count fee = some q) : Consistent owner q := by
  unfold tryEvictBelow at he
  obtain ⟨plan, hplan, rfl⟩ := Option.map_eq_some_iff.mp he
  refine bySender_consistent h fun r hr => ?_
  obtain ⟨c, hc, rfl⟩ := planEviction_sub space count _ hplan r hr
  rw [List.mem_mergeSort] at hc
  exact h.listed (List.mem_of_mem_filter hc)

/-- The bucket that `clear_transaction` searches. -/
theorem clearTransaction_none {p : Mempool} {tx : Transaction} (h : p.transactions.lookup tx.sender = none) :
    p.clearTransaction M tx = { p with txLocator := p.txLocator.erase (getTxId M.toEnv tx) } := by
  simp only [clearTransaction, h]

/-- Of a bucket that is not empty, clearing takes the entry out as the other ways do. -/
theorem clearTransaction_some {p : Mempool} {tx : Transaction} {bucket : List MempoolEntry}
    (h : p.transactions.lookup tx.sender = some bucket) (hne : bucket ≠ []) :
    p.clearTransaction M tx =
      ({ p with txLocator := p.txLocator.erase (getTxId M.toEnv tx) } : Mempool).retain tx.sender
        (bucket.filter fun e => e.txId ≠ getTxId M.toEnv tx)
        (bucket.filter fun e => e.txId = getTxId M.toEnv tx) := by
  rw [retain_eq]
  simp only [clearTransaction, h]
  by_cases hgone : (bucket.filter fun e => e.txId = getTxId M.toEnv tx) = []
  · have hkept : (bucket.filter fun e => e.txId ≠ getTxId M.toEnv tx) ≠ [] := by
      intro hnil
      have hperm := filter_perm bucket fun e => e.txId = getTxId M.toEnv tx
      simp only [ne_eq, decide_not] at hnil
      rw [hnil, hgone] at hperm
      exact hne (List.nil_perm.mp hperm)
    rw [if_pos hgone, if_pos hgone, setBucket_cons _ _ hkept]
  · rw [if_neg hgone, if_neg hgone]
    rfl

/-- Clearing looks in the bucket of the sender it is told, which is where the id is. -/
theorem clearTransaction_consistent {p : Mempool} (h : Consistent owner p) {tx : Transaction}
    (howner : owner (getTxId M.toEnv tx) = tx.sender) : Consistent owner (p.clearTransaction M tx) := by
  set txId := getTxId M.toEnv tx with hid
  have hloc : ∀ s, p.txLocator.lookup txId = some s → s = tx.sender := fun s hs =>
    (h.owned txId s hs).symm.trans howner
  cases hb : p.transactions.lookup tx.sender with
  | none =>
    rw [clearTransaction_none hb, ← hid]
    refine h.of_locator fun id => ?_
    rw [Table.lookup_erase_ite]
    split_ifs with heq
    · cases hs : p.txLocator.lookup id with
      | none => rfl
      | some s =>
        obtain ⟨b, hb', -⟩ := (h.located id s).mp hs
        rw [heq] at hs
        rw [hloc s hs, hb] at hb'
        cases hb'
    · rfl
  | some bucket =>
    rw [clearTransaction_some hb (h.nonempty _ _ hb), ← hid]
    set kept := bucket.filter fun e => e.txId ≠ txId with hkept
    set gone := bucket.filter fun e => e.txId = txId with hgone
    have hperm : (kept ++ gone).Perm bucket := by
      have := filter_perm bucket fun e => e.txId = txId
      simpa only [hkept, hgone, ne_eq, decide_not] using this
    set p₀ : Mempool := { p with txLocator := p.txLocator.erase txId } with hp₀
    have hr : Removed tx.sender kept gone p₀ (p₀.retain tx.sender kept gone) :=
      retain_removed (h.toBooks.of_locator _) hb hperm
    have hr' : Removed tx.sender kept gone p (p₀.retain tx.sender kept gone) :=
      ⟨hr.lookup, hr.counts, hr.totals, hr.count, hr.size, hr.sound⟩
    have hmem : ∀ id, id ∈ ids gone ↔ id ∈ ids bucket ∧ id = txId := by
      intro id
      simp only [ids, hgone, List.mem_map, List.mem_filter, decide_eq_true_eq]
      constructor
      · rintro ⟨e, ⟨he, heq⟩, rfl⟩
        exact ⟨⟨e, he, rfl⟩, heq⟩
      · rintro ⟨⟨e, he, rfl⟩, heq⟩
        exact ⟨e, ⟨he, heq⟩, rfl⟩
    refine h.removed (t := (p₀.retain tx.sender kept gone).txLocator) hb hperm hr' fun id => ?_
    rw [retain_txLocator, Table.lookup_erase_ite, if_congr (hmem id) rfl rfl]
    by_cases heq : id = txId
    · rw [if_pos heq]
      split_ifs with hin
      · rfl
      · cases hs : p.txLocator.lookup id with
        | none => rfl
        | some s =>
          obtain ⟨b, hb', hid'⟩ := (h.located id s).mp hs
          rw [heq] at hs
          rw [hloc s hs, hb] at hb'
          cases hb'
          exact absurd ⟨hid', heq⟩ hin
    · rw [if_neg heq, if_neg fun hin => heq hin.2]

/-! ### The way in -/

theorem makeRoom_consistent {p q : Mempool} (h : Consistent owner p) {txSize : ℕ} {fee : FeePerByte}
    (hroom : p.makeRoom txSize fee = some q) : Consistent owner q := by
  unfold makeRoom at hroom
  dsimp only at hroom
  split_ifs at hroom
  · exact tryEvictBelow_consistent h hroom
  · cases hroom
    exact h

theorem pruneIfDue_consistent {p : Mempool} (h : Consistent owner p) (clock : ClockReads) :
    Consistent owner (p.pruneIfDue M clock) := by
  have hstamp : Consistent owner { p with lastPrune := clock.gate } :=
    ⟨⟨h.once, h.nonempty, h.counts, h.count, h.size, h.maxCount, h.maxSize, h.maxAddress, h.sound⟩, h.owned,
      h.located⟩
  unfold pruneIfDue
  split_ifs
  · exact pruneExpired_consistent hstamp clock.prune
  · exact h

/-- Eviction takes from the index and from the buckets, and adds to neither. -/
theorem removeAll_shrinks : ∀ (plan : List (Text × List Text)) {p : Mempool} {id : Text},
    p.txLocator.lookup id = none → (removeAll plan p).1.txLocator.lookup id = none
  | [], _, _, h => h
  | (addr, txIds) :: plan, p, id, h => by
    have hfirst : (p.removeIds addr txIds).1.txLocator.lookup id = none := by
      rw [removeIds_locator]
      split_ifs
      · rfl
      · exact h
    exact removeAll_shrinks plan hfirst

theorem retain_transactions (p : Mempool) (addr : Text) (kept gone : List MempoolEntry) :
    (p.retain addr kept gone).transactions = (setBucket p addr kept).transactions := by
  rw [retain_eq]
  split_ifs
  · rfl
  · unfold decrementAddressCount
    split <;> rfl

/-- No bucket of `q` is longer than it was in `p`. -/
def Shorter (p q : Mempool) : Prop :=
  ∀ s b', q.transactions.lookup s = some b' → ∃ b, p.transactions.lookup s = some b ∧ b'.length ≤ b.length

theorem removeIds_shorter (p : Mempool) (addr : Text) (txIds : List Text) :
    Shorter p (p.removeIds addr txIds).1 := by
  intro s b' hb'
  cases hb : p.transactions.lookup addr with
  | none =>
    rw [removeIds_none hb] at hb'
    exact ⟨b', hb', le_rfl⟩
  | some bucket =>
    rw [removeIds_some hb] at hb'
    dsimp only at hb'
    rw [retain_transactions, setBucket_lookup] at hb'
    split_ifs at hb' with hs
    · cases hb'
      exact ⟨bucket, hs ▸ hb, List.length_filter_le _ _⟩
    · exact ⟨b', hb', le_rfl⟩

theorem removeAll_shorter : ∀ (plan : List (Text × List Text)) (p : Mempool), Shorter p (removeAll plan p).1
  | [], _ => fun _ b hb => ⟨b, hb, le_rfl⟩
  | (addr, txIds) :: plan, p => by
    intro s b'' hb''
    obtain ⟨b', hb', hle'⟩ := removeAll_shorter plan (p.removeIds addr txIds).1 s b'' hb''
    obtain ⟨b, hb, hle⟩ := removeIds_shorter p addr txIds s b' hb'
    exact ⟨b, hb, le_trans hle' hle⟩

theorem makeRoom_shorter {p q : Mempool} {txSize : ℕ} {fee : FeePerByte}
    (hroom : p.makeRoom txSize fee = some q) : Shorter p q := by
  unfold makeRoom at hroom
  dsimp only at hroom
  split_ifs at hroom
  · unfold tryEvictBelow at hroom
    obtain ⟨plan, -, rfl⟩ := Option.map_eq_some_iff.mp hroom
    exact removeAll_shorter _ p
  · cases hroom
    exact fun _ b hb => ⟨b, hb, le_rfl⟩

theorem makeRoom_locator {p q : Mempool} {txSize : ℕ} {fee : FeePerByte} {id : Text}
    (hroom : p.makeRoom txSize fee = some q) (hid : p.txLocator.lookup id = none) :
    q.txLocator.lookup id = none := by
  unfold makeRoom at hroom
  dsimp only at hroom
  split_ifs at hroom
  · unfold tryEvictBelow at hroom
    obtain ⟨plan, -, rfl⟩ := Option.map_eq_some_iff.mp hroom
    exact removeAll_shrinks _ hid
  · cases hroom
    exact hid

theorem ids_append (a b : List MempoolEntry) : ids (a ++ b) = ids a ++ ids b := List.map_append

/-- A new entry, behind those of its sender. -/
theorem insertEntry_consistent {p : Mempool} (h : Consistent owner p) {sender : Text} {entry : MempoolEntry}
    (hnew : p.txLocator.lookup entry.txId = none) (howner : owner entry.txId = sender)
    (haddress : ((p.transactions.lookup sender).getD []).length < mempoolMaxPerAddress)
    (hcount : p.totalCount + 1 ≤ mempoolMaxTransactions) (hsize : p.totalSize + entry.size ≤ mempoolMaxBytes) :
    Consistent owner (p.insertEntry sender entry) := by
  set bucket := (p.transactions.lookup sender).getD [] with hbucket
  have hids : entry.txId ∉ ids bucket := by
    intro hmem
    cases hb : p.transactions.lookup sender with
    | none =>
      rw [hb, Option.getD_none] at hbucket
      rw [hbucket] at hmem
      cases hmem
    | some b =>
      rw [hb, Option.getD_some] at hbucket
      have hloc := (h.located entry.txId sender).mpr ⟨b, hb, hbucket ▸ hmem⟩
      rw [hnew] at hloc
      cases hloc
  have hlook : ∀ s, (p.insertEntry sender entry).transactions.lookup s =
      if s = sender then some (bucket ++ [entry]) else p.transactions.lookup s := fun s =>
    Table.lookup_insert_ite _ _ _ _
  have hloc : ∀ id, (p.insertEntry sender entry).txLocator.lookup id =
      if id = entry.txId then some sender else p.txLocator.lookup id := fun id => Table.lookup_insert_ite _ _ _ _
  have htotal : ∀ w : List MempoolEntry → ℕ, w [] = 0 → (∀ a b, w (a ++ b) = w a + w b) →
      Table.total w (p.insertEntry sender entry).transactions = Table.total w p.transactions + w [entry] := by
    intro w hnil hadd
    have hset := Table.total_set w p.transactions sender (bucket ++ [entry])
    rw [hadd] at hset
    cases hb : p.transactions.lookup sender with
    | none =>
      have hempty : bucket = [] := by rw [hbucket, hb, Option.getD_none]
      have hins := Table.total_insert w (bucket ++ [entry]) hb
      rw [hadd, hempty, hnil] at hins
      change Table.total w (p.transactions.insert sender (bucket ++ [entry])) = _
      rw [hempty]
      omega
    | some b =>
      have hfull : bucket = b := by rw [hbucket, hb, Option.getD_some]
      have herase := Table.total_erase w hb
      rw [← hfull] at herase
      change Table.total w (p.transactions.insert sender (bucket ++ [entry])) = _
      omega
  refine ⟨⟨?_, ?_, ?_, ?_, ?_, hcount, hsize, ?_, h.sound⟩, ?_, ?_⟩
  · intro s b hb
    rw [hlook] at hb
    split_ifs at hb
    · cases hb
      rw [ids_append, List.nodup_append]
      refine ⟨?_, List.nodup_singleton _, ?_⟩
      · cases hs : p.transactions.lookup sender with
        | none =>
          rw [hbucket, hs]
          exact List.nodup_nil
        | some b =>
          rw [hbucket, hs]
          exact h.once sender b hs
      · intro a ha b hb heq
        have hb' : b = entry.txId := by simpa [ids] using hb
        exact hids (hb' ▸ heq ▸ ha)
    · exact h.once s b hb
  · intro s b hb
    rw [hlook] at hb
    split_ifs at hb
    · cases hb
      simp
    · exact h.nonempty s b hb
  · intro s
    rw [hlook]
    have hcounts : (p.insertEntry sender entry).addressCounts.lookup s =
        if s = sender then some ((p.addressCounts.lookup sender).getD 0 + 1) else p.addressCounts.lookup s :=
      Table.lookup_insert_ite _ _ _ _
    rw [hcounts]
    split_ifs with hs
    · rw [h.counts, Option.map_some, List.length_append, List.length_singleton, hbucket]
      cases p.transactions.lookup sender <;> rfl
    · exact h.counts s
  · have htot := htotal List.length rfl fun _ _ => List.length_append
    rw [htot, ← h.count]
    rfl
  · have htot := htotal entriesSize rfl entriesSize_append
    rw [htot, ← h.size]
    simp [insertEntry, entriesSize]
  · intro s b hb
    rw [hlook] at hb
    split_ifs at hb
    · cases hb
      rw [List.length_append, List.length_singleton]
      exact haddress
    · exact h.maxAddress s b hb
  · intro id s hs
    rw [hloc] at hs
    split_ifs at hs with hid
    · cases hs
      rw [hid]
      exact howner
    · exact h.owned id s hs
  · intro id s
    rw [hloc]
    simp only [hlook]
    by_cases hid : id = entry.txId
    · rw [if_pos hid, Option.some.injEq]
      constructor
      · rintro rfl
        refine ⟨bucket ++ [entry], if_pos rfl, ?_⟩
        rw [ids_append, hid]
        simp [ids]
      · rintro ⟨b, hb, hmem⟩
        by_cases hs : s = sender
        · exact hs.symm
        · rw [if_neg hs] at hb
          have hloc' := (h.located id s).mpr ⟨b, hb, hmem⟩
          rw [hid, hnew] at hloc'
          cases hloc'
    · rw [if_neg hid, h.located]
      by_cases hs : s = sender
      · subst hs
        constructor
        · rintro ⟨b, hb, hmem⟩
          refine ⟨bucket ++ [entry], if_pos rfl, ?_⟩
          rw [ids_append, hbucket, hb, Option.getD_some]
          exact List.mem_append_left _ hmem
        · rintro ⟨b, hb, hmem⟩
          rw [if_pos rfl] at hb
          cases hb
          rw [ids_append, List.mem_append] at hmem
          have hmem' : id ∈ ids bucket := hmem.resolve_right (by simpa [ids] using hid)
          cases hb : p.transactions.lookup s with
          | none =>
            rw [hbucket, hb] at hmem'
            cases hmem'
          | some b =>
            rw [hbucket, hb] at hmem'
            exact ⟨b, rfl, hmem'⟩
      · simp only [if_neg hs]

theorem admitTransaction_consistent {p : Mempool} (h : Consistent owner p) (clock : ClockReads) {tx : Transaction}
    (howner : owner (getTxId M.toEnv tx) = tx.sender) (floor : Bool) :
    Consistent owner (p.admitTransaction M clock tx floor).1 := by
  unfold admitTransaction
  dsimp only
  have hp := pruneIfDue_consistent (M := M) h clock
  generalize p.pruneIfDue M clock = p' at hp ⊢
  by_cases hdup : (p'.txLocator.lookup (getTxId M.toEnv tx)).isSome = true
  · rw [if_pos hdup]
    exact hp
  rw [if_neg hdup]
  by_cases hfloor : floor = true ∧ tx.feeUnits < minRelayFeeUnits
  · rw [if_pos hfloor]
    exact hp
  · rw [if_neg hfloor]
    cases M.serializedLen tx with
    | none => exact hp
    | some txSize =>
      dsimp only
      split_ifs with hbig haddress
      · exact hp
      · exact hp
      · cases hroom : p'.makeRoom txSize ⟨tx.feeUnits, txSize⟩ with
        | none => exact hp
        | some q =>
          dsimp only
          have hq := makeRoom_consistent hp hroom
          split_ifs with hfull
          · exact hq
          · have hnew : q.txLocator.lookup (getTxId M.toEnv tx) = none :=
              makeRoom_locator hroom (by simpa using hdup)
            have hlen : ((q.transactions.lookup tx.sender).getD []).length < mempoolMaxPerAddress := by
              cases hb : q.transactions.lookup tx.sender with
              | none => decide
              | some b' =>
                obtain ⟨b, hb', hle⟩ := makeRoom_shorter hroom _ b' hb
                have hcount : p'.addressCounts.lookup tx.sender = some b.length := by
                  rw [hp.counts, hb', Option.map_some]
                have hcap : ¬ mempoolMaxPerAddress ≤ b.length := by
                  rw [hcount, Option.any_some, decide_eq_true_eq] at haddress
                  exact haddress
                rw [Option.getD_some]
                omega
            exact insertEntry_consistent hq hnew howner hlen (by omega) (by dsimp only; omega)

/-! ### Every run -/

/-- Every transaction stored, bucket by bucket. -/
def Mempool.stored (p : Mempool) : List MempoolEntry := p.transactions.values.flatten

/-- The representation invariant, in terms of what is stored. -/
structure Lockstep (p : Mempool) : Prop where
  located : ∀ id s, p.txLocator.lookup id = some s ↔ ∃ b, p.transactions.lookup s = some b ∧ id ∈ ids b
  once : (ids p.stored).Nodup
  nonempty : ∀ s b, p.transactions.lookup s = some b → b ≠ []
  counts : ∀ s, p.addressCounts.lookup s = (p.transactions.lookup s).map List.length
  count : p.totalCount = p.stored.length
  size : p.totalSize = entriesSize p.stored
  maxCount : p.totalCount ≤ mempoolMaxTransactions
  maxSize : p.totalSize ≤ mempoolMaxBytes
  maxAddress : ∀ s b, p.transactions.lookup s = some b → b.length ≤ mempoolMaxPerAddress
  sound : p.underflowed = false

theorem entriesSize_flatten : ∀ bs : List (List MempoolEntry), entriesSize bs.flatten = (bs.map entriesSize).sum
  | [] => rfl
  | b :: bs => by
    rw [List.flatten_cons, entriesSize_append, entriesSize_flatten bs, List.map_cons, List.sum_cons]

theorem Consistent.lockstep {p : Mempool} (h : Consistent owner p) : Lockstep p where
  located := h.located
  once := by
    rw [ids, stored, List.map_flatten, List.nodup_flatten]
    constructor
    · intro l hl
      obtain ⟨b, hb, rfl⟩ := List.mem_map.mp hl
      obtain ⟨s, hs⟩ := Table.mem_values.mp hb
      exact h.once s b hs
    · rw [List.pairwise_map]
      refine Table.pairwise_values fun s s' b b' hne hb hb' => ?_
      intro id hid hid'
      have hs := (h.located id s).mpr ⟨b, hb, hid⟩
      rw [(h.located id s').mpr ⟨b', hb', hid'⟩] at hs
      exact hne (Option.some.inj hs).symm
  nonempty := h.nonempty
  counts := h.counts
  count := by
    rw [h.count, stored, List.length_flatten]
    rfl
  size := by
    rw [h.size, stored, entriesSize_flatten]
    rfl
  maxCount := h.maxCount
  maxSize := h.maxSize
  maxAddress := h.maxAddress
  sound := h.sound

theorem step_consistent {p : Mempool} (h : Consistent owner p) {op : MempoolOp}
    (howner : ∀ tx ∈ op.transaction, owner (getTxId M.toEnv tx) = tx.sender) : Consistent owner (p.step M op) := by
  cases op with
  | addTransaction clock tx => exact admitTransaction_consistent h clock (howner tx rfl) true
  | readmitReverted clock tx => exact admitTransaction_consistent h clock (howner tx rfl) false
  | clearTransaction tx => exact clearTransaction_consistent h (howner tx rfl)
  | pruneExpired now => exact pruneExpired_consistent h now

theorem run_consistent : ∀ (ops : List MempoolOp) {p : Mempool}, Consistent owner p →
    (∀ op ∈ ops, ∀ tx ∈ op.transaction, owner (getTxId M.toEnv tx) = tx.sender) →
    Consistent owner (ops.foldl (Mempool.step M) p)
  | [], _, h, _ => h
  | op :: ops, p, h, howner => by
    simp only [List.forall_mem_cons] at howner
    exact run_consistent ops (step_consistent h howner.1) howner.2

/-- Ids that are those of one sender have an owner. -/
theorem exists_owner {P : Transaction → Prop}
    (h : ∀ tx, P tx → ∀ tx', P tx' → getTxId M.toEnv tx = getTxId M.toEnv tx' → tx.sender = tx'.sender) :
    ∃ owner : Text → Text, ∀ tx, P tx → owner (getTxId M.toEnv tx) = tx.sender := by
  classical
  let owner : Text → Text := fun id =>
    if h : ∃ tx : Transaction, P tx ∧ getTxId M.toEnv tx = id then h.choose.sender else []
  refine ⟨owner, fun tx htx => ?_⟩
  have hex : ∃ tx' : Transaction, P tx' ∧ getTxId M.toEnv tx' = getTxId M.toEnv tx := ⟨tx, htx, rfl⟩
  have hdef : owner (getTxId M.toEnv tx) = hex.choose.sender := dif_pos hex
  rw [hdef]
  exact h _ hex.choose_spec.1 tx htx hex.choose_spec.2

/-- **The books never drift.** Whatever is added, readmitted, cleared, pruned and evicted, from the
empty pool and at any times, as long as an id is that of one sender. -/
theorem mempool_lockstep (ops : List MempoolOp)
    (hids : ∀ op ∈ ops, ∀ tx ∈ op.transaction, ∀ op' ∈ ops, ∀ tx' ∈ op'.transaction,
      getTxId M.toEnv tx = getTxId M.toEnv tx' → tx.sender = tx'.sender) :
    Lockstep (ops.foldl (Mempool.step M) Mempool.new) := by
  obtain ⟨owner, howner⟩ := exists_owner (M := M) (P := fun tx => ∃ op ∈ ops, tx ∈ op.transaction)
    fun tx ⟨op, hop, htx⟩ tx' ⟨op', hop', htx'⟩ => hids op hop tx htx op' hop' tx' htx'
  exact (run_consistent ops new_consistent fun op hop tx htx => howner tx ⟨op, hop, htx⟩).lockstep

namespace MempoolSample

def env : MempoolEnv := ⟨toyEnv, fun _ => some 100, some 600⟩
def payment : Transaction := ⟨['a'], ['b'], 50000, 7, 5, none, none, none⟩
def second : Transaction := { payment with timestamp := 6 }
/-- Of another sender, and at a higher fee. -/
def dearer : Transaction := { payment with sender := ['c'], feeUnits := 60000 }

def payments : List Transaction := [payment, second, dearer]

/-- The three payments come in, and the first is confirmed in a block. -/
def traffic : List MempoolOp :=
  [.addTransaction ⟨1000, 1000, 1000⟩ payment, .addTransaction ⟨1001, 1001, 1001⟩ second,
    .addTransaction ⟨1002, 1002, 1002⟩ dearer, .clearTransaction payment]

theorem traffic_payments : ∀ op ∈ traffic, ∀ tx ∈ op.transaction, tx ∈ payments := by decide +kernel

theorem payments_sender : ∀ tx ∈ payments, ∀ tx' ∈ payments,
    getTxId env.toEnv tx = getTxId env.toEnv tx' → tx.sender = tx'.sender := by decide +kernel

end MempoolSample

open MempoolSample in
/-- Two of the three payments are left, of two senders, and the books show it. -/
theorem traffic_lockstep :
    (traffic.foldl (Mempool.step env) Mempool.new).totalCount = 2 ∧
      Lockstep (traffic.foldl (Mempool.step env) Mempool.new) := by
  refine ⟨by decide +kernel, mempool_lockstep traffic ?_⟩
  intro op hop tx htx op' hop' tx' htx'
  exact payments_sender tx (traffic_payments op hop tx htx) tx' (traffic_payments op' hop' tx' htx')

end Alphanumeric
