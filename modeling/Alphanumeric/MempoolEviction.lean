/-
# Admission and eviction

What one admission does to what is stored. A transaction that is refused costs nobody their place: the pool is the
one that the expiry prune left. One that is let in displaces the shortest first part of the residents, in the
order of eviction, that makes room for it, and all of these pay strictly less per byte, as exact rationals. When
the strictly cheaper residents together cannot make room, and only then, a full pool refuses.

Fees are bounded so that `FeePerByte::cmp` saturates nowhere; of the codec it is used that it encodes no
transaction in zero bytes.

Key definitions: `rate`, `AsAdmitted`, `evictionOrder`, `Frees`, `Passes`.
Key theorems: `FeePerByte.cmp_eq`, `makeRoom_eq_some`, `makeRoom_eq_none`, `admission_exact`.
-/
import Alphanumeric.Lib.Ranking
import Alphanumeric.MempoolInvariant
import Mathlib.Algebra.Order.Field.Rat

namespace Alphanumeric

open Mempool Ranking

variable {M : MempoolEnv} {owner : Text → Text}

/-! ### Rates -/

/-- Fee per byte, exactly. -/
def rate (tx : Transaction) (size : ℕ) : ℚ := tx.feeUnits / size

def MempoolEntry.rate (e : MempoolEntry) : ℚ := Alphanumeric.rate e.transaction e.size

/-- No product of the fee with a size that is let in saturates. -/
def FeeBounded (tx : Transaction) : Prop := |tx.feeUnits| * maxMempoolTxBytes < 2 ^ 127

theorem saturatingMul_eq {a : ℤ} {n : ℕ} (ha : |a| * maxMempoolTxBytes < 2 ^ 127) (hn : n ≤ maxMempoolTxBytes) :
    saturatingMul a n = a * n := by
  have hn' : (n : ℤ) ≤ maxMempoolTxBytes := by exact_mod_cast hn
  have habs : |a * n| < 2 ^ 127 := by
    rw [abs_mul, Nat.abs_cast]
    exact lt_of_le_of_lt (mul_le_mul_of_nonneg_left hn' (abs_nonneg a)) ha
  obtain ⟨hlo, hhi⟩ := abs_lt.mp habs
  unfold saturatingMul
  omega

/-- **Cross multiplication compares the rationals.** -/
theorem FeePerByte.cmp_eq {tx tx' : Transaction} {m n : ℕ} (h : FeeBounded tx) (h' : FeeBounded tx') (hm : 0 < m)
    (hn : 0 < n) (hm' : m ≤ maxMempoolTxBytes) (hn' : n ≤ maxMempoolTxBytes) :
    FeePerByte.cmp ⟨tx.feeUnits, m⟩ ⟨tx'.feeUnits, n⟩ = compare (rate tx m) (rate tx' n) := by
  have hmQ : (0 : ℚ) < m := by exact_mod_cast hm
  have hnQ : (0 : ℚ) < n := by exact_mod_cast hn
  have hlt : ∀ a b : ℤ, ∀ k l : ℕ, (0 : ℚ) < k → (0 : ℚ) < l → ((a : ℚ) / k < b / l ↔ a * l < b * k) := by
    intro a b k l hk hl
    rw [div_lt_div_iff₀ hk hl]
    exact_mod_cast Iff.rfl
  unfold FeePerByte.cmp
  rw [saturatingMul_eq h hn', saturatingMul_eq h' hm']
  rcases lt_trichotomy (rate tx m) (rate tx' n) with hrate | hrate | hrate
  · rw [compare_lt_iff_lt.mpr hrate, compare_lt_iff_lt]
    exact (hlt _ _ _ _ hmQ hnQ).mp hrate
  · rw [compare_eq_iff_eq.mpr hrate, compare_eq_iff_eq]
    have hle := (hlt tx.feeUnits tx'.feeUnits m n hmQ hnQ).not.mp (not_lt.mpr hrate.ge)
    have hge := (hlt tx'.feeUnits tx.feeUnits n m hnQ hmQ).not.mp (not_lt.mpr hrate.le)
    omega
  · rw [compare_gt_iff_gt.mpr hrate, compare_gt_iff_gt]
    exact (hlt _ _ _ _ hnQ hmQ).mp hrate

/-! ### Entries as admission made them -/

/-- An entry in the bucket of `s`. -/
structure AsAdmitted (M : MempoolEnv) (s : Text) (e : MempoolEntry) : Prop where
  sender : e.transaction.sender = s
  txId : e.txId = getTxId M.toEnv e.transaction
  size : M.serializedLen e.transaction = some e.size
  small : e.size ≤ maxMempoolTxBytes
  feePerByte : e.feePerByte = ⟨e.transaction.feeUnits, e.size⟩
  bounded : FeeBounded e.transaction

def Filed (M : MempoolEnv) (p : Mempool) : Prop :=
  ∀ s b, p.transactions.lookup s = some b → ∀ e ∈ b, AsAdmitted M s e

/-! ### What removals leave -/

theorem mem_listing_iff {p : Mempool} {c : Text × MempoolEntry} :
    c ∈ p.listing ↔ ∃ b, p.transactions.lookup c.1 = some b ∧ c.2 ∈ b := by
  refine ⟨mem_listing, fun ⟨b, hb, hc⟩ => ?_⟩
  exact List.mem_flatMap.mpr ⟨⟨c.1, b⟩, AList.mem_lookup_iff.mp hb, List.mem_map.mpr ⟨c.2, hc, rfl⟩⟩

theorem stored_eq (p : Mempool) : p.stored = p.listing.map Prod.snd := by
  simp [stored, listing, Table.values, List.flatMap_def, Function.comp_def]

/-- No bucket lies empty. -/
def NonEmpty (p : Mempool) : Prop := ∀ s b, p.transactions.lookup s = some b → b ≠ []

theorem removeIds_lookup {p : Mempool} (h : NonEmpty p) (addr : Text) (txIds : List Text) (s : Text) :
    (p.removeIds addr txIds).1.transactions.lookup s =
      ((p.transactions.lookup s).map fun b => b.filter fun e => !(decide (addr = s) && txIds.contains e.txId)).filter
        (· ≠ []) := by
  have hkeep : ∀ o : Option (List MempoolEntry), (∀ b, o = some b → b ≠ []) → o = o.filter (· ≠ []) := by
    intro o ho
    cases o with
    | none => rfl
    | some b => rw [Option.filter_some, if_pos (decide_eq_true (ho b rfl))]
  cases hb : p.transactions.lookup addr with
  | none =>
    rw [removeIds_none hb]
    by_cases hs : addr = s
    · rw [← hs, hb]
      rfl
    · simp only [hs, decide_false, Bool.false_and, Bool.not_false, List.filter_true, Option.map_id']
      exact hkeep _ (h s)
  | some bucket =>
    rw [removeIds_some hb]
    dsimp only
    rw [retain_transactions, setBucket_lookup]
    by_cases hs : addr = s
    · rw [if_pos hs.symm, ← hs, hb]
      simp only [decide_true, Bool.true_and, Option.map_some, Option.filter_some]
      by_cases hnil : (bucket.filter fun e => !txIds.contains e.txId) = []
      · rw [if_pos hnil, if_neg (by simpa using hnil)]
      · rw [if_neg hnil, if_pos (by simpa using hnil)]
    · rw [if_neg (Ne.symm hs)]
      simp only [hs, decide_false, Bool.false_and, Bool.not_false, List.filter_true, Option.map_id']
      exact hkeep _ (h s)

theorem nonEmpty_of_lookup {p q : Mempool} {f : Text → List MempoolEntry → List MempoolEntry}
    (h : ∀ s, q.transactions.lookup s = ((p.transactions.lookup s).map (f s)).filter (· ≠ [])) : NonEmpty q := by
  intro s b hb
  rw [h, Option.filter_eq_some_iff] at hb
  simpa using hb.2

/-- A plan takes what it names, and leaves the rest where it is. -/
theorem removeAll_listing : ∀ {plan : List (Text × List Text)} {p : Mempool}, NonEmpty p →
    ∀ {c : Text × MempoolEntry}, c ∈ (removeAll plan p).1.listing ↔
      c ∈ p.listing ∧ ∀ r ∈ plan, r.1 = c.1 → c.2.txId ∉ r.2
  | [], p, _, c => by simp [removeAll]
  | (addr, txIds) :: plan, p, h, c => by
    have hlook := removeIds_lookup h addr txIds
    have hrest : c ∈ (removeAll plan (p.removeIds addr txIds).1).1.listing ↔ _ :=
      removeAll_listing (nonEmpty_of_lookup hlook)
    have hfirst : c ∈ (p.removeIds addr txIds).1.listing ↔ c ∈ p.listing ∧ (addr = c.1 → c.2.txId ∉ txIds) := by
      rw [mem_listing_iff, mem_listing_iff, hlook]
      cases p.transactions.lookup c.1 with
      | none => simp
      | some b =>
        simp only [Option.map_some, Option.filter_eq_some_iff, Option.some.injEq, decide_eq_true_eq]
        constructor
        · rintro ⟨b', ⟨rfl, -⟩, hc⟩
          simpa [List.mem_filter, imp_iff_not_or] using hc
        · rintro ⟨⟨b', rfl, hc⟩, hout⟩
          have hin : c.2 ∈ b.filter fun e => !(decide (addr = c.1) && txIds.contains e.txId) := by
            simpa [List.mem_filter, hc, imp_iff_not_or] using hout
          exact ⟨_, ⟨rfl, List.ne_nil_of_mem hin⟩, hin⟩
    have hcons : (removeAll ((addr, txIds) :: plan) p).1 = (removeAll plan (p.removeIds addr txIds).1).1 := rfl
    rw [hcons, hrest, hfirst, List.forall_mem_cons]
    tauto

theorem bySender_listing {plan : List (Text × Text)} {p : Mempool} (h : NonEmpty p) {c : Text × MempoolEntry} :
    c ∈ (removeAll (bySender plan) p).1.listing ↔ c ∈ p.listing ∧ (c.1, c.2.txId) ∉ plan := by
  rw [removeAll_listing h]
  refine and_congr_right fun _ => ?_
  constructor
  · intro hall hmem
    have hbucket : (c.1, (plan.filter fun r => r.1 = c.1).map Prod.snd) ∈ bySender plan := by
      refine List.mem_map.mpr ⟨c.1, List.mem_dedup.mpr (List.mem_map_of_mem (f := Prod.fst) hmem), rfl⟩
    exact hall _ hbucket rfl (List.mem_map.mpr ⟨_, List.mem_filter.mpr ⟨hmem, by simp⟩, rfl⟩)
  · rintro hout ⟨addr, txIds⟩ hr rfl hid
    obtain ⟨addr, -, heq⟩ := List.mem_map.mp hr
    cases heq
    obtain ⟨r, hr', hsnd⟩ := List.mem_map.mp hid
    obtain ⟨hmem, haddr⟩ := List.mem_filter.mp hr'
    refine hout ?_
    rw [← hsnd, ← of_decide_eq_true haddr]
    exact hmem

/-! ### The order of eviction -/

/-- Cheapest first, as exact rationals; of one price the newest, then by sender and id. -/
def cheapestFirst (a b : MempoolEntry) : Ordering :=
  (((compare a.rate b.rate).then (compare b.timestamp a.timestamp)).then
    (compare a.transaction.sender b.transaction.sender)).then (compare a.txId b.txId)

def evictionOrder (p : Mempool) : List MempoolEntry := sort cheapestFirst p.stored

instance : Std.TransCmp cheapestFirst :=
  inferInstanceAs (Std.TransCmp (compareLex (compareLex (compareLex (compareOn MempoolEntry.rate)
    fun a b => compareOn MempoolEntry.timestamp b a) (compareOn fun e => e.transaction.sender))
      (compareOn MempoolEntry.txId)))

theorem cheapestFirst_lt {a b : MempoolEntry} (h : a.rate < b.rate) : cheapestFirst a b = .lt := by
  rw [cheapestFirst, compare_lt_iff_lt.mpr h]
  rfl

theorem txId_of_cheapestFirst {a b : MempoolEntry} (h : cheapestFirst a b = .eq) : a.txId = b.txId := by
  rw [cheapestFirst, Ordering.then_eq_eq] at h
  exact Std.LawfulEqOrd.eq_of_compare h.2

/-- A pool in good order. -/
structure WellKept (M : MempoolEnv) (owner : Text → Text) (p : Mempool) : Prop where
  consistent : Consistent owner p
  filed : Filed M p

/-- What the codec promises: no transaction is encoded in no bytes. -/
def EncodesSome (M : MempoolEnv) : Prop := ∀ tx size, M.serializedLen tx = some size → 0 < size

theorem WellKept.entry {p : Mempool} (h : WellKept M owner p) {c : Text × MempoolEntry} (hc : c ∈ p.listing) :
    AsAdmitted M c.1 c.2 := by
  obtain ⟨b, hb, he⟩ := mem_listing hc
  exact h.filed c.1 b hb c.2 he

/-- Stored once: an id is that of one entry. -/
theorem WellKept.eq_of_txId {p : Mempool} (h : WellKept M owner p) {a b : MempoolEntry} (ha : a ∈ p.stored)
    (hb : b ∈ p.stored) (hid : a.txId = b.txId) : a = b :=
  List.inj_on_of_nodup_map h.consistent.lockstep.once ha hb hid

theorem WellKept.nodup {p : Mempool} (h : WellKept M owner p) : p.stored.Nodup :=
  List.Nodup.of_map _ h.consistent.lockstep.once

theorem mem_stored {p : Mempool} {c : Text × MempoolEntry} (hc : c ∈ p.listing) : c.2 ∈ p.stored := by
  rw [stored_eq]
  exact List.mem_map_of_mem hc

theorem WellKept.mem_listing_of {p : Mempool} (h : WellKept M owner p) {e : MempoolEntry} (he : e ∈ p.stored) :
    (e.transaction.sender, e) ∈ p.listing := by
  rw [stored_eq] at he
  obtain ⟨⟨s, e'⟩, hc, rfl⟩ := List.mem_map.mp he
  rw [(h.entry hc).sender]
  exact hc

theorem WellKept.self {p : Mempool} (h : WellKept M owner p) :
    ∀ a ∈ p.stored, ∀ b ∈ p.stored, cheapestFirst a b = .eq → a = b :=
  fun _ ha _ hb heq => h.eq_of_txId ha hb (txId_of_cheapestFirst heq)

/-- Among what is stored, the heap of `try_evict_below` compares as `cheapestFirst` does. -/
theorem WellKept.evictedBefore_eq {p : Mempool} (h : WellKept M owner p) (hM : EncodesSome M)
    {c d : Text × MempoolEntry} (hc : c ∈ p.listing) (hd : d ∈ p.listing) :
    evictedBefore c d = (cheapestFirst c.2 d.2).isLE := by
  have ec := h.entry hc
  have ed := h.entry hd
  have hrate : c.2.feePerByte.cmp d.2.feePerByte = compare c.2.rate d.2.rate := by
    rw [ec.feePerByte, ed.feePerByte]
    exact FeePerByte.cmp_eq ec.bounded ed.bounded (hM _ _ ec.size) (hM _ _ ed.size) ec.small ed.small
  have hkeys : (((c.2.feePerByte.cmp d.2.feePerByte).then (compare d.2.timestamp c.2.timestamp)).then
      (compare c.1 d.1)).then (compare c.2.txId d.2.txId) = cheapestFirst c.2 d.2 := by
    rw [hrate, ← ec.sender, ← ed.sender]
    rfl
  unfold evictedBefore
  rw [hkeys]
  cases hcmp : cheapestFirst c.2 d.2 with
  | lt => rfl
  | gt => rfl
  | eq =>
    rw [h.self _ (mem_stored hc) _ (mem_stored hd) hcmp, Ordering.eq_then, Std.ReflOrd.compare_self]

/-- Being strictly cheaper than what comes in. -/
theorem WellKept.cmp_lt {p : Mempool} (h : WellKept M owner p) (hM : EncodesSome M) {c : Text × MempoolEntry}
    (hc : c ∈ p.listing) {tx : Transaction} {size : ℕ} (htx : FeeBounded tx) (hsize : M.serializedLen tx = some size)
    (hsmall : size ≤ maxMempoolTxBytes) :
    c.2.feePerByte.cmp ⟨tx.feeUnits, size⟩ = .lt ↔ c.2.rate < rate tx size := by
  have ec := h.entry hc
  rw [ec.feePerByte,
    FeePerByte.cmp_eq ec.bounded htx (hM _ _ ec.size) (hM _ _ hsize) ec.small hsmall, compare_lt_iff_lt]
  rfl

/-! ### Planning -/

def sizeOf (cs : List (Text × MempoolEntry)) : ℕ := entriesSize (cs.map Prod.snd)

theorem sizeOf_cons (c : Text × MempoolEntry) (cs : List (Text × MempoolEntry)) :
    sizeOf (c :: cs) = c.2.size + sizeOf cs := by simp [sizeOf, entriesSize]

/-- A plan is the first part of the candidates that is enough, and no shorter part is. -/
theorem planEviction_eq_some {space count : ℕ} : ∀ {cs : List (Text × MempoolEntry)} {freed taken : ℕ}
    {plan : List (Text × Text)}, planEviction space count cs freed taken = some plan →
    ∃ k ≤ cs.length, plan = (cs.take k).map (fun c => (c.1, c.2.txId)) ∧
      (space ≤ freed + sizeOf (cs.take k) ∧ count ≤ taken + k) ∧
      ∀ j < k, ¬ (space ≤ freed + sizeOf (cs.take j) ∧ count ≤ taken + j)
  | [], freed, taken, plan, h => by
    unfold planEviction at h
    split_ifs at h with henough
    cases h
    refine ⟨0, le_rfl, rfl, ?_, fun j hj => absurd hj (Nat.not_lt_zero j)⟩
    simp [sizeOf, entriesSize] at henough ⊢
    omega
  | c :: cs, freed, taken, plan, h => by
    unfold planEviction at h
    split_ifs at h with henough
    · obtain ⟨rest, hrest, rfl⟩ := Option.map_eq_some_iff.mp h
      obtain ⟨k, hk, rfl, hfrees, hleast⟩ := planEviction_eq_some hrest
      refine ⟨k + 1, Nat.succ_le_succ hk, rfl, ?_, ?_⟩
      · rw [List.take_succ_cons, sizeOf_cons]
        omega
      · intro j hj
        cases j with
        | zero =>
          simp [sizeOf, entriesSize]
          omega
        | succ j =>
          have hj' := hleast j (Nat.lt_of_succ_lt_succ hj)
          rw [List.take_succ_cons, sizeOf_cons]
          omega
    · cases h
      refine ⟨0, Nat.zero_le _, rfl, ?_, fun j hj => absurd hj (Nat.not_lt_zero j)⟩
      simp [sizeOf, entriesSize]
      omega

theorem planEviction_eq_none {space count : ℕ} : ∀ {cs : List (Text × MempoolEntry)} {freed taken : ℕ},
    planEviction space count cs freed taken = none ↔ freed + sizeOf cs < space ∨ taken + cs.length < count
  | [], freed, taken => by
    unfold planEviction
    simp only [sizeOf, entriesSize, List.map_nil, List.sum_nil, List.length_nil]
    split_ifs with henough
    · simpa using henough
    · simpa using henough
  | c :: cs, freed, taken => by
    unfold planEviction
    rw [sizeOf_cons, List.length_cons]
    split_ifs with henough
    · simp only [Option.map_eq_none_iff, planEviction_eq_none]
      omega
    · simp only [false_iff]
      omega

/-- The first `k` in the order of eviction free enough. -/
def Frees (p : Mempool) (space count k : ℕ) : Prop :=
  space ≤ entriesSize ((evictionOrder p).take k) ∧ count ≤ ((evictionOrder p).take k).length

/-- The residents that pay strictly less per byte. -/
def cheaper (p : Mempool) (tx : Transaction) (size : ℕ) : List MempoolEntry :=
  p.stored.filter fun e => e.rate < rate tx size

/-- The candidates of `try_evict_below`, cheapest first. -/
def candidates (p : Mempool) (fee : FeePerByte) : List (Text × MempoolEntry) :=
  (p.listing.filter fun c => c.2.feePerByte.cmp fee = .lt).mergeSort evictedBefore

theorem tryEvictBelow_eq (p : Mempool) (space count : ℕ) (fee : FeePerByte) : p.tryEvictBelow space count fee =
    (planEviction space count (candidates p fee) 0 0).map fun plan => (removeAll (bySender plan) p).1 := rfl

section

variable {p : Mempool} {tx : Transaction} {size : ℕ}

theorem WellKept.candidates_eq (h : WellKept M owner p) (hM : EncodesSome M) (htx : FeeBounded tx)
    (hsize : M.serializedLen tx = some size) (hsmall : size ≤ maxMempoolTxBytes) :
    (candidates p ⟨tx.feeUnits, size⟩).map Prod.snd = sort cheapestFirst (cheaper p tx size) := by
  have hfilter : (p.listing.filter fun c => c.2.feePerByte.cmp ⟨tx.feeUnits, size⟩ = .lt).map Prod.snd =
      cheaper p tx size := by
    rw [cheaper, stored_eq, List.filter_map]
    congr 1
    refine List.filter_congr fun c hc => ?_
    exact decide_eq_decide.mpr (h.cmp_lt hM hc htx hsize hsmall)
  rw [← hfilter]
  refine List.map_mergeSort fun c hc d hd => ?_
  exact h.evictedBefore_eq hM (List.mem_of_mem_filter hc) (List.mem_of_mem_filter hd)

/-- The strictly cheaper residents come first. -/
theorem WellKept.evictionOrder_eq (h : WellKept M owner p) (tx : Transaction) (size : ℕ) :
    evictionOrder p = sort cheapestFirst (cheaper p tx size) ++
      sort cheapestFirst (p.stored.filter fun e => !decide (e.rate < rate tx size)) := by
  refine sort_filter h.self fun a _ b _ hb ha => cheapestFirst_lt ?_
  rw [decide_eq_true_eq] at hb
  rw [decide_eq_false_iff_not] at ha
  exact lt_of_lt_of_le hb (not_lt.mp ha)

theorem WellKept.take_eq (h : WellKept M owner p) (hM : EncodesSome M) (htx : FeeBounded tx)
    (hsize : M.serializedLen tx = some size) (hsmall : size ≤ maxMempoolTxBytes) {k : ℕ}
    (hk : k ≤ (candidates p ⟨tx.feeUnits, size⟩).length) :
    (evictionOrder p).take k = ((candidates p ⟨tx.feeUnits, size⟩).take k).map Prod.snd := by
  have hcand := h.candidates_eq hM htx hsize hsmall
  rw [h.evictionOrder_eq tx size, ← hcand, List.take_append_of_le_length (by rwa [List.length_map]), List.map_take]

/-- **Eviction takes the shortest first part that frees enough**, all of it strictly cheaper. -/
theorem WellKept.tryEvictBelow_eq_some (h : WellKept M owner p) (hM : EncodesSome M) (htx : FeeBounded tx)
    (hsize : M.serializedLen tx = some size) (hsmall : size ≤ maxMempoolTxBytes) {space count : ℕ} {q : Mempool}
    (hq : p.tryEvictBelow space count ⟨tx.feeUnits, size⟩ = some q) :
    ∃ k, IsLeast {k | Frees p space count k} k ∧ (∀ e ∈ (evictionOrder p).take k, e.rate < rate tx size) ∧
      q.stored.Perm ((evictionOrder p).drop k) := by
  have hconsistent := tryEvictBelow_consistent h.consistent hq
  rw [tryEvictBelow_eq] at hq
  obtain ⟨plan, hplan, rfl⟩ := Option.map_eq_some_iff.mp hq
  obtain ⟨k, hk, rfl, hfrees, hleast⟩ := planEviction_eq_some hplan
  set cs := candidates p ⟨tx.feeUnits, size⟩ with hcs
  have htake : ∀ j ≤ k, (evictionOrder p).take j = (cs.take j).map Prod.snd := fun j hj =>
    h.take_eq hM htx hsize hsmall (hj.trans hk)
  have hlen : ∀ j ≤ k, ((evictionOrder p).take j).length = j := fun j hj => by
    rw [htake j hj, List.length_map, List.length_take, Nat.min_eq_left (hj.trans hk)]
  have hcand : ∀ c ∈ cs.take k, c ∈ p.listing ∧ c.2.rate < rate tx size := by
    intro c hc
    obtain ⟨hin, hcmp⟩ := List.mem_filter.mp (List.mem_mergeSort.mp (List.mem_of_mem_take hc))
    exact ⟨hin, (h.cmp_lt hM hin htx hsize hsmall).mp (of_decide_eq_true hcmp)⟩
  refine ⟨k, ⟨?_, fun j hj => ?_⟩, ?_, ?_⟩
  · refine ⟨?_, ?_⟩
    · rw [htake k le_rfl]
      simpa [sizeOf] using hfrees.1
    · rw [hlen k le_rfl]
      simpa using hfrees.2
  · by_contra hlt
    have hjk := (not_le.mp hlt).le
    refine hleast j (not_le.mp hlt) ⟨?_, ?_⟩
    · have := hj.1
      rw [htake j hjk] at this
      simpa [sizeOf] using this
    · have := hj.2
      rw [hlen j hjk] at this
      simpa using this
  · intro e he
    rw [htake k le_rfl] at he
    obtain ⟨c, hc, rfl⟩ := List.mem_map.mp he
    exact (hcand c hc).2
  · -- what is left is what the plan does not name, and an id names one resident
    have horder : (evictionOrder p).Nodup := (sort_perm _).nodup_iff.mpr h.nodup
    refine (List.perm_ext_iff_of_nodup (List.Nodup.of_map _ hconsistent.lockstep.once)
      (horder.sublist (List.drop_sublist k _))).mpr fun e => ?_
    have hsplit : e ∈ (evictionOrder p).drop k ↔ e ∈ p.stored ∧ e ∉ (evictionOrder p).take k := by
      have hdisj := List.disjoint_of_nodup_append ((List.take_append_drop k (evictionOrder p)).symm ▸ horder)
      have hordered : e ∈ p.stored ↔ e ∈ evictionOrder p := mem_sort.symm
      rw [hordered]
      constructor
      · exact fun hd => ⟨List.mem_of_mem_drop hd, fun ht => hdisj ht hd⟩
      · rintro ⟨hin, hout⟩
        rw [← List.take_append_drop k (evictionOrder p)] at hin
        exact (List.mem_append.mp hin).resolve_left hout
    rw [hsplit, htake k le_rfl, stored_eq, stored_eq]
    constructor
    · intro he
      obtain ⟨c, hc, rfl⟩ := List.mem_map.mp he
      rw [bySender_listing h.consistent.nonempty] at hc
      refine ⟨List.mem_map_of_mem hc.1, fun htaken => hc.2 ?_⟩
      obtain ⟨d, hd, hde⟩ := List.mem_map.mp htaken
      have hcd : c.1 = d.1 := by rw [← (h.entry hc.1).sender, ← (h.entry (hcand d hd).1).sender, hde]
      rw [hcd, ← hde]
      exact List.mem_map.mpr ⟨d, hd, rfl⟩
    · rintro ⟨he, hout⟩
      obtain ⟨c, hc, rfl⟩ := List.mem_map.mp he
      refine List.mem_map.mpr ⟨c, (bySender_listing h.consistent.nonempty).mpr ⟨hc, fun hplanned => hout ?_⟩, rfl⟩
      obtain ⟨d, hd, hde⟩ := List.mem_map.mp hplanned
      have hid : d.2.txId = c.2.txId := congrArg Prod.snd hde
      have hsame := h.eq_of_txId (mem_stored (hcand d hd).1) (mem_stored hc) hid
      exact List.mem_map.mpr ⟨d, hd, hsame⟩

theorem WellKept.tryEvictBelow_eq_none (h : WellKept M owner p) (hM : EncodesSome M) (htx : FeeBounded tx)
    (hsize : M.serializedLen tx = some size) (hsmall : size ≤ maxMempoolTxBytes) {space count : ℕ} :
    p.tryEvictBelow space count ⟨tx.feeUnits, size⟩ = none ↔
      entriesSize (cheaper p tx size) < space ∨ (cheaper p tx size).length < count := by
  have hcand := h.candidates_eq hM htx hsize hsmall
  have hperm : ((candidates p ⟨tx.feeUnits, size⟩).map Prod.snd).Perm (cheaper p tx size) := by
    rw [hcand]
    exact sort_perm _
  rw [tryEvictBelow_eq, Option.map_eq_none_iff, planEviction_eq_none, sizeOf, entriesSize_perm hperm,
    ← hperm.length_eq, List.length_map, Nat.zero_add, Nat.zero_add]

/-- How many bytes, and how many places, are missing for one more of `size`. -/
def bytesOver (p : Mempool) (size : ℕ) : ℕ := entriesSize p.stored + size - mempoolMaxBytes

def placesOver (p : Mempool) : ℕ := p.stored.length + 1 - mempoolMaxTransactions

theorem WellKept.makeRoom_eq (h : WellKept M owner p) (size : ℕ) (fee : FeePerByte) :
    p.makeRoom size fee = if 0 < bytesOver p size ∨ 0 < placesOver p then
      p.tryEvictBelow (bytesOver p size) (placesOver p) fee else some p := by
  have hbooks := h.consistent.lockstep
  rw [bytesOver, placesOver, ← hbooks.size, ← hbooks.count]
  rfl

/-- Room is made by the shortest first part of the residents, and then there is room. -/
theorem WellKept.makeRoom_eq_some (h : WellKept M owner p) (hM : EncodesSome M) (htx : FeeBounded tx)
    (hsize : M.serializedLen tx = some size) (hsmall : size ≤ maxMempoolTxBytes) {q : Mempool}
    (hq : p.makeRoom size ⟨tx.feeUnits, size⟩ = some q) :
    (∃ k, IsLeast {k | Frees p (bytesOver p size) (placesOver p) k} k ∧
      (∀ e ∈ (evictionOrder p).take k, e.rate < rate tx size) ∧ q.stored.Perm ((evictionOrder p).drop k)) ∧
    q.totalSize + size ≤ mempoolMaxBytes ∧ q.totalCount + 1 ≤ mempoolMaxTransactions := by
  have hbooks := (makeRoom_consistent h.consistent hq).lockstep
  have hleast : ∃ k, IsLeast {k | Frees p (bytesOver p size) (placesOver p) k} k ∧
      (∀ e ∈ (evictionOrder p).take k, e.rate < rate tx size) ∧ q.stored.Perm ((evictionOrder p).drop k) := by
    rw [h.makeRoom_eq] at hq
    split_ifs at hq with hover
    · exact h.tryEvictBelow_eq_some hM htx hsize hsmall hq
    · cases hq
      refine ⟨0, ⟨⟨by omega, by omega⟩, fun k _ => Nat.zero_le k⟩, fun e he => ?_, (sort_perm _).symm⟩
      rw [List.take_zero] at he
      cases he
  refine ⟨hleast, ?_⟩
  obtain ⟨k, ⟨⟨hbytes, hplaces⟩, -⟩, -, hleft⟩ := hleast
  have hwhole : ((evictionOrder p).take k ++ (evictionOrder p).drop k).Perm p.stored := by
    rw [List.take_append_drop]
    exact sort_perm _
  have hlen := hwhole.length_eq
  have hbytes' := entriesSize_perm hwhole
  rw [List.length_append] at hlen
  rw [entriesSize_append] at hbytes'
  rw [hbooks.size, hbooks.count, entriesSize_perm hleft, hleft.length_eq]
  unfold bytesOver at hbytes
  unfold placesOver at hplaces
  omega

theorem WellKept.makeRoom_eq_none (h : WellKept M owner p) (hM : EncodesSome M) (htx : FeeBounded tx)
    (hsize : M.serializedLen tx = some size) (hsmall : size ≤ maxMempoolTxBytes) :
    p.makeRoom size ⟨tx.feeUnits, size⟩ = none ↔
      entriesSize (cheaper p tx size) < bytesOver p size ∨ (cheaper p tx size).length < placesOver p := by
  rw [h.makeRoom_eq]
  split_ifs with hover
  · exact h.tryEvictBelow_eq_none hM htx hsize hsmall
  · simp only [false_iff]
    omega

end

/-! ### The expiry prune -/

/-- What the prune of an admission takes out, when it is due. -/
def expires (M : MempoolEnv) (p : Mempool) (clock : ClockReads) (e : MempoolEntry) : Bool :=
  decide (pruneIntervalSecs ≤ clock.gate - p.lastPrune) && M.ttlSecs.any (· < clock.prune - e.timestamp)

theorem pruneExpired_listing {p : Mempool} (h : WellKept M owner p) {now : ℕ} {c : Text × MempoolEntry} :
    c ∈ (p.pruneExpired M now).1.listing ↔ c ∈ p.listing ∧ M.ttlSecs.any (· < now - c.2.timestamp) = false := by
  unfold pruneExpired
  cases httl : M.ttlSecs with
  | none => simp
  | some ttl =>
    dsimp only
    rw [bySender_listing h.consistent.nonempty]
    refine and_congr_right fun hc => ?_
    rw [Option.any_some, decide_eq_false_iff_not, not_iff_not]
    constructor
    · intro hmem
      obtain ⟨d, hd, hde⟩ := List.mem_map.mp hmem
      obtain ⟨hd, hold⟩ := List.mem_filter.mp hd
      have hid : d.2.txId = c.2.txId := congrArg Prod.snd hde
      rw [← h.eq_of_txId (mem_stored hd) (mem_stored hc) hid]
      exact of_decide_eq_true hold
    · intro hold
      exact List.mem_map.mpr ⟨c, List.mem_filter.mpr ⟨hc, decide_eq_true hold⟩, rfl⟩

theorem pruneIfDue_listing {p : Mempool} (h : WellKept M owner p) (clock : ClockReads) {c : Text × MempoolEntry} :
    c ∈ (p.pruneIfDue M clock).listing ↔ c ∈ p.listing ∧ expires M p clock c.2 = false := by
  unfold pruneIfDue expires
  split_ifs with hdue
  · have hstamp : WellKept M owner { p with lastPrune := clock.gate } :=
      ⟨⟨⟨h.consistent.once, h.consistent.nonempty, h.consistent.counts, h.consistent.count, h.consistent.size,
        h.consistent.maxCount, h.consistent.maxSize, h.consistent.maxAddress, h.consistent.sound⟩,
        h.consistent.owned, h.consistent.located⟩, h.filed⟩
    rw [pruneExpired_listing hstamp, decide_eq_true hdue, Bool.true_and]
    rfl
  · rw [decide_eq_false hdue, Bool.false_and]
    simp

theorem pruneIfDue_stored {p : Mempool} (h : WellKept M owner p) (clock : ClockReads) :
    (p.pruneIfDue M clock).stored.Perm (p.stored.filter fun e => !expires M p clock e) := by
  have hnodup := (pruneIfDue_consistent (M := M) h.consistent clock).lockstep.once
  refine (List.perm_ext_iff_of_nodup (List.Nodup.of_map _ hnodup) (h.nodup.filter _)).mpr fun e => ?_
  rw [List.mem_filter, stored_eq, stored_eq, List.mem_map, List.mem_map]
  constructor
  · rintro ⟨c, hc, rfl⟩
    obtain ⟨hc, hkeep⟩ := (pruneIfDue_listing h clock).mp hc
    exact ⟨⟨c, hc, rfl⟩, by rw [hkeep]; rfl⟩
  · rintro ⟨⟨c, hc, rfl⟩, hkeep⟩
    exact ⟨c, (pruneIfDue_listing h clock).mpr ⟨hc, by simpa using hkeep⟩, rfl⟩

/-! ### Admission -/

/-- The checks that come before the pool looks for room. -/
structure Passes (M : MempoolEnv) (p : Mempool) (tx : Transaction) (floor : Bool) (size : ℕ) : Prop where
  fresh : p.txLocator.lookup (getTxId M.toEnv tx) = none
  relayed : floor = true → minRelayFeeUnits ≤ tx.feeUnits
  encoded : M.serializedLen tx = some size
  small : size ≤ maxMempoolTxBytes
  address : (p.addressCounts.lookup tx.sender).any (mempoolMaxPerAddress ≤ ·) = false

/-- The entry of a transaction that is let in. -/
def entryOf (M : MempoolEnv) (clock : ClockReads) (tx : Transaction) (size : ℕ) : MempoolEntry :=
  ⟨tx, getTxId M.toEnv tx, clock.entry, ⟨tx.feeUnits, size⟩, size⟩

section

variable {p q : Mempool} {clock : ClockReads} {tx : Transaction} {floor : Bool} {size : ℕ}

theorem admitTransaction_full (h : Passes M (p.pruneIfDue M clock) tx floor size)
    (hroom : (p.pruneIfDue M clock).makeRoom size ⟨tx.feeUnits, size⟩ = none) :
    p.admitTransaction M clock tx floor = (p.pruneIfDue M clock, .error (.rateLimitExceeded .mempoolFull)) := by
  unfold admitTransaction
  have hfloor : ¬ (floor = true ∧ tx.feeUnits < minRelayFeeUnits) := fun hf => absurd hf.2 (not_lt.mpr (h.relayed hf.1))
  simp only [h.fresh, hfloor, h.encoded, not_lt.mpr h.small, h.address, hroom, Option.isSome_none, Bool.false_eq_true,
    if_false]

theorem admitTransaction_room (h : Passes M (p.pruneIfDue M clock) tx floor size)
    (hroom : (p.pruneIfDue M clock).makeRoom size ⟨tx.feeUnits, size⟩ = some q)
    (hbytes : q.totalSize + size ≤ mempoolMaxBytes) (hplaces : q.totalCount + 1 ≤ mempoolMaxTransactions) :
    p.admitTransaction M clock tx floor = (q.insertEntry tx.sender (entryOf M clock tx size), .ok ()) := by
  unfold admitTransaction
  have hfloor : ¬ (floor = true ∧ tx.feeUnits < minRelayFeeUnits) := fun hf => absurd hf.2 (not_lt.mpr (h.relayed hf.1))
  simp only [h.fresh, hfloor, h.encoded, not_lt.mpr h.small, h.address, hroom, not_lt.mpr hbytes, not_lt.mpr hplaces,
    Option.isSome_none, Bool.false_eq_true, or_self, if_false]
  rfl

/-- A check that fails leaves the pool as the prune did; only a known id is no error. -/
theorem admitTransaction_refused (h : ¬ ∃ size, Passes M (p.pruneIfDue M clock) tx floor size) :
    (p.admitTransaction M clock tx floor).1 = p.pruneIfDue M clock ∧
      ((p.admitTransaction M clock tx floor).2 = .ok () →
        (p.pruneIfDue M clock).txLocator.lookup (getTxId M.toEnv tx) ≠ none) := by
  unfold admitTransaction
  dsimp only
  set p' := p.pruneIfDue M clock with hp'
  by_cases hfresh : p'.txLocator.lookup (getTxId M.toEnv tx) = none
  · rw [hfresh, Option.isSome_none, if_neg Bool.false_ne_true]
    by_cases hfloor : floor = true ∧ tx.feeUnits < minRelayFeeUnits
    · rw [if_pos hfloor]
      exact ⟨rfl, fun hok => by cases hok⟩
    · rw [if_neg hfloor]
      cases hsize : M.serializedLen tx with
      | none => exact ⟨rfl, fun hok => by cases hok⟩
      | some size =>
        dsimp only
        by_cases hsmall : maxMempoolTxBytes < size
        · rw [if_pos hsmall]
          exact ⟨rfl, fun hok => by cases hok⟩
        · rw [if_neg hsmall]
          by_cases haddress : (p'.addressCounts.lookup tx.sender).any (mempoolMaxPerAddress ≤ ·) = true
          · rw [if_pos haddress]
            exact ⟨rfl, fun hok => by cases hok⟩
          · refine absurd ⟨size, hfresh, fun hf => ?_, hsize, not_lt.mp hsmall, by simpa using haddress⟩ h
            exact not_lt.mp fun hlt => hfloor ⟨hf, hlt⟩
  · rw [if_pos (Option.ne_none_iff_isSome.mp hfresh)]
    exact ⟨rfl, fun _ => hfresh⟩

theorem insertEntry_listing {sender : Text} {entry : MempoolEntry} {c : Text × MempoolEntry} :
    c ∈ (p.insertEntry sender entry).listing ↔ c ∈ p.listing ∨ c = (sender, entry) := by
  have hlook : (p.insertEntry sender entry).transactions.lookup c.1 = if c.1 = sender then
      some ((p.transactions.lookup sender).getD [] ++ [entry]) else p.transactions.lookup c.1 :=
    Table.lookup_insert_ite _ _ _ _
  rw [mem_listing_iff, mem_listing_iff, hlook]
  by_cases hs : c.1 = sender
  · rw [if_pos hs, hs]
    simp only [Option.some.injEq, exists_eq_left', List.mem_append, List.mem_singleton, Prod.ext_iff, hs, true_and]
    refine or_congr ?_ Iff.rfl
    cases p.transactions.lookup sender <;> simp
  · rw [if_neg hs]
    simp only [Prod.ext_iff, hs, false_and, or_false]

end

/-! ### Every run -/

theorem filed_of_listing {p q : Mempool} (h : Filed M p) (hsub : ∀ c ∈ q.listing, c ∈ p.listing) : Filed M q := by
  intro s b hb e he
  obtain ⟨b', hb', he'⟩ := mem_listing (hsub (s, e) (mem_listing_iff.mpr ⟨b, hb, he⟩))
  exact h s b' hb' e he'

theorem clearTransaction_listing {p : Mempool} (h : NonEmpty p) {tx : Transaction} :
    ∀ c ∈ (p.clearTransaction M tx).listing, c ∈ p.listing := by
  intro c hc
  rw [mem_listing_iff] at hc ⊢
  obtain ⟨b, hb, he⟩ := hc
  cases hbucket : p.transactions.lookup tx.sender with
  | none =>
    rw [clearTransaction_none hbucket] at hb
    exact ⟨b, hb, he⟩
  | some bucket =>
    rw [clearTransaction_some hbucket (h _ _ hbucket), retain_transactions, setBucket_lookup] at hb
    split_ifs at hb with hs
    · cases hb
      exact ⟨bucket, by rw [hs, hbucket], List.mem_of_mem_filter he⟩
    · exact ⟨b, hb, he⟩

theorem makeRoom_listing {p q : Mempool} (h : NonEmpty p) {size : ℕ} {fee : FeePerByte}
    (hq : p.makeRoom size fee = some q) : ∀ c ∈ q.listing, c ∈ p.listing := by
  unfold makeRoom at hq
  dsimp only at hq
  split_ifs at hq
  · rw [tryEvictBelow_eq] at hq
    obtain ⟨plan, -, rfl⟩ := Option.map_eq_some_iff.mp hq
    exact fun c hc => ((bySender_listing h).mp hc).1
  · cases hq
    exact fun c hc => hc

theorem pruneIfDue_wellKept {p : Mempool} (h : WellKept M owner p) (clock : ClockReads) :
    WellKept M owner (p.pruneIfDue M clock) :=
  ⟨pruneIfDue_consistent h.consistent clock, filed_of_listing h.filed fun _ hc =>
    ((pruneIfDue_listing h clock).mp hc).1⟩

theorem makeRoom_wellKept {p q : Mempool} (h : WellKept M owner p) {size : ℕ} {fee : FeePerByte}
    (hq : p.makeRoom size fee = some q) : WellKept M owner q :=
  ⟨makeRoom_consistent h.consistent hq, filed_of_listing h.filed (makeRoom_listing h.consistent.nonempty hq)⟩

theorem insertEntry_filed {p : Mempool} (h : Filed M p) {sender : Text} {entry : MempoolEntry}
    (he : AsAdmitted M sender entry) : Filed M (p.insertEntry sender entry) := by
  intro s b hb e hin
  have hlisted : (s, e) ∈ (p.insertEntry sender entry).listing := mem_listing_iff.mpr ⟨b, hb, hin⟩
  rcases insertEntry_listing.mp hlisted with hold | hnew
  · obtain ⟨b', hb', hin'⟩ := mem_listing hold
    exact h s b' hb' e hin'
  · cases hnew
    exact he

theorem admitTransaction_wellKept {p : Mempool} (h : WellKept M owner p) (hM : EncodesSome M) (clock : ClockReads)
    {tx : Transaction} (howner : owner (getTxId M.toEnv tx) = tx.sender) (htx : FeeBounded tx) (floor : Bool) :
    WellKept M owner (p.admitTransaction M clock tx floor).1 := by
  refine ⟨admitTransaction_consistent h.consistent clock howner floor, ?_⟩
  have hpruned := pruneIfDue_wellKept h clock
  by_cases hpass : ∃ size, Passes M (p.pruneIfDue M clock) tx floor size
  · obtain ⟨size, hpass⟩ := hpass
    cases hroom : (p.pruneIfDue M clock).makeRoom size ⟨tx.feeUnits, size⟩ with
    | none =>
      rw [admitTransaction_full hpass hroom]
      exact hpruned.filed
    | some q =>
      obtain ⟨-, hbytes, hplaces⟩ := hpruned.makeRoom_eq_some hM htx hpass.encoded hpass.small hroom
      rw [admitTransaction_room hpass hroom hbytes hplaces]
      exact insertEntry_filed (makeRoom_wellKept hpruned hroom).filed
        ⟨rfl, rfl, hpass.encoded, hpass.small, rfl, htx⟩
  · rw [(admitTransaction_refused hpass).1]
    exact hpruned.filed

theorem step_wellKept {p : Mempool} (h : WellKept M owner p) (hM : EncodesSome M) {op : MempoolOp}
    (howner : ∀ tx ∈ op.transaction, owner (getTxId M.toEnv tx) = tx.sender)
    (hfees : ∀ tx ∈ op.transaction, FeeBounded tx) : WellKept M owner (p.step M op) := by
  cases op with
  | addTransaction clock tx => exact admitTransaction_wellKept h hM clock (howner tx rfl) (hfees tx rfl) true
  | readmitReverted clock tx => exact admitTransaction_wellKept h hM clock (howner tx rfl) (hfees tx rfl) false
  | clearTransaction tx =>
    exact ⟨clearTransaction_consistent h.consistent (howner tx rfl),
      filed_of_listing h.filed (clearTransaction_listing h.consistent.nonempty)⟩
  | pruneExpired now =>
    exact ⟨pruneExpired_consistent h.consistent now,
      filed_of_listing h.filed fun c hc => ((pruneExpired_listing h).mp hc).1⟩

theorem run_wellKept (hM : EncodesSome M) : ∀ (ops : List MempoolOp) {p : Mempool}, WellKept M owner p →
    (∀ op ∈ ops, ∀ tx ∈ op.transaction, owner (getTxId M.toEnv tx) = tx.sender ∧ FeeBounded tx) →
    WellKept M owner (ops.foldl (Mempool.step M) p)
  | [], _, h, _ => h
  | op :: ops, p, h, hops => by
    rw [List.forall_mem_cons] at hops
    exact run_wellKept hM ops
      (step_wellKept h hM (fun tx htx => (hops.1 tx htx).1) fun tx htx => (hops.1 tx htx).2) hops.2

theorem new_wellKept : WellKept M owner Mempool.new := ⟨new_consistent, fun _ _ h => by cases h⟩

/-! ### The result -/

/-- What the admission of `tx` does to what is stored. -/
structure AdmissionExact (M : MempoolEnv) (p : Mempool) (clock : ClockReads) (tx : Transaction) (floor : Bool) : Prop
    where
  pruned : (p.pruneIfDue M clock).stored.Perm (p.stored.filter fun e => !expires M p clock e)
  refused : ∀ e, (p.admitTransaction M clock tx floor).2 = .error e →
    (p.admitTransaction M clock tx floor).1 = p.pruneIfDue M clock
  room : ∀ size q, Passes M (p.pruneIfDue M clock) tx floor size →
    (p.pruneIfDue M clock).makeRoom size ⟨tx.feeUnits, size⟩ = some q →
    q.totalSize + size ≤ mempoolMaxBytes ∧ q.totalCount + 1 ≤ mempoolMaxTransactions
  evicted : (p.admitTransaction M clock tx floor).2 = .ok () →
    (p.pruneIfDue M clock).txLocator.lookup (getTxId M.toEnv tx) = none →
    ∃ size k, Passes M (p.pruneIfDue M clock) tx floor size ∧
      IsLeast {k | Frees (p.pruneIfDue M clock) (bytesOver (p.pruneIfDue M clock) size)
        (placesOver (p.pruneIfDue M clock)) k} k ∧
      (∀ e ∈ (evictionOrder (p.pruneIfDue M clock)).take k, e.rate < rate tx size) ∧
      (p.admitTransaction M clock tx floor).1.stored.Perm
        (entryOf M clock tx size :: (evictionOrder (p.pruneIfDue M clock)).drop k)
  full : ∀ size, Passes M (p.pruneIfDue M clock) tx floor size →
    ((p.admitTransaction M clock tx floor).2 = .error (.rateLimitExceeded .mempoolFull) ↔
      entriesSize (cheaper (p.pruneIfDue M clock) tx size) < bytesOver (p.pruneIfDue M clock) size ∨
        (cheaper (p.pruneIfDue M clock) tx size).length < placesOver (p.pruneIfDue M clock))

theorem insertEntry_stored {p : Mempool} (h : WellKept M owner p) {sender : Text} {entry : MempoolEntry}
    (hafter : Consistent owner (p.insertEntry sender entry)) (hnew : p.txLocator.lookup entry.txId = none) :
    (p.insertEntry sender entry).stored.Perm (entry :: p.stored) := by
  have hout : entry ∉ p.stored := by
    intro hin
    have hloc := h.consistent.listed (h.mem_listing_of hin)
    rw [hnew] at hloc
    cases hloc
  refine (List.perm_ext_iff_of_nodup (List.Nodup.of_map _ hafter.lockstep.once)
    (List.nodup_cons.mpr ⟨hout, h.nodup⟩)).mpr fun e => ?_
  rw [List.mem_cons, stored_eq, stored_eq, List.mem_map, List.mem_map]
  constructor
  · rintro ⟨c, hc, rfl⟩
    rcases insertEntry_listing.mp hc with hc | rfl
    · exact Or.inr ⟨c, hc, rfl⟩
    · exact Or.inl rfl
  · rintro (rfl | ⟨c, hc, rfl⟩)
    · exact ⟨(sender, e), insertEntry_listing.mpr (Or.inr rfl), rfl⟩
    · exact ⟨c, insertEntry_listing.mpr (Or.inl hc), rfl⟩

theorem WellKept.admissionExact {p : Mempool} (h : WellKept M owner p) (hM : EncodesSome M) (clock : ClockReads)
    {tx : Transaction} (howner : owner (getTxId M.toEnv tx) = tx.sender) (htx : FeeBounded tx) (floor : Bool) :
    AdmissionExact M p clock tx floor := by
  have hpruned := pruneIfDue_wellKept h clock
  have hafter := admitTransaction_consistent h.consistent clock howner floor
  have hroomy : ∀ size q, Passes M (p.pruneIfDue M clock) tx floor size →
      (p.pruneIfDue M clock).makeRoom size ⟨tx.feeUnits, size⟩ = some q →
      p.admitTransaction M clock tx floor = (q.insertEntry tx.sender (entryOf M clock tx size), .ok ()) := by
    intro size q hpass hroom
    obtain ⟨-, hbytes, hplaces⟩ := hpruned.makeRoom_eq_some hM htx hpass.encoded hpass.small hroom
    exact admitTransaction_room hpass hroom hbytes hplaces
  refine ⟨pruneIfDue_stored h clock, fun e he => ?_, fun size q hpass hroom => ?_, fun hok hfresh => ?_,
    fun size hpass => ?_⟩
  · by_cases hpass : ∃ size, Passes M (p.pruneIfDue M clock) tx floor size
    · obtain ⟨size, hpass⟩ := hpass
      cases hroom : (p.pruneIfDue M clock).makeRoom size ⟨tx.feeUnits, size⟩ with
      | none => rw [admitTransaction_full hpass hroom]
      | some q =>
        rw [hroomy size q hpass hroom] at he
        cases he
    · exact (admitTransaction_refused hpass).1
  · exact (hpruned.makeRoom_eq_some hM htx hpass.encoded hpass.small hroom).2
  · by_cases hpass : ∃ size, Passes M (p.pruneIfDue M clock) tx floor size
    · obtain ⟨size, hpass⟩ := hpass
      cases hroom : (p.pruneIfDue M clock).makeRoom size ⟨tx.feeUnits, size⟩ with
      | none =>
        rw [admitTransaction_full hpass hroom] at hok
        cases hok
      | some q =>
        obtain ⟨⟨k, hleast, hcheap, hleft⟩, -⟩ :=
          hpruned.makeRoom_eq_some hM htx hpass.encoded hpass.small hroom
        rw [hroomy size q hpass hroom] at hafter
        refine ⟨size, k, hpass, hleast, hcheap, ?_⟩
        rw [hroomy size q hpass hroom]
        exact (insertEntry_stored (makeRoom_wellKept hpruned hroom) hafter (makeRoom_locator hroom hpass.fresh)).trans
          (hleft.cons _)
    · exact absurd hfresh ((admitTransaction_refused hpass).2 hok)
  · rw [← hpruned.makeRoom_eq_none hM htx hpass.encoded hpass.small]
    cases hroom : (p.pruneIfDue M clock).makeRoom size ⟨tx.feeUnits, size⟩ with
    | none => simp only [admitTransaction_full hpass hroom]
    | some q => simp only [hroomy size q hpass hroom, reduceCtorEq]

/-- The transactions of a run, and one more. -/
def Offered (ops : List MempoolOp) (tx a : Transaction) : Prop := a = tx ∨ ∃ op ∈ ops, a ∈ op.transaction

/-- **Admission is exact.** In every pool that a run reaches, for every transaction and at any time: who is refused
costs nobody their place, who is let in displaces exactly the shortest first part of the eviction order that makes
room, all of it strictly cheaper, and a full pool refuses exactly when the strictly cheaper cannot make room. -/
theorem admission_exact (hM : EncodesSome M) (ops : List MempoolOp) (clock : ClockReads) (tx : Transaction)
    (floor : Bool)
    (hids : ∀ a, Offered ops tx a → ∀ b, Offered ops tx b → getTxId M.toEnv a = getTxId M.toEnv b → a.sender = b.sender)
    (hfees : ∀ a, Offered ops tx a → FeeBounded a) :
    AdmissionExact M (ops.foldl (Mempool.step M) Mempool.new) clock tx floor := by
  obtain ⟨owner, howner⟩ := exists_owner hids
  have hrun : WellKept M owner (ops.foldl (Mempool.step M) Mempool.new) :=
    run_wellKept hM ops new_wellKept fun op hop a ha =>
      ⟨howner a (Or.inr ⟨op, hop, ha⟩), hfees a (Or.inr ⟨op, hop, ha⟩)⟩
  exact hrun.admissionExact hM clock (howner tx (Or.inl rfl)) (hfees tx (Or.inl rfl)) floor

namespace MempoolSample

/-- Payments of the greatest size. -/
def large : MempoolEnv := ⟨toyEnv, fun _ => some maxMempoolTxBytes, some 600⟩

/-- Fifty of them, of fifty senders, and a dearer one. -/
def crowd : List Transaction := (List.range 50).map fun i => { payment with sender := [Char.ofNat (100 + i)] }

def filling : List MempoolOp := crowd.map (.addTransaction ⟨1000, 1000, 1000⟩)

theorem crowd_sender : ∀ tx ∈ dearer :: crowd, ∀ tx' ∈ dearer :: crowd,
    getTxId large.toEnv tx = getTxId large.toEnv tx' → tx.sender = tx'.sender := by decide +kernel

theorem crowd_fees : ∀ tx ∈ dearer :: crowd, FeeBounded tx := by
  unfold FeeBounded
  decide +kernel

end MempoolSample

open MempoolSample in
/-- A dearer payment comes to a pool that is full to the byte, so it can only come in at the cost of others. -/
theorem admission_exact_full :
    (filling.foldl (Mempool.step large) Mempool.new).totalSize = mempoolMaxBytes ∧
      AdmissionExact large (filling.foldl (Mempool.step large) Mempool.new) ⟨1001, 1001, 1001⟩ dearer true := by
  have hoffered : ∀ a, Offered filling dearer a → a ∈ dearer :: crowd := by
    rintro a (rfl | ⟨op, hop, ha⟩)
    · exact List.mem_cons_self
    · obtain ⟨tx, htx, rfl⟩ := List.mem_map.mp hop
      cases ha
      exact List.mem_cons_of_mem _ htx
  refine ⟨by decide +kernel, admission_exact ?_ filling ⟨1001, 1001, 1001⟩ dearer true
    (fun a ha b hb => crowd_sender a (hoffered a ha) b (hoffered b hb)) fun a ha => crowd_fees a (hoffered a ha)⟩
  intro tx size hsize
  cases hsize
  decide

end Alphanumeric
