/-
# The feed of a block template

`get_transactions_for_block` sorts the queue of each sender, best paid first, and merges the queues by a heap
that holds the next candidate of each sender, until the block is full. What it selects is what a plain greedy
scan takes of all entries in one global order: no entry is skipped, repeated or visited out of turn.

In the heap the tuple ends in the size, the index and the cursor. They never decide, since no two candidates in it
have the same sender.

Key definitions: `FeedCandidate`, `getTransactionsForBlock`, `feedFirst`, `positions`, `greedy`.
Key theorems: `queue_sorted`, `selectLoop_eq`, `block_feed_greedy`.
-/
import Alphanumeric.MempoolEviction

namespace Alphanumeric

open Mempool Ranking

variable {M : MempoolEnv} {owner : Text → Text}

def maxBlockSize : ℕ := 2000000
def maxTransactionsPerBlock : ℕ := 2000

/-! ### The heap merge -/

/-- A sender's next candidate, as it lies in the heap. -/
structure FeedCandidate where
  feePerByte : FeePerByte
  timestamp : ℕ
  sender : Text
  size : ℕ
  entryIdx : ℕ
  cursor : ℕ

/-- The order of the tuples. -/
def FeedCandidate.cmp (a b : FeedCandidate) : Ordering :=
  (((((a.feePerByte.cmp b.feePerByte).then (compare b.timestamp a.timestamp)).then (compare a.sender b.sender)).then
    (compare a.size b.size)).then (compare a.entryIdx b.entryIdx)).then (compare a.cursor b.cursor)

/-- The heap pops the greatest. -/
def FeedCandidate.before (a b : FeedCandidate) : Bool := (b.cmp a).isLE

/-- Best paid first; of one price the oldest. -/
def bestFirst (a b : MempoolEntry) : Ordering :=
  (b.feePerByte.cmp a.feePerByte).then (compare a.timestamp b.timestamp)

namespace Mempool

/-- The order of a sender's entries, as indices into the bucket. -/
def senderOrder (txs : List MempoolEntry) : List ℕ :=
  sort (fun a b => ((txs[a]?.map fun x => (txs[b]?.map fun y => bestFirst x y).getD .eq)).getD .eq)
    (List.range txs.length)

def offer (p : Mempool) (sender : Text) (entryIdx cursor : ℕ) : Option FeedCandidate :=
  ((p.transactions.lookup sender).bind fun txs => txs[entryIdx]?).map fun e =>
    ⟨e.feePerByte, e.timestamp, sender, e.size, entryIdx, cursor⟩

/-- The candidate at a place in the order of a sender. -/
def offerAt (p : Mempool) (sender : Text) (cursor : ℕ) : Option FeedCandidate :=
  (((p.transactions.lookup sender).map senderOrder).bind fun order => order[cursor]?).bind fun entryIdx =>
    p.offer sender entryIdx cursor

def selectLoop (p : Mempool) : ℕ → List FeedCandidate → List Transaction → ℕ → List Transaction
  | 0, _, selected, _ => selected
  | fuel + 1, heap, selected, totalSize =>
    match extract FeedCandidate.before heap with
    | none => selected
    | some (c, heap) =>
      if maxTransactionsPerBlock ≤ selected.length ∨ maxBlockSize ≤ totalSize then selected
      else
        let taken := if totalSize + c.size ≤ maxBlockSize then
            (p.transactions.lookup c.sender).bind fun txs => txs[c.entryIdx]?
          else none
        p.selectLoop fuel ((p.offerAt c.sender (c.cursor + 1)).toList ++ heap)
          (selected ++ (taken.map MempoolEntry.transaction).toList) (totalSize + if taken.isSome then c.size else 0)

/-- Every entry is popped once, which bounds the loop. -/
def getTransactionsForBlock (p : Mempool) : List Transaction :=
  p.selectLoop p.stored.length (p.transactions.keys.filterMap fun sender => p.offerAt sender 0) [] 0

/-! ### The global order -/

/-- Every entry with its sender and its place in the sender's bucket. -/
def positions (p : Mempool) : List (Text × ℕ × MempoolEntry) :=
  p.transactions.entries.flatMap fun bucket => bucket.2.zipIdx.map fun e => (bucket.1, e.2, e.1)

end Mempool

/-- Best paid first, as exact rationals; of one price the oldest, then by descending sender, then by place. -/
def feedFirst (a b : Text × ℕ × MempoolEntry) : Ordering :=
  (((compare b.2.2.rate a.2.2.rate).then (compare a.2.2.timestamp b.2.2.timestamp)).then (compare b.1 a.1)).then
    (compare a.2.1 b.2.1)

/-- Scan the entries in order, taking each that still fits, until the block is full. -/
def greedy : List MempoolEntry → ℕ → ℕ → List MempoolEntry
  | [], _, _ => []
  | e :: es, count, totalSize =>
    if maxTransactionsPerBlock ≤ count ∨ maxBlockSize ≤ totalSize then []
    else if totalSize + e.size ≤ maxBlockSize then e :: greedy es (count + 1) (totalSize + e.size)
    else greedy es count totalSize

instance : Std.TransCmp feedFirst :=
  inferInstanceAs (Std.TransCmp (compareLex (compareLex (compareLex
    (fun a b : Text × ℕ × MempoolEntry => compareOn (fun c => c.2.2.rate) b a)
    (compareOn fun c => c.2.2.timestamp)) fun a b => compareOn (fun c => c.1) b a) (compareOn fun c => c.2.1)))

/-! ### One queue -/

/-- A position and the cursor that stands at it. -/
abbrev Cursor := (Text × ℕ × MempoolEntry) × ℕ

def Cursor.candidate (c : Cursor) : FeedCandidate :=
  ⟨c.1.2.2.feePerByte, c.1.2.2.timestamp, c.1.1, c.1.2.2.size, c.1.2.1, c.2⟩

def exactFirst (a b : MempoolEntry × ℕ) : Ordering :=
  (compare b.1.rate a.1.rate).then (compare a.1.timestamp b.1.timestamp)

instance : Std.TransCmp exactFirst :=
  inferInstanceAs (Std.TransCmp (compareLex (fun a b : MempoolEntry × ℕ => compareOn (fun e => e.1.rate) b a)
    (compareOn fun e => e.1.timestamp)))

/-- The queue of a sender, in order. -/
def queue (sender : Text) (txs : List MempoolEntry) : List Cursor :=
  (sort exactFirst txs.zipIdx).zipIdx.map fun e => ((sender, e.1.2, e.1.1), e.2)

theorem queue_getElem? (sender : Text) (txs : List MempoolEntry) (k : ℕ) :
    (queue sender txs)[k]? = (sort exactFirst txs.zipIdx)[k]?.map fun e => ((sender, e.2, e.1), k) := by
  rw [queue, List.getElem?_map, List.getElem?_zipIdx, Option.map_map, Nat.zero_add]
  rfl

theorem queue_length (sender : Text) (txs : List MempoolEntry) : (queue sender txs).length = txs.length := by
  rw [queue, List.length_map, List.length_zipIdx, sort, List.length_mergeSort, List.length_zipIdx]

theorem mem_zipIdx_sort {txs : List MempoolEntry} {e : MempoolEntry} {i : ℕ} :
    (e, i) ∈ sort exactFirst txs.zipIdx ↔ txs[i]? = some e := by
  rw [mem_sort, List.mk_mem_zipIdx_iff_getElem?]

theorem queue_positions (sender : Text) (txs : List MempoolEntry) :
    ((queue sender txs).map Prod.fst).Perm (txs.zipIdx.map fun e => (sender, e.2, e.1)) := by
  have hfst : (queue sender txs).map Prod.fst = (sort exactFirst txs.zipIdx).map fun e => (sender, e.2, e.1) := by
    rw [queue, List.map_map]
    conv_rhs => rw [← List.zipIdx_map_fst 0 (sort exactFirst txs.zipIdx), List.map_map]
    rfl
  rw [hfst]
  exact (sort_perm _).map _

/-- Stability makes the place in the bucket the last key. -/
theorem queue_sorted (sender : Text) (txs : List MempoolEntry) :
    (queue sender txs).Pairwise fun a b => (feedFirst a.1 b.1).isLE = true := by
  have hnodup : txs.zipIdx.Nodup := List.Nodup.of_map Prod.snd (by
    rw [List.zipIdx_map_snd]
    exact List.nodup_range')
  have hplaces : txs.zipIdx.Pairwise fun a b => a.2 < b.2 := by
    rw [← List.pairwise_map (f := Prod.snd), List.zipIdx_map_snd]
    exact List.pairwise_lt_range'
  have hstable : (sort exactFirst txs.zipIdx).Pairwise _ := sort_stable hnodup hplaces
  rw [← List.zipIdx_map_fst 0 (sort exactFirst txs.zipIdx), List.pairwise_map] at hstable
  rw [queue, List.pairwise_map]
  refine hstable.imp fun {a b} h => ?_
  change ((((compare b.1.1.rate a.1.1.rate).then (compare a.1.1.timestamp b.1.1.timestamp)).then
    (compare sender sender)).then (compare a.1.2 b.1.2)).isLE = true
  rw [Std.ReflOrd.compare_self, Ordering.then_eq]
  change ((exactFirst a.1 b.1).then _).isLE = true
  rcases h with hlt | ⟨heq, hplace⟩
  · rw [hlt]
    rfl
  · rw [heq, Ordering.eq_then, compare_lt_iff_lt.mpr hplace]
    rfl

/-! ### The heap, in cursors -/

section

variable {p : Mempool}

def nextCursor (p : Mempool) (c : Cursor) : Option Cursor :=
  (p.transactions.lookup c.1.1).bind fun txs => (queue c.1.1 txs)[c.2 + 1]?

/-- The cursor stands where it says. -/
def Placed (p : Mempool) (c : Cursor) : Prop :=
  ∃ txs, p.transactions.lookup c.1.1 = some txs ∧ (queue c.1.1 txs)[c.2]? = some c

theorem placed_of_getElem? {sender : Text} {txs : List MempoolEntry} {k : ℕ} {c : Cursor}
    (hlook : p.transactions.lookup sender = some txs) (hc : (queue sender txs)[k]? = some c) :
    c.1.1 = sender ∧ c.2 = k ∧ Placed p c := by
  have hplace := hc
  rw [queue_getElem?, Option.map_eq_some_iff] at hplace
  obtain ⟨e, -, rfl⟩ := hplace
  exact ⟨rfl, rfl, txs, hlook, hc⟩

theorem placed_next {c c' : Cursor} (h : nextCursor p c = some c') : Placed p c' := by
  obtain ⟨txs, hlook, hc⟩ := Option.bind_eq_some_iff.mp h
  exact (placed_of_getElem? hlook hc).2.2

/-- In the bucket, at the index, lies the entry. -/
theorem Placed.entry {c : Cursor} (h : Placed p c) :
    ((p.transactions.lookup c.1.1).bind fun txs => txs[c.1.2.1]?) = some c.1.2.2 := by
  obtain ⟨txs, hlook, hc⟩ := h
  rw [queue_getElem?, Option.map_eq_some_iff] at hc
  obtain ⟨⟨e, i⟩, he, heq⟩ := hc
  have hmem := mem_zipIdx_sort.mp (List.mem_of_getElem? he)
  rw [hlook, Option.bind_some, ← heq]
  exact hmem

/-- The order that the source computes is that of the queue. -/
theorem WellKept.senderOrder_eq (h : WellKept M owner p) (hM : EncodesSome M) {sender : Text} {txs : List MempoolEntry}
    (hlook : p.transactions.lookup sender = some txs) :
    senderOrder txs = (sort exactFirst txs.zipIdx).map Prod.snd := by
  have hrange : txs.zipIdx.map Prod.snd = List.range txs.length := by
    rw [List.zipIdx_map_snd, List.range_eq_range']
  rw [senderOrder, ← hrange]
  symm
  refine map_sort fun a ha b hb => ?_
  have ha' := List.mk_mem_zipIdx_iff_getElem?.mp ha
  have hb' := List.mk_mem_zipIdx_iff_getElem?.mp hb
  have ea := h.filed sender txs hlook a.1 (List.mem_of_getElem? ha')
  have eb := h.filed sender txs hlook b.1 (List.mem_of_getElem? hb')
  simp only [ha', hb', Option.map_some, Option.getD_some]
  unfold bestFirst
  rw [ea.feePerByte, eb.feePerByte,
    FeePerByte.cmp_eq eb.bounded ea.bounded (hM _ _ eb.size) (hM _ _ ea.size) eb.small ea.small]
  rfl

theorem WellKept.offerAt_eq (h : WellKept M owner p) (hM : EncodesSome M) {sender : Text} {txs : List MempoolEntry}
    (hlook : p.transactions.lookup sender = some txs) (k : ℕ) :
    p.offerAt sender k = (queue sender txs)[k]?.map Cursor.candidate := by
  unfold offerAt offer
  rw [hlook, Option.map_some, Option.bind_some, h.senderOrder_eq hM hlook, List.getElem?_map, queue_getElem?]
  cases hget : (sort exactFirst txs.zipIdx)[k]? with
  | none => rfl
  | some e =>
    have hmem : txs[e.2]? = some e.1 := mem_zipIdx_sort.mp (List.mem_of_getElem? hget)
    simp only [Option.map_some, Option.bind_some, hmem]
    rfl

theorem WellKept.offerAt_next (h : WellKept M owner p) (hM : EncodesSome M) {c : Cursor} (hc : Placed p c) :
    p.offerAt c.1.1 (c.2 + 1) = (nextCursor p c).map Cursor.candidate := by
  obtain ⟨txs, hlook, -⟩ := hc
  rw [h.offerAt_eq hM hlook, nextCursor, hlook, Option.bind_some]

/-- **The loop is the greedy scan** of what the heap merge visits. -/
theorem WellKept.selectLoop_eq (h : WellKept M owner p) (hM : EncodesSome M) : ∀ {fuel : ℕ} {heap : List Cursor}
    {selected : List Transaction} {totalSize : ℕ}, (∀ c ∈ heap, Placed p c) →
    p.selectLoop fuel (heap.map Cursor.candidate) selected totalSize = selected ++
      (greedy ((merge (fun a b => (Cursor.candidate a).before (Cursor.candidate b)) (nextCursor p) fuel heap).map
        fun c => c.1.2.2) selected.length totalSize).map MempoolEntry.transaction
  | 0, heap, selected, totalSize, _ => by
    rw [selectLoop, merge, List.map_nil, greedy, List.map_nil, List.append_nil]
  | fuel + 1, heap, selected, totalSize, hheap => by
    rw [selectLoop, merge, extract_map]
    cases hextract : extract (fun a b => (Cursor.candidate a).before (Cursor.candidate b)) heap with
    | none => simp only [Option.map_none, List.map_nil, greedy, List.append_nil]
    | some found =>
      obtain ⟨c, rest⟩ := found
      have hperm := extract_perm hextract
      have hc : Placed p c := hheap c (hperm.mem_iff.mp List.mem_cons_self)
      have hrest : ∀ d ∈ (nextCursor p c).toList ++ rest, Placed p d := by
        intro d hd
        rcases List.mem_append.mp hd with hd | hd
        · exact placed_next (Option.mem_toList.mp hd)
        · exact hheap d (hperm.mem_iff.mp (List.mem_cons_of_mem _ hd))
      have hheap' : (p.offerAt c.1.1 (c.2 + 1)).toList ++ rest.map Cursor.candidate =
          ((nextCursor p c).toList ++ rest).map Cursor.candidate := by
        rw [h.offerAt_next hM hc, List.map_append]
        cases nextCursor p c <;> rfl
      simp only [Option.map_some, List.map_cons, greedy]
      by_cases hfull : maxTransactionsPerBlock ≤ selected.length ∨ maxBlockSize ≤ totalSize
      · rw [if_pos hfull, if_pos hfull, List.map_nil, List.append_nil]
      · rw [if_neg hfull, if_neg hfull]
        have hentry : ((p.transactions.lookup c.candidate.sender).bind fun txs => txs[c.candidate.entryIdx]?) =
          some c.1.2.2 := hc.entry
        rw [hentry]
        change p.selectLoop fuel ((p.offerAt c.1.1 (c.2 + 1)).toList ++ rest.map Cursor.candidate) _ _ = _
        rw [hheap', h.selectLoop_eq hM hrest]
        by_cases hfits : totalSize + c.1.2.2.size ≤ maxBlockSize
        · have hfits' : totalSize + c.candidate.size ≤ maxBlockSize := hfits
          rw [if_pos hfits, if_pos hfits']
          simp [Cursor.candidate]
        · have hfits' : ¬ totalSize + c.candidate.size ≤ maxBlockSize := hfits
          rw [if_neg hfits, if_neg hfits']
          simp

/-- Between queues of two senders the heap compares as the global order does. -/
theorem WellKept.before_eq (h : WellKept M owner p) (hM : EncodesSome M) {c d : Cursor} (hc : Placed p c)
    (hd : Placed p d) (hne : c.1.1 ≠ d.1.1) :
    (Cursor.candidate c).before (Cursor.candidate d) = (feedFirst c.1 d.1).isLE := by
  have hadmitted : ∀ {c : Cursor}, Placed p c → AsAdmitted M c.1.1 c.1.2.2 := by
    intro c hc
    obtain ⟨txs, hlook, hget⟩ := Option.bind_eq_some_iff.mp hc.entry
    exact h.filed _ _ hlook _ (List.mem_of_getElem? hget)
  have ec := hadmitted hc
  have ed := hadmitted hd
  have hrate : d.1.2.2.feePerByte.cmp c.1.2.2.feePerByte = compare d.1.2.2.rate c.1.2.2.rate := by
    rw [ec.feePerByte, ed.feePerByte]
    exact FeePerByte.cmp_eq ed.bounded ec.bounded (hM _ _ ed.size) (hM _ _ ec.size) ed.small ec.small
  unfold FeedCandidate.before FeedCandidate.cmp feedFirst
  dsimp only [Cursor.candidate]
  rw [hrate]
  -- the senders decide at the latest
  have hsenders : compare d.1.1 c.1.1 ≠ .eq := fun heq => hne (Std.LawfulEqOrd.eq_of_compare heq).symm
  generalize compare d.1.1 c.1.1 = o at hsenders
  generalize (compare d.1.2.2.rate c.1.2.2.rate).then (compare c.1.2.2.timestamp d.1.2.2.timestamp) = o'
  cases o' <;> cases o <;> first | rfl | exact absurd rfl hsenders

def queues (p : Mempool) : List (List Cursor) := p.transactions.entries.map fun bucket => queue bucket.1 bucket.2

def firsts (p : Mempool) : List Cursor := p.transactions.entries.filterMap fun bucket => (queue bucket.1 bucket.2)[0]?

theorem placed_of_mem_queue {sender : Text} {txs : List MempoolEntry} (hlook : p.transactions.lookup sender = some txs)
    {c : Cursor} (hc : c ∈ queue sender txs) : c.1.1 = sender ∧ Placed p c := by
  obtain ⟨k, hk⟩ := List.mem_iff_getElem?.mp hc
  obtain ⟨hsender, -, hplaced⟩ := placed_of_getElem? hlook hk
  exact ⟨hsender, hplaced⟩

theorem lookup_of_mem_entries {bucket : Sigma fun _ : Text => List MempoolEntry} (h : bucket ∈ p.transactions.entries) :
    p.transactions.lookup bucket.1 = some bucket.2 := AList.mem_lookup_iff.mpr h

theorem WellKept.chains (h : WellKept M owner p) : List.Forall₂ (Chain (nextCursor p)) (firsts p) (queues p) := by
  have hall : ∀ buckets : List (Sigma fun _ : Text => List MempoolEntry),
      (∀ b ∈ buckets, p.transactions.lookup b.1 = some b.2) →
      List.Forall₂ (Chain (nextCursor p)) (buckets.filterMap fun b => (queue b.1 b.2)[0]?)
        (buckets.map fun b => queue b.1 b.2) := by
    intro buckets hbuckets
    induction buckets with
    | nil => exact .nil
    | cons b buckets ih =>
      rw [List.forall_mem_cons] at hbuckets
      obtain ⟨hlook, hbuckets⟩ := hbuckets
      have hlength : 0 < (queue b.1 b.2).length := by
        rw [queue_length]
        exact List.length_pos_iff.mpr (h.consistent.nonempty b.1 b.2 hlook)
      have hfirst := List.getElem?_eq_getElem hlength
      rw [List.filterMap_cons, hfirst, List.map_cons]
      refine .cons ?_ (ih hbuckets)
      have hmoves : ∀ k c, (queue b.1 b.2)[k]? = some c → nextCursor p c = (queue b.1 b.2)[k + 1]? := by
        intro k c hc
        obtain ⟨hsender, hcursor, -⟩ := placed_of_getElem? hlook hc
        rw [nextCursor, hsender, hcursor, hlook, Option.bind_some]
      have hchain := chain_drop hmoves hfirst
      rwa [List.drop_zero] at hchain
  exact hall _ fun b hb => lookup_of_mem_entries hb

theorem WellKept.firsts_eq (h : WellKept M owner p) (hM : EncodesSome M) :
    (p.transactions.keys.filterMap fun sender => p.offerAt sender 0) = (firsts p).map Cursor.candidate := by
  rw [AList.keys, List.keys, List.filterMap_map, firsts, List.map_filterMap]
  refine List.filterMap_congr fun b hb => ?_
  exact h.offerAt_eq hM (lookup_of_mem_entries hb) 0

theorem queues_positions : (((queues p).flatten).map Prod.fst).Perm p.positions := by
  unfold queues positions
  induction p.transactions.entries with
  | nil => exact List.Perm.refl _
  | cons b buckets ih =>
    rw [List.map_cons, List.flatten_cons, List.map_append, List.flatMap_cons]
    exact (queue_positions b.1 b.2).append ih

theorem mem_positions {c : Text × ℕ × MempoolEntry} :
    c ∈ p.positions ↔ ∃ txs, p.transactions.lookup c.1 = some txs ∧ txs[c.2.1]? = some c.2.2 := by
  unfold positions
  constructor
  · intro hc
    obtain ⟨b, hb, hc⟩ := List.mem_flatMap.mp hc
    obtain ⟨⟨e, i⟩, he, rfl⟩ := List.mem_map.mp hc
    exact ⟨b.2, lookup_of_mem_entries hb, List.mk_mem_zipIdx_iff_getElem?.mp he⟩
  · rintro ⟨txs, hlook, hget⟩
    refine List.mem_flatMap.mpr ⟨⟨c.1, txs⟩, AList.mem_lookup_iff.mp hlook, ?_⟩
    exact List.mem_map.mpr ⟨(c.2.2, c.2.1), List.mk_mem_zipIdx_iff_getElem?.mpr hget, rfl⟩

/-- A sender and a place belong to one entry. -/
theorem positions_self : ∀ a ∈ p.positions, ∀ b ∈ p.positions, feedFirst a b = .eq → a = b := by
  intro a ha b hb heq
  unfold feedFirst at heq
  rw [Ordering.then_eq_eq, Ordering.then_eq_eq] at heq
  obtain ⟨⟨-, hsender⟩, hplace⟩ := heq
  have hsender' := Std.LawfulEqOrd.eq_of_compare hsender
  have hplace' := Std.LawfulEqOrd.eq_of_compare hplace
  obtain ⟨txs, hlook, hget⟩ := mem_positions.mp ha
  obtain ⟨txs', hlook', hget'⟩ := mem_positions.mp hb
  rw [hsender', hlook] at hlook'
  cases hlook'
  rw [← hplace', hget] at hget'
  exact Prod.ext hsender'.symm (Prod.ext hplace' (Option.some.inj hget'))

/-- **The heap merge visits all entries in the global order.** -/
theorem WellKept.merge_positions (h : WellKept M owner p) (hM : EncodesSome M) :
    (merge (fun a b => (Cursor.candidate a).before (Cursor.candidate b)) (nextCursor p) p.stored.length
      (firsts p)).map Prod.fst = sort feedFirst p.positions := by
  have hlength : (queues p).flatten.length = p.stored.length := by
    rw [← List.length_map (f := Prod.fst), queues_positions.length_eq]
    simp [positions, stored, Table.values, List.length_flatten, List.length_flatMap, Function.comp_def]
  have hsorted : ∀ l ∈ queues p, l.Pairwise fun a b => (feedFirst a.1 b.1).isLE = true := by
    intro l hl
    obtain ⟨b, -, rfl⟩ := List.mem_map.mp hl
    exact queue_sorted b.1 b.2
  have hagree : (queues p).Pairwise (Agree (fun a b => (Cursor.candidate a).before (Cursor.candidate b))
      fun a b => feedFirst a.1 b.1) := by
    have hkeys : p.transactions.entries.Pairwise fun a b => a.1 ≠ b.1 :=
      List.pairwise_map.mp p.transactions.nodupKeys
    refine List.pairwise_map.mpr (hkeys.imp_of_mem fun {b b'} hb hb' hne c hc d hd => ?_)
    obtain ⟨hcs, hc'⟩ := placed_of_mem_queue (lookup_of_mem_entries hb) hc
    obtain ⟨hds, hd'⟩ := placed_of_mem_queue (lookup_of_mem_entries hb') hd
    have hne' : c.1.1 ≠ d.1.1 := by rwa [hcs, hds]
    exact ⟨h.before_eq hM hc' hd' hne', h.before_eq hM hd' hc' hne'.symm⟩
  have : Std.TransCmp fun a b : Cursor => feedFirst a.1 b.1 := {
    eq_swap := fun {a b} => (Std.OrientedCmp.eq_swap : feedFirst a.1 b.1 = (feedFirst b.1 a.1).swap)
    isLE_trans := fun {a b c} (h : (feedFirst a.1 b.1).isLE) h' =>
      (Std.TransCmp.isLE_trans h h' : (feedFirst a.1 c.1).isLE) }
  obtain ⟨hperm, horder⟩ := merge_sorted h.chains hlength.le hsorted hagree
  have hperm' := (hperm.map Prod.fst).trans queues_positions
  refine sort_eq hperm' (List.pairwise_map.mpr horder) fun a ha b hb => ?_
  exact positions_self a (hperm'.mem_iff.mp ha) b (hperm'.mem_iff.mp hb)

end

/-! ### The scan -/

theorem greedy_sublist : ∀ (es : List MempoolEntry) (count totalSize : ℕ), (greedy es count totalSize).Sublist es
  | [], _, _ => List.Sublist.refl _
  | e :: es, count, totalSize => by
    rw [greedy]
    split_ifs
    · exact List.nil_sublist _
    · exact (greedy_sublist es _ _).cons_cons e
    · exact (greedy_sublist es _ _).cons e

theorem greedy_length : ∀ (es : List MempoolEntry) (count totalSize : ℕ),
    (greedy es count totalSize).length ≤ maxTransactionsPerBlock - count
  | [], _, _ => Nat.zero_le _
  | e :: es, count, totalSize => by
    rw [greedy]
    split_ifs with hfull
    · exact Nat.zero_le _
    · have ih := greedy_length es (count + 1) (totalSize + e.size)
      rw [List.length_cons]
      omega
    · exact greedy_length es count totalSize

theorem greedy_size : ∀ (es : List MempoolEntry) (count : ℕ) {totalSize : ℕ}, totalSize ≤ maxBlockSize →
    totalSize + entriesSize (greedy es count totalSize) ≤ maxBlockSize
  | [], _, _, h => h
  | e :: es, count, totalSize, h => by
    rw [greedy]
    split_ifs with hfull hfits
    · exact h
    · have ih := greedy_size es (count + 1) hfits
      have hcons : entriesSize (e :: greedy es (count + 1) (totalSize + e.size)) =
          e.size + entriesSize (greedy es (count + 1) (totalSize + e.size)) := by simp [entriesSize]
      omega
    · exact greedy_size es count h

/-! ### The result -/

theorem WellKept.getTransactionsForBlock_eq {p : Mempool} (h : WellKept M owner p) (hM : EncodesSome M) :
    p.getTransactionsForBlock =
      (greedy ((sort feedFirst p.positions).map fun c => c.2.2) 0 0).map MempoolEntry.transaction := by
  have hplaced : ∀ c ∈ firsts p, Placed p c := by
    intro c hc
    obtain ⟨b, hb, hget⟩ := List.mem_filterMap.mp hc
    exact (placed_of_getElem? (lookup_of_mem_entries hb) hget).2.2
  rw [getTransactionsForBlock, h.firsts_eq hM, h.selectLoop_eq hM hplaced, List.nil_append, List.length_nil,
    ← h.merge_positions hM, List.map_map]
  rfl

/-- What is selected lies in the pool, each entry once. -/
theorem WellKept.sorted_stored {p : Mempool} :
    ((sort feedFirst p.positions).map fun c => c.2.2).Perm p.stored := by
  have hpositions : (p.positions.map fun c => c.2.2) = p.stored := by
    rw [stored_eq]
    unfold positions listing
    induction p.transactions.entries with
    | nil => rfl
    | cons b buckets ih =>
      rw [List.flatMap_cons, List.flatMap_cons, List.map_append, List.map_append, ih, List.map_map, List.map_map]
      congr 1
      exact (List.zipIdx_map_fst 0 b.2).trans (List.map_id b.2).symm
  rw [← hpositions]
  exact (sort_perm _).map _

/-- **The feed is the global greedy.** In every pool that a run reaches, the block is fed what a scan of all entries
in the global order takes: at most 2,000 transactions, all different, of at most 2,000,000 bytes. -/
theorem block_feed_greedy (hM : EncodesSome M) (ops : List MempoolOp)
    (hids : ∀ a, (∃ op ∈ ops, a ∈ op.transaction) → ∀ b, (∃ op ∈ ops, b ∈ op.transaction) →
      getTxId M.toEnv a = getTxId M.toEnv b → a.sender = b.sender)
    (hfees : ∀ a, (∃ op ∈ ops, a ∈ op.transaction) → FeeBounded a) :
    let p := ops.foldl (Mempool.step M) Mempool.new
    p.getTransactionsForBlock =
        (greedy ((sort feedFirst p.positions).map fun c => c.2.2) 0 0).map MempoolEntry.transaction ∧
      p.getTransactionsForBlock.length ≤ maxTransactionsPerBlock ∧
      (p.getTransactionsForBlock.map (getTxId M.toEnv)).Nodup ∧
      (p.getTransactionsForBlock.map fun tx => (M.serializedLen tx).getD 0).sum ≤ maxBlockSize := by
  intro p
  obtain ⟨owner, howner⟩ := exists_owner hids
  have h : WellKept M owner p := run_wellKept hM ops new_wellKept fun op hop a ha =>
    ⟨howner a ⟨op, hop, ha⟩, hfees a ⟨op, hop, ha⟩⟩
  have heq := h.getTransactionsForBlock_eq hM
  set all := (sort feedFirst p.positions).map fun c => c.2.2 with hall
  have hperm : all.Perm p.stored := WellKept.sorted_stored
  have hadmitted : ∀ e ∈ greedy all 0 0, AsAdmitted M e.transaction.sender e := fun e he =>
    h.entry (h.mem_listing_of (hperm.mem_iff.mp ((greedy_sublist all 0 0).subset he)))
  refine ⟨heq, ?_, ?_, ?_⟩
  · rw [heq, List.length_map]
    exact greedy_length all 0 0
  · have hids : ((greedy all 0 0).map fun e => getTxId M.toEnv e.transaction) = ids (greedy all 0 0) :=
      List.map_congr_left fun e he => (hadmitted e he).txId.symm
    rw [heq, List.map_map]
    change ((greedy all 0 0).map fun e => getTxId M.toEnv e.transaction).Nodup
    rw [hids]
    exact ((hperm.map MempoolEntry.txId).nodup_iff.mpr h.consistent.lockstep.once).sublist
      ((greedy_sublist all 0 0).map _)
  · have hsizes : ((greedy all 0 0).map fun e => (M.serializedLen e.transaction).getD 0) =
        (greedy all 0 0).map MempoolEntry.size :=
      List.map_congr_left fun e he => by rw [(hadmitted e he).size, Option.getD_some]
    rw [heq, List.map_map]
    change ((greedy all 0 0).map fun e => (M.serializedLen e.transaction).getD 0).sum ≤ _
    rw [hsizes]
    have := greedy_size all 0 (Nat.zero_le maxBlockSize)
    rwa [Nat.zero_add] at this

open MempoolSample in
/-- Two payments in the pool: the dearer one is fed first, and the one of the sender who paid before after it. -/
theorem block_feed_greedy_two :
    let p := traffic.foldl (Mempool.step env) Mempool.new
    p.getTransactionsForBlock = [dearer, second] ∧
      (greedy ((sort feedFirst p.positions).map fun c => c.2.2) 0 0).map MempoolEntry.transaction = [dearer, second] ∧
      ([dearer, second].map (getTxId env.toEnv)).Nodup := by
  intro p
  have hfees : ∀ tx ∈ payments, FeeBounded tx := by
    unfold FeeBounded
    decide
  have hpayment : ∀ a, (∃ op ∈ traffic, a ∈ op.transaction) → a ∈ payments :=
    fun a ⟨op, hop, ha⟩ => traffic_payments op hop a ha
  have hencodes : EncodesSome env := by
    intro tx size hsize
    cases hsize
    decide
  have hfeed : p.getTransactionsForBlock = [dearer, second] := by decide +kernel
  obtain ⟨hgreedy, -, hnodup, -⟩ := block_feed_greedy hencodes traffic
    (fun a ha b hb => payments_sender a (hpayment a ha) b (hpayment b hb)) (fun a ha => hfees a (hpayment a ha))
  exact ⟨hfeed, hgreedy.symm.trans hfeed, hfeed ▸ hnodup⟩

end Alphanumeric
