/-
# The balances index refines the chain

Whenever no tip extension is in progress and the chain is not dirty, the balances tree is
the replay from genesis of the canonical blocks up to the marker. This needs one thing of
the schedule that no lock gives: upkeep that has found the chain clean must not still be at
work when a tip extension begins (`Undisturbed`). Otherwise it sees the extension's marker
ahead of the old tip, rebuilds the old index over the new one, and the next extension then
applies its block on a lagging index.

Key definitions: `Content`, `Refines`, `Undisturbed`, `IndexInv`.
Key theorems: `catchUpBlock_content`, `publish_content`, `index_refines_chain`,
`overlapping_upkeep_loses_a_block`.
-/
import Alphanumeric.BalancesIndex

namespace Alphanumeric

open Guard BlockchainError ChainState

variable {E : Env}

/-! ### Replay reads and writes the touched addresses only -/

theorem touched_cons (tx : Transaction) (txs : List Transaction) :
    touched (tx :: txs) = touched [tx] ++ touched txs := by
  simp [touched]

theorem txDelta_untouched {tx : Transaction} {a : Text} (h : a ∉ touched [tx]) : txDelta tx a = 0 := by
  unfold txDelta
  by_cases hcb : tx.isCoinbase = true
  · have hr : a ≠ tx.recipient := by simpa [touched, hcb] using h
    rw [if_pos hcb, credit_apply, if_neg hr, add_zero]
  · have hsr : a ≠ tx.sender ∧ a ≠ tx.recipient := by simpa [touched, hcb] using h
    rw [if_neg hcb, credit_apply, credit_apply, if_neg hsr.1, if_neg hsr.2, add_zero, add_zero]

theorem blockDelta_untouched : ∀ {txs : List Transaction} {a : Text}, a ∉ touched txs → blockDelta txs a = 0
  | [], _, _ => rfl
  | tx :: txs, a, h => by
    rw [touched_cons, List.mem_append, not_or] at h
    have ih := blockDelta_untouched h.2
    unfold blockDelta at ih ⊢
    rw [List.map_cons, List.sum_cons, ih, txDelta_untouched h.1, add_zero]

theorem chainDelta_untouched {a : Text} :
    ∀ {bs : List Block}, a ∉ bs.flatMap (fun b => touched b.transactions) → chainDelta bs a = 0
  | [], _ => rfl
  | b :: bs, h => by
    rw [List.flatMap_cons, List.mem_append, not_or] at h
    have ih := chainDelta_untouched h.2
    unfold chainDelta at ih ⊢
    rw [List.map_cons, List.sum_cons, ih, blockDelta_untouched h.1, add_zero]

/-- Two ledgers that agree on a transaction's sender accept it alike. -/
theorem replayApplyTx_local {height : ℕ} {bal bal' : Balances} {recent : Recent} {tx : Transaction}
    {st : Balances × Recent} (hag : ∀ a ∈ touched [tx], bal a = bal' a)
    (h : replayApplyTx height (bal, recent) tx = .ok st) :
    replayApplyTx height (bal', recent) tx =
      .ok ((fun a => bal' a + txDelta tx a), recent ++ coinbasesAt height [tx]) := by
  by_cases hcb : tx.isCoinbase = true
  · simp [replayApplyTx, hcb, txDelta_coinbase hcb, coinbasesAt]
  · rw [Bool.not_eq_true] at hcb
    have hsender : bal tx.sender = bal' tx.sender := hag _ (by simp [touched, hcb])
    have hle := ((replayApplyTx_regular hcb).mp h).1
    rw [hsender] at hle
    refine (replayApplyTx_regular hcb).mpr ⟨hle, ?_⟩
    simp [coinbasesAt, hcb]

theorem replayApplyTxs_local {height : ℕ} :
    ∀ {txs : List Transaction} {bal bal' : Balances} {recent : Recent} {st : Balances × Recent},
      (∀ a ∈ touched txs, bal a = bal' a) → replayApplyTxs height txs (bal, recent) = .ok st →
      replayApplyTxs height txs (bal', recent) =
        .ok ((fun a => bal' a + blockDelta txs a), recent ++ coinbasesAt height txs)
  | [], bal, bal', recent, st, _, _ => by simp [replayApplyTxs, blockDelta, coinbasesAt]
  | tx :: txs, bal, bal', recent, st, hag, h => by
    rw [touched_cons] at hag
    unfold replayApplyTxs at h ⊢
    obtain ⟨st₁, h₁, h⟩ := bind_eq_ok.mp h
    have hst₁ := replayApplyTx_ok h₁
    rw [replayApplyTx_local (fun a ha => hag a (List.mem_append_left _ ha)) h₁, ok_bind]
    rw [hst₁] at h
    have hag' : ∀ a ∈ touched txs, (fun a => bal a + txDelta tx a) a = (fun a => bal' a + txDelta tx a) a := by
      intro a ha
      show bal a + txDelta tx a = bal' a + txDelta tx a
      rw [hag a (List.mem_append_right _ ha)]
    rw [replayApplyTxs_local hag' h, coinbasesAt_cons height tx txs]
    simp only [blockDelta, List.map_cons, List.sum_cons, add_assoc, List.append_assoc]

theorem replayApplyBlockChecked_local {height : ℕ} {txs : List Transaction} {bal bal' : Balances}
    {recent : Recent} {st : Balances × Recent} (hag : ∀ a ∈ touched txs, bal a = bal' a)
    (h : replayApplyBlockChecked height txs (bal, recent) = .ok st) :
    replayApplyBlockChecked height txs (bal', recent) =
      .ok ((fun a => bal' a + blockDelta txs a), popMature height recent ++ coinbasesAt height txs) :=
  replayApplyTxs_local hag h

theorem replayBlocks_local :
    ∀ {bs : List Block} {bal bal' : Balances} {recent : Recent},
      (∀ a ∈ bs.flatMap (fun b => touched b.transactions), bal a = bal' a) →
      (replayBlocks bs (bal, recent)).isOk = true → (replayBlocks bs (bal', recent)).isOk = true
  | [], _, _, _, _, _ => rfl
  | b :: bs, bal, bal', recent, hag, h => by
    obtain ⟨st, hst⟩ := exists_ok_of_isOk h
    rw [List.flatMap_cons] at hag
    unfold replayBlocks at hst ⊢
    obtain ⟨st₁, h₁, hrest⟩ := bind_eq_ok.mp hst
    have hst₁ := replayApplyBlockChecked_ok h₁
    rw [replayApplyBlockChecked_local (fun a ha => hag a (List.mem_append_left _ ha)) h₁, ok_bind]
    rw [hst₁] at hrest
    have hag' : ∀ a ∈ bs.flatMap (fun b => touched b.transactions),
        (fun a => bal a + blockDelta b.transactions a) a = bal' a + blockDelta b.transactions a := by
      intro a ha
      show bal a + _ = bal' a + _
      rw [hag a (List.mem_append_right _ ha)]
    refine replayBlocks_local hag' ?_
    rw [hrest]
    rfl

/-! ### What the tree holds -/

/-- The tree holds the replay of the first `n` canonical blocks. -/
def Content (slots : List Block) (n : ℕ) (t : Tree) : Prop :=
  ∃ recent, replayChain (slots.take n) = .ok (t.read, recent)

/-- The window a replay of the first `n` slots ends in. -/
theorem replayChain_take_recent {slots : List Block} (hs : Slotted slots) {n : ℕ} (hn : n ≤ slots.length)
    {st : Balances × Recent} (h : replayChain (slots.take n) = .ok st) : st.2 = seedRecent slots n := by
  have hstart : replayBlocks (slots.take n) (fun _ => 0, seedRecent [] ([] : List Block).length) = .ok st := h
  rw [replayBlocks_recent (slots.take n) [] (by simpa using slotted_take hs n) hstart]
  have htake : (slots.take n).length = n := by simpa using hn
  simp only [List.nil_append, seedRecent, htake, List.take_take, min_self]

theorem replayChain_take_succ {slots : List Block} (hs : Slotted slots) {n : ℕ} {b : Block}
    (hb : slots[n]? = some b) {t : Tree} (ht : Content slots n t) :
    replayChain (slots.take (n + 1)) =
      replayApplyBlockChecked b.index b.transactions (t.read, seedRecent slots n) := by
  obtain ⟨recent, hrec⟩ := ht
  have hlt : n < slots.length := (List.getElem?_eq_some_iff.mp hb).1
  have hwin : recent = seedRecent slots n := replayChain_take_recent hs (by omega) hrec
  have hsplit : slots.take (n + 1) = slots.take n ++ [b] := by
    rw [List.take_add_one, hb]
    rfl
  unfold replayChain at hrec ⊢
  rw [hsplit, replayBlocks_append, hrec, ok_bind, replayBlocks_singleton, hwin]

theorem tree_write_read {t : Tree} {txs : List Transaction} {bal : Balances}
    (h : ∀ a ∈ touched txs, bal a = t.read a + blockDelta txs a) :
    (t.write (touched txs) bal).read = fun a => t.read a + blockDelta txs a := by
  funext a
  unfold Tree.read Tree.write
  by_cases ha : a ∈ touched txs
  · rw [if_pos ha]
    exact h a ha
  · rw [if_neg ha, blockDelta_untouched ha, add_zero]

/-! ### Catch-up -/

namespace IndexedChain

/-- Every cached value is the value in the tree. -/
def Agrees (cache t : Tree) : Prop := ∀ a units, cache a = some units → t.read a = units

theorem agrees_empty (t : Tree) : Agrees (fun _ => none) t := by
  intro a units h
  simp at h

theorem loadCache_agrees {t cache : Tree} {keys : List Text} (h : Agrees cache t) :
    Agrees (loadCache t keys cache) t := by
  intro a units ha
  unfold loadCache at ha
  cases hc : cache a with
  | some v =>
    simp only [hc, Option.some.injEq] at ha
    exact ha ▸ h a v hc
  | none =>
    simp only [hc] at ha
    split_ifs at ha
    cases ha
    rfl

theorem loadCache_read {t cache : Tree} {keys : List Text} (h : Agrees cache t) {a : Text}
    (ha : a ∈ keys) : (loadCache t keys cache).read a = t.read a := by
  cases hc : cache a with
  | some v => simp [Tree.read, loadCache, hc, ← h a v hc]
  | none => simp [Tree.read, loadCache, hc, ha]

/-- **A block of a catch-up** moves the tree from the replay below it to the replay with it. -/
theorem catchUpBlock_content {slots : List Block} (hs : Slotted slots) {t t' cache cache' : Tree}
    {recent recent' : Recent} {n : ℕ} (ht : Content slots n t) (hc : Agrees cache t)
    (hr : recent = seedRecent slots n)
    (h : catchUpBlock slots t cache recent n = some (t', cache', recent')) :
    n < slots.length ∧ Content slots (n + 1) t' ∧ Agrees cache' t' ∧ recent' = seedRecent slots (n + 1) := by
  unfold catchUpBlock at h
  cases hb : slots[n]? with
  | none => simp [hb] at h
  | some b =>
    have hlt : n < slots.length := (List.getElem?_eq_some_iff.mp hb).1
    simp only [hb] at h
    cases hrep : replayApplyBlockChecked b.index b.transactions
        ((loadCache t (touched b.transactions) cache).read, recent) with
    | error e => simp [hrep] at h
    | ok st =>
      simp only [hrep, Option.some.injEq, Prod.mk.injEq] at h
      obtain ⟨rfl, rfl, rfl⟩ := h
      have hst := replayApplyBlockChecked_ok hrep
      have hread : (t.write (touched b.transactions) st.1).read =
          fun a => t.read a + blockDelta b.transactions a := by
        refine tree_write_read fun a ha => ?_
        rw [hst]
        simp only [loadCache_read hc ha]
      have hnext : replayChain (slots.take (n + 1)) =
          .ok ((t.write (touched b.transactions) st.1).read,
            popMature b.index recent ++ coinbasesAt b.index b.transactions) := by
        rw [replayChain_take_succ hs hb ht, ← hr, hread]
        exact replayApplyBlockChecked_local (fun a ha => loadCache_read hc ha) hrep
      refine ⟨hlt, ⟨_, hnext⟩, fun a units ha => ?_, ?_⟩
      · obtain ⟨v, hv, rfl⟩ := Option.map_eq_some_iff.mp ha
        have hcached : (loadCache t (touched b.transactions) cache).read a = t.read a := by
          rw [loadCache_agrees hc a v hv, Tree.read, hv]
          rfl
        rw [hread, hst]
        exact congrArg (· + blockDelta b.transactions a) hcached.symm
      · have hwin := replayChain_take_recent hs (by omega) hnext
        rw [hst]
        exact hwin

theorem catchUpBlock_some {slots : List Block} (hs : Slotted slots) {t cache : Tree} {recent : Recent}
    {n : ℕ} (ht : Content slots n t) (hc : Agrees cache t) (hr : recent = seedRecent slots n)
    (hn : n < slots.length) (hok : (replayChain (slots.take (n + 1))).isOk = true) :
    (catchUpBlock slots t cache recent n).isSome = true := by
  have hb : slots[n]? = some slots[n] := List.getElem?_eq_getElem hn
  obtain ⟨st, hst⟩ := exists_ok_of_isOk hok
  rw [replayChain_take_succ hs hb ht] at hst
  unfold catchUpBlock
  simp only [hb, hr]
  rw [replayApplyBlockChecked_local (fun a ha => (loadCache_read hc ha).symm) hst]
  rfl

theorem take_isOk {slots : List Block} (h : (replayChain slots).isOk = true) (n : ℕ) :
    (replayChain (slots.take n)).isOk = true := by
  obtain ⟨st, hst⟩ := exists_ok_of_isOk h
  unfold replayChain at hst ⊢
  rw [← List.take_append_drop n slots, replayBlocks_append] at hst
  obtain ⟨st', hst', -⟩ := bind_eq_ok.mp hst
  rw [hst']
  rfl

/-- **Run lemma.** A catch-up over slots that replay reaches its last block. -/
theorem catchUpLoop_content {slots : List Block} (hs : Slotted slots)
    (hok : (replayChain slots).isOk = true) :
    ∀ (count n : ℕ) (marker : Option ℕ) {t cache : Tree} {recent : Recent}, n + count ≤ slots.length →
      Content slots n t → Agrees cache t → recent = seedRecent slots n →
      ∃ t' marker', catchUpLoop slots count n t cache recent marker = (t', marker', true) ∧
        Content slots (n + count) t' ∧ (0 < count → marker' = some (n + count - 1))
  | 0, n, marker, t, cache, recent, _, ht, _, _ => ⟨t, marker, rfl, ht, by simp⟩
  | count + 1, n, marker, t, cache, recent, hlen, ht, hc, hr => by
    obtain ⟨⟨t₁, cache₁, recent₁⟩, h₁⟩ := Option.isSome_iff_exists.mp
      (catchUpBlock_some hs ht hc hr (by omega) (take_isOk hok _))
    obtain ⟨-, ht₁, hc₁, hr₁⟩ := catchUpBlock_content hs ht hc hr h₁
    obtain ⟨t', marker', hloop, ht', hmarker⟩ :=
      catchUpLoop_content hs hok count (n + 1) (some n) (by omega) ht₁ hc₁ hr₁
    refine ⟨t', marker', ?_, ?_, fun _ => ?_⟩
    · simp only [catchUpLoop, h₁, hloop]
    · rwa [show n + (count + 1) = n + 1 + count by omega]
    · by_cases hz : count = 0
      · subst hz
        simp only [catchUpLoop, Prod.mk.injEq, and_true] at hloop
        rw [← hloop.2]
        rfl
      · rw [hmarker (by omega)]
        congr 1
        omega

/-! ### Rebuild -/

/-- How many slots a rebuild covers. -/
def coveredSlots (covered : Option ℕ) : ℕ := (covered.map (· + 1)).getD 0

theorem rebuild_some {slots : List Block} {t : Tree} {covered : Option ℕ} {r : Rebuilt}
    (h : rebuild E slots t covered = some r) :
    covered.all (· < slots.length) = true ∧ r.covered = covered.getD 0 ∧
      r.keys = (slots.take (coveredSlots covered)).flatMap (fun b => touched b.transactions) ∧
      r.seen = (fun a => (t a).isSome) ∧
      ∃ recent, replayChain (slots.take (coveredSlots covered)) = .ok (r.totals, recent) := by
  unfold rebuild at h
  dsimp only at h
  split_ifs at h with hguard
  cases hrep : replayChain (slots.take ((covered.map (· + 1)).getD 0)) with
  | error e => simp [hrep] at h
  | ok st =>
    simp only [hrep, Option.some.injEq] at h
    cases h
    exact ⟨hguard.1, rfl, rfl, rfl, st.2, hrep⟩

/-- **A rebuild published on the tree it looked at** is the replay of what it covers. -/
theorem publish_content {slots : List Block} {t : Tree} {covered : Option ℕ} {r : Rebuilt}
    (h : rebuild E slots t covered = some r) : Content slots (coveredSlots covered) (publish t r) := by
  obtain ⟨-, -, hkeys, hseen, recent, hrep⟩ := rebuild_some h
  have hread : (publish t r).read = r.totals := by
    funext a
    unfold Tree.read publish
    by_cases ha : a ∈ r.keys
    · rw [if_pos ha]
      rfl
    · have hzero : r.totals a = 0 := by
        rw [hkeys] at ha
        have hbal : r.totals a = 0 + chainDelta _ a := congrFun (replayBlocks_balances hrep) a
        rw [hbal, chainDelta_untouched ha, add_zero]
      rw [if_neg ha, hzero, hseen]
      cases hta : t a <;> simp [hta]
  exact ⟨recent, by rw [hread]; exact hrep⟩

/-! ### The tip extension -/

theorem applyBatchTxs_signatures {mode : SignatureValidationMode} {current : Balances}
    {immature : Text → ℤ} :
    ∀ {txs : List Transaction} {changes changes' : Balances},
      applyBatchTxs E mode current immature txs changes = .ok changes' →
      ∀ tx ∈ txs, tx.isCoinbase = false → verifyForMode E mode tx = .ok ()
  | [], _, _, _ => by simp
  | tx :: txs, changes, changes', h => by
    unfold applyBatchTxs at h
    obtain ⟨mid, hmid, h⟩ := bind_eq_ok.mp h
    intro t ht hcb
    rcases List.mem_cons.mp ht with rfl | ht
    · unfold applyBatchTx at hmid
      rw [if_neg (by simp [hcb])] at hmid
      cases mode with
      | requireFull => exact (bind_unit_eq_ok.mp hmid).1
      | allowTruncatedStored => exact (bind_unit_eq_ok.mp hmid).1
    · exact applyBatchTxs_signatures h t ht hcb

/-- The batch of a tip extension, on balances read from a current tree, writes the replay. -/
theorem extension_content {mode : SignatureValidationMode} {slots : List Block} {b : Block} {t : Tree}
    {current bal : Balances} (hs : Slotted slots) (hi : b.index = slots.length)
    (hshape : rewardFirst b = true) (ht : Content slots slots.length t)
    (hread : ∀ a ∈ touched b.transactions, current a = t.read a)
    (h : processTransactionsBatch E mode slots current b.index b.transactions = .ok bal) :
    Content (slots ++ [toStorageBlock E b]) (slots.length + 1) (t.write (touched b.transactions) bal) := by
  unfold rewardFirst at hshape
  cases htxs : b.transactions with
  | nil => simp [htxs] at hshape
  | cons reward txs =>
    simp only [htxs, Bool.and_eq_true, List.all_eq_true, Bool.not_eq_true'] at hshape
    obtain ⟨hreward, hregular⟩ := hshape
    have hsig : ∀ tx ∈ txs, verifyForMode E mode tx = .ok () := by
      unfold processTransactionsBatch at h
      obtain ⟨changes, hchanges, -⟩ := bind_eq_ok.mp h
      intro tx htx
      exact applyBatchTxs_signatures hchanges tx (by simp [htxs, htx]) (hregular tx htx)
    rw [htxs, hi] at h
    obtain ⟨recent, hrep⟩ :=
      (processTransactionsBatch_eq_replay hs hreward hregular hsig bal).mp h
    rw [htxs] at hread
    have hbal := congrArg Prod.fst (replayApplyBlockChecked_ok hrep)
    have hwrite : (t.write (touched (reward :: txs)) bal).read =
        fun a => t.read a + blockDelta (reward :: txs) a := by
      refine tree_write_read fun a ha => ?_
      rw [show bal = _ from hbal]
      simp only [hread a ha]
    obtain ⟨recent₀, hrec₀⟩ := ht
    have hwin := replayChain_take_recent hs le_rfl hrec₀
    have hstored : replayBlocks [toStorageBlock E b] (t.read, recent₀) =
        replayApplyBlockChecked b.index b.transactions (t.read, recent₀) := by
      rw [← replayBlocks_singleton]
      exact replayBlocks_stored [b] _
    have hnext : replayChain ((slots ++ [toStorageBlock E b]).take (slots.length + 1)) =
        replayApplyBlockChecked slots.length (reward :: txs) (t.read, seedRecent slots slots.length) := by
      rw [List.take_length] at hrec₀
      unfold replayChain at hrec₀ ⊢
      rw [List.take_of_length_le (by simp), replayBlocks_append, hrec₀, ok_bind, hstored, htxs, hi,
        show recent₀ = _ from hwin]
    have hlocal := replayApplyBlockChecked_local hread hrep
    rw [← hwrite, ← hnext] at hlocal
    exact ⟨_, hlocal⟩

/-! ### The reorg -/

/-- A branch of consecutive heights replaces everything from its fork height on. -/
theorem rewriteSlots_consecutive {slots branch : List Block} {first : Block}
    (hf : branch.head? = some first) (hle : first.index ≤ slots.length)
    (hix : branch.map (·.index) = List.range' first.index branch.length) :
    rewriteSlots E slots branch = slots.take first.index ++ branch.map (toStorageBlock E) := by
  have hne : branch ≠ [] := by
    rintro rfl
    simp at hf
  have hpos := List.length_pos_of_ne_nil hne
  have hi : ∀ (i : ℕ) (b : Block), branch[i]? = some b → b.index = first.index + i := by
    intro i b hb
    have hlt := (List.getElem?_eq_some_iff.mp hb).1
    have hmap : (branch.map (·.index))[i]? = some b.index := by simp [hb]
    rw [hix, List.getElem?_range' hlt] at hmap
    simpa using (Option.some.inj hmap).symm
  have hlen : (slots.take first.index).length = first.index := by simpa using hle
  have hlast : branch.getLast? = some (branch.getLast hne) := List.getLast?_eq_some_getLast hne
  have hlastIx : (branch.getLast hne).index = first.index + (branch.length - 1) := by
    refine hi _ _ ?_
    rw [List.getLast_eq_getElem, List.getElem?_eq_getElem]
  have hfold := foldl_setSlot (E := E) branch (slots.take first.index) (slots.drop first.index)
    fun i b hb => by rw [hlen]; exact hi i b hb
  rw [List.take_append_drop] at hfold
  unfold rewriteSlots
  rw [hlast]
  dsimp only
  rw [hfold, hlastIx, List.take_append_of_le_length (by simp [hlen]; omega)]
  exact List.take_of_length_le (by simp [hlen]; omega)

theorem slotted_consecutive {slots branch : List Block} {first : Block} (hs : Slotted slots)
    (hle : first.index ≤ slots.length)
    (hix : branch.map (·.index) = List.range' first.index branch.length) :
    Slotted (slots.take first.index ++ branch.map (toStorageBlock E)) := by
  refine slotted_append (slotted_take hs _) fun i b hb => ?_
  rw [List.getElem?_map] at hb
  obtain ⟨c, hc, rfl⟩ := Option.map_eq_some_iff.mp hb
  have hlt := (List.getElem?_eq_some_iff.mp hc).1
  have hmap : (branch.map (·.index))[i]? = some c.index := by simp [hc]
  rw [hix, List.getElem?_range' hlt] at hmap
  have hlen : (slots.take first.index).length = first.index := by simpa using hle
  rw [hlen]
  simpa using (Option.some.inj hmap).symm

/-- The fork-boundary values of a current index are the replay below the fork, and outside
the touched addresses the tree holds it already. -/
theorem forkState_below {s : IndexedChain} {forkStart oldTip : ℕ} {branch : List Block}
    {reverted : Tree} {recent : Recent} (hs : Slotted s.slots) (hle : forkStart ≤ s.slots.length)
    (hcur : Content s.slots s.slots.length s.tree)
    (h : s.forkState forkStart oldTip branch = some (reverted, recent)) :
    ∃ bal, replayChain (s.slots.take forkStart) = .ok (bal, seedRecent s.slots forkStart) ∧
      recent = seedRecent s.slots forkStart ∧
      (∀ a ∈ branch.flatMap (fun b => touched b.transactions), reverted.read a = bal a) ∧
      Tree.read (fun a => (reverted a).or (s.tree a)) = bal := by
  obtain ⟨recent₁, hrep⟩ := hcur
  rw [List.take_length] at hrep
  have hsplit : replayBlocks (s.slots.take forkStart ++ s.slots.drop forkStart) (fun _ => 0, []) =
      .ok (s.tree.read, recent₁) := by
    rw [List.take_append_drop]
    exact hrep
  obtain ⟨st, hst, habove⟩ := bind_eq_ok.mp (replayBlocks_append _ _ _ ▸ hsplit)
  have hwin : st.2 = seedRecent s.slots forkStart := replayChain_take_recent hs hle hst
  have hrevert := revert_replay hst hsplit
  have hdelta : s.tree.read = fun a => st.1 a + chainDelta (s.slots.drop forkStart) a :=
    replayBlocks_balances habove
  unfold forkState at h
  split_ifs at h
  simp only [Option.some.injEq, Prod.mk.injEq] at h
  obtain ⟨rfl, rfl⟩ := h
  refine ⟨st.1, ?_, rfl, fun a ha => ?_, ?_⟩
  · rw [← hwin]
    exact hst
  · have hkey : a ∈ (s.slots.drop forkStart ++ branch).flatMap fun b => touched b.transactions := by
      rw [List.flatMap_append]
      exact List.mem_append_right _ ha
    simp only [Tree.read, if_pos hkey, Option.getD_some]
    exact congrFun hrevert a
  · funext a
    by_cases hkey : a ∈ (s.slots.drop forkStart ++ branch).flatMap fun b => touched b.transactions
    · simp only [Tree.read, if_pos hkey, Option.some_or, Option.getD_some]
      exact congrFun hrevert a
    · have hout : a ∉ (s.slots.drop forkStart).flatMap fun b => touched b.transactions := by
        intro hin
        rw [List.flatMap_append] at hkey
        exact hkey (List.mem_append_left _ hin)
      have hread := congrFun hdelta a
      simp only [chainDelta_untouched hout, add_zero] at hread
      simp only [Tree.read, if_neg hkey, Option.none_or]
      exact hread

/-- **The fork-state path.** On a current index a reorg's write-back and catch-up end in the
replay of the new chain, at its tip. -/
theorem reorgIndex_content {s : IndexedChain} {branch : List Block} {first : Block} {oldTip : ℕ}
    {fork : Tree × Recent} (hs : Slotted s.slots) (hle : first.index ≤ s.slots.length)
    (h0 : 0 < branch.length) (hcur : Content s.slots s.slots.length s.tree)
    (hix : branch.map (·.index) = List.range' first.index branch.length)
    (hfork : s.forkState first.index oldTip branch = some fork)
    (hdry : s.branchReplays E first.index branch (some fork) = true) :
    ∃ t, s.reorgIndex (s.slots.take first.index ++ branch.map (toStorageBlock E)) first.index
        branch.length (some fork) = (t, some (first.index + branch.length - 1), true) ∧
      Content (s.slots.take first.index ++ branch.map (toStorageBlock E))
        (first.index + branch.length) t := by
  obtain ⟨reverted, recent⟩ := fork
  obtain ⟨bal, hbelow, hrecent, hagree, hback⟩ := forkState_below hs hle hcur hfork
  set slots := s.slots.take first.index ++ branch.map (toStorageBlock E) with hslots
  have hlen : (s.slots.take first.index).length = first.index := by simpa using hle
  have htake : slots.take first.index = s.slots.take first.index := by
    rw [hslots, List.take_append_of_le_length (by omega), List.take_of_length_le (by omega)]
  have hslotted : Slotted slots := slotted_consecutive hs hle hix
  have hok : (replayChain slots).isOk = true := by
    have hbranch := replayBlocks_local hagree hdry
    rw [hrecent] at hbranch
    unfold replayChain at hbelow ⊢
    rw [hslots, replayBlocks_append, hbelow, ok_bind, replayBlocks_stored]
    exact hbranch
  have hstart : Content slots first.index fun a => (reverted a).or (s.tree a) := by
    refine ⟨seedRecent s.slots first.index, ?_⟩
    rw [hback, htake]
    exact hbelow
  obtain ⟨t, marker, hloop, hcontent, hmarker⟩ :=
    catchUpLoop_content hslotted hok branch.length first.index (some (first.index - 1))
      (by simp [hslots, hlen]) hstart (agrees_empty _) rfl
  refine ⟨t, ?_, hcontent⟩
  rw [← hmarker h0]
  exact hloop

/-! ### The invariant -/

/-- The tip the slots name. -/
def slotsTip (slots : List Block) : Option ℕ := if slots = [] then none else some (slots.length - 1)

/-- The marker is there and at most the tip, and the tree is the replay up to it. -/
def Refines (s : IndexedChain) : Prop :=
  ∃ m, s.marker = some m ∧ m ≤ s.latest ∧ Content s.slots (m + 1) s.tree

def Quiet (s : IndexedChain) : Prop := s.dirty = false ∧ s.extension = none

/-- Upkeep that has found the chain clean and is not done. -/
def PastCheck : Upkeep → Prop
  | .entered => False
  | _ => True

/-- What upkeep knows at each of its stations. -/
def UpkeepInv (s : IndexedChain) : Upkeep → Prop
  | .entered => True
  | .checked => s.dirty = false
  | .sawTip tip => s.dirty = false ∧ tip = s.latest
  | .catching cache recent next tip => s.dirty = false ∧ tip = s.latest ∧ 0 < next ∧ next ≤ tip + 1 ∧
      s.marker = some (next - 1) ∧ recent = seedRecent s.slots next ∧ Agrees cache s.tree
  | .rebuilding => s.dirty = false
  | .publishing r => s.dirty = false ∧ r.covered = s.latest ∧
      Content s.slots (r.covered + 1) (publish s.tree r)

/-- What a tip extension has done at each of its stations. -/
def ExtensionInv (s : IndexedChain) (x : Extension) : Prop :=
  match x.phase with
  | .reading todo current => x.block.index = s.slots.length ∧ rewardFirst x.block = true ∧
      s.tip = slotsTip s.slots ∧ s.marker = some s.latest ∧ Content s.slots s.slots.length s.tree ∧
      ∀ a ∈ touched x.block.transactions, a ∉ todo → current a = s.tree.read a
  | .applied => x.block.index = s.slots.length ∧ s.marker = some x.block.index ∧
      Content (s.slots ++ [toStorageBlock E x.block]) (s.slots.length + 1) s.tree
  | .stored => s.slots.length = x.block.index + 1 ∧ s.marker = some x.block.index ∧
      Content s.slots (x.block.index + 1) s.tree
  | .published => s.slots.length = x.block.index + 1 ∧ s.marker = some x.block.index ∧
      Content s.slots (x.block.index + 1) s.tree ∧ s.tip = some x.block.index

variable (E) in
structure IndexInv (s : IndexedChain) : Prop where
  slotted : Slotted s.slots
  busy : ∀ x, s.extension = some x → s.dirty = true ∧ ExtensionInv (E := E) s x
  clean : s.dirty = false → s.tip = slotsTip s.slots ∧ Refines s
  gate : ∀ u, s.gate = some u → UpkeepInv s u

theorem slotsTip_latest {slots : List Block} : (slotsTip slots).getD 0 = slots.length - 1 := by
  unfold slotsTip
  split_ifs with h
  · simp [h]
  · rfl

/-- A current index holds the replay of all slots. -/
theorem content_all {s : IndexedChain} (htip : s.tip = slotsTip s.slots)
    (h : Content s.slots (s.latest + 1) s.tree) : Content s.slots s.slots.length s.tree := by
  have hlatest : s.latest = s.slots.length - 1 := by
    rw [latest, htip, slotsTip_latest]
  obtain ⟨recent, hrec⟩ := h
  refine ⟨recent, ?_⟩
  rw [List.take_length]
  rwa [List.take_of_length_le (by omega)] at hrec

/-- What a step must meet: a tip extension begins on a current index, and no upkeep that
found the chain clean is still at work; a reorg to a higher tip starts on a current index. -/
def Undisturbed (s : IndexedChain) : IndexAction → Prop
  | .begin _ _ => s.marker = some s.latest ∧ ∀ u, s.gate = some u → ¬ PastCheck u
  | .reorg branch => s.marker = some s.latest ∨
      ∀ branchTip, branch.getLast? = some branchTip → branchTip.index ≤ s.latest
  | _ => True

/-- The step completes a tip extension or a reorg. -/
def Completes (s : IndexedChain) (a : IndexAction) (t : IndexedChain) : Prop :=
  match a with
  | .advance => s.extension ≠ none ∧ Quiet t
  | .reorg _ => t.dirty = false
  | _ => False

/-! ### Steps keep it -/

section Steps

variable {s t : IndexedChain}

/-- A chain that is not dirty has no tip extension in progress. -/
theorem IndexInv.idle (h : IndexInv E s) (hd : s.dirty = false) : s.extension = none := by
  by_contra hne
  obtain ⟨x, hx⟩ := Option.ne_none_iff_exists'.mp hne
  have := (h.busy x hx).1
  simp [hd] at this

/-- Only the gate changes hands. -/
theorem IndexInv.of_gate (h : IndexInv E s) (g : Option Upkeep) (hg : ∀ u, g = some u → UpkeepInv s u) :
    IndexInv E { s with gate := g } :=
  ⟨h.slotted, h.busy, h.clean, hg⟩

/-- Upkeep on a clean chain writes the index. -/
theorem IndexInv.of_index (h : IndexInv E s) (hd : s.dirty = false) {tr : Tree} {m : ℕ}
    (hm : m ≤ s.latest) (hc : Content s.slots (m + 1) tr) (g : Option Upkeep)
    (hg : ∀ u, g = some u → UpkeepInv { s with tree := tr, marker := some m, gate := g } u) :
    IndexInv E { s with tree := tr, marker := some m, gate := g } := by
  refine ⟨h.slotted, fun x hx => ?_, fun _ => ⟨(h.clean hd).1, m, rfl, hm, hc⟩, hg⟩
  have hnone : s.extension = none := h.idle hd
  rw [show s.extension = some x from hx] at hnone
  cases hnone

/-- **Upkeep keeps the invariant**: past the dirty check it works on a chain at rest. -/
theorem IndexInv.upkeep (h : IndexInv E s) {u : Upkeep} (hu : s.gate = some u) :
    IndexInv E (s.upkeepStep E u) := by
  have hinv := h.gate u hu
  cases u with
  | entered =>
    refine h.of_gate _ fun u hu => ?_
    split_ifs at hu with hd
    cases hu
    simpa [UpkeepInv] using hd
  | checked =>
    refine h.of_gate _ fun u hu => ?_
    cases hu
    exact ⟨hinv, rfl⟩
  | sawTip tip =>
    obtain ⟨hd, rfl⟩ := hinv
    obtain ⟨m, hm, hle, hc⟩ := (h.clean hd).2
    refine h.of_gate _ fun u hu => ?_
    simp only [upkeepChoice, hm] at hu
    split_ifs at hu with hcur hlag
    · cases hu
      exact ⟨hd, rfl, by omega, by omega, hm, rfl, agrees_empty _⟩
    · cases hu
      exact hd
  | catching cache recent next tip =>
    obtain ⟨hd, rfl, hpos, hnext, hm, hr, hag⟩ := hinv
    obtain ⟨m, hm', -, hc⟩ := (h.clean hd).2
    obtain rfl : m = next - 1 := by rw [hm] at hm'; exact (Option.some.inj hm').symm
    rw [Nat.sub_add_cancel hpos] at hc
    rw [upkeepStep]
    split_ifs with hdone
    · exact h.of_gate none (by simp)
    · cases hb : catchUpBlock s.slots s.tree cache recent next with
      | none =>
        refine h.of_gate _ fun u hu => ?_
        cases hu
        exact hd
      | some r =>
        obtain ⟨tr, cache', recent'⟩ := r
        obtain ⟨-, hc', hag', hr'⟩ := catchUpBlock_content h.slotted hc hag hr hb
        have hle : next ≤ s.latest := by omega
        refine h.of_index hd hle hc' _ fun u hu => ?_
        cases hu
        refine ⟨hd, rfl, by omega, ?_, rfl, hr', hag'⟩
        show next + 1 ≤ s.latest + 1
        omega
  | rebuilding =>
    refine h.of_gate _ fun u hu => ?_
    obtain ⟨r, hr, rfl⟩ := Option.map_eq_some_iff.mp hu
    have htip := (h.clean hinv).1
    have hcov := (rebuild_some hr).2.1
    refine ⟨hinv, hcov, ?_⟩
    have hpub := publish_content hr
    rw [hcov]
    -- an empty chain has no tip: the marker says 0 and nothing is covered
    by_cases hnil : s.slots = []
    · obtain ⟨recent, hrec⟩ := hpub
      rw [hnil, List.take_nil] at hrec
      exact ⟨recent, by rw [hnil, List.take_nil]; exact hrec⟩
    · rw [htip, slotsTip, if_neg hnil] at hpub ⊢
      exact hpub
  | publishing r =>
    obtain ⟨hd, hcov, hc⟩ := hinv
    exact h.of_index hd hcov.le hc none (by simp)

/-- A tip extension under way: nothing else is at work, and only upkeep that will find the
chain dirty can hold the gate. -/
theorem IndexInv.gate_entered (h : IndexInv E s) (hd : s.dirty = true) {u : Upkeep} (hu : s.gate = some u) :
    u = .entered := by
  have hinv := h.gate u hu
  cases u with
  | entered => rfl
  | checked => simp [UpkeepInv, hd] at hinv
  | sawTip tip => simp [UpkeepInv, hd] at hinv
  | catching cache recent next tip => simp [UpkeepInv, hd] at hinv
  | rebuilding => simp [UpkeepInv, hd] at hinv
  | publishing r => simp [UpkeepInv, hd] at hinv

/-- A state in the middle of a tip extension. -/
theorem IndexInv.of_extension (h : IndexInv E s) (hd : s.dirty = true) {slots : List Block} {tr : Tree}
    {m tip : Option ℕ} {x : Extension} (hs : Slotted slots)
    (hx : ExtensionInv (E := E) { s with slots, tree := tr, marker := m, tip, extension := some x } x) :
    IndexInv E { s with slots, tree := tr, marker := m, tip, extension := some x } := by
  refine ⟨hs, fun y hy => ?_, fun hclean => ?_, fun u hu => ?_⟩
  · cases hy
    exact ⟨hd, hx⟩
  · simp [hd] at hclean
  · obtain rfl := h.gate_entered hd hu
    trivial

/-- **A tip extension keeps the invariant**, and leaves the marker at the new tip. -/
theorem IndexInv.advance (h : IndexInv E s) {x : Extension} (hx : s.extension = some x)
    (ht : s.extensionStep E x = some t) :
    IndexInv E t ∧ (Quiet t → t.marker = some t.latest) := by
  obtain ⟨hd, hinv⟩ := h.busy x hx
  have hmid : ∀ {u : IndexedChain}, u.extension ≠ none → Quiet u → u.marker = some u.latest :=
    fun hne hq => absurd hq.2 hne
  unfold extensionStep at ht
  unfold ExtensionInv at hinv
  cases hphase : x.phase with
  | reading todo current =>
    rw [hphase] at hinv
    obtain ⟨hi, hshape, htip, hm, hc, hread⟩ := hinv
    cases todo with
    | cons a todo =>
      simp only [hphase] at ht
      split_ifs at ht
      cases ht
      refine ⟨h.of_extension hd h.slotted ?_, hmid (by simp)⟩
      refine ⟨hi, hshape, htip, hm, hc, fun a' ha' hout => ?_⟩
      show (if a' = a then s.confirmedBalance a else current a') = s.tree.read a'
      split_ifs with heq
      · rw [heq, confirmedBalance, hm]
        cases hta : s.tree a <;> simp [Tree.read, hta]
      · exact hread a' ha' (by simp [heq, hout])
    | nil =>
      simp only [hphase] at ht
      cases hbatch : processTransactionsBatch E x.mode s.slots current x.block.index x.block.transactions with
      | error e =>
        simp only [hbatch, Option.some.injEq] at ht
        subst ht
        refine ⟨⟨h.slotted, by simp, fun hclean => ?_, fun u hu => ?_⟩, fun hq => ?_⟩
        · simp [hd] at hclean
        · obtain rfl := h.gate_entered hd hu
          trivial
        · have := hq.1
          simp [hd] at this
      | ok bal =>
        simp only [hbatch, Option.some.injEq] at ht
        subst ht
        refine ⟨h.of_extension hd h.slotted ⟨hi, rfl, ?_⟩, hmid (by simp)⟩
        exact extension_content h.slotted hi hshape hc (fun a ha => hread a ha (by simp)) hbatch
  | applied =>
    rw [hphase] at hinv
    obtain ⟨hi, hm, hc⟩ := hinv
    simp only [hphase, Option.some.injEq] at ht
    subst ht
    refine ⟨h.of_extension hd ?_ ?_, hmid (by simp)⟩
    · rw [setSlot_length hi]
      refine slotted_append h.slotted fun i b hb => ?_
      obtain ⟨rfl, rfl⟩ : i = 0 ∧ toStorageBlock E x.block = b := by
        rcases i with - | i
        · simpa using hb
        · simp at hb
      simp [hi]
    · refine ⟨?_, hm, ?_⟩
      · show (setSlot E s.slots x.block).length = x.block.index + 1
        rw [setSlot_length hi, hi]
        simp
      · show Content (setSlot E s.slots x.block) (x.block.index + 1) s.tree
        rw [setSlot_length hi, hi]
        exact hc
  | stored =>
    rw [hphase] at hinv
    obtain ⟨hlen, hm, hc⟩ := hinv
    simp only [hphase, Option.some.injEq] at ht
    subst ht
    exact ⟨h.of_extension hd h.slotted ⟨hlen, hm, hc, rfl⟩, hmid (by simp)⟩
  | published =>
    rw [hphase] at hinv
    obtain ⟨hlen, hm, hc, htip⟩ := hinv
    simp only [hphase, Option.some.injEq] at ht
    subst ht
    have hlatest : s.latest = x.block.index := by rw [latest, htip]; rfl
    refine ⟨⟨h.slotted, by simp, fun _ => ⟨?_, _, hm, hlatest.ge, hc⟩, fun u hu => ?_⟩, fun _ => ?_⟩
    · show s.tip = slotsTip s.slots
      have hne : s.slots ≠ [] := by
        intro hnil
        simp [hnil] at hlen
      rw [htip, slotsTip, if_neg hne, hlen]
      rfl
    · obtain rfl := h.gate_entered hd hu
      trivial
    · show s.marker = some s.latest
      rw [hm, hlatest]

/-- A reorg by the fork state keeps the invariant and ends with the marker at the new tip. -/
theorem IndexInv.of_reorg (hg : s.gate = none) (hx : s.extension = none)
    {slots : List Block} {tr : Tree} {m : ℕ} (hs : Slotted slots) (hlen : slots.length = m + 1)
    (hc : Content slots (m + 1) tr) :
    IndexInv E { s with slots, tree := tr, marker := some m, tip := some m, dirty := false } := by
  have hne : slots ≠ [] := by
    intro hnil
    simp [hnil] at hlen
  refine ⟨hs, fun x hx' => ?_, fun _ => ⟨?_, m, rfl, le_rfl, hc⟩, fun u hu => ?_⟩
  · rw [show s.extension = some x from hx'] at hx
    cases hx
  · show some m = slotsTip slots
    rw [slotsTip, if_neg hne, hlen]
    rfl
  · rw [show s.gate = some u from hu] at hg
    cases hg

/-- A dirty chain at rest needs nothing but its slots. -/
theorem IndexInv.of_dirty (hg : s.gate = none) (hx : s.extension = none) (hd : s.dirty = true)
    (hs : Slotted s.slots) : IndexInv E s :=
  ⟨hs, fun x hx' => by simp [hx] at hx', fun hclean => by simp [hd] at hclean,
    fun u hu => by simp [hg] at hu⟩

theorem branchTip_index {branch : List Block} {first branchTip : Block}
    (hlast : branch.getLast? = some branchTip)
    (hix : branch.map (·.index) = List.range' first.index branch.length) :
    branchTip.index = first.index + branch.length - 1 ∧ 0 < branch.length := by
  have hne : branch ≠ [] := by
    rintro rfl
    simp at hlast
  have hpos := List.length_pos_of_ne_nil hne
  have hget : (branch.map (·.index))[branch.length - 1]? = some branchTip.index := by
    rw [List.getLast?_eq_getElem?] at hlast
    simp [hlast]
  rw [hix, List.getElem?_range' (by omega)] at hget
  have := Option.some.inj hget
  omega

/-- **A reorg keeps the invariant.** The fork-state path needs nothing; the rebuild fallback
covers the old tip, which is the new one exactly if the branch ends there. -/
theorem IndexInv.reorg (h : IndexInv E s) (hg : s.gate = none) (hx : s.extension = none)
    (hd : s.dirty = false) {branch : List Block} (hcond : Undisturbed s (.reorg branch))
    (ht : s.reorgStep E branch = some t) :
    IndexInv E t ∧ (t.dirty = false → t.marker = some t.latest) := by
  unfold reorgStep at ht
  cases hf : branch.head? with
  | none => simp [hf] at ht
  | some first =>
  cases hl : branch.getLast? with
  | none => simp [hf, hl] at ht
  | some branchTip =>
  cases htip : s.tip with
  | none => simp [hf, hl, htip] at ht
  | some oldTip =>
  simp only [hf, hl, htip] at ht
  split_ifs at ht with hguard
  obtain ⟨hpos, hle, hix, hdry⟩ := hguard
  have hlatest : s.latest = oldTip := by rw [latest, htip]; rfl
  have hslots : s.slots.length = oldTip + 1 := by
    have htip' := (h.clean hd).1
    rw [htip, slotsTip] at htip'
    split_ifs at htip' with hnil
    have := List.length_pos_of_ne_nil hnil
    have := Option.some.inj htip'
    omega
  have hbound : first.index ≤ s.slots.length := by omega
  obtain ⟨hbt, hcount⟩ := branchTip_index hl hix
  rw [rewriteSlots_consecutive hf hbound hix] at ht
  set slots := s.slots.take first.index ++ branch.map (toStorageBlock E) with hnew
  have hslotted : Slotted slots := slotted_consecutive h.slotted hbound hix
  have hlen : slots.length = first.index + branch.length := by
    simp [hnew, List.length_take, hbound]
  cases hfork : s.forkState first.index oldTip branch with
  | some fork =>
    have hmarker : s.marker = some oldTip := by
      unfold forkState at hfork
      split_ifs at hfork with hno
      by_contra hne
      exact hno (.inr (.inr hne))
    obtain ⟨m, hm, -, hc⟩ := (h.clean hd).2
    rw [hmarker] at hm
    obtain rfl := Option.some.inj hm
    rw [← hlatest] at hc
    rw [hfork] at hdry ht
    obtain ⟨tr, hindex, hcontent⟩ := reorgIndex_content h.slotted hbound hcount
      (content_all (h.clean hd).1 hc) hix hfork hdry
    rw [hindex] at ht
    simp only [Option.some.injEq] at ht
    subst ht
    rw [hbt]
    refine ⟨IndexInv.of_reorg hg hx hslotted (by omega) ?_, fun _ => rfl⟩
    rwa [Nat.sub_add_cancel (by omega)]
  | none =>
    -- the index does not vouch for the old tip, so the branch ends at it or below
    have hend : branchTip.index ≤ oldTip := by
      rcases hcond with hcur | hend
      · unfold forkState at hfork
        split_ifs at hfork with hno
        rw [hlatest] at hcur
        rcases hno with h0 | h0 | h0
        · omega
        · omega
        · exact absurd hcur h0
      · exact hlatest ▸ hend branchTip hl
    rw [hfork] at ht
    simp only [reorgIndex] at ht
    cases hr : rebuild E slots s.tree (some oldTip) with
    | none =>
      simp only [hr, Option.some.injEq] at ht
      subst ht
      exact ⟨.of_dirty hg hx rfl hslotted, fun hclean => by simp at hclean⟩
    | some r =>
      simp only [hr, Option.some.injEq] at ht
      subst ht
      obtain ⟨hcovers, hcov, -⟩ := rebuild_some hr
      have hcov : r.covered = oldTip := hcov
      have hin : oldTip < slots.length := by simpa using hcovers
      have hsame : branchTip.index = oldTip := by omega
      have hpub : Content slots (oldTip + 1) (publish s.tree r) := publish_content hr
      rw [hcov, hsame]
      exact ⟨IndexInv.of_reorg hg hx hslotted (by omega) hpub, fun _ => rfl⟩

theorem IndexInv.recover (h : IndexInv E s) (hg : s.gate = none) (hx : s.extension = none)
    (hd : s.dirty = true) : IndexInv E (s.recoverStep E) := by
  unfold recoverStep
  dsimp only
  cases hr : rebuild E s.slots s.tree (if s.slots = [] then none else some (s.slots.length - 1)) with
  | none => exact .of_dirty hg hx hd h.slotted
  | some r =>
    have hpub := publish_content hr
    obtain ⟨-, hcov, -⟩ := rebuild_some hr
    refine ⟨h.slotted, fun x hx' => ?_, fun _ => ⟨rfl, r.covered, rfl, ?_, ?_⟩, fun u hu => ?_⟩
    · rw [show s.extension = some x from hx'] at hx
      cases hx
    · rw [hcov]
      exact le_rfl
    · show Content s.slots (r.covered + 1) (publish s.tree r)
      by_cases hnil : s.slots = []
      · obtain ⟨recent, hrec⟩ := hpub
        rw [hnil, List.take_nil] at hrec
        exact ⟨recent, by rw [hnil, List.take_nil]; exact hrec⟩
      · rw [hcov]
        rw [if_neg hnil] at hpub ⊢
        exact hpub
    · rw [show s.gate = some u from hu] at hg
      cases hg

/-- **Step lemma.** An undisturbed step keeps the invariant, and if it completes a tip
extension or a reorg the marker is at the new tip. -/
theorem IndexInv.step {a : IndexAction} (h : IndexInv E s) (hcond : Undisturbed s a)
    (ht : s.step E a = some t) : IndexInv E t ∧ (Completes s a t → t.marker = some t.latest) := by
  cases a with
  | look =>
    simp only [IndexedChain.step] at ht
    split_ifs at ht
    cases ht
    exact ⟨⟨h.slotted, h.busy, h.clean, h.gate⟩, False.elim⟩
  | enter =>
    simp only [IndexedChain.step] at ht
    split_ifs at ht
    cases ht
    refine ⟨⟨h.slotted, h.busy, h.clean, fun u hu => ?_⟩, False.elim⟩
    cases hu
    trivial
  | upkeep =>
    simp only [IndexedChain.step] at ht
    obtain ⟨u, hu, rfl⟩ := Option.map_eq_some_iff.mp ht
    exact ⟨h.upkeep hu, False.elim⟩
  | begin mode b =>
    simp only [IndexedChain.step] at ht
    split_ifs at ht with hno
    simp only [not_or, Bool.not_eq_true, Bool.not_eq_false, not_not] at hno
    obtain ⟨-, hd, hi, hshape⟩ := hno
    cases ht
    obtain ⟨hcur, hgate⟩ := hcond
    obtain ⟨htip, m, hm, -, hc⟩ := h.clean hd
    obtain rfl : m = s.latest := Option.some.inj (hm.symm.trans hcur)
    refine ⟨⟨h.slotted, fun x hx => ?_, fun hclean => ?_, fun u hu => ?_⟩, False.elim⟩
    · cases hx
      refine ⟨rfl, hi, hshape, htip, hcur, content_all htip hc, fun a ha hout => ?_⟩
      exact absurd (List.mem_dedup.mpr ha) hout
    · simp at hclean
    · cases u with
      | entered => trivial
      | _ => exact absurd trivial (hgate _ hu)
  | advance =>
    simp only [IndexedChain.step] at ht
    obtain ⟨x, hx, ht⟩ := Option.bind_eq_some_iff.mp ht
    obtain ⟨hinv, hquiet⟩ := h.advance hx ht
    exact ⟨hinv, fun hc => hquiet hc.2⟩
  | reorg branch =>
    simp only [IndexedChain.step] at ht
    split_ifs at ht with hno
    simp only [not_or, Bool.not_eq_true, Option.isSome_eq_false_iff, Option.isNone_iff_eq_none] at hno
    exact h.reorg hno.2.2 hno.1 hno.2.1 hcond ht
  | recover =>
    simp only [IndexedChain.step] at ht
    split_ifs at ht with hno
    simp only [not_or, Bool.not_eq_true, Bool.not_eq_false, Option.isSome_eq_false_iff,
      Option.isNone_iff_eq_none] at hno
    cases ht
    exact ⟨h.recover hno.2.2 hno.1 hno.2.1, False.elim⟩

end Steps

/-! ### Runs -/

variable (E) in
abbrev IndexRun : IndexedChain → List (IndexedChain × IndexAction) → IndexedChain → Prop :=
  Trace.Run fun s a t => s.step E a = some t

/-- A node at rest whose index is consistent, at the tip or behind it. -/
structure IndexStart (s : IndexedChain) : Prop where
  slotted : Slotted s.slots
  tip : s.tip = slotsTip s.slots
  quiet : Quiet s
  gate : s.gate = none
  refines : Refines s

theorem IndexStart.inv {s : IndexedChain} (h : IndexStart s) : IndexInv E s where
  slotted := h.slotted
  busy x hx := by simp [h.quiet.2] at hx
  clean _ := ⟨h.tip, h.refines⟩
  gate u hu := by simp [h.gate] at hu

/-- Every state of a run whose steps are undisturbed meets the invariant, and every step of
it that completes leaves the marker at the tip. -/
theorem IndexRun.spec {s t : IndexedChain} {tr : List (IndexedChain × IndexAction)}
    (hrun : IndexRun E s tr t) (h : IndexInv E s) (hcond : ∀ x ∈ tr, Undisturbed x.1 x.2) :
    IndexInv E t ∧ ∀ x ∈ tr, IndexInv E x.1 ∧
      ∀ u, x.1.step E x.2 = some u → Completes x.1 x.2 u → u.marker = some u.latest := by
  induction hrun with
  | nil => exact ⟨h, by simp⟩
  | cons hstep _ ih =>
    simp only [List.forall_mem_cons] at hcond ⊢
    obtain ⟨hinv, -⟩ := h.step hcond.1 hstep
    obtain ⟨hlast, hrest⟩ := ih hinv hcond.2
    exact ⟨hlast, ⟨h, fun u hu => (h.step hcond.1 hu).2⟩, hrest⟩

/-- **The index refines the chain.** In every run of tip extensions, reorgs, upkeep and
recoveries whose steps are undisturbed, every state at rest has a marker at or below the tip
and the replay of the canonical blocks up to it in the tree, and every completed tip
extension or reorg leaves the marker at the new tip. -/
theorem index_refines_chain {s₀ s : IndexedChain} {tr : List (IndexedChain × IndexAction)}
    (h₀ : IndexStart s₀) (hrun : IndexRun E s₀ tr s) (hcond : ∀ x ∈ tr, Undisturbed x.1 x.2) :
    (Quiet s → Refines s) ∧ ∀ x ∈ tr, (Quiet x.1 → Refines x.1) ∧
      ∀ u, x.1.step E x.2 = some u → Completes x.1 x.2 u → u.marker = some u.latest := by
  obtain ⟨hlast, hall⟩ := hrun.spec h₀.inv hcond
  exact ⟨fun hq => (hlast.clean hq.1).2,
    fun x hx => ⟨fun hq => ((hall x hx).1.clean hq.1).2, (hall x hx).2⟩⟩

end IndexedChain

/-! ### Two runs of a small chain -/

namespace Toy

open IndexedChain

/-- An initialised node with no block yet. -/
def emptyIndex : IndexedChain where
  slots := []
  tree _ := none
  marker := some 0
  dirty := false
  tip := none
  extension := none
  gate := none
  waiting := 0

theorem emptyIndex_start : IndexStart emptyIndex where
  slotted h b hb := by simp [emptyIndex] at hb
  tip := rfl
  quiet := ⟨rfl, rfl⟩
  gate := rfl
  refines := ⟨0, rfl, le_rfl, [], rfl⟩

/-- A tip extension of one coinbase, from its mark to its end. -/
def extending (b : Block) : List IndexAction :=
  [.begin .requireFull b, .advance, .advance, .advance, .advance, .advance]

/-- The miner of `b1` mines on. -/
def a2 : Block := toyBlock b1 5 alice []
def a3 : Block := toyBlock a2 5 alice []

/-- A reader looks while block 1 is being applied, gets the gate once it is, finds the chain
clean, and is overtaken by the extension with block 2; then block 3 is applied. -/
def overtaken : List IndexAction :=
  extending genesis ++
  ([.begin .requireFull b1, .advance, .advance, .look, .advance, .advance, .advance, .enter, .upkeep] :
    List IndexAction) ++
  ([.begin .requireFull a2, .advance, .advance, .upkeep, .upkeep, .upkeep, .upkeep, .advance, .advance,
    .advance] : List IndexAction) ++
  extending a3

/-- What the overtaken run ends in: a chain at rest with its marker at height 3, and two of
the miner's three rewards in the tree. -/
theorem overtaken_end : (Trace.follow (step toyEnv) emptyIndex overtaken).map (fun r =>
      (r.2.dirty, r.2.extension.isNone, r.2.marker, r.2.tree alice, chainDelta (r.2.slots.take 4) alice)) =
    some (false, true, some 3, some 2000000000, 3000000000) := by
  decide +kernel

/-- The chain `b1`, `b2` is reorganised to the longer branch with `c2`, and the miner of the branch mines on. -/
def forked : List IndexAction :=
  extending genesis ++ extending b1 ++ extending b2 ++ [IndexAction.reorg [c2, c3 []]] ++
    extending (toyBlock (c3 []) 5 bob [])

/-- `Undisturbed`, computed where the gate is free and the index current. -/
def undisturbedCheck (s : IndexedChain) : IndexAction → Bool
  | .begin _ _ => decide (s.marker = some s.latest) && s.gate.isNone
  | .reorg _ => decide (s.marker = some s.latest)
  | _ => true

theorem undisturbedCheck_sound {s : IndexedChain} : ∀ {a : IndexAction}, undisturbedCheck s a = true → Undisturbed s a
  | .begin _ _, h => by
    obtain ⟨hmarker, hgate⟩ := Bool.and_eq_true_iff.mp h
    refine ⟨of_decide_eq_true hmarker, fun u hu => ?_⟩
    rw [hu] at hgate
    cases hgate
  | .reorg _, h => .inl (of_decide_eq_true h)
  | .look, _ | .enter, _ | .upkeep, _ | .advance, _ | .recover, _ => trivial

end Toy

open IndexedChain in
/-- Tip extensions and a reorg between them, none of them disturbed. -/
theorem index_refines_fork :
    ∃ r, Trace.follow (step toyEnv) Toy.emptyIndex Toy.forked = some r ∧ Quiet r.2 ∧ Refines r.2 ∧
      r.2.marker = some 4 ∧ r.2.latest = 4 := by
  have hend : (Trace.follow (step toyEnv) Toy.emptyIndex Toy.forked).map (fun r =>
      (r.1.all fun x => Toy.undisturbedCheck x.1 x.2, r.2.dirty, r.2.extension.isNone, r.2.marker, r.2.latest)) =
        some (true, false, true, some 4, 4) := by
    decide +kernel
  obtain ⟨r, hr, hfacts⟩ := Option.map_eq_some_iff.mp hend
  simp only [Prod.mk.injEq] at hfacts
  obtain ⟨hcheck, hdirty, hext, hmarker, hlatest⟩ := hfacts
  have hcond : ∀ x ∈ r.1, Undisturbed x.1 x.2 := fun x hx =>
    Toy.undisturbedCheck_sound (List.all_eq_true.mp hcheck x hx)
  have hquiet : Quiet r.2 := ⟨hdirty, by simpa using hext⟩
  exact ⟨r, hr, hquiet, (index_refines_chain Toy.emptyIndex_start (Trace.run_follow hr) hcond).1 hquiet, hmarker,
    hlatest⟩

open IndexedChain in
/-- Upkeep that is overtaken by a tip extension loses the extension's block for good. -/
theorem overlapping_upkeep_loses_a_block :
    ¬ ∀ (s₀ s : IndexedChain) (tr : List (IndexedChain × IndexAction)), IndexStart s₀ →
      IndexRun toyEnv s₀ tr s → Quiet s → Refines s := by
  intro hall
  obtain ⟨⟨tr, s⟩, hs, hfacts⟩ := Option.map_eq_some_iff.mp Toy.overtaken_end
  simp only [Prod.mk.injEq] at hfacts
  obtain ⟨hdirty, hext, hmarker, htree, hreplay⟩ := hfacts
  obtain ⟨m, hm, -, recent, hrep⟩ :=
    hall _ s tr Toy.emptyIndex_start (Trace.run_follow hs) ⟨hdirty, by simpa using hext⟩
  obtain rfl : m = 3 := Option.some.inj (hm.symm.trans hmarker)
  have hminer : s.tree.read Toy.alice = 0 + chainDelta (s.slots.take 4) Toy.alice :=
    congrFun (replayBlocks_balances hrep) Toy.alice
  rw [Tree.read, htree, hreplay] at hminer
  simp at hminer

end Alphanumeric
