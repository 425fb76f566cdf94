/-
# Pending reservations

`src/a9/blockchain.rs`: beside the rows of the pending tree the node keeps what they debit and
credit by address. An admission adds to these totals and a rebuild sums the rows again, but a
block (`process_transactions_batch`) and `clear_processed_transactions` take off what the
transactions in hand carry, whether or not their rows were there. So a block with a payment
that this node never held shrinks the reservation of the sender's other payments.

A total that is absent is 0, and none is written below 0. Amounts are those of the rows; they
survive the stored form unchanged below 2^51 units. Prunes come with the rebuild of their
caller, and reverted transactions from blocks that were valid.

Key definitions: `PendingReservations`, `processTransactionsBatch`, `clearProcessedTransactions`,
`rebuildPendingDebitsIndex`, `step`, `Right`, `Matched`, `Settles`.
Key theorems: `release_eq`, `total_filter_add`, `right_iff_matched`, `reservations_match_rows`,
`unheld_payment_shrinks_reservation`.
-/
import Alphanumeric.Reorg
import Alphanumeric.Lib.Trace
import Mathlib

namespace Alphanumeric

/-- The pending tree with the totals that are kept beside it. -/
structure PendingReservations where
  rows : List Transaction
  debits : Text → ℤ
  credits : Text → ℤ

namespace PendingReservations

variable (E : Env)

def empty : PendingReservations := ⟨[], fun _ => 0, fun _ => 0⟩

/-! ### The operations -/

/-- `get_pending_debit_units` and `set_pending_debit_for`, or the same for credits. -/
def shift (totals : Text → ℤ) (address : Text) (units : ℤ) : Text → ℤ :=
  Function.update totals address (max (max (totals address) 0 + units) 0)

/-- What the transactions of one party add up to. -/
def total (party : Transaction → Text) (units : Transaction → ℤ) (txs : List Transaction) (address : Text) : ℤ :=
  ((txs.filter fun tx => party tx = address).map units).sum

/-- Each transaction is taken off the total of its party. -/
def release (party : Transaction → Text) (units : Transaction → ℤ) (totals : Text → ℤ) (txs : List Transaction) :
    Text → ℤ := txs.foldl (fun totals tx => shift totals (party tx) (-units tx)) totals

def without (rows : List Transaction) (ids : List Text) : List Transaction :=
  rows.filter fun row => getTxId E row ∉ ids

/-- `admit_transaction`, once its checks are passed; `sigHash` is the hash of the full signature. -/
def admitTransaction (s : PendingReservations) (tx : Transaction) (sigHash : Text) : PendingReservations :=
  if getTxId E tx ∈ s.rows.map (getTxId E) then s
  else
    { rows := s.rows ++ [withTruncatedSignature tx sigHash]
      debits := shift s.debits tx.sender tx.totalDebitUnits
      credits := shift s.credits tx.recipient tx.amountUnits }

def processTransaction (s : PendingReservations) (tx : Transaction) : PendingReservations :=
  if tx.sender = miningRewards then s
  else
    { rows := without E s.rows [getTxId E tx]
      debits := shift s.debits tx.sender (-tx.totalDebitUnits)
      credits := shift s.credits tx.recipient (-tx.amountUnits) }

/-- The part of `process_transactions_batch` that clears the pending trees. -/
def processTransactionsBatch (s : PendingReservations) (txs : List Transaction) : PendingReservations :=
  txs.foldl (processTransaction E) s

def regular (txs : List Transaction) : List Transaction := txs.filter fun tx => tx.sender ≠ miningRewards

def clearProcessedTransactions (s : PendingReservations) (txs : List Transaction) : PendingReservations where
  rows := without E s.rows (txs.map (getTxId E))
  debits := release (·.sender) (·.totalDebitUnits) s.debits (regular txs)
  credits := release (·.recipient) (·.amountUnits) s.credits txs

def rebuildPendingDebitsIndex (s : PendingReservations) : PendingReservations :=
  let counted := s.rows.filter fun tx => tx.sender ≠ miningRewards && tx.hasValidRegularAmounts
  { s with
    debits := fun a => max (total (·.sender) (·.totalDebitUnits) counted a) 0
    credits := fun a => max (total (·.recipient) (·.amountUnits) counted a) 0 }

/-- `prune_pending_transactions`, or the validation of the rows at the start and in a sync, with the rebuild. -/
def prune (s : PendingReservations) (keep : Transaction → Bool) : PendingReservations :=
  rebuildPendingDebitsIndex { s with rows := s.rows.filter keep }

def persistReadmittedPendingTx (s : PendingReservations) (tx : Transaction × Text) : PendingReservations :=
  { s with rows := without E s.rows [getTxId E tx.1] ++ [withTruncatedSignature tx.1 tx.2] }

/-- What a reorg readmits, and the rebuild if that is anything. -/
def readmitReverted (s : PendingReservations) (txs : List (Transaction × Text)) : PendingReservations :=
  if txs = [] then s else rebuildPendingDebitsIndex (txs.foldl (persistReadmittedPendingTx E) s)

inductive Action where
  | insert (tx : Transaction) (sigHash : Text)
  | apply (txs : List Transaction)
  | clear (txs : List Transaction)
  | prune (keep : Transaction → Bool)
  | readmitReverted (txs : List (Transaction × Text))
  | rebuild

/-- A transaction that validation lets through. -/
def Regular (tx : Transaction) : Prop := tx.sender ≠ miningRewards ∧ tx.hasValidRegularAmounts = true

instance : DecidablePred Regular := fun _ => inferInstanceAs (Decidable (_ ∧ _))

/-- Admissions, blocks and reverted transactions have passed validation. -/
def step (s : PendingReservations) : Action → Option PendingReservations
  | .insert tx sigHash => if Regular tx then some (admitTransaction E s tx sigHash) else none
  | .apply txs =>
    if ∀ tx ∈ txs, tx.sender ≠ miningRewards → Regular tx then some (processTransactionsBatch E s txs) else none
  | .clear txs =>
    if ∀ tx ∈ txs, 0 ≤ tx.amountUnits ∧ (tx.sender ≠ miningRewards → Regular tx) then
      some (clearProcessedTransactions E s txs)
    else none
  | .prune keep => some (s.prune keep)
  | .readmitReverted txs => if ∀ tx ∈ txs, Regular tx.1 then some (readmitReverted E s txs) else none
  | .rebuild => some s.rebuildPendingDebitsIndex

/-! ### What is claimed of the totals, and when it holds -/

/-- The totals are those of the rows. -/
structure Right (s : PendingReservations) : Prop where
  debits : ∀ a, s.debits a = total (·.sender) (·.totalDebitUnits) s.rows a
  credits : ∀ a, s.credits a = total (·.recipient) (·.amountUnits) s.rows a

theorem right_empty : Right empty := ⟨fun _ => rfl, fun _ => rfl⟩

/-- By address, what is taken off is what the removed rows carried; or no row of the address is left, and it is
enough. -/
def Matched (party : Transaction → Text) (units : Transaction → ℤ) (txs gone left : List Transaction) : Prop :=
  ∀ a ∈ (txs ++ gone).map party, total party units txs a = total party units gone a ∨
    (∀ row ∈ left, party row ≠ a) ∧ total party units gone a ≤ total party units txs a

instance (party : Transaction → Text) (units : Transaction → ℤ) (txs gone left : List Transaction) :
    Decidable (Matched party units txs gone left) := inferInstanceAs (Decidable (∀ a ∈ (txs ++ gone).map party, _))

/-- The rows with one of the ids. -/
def among (rows : List Transaction) (ids : List Text) : List Transaction :=
  rows.filter fun row => getTxId E row ∈ ids

/-- The processed payments are, by address, the pending rows that they remove. -/
def Settles (s : PendingReservations) : Action → Prop
  | .apply txs =>
    let ids := (regular txs).map (getTxId E)
    Matched (·.sender) (·.totalDebitUnits) (regular txs) (among E s.rows ids) (without E s.rows ids) ∧
      Matched (·.recipient) (·.amountUnits) (regular txs) (among E s.rows ids) (without E s.rows ids)
  | .clear txs =>
    let ids := txs.map (getTxId E)
    Matched (·.sender) (·.totalDebitUnits) (regular txs) (among E s.rows ids) (without E s.rows ids) ∧
      Matched (·.recipient) (·.amountUnits) txs (among E s.rows ids) (without E s.rows ids)
  | _ => True

instance (s : PendingReservations) : (a : Action) → Decidable (Settles E s a)
  | .apply _ | .clear _ => inferInstanceAs (Decidable (_ ∧ _))
  | .insert .. | .prune _ | .readmitReverted _ | .rebuild => inferInstanceAs (Decidable True)

/-! ### Sums -/

section Sums

variable {E} {party : Transaction → Text} {units : Transaction → ℤ}

@[simp] theorem total_nil (a : Text) : total party units [] a = 0 := rfl

theorem total_cons (tx : Transaction) (txs : List Transaction) (a : Text) :
    total party units (tx :: txs) a = (if party tx = a then units tx else 0) + total party units txs a := by
  unfold total
  by_cases h : party tx = a <;> simp [h]

theorem total_append (xs ys : List Transaction) (a : Text) :
    total party units (xs ++ ys) a = total party units xs a + total party units ys a := by
  simp [total]

theorem total_nonneg {txs : List Transaction} (hpos : ∀ tx ∈ txs, 0 ≤ units tx) (a : Text) :
    0 ≤ total party units txs a := by
  refine List.sum_nonneg fun u hu => ?_
  obtain ⟨tx, htx, rfl⟩ := List.mem_map.mp hu
  exact hpos tx (List.mem_of_mem_filter htx)

/-- A total is zero where the party has nothing, and only there. -/
theorem total_eq_zero {txs : List Transaction} (hpos : ∀ tx ∈ txs, 0 < units tx) (a : Text) :
    total party units txs a = 0 ↔ ∀ tx ∈ txs, party tx ≠ a := by
  induction txs with
  | nil => simp
  | cons tx txs ih =>
    obtain ⟨htx, hrest⟩ := List.forall_mem_cons.mp hpos
    have hnonneg : 0 ≤ total party units txs a := total_nonneg (fun u hu => (hrest u hu).le) a
    rw [total_cons, List.forall_mem_cons, ← ih hrest]
    by_cases h : party tx = a
    · simp only [h, if_true, ne_eq, not_true_eq_false, false_and, iff_false]
      omega
    · simp only [h, if_false, zero_add, ne_eq, not_false_eq_true, true_and]

/-- Rows are those that go and those that stay. -/
theorem total_among_add_without (rows : List Transaction) (ids : List Text) (a : Text) :
    total party units (among E rows ids) a + total party units (without E rows ids) a =
      total party units rows a := by
  induction rows with
  | nil => rfl
  | cons row rows ih =>
    by_cases h : getTxId E row ∈ ids
    · rw [among, without, List.filter_cons_of_pos (by simpa using h), List.filter_cons_of_neg (by simpa using h),
        total_cons, total_cons, add_assoc]
      exact congrArg _ ih
    · rw [among, without, List.filter_cons_of_neg (by simpa using h), List.filter_cons_of_pos (by simpa using h),
        total_cons, total_cons, add_left_comm]
      exact congrArg _ ih

/-- A total that is right takes a new row along. -/
theorem total_append_row {totals : Text → ℤ} {rows : List Transaction} (row : Transaction)
    (hright : ∀ a, totals a = total party units rows a) (hrows : ∀ r ∈ rows, 0 ≤ units r) (hrow : 0 ≤ units row)
    (a : Text) : shift totals (party row) (units row) a = total party units (rows ++ [row]) a := by
  have hnonneg : 0 ≤ total party units rows a := total_nonneg hrows a
  rw [total_append, total_cons, total_nil]
  by_cases ha : party row = a
  · rw [shift, ha, Function.update_self, hright, if_pos rfl]
    omega
  · rw [shift, Function.update_of_ne (Ne.symm ha), hright, if_neg ha]
    omega

/-- What is taken off one after the other is taken off at once. -/
theorem release_eq : ∀ {txs : List Transaction}, (∀ tx ∈ txs, 0 ≤ units tx) → ∀ {totals : Text → ℤ},
    (∀ a, 0 ≤ totals a) → ∀ a, release party units totals txs a = max (totals a - total party units txs a) 0
  | [], _, totals, htotals, a => by
    simp [release, htotals a]
  | tx :: txs, hpos, totals, htotals, a => by
    obtain ⟨htx, hrest⟩ := List.forall_mem_cons.mp hpos
    have hshift : ∀ b, shift totals (party tx) (-units tx) b =
        max (totals b - if party tx = b then units tx else 0) 0 := by
      intro b
      by_cases h : b = party tx
      · subst h
        rw [shift, Function.update_self, max_eq_left (htotals _), if_pos rfl, sub_eq_add_neg]
      · rw [shift, Function.update_of_ne h, if_neg (Ne.symm h), sub_zero, max_eq_left (htotals b)]
    have hnonneg : ∀ b, 0 ≤ shift totals (party tx) (-units tx) b := by
      intro b
      rw [hshift b]
      exact le_max_right _ _
    have htotal : 0 ≤ total party units txs a := total_nonneg hrest a
    rw [release, List.foldl_cons, ← release, release_eq hrest hnonneg a, hshift a, total_cons]
    omega

/-- **The totals stay right exactly if the payments match the rows they remove.** -/
theorem right_iff_matched {totals : Text → ℤ} {rows txs : List Transaction} (ids : List Text)
    (hright : ∀ a, totals a = total party units rows a) (hrows : ∀ row ∈ rows, 0 < units row)
    (htxs : ∀ tx ∈ txs, 0 ≤ units tx) :
    (∀ a, release party units totals txs a = total party units (without E rows ids) a) ↔
      Matched party units txs (among E rows ids) (without E rows ids) := by
  have hleft : ∀ row ∈ without E rows ids, 0 < units row := fun row hrow => hrows row (List.mem_of_mem_filter hrow)
  have htotals : ∀ a, 0 ≤ totals a := by
    intro a
    rw [hright a]
    exact total_nonneg (fun row hrow => (hrows row hrow).le) a
  have hiff : ∀ a, release party units totals txs a = total party units (without E rows ids) a ↔
      total party units txs a = total party units (among E rows ids) a ∨
        (∀ row ∈ without E rows ids, party row ≠ a) ∧
          total party units (among E rows ids) a ≤ total party units txs a := by
    intro a
    have hsplit : total party units (among E rows ids) a + total party units (without E rows ids) a =
        total party units rows a := total_among_add_without rows ids a
    have hnonneg : 0 ≤ total party units (without E rows ids) a :=
      total_nonneg (fun row hrow => (hleft row hrow).le) a
    rw [release_eq htxs htotals a, ← total_eq_zero hleft a, hright a]
    omega
  constructor
  · exact fun h a _ => (hiff a).mp (h a)
  · intro h a
    refine (hiff a).mpr ?_
    by_cases ha : a ∈ (txs ++ among E rows ids).map party
    · exact h a ha
    · have hnone : ∀ tx ∈ txs ++ among E rows ids, party tx ≠ a := fun tx htx hparty =>
        ha (List.mem_map.mpr ⟨tx, htx, hparty⟩)
      have hzero : ∀ xs, (∀ tx ∈ xs, party tx ≠ a) → total party units xs a = 0 := by
        intro xs hxs
        rw [total, List.filter_eq_nil_iff.mpr (by simpa using hxs), List.map_nil, List.sum_nil]
      refine .inl ?_
      rw [hzero txs fun tx htx => hnone tx (List.mem_append_left _ htx),
        hzero _ fun tx htx => hnone tx (List.mem_append_right _ htx)]

end Sums

/-! ### The steps -/

variable {E} {s t : PendingReservations}

theorem without_cons (rows : List Transaction) (id : Text) (ids : List Text) :
    without E (without E rows [id]) ids = without E rows (id :: ids) := by
  rw [without, without, without, List.filter_filter]
  refine List.filter_congr fun row _ => ?_
  by_cases h : getTxId E row = id <;> simp [h]

/-- A block takes off its payments, and removes their rows. -/
theorem processTransactionsBatch_eq : ∀ (txs : List Transaction) (s : PendingReservations),
    processTransactionsBatch E s txs =
      { rows := without E s.rows ((regular txs).map (getTxId E))
        debits := release (·.sender) (·.totalDebitUnits) s.debits (regular txs)
        credits := release (·.recipient) (·.amountUnits) s.credits (regular txs) }
  | [], s => by
    simp [processTransactionsBatch, regular, without, release]
  | tx :: txs, s => by
    have hrest := processTransactionsBatch_eq txs
    rw [processTransactionsBatch, List.foldl_cons, ← processTransactionsBatch, hrest]
    by_cases hreward : tx.sender = miningRewards
    · have hregular : regular (tx :: txs) = regular txs := List.filter_cons_of_neg (by simpa using hreward)
      rw [processTransaction, if_pos hreward, hregular]
    · have hregular : regular (tx :: txs) = tx :: regular txs := List.filter_cons_of_pos (by simpa using hreward)
      rw [processTransaction, if_neg hreward, hregular]
      dsimp only
      rw [without_cons]
      rfl

theorem Regular.debit_pos {tx : Transaction} (h : Regular tx) : 0 < tx.totalDebitUnits := by
  have hvalid := h.2
  unfold Transaction.hasValidRegularAmounts minTransactionAmountUnits at hvalid
  simp only [Bool.and_eq_true, decide_eq_true_eq] at hvalid
  unfold Transaction.totalDebitUnits i128Max
  omega

theorem Regular.amount_pos {tx : Transaction} (h : Regular tx) : 0 < tx.amountUnits := by
  have hvalid := h.2
  unfold Transaction.hasValidRegularAmounts minTransactionAmountUnits at hvalid
  simp only [Bool.and_eq_true, decide_eq_true_eq] at hvalid
  omega

/-- An admission adds what its row carries. -/
theorem right_insert {tx : Transaction} (sigHash : Text) (hs : Right s) (hrows : ∀ row ∈ s.rows, Regular row)
    (htx : Regular tx) : Right (admitTransaction E s tx sigHash) := by
  unfold admitTransaction
  split_ifs
  · exact hs
  · have hdebits := total_append_row (withTruncatedSignature tx sigHash) hs.debits
      (fun row hrow => (hrows row hrow).debit_pos.le) htx.debit_pos.le
    have hcredits := total_append_row (withTruncatedSignature tx sigHash) hs.credits
      (fun row hrow => (hrows row hrow).amount_pos.le) htx.amount_pos.le
    exact ⟨hdebits, hcredits⟩

/-- A rebuild makes the totals right. -/
theorem right_rebuild (hrows : ∀ row ∈ s.rows, Regular row) : Right s.rebuildPendingDebitsIndex := by
  have hall : (s.rows.filter fun tx => tx.sender ≠ miningRewards && tx.hasValidRegularAmounts) = s.rows := by
    refine List.filter_eq_self.mpr fun row hrow => ?_
    rw [Bool.and_eq_true, decide_eq_true_eq]
    exact hrows row hrow
  constructor
  · intro a
    rw [rebuildPendingDebitsIndex]
    dsimp only
    rw [hall, max_eq_left (total_nonneg (fun row hrow => (hrows row hrow).debit_pos.le) a)]
  · intro a
    rw [rebuildPendingDebitsIndex]
    dsimp only
    rw [hall, max_eq_left (total_nonneg (fun row hrow => (hrows row hrow).amount_pos.le) a)]

theorem regular_of_mem {txs : List Transaction} (hregular : ∀ tx ∈ txs, tx.sender ≠ miningRewards → Regular tx) :
    ∀ tx ∈ regular txs, Regular tx := by
  intro tx htx
  obtain ⟨hmem, hsender⟩ := List.mem_filter.mp htx
  exact hregular tx hmem (of_decide_eq_true hsender)

theorem right_apply {txs : List Transaction} (hs : Right s) (hrows : ∀ row ∈ s.rows, Regular row)
    (hregular : ∀ tx ∈ txs, tx.sender ≠ miningRewards → Regular tx) :
    Right (processTransactionsBatch E s txs) ↔ Settles E s (.apply txs) := by
  have hmem := regular_of_mem hregular
  rw [processTransactionsBatch_eq]
  unfold Settles
  dsimp only
  rw [← right_iff_matched _ hs.debits (fun row hrow => (hrows row hrow).debit_pos)
      fun tx htx => (hmem tx htx).debit_pos.le,
    ← right_iff_matched _ hs.credits (fun row hrow => (hrows row hrow).amount_pos)
      fun tx htx => (hmem tx htx).amount_pos.le]
  exact ⟨fun h => ⟨h.debits, h.credits⟩, fun h => ⟨h.1, h.2⟩⟩

theorem right_clear {txs : List Transaction} (hs : Right s) (hrows : ∀ row ∈ s.rows, Regular row)
    (hamounts : ∀ tx ∈ txs, 0 ≤ tx.amountUnits ∧ (tx.sender ≠ miningRewards → Regular tx)) :
    Right (clearProcessedTransactions E s txs) ↔ Settles E s (.clear txs) := by
  have hmem := regular_of_mem fun tx htx => (hamounts tx htx).2
  unfold Settles clearProcessedTransactions
  dsimp only
  rw [← right_iff_matched _ hs.debits (fun row hrow => (hrows row hrow).debit_pos)
      fun tx htx => (hmem tx htx).debit_pos.le,
    ← right_iff_matched _ hs.credits (fun row hrow => (hrows row hrow).amount_pos)
      fun tx htx => (hamounts tx htx).1]
  exact ⟨fun h => ⟨h.debits, h.credits⟩, fun h => ⟨h.1, h.2⟩⟩

theorem regular_readmitted : ∀ (txs : List (Transaction × Text)) {s : PendingReservations},
    (∀ row ∈ s.rows, Regular row) → (∀ tx ∈ txs, Regular tx.1) →
      ∀ row ∈ (txs.foldl (persistReadmittedPendingTx E) s).rows, Regular row
  | [], _, hrows, _ => hrows
  | tx :: txs, s, hrows, htxs => by
    obtain ⟨htx, hrest⟩ := List.forall_mem_cons.mp htxs
    refine regular_readmitted txs (fun row hrow => ?_) hrest
    rcases List.mem_append.mp hrow with hold | hnew
    · exact hrows row (List.mem_of_mem_filter hold)
    · rw [List.mem_singleton.mp hnew]
      exact htx

/-- The rows stay those of regular transactions. -/
theorem regular_step {a : Action} (hrows : ∀ row ∈ s.rows, Regular row) (hstep : step E s a = some t) :
    ∀ row ∈ t.rows, Regular row := by
  cases a with
  | insert tx sigHash =>
    simp only [step] at hstep
    split_ifs at hstep with htx
    obtain rfl := Option.some.inj hstep
    unfold admitTransaction
    split_ifs
    · exact hrows
    · intro row hrow
      rcases List.mem_append.mp hrow with hold | hnew
      · exact hrows row hold
      · rw [List.mem_singleton.mp hnew]
        exact htx
  | apply txs =>
    simp only [step] at hstep
    split_ifs at hstep
    obtain rfl := Option.some.inj hstep
    rw [processTransactionsBatch_eq]
    exact fun row hrow => hrows row (List.mem_of_mem_filter hrow)
  | clear txs =>
    simp only [step] at hstep
    split_ifs at hstep
    obtain rfl := Option.some.inj hstep
    exact fun row hrow => hrows row (List.mem_of_mem_filter hrow)
  | prune keep =>
    obtain rfl := Option.some.inj hstep
    exact fun row hrow => hrows row (List.mem_of_mem_filter hrow)
  | readmitReverted txs =>
    simp only [step] at hstep
    split_ifs at hstep with htxs
    obtain rfl := Option.some.inj hstep
    unfold readmitReverted
    split_ifs
    · exact hrows
    · exact regular_readmitted txs hrows htxs
  | rebuild =>
    obtain rfl := Option.some.inj hstep
    exact hrows

/-- From right totals a step leads to right totals exactly if its payments match their rows. -/
theorem right_step {a : Action} (hs : Right s) (hrows : ∀ row ∈ s.rows, Regular row)
    (hstep : step E s a = some t) : Settles E s a ↔ Right t := by
  have hrows' := regular_step hrows hstep
  cases a with
  | insert tx sigHash =>
    simp only [step] at hstep
    split_ifs at hstep with htx
    obtain rfl := Option.some.inj hstep
    exact iff_of_true trivial (right_insert sigHash hs hrows htx)
  | apply txs =>
    simp only [step] at hstep
    split_ifs at hstep with hregular
    obtain rfl := Option.some.inj hstep
    exact (right_apply hs hrows hregular).symm
  | clear txs =>
    simp only [step] at hstep
    split_ifs at hstep with hamounts
    obtain rfl := Option.some.inj hstep
    exact (right_clear hs hrows hamounts).symm
  | prune keep =>
    obtain rfl := Option.some.inj hstep
    exact iff_of_true trivial (right_rebuild hrows')
  | readmitReverted txs =>
    simp only [step] at hstep
    split_ifs at hstep with htxs
    obtain rfl := Option.some.inj hstep
    refine iff_of_true trivial ?_
    unfold readmitReverted
    split_ifs
    · exact hs
    · exact right_rebuild (regular_readmitted txs hrows htxs)
  | rebuild =>
    obtain rfl := Option.some.inj hstep
    exact iff_of_true trivial (right_rebuild hrows)

/-- **Reservations are those of the rows** in every state of a run exactly if every block and every list that is
cleared matches the pending rows it removes. -/
theorem reservations_match_rows (E : Env) {s t : PendingReservations} {tr : List (PendingReservations × Action)}
    (hrows : ∀ row ∈ s.rows, Regular row) (hright : Right s)
    (hrun : Trace.Run (fun s a t => step E s a = some t) s tr t) :
    (∀ p ∈ tr, Settles E p.1 p.2) ↔ (∀ p ∈ tr, Right p.1) ∧ Right t := by
  have h := hrun.forall_iff (I := fun s => ∀ row ∈ s.rows, Regular row) (G := Right) (C := Settles E)
    (P := fun _ _ => True) (fun _ _ _ hI hst => regular_step hI hst)
    (fun _ _ _ hI hG hst => by rw [true_and]; exact right_step hG hI hst) hrows hright
  simpa only [true_and] using h

/-! ### Two runs of one node -/

open Toy

def rent : Transaction := toyTransfer [1] bob 6000 (genesisLaunchTimestamp + 8)
def food : Transaction := toyTransfer [1] alice 3000 (genesisLaunchTimestamp + 9)
def debt : Transaction := toyTransfer [2] alice 2000 (genesisLaunchTimestamp + 9)

/-- Two payments are held, one of them is confirmed and comes back, and both rows go. -/
def heldAll : List Action :=
  [.insert rent ['r'], .insert food ['f'], .insert food ['f'], .apply [toyReward bob 5, rent],
    .readmitReverted [(rent, ['r'])], .insert debt ['d'], .clear [food, debt],
    .prune fun tx => tx.timestamp != genesisLaunchTimestamp + 8]

/-- Beside a pending payment a block confirms one of the same sender that was never held. -/
def unheld : List Action := [.insert rent ['r'], .apply [toyReward bob 5, food]]

theorem held_payments_settle :
    ∃ r, Trace.follow (step toyEnv) empty heldAll = some r ∧ (∀ p ∈ r.1, Right p.1) ∧ Right r.2 := by
  have h : (Trace.follow (step toyEnv) empty heldAll).any (fun r =>
      r.1.all fun p => decide (Settles toyEnv p.1 p.2)) = true := by
    decide +kernel
  obtain ⟨r, hr, h⟩ := (Option.any_eq_true _ _).mp h
  rw [List.all_eq_true] at h
  exact ⟨r, hr, (reservations_match_rows toyEnv (by decide) right_empty (Trace.run_follow hr)).mp
    fun p hp => of_decide_eq_true (h p hp)⟩

/-- The rent is pending, and half of it is no longer reserved. -/
theorem unheld_payment_shrinks_reservation :
    ¬ ∀ r, Trace.follow (step toyEnv) empty unheld = some r → Right r.2 := by
  have h : (Trace.follow (step toyEnv) empty unheld).any (fun r =>
      decide (total (·.sender) (·.totalDebitUnits) r.2.rows alice = 6000 ∧ r.2.debits alice = 3000)) = true := by
    decide +kernel
  obtain ⟨r, hr, h⟩ := (Option.any_eq_true _ _).mp h
  obtain ⟨hrows, hdebits⟩ := of_decide_eq_true h
  intro hright
  have hmatch := (hright r hr).debits alice
  rw [hrows, hdebits] at hmatch
  exact absurd hmatch (by decide)

end PendingReservations

end Alphanumeric
