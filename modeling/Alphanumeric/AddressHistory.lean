/-
# The history of an address, read off the index

What an explorer asks of the address index (`address_recent_txs`, `address_txs_page` in
`src/a9/blockchain.rs`): the newest entries with a cutoff, and pages below a cursor. The history they
should serve is stated without the index: `payments` lists the transactions of the chain that
involve the address. The rows of an address are its payments, in order, so pages that continue at
each other's last entries list them all, newest first.

The walk with a cutoff stops at the first entry that is older by twice the block skew. The
timestamps it compares are the transactions' own, which may be hours behind their blocks, so
an old signature mined late hides the recent payments below it.

Key definitions: `addressRecentTxs`, `addressTxsPage`, `payments`, `PagesFrom`, `HistoryExact`,
`HistoryReadable`.
Key theorems: `CanonicalRun.scan_payments`, `addressRecentTxs_eq`, `addressTxsPage_eq`, `pagesFrom_all`,
`history_exact_iff`.
-/
import Alphanumeric.AddressIndex
import Mathlib.Data.List.TakeWhile

namespace Alphanumeric

open Guard

/-! ### The queries -/

/-- The walk of `address_recent_txs` from the newest row down, with the entries listed so far. -/
def recentLoop (prefixLen limit : ℕ) (sinceTimestamp : Option ℕ) :
    List (Bytes × Bytes) → List AddressTxEntry → Except DerivedIndexError (List AddressTxEntry)
  | [], entries => .ok entries
  | (key, value) :: rows, entries => do
    let entry ← decodeAddressTxEntry prefixLen key value
    if sinceTimestamp.any (entry.timestamp < ·) then
      if sinceTimestamp.any (entry.timestamp + 2 * maxBlockFutureTime < ·) then .ok entries
      else recentLoop prefixLen limit sinceTimestamp rows entries
    else if limit ≤ (entries ++ [entry]).length then .ok (entries ++ [entry])
    else recentLoop prefixLen limit sinceTimestamp rows (entries ++ [entry])

def addressRecentTxs (rows : Ordered Bytes Bytes) (address : Text) (limit : ℕ) (sinceTimestamp : Option ℕ) :
    Except DerivedIndexError (List AddressTxEntry) :=
  let start := addressTxPrefix address
  recentLoop start.length limit sinceTimestamp (rows.scan fun key => start.isPrefixOf key).reverse []

/-- Entries strictly below the cursor, `limit` at a time: the walk without a cutoff over the keys from
the address's prefix up to the cursor. -/
def addressTxsPage (rows : Ordered Bytes Bytes) (address : Text) (limit : ℕ) (before : Option (ℕ × ℕ)) :
    Except DerivedIndexError (List AddressTxEntry) :=
  match before with
  | none => addressRecentTxs rows address limit none
  | some (beforeHeight, beforePosition) =>
    let start := addressTxPrefix address
    let cursor := addressTxKey address beforeHeight beforePosition
    recentLoop start.length limit none (rows.scan fun key => start ≤ key ∧ key < cursor).reverse []

/-- A caller's pages, from page `k` and its cursor on: each next cursor is the last entry of the page
before, the last page is empty, and page `k` asks for `limits k` entries. -/
inductive PagesFrom (rows : Ordered Bytes Bytes) (address : Text) (limits : ℕ → ℕ) :
    ℕ → Option (ℕ × ℕ) → List AddressTxEntry → Prop
  | done {k : ℕ} {before : Option (ℕ × ℕ)} (h : addressTxsPage rows address (limits k) before = .ok []) :
      PagesFrom rows address limits k before []
  | more {k : ℕ} {before : Option (ℕ × ℕ)} {page rest : List AddressTxEntry} {last : AddressTxEntry}
      (h : addressTxsPage rows address (limits k) before = .ok page) (hlast : page.getLast? = some last)
      (hrest : PagesFrom rows address limits (k + 1) (some (last.height, last.position)) rest) :
      PagesFrom rows address limits k before (page ++ rest)

/-! ### The history an address has -/

/-- A transaction as `address` sees it, if it is a party. -/
def paymentAt (address : Text) (height position : ℕ) (tx : Transaction) : Option AddressTxEntry :=
  if tx.sender = address ∨ tx.recipient = address then
    some
      { height, position
        flags := (if tx.sender = address then addressTxFlagSender else 0) |||
          (if tx.recipient = address then addressTxFlagRecipient else 0)
        amountUnits := tx.amountUnits, feeUnits := tx.feeUnits, timestamp := tx.timestamp
        counterparty := if tx.sender = address then tx.recipient else tx.sender }
  else none

def blockPayments (address : Text) (b : Block) : List AddressTxEntry :=
  b.transactions.zipIdx.filterMap fun (tx, position) => paymentAt address b.index position tx

/-- Every transaction of the chain that involves `address`, in order of confirmation. -/
def payments (address : Text) (chain : List Block) : List AddressTxEntry := chain.flatMap (blockPayments address)

/-- `e` was confirmed below height and position `c`. -/
def AddressTxEntry.Below (e : AddressTxEntry) (c : ℕ × ℕ) : Prop :=
  e.height < c.1 ∨ e.height = c.1 ∧ e.position < c.2

instance (e : AddressTxEntry) (c : ℕ × ℕ) : Decidable (e.Below c) := inferInstanceAs (Decidable (_ ∨ _))

/-- What the index serves is the history: the rows are a rebuild's, they decode, the pages together list
every payment newest first, and a query with a cutoff lists the newest `limit` payments from the cutoff on. -/
structure HistoryExact (s : ChainIndex) (address : Text) (limits : ℕ → ℕ) (limit cutoff : ℕ) : Prop where
  rows : s.index.rows = (rebuildAddressTxIndex s.chain).rows
  decodes : ∀ e ∈ payments address s.chain,
    decodeAddressTxEntry (addressTxPrefix address).length (e.row address).1 (e.row address).2 = .ok e
  pages : PagesFrom s.index.rows address limits 0 none (payments address s.chain).reverse
  recent : addressRecentTxs s.index.rows address limit (some cutoff) =
    .ok (((payments address s.chain).reverse.filter (cutoff ≤ ·.timestamp)).take limit)

/-- The payment is older than the cutoff by more than the margin of the walk. -/
def AddressTxEntry.Stale (cutoff : ℕ) (e : AddressTxEntry) : Prop := e.timestamp + 2 * maxBlockFutureTime < cutoff

instance (cutoff : ℕ) : DecidablePred (AddressTxEntry.Stale cutoff) := fun _ => inferInstanceAs (Decidable (_ < _))

/-- When the index serves the history. Of the payments newest first, those before the first stale one must
hold `limit` recent ones, or no recent one may follow; a query for none must find none there. -/
structure HistoryReadable (chain : List Block) (address : Text) (limit cutoff : ℕ) : Prop where
  account : address ∈ systemAddresses → payments address chain = []
  named : ∀ e ∈ payments address chain, e.counterparty ≠ []
  front : limit = 0 → ∀ e ∈ (payments address chain).reverse.takeWhile (¬ ·.Stale cutoff), e.timestamp < cutoff
  margin : limit ≤ (((payments address chain).reverse.takeWhile (¬ ·.Stale cutoff)).filter
      (cutoff ≤ ·.timestamp)).length ∨
    ∀ e ∈ (payments address chain).reverse.dropWhile (¬ ·.Stale cutoff), e.timestamp < cutoff

variable {E : Env}

/-! ### The walk -/

/-- The rows of readable entries, walked: the entries before the first stale one that are not too old, up
to the limit, and at least one if there is one. -/
theorem recentLoop_eq {address : Text} {limit : ℕ} {since : Option ℕ} : ∀ {es : List AddressTxEntry}
    {entries : List AddressTxEntry},
    (∀ e ∈ es, decodeAddressTxEntry (addressTxPrefix address).length (e.row address).1 (e.row address).2 = .ok e) →
    entries.length < max limit 1 →
    recentLoop (addressTxPrefix address).length limit since (es.map (AddressTxEntry.row address)) entries =
      .ok (entries ++ ((es.takeWhile fun e => !since.any (e.timestamp + 2 * maxBlockFutureTime < ·)).filter
        fun e => !since.any (e.timestamp < ·)).take (max limit 1 - entries.length))
  | [], entries, _, _ => by simp [recentLoop]
  | e :: es, entries, hdec, hlen => by
    have he := hdec e List.mem_cons_self
    have hrest := fun e' he' => hdec e' (List.mem_cons_of_mem _ he')
    rw [List.map_cons, recentLoop, he, ok_bind]
    by_cases hold : since.any (e.timestamp < ·) = true
    · rw [if_pos hold]
      by_cases hstale : since.any (e.timestamp + 2 * maxBlockFutureTime < ·) = true
      · rw [if_pos hstale, List.takeWhile_cons_of_neg (by simp [hstale])]
        simp
      · rw [if_neg hstale, List.takeWhile_cons_of_pos (by simp [hstale]), List.filter_cons_of_neg (by simp [hold]),
          recentLoop_eq hrest hlen]
    · have hstale : ¬ since.any (e.timestamp + 2 * maxBlockFutureTime < ·) = true := by
        cases since with
        | none => simp
        | some cutoff =>
          simp only [Option.any_some, decide_eq_true_eq] at hold ⊢
          omega
      have hsize : (entries ++ [e]).length = entries.length + 1 := by simp
      rw [if_neg hold, List.takeWhile_cons_of_pos (by simp [hstale]), List.filter_cons_of_pos (by simp [hold]), hsize]
      by_cases hfull : limit ≤ entries.length + 1
      · have hone : max limit 1 - entries.length = 1 := by omega
        rw [if_pos hfull, hone, List.take_succ_cons, List.take_zero]
      · have hmore : max limit 1 - entries.length = (max limit 1 - (entries ++ [e]).length) + 1 := by
          rw [hsize]
          omega
        rw [if_neg hfull, recentLoop_eq hrest (by rw [hsize]; omega), hmore, List.take_succ_cons, List.append_assoc,
          List.singleton_append]

/-! ### Rows are payments -/

theorem paymentAt_eq_some {address : Text} {height position : ℕ} {tx : Transaction} {e : AddressTxEntry}
    (h : paymentAt address height position tx = some e) :
    (tx.sender = address ∨ tx.recipient = address) ∧ e.height = height ∧ e.position = position ∧
      e.amountUnits = tx.amountUnits ∧ e.feeUnits = tx.feeUnits ∧ e.timestamp = tx.timestamp := by
  unfold paymentAt at h
  split at h
  · rename_i hparty
    cases h
    exact ⟨hparty, rfl, rfl, rfl, rfl, rfl⟩
  · cases h

theorem paymentAt_flags {address : Text} {height position : ℕ} {tx : Transaction} {e : AddressTxEntry}
    (h : paymentAt address height position tx = some e) : e.flags = addressTxFlagSender ∨
      e.flags = addressTxFlagRecipient ∨ e.flags = addressTxFlagSender ||| addressTxFlagRecipient := by
  unfold paymentAt at h
  split at h
  · rename_i hparty
    cases h
    by_cases hs : tx.sender = address <;> by_cases hr : tx.recipient = address
    · simp [hs, hr]
    · simp [hs, hr]
    · simp [hs, hr]
    · exact absurd hparty (not_or.mpr ⟨hs, hr⟩)
  · cases h

/-- The rows of a transaction are its payments, for the addresses that are indexed. -/
theorem mem_addressTxOps {height position : ℕ} {tx : Transaction} {op : Bytes × Bytes} :
    op ∈ addressTxOps height position tx ↔ ∃ address ∉ systemAddresses, ∃ e,
      paymentAt address height position tx = some e ∧ op = e.row address := by
  have hcontains : ∀ a, systemAddresses.contains a = true ↔ a ∈ systemAddresses := fun a => List.contains_iff_mem
  constructor
  · intro h
    simp only [addressTxOps, Bool.and_eq_true, Bool.not_eq_true', beq_iff_eq] at h
    split at h
    · rename_i hself
      rw [List.mem_singleton] at h
      refine ⟨tx.sender, fun hmem => ?_, _, if_pos (Or.inl rfl), ?_⟩
      · rw [(hcontains _).mpr hmem] at hself
        exact Bool.noConfusion hself.1.1
      · rw [h, AddressTxEntry.row, if_pos rfl, if_pos hself.2.symm, if_pos rfl, ← hself.2]
    · rename_i hself
      have hne : ∀ {a}, systemAddresses.contains a = false → a ∉ systemAddresses := fun hc hmem => by
        rw [(hcontains _).mpr hmem] at hc
        cases hc
      rcases List.mem_append.mp h with h | h
      · split at h
        · rename_i hsender
          rw [List.mem_singleton] at h
          refine ⟨tx.sender, hne hsender, _, if_pos (Or.inl rfl), ?_⟩
          have hother : tx.recipient ≠ tx.sender := fun heq =>
            hself ⟨⟨hsender, by rw [heq]; exact hsender⟩, heq.symm⟩
          rw [h, AddressTxEntry.row, if_pos rfl, if_neg hother, if_pos rfl]
          rfl
        · cases h
      · split at h
        · rename_i hrecipient
          rw [List.mem_singleton] at h
          refine ⟨tx.recipient, hne hrecipient, _, if_pos (Or.inr rfl), ?_⟩
          have hother : tx.sender ≠ tx.recipient := fun heq =>
            hself ⟨⟨by rw [heq]; exact hrecipient, hrecipient⟩, heq⟩
          rw [h, AddressTxEntry.row, if_neg hother, if_pos rfl, if_neg hother]
          rfl
        · cases h
  · rintro ⟨address, haddress, e, he, rfl⟩
    have hindexed : systemAddresses.contains address = false := by
      rw [← Bool.not_eq_true, hcontains]
      exact haddress
    unfold paymentAt at he
    split at he
    · rename_i hparty
      cases he
      simp only [addressTxOps, AddressTxEntry.row, Bool.and_eq_true, Bool.not_eq_true', beq_iff_eq]
      by_cases hs : tx.sender = address <;> by_cases hr : tx.recipient = address
      · rw [hs, hr, hindexed]
        simp
      · have hne : ¬ address = tx.recipient := fun heq => hr heq.symm
        rw [hs, hindexed]
        simp [hr, hne]
      · rw [hr, hindexed]
        simp [hs]
      · exact absurd hparty (not_or.mpr ⟨hs, hr⟩)
    · cases he

theorem mem_blockPayments {address : Text} {b : Block} {e : AddressTxEntry} :
    e ∈ blockPayments address b ↔ ∃ position tx, b.transactions[position]? = some tx ∧
      paymentAt address b.index position tx = some e := by
  simp only [blockPayments, List.mem_filterMap]
  constructor
  · rintro ⟨⟨tx, position⟩, hmem, he⟩
    exact ⟨position, tx, List.mk_mem_zipIdx_iff_getElem?.mp hmem, he⟩
  · rintro ⟨position, tx, hmem, he⟩
    exact ⟨(tx, position), List.mk_mem_zipIdx_iff_getElem?.mpr hmem, he⟩

theorem mem_addressIndexOps {b : Block} (hb : b.InRange) {op : Bytes × Bytes} :
    op ∈ addressIndexOps b ↔ ∃ address ∉ systemAddresses, ∃ e ∈ blockPayments address b, op = e.row address := by
  have hposition : ∀ {position : ℕ} {tx : Transaction}, b.transactions[position]? = some tx →
      position % 2 ^ 32 = position := fun h => Nat.mod_eq_of_lt
    ((List.getElem?_eq_some_iff.mp h).1.trans_le hb.positions)
  simp only [addressIndexOps, List.mem_flatMap]
  constructor
  · rintro ⟨⟨tx, position⟩, hmem, hop⟩
    have hget := List.mk_mem_zipIdx_iff_getElem?.mp hmem
    rw [hposition hget] at hop
    obtain ⟨address, haddress, e, he, hrow⟩ := mem_addressTxOps.mp hop
    exact ⟨address, haddress, e, mem_blockPayments.mpr ⟨position, tx, hget, he⟩, hrow⟩
  · rintro ⟨address, haddress, e, he, hrow⟩
    obtain ⟨position, tx, hget, hat⟩ := mem_blockPayments.mp he
    refine ⟨(tx, position), List.mk_mem_zipIdx_iff_getElem?.mpr hget, ?_⟩
    rw [hposition hget]
    exact mem_addressTxOps.mpr ⟨address, haddress, e, hat, hrow⟩

theorem mem_payments {address : Text} {chain : List Block} {e : AddressTxEntry} :
    e ∈ payments address chain ↔ ∃ b ∈ chain, e ∈ blockPayments address b := List.mem_flatMap

/-- The payments of a chain are within the field types, and their address is in the chain. -/
theorem Stacked.payment_inRange {chain : List Block} (h : Stacked chain) {address : Text} {e : AddressTxEntry}
    (he : e ∈ payments address chain) : e.InRange ∧ NulFree address := by
  obtain ⟨b, hb, heb⟩ := mem_payments.mp he
  obtain ⟨position, tx, hget, hat⟩ := mem_blockPayments.mp heb
  obtain ⟨i, hi⟩ := List.mem_iff_getElem?.mp hb
  obtain ⟨-, hrange, haddresses⟩ := h i b hi
  obtain ⟨hparty, hheight, hposition, hamount, hfee, htime⟩ := paymentAt_eq_some hat
  have htx : tx ∈ b.transactions := List.mem_of_getElem? hget
  have hlt : position < b.transactions.length := (List.getElem?_eq_some_iff.mp hget).1
  constructor
  · exact
      { height := by rw [hheight]; exact hrange.index
        position := by rw [hposition]; exact hlt.trans_le hrange.positions
        flags := paymentAt_flags hat
        amountUnits := by rw [hamount]; exact hrange.amountUnits tx htx
        feeUnits := by rw [hfee]; exact hrange.feeUnits tx htx
        timestamp := by rw [htime]; exact hrange.timestamp tx htx }
  · rcases hparty with rfl | rfl
    · exact (haddresses tx htx).1
    · exact (haddresses tx htx).2

/-- Payments are in order of height, and of position in a block. -/
theorem Stacked.payments_pairwise {chain : List Block} (h : Stacked chain) (address : Text) :
    (payments address chain).Pairwise fun a b => a.Below (b.height, b.position) := by
  rw [payments, List.pairwise_flatMap]
  constructor
  · intro b _
    rw [blockPayments, List.pairwise_filterMap, List.pairwise_iff_getElem]
    intro i j hi hj hij e he e' he'
    rw [List.length_zipIdx] at hi hj
    simp only [List.getElem_zipIdx, Nat.zero_add] at he he'
    obtain ⟨-, hheight, hposition, -⟩ := paymentAt_eq_some he
    obtain ⟨-, hheight', hposition', -⟩ := paymentAt_eq_some he'
    refine Or.inr ⟨?_, ?_⟩
    · rw [hheight, hheight']
    · rw [hposition, hposition']
      exact hij
  · rw [List.pairwise_iff_getElem]
    intro i j hi hj hij e he e' he'
    obtain ⟨_, _, _, hat⟩ := mem_blockPayments.mp he
    obtain ⟨_, _, _, hat'⟩ := mem_blockPayments.mp he'
    refine Or.inl ?_
    rw [(paymentAt_eq_some hat).2.1, (paymentAt_eq_some hat').2.1,
      (h i _ (List.getElem?_eq_getElem hi)).1, (h j _ (List.getElem?_eq_getElem hj)).1]
    exact hij

/-- A payment is known by its height and position. -/
theorem Stacked.payment_ext {chain : List Block} (h : Stacked chain) {address : Text} {e e' : AddressTxEntry}
    (he : e ∈ payments address chain) (he' : e' ∈ payments address chain) (hheight : e.height = e'.height)
    (hposition : e.position = e'.position) : e = e' := by
  by_contra hne
  have hsymm : Std.Symm fun a b : AddressTxEntry => a.Below (b.height, b.position) ∨ b.Below (a.height, a.position) :=
    ⟨fun _ _ => Or.symm⟩
  have hordered : (payments address chain).Pairwise fun a b =>
      a.Below (b.height, b.position) ∨ b.Below (a.height, a.position) :=
    (h.payments_pairwise address).imp fun hab => Or.inl hab
  have hpair := hordered.forall he he' hne
  simp only [AddressTxEntry.Below] at hpair
  omega

theorem mem_ops_iff {chain : List Block} (h : Stacked chain) {op : Bytes × Bytes} :
    op ∈ chain.flatMap addressIndexOps ↔
      ∃ address ∉ systemAddresses, ∃ e ∈ payments address chain, op = e.row address := by
  rw [List.mem_flatMap]
  constructor
  · rintro ⟨b, hb, hop⟩
    obtain ⟨address, haddress, e, he, hrow⟩ := (mem_addressIndexOps (h.inRange_of_mem hb)).mp hop
    exact ⟨address, haddress, e, mem_payments.mpr ⟨b, hb, he⟩, hrow⟩
  · rintro ⟨address, haddress, e, he, hrow⟩
    obtain ⟨b, hb, heb⟩ := mem_payments.mp he
    exact ⟨b, hb, (mem_addressIndexOps (h.inRange_of_mem hb)).mpr ⟨address, haddress, e, heb, hrow⟩⟩

/-- Rows with one key are one row. -/
theorem ops_consistent {chain : List Block} (h : Stacked chain) : ∀ a ∈ chain.flatMap addressIndexOps,
    ∀ b ∈ chain.flatMap addressIndexOps, a.1 = b.1 → a = b := by
  intro a ha b hb hkey
  obtain ⟨address, -, e, he, rfl⟩ := (mem_ops_iff h).mp ha
  obtain ⟨address', -, e', he', rfl⟩ := (mem_ops_iff h).mp hb
  have hrange := (h.payment_inRange he).1
  have hrange' := (h.payment_inRange he').1
  obtain ⟨rfl, hheight, hposition⟩ :=
    addressTxKey_inj hrange.height hrange'.height hrange.position hrange'.position hkey
  rw [h.payment_ext he he' hheight hposition]

/-- What the index holds: the payments of the addresses that are indexed. -/
theorem CanonicalRun.mem_rows {s : ChainIndex} (h : CanonicalRun E s) {op : Bytes × Bytes} :
    op ∈ s.index.rows.entries ↔
      ∃ address ∉ systemAddresses, ∃ e ∈ payments address s.chain, op = e.row address := by
  rw [h.current.rows, Ordered.mem_insertAll (ops_consistent h.current.chain), mem_ops_iff h.current.chain]
  simp [Ordered.empty]

/-- The payments that the index lists for an address: none for a system address. -/
def listed (address : Text) (chain : List Block) : List AddressTxEntry :=
  if address ∈ systemAddresses then [] else payments address chain

theorem mem_listed {address : Text} {chain : List Block} {e : AddressTxEntry} :
    e ∈ listed address chain ↔ address ∉ systemAddresses ∧ e ∈ payments address chain := by
  unfold listed
  split <;> simp_all

/-- **A walk over an address's keys lists its payments in order.** The keys walked are those of
the address whose entries pass `q`. -/
theorem CanonicalRun.scan_payments {s : ChainIndex} (h : CanonicalRun E s) (address : Text) {p : Bytes → Bool}
    {q : AddressTxEntry → Bool} (hkeys : ∀ (address' : Text) (e : AddressTxEntry), NulFree address' → e.InRange →
      (p (e.row address').1 = true ↔ address' = address ∧ q e = true)) :
    s.index.rows.scan p = ((listed address s.chain).filter q).map (AddressTxEntry.row address) := by
  have hchain := h.current.chain
  apply Ordered.scan_eq
  · have hsorted : (listed address s.chain).Pairwise fun a b => a.Below (b.height, b.position) := by
      unfold listed
      split
      · exact List.Pairwise.nil
      · exact hchain.payments_pairwise address
    rw [List.pairwise_map]
    refine (hsorted.filter q).imp_of_mem fun {a b} ha hb hab => ?_
    have hra := (hchain.payment_inRange (mem_listed.mp (List.mem_filter.mp ha).1).2).1
    have hrb := (hchain.payment_inRange (mem_listed.mp (List.mem_filter.mp hb).1).2).1
    exact (addressTxKey_lt_iff hra.height hrb.height hra.position hrb.position).mpr hab
  · intro op
    rw [h.mem_rows, List.mem_map]
    constructor
    · rintro ⟨e, he, rfl⟩
      obtain ⟨hmem, hq⟩ := List.mem_filter.mp he
      obtain ⟨haddress, hpay⟩ := mem_listed.mp hmem
      obtain ⟨hrange, hfree⟩ := hchain.payment_inRange hpay
      exact ⟨⟨address, haddress, e, hpay, rfl⟩, (hkeys address e hfree hrange).mpr ⟨rfl, hq⟩⟩
    · rintro ⟨⟨address', haddress, e, hpay, rfl⟩, hp⟩
      obtain ⟨hrange, hfree⟩ := hchain.payment_inRange hpay
      obtain ⟨rfl, hq⟩ := (hkeys address' e hfree hrange).mp hp
      exact ⟨e, List.mem_filter.mpr ⟨mem_listed.mpr ⟨haddress, hpay⟩, hq⟩, rfl⟩

/-! ### The queries answer from the history -/

/-- All payments of the address decode. -/
def Decodes (address : Text) (es : List AddressTxEntry) : Prop :=
  ∀ e ∈ es, decodeAddressTxEntry (addressTxPrefix address).length (e.row address).1 (e.row address).2 = .ok e

/-- Without a cutoff the walk takes the first `limit` entries. -/
theorem recentLoop_all {address : Text} {limit : ℕ} {es : List AddressTxEntry} (h : Decodes address es)
    (hlimit : 1 ≤ limit) : recentLoop (addressTxPrefix address).length limit none
      (es.map (AddressTxEntry.row address)) [] = .ok (es.take limit) := by
  have hall : es.takeWhile (fun _ => true) = es := List.takeWhile_eq_self_iff.mpr fun _ _ => rfl
  rw [recentLoop_eq h (by simp)]
  simp [hall, Nat.max_eq_left hlimit]

theorem CanonicalRun.decodes_iff {s : ChainIndex} (h : CanonicalRun E s) {address : Text} :
    Decodes address (payments address s.chain) ↔ ∀ e ∈ payments address s.chain, e.counterparty ≠ [] := by
  constructor
  · intro hdec e he hname
    have hok := hdec e he
    rw [decode_encode_nameless hname] at hok
    cases hok
  · intro hname e he
    exact decode_encode (h.current.chain.payment_inRange he).1 (hname e he)

theorem listed_decodes {address : Text} {chain : List Block} (h : Decodes address (payments address chain)) :
    Decodes address (listed address chain) :=
  fun e he => h e (mem_listed.mp he).2

theorem CanonicalRun.addressRecentTxs_loop {s : ChainIndex} (h : CanonicalRun E s) {address : Text}
    (ha : NulFree address) (limit : ℕ) (since : Option ℕ) : addressRecentTxs s.index.rows address limit since =
      recentLoop (addressTxPrefix address).length limit since
        ((listed address s.chain).reverse.map (AddressTxEntry.row address)) [] := by
  have hscan := h.scan_payments address (p := fun key => (addressTxPrefix address).isPrefixOf key)
    (q := fun _ => true) fun address' e hfree hrange => by
      rw [List.isPrefixOf_iff_prefix, AddressTxEntry.row, addressTxPrefix_isPrefix_iff ha hfree]
      simp [eq_comm]
  rw [List.filter_true] at hscan
  rw [addressRecentTxs, hscan, ← List.map_reverse]

/-- **What a query with a cutoff lists**: of the payments before the first stale one, the recent ones, up to
the limit, and one for a limit of none. -/
theorem CanonicalRun.addressRecentTxs_eq {s : ChainIndex} (h : CanonicalRun E s) {address : Text}
    (ha : NulFree address) (hdec : Decodes address (payments address s.chain)) (limit cutoff : ℕ) :
    addressRecentTxs s.index.rows address limit (some cutoff) =
      .ok ((((listed address s.chain).reverse.takeWhile (¬ ·.Stale cutoff)).filter
        (cutoff ≤ ·.timestamp)).take (max limit 1)) := by
  have hdec' : Decodes address (listed address s.chain).reverse := fun e he =>
    listed_decodes hdec e (List.mem_reverse.mp he)
  rw [h.addressRecentTxs_loop ha, recentLoop_eq hdec' (by simp)]
  simp [AddressTxEntry.Stale, ← decide_not]

/-- The entries of a page: those below the cursor, newest first. -/
theorem CanonicalRun.addressTxsPage_eq {s : ChainIndex} (h : CanonicalRun E s) {address : Text}
    (ha : NulFree address) (hdec : Decodes address (payments address s.chain)) {limit : ℕ} (hlimit : 1 ≤ limit) :
    addressTxsPage s.index.rows address limit none = .ok ((listed address s.chain).reverse.take limit) ∧
      ∀ c : ℕ × ℕ, c.1 < 2 ^ 32 → c.2 < 2 ^ 32 → addressTxsPage s.index.rows address limit (some c) =
        .ok (((listed address s.chain).reverse.filter (·.Below c)).take limit) := by
  have hdec' : Decodes address (listed address s.chain).reverse := fun e he =>
    listed_decodes hdec e (List.mem_reverse.mp he)
  constructor
  · rw [addressTxsPage, h.addressRecentTxs_loop ha, recentLoop_all hdec' hlimit]
  · rintro ⟨height, position⟩ hheight hposition
    have hscan := h.scan_payments address
      (p := fun key => addressTxPrefix address ≤ key ∧ key < addressTxKey address height position)
      (q := fun e => e.Below (height, position)) fun address' e hfree hrange => by
        rw [decide_eq_true_eq, decide_eq_true_eq, AddressTxEntry.row]
        constructor
        · rintro ⟨hle, hlt⟩
          rw [addressTxKey_eq address height position] at hlt
          obtain rfl := (addressTxPrefix_isPrefix_iff ha hfree).mp (List.isPrefix_of_between hle hlt)
          rw [← addressTxKey_eq] at hlt
          exact ⟨rfl, (addressTxKey_lt_iff hrange.height hheight hrange.position hposition).mp hlt⟩
        · rintro ⟨rfl, hbelow⟩
          refine ⟨not_lt.mp ?_, (addressTxKey_lt_iff hrange.height hheight hrange.position hposition).mpr hbelow⟩
          rw [addressTxKey_eq]
          exact List.le_append_left
    have hdecp : Decodes address ((listed address s.chain).reverse.filter (·.Below (height, position))) := fun e he =>
      hdec' e (List.mem_filter.mp he).1
    simp only [addressTxsPage]
    rw [hscan, ← List.map_reverse, ← List.filter_reverse, recentLoop_all hdecp hlimit]

/-! ### Pages list the whole history -/

theorem Stacked.listed_pairwise {chain : List Block} (h : Stacked chain) (address : Text) :
    (listed address chain).reverse.Pairwise fun a b => b.Below (a.height, a.position) := by
  rw [List.pairwise_reverse]
  unfold listed
  split
  · exact List.Pairwise.nil
  · exact h.payments_pairwise address

/-- Below the last entry of a part of a descending list is the rest of it. -/
theorem filter_below_last {front rest : List AddressTxEntry} {last : AddressTxEntry}
    (h : ((front ++ [last]) ++ rest).Pairwise fun a b => b.Below (a.height, a.position)) :
    ((front ++ [last]) ++ rest).filter (·.Below (last.height, last.position)) = rest := by
  obtain ⟨hfront, -, hcross⟩ := List.pairwise_append.mp h
  obtain ⟨-, -, hlast⟩ := List.pairwise_append.mp hfront
  rw [List.filter_append, List.filter_eq_nil_iff.mpr, List.filter_eq_self.mpr, List.nil_append]
  · intro e he
    exact decide_eq_true (hcross last (List.mem_append_right _ (List.mem_singleton.mpr rfl)) e he)
  · intro e he hbelow
    have hbelow := of_decide_eq_true hbelow
    rcases List.mem_append.mp he with he | he
    · have habove := hlast e he last (List.mem_singleton.mpr rfl)
      simp only [AddressTxEntry.Below] at hbelow habove
      omega
    · rw [List.mem_singleton] at he
      rw [he] at hbelow
      simp only [AddressTxEntry.Below] at hbelow
      omega

/-- The page below what is listed. -/
theorem CanonicalRun.page_rest {s : ChainIndex} (h : CanonicalRun E s) {address : Text} (ha : NulFree address)
    (hdec : Decodes address (payments address s.chain)) {limit : ℕ} (hlimit : 1 ≤ limit)
    {front rest : List AddressTxEntry} (hsplit : (listed address s.chain).reverse = front ++ rest) :
    addressTxsPage s.index.rows address limit (front.getLast?.map fun e => (e.height, e.position)) =
      .ok (rest.take limit) := by
  obtain ⟨hfirst, hbelow⟩ := h.addressTxsPage_eq ha hdec hlimit
  rcases List.eq_nil_or_concat front with rfl | ⟨init, last, rfl⟩
  · rw [List.getLast?_nil, Option.map_none, hfirst, hsplit, List.nil_append]
  · rw [List.concat_eq_append] at hsplit ⊢
    have hpairwise := h.current.chain.listed_pairwise address
    have hmem : last ∈ listed address s.chain := by
      rw [← List.mem_reverse, hsplit]
      simp
    have hrange := (h.current.chain.payment_inRange (mem_listed.mp hmem).2).1
    rw [List.getLast?_concat, Option.map_some, hbelow _ hrange.height hrange.position, hsplit]
    rw [hsplit] at hpairwise
    rw [filter_below_last hpairwise]

/-- Pages that start below what is listed list the rest. By induction on the length of the rest: a page is
not empty while there is a rest. -/
theorem CanonicalRun.pagesFrom_rest {s : ChainIndex} (h : CanonicalRun E s) {address : Text} (ha : NulFree address)
    (hdec : Decodes address (payments address s.chain)) {limits : ℕ → ℕ} (hlimits : ∀ k, 1 ≤ limits k) :
    ∀ (m k : ℕ) {front rest : List AddressTxEntry}, rest.length ≤ m →
      (listed address s.chain).reverse = front ++ rest →
      PagesFrom s.index.rows address limits k (front.getLast?.map fun e => (e.height, e.position)) rest := by
  intro m
  induction m with
  | zero =>
    intro k front rest hm hsplit
    obtain rfl := List.length_eq_zero_iff.mp (Nat.le_zero.mp hm)
    have hpage := h.page_rest ha hdec (hlimits k) hsplit
    rw [List.take_nil] at hpage
    exact .done hpage
  | succ m ih =>
    intro k front rest hm hsplit
    have hpage := h.page_rest ha hdec (hlimits k) hsplit
    by_cases hrest : rest = []
    · rw [hrest, List.take_nil] at hpage
      rw [hrest]
      exact .done hpage
    · have hpos : 0 < rest.length := List.length_pos_iff.mpr hrest
      have hlimit := hlimits k
      have hne : rest.take (limits k) ≠ [] := by
        rw [Ne, List.take_eq_nil_iff]
        simp only [hrest, or_false]
        omega
      have hlast := List.getLast?_eq_some_getLast hne
      have hsplit' : (listed address s.chain).reverse = (front ++ rest.take (limits k)) ++ rest.drop (limits k) := by
        rw [List.append_assoc, List.take_append_drop, hsplit]
      have hnext := ih (k + 1) (by rw [List.length_drop]; omega) hsplit'
      rw [List.getLast?_append, hlast, Option.some_or, Option.map_some] at hnext
      have hmore := PagesFrom.more hpage hlast hnext
      rwa [List.take_append_drop] at hmore

/-! ### When the history is served -/

/-- A walk that stops after `front` takes the newest of all that pass exactly when nothing that passes is lost. -/
theorem take_front_iff {α : Type} (p : α → Bool) (front back : List α) (limit : ℕ) :
    ((front.filter p).take (max limit 1) = ((front ++ back).filter p).take limit) ↔
      (limit = 0 → ∀ e ∈ front, p e = false) ∧
        (limit ≤ (front.filter p).length ∨ ∀ e ∈ back, p e = false) := by
  have hnone : ∀ es : List α, es.filter p = [] ↔ ∀ e ∈ es, p e = false := fun es => by
    rw [List.filter_eq_nil_iff]
    simp
  rw [List.filter_append]
  rcases Nat.eq_zero_or_pos limit with rfl | hpos
  · rw [Nat.max_eq_right (Nat.zero_le 1), List.take_zero, List.take_eq_nil_iff, hnone]
    simp
  · rw [Nat.max_eq_left hpos, List.take_append, List.self_eq_append_right, List.take_eq_nil_iff, hnone]
    constructor
    · intro h
      refine ⟨fun hzero => absurd hzero (by omega), h.imp_left fun hle => by omega⟩
    · intro h
      exact h.2.imp_left fun hle => by omega

theorem listed_eq {address : Text} {chain : List Block} (h : address ∈ systemAddresses → payments address chain = []) :
    listed address chain = payments address chain := by
  unfold listed
  split
  · rename_i hsystem
    rw [h hsystem]
  · rfl

theorem CanonicalRun.recent_iff {s : ChainIndex} (h : CanonicalRun E s) {address : Text} (ha : NulFree address)
    (hdec : Decodes address (payments address s.chain))
    (haccount : address ∈ systemAddresses → payments address s.chain = []) {limit cutoff : ℕ} :
    addressRecentTxs s.index.rows address limit (some cutoff) =
        .ok (((payments address s.chain).reverse.filter (cutoff ≤ ·.timestamp)).take limit) ↔
      (limit = 0 → ∀ e ∈ (payments address s.chain).reverse.takeWhile (¬ ·.Stale cutoff), e.timestamp < cutoff) ∧
        (limit ≤ (((payments address s.chain).reverse.takeWhile (¬ ·.Stale cutoff)).filter
            (cutoff ≤ ·.timestamp)).length ∨
          ∀ e ∈ (payments address s.chain).reverse.dropWhile (¬ ·.Stale cutoff), e.timestamp < cutoff) := by
  have hsplit := take_front_iff (fun e : AddressTxEntry => decide (cutoff ≤ e.timestamp))
    ((payments address s.chain).reverse.takeWhile (¬ ·.Stale cutoff))
    ((payments address s.chain).reverse.dropWhile (¬ ·.Stale cutoff)) limit
  rw [List.takeWhile_append_dropWhile] at hsplit
  rw [h.addressRecentTxs_eq ha hdec, listed_eq haccount, Except.ok.injEq, hsplit]
  simp only [decide_eq_false_iff_not, not_le]

/-- **When the index serves an address's history.** After any history of tip extensions, reorgs and restarts, the
rows are a rebuild's; they decode, the pages list every payment, newest first, and a query with a cutoff
lists the newest recent ones, exactly when the address is not a system address with payments, no
payment's other party is nameless, and the stop of the walk loses nothing. -/
theorem history_exact_iff {s : ChainIndex} (h : CanonicalRun E s) {address : Text} (ha : NulFree address)
    {limits : ℕ → ℕ} (hlimits : ∀ k, 1 ≤ limits k) (limit cutoff : ℕ) :
    HistoryExact s address limits limit cutoff ↔ HistoryReadable s.chain address limit cutoff := by
  constructor
  · intro hexact
    have hdec : Decodes address (payments address s.chain) := hexact.decodes
    have haccount : address ∈ systemAddresses → payments address s.chain = [] := by
      intro hsystem
      have hfirst := (h.addressTxsPage_eq ha hdec (hlimits 0)).1
      rw [listed, if_pos hsystem, List.reverse_nil, List.take_nil] at hfirst
      rw [← List.reverse_eq_nil_iff]
      generalize hout : (payments address s.chain).reverse = out
      have hpages := hexact.pages
      rw [hout] at hpages
      cases hpages with
      | done _ => rfl
      | more hpage hlast _ =>
        rw [hfirst] at hpage
        cases hpage
        cases hlast
    obtain ⟨hfront, hmargin⟩ := (h.recent_iff ha hdec haccount).mp hexact.recent
    exact ⟨haccount, h.decodes_iff.mp hdec, hfront, hmargin⟩
  · intro hreadable
    have hdec : Decodes address (payments address s.chain) := h.decodes_iff.mpr hreadable.named
    have hpages : PagesFrom s.index.rows address limits 0
        (([] : List AddressTxEntry).getLast?.map fun e => (e.height, e.position)) (listed address s.chain).reverse :=
      h.pagesFrom_rest ha hdec hlimits _ 0 le_rfl (List.nil_append _).symm
    rw [List.getLast?_nil, Option.map_none, listed_eq hreadable.account] at hpages
    exact ⟨h.rows_eq_rebuild, hdec, hpages,
      (h.recent_iff ha hdec hreadable.account).mpr ⟨hreadable.front, hreadable.margin⟩⟩

/-! ### An old signature mined late -/

theorem Stacked.snoc {chain : List Block} (h : Stacked chain) {b : Block} (hindex : b.index = chain.length)
    (hrange : b.InRange) (haddresses : ∀ tx ∈ b.transactions, NulFree tx.sender ∧ NulFree tx.recipient) :
    Stacked (chain ++ [b]) := by
  intro i c hc
  by_cases hi : i < chain.length
  · rw [List.getElem?_append_left hi] at hc
    exact h i c hc
  · rw [List.getElem?_append_right (by omega), List.getElem?_eq_some_iff] at hc
    obtain ⟨hlt, hget⟩ := hc
    rw [List.length_singleton] at hlt
    have heq : i = chain.length := by omega
    subst heq
    simp only [Nat.sub_self, List.getElem_cons_zero] at hget
    rw [← hget]
    exact ⟨hindex, hrange, haddresses⟩

def lateSender : Text := toyAddress [7]

/-- A payment signed when its block is mined. -/
def promptBlock : Block :=
  toyBlock (genesisLaunchBlock toyEnv) 5 ['m'] [toyTransfer [7] ['b'] 1000 (genesisLaunchTimestamp + 5)]

/-- A payment signed two hours before its block. -/
def lateBlock : Block := toyBlock promptBlock 5 ['m'] [toyTransfer [7] ['b'] 2000 (genesisLaunchTimestamp - 7200)]

def lateRun : ChainIndex :=
  ((ChainIndex.mk [genesisLaunchBlock toyEnv] (rebuildAddressTxIndex [genesisLaunchBlock toyEnv])).extend toyEnv
    promptBlock).extend toyEnv lateBlock

theorem lateRun_canonical : CanonicalRun toyEnv lateRun := by
  have hgenesis : Stacked ([] ++ [genesisLaunchBlock toyEnv]) :=
    Stacked.snoc (fun i b hb => by cases hb) rfl
      ⟨by decide +kernel, by decide +kernel, by decide +kernel, by decide +kernel, by decide +kernel⟩
      (by unfold NulFree; decide +kernel)
  have hprompt : Stacked ([genesisLaunchBlock toyEnv] ++ [promptBlock]) :=
    Stacked.snoc hgenesis rfl
      ⟨by decide +kernel, by decide +kernel, by decide +kernel, by decide +kernel, by decide +kernel⟩
      (by unfold NulFree; decide +kernel)
  have hstored := hprompt.store (E := toyEnv)
  exact .extend (.extend (.built hgenesis) hprompt) (Stacked.snoc hstored rfl
    ⟨by decide +kernel, by decide +kernel, by decide +kernel, by decide +kernel, by decide +kernel⟩
    (by unfold NulFree; decide +kernel))

/-- `history_exact_iff` on the chain with the late payment. -/
theorem history_exact_iff_late : HistoryExact lateRun lateSender (fun _ => 1) 10 0 ↔
    HistoryReadable lateRun.chain lateSender 10 0 :=
  history_exact_iff lateRun_canonical (by unfold NulFree; decide +kernel) (fun _ => le_rfl) 10 0

/-- Asked for the payments of the last hour, the index answers that there are none. -/
theorem recent_payment_hidden : CanonicalRun toyEnv lateRun ∧
    addressRecentTxs lateRun.index.rows lateSender 10 (some (genesisLaunchTimestamp - 3600)) = .ok [] ∧
    ((payments lateSender lateRun.chain).reverse.filter (genesisLaunchTimestamp - 3600 ≤ ·.timestamp)).take 10 ≠ [] ∧
    ¬ HistoryExact lateRun lateSender (fun _ => 1) 10 (genesisLaunchTimestamp - 3600) := by
  have hfree : NulFree lateSender := by
    unfold NulFree
    decide +kernel
  have hdec : Decodes lateSender (payments lateSender lateRun.chain) :=
    lateRun_canonical.decodes_iff.mpr (by decide +kernel)
  have hnone : addressRecentTxs lateRun.index.rows lateSender 10 (some (genesisLaunchTimestamp - 3600)) = .ok [] := by
    rw [lateRun_canonical.addressRecentTxs_eq hfree hdec]
    exact congrArg Except.ok (by decide +kernel)
  have hsome : ((payments lateSender lateRun.chain).reverse.filter
      (genesisLaunchTimestamp - 3600 ≤ ·.timestamp)).take 10 ≠ [] := by decide +kernel
  refine ⟨lateRun_canonical, hnone, hsome, fun hexact => hsome ?_⟩
  have hrecent := hexact.recent
  rw [hnone] at hrecent
  exact (Except.ok.inj hrecent).symm

end Alphanumeric
