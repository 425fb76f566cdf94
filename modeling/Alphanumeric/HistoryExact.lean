/-
# The merged history is exact

The transactions of a chain lie in descending order of their keys. An honest node answers a request with the next
entries of the address strictly below the cursor, however many, and a cursor at the last of them; without a cursor it
says that nothing is left. It may say so late, with one more page that is empty.

Each stream then holds, in its buffer and behind its cursor, exactly the entries of its address among the transactions
that have no row yet. So the largest head is the next transaction, and the streams that have it are those of its
sender and its recipient.

Key definitions: `History.Ledger`, `History.Answers`, `History.rowOf`, `History.allRows`, `History.Tracks`,
`History.Driven`.
Key theorems: `History.Tracks.accept`, `History.Tracks.emit`, `History.driven_tracks`, `History.merged_history_exact`.
-/
import Alphanumeric.HistoryMerge

namespace Alphanumeric.History

/-! ### The truth -/

structure LedgerTx where
  height : ℕ
  position : ℕ
  timestamp : ℕ
  amountUnits : ℤ
  feeUnits : ℤ
  sender : Text
  recipient : Text
deriving DecidableEq, Repr

namespace LedgerTx

def key (x : LedgerTx) : Key := toLex (x.height, x.position)

def touches (x : LedgerTx) (address : Text) : Bool := x.sender = address || x.recipient = address

/-- The entry of a transaction in the history of one of its addresses. -/
def entryOf (x : LedgerTx) (address : Text) : TxEntry where
  amountUnits := x.amountUnits
  feeUnits := x.feeUnits
  counterparty := if x.sender = address then x.recipient else x.sender
  direction := if x.sender = x.recipient then dirSelf else if x.sender = address then dirOut else dirIn
  height := x.height
  position := x.position
  timestamp := x.timestamp

end LedgerTx

/-- The transactions, the newest first. -/
structure Ledger where
  txs : List LedgerTx
  descending : txs.Pairwise fun a b => b.key < a.key

def entriesOf (txs : List LedgerTx) (address : Text) : List TxEntry :=
  (txs.filter (·.touches address)).map (·.entryOf address)

/-- What a transaction is to a wallet. -/
def kindOf (addresses : List Text) (x : LedgerTx) : RowKind :=
  if x.sender ∈ addresses ∧ x.recipient ∈ addresses then .internal x.sender x.recipient
  else if x.sender ∈ addresses then .outgoing x.recipient
  else if x.sender = miningRewards then .mining
  else .incoming x.sender

/-- The row of a transaction, in the name of the last of the wallet's addresses that it touches. -/
def rowOf (addresses : List Text) (x : LedgerTx) : Row where
  height := x.height
  position := x.position
  timestamp := x.timestamp
  amountUnits := x.amountUnits
  feeUnits := x.feeUnits
  kind := kindOf addresses x
  owner := (addresses.filter fun a => x.touches a).getLast?.getD []

def touching (addresses : List Text) (txs : List LedgerTx) : List LedgerTx :=
  txs.filter fun x => addresses.any fun a => x.touches a

/-- All transactions that touch the wallet, each once. -/
def allRows (addresses : List Text) (L : Ledger) : List Row := (touching addresses L.txs).map (rowOf addresses)

/-! ### An honest node -/

/-- Where `prompt` holds, the node says with the last entry that it is the last. -/
def Answers (prompt : Prop) (L : Ledger) (address : Text) (before : Option Cursor) (page : AddressPage) : Prop :=
  ∃ k, let rest := (entriesOf L.txs address).filter (below before)
    page.transactions = some (rest.take k) ∧
      (page.next = none ∧ rest.length ≤ k ∨
        ∃ last, (rest.take k).getLast? = some last ∧ page.next = some ⟨last.height, last.position⟩ ∧
          (prompt → k < rest.length))

/-- The merger after `n` pages of an honest node, asked for as the merger says, and the last need. -/
inductive Driven (prompt : Prop) (L : Ledger) (addresses : List Text) : ℕ → Merge → Need → Prop where
  | new : Driven prompt L addresses 0 (Merge.new addresses) .idle
  | advance {n : ℕ} {m : Merge} {need : Need} (h : Driven prompt L addresses n m need) (want : ℕ) :
      Driven prompt L addresses n (m.advance want).1 (m.advance want).2
  | accept {n : ℕ} {m : Merge} {index : ℕ} {address : Text} {before : Option Cursor} {page : AddressPage}
      (h : Driven prompt L addresses n m (.page index address before)) (hpage : Answers prompt L address before page) :
      Driven prompt L addresses (n + 1) (m.accept index before page).1 .idle

/-- `activity.rs` merges the first pages that the last refresh fetched. -/
structure Recent where
  rows : List Row
  complete : Bool
  exhaustive : Bool
deriving DecidableEq, Repr

def recentPages : Merge → ℕ → List (Option AddressPage) → Merge
  | m, _, [] => m
  | m, index, none :: pages => recentPages m (index + 1) pages
  | m, index, some page :: pages => recentPages (m.accept index none page).1 (index + 1) pages

def recentRows (addresses : List Text) (pages : List (Option AddressPage)) (want : ℕ) : Recent :=
  let m := ((recentPages (Merge.new addresses) 0 pages).advance want).1
  { rows := m.rows
    complete := decide (want ≤ m.rows.length) || m.isDone
    exhaustive := m.isDone }

/-! ### The invariant -/

/-- What the node has not handed out yet. -/
def Stream.unfetched (L : Ledger) (s : Stream) : List TxEntry :=
  if s.finished then [] else (entriesOf L.txs s.address).filter (below s.next)

/-- One stream, where `rest` are the transactions that have no row. -/
structure StreamTracks (prompt : Prop) (L : Ledger) (rest : List LedgerTx) (s : Stream) : Prop where
  todo : s.buffer ++ s.unfetched L = entriesOf rest s.address
  stalled : s.stalled = false
  fresh : s.answered = false → s.finished = false ∧ s.next = none ∧ s.buffer = []
  promptly : prompt → s.answered = true → s.finished = false → s.unfetched L ≠ []

/-- The merger, where the rows are those of `done`, and the transactions of `rest` have none. -/
structure Tracks (prompt : Prop) (L : Ledger) (addresses : List Text) (done rest : List LedgerTx) (m : Merge) :
    Prop where
  split : touching addresses L.txs = done ++ rest
  rows : m.rows = done.map (rowOf addresses)
  addresses : m.streams.map Stream.address = addresses
  stream : ∀ s ∈ m.streams, StreamTracks prompt L rest s

variable {prompt : Prop} {L : Ledger} {addresses : List Text} {done rest : List LedgerTx} {m : Merge}

/-! ### Entries -/

theorem entriesOf_descending {txs : List LedgerTx} (h : txs.Pairwise fun a b => b.key < a.key) (address : Text) :
    (entriesOf txs address).Pairwise fun e f => f.key < e.key :=
  List.pairwise_map.mpr (h.filter _)

theorem entriesOf_cons_of_touches {x : LedgerTx} {address : Text} (h : x.touches address = true)
    (rest : List LedgerTx) : entriesOf (x :: rest) address = x.entryOf address :: entriesOf rest address := by
  rw [entriesOf, List.filter_cons_of_pos (p := fun x : LedgerTx => x.touches address) h]
  rfl

theorem entriesOf_cons_of_not {x : LedgerTx} {address : Text} (h : x.touches address = false)
    (rest : List LedgerTx) : entriesOf (x :: rest) address = entriesOf rest address := by
  rw [entriesOf, List.filter_cons_of_neg (p := fun x : LedgerTx => x.touches address) (by simp [h])]
  rfl

theorem mem_entriesOf {txs : List LedgerTx} {address : Text} {e : TxEntry} :
    e ∈ entriesOf txs address ↔ ∃ x ∈ txs, x.touches address = true ∧ x.entryOf address = e := by
  simp only [entriesOf, List.mem_map, List.mem_filter, and_assoc]

/-- What is strictly below the last entry of a page is what comes after the page. -/
theorem filter_below_last {entries : List TxEntry} (h : entries.Pairwise fun e f => f.key < e.key)
    {before : Option Cursor} {k : ℕ} {last : TxEntry}
    (hlast : ((entries.filter (below before)).take k).getLast? = some last) :
    entries.filter (below (some ⟨last.height, last.position⟩)) = (entries.filter (below before)).drop k := by
  have hbelow : ∀ e : TxEntry, below (some ⟨last.height, last.position⟩) e = decide (e.key < last.key) := fun e => rfl
  have hmem : last ∈ entries.filter (below before) :=
    List.mem_of_mem_take (List.mem_of_getLast? hlast)
  have hrest : entries.filter (below (some ⟨last.height, last.position⟩)) =
      (entries.filter (below before)).filter fun e => decide (e.key < last.key) := by
    rw [List.filter_filter]
    refine List.filter_congr fun e _ => ?_
    rw [hbelow]
    by_cases hlt : e.key < last.key
    · -- below the last entry is below the cursor of the request
      have hcursor : below before e = true := by
        have hl := (List.mem_filter.mp hmem).2
        cases before with
        | none => rfl
        | some cursor => exact decide_eq_true (hlt.trans (of_decide_eq_true hl))
      rw [decide_eq_true hlt, hcursor]
      rfl
    · rw [decide_eq_false hlt]
      rfl
  rw [hrest]
  have hdesc : (entries.filter (below before)).Pairwise fun e f => f.key < e.key := h.filter _
  set page := (entries.filter (below before)).take k with hpage
  set after := (entries.filter (below before)).drop k with hafter
  rw [← List.take_append_drop k (entries.filter (below before)), ← hpage, ← hafter] at hdesc ⊢
  obtain ⟨hdescPage, -, hcross⟩ := List.pairwise_append.mp hdesc
  obtain ⟨front, hfront⟩ := List.getLast?_eq_some_iff.mp hlast
  rw [List.filter_append]
  have hnone : page.filter (fun e => decide (e.key < last.key)) = [] := by
    refine List.filter_eq_nil_iff.mpr fun e he => ?_
    rw [decide_eq_true_eq]
    rw [hfront] at he hdescPage
    rcases List.mem_append.mp he with he | he
    · exact ((List.pairwise_append.mp hdescPage).2.2 e he last (List.mem_singleton_self _)).asymm
    · rw [List.mem_singleton.mp he]
      exact lt_irrefl _
  have hall : after.filter (fun e => decide (e.key < last.key)) = after :=
    List.filter_eq_self.mpr fun e he => decide_eq_true (hcross last (by rw [hfront]; simp) e he)
  rw [hnone, hall, List.nil_append]

/-! ### A page arrives -/

theorem new_streamTracks (L : Ledger) (address : Text) : StreamTracks prompt L L.txs (Stream.new address) where
  todo := List.filter_eq_self.mpr fun _ _ => rfl
  stalled := rfl
  fresh _ := ⟨rfl, rfl, rfl⟩
  promptly _ h := by cases h

/-- How many pages a stream may still take. -/
def Stream.budget (L : Ledger) (s : Stream) : ℕ := if s.finished then 0 else (s.unfetched L).length + 1

/-- **A page moves entries from behind the cursor into the buffer.** -/
theorem StreamTracks.accept {s : Stream} (h : StreamTracks prompt L rest s) (hfinished : s.finished = false)
    {page : AddressPage} (hpage : Answers prompt L s.address s.next page) :
    StreamTracks prompt L rest (s.accept s.next page) ∧ (s.accept s.next page).budget L < s.budget L := by
  obtain ⟨k, htransactions, hnext⟩ := hpage
  have hunfetched : s.unfetched L = (entriesOf L.txs s.address).filter (below s.next) := by
    rw [Stream.unfetched, hfinished]
    rfl
  have hkept : page.kept s.next = (s.unfetched L).take k := by
    rw [AddressPage.kept, htransactions, hunfetched]
    exact List.filter_eq_self.mpr fun e he => (List.mem_filter.mp (List.mem_of_mem_take he)).2
  have hend : (s.accept s.next page).finished = page.next.isNone := by
    rw [Stream.accept, htransactions]
    rfl
  have hstalled : (s.accept s.next page).stalled = false := by
    rw [Stream.accept, htransactions, h.stalled]
    rfl
  have htodo := h.todo
  rw [← hunfetched] at hnext
  have hnow : s.budget L = (s.unfetched L).length + 1 := by
    rw [Stream.budget, hfinished]
    rfl
  rw [hnow]
  rcases hnext with ⟨hnone, hlen⟩ | ⟨last, hlast, hsome, hprompt⟩
  · have hafter : (s.accept s.next page).unfetched L = [] := by
      rw [Stream.unfetched, hend, hnone]
      rfl
    refine ⟨⟨?_, hstalled, fun hfresh => ?_, fun _ _ hopen => ?_⟩, ?_⟩
    · rw [hafter, List.append_nil]
      show s.buffer ++ page.kept s.next = _
      rw [hkept, List.take_of_length_le hlen, htodo]
      rfl
    · cases hfresh
    · rw [hend, hnone] at hopen
      cases hopen
    · rw [Stream.budget, hend, hnone]
      exact Nat.succ_pos _
  · have hafter : (s.accept s.next page).unfetched L = (s.unfetched L).drop k := by
      rw [Stream.unfetched, hend, hsome]
      rw [hunfetched] at hlast ⊢
      show (entriesOf L.txs s.address).filter (below page.next) = _
      rw [hsome]
      exact filter_below_last (entriesOf_descending L.descending s.address) hlast
    have hpos : 0 < k ∧ 0 < (s.unfetched L).length := by
      have hne : (s.unfetched L).take k ≠ [] := fun hnil => by
        rw [hnil] at hlast
        cases hlast
      have hlength := List.length_pos_iff.mpr hne
      rw [List.length_take] at hlength
      omega
    refine ⟨⟨?_, hstalled, fun hfresh => ?_, fun hp _ _ => ?_⟩, ?_⟩
    · rw [hafter]
      show s.buffer ++ page.kept s.next ++ _ = _
      rw [hkept, List.append_assoc, List.take_append_drop, htodo]
      rfl
    · cases hfresh
    · rw [hafter]
      intro hnil
      have hle := List.drop_eq_nil_iff.mp hnil
      have hlt := hprompt hp
      omega
    · rw [Stream.budget, hend, hsome, hafter, List.length_drop]
      show (s.unfetched L).length - k + 1 < _
      omega

/-! ### A row goes out -/

theorem touches_iff {x : LedgerTx} {a : Text} : x.touches a = true ↔ x.sender = a ∨ x.recipient = a := by
  simp [LedgerTx.touches]

/-- A stream that is ready and empty has nothing left. -/
theorem StreamTracks.ended {s : Stream} (h : StreamTracks prompt L rest s) (hready : s.needsAPage = false)
    (hbuffer : s.buffer = []) : s.finished = true ∧ entriesOf rest s.address = [] := by
  have hfinished : s.finished = true := by
    rw [Stream.needsAPage, hbuffer, h.stalled] at hready
    simpa using hready
  refine ⟨hfinished, ?_⟩
  rw [← h.todo, hbuffer, Stream.unfetched, hfinished]
  rfl

/-- The head of a stream that is ready is its next entry. -/
theorem StreamTracks.head_eq {s : Stream} (h : StreamTracks prompt L rest s) (hready : s.needsAPage = false) :
    s.head = (entriesOf rest s.address).head?.map TxEntry.key := by
  cases hbuffer : s.buffer with
  | nil =>
    rw [(h.ended hready hbuffer).2, Stream.head, hbuffer]
  | cons e buffer =>
    rw [← h.todo, Stream.head, hbuffer]
    rfl

variable {x : LedgerTx}

theorem StreamTracks.touched {s : Stream} (h : StreamTracks prompt L (x :: rest) s) (hready : s.needsAPage = false)
    (htouches : x.touches s.address = true) : ∃ buffer, s.buffer = x.entryOf s.address :: buffer ∧
      StreamTracks prompt L rest s.pop := by
  have htodo := h.todo
  rw [entriesOf_cons_of_touches htouches] at htodo
  cases hbuffer : s.buffer with
  | nil =>
    have hnil := (h.ended hready hbuffer).2
    rw [entriesOf_cons_of_touches htouches] at hnil
    cases hnil
  | cons e buffer =>
    rw [hbuffer, List.cons_append] at htodo
    obtain ⟨rfl, htail⟩ := List.cons.inj htodo
    refine ⟨buffer, rfl, ⟨?_, h.stalled, fun hfresh => ?_, h.promptly⟩⟩
    · show s.buffer.tail ++ s.unfetched L = _
      rw [hbuffer]
      exact htail
    · rw [(h.fresh hfresh).2.2] at hbuffer
      cases hbuffer

theorem StreamTracks.skipped {s : Stream} (h : StreamTracks prompt L (x :: rest) s)
    (hnot : x.touches s.address = false) : StreamTracks prompt L rest s where
  todo := h.todo.trans (entriesOf_cons_of_not hnot rest)
  stalled := h.stalled
  fresh := h.fresh
  promptly := h.promptly

/-- **The streams with the key of the next transaction are those of its addresses.** -/
theorem StreamTracks.head_iff {s : Stream} (h : StreamTracks prompt L (x :: rest) s) (hready : s.needsAPage = false)
    (hdesc : (x :: rest).Pairwise fun a b => b.key < a.key) :
    s.head = some x.key ↔ x.touches s.address = true := by
  rw [h.head_eq hready]
  cases htouches : x.touches s.address with
  | true =>
    rw [entriesOf_cons_of_touches htouches]
    exact ⟨fun _ => rfl, fun _ => rfl⟩
  | false =>
    rw [entriesOf_cons_of_not htouches]
    refine ⟨fun hhead => ?_, fun hfalse => by cases hfalse⟩
    obtain ⟨e, he, hkey⟩ := Option.map_eq_some_iff.mp hhead
    obtain ⟨y, hy, -, rfl⟩ := mem_entriesOf.mp (List.mem_of_head? he)
    have hlt := (List.pairwise_cons.mp hdesc).1 y hy
    exact absurd hkey hlt.ne

theorem head_le {s : Stream} (h : StreamTracks prompt L (x :: rest) s) (hready : s.needsAPage = false)
    (hdesc : (x :: rest).Pairwise fun a b => b.key < a.key) {k : Key} (hk : s.head = some k) : k ≤ x.key := by
  rw [h.head_eq hready] at hk
  obtain ⟨e, he, rfl⟩ := Option.map_eq_some_iff.mp hk
  obtain ⟨y, hy, -, rfl⟩ := mem_entriesOf.mp (List.mem_of_head? he)
  rcases List.mem_cons.mp hy with rfl | hy
  · exact le_rfl
  · exact ((List.pairwise_cons.mp hdesc).1 y hy).le

/-! ### The row -/

theorem owner_eq : ∀ {addresses : List Text} {index : ℕ} {a : Text}, addresses[index]? = some a →
    x.touches a = true → (∀ j b, addresses[j]? = some b → x.touches b = true → j ≤ index) →
    (addresses.filter fun a => x.touches a).getLast? = some a := by
  intro addresses index a ha htouches hlast
  obtain ⟨hlt, hget⟩ := List.getElem?_eq_some_iff.mp ha
  rw [← List.take_append_drop (index + 1) addresses, List.filter_append]
  have hnone : (addresses.drop (index + 1)).filter (fun a => x.touches a) = [] := by
    refine List.filter_eq_nil_iff.mpr fun b hb htouch => ?_
    obtain ⟨j, hj⟩ := List.mem_iff_getElem?.mp hb
    rw [List.getElem?_drop] at hj
    have hle := hlast _ b hj htouch
    omega
  rw [hnone, List.append_nil, List.take_add_one, ha, List.filter_append]
  have hself : (some a).toList.filter (fun a => x.touches a) = [a] := by
    rw [Option.toList_some, List.filter_singleton, htouches]
    rfl
  rw [hself, List.getLast?_append_of_ne_nil _ (List.cons_ne_nil a [])]
  rfl

/-- Where only one of the addresses is touched. -/
theorem row_single {a : Text} (hmem : a ∈ addresses) (htouches : x.touches a = true)
    (honly : ∀ b ∈ addresses, x.touches b = true → b = a) : (x.entryOf a).kind a = kindOf addresses x := by
  unfold TxEntry.kind kindOf LedgerTx.entryOf
  dsimp only
  by_cases hs : x.sender = a
  · by_cases hr : x.recipient = a
    · simp [hs, hr, hmem, dirSelf, dirIn]
    · have hout : x.recipient ∉ addresses := fun hin => hr (honly _ hin (touches_iff.mpr (Or.inr rfl)))
      have hne : ¬ a = x.recipient := fun heq => hr heq.symm
      simp [hs, hmem, hout, hne, dirSelf, dirIn, dirOut]
  · have hr : x.recipient = a := (touches_iff.mp htouches).resolve_left hs
    have hout : x.sender ∉ addresses := fun hin => hs (honly _ hin (touches_iff.mpr (Or.inl rfl)))
    simp [hs, hr, hout, dirSelf, dirIn, dirOut]

/-- Where two are. -/
theorem row_folded {a b : Text} (ha : a ∈ addresses) (hb : b ∈ addresses) (hab : b ≠ a)
    (htouches : x.touches a = true) (htouches' : x.touches b = true) :
    (x.entryOf a).folded a b = kindOf addresses x := by
  unfold TxEntry.folded kindOf LedgerTx.entryOf
  dsimp only
  rcases touches_iff.mp htouches with hs | hr
  · have hr : x.recipient = b := (touches_iff.mp htouches').resolve_left fun hs' => hab (hs'.symm.trans hs)
    have hne : ¬ a = b := fun heq => hab heq.symm
    simp [hs, hr, ha, hb, hne]
  · have hs : x.sender = b := (touches_iff.mp htouches').resolve_right fun hr' => hab (hr'.symm.trans hr)
    simp [hs, hr, ha, hb, hab, dirIn, dirOut]

theorem row_eq {addresses : List Text} {index : ℕ} {a : Text} {kind : RowKind} (ha : addresses[index]? = some a)
    (htouches : x.touches a = true) (hlast : ∀ j b, addresses[j]? = some b → x.touches b = true → j ≤ index)
    (hkind : kind = kindOf addresses x) : (x.entryOf a).row kind a = rowOf addresses x := by
  rw [rowOf, owner_eq ha htouches hlast, ← hkind]
  rfl

/-! ### The merger -/

theorem new_tracks (prompt : Prop) (L : Ledger) (addresses : List Text) :
    Tracks prompt L addresses [] (touching addresses L.txs) (Merge.new addresses) where
  split := rfl
  rows := rfl
  addresses := by
    rw [Merge.new, List.map_map]
    exact List.map_id' addresses
  stream s hs := by
    obtain ⟨a, ha, rfl⟩ := List.mem_map.mp hs
    have h : StreamTracks prompt L L.txs (Stream.new a) := new_streamTracks L a
    refine ⟨h.todo.trans ?_, h.stalled, h.fresh, h.promptly⟩
    -- what touches the address touches the wallet
    unfold entriesOf touching
    rw [List.filter_filter]
    congr 1
    refine List.filter_congr fun x _ => ?_
    show x.touches a = (x.touches a && addresses.any fun b => x.touches b)
    cases htouches : x.touches a with
    | false => rfl
    | true =>
      have hany : addresses.any (fun b => x.touches b) = true := List.any_eq_true.mpr ⟨a, ha, htouches⟩
      rw [hany]
      rfl

/-- The address of stream `i`. -/
theorem Tracks.address (h : Tracks prompt L addresses done rest m) {i : ℕ} {s : Stream}
    (hs : m.streams[i]? = some s) : addresses[i]? = some s.address := by
  rw [← h.addresses, List.getElem?_map, hs, Option.map_some]

theorem Tracks.descending (h : Tracks prompt L addresses done rest m) :
    rest.Pairwise fun a b => b.key < a.key := by
  have hall : (touching addresses L.txs).Pairwise fun a b => b.key < a.key := L.descending.filter _
  rw [h.split] at hall
  exact (List.pairwise_append.mp hall).2.1

/-- What is left of the next transaction, once the streams that have it are popped. -/
theorem Tracks.popped (h : Tracks prompt L addresses done (x :: rest) m) (hready : m.Ready) {m' : Merge}
    (haddresses : m'.streams.map Stream.address = addresses) (hrows : m'.rows = m.rows ++ [rowOf addresses x])
    (hstreams : ∀ (j : ℕ) s', m'.streams[j]? = some s' → ∃ s, m.streams[j]? = some s ∧
      (x.touches s.address = true ∧ s' = s.pop ∨ x.touches s.address = false ∧ s' = s)) :
    Tracks prompt L addresses (done ++ [x]) rest m' where
  split := by rw [h.split, List.append_assoc, List.singleton_append]
  rows := by rw [hrows, h.rows, List.map_append, List.map_singleton]
  addresses := haddresses
  stream s' hs' := by
    obtain ⟨j, hj⟩ := List.mem_iff_getElem?.mp hs'
    obtain ⟨s, hs, hcase⟩ := hstreams j s' hj
    have hmem := List.mem_of_getElem? hs
    rcases hcase with ⟨htouches, rfl⟩ | ⟨hnot, rfl⟩
    · obtain ⟨-, -, hpop⟩ := (h.stream s hmem).touched (hready s hmem).2 htouches
      exact hpop
    · exact (h.stream s' hmem).skipped hnot

theorem popAt_addresses (m : Merge) (i : ℕ) :
    (m.popAt i).streams.map Stream.address = m.streams.map Stream.address := popAt_map (fun _ => rfl) m i

/-- **The next row is that of the next transaction.** -/
theorem Tracks.emit (hnodup : addresses.Nodup) (h : Tracks prompt L addresses done rest m) (hready : m.Ready)
    {index : ℕ} (hpick : m.pickHighest = some index) : ∃ x rest', rest = x :: rest' ∧
      Tracks prompt L addresses (done ++ [x]) rest' (m.emit index) := by
  obtain ⟨s, entry, buffer, hs, hbuffer, hmax⟩ := pickHighest_spec hpick
  have hmem := List.mem_of_getElem? hs
  have hdesc := h.descending
  have hentry : entry ∈ entriesOf rest s.address := by
    rw [← (h.stream s hmem).todo, hbuffer]
    exact List.mem_append_left _ List.mem_cons_self
  have hhead : s.head = some entry.key := by rw [Stream.head, hbuffer]; rfl
  cases rest with
  | nil => cases hentry
  | cons x rest' =>
    refine ⟨x, rest', rfl, ?_⟩
    have hiff : ∀ t ∈ m.streams, t.head = some x.key ↔ x.touches t.address = true := fun t ht =>
      (h.stream t ht).head_iff (hready t ht).2 hdesc
    -- some stream has the next transaction at its head, so the picked one does
    have hkey : entry.key = x.key := by
      refine le_antisymm (head_le (h.stream s hmem) (hready s hmem).2 hdesc hhead) ?_
      have hx : x ∈ touching addresses L.txs := by rw [h.split]; simp
      obtain ⟨a, ha, htouches⟩ := List.any_eq_true.mp (List.mem_filter.mp hx).2
      rw [← h.addresses] at ha
      obtain ⟨t, ht, rfl⟩ := List.mem_map.mp ha
      obtain ⟨j, hj⟩ := List.mem_iff_getElem?.mp ht
      exact (hmax j t x.key hj ((hiff t ht).mpr htouches)).1
    rw [hkey] at hhead
    have htouches := (hiff s hmem).mp hhead
    have hlast : ∀ j b, addresses[j]? = some b → x.touches b = true → j ≤ index := by
      intro j b hb hb'
      rw [← h.addresses, List.getElem?_map] at hb
      obtain ⟨t, ht, rfl⟩ := Option.map_eq_some_iff.mp hb
      exact (hmax j t x.key ht ((hiff t (List.mem_of_getElem? ht)).mpr hb')).2 hkey.symm
    obtain ⟨buffer', hbuffer', -⟩ := (h.stream s hmem).touched (hready s hmem).2 htouches
    rw [hbuffer] at hbuffer'
    obtain ⟨rfl, -⟩ := List.cons.inj hbuffer'
    have hdistinct : ∀ {j k : ℕ} {t u : Stream}, m.streams[j]? = some t → m.streams[k]? = some u → j ≠ k →
        t.address ≠ u.address := by
      intro j k t u ht hu hjk heq
      have hj := h.address ht
      have hk := h.address hu
      rw [← heq] at hk
      exact hjk ((List.getElem?_inj (List.getElem?_eq_some_iff.mp hj).1 hnodup).mp (hj.trans hk.symm))
    have hin : ∀ {j : ℕ} {t : Stream}, m.streams[j]? = some t → t.address ∈ addresses := fun ht =>
      List.mem_of_getElem? (h.address ht)
    rcases emit_cases hs hbuffer with ⟨halone, hemit⟩ | ⟨other, t, hother, ht, hthead, hemit⟩
    · rw [hemit]
      refine h.popped hready ((popAt_addresses m index).trans h.addresses) ?_ fun j s' hj => ?_
      · show m.rows ++ [_] = m.rows ++ [_]
        congr 2
        refine row_eq (h.address hs) htouches hlast (row_single (hin hs) htouches fun b hb hb' => ?_)
        rw [← h.addresses] at hb
        obtain ⟨u, hu, rfl⟩ := List.mem_map.mp hb
        obtain ⟨k, hk⟩ := List.mem_iff_getElem?.mp hu
        by_contra hne
        have hki : k ≠ index := fun heq => by
          rw [heq, hs] at hk
          exact hne (congrArg Stream.address (Option.some.inj hk).symm)
        exact halone k u hki hk (hkey ▸ (hiff u hu).mpr hb')
      · have hj : (m.popAt index).streams[j]? = some s' := hj
        by_cases hji : j = index
        · rw [hji, popAt_get_self, hs] at hj
          exact ⟨s, hji ▸ hs, Or.inl ⟨htouches, (Option.some.inj hj).symm⟩⟩
        · rw [popAt_get_ne m hji] at hj
          refine ⟨s', hj, Or.inr ⟨?_, rfl⟩⟩
          by_contra htouch
          rw [Bool.not_eq_false] at htouch
          exact halone j s' hji hj (hkey ▸ (hiff s' (List.mem_of_getElem? hj)).mpr htouch)
    · rw [hemit]
      rw [hkey] at hthead
      have htouches' := (hiff t (List.mem_of_getElem? ht)).mp hthead
      have hne := hdistinct ht hs hother
      refine h.popped hready ?_ ?_ fun j s' hj => ?_
      · exact ((popAt_addresses _ other).trans (popAt_addresses m index)).trans h.addresses
      · show m.rows ++ [_] = m.rows ++ [_]
        congr 2
        exact row_eq (h.address hs) htouches hlast (row_folded (hin hs) (hin ht) hne htouches htouches')
      · have hj : ((m.popAt index).popAt other).streams[j]? = some s' := hj
        by_cases hjo : j = other
        · rw [hjo, popAt_get_self, popAt_get_ne m hother, ht] at hj
          exact ⟨t, hjo ▸ ht, Or.inl ⟨htouches', (Option.some.inj hj).symm⟩⟩
        · rw [popAt_get_ne _ hjo] at hj
          by_cases hji : j = index
          · rw [hji, popAt_get_self, hs] at hj
            exact ⟨s, hji ▸ hs, Or.inl ⟨htouches, (Option.some.inj hj).symm⟩⟩
          · rw [popAt_get_ne m hji] at hj
            refine ⟨s', hj, Or.inr ⟨?_, rfl⟩⟩
            -- a transaction has only two addresses
            by_contra htouch
            rw [Bool.not_eq_false] at htouch
            have hns := hdistinct hj hs hji
            have hnt := hdistinct hj ht hjo
            rcases touches_iff.mp htouch with h1 | h1 <;> rcases touches_iff.mp htouches with h2 | h2 <;>
              rcases touches_iff.mp htouches' with h3 | h3
            all_goals first
              | exact hns (h1.symm.trans h2)
              | exact hnt (h1.symm.trans h3)
              | exact hne (h3.symm.trans h2)

/-! ### Drives -/

/-- How many pages the merger may still take. -/
def Merge.budget (L : Ledger) (m : Merge) : ℕ := Tasks.weigh (Stream.budget L) m.streams

/-- The rows so far, with what is left of the budget. -/
def Sound (prompt : Prop) (L : Ledger) (addresses : List Text) (budget : ℕ) (m : Merge) : Prop :=
  (∃ done rest, Tracks prompt L addresses done rest m) ∧ m.budget L = budget

theorem budget_emit (L : Ledger) (m : Merge) (index : ℕ) : (m.emit index).budget L = m.budget L :=
  congrArg List.sum (emit_map (f := Stream.budget L) (fun _ => rfl) m index)

theorem Sound.advance (hnodup : addresses.Nodup) {budget : ℕ} (h : Sound prompt L addresses budget m) (want : ℕ) :
    Sound prompt L addresses budget (m.advance want).1 := by
  refine (advance_spec m want).1.keeps (fun {m index} hm hready hpick => ?_) h
  obtain ⟨⟨done, rest, htracks⟩, hbudget⟩ := hm
  obtain ⟨x, rest', -, hemit⟩ := htracks.emit hnodup hready hpick
  exact ⟨⟨done ++ [x], rest', hemit⟩, (budget_emit L m index).trans hbudget⟩

/-- **A page is taken**, and the budget is less. -/
theorem Sound.accept {budget : ℕ} (h : Sound prompt L addresses budget m) {index : ℕ} {s : Stream}
    (hs : m.streams[index]? = some s) (hfinished : s.finished = false) {page : AddressPage}
    (hpage : Answers prompt L s.address s.next page) :
    ∃ budget' < budget, Sound prompt L addresses budget' (m.accept index s.next page).1 := by
  obtain ⟨⟨done, rest, htracks⟩, hbudget⟩ := h
  obtain ⟨haccept, hless⟩ := (htracks.stream s (List.mem_of_getElem? hs)).accept hfinished hpage
  have hm : (m.accept index s.next page).1 = { m with streams := m.streams.set index (s.accept s.next page) } := by
    rw [Merge.accept, hs]
  rw [hm]
  refine ⟨_, ?_, ⟨done, rest, ⟨htracks.split, htracks.rows, ?_, fun t ht => ?_⟩⟩, rfl⟩
  · have hset := Tasks.weigh_set (Stream.budget L) (s.accept s.next page) hs
    unfold Merge.budget at hbudget ⊢
    dsimp only
    omega
  · obtain ⟨hlt, hget⟩ := List.getElem?_eq_some_iff.mp hs
    have hlt' : index < (m.streams.map Stream.address).length := by rwa [List.length_map]
    have hsame : (s.accept s.next page).address = (m.streams.map Stream.address)[index] := by
      rw [List.getElem_map, hget]
      rfl
    rw [List.map_set, hsame, List.set_getElem_self]
    exact htracks.addresses
  · rcases List.mem_or_eq_of_mem_set ht with ht | rfl
    · exact htracks.stream t ht
    · exact haccept

/-- The most pages that a drive can take. -/
def mostPages (L : Ledger) (addresses : List Text) : ℕ :=
  Tasks.weigh (fun a => (entriesOf L.txs a).length + 1) addresses

theorem new_sound (prompt : Prop) (L : Ledger) (addresses : List Text) :
    Sound prompt L addresses (mostPages L addresses) (Merge.new addresses) := by
  refine ⟨⟨[], _, new_tracks prompt L addresses⟩, ?_⟩
  unfold Merge.budget mostPages Tasks.weigh Merge.new
  rw [List.map_map]
  congr 1
  refine List.map_congr_left fun a _ => ?_
  have hall : (Stream.new a).unfetched L = entriesOf L.txs a := List.filter_eq_self.mpr fun _ _ => rfl
  show ((Stream.new a).unfetched L).length + 1 = _
  rw [hall]

/-- A need that a drive has got is that of an unfinished stream. -/
def Need.Open (m : Merge) : Need → Prop
  | .idle => True
  | .page index address before => ∃ s, m.streams[index]? = some s ∧ s.finished = false ∧ address = s.address ∧
      before = s.next

theorem Stops.isOpen {want : ℕ} {need : Need} (h : Stops want m need) : need.Open m := by
  cases h with
  | needs hwant hnone hs hneeds =>
    rw [Stream.needsAPage, Bool.and_eq_true, Bool.and_eq_true, Bool.not_eq_true'] at hneeds
    exact ⟨_, hs, hneeds.1.2, rfl, rfl⟩
  | _ => trivial

theorem driven_sound (hnodup : addresses.Nodup) {n : ℕ} {need : Need} (h : Driven prompt L addresses n m need) :
    ∃ budget, Sound prompt L addresses budget m ∧ n + budget ≤ mostPages L addresses ∧ need.Open m := by
  induction h with
  | new => exact ⟨_, new_sound prompt L addresses, (Nat.zero_add _).le, trivial⟩
  | advance _ want ih =>
    obtain ⟨budget, hsound, hle, -⟩ := ih
    exact ⟨budget, hsound.advance hnodup want, hle, (advance_spec _ want).2.isOpen⟩
  | accept _ hpage ih =>
    obtain ⟨budget, hsound, hle, s, hs, hfinished, rfl, rfl⟩ := ih
    obtain ⟨budget', hless, hsound'⟩ := hsound.accept hs hfinished hpage
    exact ⟨budget', hsound', by omega, trivial⟩

/-! ### What a wallet may rely on -/

/-- What holds at every point of a drive. -/
structure MergeExact (prompt : Prop) (L : Ledger) (addresses : List Text) (m : Merge) : Prop where
  /-- The rows are the newest transactions, each once, and each as it is. -/
  rows : m.rows <+: allRows addresses L
  /-- The merger is done when the list is complete and the node has said so of every address. -/
  done : m.isDone = true ↔ m.rows = allRows addresses L ∧ ∀ s ∈ m.streams, s.finished = true
  /-- A node that says it with the last entry need only have answered. -/
  promptly : prompt → (m.isDone = true ↔ m.rows = allRows addresses L ∧ ∀ s ∈ m.streams, s.answered = true)
  /-- It is idle only at the target or at the end. -/
  stops : ∀ want, (m.advance want).2 = .idle →
    want ≤ (m.advance want).1.rows.length ∨ (m.advance want).1.isDone = true

theorem Tracks.rows_prefix (h : Tracks prompt L addresses done rest m) : m.rows <+: allRows addresses L := by
  rw [allRows, h.split, h.rows, List.map_append]
  exact List.prefix_append _ _

theorem Tracks.complete_iff (h : Tracks prompt L addresses done rest m) :
    m.rows = allRows addresses L ↔ rest = [] := by
  rw [allRows, h.split, h.rows, List.map_append]
  constructor
  · intro heq
    exact List.map_eq_nil_iff.mp (List.append_right_eq_self.mp heq.symm)
  · rintro rfl
    exact (List.append_nil _).symm

/-- While a transaction is left, some stream has it. -/
theorem Tracks.rest_eq_nil (h : Tracks prompt L addresses done rest m)
    (hnil : ∀ s ∈ m.streams, entriesOf rest s.address = []) : rest = [] := by
  cases rest with
  | nil => rfl
  | cons x rest =>
    have hx : x ∈ touching addresses L.txs := by rw [h.split]; simp
    obtain ⟨a, ha, htouches⟩ := List.any_eq_true.mp (List.mem_filter.mp hx).2
    rw [← h.addresses] at ha
    obtain ⟨s, hs, rfl⟩ := List.mem_map.mp ha
    have hempty := hnil s hs
    rw [entriesOf_cons_of_touches htouches] at hempty
    cases hempty

theorem isDone_iff : m.isDone = true ↔ ∀ s ∈ m.streams, s.answered = true ∧ s.finished = true ∧ s.buffer = [] := by
  simp only [Merge.isDone, List.all_eq_true, Bool.and_eq_true, List.isEmpty_iff, and_assoc]

theorem Tracks.isDone_iff (h : Tracks prompt L addresses done rest m) :
    m.isDone = true ↔ rest = [] ∧ ∀ s ∈ m.streams, s.finished = true := by
  rw [History.isDone_iff]
  constructor
  · intro hdone
    refine ⟨h.rest_eq_nil fun s hs => ?_, fun s hs => (hdone s hs).2.1⟩
    obtain ⟨-, hfinished, hbuffer⟩ := hdone s hs
    rw [← (h.stream s hs).todo, hbuffer, Stream.unfetched, hfinished]
    rfl
  · rintro ⟨rfl, hfinished⟩ s hs
    have hstream := h.stream s hs
    refine ⟨?_, hfinished s hs, (List.append_eq_nil_iff.mp hstream.todo).1⟩
    by_contra hfresh
    have hopen := (hstream.fresh (by simpa using hfresh)).1
    rw [hfinished s hs] at hopen
    cases hopen

theorem Sound.exact (hnodup : addresses.Nodup) {budget : ℕ} (h : Sound prompt L addresses budget m) :
    MergeExact prompt L addresses m := by
  obtain ⟨⟨done, rest, htracks⟩, -⟩ := h
  refine ⟨htracks.rows_prefix, ?_, fun hp => ?_, fun want hidle => ?_⟩
  · rw [htracks.isDone_iff, htracks.complete_iff]
  · rw [htracks.isDone_iff, htracks.complete_iff]
    refine and_congr_right fun hnil => forall₂_congr fun s hs => ⟨fun hfinished => ?_, fun hanswered => ?_⟩
    · by_contra hfresh
      have hopen := ((htracks.stream s hs).fresh (by simpa using hfresh)).1
      rw [hfinished] at hopen
      cases hopen
    · by_contra hopen
      have htodo := (htracks.stream s hs).todo
      rw [hnil] at htodo
      exact (htracks.stream s hs).promptly hp hanswered (by simpa using hopen) (List.append_eq_nil_iff.mp htodo).2
  · obtain ⟨⟨done', rest', htracks'⟩, -⟩ := Sound.advance hnodup ⟨⟨done, rest, htracks⟩, rfl⟩ want
    have hstops := (advance_spec m want).2
    rw [hidle] at hstops
    cases hstops with
    | reached hwant => exact Or.inl hwant
    | stalled hs hstalled =>
      rw [(htracks'.stream _ hs).stalled] at hstalled
      cases hstalled
    | ended hready hpick =>
      right
      refine History.isDone_iff.mpr fun s hs => ?_
      have hbuffer := pickHighest_eq_none hpick hs
      have hfinished := ((htracks'.stream s hs).ended (hready s hs).2 hbuffer).1
      refine ⟨?_, hfinished, hbuffer⟩
      by_contra hfresh
      have hopen := ((htracks'.stream s hs).fresh (by simpa using hfresh)).1
      rw [hfinished] at hopen
      cases hopen

/-! ### The newest rows -/

theorem emit_rows_length (m : Merge) (index : ℕ) : (m.emit index).rows.length ≤ m.rows.length + 1 := by
  unfold Merge.emit
  split
  · exact Nat.le_succ _
  · split
    · exact Nat.le_succ _
    · split <;> exact (List.length_append).le

theorem Emits.length_le {want : ℕ} {m m' : Merge} (h : Emits want m m') (hm : m.rows.length ≤ want) :
    m'.rows.length ≤ want := by
  induction h with
  | refl => exact hm
  | step hwant _ _ _ ih => exact ih ((emit_rows_length _ _).trans hwant)

theorem accept_rows (m : Merge) (index : ℕ) (before : Option Cursor) (page : AddressPage) :
    (m.accept index before page).1.rows = m.rows := by
  unfold Merge.accept
  split <;> rfl

/-- The first pages, each for a stream that has not been asked before. -/
theorem recentPages_sound : ∀ (pages : List (Option AddressPage)) {m : Merge} {index budget : ℕ},
    Sound prompt L addresses budget m →
    (∀ j s, index ≤ j → m.streams[j]? = some s → s.next = none ∧ s.finished = false) →
    (∀ i page, pages[i]? = some (some page) → ∀ a, addresses[index + i]? = some a → Answers prompt L a none page) →
    (∃ budget', Sound prompt L addresses budget' (recentPages m index pages)) ∧
      (recentPages m index pages).rows = m.rows
  | [], _, _, budget, h, _, _ => ⟨⟨budget, h⟩, rfl⟩
  | none :: pages, m, index, _, h, hfresh, hpages => by
    refine recentPages_sound pages h (fun j s hj => hfresh j s (by omega)) fun i page hi a ha => ?_
    refine hpages (i + 1) page hi a ?_
    rwa [Nat.add_assoc, Nat.add_comm 1 i] at ha
  | some page :: pages, m, index, _, h, hfresh, hpages => by
    have hlater : ∀ i page, pages[i]? = some (some page) → ∀ a, addresses[index + 1 + i]? = some a →
        Answers prompt L a none page := fun i page hi a ha => by
      refine hpages (i + 1) page hi a ?_
      rwa [Nat.add_assoc, Nat.add_comm 1 i] at ha
    rw [recentPages, ← accept_rows m index none page]
    cases hs : m.streams[index]? with
    | none =>
      have hsame : (m.accept index none page).1 = m := by rw [Merge.accept, hs]
      rw [hsame]
      exact recentPages_sound pages h (fun j s hj => hfresh j s (by omega)) hlater
    | some s =>
      obtain ⟨hnext, hfinished⟩ := hfresh index s le_rfl hs
      obtain ⟨⟨done, rest, htracks⟩, -⟩ := id h
      have hpage := hpages 0 page rfl s.address (htracks.address hs)
      rw [← hnext] at hpage ⊢
      obtain ⟨budget', -, hsound⟩ := h.accept hs hfinished hpage
      refine recentPages_sound pages hsound (fun j t hj ht => ?_) hlater
      have hset : (m.accept index s.next page).1.streams[j]? = m.streams[j]? := by
        rw [Merge.accept, hs]
        exact List.getElem?_set_ne (by omega)
      rw [hset] at ht
      exact hfresh j t (by omega) ht

/-- **The merged history is exact**: at every point of every drive the rows are the newest transactions of the wallet,
the drive takes no more pages than it has entries and addresses, and it stops at its target or at the end. What the
first pages give is complete, or all, only if it says so. -/
theorem merged_history_exact (prompt : Prop) (L : Ledger) {addresses : List Text} (hnodup : addresses.Nodup) :
    (∀ (n : ℕ) (m : Merge) (need : Need), Driven prompt L addresses n m need →
      MergeExact prompt L addresses m ∧ n ≤ mostPages L addresses) ∧
    ∀ (pages : List (Option AddressPage)) (want : ℕ),
      (∀ (i : ℕ) page, pages[i]? = some (some page) → ∀ a, addresses[i]? = some a → Answers prompt L a none page) →
      ((recentRows addresses pages want).complete = true →
        (recentRows addresses pages want).rows = (allRows addresses L).take want) ∧
      ((recentRows addresses pages want).exhaustive = true →
        (recentRows addresses pages want).rows = allRows addresses L) := by
  refine ⟨fun n m need hdriven => ?_, fun pages want hpages => ?_⟩
  · obtain ⟨budget, hsound, hle, -⟩ := driven_sound hnodup hdriven
    exact ⟨hsound.exact hnodup, by omega⟩
  · have hfresh : ∀ (j : ℕ) s, 0 ≤ j → (Merge.new addresses).streams[j]? = some s →
        s.next = none ∧ s.finished = false := fun j s _ hs => by
      obtain ⟨a, -, rfl⟩ := List.mem_map.mp (List.mem_of_getElem? hs)
      exact ⟨rfl, rfl⟩
    obtain ⟨⟨budget, hsound⟩, hrows⟩ := recentPages_sound pages (new_sound prompt L addresses) hfresh
      fun i page hi a ha => hpages i page hi a (by rwa [Nat.zero_add] at ha)
    have hexact := (hsound.advance hnodup want).exact hnodup
    have hlen : ((recentPages (Merge.new addresses) 0 pages).advance want).1.rows.length ≤ want :=
      (advance_spec _ want).1.length_le (by rw [hrows]; exact Nat.zero_le _)
    have hall : (recentRows addresses pages want).exhaustive = true →
        (recentRows addresses pages want).rows = allRows addresses L := fun hdone => (hexact.done.mp hdone).1
    refine ⟨fun hcomplete => ?_, hall⟩
    rcases Bool.or_eq_true_iff.mp hcomplete with hwant | hdone
    · have heq : (recentRows addresses pages want).rows.length = want := le_antisymm hlen (of_decide_eq_true hwant)
      have htake := List.prefix_iff_eq_take.mp hexact.rows
      exact htake.trans (congrArg (fun n => (allRows addresses L).take n) heq)
    · have heq := hall hdone
      rw [heq]
      exact (List.take_of_length_le (heq ▸ hlen)).symm

/-- A transfer between two addresses of the wallet, above a mining reward. -/
def twoTxs : Ledger where
  txs := [⟨7, 1, 70, 5, 1, ['a'], ['b']⟩, ⟨6, 0, 60, 50, 0, miningRewards, ['a']⟩]
  descending := by decide +kernel

/-- The page of an honest node that answers with one entry at a time. -/
def pageOfOne (address : Text) (before : Option Cursor) : AddressPage :=
  let rest := (entriesOf twoTxs.txs address).filter (below before)
  { transactions := some (rest.take 1)
    next := if rest.length ≤ 1 then none else rest.head?.map fun e => ⟨e.height, e.position⟩
    indexHeight := none }

theorem pageOfOne_answers (address : Text) (before : Option Cursor) :
    Answers True twoTxs address before (pageOfOne address before) := by
  refine ⟨1, rfl, ?_⟩
  by_cases hlast : ((entriesOf twoTxs.txs address).filter (below before)).length ≤ 1
  · exact .inl ⟨if_pos hlast, hlast⟩
  · obtain ⟨e, rest, hrest⟩ := List.exists_cons_of_length_pos
      (show 0 < ((entriesOf twoTxs.txs address).filter (below before)).length by omega)
    refine .inr ⟨e, ?_, ?_, fun _ => Nat.lt_of_not_le hlast⟩
    · rw [hrest]
      rfl
    · rw [pageOfOne, if_neg hlast, hrest]
      rfl

/-- A turn of the drive that wants ten rows: the merger asks for a page and gets it. -/
def turned (m : Merge) (index : ℕ) (address : Text) (before : Option Cursor) : Merge :=
  ((m.advance 10).1.accept index before (pageOfOne address before)).1

theorem driven_turned {addresses : List Text} {n : ℕ} {m : Merge} {need : Need} {index : ℕ} {address : Text}
    {before : Option Cursor} (h : Driven True twoTxs addresses n m need)
    (hneed : (m.advance 10).2 = .page index address before) :
    Driven True twoTxs addresses (n + 1) (turned m index address before) .idle :=
  .accept (hneed ▸ h.advance 10) (pageOfOne_answers address before)

/-- The wallet of two addresses is driven to its end in three pages, one entry each. -/
theorem merged_history_exact_driven : ∃ m need, Driven True twoTxs [['a'], ['b']] 3 m need ∧
    MergeExact True twoTxs [['a'], ['b']] m ∧ 3 ≤ mostPages twoTxs [['a'], ['b']] ∧
    m.rows = allRows [['a'], ['b']] twoTxs ∧ m.rows.length = 2 := by
  let m₁ := turned (Merge.new [['a'], ['b']]) 0 ['a'] none
  let m₂ := turned m₁ 1 ['b'] none
  let m₃ := turned m₂ 0 ['a'] (some ⟨7, 1⟩)
  have h₁ : Driven True twoTxs [['a'], ['b']] 1 m₁ .idle := driven_turned .new (by decide +kernel)
  have h₂ : Driven True twoTxs [['a'], ['b']] 2 m₂ .idle := driven_turned h₁ (by decide +kernel)
  have h₃ : Driven True twoTxs [['a'], ['b']] 3 m₃ .idle := driven_turned h₂ (by decide +kernel)
  have hdone : (m₃.advance 10).1.isDone = true := by decide +kernel
  obtain ⟨hexact, hpages⟩ := (merged_history_exact True twoTxs (by decide)).1 _ _ _ (h₃.advance 10)
  exact ⟨_, _, h₃.advance 10, hexact, hpages, (hexact.done.mp hdone).1, by decide +kernel⟩

/-- Before any answer, the list of a wallet without transactions is complete, and the merger is not done. -/
theorem merged_history_unanswered : ¬ ∀ (prompt : Prop) (L : Ledger) (addresses : List Text), addresses.Nodup →
    ∀ (n : ℕ) (m : Merge) (need : Need), Driven prompt L addresses n m need →
      (m.isDone = true ↔ m.rows = allRows addresses L) := by
  intro h
  have hdone := (h True ⟨[], .nil⟩ [['a']] (by decide) 0 _ .idle .new).mpr rfl
  cases hdone

end Alphanumeric.History
