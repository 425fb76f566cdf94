/-
# A key is bound to one transaction

The two maps of the payment ledger are inverse to each other in every state a run
reaches, whatever appends and compactions fail on the way: `Bound`. The primitives
that touch the maps are three (an entry's lifecycle changes, an entry goes, a fresh
entry comes), and every operation is made of them. What an operation leaves of an
entry is the same payment (`SamePayment`), and what it adds was bound neither by key
nor by transaction, so nothing is ever bound twice; the four answers of
`check_submission` read off the bindings.

Key definitions: `SamePayment`, `Bound`, `Shrinks`, `Keeps`, `Live`.
Key theorems: `perform_bound`, `load_bound`, `bindings_stay_inverse`.
-/
import Alphanumeric.PaymentLedger

namespace Alphanumeric.PaymentLedger

open Ledger

variable {J : Json}

/-! ### The same payment -/

/-- Two entries that differ in the lifecycle alone. -/
def SamePayment (e e' : LedgerEntry) : Prop := e' = { e with state := e'.state, updatedAt := e'.updatedAt }

namespace SamePayment

theorem refl (e : LedgerEntry) : SamePayment e e := rfl

theorem trans {e e' e'' : LedgerEntry} (h : SamePayment e e') (h' : SamePayment e' e'') :
    SamePayment e e'' := by
  unfold SamePayment at h h' ⊢
  rw [h']
  simp only
  rw [h]

theorem key {e e' : LedgerEntry} (h : SamePayment e e') : e'.key = e.key := by rw [h]

theorem idempotencyKey {e e' : LedgerEntry} (h : SamePayment e e') :
    e'.idempotencyKey = e.idempotencyKey := by rw [h]

theorem txId {e e' : LedgerEntry} (h : SamePayment e e') : e'.txId = e.txId := by rw [h]

theorem tuple {e e' : LedgerEntry} (h : SamePayment e e') : e'.tuple = e.tuple := by rw [h]

theorem timestamp {e e' : LedgerEntry} (h : SamePayment e e') : e'.timestamp = e.timestamp := by rw [h]

theorem expire (horizon now : ℕ) (e : LedgerEntry) : SamePayment e (expire horizon now e) := by
  unfold Ledger.expire
  split <;> rfl

end SamePayment

/-! ### Frames

The log and the counters are beside the maps. -/

/-- `t` differs from `s` in the file and the counters alone. -/
structure SameMaps (s t : Ledger) : Prop where
  entries : t.entries = s.entries
  txIndex : t.txIndex = s.txIndex
  tupleLastTs : t.tupleLastTs = s.tupleLastTs
  config : t.config = s.config

theorem append_same {io : Io} {s t : Ledger} {r : LogRecord} {q : Except ErrorKind Unit}
    (h : s.append J io r = (t, q)) : SameMaps s t := by
  unfold append at h
  split at h
  · cases h
    exact ⟨rfl, rfl, rfl, rfl⟩
  · cases h
    exact ⟨rfl, rfl, rfl, rfl⟩

theorem maybeCompact_same (c : CompactOutcome) (s : Ledger) : SameMaps s (s.maybeCompactBestEffort J c) := by
  unfold maybeCompactBestEffort compact
  split
  · split <;> exact ⟨rfl, rfl, rfl, rfl⟩
  · exact ⟨rfl, rfl, rfl, rfl⟩

/-! ### Bindings -/

/-- The primary key `k` is bound to the transaction `t`. -/
def Live (s : Ledger) (k t : Text) : Prop := ∃ e, s.entries.lookup k = some e ∧ e.txId = t

/-- `entries` and `tx_index` are inverse, and every entry lies under its own primary key. -/
structure Bound (s : Ledger) : Prop where
  key : ∀ k e, s.entries.lookup k = some e → e.key = k
  normal : ∀ k e, s.entries.lookup k = some e → k = primaryKey e.idempotencyKey e.txId
  index : ∀ k t, Live s k t ↔ s.txIndex.lookup t = some k

/-- Every entry of `t` is one that `s` had, at most further in its life. -/
def Shrinks (s t : Ledger) : Prop :=
  ∀ k e', t.entries.lookup k = some e' → ∃ e, s.entries.lookup k = some e ∧ SamePayment e e'

theorem Shrinks.refl (s : Ledger) : Shrinks s s := fun _ e h => ⟨e, h, .refl e⟩

theorem Shrinks.trans {s t u : Ledger} (h : Shrinks s t) (h' : Shrinks t u) : Shrinks s u := by
  intro k e'' he''
  obtain ⟨e', he', hsame'⟩ := h' k e'' he''
  obtain ⟨e, he, hsame⟩ := h k e' he'
  exact ⟨e, he, hsame.trans hsame'⟩

theorem Shrinks.of_eq {s t : Ledger} (h : t.entries = s.entries) : Shrinks s t := by
  intro k e he
  rw [h] at he
  exact ⟨e, he, .refl e⟩

/-- What no operation does: move a key to another transaction, or a transaction to another key. -/
structure Keeps (s t : Ledger) : Prop where
  keys : ∀ k x y, Live s k x → Live t k y → y = x
  transactions : ∀ k l x, s.txIndex.lookup x = some k → t.txIndex.lookup x = some l → l = k

theorem Shrinks.keeps {s t : Ledger} (hs : Bound s) (ht : Bound t) (h : Shrinks s t) : Keeps s t := by
  have hlive : ∀ k x, Live t k x → Live s k x := by
    rintro k x ⟨e', he', rfl⟩
    obtain ⟨e, he, hsame⟩ := h k e' he'
    exact ⟨e, he, hsame.txId.symm⟩
  constructor
  · intro k x y hx hy
    obtain ⟨e, he, rfl⟩ := hx
    obtain ⟨e', he', rfl⟩ := hlive k y hy
    rw [he] at he'
    cases he'
    rfl
  · intro k l x hk hl
    have hl' := (hs.index l x).mp (hlive l x ((ht.index l x).mpr hl))
    rw [hk] at hl'
    exact (Option.some.inj hl').symm

theorem Bound.of_eq {s t : Ledger} (h : Bound s) (he : t.entries = s.entries)
    (hi : t.txIndex = s.txIndex) : Bound t where
  key k e := by
    rw [he]
    exact h.key k e
  normal k e := by
    rw [he]
    exact h.normal k e
  index k x := by
    unfold Live
    rw [he, hi]
    exact h.index k x

/-! ### Three primitives -/

/-- Entries that only change their lifecycle. -/
theorem Bound.of_same {s t : Ledger} (h : Bound s) (hi : t.txIndex = s.txIndex)
    (hsame : ∀ k e', t.entries.lookup k = some e' → ∃ e, s.entries.lookup k = some e ∧ SamePayment e e')
    (hall : ∀ k e, s.entries.lookup k = some e → ∃ e', t.entries.lookup k = some e') : Bound t where
  key k e' he' := by
    obtain ⟨e, he, hs⟩ := hsame k e' he'
    rw [hs.key]
    exact h.key k e he
  normal k e' he' := by
    obtain ⟨e, he, hs⟩ := hsame k e' he'
    rw [hs.idempotencyKey, hs.txId]
    exact h.normal k e he
  index k x := by
    rw [hi, ← h.index]
    constructor
    · rintro ⟨e', he', rfl⟩
      obtain ⟨e, he, hs⟩ := hsame k e' he'
      exact ⟨e, he, hs.txId.symm⟩
    · rintro ⟨e, he, rfl⟩
      obtain ⟨e', he'⟩ := hall k e he
      obtain ⟨e₀, he₀, hs⟩ := hsame k e' he'
      rw [he] at he₀
      cases he₀
      exact ⟨e', he', hs.txId⟩

theorem shrinks_refreshExpiry (now : ℕ) (s : Ledger) : Shrinks s (s.refreshExpiry now) := by
  intro k e' he'
  simp only [refreshExpiry, Table.lookup_mapValues, Option.map_eq_some_iff] at he'
  obtain ⟨e, he, rfl⟩ := he'
  exact ⟨e, he, .expire _ _ e⟩

theorem Bound.refreshExpiry {s : Ledger} (h : Bound s) (now : ℕ) : Bound (s.refreshExpiry now) := by
  refine h.of_same rfl (shrinks_refreshExpiry now s) fun k e he => ?_
  refine ⟨expire s.config.txAgeLimitSecs now e, ?_⟩
  simp only [Ledger.refreshExpiry, Table.lookup_mapValues, he, Option.map_some]

theorem lookup_setState {state : EntryState} {updatedAt : ℕ} {s : Ledger} {key : Text} (k : Text) :
    (s.setState state updatedAt key).entries.lookup k =
      if k = key then (s.entries.lookup key).map fun e => { e with state, updatedAt }
      else s.entries.lookup k := by
  unfold setState
  cases h : s.entries.lookup key with
  | none =>
    by_cases hk : k = key
    · subst hk
      simp [h]
    · simp [hk]
  | some e => simp only [Table.lookup_insert_ite, Option.map_some]

theorem shrinks_setState (state : EntryState) (updatedAt : ℕ) (s : Ledger) (key : Text) :
    Shrinks s (s.setState state updatedAt key) := by
  intro k e' he'
  rw [lookup_setState] at he'
  split_ifs at he' with hk
  · obtain ⟨e, he, rfl⟩ := Option.map_eq_some_iff.mp he'
    exact ⟨e, hk ▸ he, rfl⟩
  · exact ⟨e', he', .refl e'⟩

theorem Bound.setState {s : Ledger} (h : Bound s) (state : EntryState) (updatedAt : ℕ) (key : Text) :
    Bound (s.setState state updatedAt key) := by
  refine h.of_same ?_ (shrinks_setState state updatedAt s key) fun k e he => ?_
  · unfold Ledger.setState
    split <;> rfl
  · rw [lookup_setState]
    by_cases hk : k = key
    · subst hk
      exact ⟨_, by rw [if_pos rfl, he, Option.map_some]⟩
    · exact ⟨e, by rw [if_neg hk, he]⟩

theorem lookup_removeEntry (s : Ledger) (key k : Text) :
    (s.removeEntry J key).entries.lookup k = if k = key then none else s.entries.lookup k := by
  unfold removeEntry
  cases h : s.entries.lookup key with
  | none =>
    by_cases hk : k = key
    · subst hk
      simp [h]
    · simp [hk]
  | some e => simp only [Table.lookup_erase_ite]

theorem shrinks_removeEntry (s : Ledger) (key : Text) : Shrinks s (s.removeEntry J key) := by
  intro k e he
  rw [lookup_removeEntry] at he
  split_ifs at he
  exact ⟨e, he, .refl e⟩

theorem Bound.removeEntry {s : Ledger} (h : Bound s) (key : Text) : Bound (s.removeEntry J key) := by
  cases hkey : s.entries.lookup key with
  | none =>
    have : s.removeEntry J key = s := by simp only [Ledger.removeEntry, hkey]
    rw [this]
    exact h
  | some gone =>
    have hindex : (s.removeEntry J key).txIndex = s.txIndex.erase gone.txId := by
      simp only [Ledger.removeEntry, hkey]
    constructor
    · intro k e he
      obtain ⟨e₀, he₀, hs⟩ := shrinks_removeEntry s key k e he
      rw [hs.key]
      exact h.key k e₀ he₀
    · intro k e he
      obtain ⟨e₀, he₀, hs⟩ := shrinks_removeEntry s key k e he
      rw [hs.idempotencyKey, hs.txId]
      exact h.normal k e₀ he₀
    · intro k x
      unfold Live
      rw [hindex, Table.lookup_erase_ite, lookup_removeEntry]
      by_cases hk : k = key
      · subst hk
        simp only [if_true, reduceCtorEq, false_and, exists_false, false_iff]
        split_ifs with hx
        · simp
        · intro hix
          obtain ⟨e, he, rfl⟩ := (h.index k x).mpr hix
          rw [hkey] at he
          cases he
          exact hx rfl
      · rw [if_neg hk]
        split_ifs with hx
        · simp only [iff_false]
          intro hlive
          have := (h.index k x).mp hlive
          rw [hx, (h.index key gone.txId).mp ⟨gone, hkey, rfl⟩] at this
          exact hk (Option.some.inj this).symm
        · exact h.index k x

/-- An entry may be indexed if its key is free or its own, and its transaction likewise. -/
theorem Bound.indexEntry {s : Ledger} (h : Bound s) {entry : LedgerEntry}
    (hkey : entry.key = primaryKey entry.idempotencyKey entry.txId)
    (hfree : ∀ e, s.entries.lookup entry.key = some e → e.txId = entry.txId)
    (hown : ∀ k, s.txIndex.lookup entry.txId = some k → k = entry.key) : Bound (s.indexEntry J entry) := by
  have hlook : ∀ k, (s.indexEntry J entry).entries.lookup k =
      if k = entry.key then some entry else s.entries.lookup k := fun k => Table.lookup_insert_ite _ _ _ _
  have hidx : ∀ x, (s.indexEntry J entry).txIndex.lookup x =
      if x = entry.txId then some entry.key else s.txIndex.lookup x := fun x => Table.lookup_insert_ite _ _ _ _
  constructor
  · intro k e he
    rw [hlook] at he
    split_ifs at he with hk
    · cases he
      exact hk.symm
    · exact h.key k e he
  · intro k e he
    rw [hlook] at he
    split_ifs at he with hk
    · cases he
      rw [hk, hkey]
    · exact h.normal k e he
  · intro k x
    unfold Live
    rw [hlook, hidx]
    by_cases hk : k = entry.key
    · subst hk
      simp only [if_true, Option.some.injEq, exists_eq_left']
      split_ifs with hx
      · simp [hx]
      · constructor
        · intro heq
          exact absurd heq.symm hx
        · intro hix
          obtain ⟨e, he, rfl⟩ := (h.index _ x).mpr hix
          exact absurd (hfree e he) hx
    · rw [if_neg hk]
      split_ifs with hx
      · subst hx
        simp only [Option.some.injEq, Ne.symm hk, iff_false]
        intro hlive
        exact hk (hown k ((h.index k _).mp hlive))
      · exact h.index k x

/-! ### Operations -/

theorem removeEntry_txIndex_none {s : Ledger} {key x : Text} (h : s.txIndex.lookup x = none) :
    (s.removeEntry J key).txIndex.lookup x = none := by
  unfold removeEntry
  split
  · exact h
  · rw [Table.lookup_erase_ite]
    split_ifs
    · rfl
    · exact h

/-- Pruning removes entries and nothing else. -/
theorem deleteAll_bound (io : Io) : ∀ (keys : List Text) {s : Ledger}, Bound s →
    Bound (deleteAll J io keys s).1 ∧ Shrinks s (deleteAll J io keys s).1 ∧
      (deleteAll J io keys s).1.config = s.config ∧
      ∀ x, s.txIndex.lookup x = none → (deleteAll J io keys s).1.txIndex.lookup x = none
  | [], s, h => ⟨h, .refl s, rfl, fun _ hx => hx⟩
  | key :: keys, s, h => by
    unfold deleteAll
    cases hkey : s.entries.lookup key with
    | none => exact deleteAll_bound io keys h
    | some entry =>
      dsimp only
      rcases happ : s.append J io (.delete key entry.txId) with ⟨s', r⟩
      have hsame := append_same happ
      have hb : Bound s' := h.of_eq hsame.entries hsame.txIndex
      have hsh : Shrinks s s' := .of_eq hsame.entries
      have hnone : ∀ x, s.txIndex.lookup x = none → s'.txIndex.lookup x = none := by
        intro x hx
        rw [hsame.txIndex]
        exact hx
      cases r with
      | error e => exact ⟨hb, hsh, hsame.config, hnone⟩
      | ok u =>
        dsimp only
        obtain ⟨hb', hsh', hconf', hnone'⟩ := deleteAll_bound io keys (hb.removeEntry (J := J) key)
        have hremove : (s'.removeEntry J key).config = s'.config := by
          unfold removeEntry
          split <;> rfl
        rcases hrest : deleteAll J io keys (s'.removeEntry J key) with ⟨t, q⟩
        rw [hrest] at hb' hsh' hconf' hnone'
        have hall : Bound t ∧ Shrinks s t ∧ t.config = s.config ∧
            ∀ x, s.txIndex.lookup x = none → t.txIndex.lookup x = none :=
          ⟨hb', (hsh.trans (shrinks_removeEntry s' key)).trans hsh', hconf'.trans (hremove.trans hsame.config),
            fun x hx => hnone' x (removeEntry_txIndex_none (hnone x hx))⟩
        cases q <;> exact hall

theorem pruneDurable_bound (io : Io) {s : Ledger} (h : Bound s) (now targetEntries targetBytes : ℕ) :
    Bound (s.pruneDurable J io now targetEntries targetBytes).1 ∧
      Shrinks s (s.pruneDurable J io now targetEntries targetBytes).1 ∧
      (s.pruneDurable J io now targetEntries targetBytes).1.config = s.config ∧
      ∀ x, s.txIndex.lookup x = none →
        (s.pruneDurable J io now targetEntries targetBytes).1.txIndex.lookup x = none := by
  unfold pruneDurable
  dsimp only
  split_ifs with hnil
  · exact ⟨h, .refl s, rfl, fun _ hx => hx⟩
  · have hdel := deleteAll_bound (J := J) io
      ((s.pruneKeys J now targetEntries targetBytes).mergeSort fun a b => a ≤ b) h
    rcases hres : deleteAll J io ((s.pruneKeys J now targetEntries targetBytes).mergeSort fun a b => a ≤ b) s
      with ⟨s', r⟩
    rw [hres] at hdel
    obtain ⟨hb, hsh, hconf, hnone⟩ := hdel
    cases r with
    | error e => exact ⟨hb, hsh, hconf, hnone⟩
    | ok count =>
      dsimp only
      have hsame := maybeCompact_same (J := J) io.compactAfterPrune
        { s' with tupleLastTs := Table.keep (fun ts => decide (now ≤ ts)) s'.tupleLastTs }
      refine ⟨hb.of_eq hsame.entries hsame.txIndex, hsh.trans (.of_eq hsame.entries),
        hsame.config.trans hconf, ?_⟩
      intro x hx
      rw [hsame.txIndex]
      exact hnone x hx

theorem makeRoom_bound (io : Io) {s : Ledger} (h : Bound s) (entry : LedgerEntry) (now : ℕ) :
    Bound (s.makeRoom J io entry now).1 ∧ Shrinks s (s.makeRoom J io entry now).1 ∧
      ∀ x, s.txIndex.lookup x = none → (s.makeRoom J io entry now).1.txIndex.lookup x = none := by
  unfold makeRoom
  dsimp only
  split_ifs with hbig
  · exact ⟨h, .refl s, fun _ hx => hx⟩
  · have hprune := pruneDurable_bound (J := J) io h now (s.config.maxEntries - 1)
      (s.config.maxLiveBytes - encodedUpsertLen J entry)
    rcases hres : s.pruneDurable J io now (s.config.maxEntries - 1)
      (s.config.maxLiveBytes - encodedUpsertLen J entry) with ⟨s', r⟩
    rw [hres] at hprune
    obtain ⟨hb, hsh, -, hnone⟩ := hprune
    cases r with
    | error e => exact ⟨hb, hsh, hnone⟩
    | ok count =>
      dsimp only
      split_ifs <;> exact ⟨hb, hsh, hnone⟩

theorem shrinks_prepared (now : ℕ) (s : Ledger) :
    Shrinks s ((s.refreshExpiry now).recalculateLiveBytes J) :=
  (shrinks_refreshExpiry now s).trans (.of_eq rfl)

theorem Bound.prepared {s : Ledger} (h : Bound s) (now : ℕ) :
    Bound ((s.refreshExpiry now).recalculateLiveBytes J) :=
  (h.refreshExpiry now).of_eq rfl rfl

/-- A key that is free stays free while room is made. -/
theorem Shrinks.lookup_none {s t : Ledger} (h : Shrinks s t) {k : Text} (hk : s.entries.lookup k = none) :
    t.entries.lookup k = none := by
  rw [Option.eq_none_iff_forall_not_mem]
  intro e' he'
  obtain ⟨e, he, -⟩ := h k e' he'
  rw [hk] at he
  cases he

/-- The new entry of an operation is bound neither by key nor by transaction before it. -/
theorem keeps_of_fresh {s t u : Ledger} {entry : LedgerEntry} (hs : Bound s) (hu : Bound u)
    (hsh : Shrinks s t) (hkey : s.entries.lookup entry.key = none)
    (htx : s.txIndex.lookup entry.txId = none)
    (hlook : ∀ k, u.entries.lookup k = if k = entry.key then some entry else t.entries.lookup k) :
    Keeps s u := by
  have hlive : ∀ k x, Live u k x → k ≠ entry.key → Live s k x := by
    rintro k x ⟨e', he', rfl⟩ hk
    rw [hlook, if_neg hk] at he'
    obtain ⟨e, he, hsame⟩ := hsh k e' he'
    exact ⟨e, he, hsame.txId.symm⟩
  constructor
  · rintro k x y ⟨e, he, rfl⟩ hy
    have hk : k ≠ entry.key := by
      rintro rfl
      rw [hkey] at he
      cases he
    obtain ⟨e', he', rfl⟩ := hlive k y hy hk
    rw [he] at he'
    cases he'
    rfl
  · intro k l x hk hl
    have hlu := (hu.index l x).mpr hl
    by_cases hlk : l = entry.key
    · obtain ⟨e, he, rfl⟩ := hlu
      rw [hlook, if_pos hlk] at he
      cases he
      rw [htx] at hk
      cases hk
    · have := (hs.index l x).mp (hlive l x hlu hlk)
      rw [hk] at this
      exact (Option.some.inj this).symm

theorem record_bound (io : Io) {s : Ledger} (h : Bound s) (key : Option Text) (tuple : PaymentTuple)
    (timestamp : ℕ) (txId : Text) (signedTx : Option Text) (now : ℕ) :
    Bound (s.record J io key tuple timestamp txId signedTx now).1 ∧
      Keeps s (s.record J io key tuple timestamp txId signedTx now).1 := by
  have hself : Bound s ∧ Keeps s s := ⟨h, (Shrinks.refl s).keeps h h⟩
  unfold record
  dsimp only
  cases hkey : s.entries.lookup (primaryKey key txId) with
  | some existing =>
    dsimp only
    split_ifs <;> exact hself
  | none =>
    dsimp only
    split_ifs with hown
    · exact hself
    · have htx : s.txIndex.lookup txId = none := by
        cases hx : s.txIndex.lookup txId with
        | none => rfl
        | some owner =>
          have howner : owner = primaryKey key txId := by simpa [hx] using hown
          obtain ⟨e, he, -⟩ := (h.index owner txId).mpr hx
          rw [howner, hkey] at he
          cases he
      set entry := newEntry key tuple timestamp txId signedTx now with hentry
      have hroom := makeRoom_bound (J := J) io (h.prepared (J := J) now) entry now
      rcases hres : ((s.refreshExpiry now).recalculateLiveBytes J).makeRoom J io entry now with ⟨s', r⟩
      rw [hres] at hroom
      obtain ⟨hb, hsh, hnone⟩ := hroom
      have hsh' : Shrinks s s' := (shrinks_prepared now s).trans hsh
      cases r with
      | error e => exact ⟨hb, hsh'.keeps h hb⟩
      | ok u =>
        dsimp only [commitEntry]
        rcases happ : s'.append J io (.upsert entry) with ⟨s'', q⟩
        have hsame := append_same happ
        have hb'' : Bound s'' := hb.of_eq hsame.entries hsame.txIndex
        have hsh'' : Shrinks s s'' := hsh'.trans (.of_eq hsame.entries)
        cases q with
        | error e => exact ⟨hb'', hsh''.keeps h hb''⟩
        | ok u =>
          dsimp only
          have hfree : s''.entries.lookup entry.key = none := hsh''.lookup_none hkey
          have htx'' : s''.txIndex.lookup entry.txId = none := by
            rw [hsame.txIndex]
            exact hnone txId htx
          have hnew : Bound (s''.indexEntry J entry) := by
            refine hb''.indexEntry rfl ?_ ?_
            · intro e he
              rw [hfree] at he
              cases he
            · intro k hk
              rw [htx''] at hk
              cases hk
          have hcompact := maybeCompact_same (J := J) io.compact (s''.indexEntry J entry)
          have hfinal := hnew.of_eq hcompact.entries hcompact.txIndex
          have hkey' : s.entries.lookup entry.key = none := hkey
          have htx' : s.txIndex.lookup entry.txId = none := htx
          refine ⟨hfinal, keeps_of_fresh h hfinal hsh'' hkey' htx' fun k => ?_⟩
          rw [hcompact.entries]
          exact Table.lookup_insert_ite _ _ _ _

theorem releaseKey_bound (io : Io) {s : Ledger} (h : Bound s) (key txId : Text) :
    Bound (s.releaseKey J io key txId).1 ∧ Shrinks s (s.releaseKey J io key txId).1 := by
  unfold releaseKey
  cases hkey : s.entries.lookup key with
  | none => exact ⟨h, .refl s⟩
  | some entry =>
    dsimp only
    split_ifs with hskip
    · exact ⟨h, .refl s⟩
    · rcases happ : s.append J io (.delete key txId) with ⟨s', r⟩
      have hsame := append_same happ
      have hb : Bound s' := h.of_eq hsame.entries hsame.txIndex
      have hsh : Shrinks s s' := .of_eq hsame.entries
      cases r with
      | error e => exact ⟨hb, hsh⟩
      | ok u =>
        have hcompact := maybeCompact_same (J := J) io.compact (s'.removeEntry J key)
        exact ⟨(hb.removeEntry key).of_eq hcompact.entries hcompact.txIndex,
          (hsh.trans (shrinks_removeEntry s' key)).trans (.of_eq hcompact.entries)⟩

theorem updateState_bound (io : Io) {s : Ledger} (h : Bound s) (txId : Text) (state : EntryState) (now : ℕ) :
    Bound (s.updateState J io txId state now).1 ∧ Shrinks s (s.updateState J io txId state now).1 := by
  unfold updateState
  cases hkey : s.txIndex.lookup txId with
  | none => exact ⟨h, .refl s⟩
  | some key =>
    dsimp only
    rcases happ : s.append J io (.state txId state now) with ⟨s', r⟩
    have hsame := append_same happ
    have hb : Bound s' := h.of_eq hsame.entries hsame.txIndex
    have hsh : Shrinks s s' := .of_eq hsame.entries
    cases r with
    | error e => exact ⟨hb, hsh⟩
    | ok u =>
      have hcompact := maybeCompact_same (J := J) io.compact (s'.setState state now key)
      exact ⟨(hb.setState state now key).of_eq hcompact.entries hcompact.txIndex,
        (hsh.trans (shrinks_setState state now s' key)).trans (.of_eq hcompact.entries)⟩

/-- **One operation** keeps the maps inverse and rebinds nothing. -/
theorem perform_bound (io : Io) {s : Ledger} (h : Bound s) (op : LedgerOp) :
    Bound (perform J io s op).1 ∧ Keeps s (perform J io s op).1 := by
  have hrefresh : ∀ now, Bound (s.refreshExpiry now) ∧ Keeps s (s.refreshExpiry now) := fun now =>
    ⟨h.refreshExpiry now, (shrinks_refreshExpiry now s).keeps h (h.refreshExpiry now)⟩
  have hshrunk : ∀ {t : Ledger}, Bound t ∧ Shrinks s t → Bound t ∧ Keeps s t := fun ⟨hb, hsh⟩ =>
    ⟨hb, hsh.keeps h hb⟩
  cases op with
  | allocateTimestamp tuple now =>
    have halloc : ∀ x : Ledger × Option ℕ, x = s.allocateTimestamp tuple now → Bound x.1 ∧ Keeps s x.1 := by
      intro x hx
      have hentries : x.1.entries = s.entries ∧ x.1.txIndex = s.txIndex := by
        rw [hx]
        unfold allocateTimestamp
        dsimp only
        split_ifs <;> exact ⟨rfl, rfl⟩
      exact hshrunk ⟨h.of_eq hentries.1 hentries.2, .of_eq hentries.1⟩
    exact halloc _ rfl
  | checkSubmission key txId now => exact hrefresh now
  | record key tuple timestamp txId signedTx now => exact record_bound io h key tuple timestamp txId signedTx now
  | releaseReservation key txId => exact hshrunk (releaseKey_bound io h _ txId)
  | releaseLocalReservation txId => exact hshrunk (releaseKey_bound io h _ txId)
  | updateState txId state now => exact hshrunk (updateState_bound io h txId state now)
  | findByKey key now => exact hrefresh now
  | findByTxId txId now => exact hrefresh now
  | prune now =>
    obtain ⟨hb, hsh, -, -⟩ := pruneDurable_bound (J := J) io (h.prepared (J := J) now) now s.config.maxEntries
      s.config.maxLiveBytes
    exact hshrunk ⟨hb, (shrinks_prepared now s).trans hsh⟩

/-! ### Opening -/

theorem apply_bound {s t : Ledger} {r : LogRecord} (h : Bound s) (ha : s.apply J r = .ok t) : Bound t := by
  cases r with
  | upsert logged =>
    simp only [apply] at ha
    split_ifs at ha with hkey htx
    cases ha
    refine h.indexEntry rfl ?_ ?_
    · intro e he
      simpa [he] using hkey
    · intro k hk
      simpa [hk] using htx
  | state txId state updatedAt =>
    simp only [apply] at ha
    split at ha
    · cases ha
    · split at ha
      · cases ha
      · cases ha
        exact h.setState state updatedAt _
  | delete logged txId =>
    simp only [apply] at ha
    split_ifs at ha
    · cases ha
      exact h.removeEntry _
    · cases ha
      exact h

theorem applyLine_bound {s t : Ledger} {l : Bytes} (h : Bound s) (ha : s.applyLine J l = .ok t) : Bound t := by
  unfold applyLine at ha
  split_ifs at ha
  · cases ha
    exact h
  · split at ha
    · cases ha
    · exact apply_bound h ha

theorem applyLines_bound : ∀ {ls : List Bytes} {s t : Ledger}, Bound s → applyLines J ls s = .ok t → Bound t
  | [], s, t, h, ha => by
    cases ha
    exact h
  | l :: ls, s, t, h, ha => by
    unfold applyLines at ha
    split at ha
    · cases ha
    · rename_i s' hl
      exact applyLines_bound (applyLine_bound h hl) ha

theorem blank_bound (config : LedgerConfig) (file : Option Bytes) : Bound (blank config file) where
  key k e h := by simp [blank] at h
  normal k e h := by simp [blank] at h
  index k x := by simp [Live, blank]

theorem load_bound {config : LedgerConfig} {file : Option Bytes} {s : Ledger}
    (h : load J config file = .ok s) : Bound s := by
  unfold load at h
  cases file with
  | none =>
    cases h
    exact blank_bound config none
  | some bytes =>
    dsimp only at h
    split at h
    · cases h
    · rename_i s₁ hlines
      have h₁ := applyLines_bound (blank_bound config (some bytes)) hlines
      split at h
      · cases h
      · rename_i s₂ htail
        cases h
        unfold applyTail at htail
        split_ifs at htail
        · cases htail
          exact h₁.of_eq rfl rfl
        · split at htail
          · split at htail
            · cases htail
            · rename_i happly
              cases htail
              exact (apply_bound h₁ happly).of_eq rfl rfl
          · cases htail
            exact h₁.of_eq rfl rfl

theorem rehash_lookup {s : Ledger} {entries : Table Text LedgerEntry}
    (h : entries.entries.Perm s.entries.entries) (k : Text) : entries.lookup k = s.entries.lookup k :=
  AList.perm_lookup h

theorem step_bound {s t : Ledger} {ev : LedgerEvent} (h : Bound s) (hs : LedgerStep J s ev t) : Bound t := by
  cases hs with
  | call io op => exact (perform_bound io h op).1
  | rehash hperm =>
    refine h.of_same rfl ?_ ?_
    · intro k e he
      rw [rehash_lookup hperm] at he
      exact ⟨e, he, .refl e⟩
    · intro k e he
      exact ⟨e, by rw [rehash_lookup hperm, he]⟩
  | restart hload => exact load_bound hload

theorem run_bound {s t : Ledger} {tr : List (Ledger × LedgerEvent)} (h : Bound s)
    (hrun : LedgerRun J s tr t) : Bound t :=
  hrun.invariant (I := Bound) (C := fun _ _ => True) (fun _ _ _ hb _ hs => step_bound hb hs) h
    fun _ _ => trivial

/-! ### The four answers -/

theorem live_refreshExpiry {s : Ledger} {now : ℕ} {k x : Text} : Live (s.refreshExpiry now) k x ↔ Live s k x := by
  constructor
  · rintro ⟨e', he', rfl⟩
    obtain ⟨e, he, hs⟩ := shrinks_refreshExpiry now s k e' he'
    exact ⟨e, he, hs.txId.symm⟩
  · rintro ⟨e, he, rfl⟩
    refine ⟨expire s.config.txAgeLimitSecs now e, ?_, (SamePayment.expire _ _ e).txId⟩
    simp only [refreshExpiry, Table.lookup_mapValues, he, Option.map_some]

/-- What each answer of `check_submission` says about the bindings. -/
structure FourCases (s : Ledger) (idempotencyKey txId : Text) (answer : SubmissionCheck) : Prop where
  duplicate : (∃ e, answer = .duplicate e) ↔ Live s (primaryKey (some idempotencyKey) txId) txId
  conflict : (∃ e, answer = .conflict e) ↔
    ∃ x, x ≠ txId ∧ Live s (primaryKey (some idempotencyKey) txId) x
  collision : (∃ e, answer = .collision e) ↔
    (∀ x, ¬ Live s (primaryKey (some idempotencyKey) txId) x) ∧
      ∃ k, k ≠ primaryKey (some idempotencyKey) txId ∧ Live s k txId
  new : answer = .new ↔ (∀ x, ¬ Live s (primaryKey (some idempotencyKey) txId) x) ∧ ∀ k, ¬ Live s k txId

theorem submissionCheck_cases {s : Ledger} (h : Bound s) (key txId : Text) :
    FourCases s key txId (s.submissionCheck key txId) := by
  unfold submissionCheck
  dsimp only
  set k := primaryKey (some key) txId with hk
  cases hentry : s.entries.lookup k with
  | some entry =>
    have hlive : ∀ x, Live s k x ↔ entry.txId = x := by
      intro x
      simp [Live, hentry]
    dsimp only
    split_ifs with htx
    · constructor <;> simp [hlive, htx, ← hk]
    · constructor
      · simp [hlive, htx, ← hk]
      · simp only [SubmissionCheck.conflict.injEq, exists_eq', true_iff, ← hk, hlive]
        exact ⟨entry.txId, htx, rfl⟩
      · simp [hlive, ← hk]
      · simp [hlive, ← hk]
  | none =>
    have hdead : ∀ x, ¬ Live s k x := by
      rintro x ⟨e, he, -⟩
      rw [hentry] at he
      cases he
    dsimp only
    cases hindex : s.txIndex.lookup txId with
    | none =>
      have hfree : ∀ l, ¬ Live s l txId := by
        intro l hl
        have := (h.index l txId).mp hl
        rw [hindex] at this
        cases this
      constructor <;> simp [← hk, hdead, hfree]
    | some owner =>
      have howner : Live s owner txId := (h.index owner txId).mpr hindex
      have hne : owner ≠ k := by
        rintro rfl
        exact hdead txId howner
      obtain ⟨e, he, -⟩ := id howner
      dsimp only
      rw [if_neg hne, he]
      constructor
      · simp [← hk, hdead]
      · simp [← hk, hdead]
      · simp only [SubmissionCheck.collision.injEq, exists_eq', true_iff, ← hk]
        exact ⟨hdead, owner, hne, howner⟩
      · simp only [reduceCtorEq, false_iff, ← hk, not_and, not_forall, not_not]
        exact fun _ => ⟨owner, howner⟩

theorem append_error {io : Io} {s : Ledger} {r : LogRecord} {e : ErrorKind}
    (h : (s.append J io r).2 = .error e) : e = .other := by
  unfold append at h
  split at h
  · cases h
  · cases h
    rfl

theorem deleteAll_error {io : Io} : ∀ {keys : List Text} {s : Ledger} {e : ErrorKind},
    (deleteAll J io keys s).2 = .error e → e = .other
  | [], s, e, h => by cases h
  | key :: keys, s, e, h => by
    unfold deleteAll at h
    cases hkey : s.entries.lookup key with
    | none =>
      rw [hkey] at h
      exact deleteAll_error h
    | some entry =>
      rw [hkey] at h
      dsimp only at h
      rcases happ : s.append J io (.delete key entry.txId) with ⟨s', r⟩
      rw [happ] at h
      cases r with
      | error e' =>
        cases h
        exact append_error (congrArg Prod.snd happ)
      | ok u =>
        dsimp only at h
        rcases hrest : deleteAll J io keys (s'.removeEntry J key) with ⟨t, q⟩
        rw [hrest] at h
        cases q with
        | error e' =>
          cases h
          exact deleteAll_error (congrArg Prod.snd hrest)
        | ok count => cases h

theorem pruneDurable_error {io : Io} {s : Ledger} {now targetEntries targetBytes : ℕ} {e : ErrorKind}
    (h : (s.pruneDurable J io now targetEntries targetBytes).2 = .error e) : e = .other := by
  unfold pruneDurable at h
  dsimp only at h
  split_ifs at h
  rcases hres : deleteAll J io ((s.pruneKeys J now targetEntries targetBytes).mergeSort fun a b => a ≤ b) s
    with ⟨s', r⟩
  rw [hres] at h
  cases r with
  | error e' =>
    cases h
    exact deleteAll_error (congrArg Prod.snd hres)
  | ok count => cases h

theorem makeRoom_error {io : Io} {s : Ledger} {entry : LedgerEntry} {now : ℕ} {e : ErrorKind}
    (h : (s.makeRoom J io entry now).2 = .error e) : e = .storageFull ∨ e = .other := by
  unfold makeRoom at h
  dsimp only at h
  split_ifs at h
  · cases h
    exact .inl rfl
  · rcases hres : s.pruneDurable J io now (s.config.maxEntries - 1)
      (s.config.maxLiveBytes - encodedUpsertLen J entry) with ⟨s', r⟩
    rw [hres] at h
    cases r with
    | error e' =>
      cases h
      exact .inr (pruneDurable_error (congrArg Prod.snd hres))
    | ok count =>
      dsimp only at h
      split_ifs at h
      · cases h
        exact .inl rfl
      · cases h
        exact .inl rfl

/-- A pair that is bound neither by key nor by transaction can be refused for lack of room or
by the file system only. -/
theorem record_error {io : Io} {s : Ledger} (h : Bound s) {key txId : Text} {tuple : PaymentTuple}
    {timestamp now : ℕ} {signedTx : Option Text} {e : ErrorKind}
    (hnew : s.submissionCheck key txId = .new)
    (herr : (s.record J io (some key) tuple timestamp txId signedTx now).2 = .error e) :
    e = .storageFull ∨ e = .other := by
  obtain ⟨hdead, hfree⟩ := (submissionCheck_cases h key txId).new.mp hnew
  have hentry : s.entries.lookup (primaryKey (some key) txId) = none := by
    rw [Option.eq_none_iff_forall_not_mem]
    intro e he
    exact hdead e.txId ⟨e, he, rfl⟩
  have hindex : s.txIndex.lookup txId = none := by
    rw [Option.eq_none_iff_forall_not_mem]
    intro k hk
    exact hfree k ((h.index k txId).mpr hk)
  unfold record at herr
  simp only [hentry, hindex, Option.any_none, Bool.false_eq_true, if_false] at herr
  set entry := newEntry (some key) tuple timestamp txId signedTx now with hdef
  rcases hres : ((s.refreshExpiry now).recalculateLiveBytes J).makeRoom J io entry now with ⟨s', r⟩
  rw [hres] at herr
  cases r with
  | error e' =>
    cases herr
    exact makeRoom_error (congrArg Prod.snd hres)
  | ok u =>
    dsimp only [commitEntry] at herr
    rcases happ : s'.append J io (.upsert entry) with ⟨s'', q⟩
    rw [happ] at herr
    cases q with
    | error e' =>
      cases herr
      exact .inr (append_error (congrArg Prod.snd happ))
    | ok u => cases herr

/-! ### Every run -/

/-- **No double binding.** Whatever the ledger was opened on and whatever has been called since,
with whatever failures: the maps are inverse, no operation rebinds a key or a transaction, the
four answers mean what they say, and a pair answered `New` is recorded unless there is no room
or the file system fails. -/
theorem bindings_stay_inverse {config : LedgerConfig} {file : Option Bytes} {s₀ s : Ledger}
    {tr : List (Ledger × LedgerEvent)} (hload : load J config file = .ok s₀) (hrun : LedgerRun J s₀ tr s) :
    Bound s ∧ (∀ io op, Keeps s (perform J io s op).1) ∧
      (∀ key txId now, FourCases s key txId (s.checkSubmission key txId now).2) ∧
      ∀ io key tuple timestamp txId signedTx now now' e,
        (s.checkSubmission key txId now).2 = .new →
        ((s.checkSubmission key txId now).1.record J io (some key) tuple timestamp txId signedTx now').2 =
          .error e → e = .storageFull ∨ e = .other := by
  have hb := run_bound (load_bound hload) hrun
  refine ⟨hb, fun io op => (perform_bound io hb op).2, ?_, ?_⟩
  · intro key txId now
    obtain ⟨hdup, hconf, hcoll, hnew⟩ := submissionCheck_cases (hb.refreshExpiry now) key txId
    simp only [live_refreshExpiry] at hdup hconf hcoll hnew
    exact ⟨hdup, hconf, hcoll, hnew⟩
  · intro io key tuple timestamp txId signedTx now now' e hnew herr
    exact record_error (hb.refreshExpiry now) hnew herr

theorem load_nothing : load toyJson .default none = .ok (Sample.opened .default) := rfl

open Sample in
/-- A transaction recorded under one key collides under another. -/
theorem recorded_transaction_collides :
    let s := (perform toyJson .fine (opened .default) (reserve 'a' 5 't' 5)).1
    (s.entries.lookup (primaryKey (some ['a']) ['t'])).map (·.txId) = some ['t'] ∧
      FourCases s ['b'] ['t'] (s.checkSubmission ['b'] ['t'] 5).2 :=
  ⟨by decide +kernel,
    (bindings_stay_inverse load_nothing (.single (.call _ .fine (reserve 'a' 5 't' 5)))).2.2.1 _ _ _⟩

end Alphanumeric.PaymentLedger
