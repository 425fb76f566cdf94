/-
# Timestamps are handed out once

Two payments with one tuple differ in their timestamp alone, so a timestamp is
handed out after the last one of its tuple. What remembers the last one is
`tuple_last_ts`, in memory; on disk it is the entries themselves. A timestamp below
the clock needs no memory. A run is followed by a history: the time of its last call,
the entries recorded and not released, and the timestamps allocated since the ledger
was opened; `Timely` says that the ledger remembers all of it.

Pruning is the exception. It may drop an entry whose timestamp is not past yet; once
a compaction has rewritten the log, a restart has forgotten the timestamp. Hence the
condition of `allocated_timestamp_fresh`: what is pruned lies in the past.

Key definitions: `Remembers`, `Timely`, `History`, `Orderly`.
Key theorems: `perform_timely`, `load_stamped`, `allocated_timestamp_fresh`.
-/
import Alphanumeric.LedgerFaults

namespace Alphanumeric.PaymentLedger

open Ledger

variable {J : Json} {c : ℕ} {L : List LedgerEntry} {A : List (PaymentTuple × ℕ)}

/-! ### What the ledger remembers -/

/-- The timestamp lies before the time `c`, or the next one of its tuple lies behind it. -/
def Remembers (s : Ledger) (c : ℕ) (tuple : PaymentTuple) (ts : ℕ) : Prop :=
  ts < c ∨ ∃ last, s.tupleLastTs.lookup tuple = some last ∧ ts ≤ last

/-- All timestamps are remembered: those of the entries in memory, of the recorded entries `L`
(which are past or still in memory), and the allocated ones `A`. -/
structure Timely (c : ℕ) (L : List LedgerEntry) (A : List (PaymentTuple × ℕ)) (s : Ledger) : Prop where
  live : ∀ k e, s.entries.lookup k = some e → Remembers s c e.tuple e.timestamp
  recorded : ∀ e ∈ L, e.timestamp < c ∨ ∃ e', s.entries.lookup e.key = some e' ∧ SamePayment e e'
  allocated : ∀ p ∈ A, Remembers s c p.1 p.2

theorem Remembers.mono {s : Ledger} {c' ts : ℕ} {tuple : PaymentTuple} (h : Remembers s c tuple ts)
    (hle : c ≤ c') : Remembers s c' tuple ts := by
  rcases h with h | h
  · exact .inl (by omega)
  · exact .inr h

theorem Timely.mono {s : Ledger} {c' : ℕ} (h : Timely c L A s) (hle : c ≤ c') : Timely c' L A s := by
  refine ⟨fun k e he => (h.live k e he).mono hle, fun e he => ?_, fun p hp => (h.allocated p hp).mono hle⟩
  rcases h.recorded e he with hpast | hlive
  · exact .inl (by omega)
  · exact .inr hlive

theorem Timely.remembers {s : Ledger} (h : Timely c L A s) {e : LedgerEntry} (he : e ∈ L) :
    Remembers s c e.tuple e.timestamp := by
  rcases h.recorded e he with hpast | ⟨e', he', hsame⟩
  · exact .inl hpast
  · have hlive := h.live _ e' he'
    rwa [hsame.tuple, hsame.timestamp] at hlive

/-- `t` remembers what `s` does, and holds the same payments. -/
theorem Timely.frame {s t : Ledger} (h : Timely c L A s) (hts : t.tupleLastTs = s.tupleLastTs)
    (hsh : Shrinks s t)
    (hall : ∀ k e, s.entries.lookup k = some e → ∃ e', t.entries.lookup k = some e' ∧ SamePayment e e') :
    Timely c L A t := by
  have hrem : ∀ {tuple ts}, Remembers s c tuple ts → Remembers t c tuple ts := by
    intro tuple ts hr
    unfold Remembers
    rw [hts]
    exact hr
  refine ⟨fun k e' he' => ?_, fun e he => ?_, fun p hp => hrem (h.allocated p hp)⟩
  · obtain ⟨e, he, hsame⟩ := hsh k e' he'
    rw [hsame.tuple, hsame.timestamp]
    exact hrem (h.live k e he)
  · rcases h.recorded e he with hpast | ⟨e', he', hsame⟩
    · exact .inl hpast
    · obtain ⟨e'', he'', hsame'⟩ := hall _ e' he'
      exact .inr ⟨e'', he'', hsame.trans hsame'⟩

theorem Timely.of_maps {s t : Ledger} (h : Timely c L A s) (hmaps : SameMaps s t) : Timely c L A t := by
  refine h.frame hmaps.tupleLastTs (.of_eq hmaps.entries) fun k e he => ?_
  rw [hmaps.entries]
  exact ⟨e, he, .refl e⟩

theorem Timely.refreshExpiry {s : Ledger} (h : Timely c L A s) (now : ℕ) :
    Timely c L A (s.refreshExpiry now) := by
  refine h.frame rfl (shrinks_refreshExpiry now s) fun k e he => ?_
  refine ⟨expire s.config.txAgeLimitSecs now e, ?_, .expire _ _ e⟩
  simp only [Ledger.refreshExpiry, Table.lookup_mapValues, he, Option.map_some]

theorem Timely.prepared {s : Ledger} (h : Timely c L A s) (now : ℕ) :
    Timely c L A ((s.refreshExpiry now).recalculateLiveBytes J) :=
  (h.refreshExpiry now).of_maps ⟨rfl, rfl, rfl, rfl⟩

theorem Timely.setState {s : Ledger} (h : Timely c L A s) (st : EntryState) (updatedAt : ℕ) (key : Text) :
    Timely c L A (s.setState st updatedAt key) := by
  refine h.frame ?_ (shrinks_setState st updatedAt s key) fun k e he => ?_
  · unfold Ledger.setState
    split <;> rfl
  · rw [lookup_setState]
    by_cases hk : k = key
    · refine ⟨{ e with state := st, updatedAt }, ?_, rfl⟩
      rw [if_pos hk, ← hk, he, Option.map_some]
    · exact ⟨e, by rw [if_neg hk, he], .refl e⟩

theorem removeEntry_tupleLastTs (s : Ledger) (key : Text) :
    (s.removeEntry J key).tupleLastTs = s.tupleLastTs := by
  unfold removeEntry
  split <;> rfl

/-- An entry goes: the recorded entries it stood for are past, or no longer counted. -/
theorem Timely.removeEntry {s : Ledger} {L' : List LedgerEntry} (h : Timely c L A s) (key : Text)
    (hsub : ∀ e ∈ L', e ∈ L)
    (hgone : ∀ e ∈ L', ∀ e', s.entries.lookup key = some e' → e.key = key → SamePayment e e' →
      e.timestamp < c) : Timely c L' A (s.removeEntry J key) := by
  have hrem : ∀ {tuple ts}, Remembers s c tuple ts → Remembers (s.removeEntry J key) c tuple ts := by
    intro tuple ts hr
    unfold Remembers
    rw [removeEntry_tupleLastTs]
    exact hr
  refine ⟨fun k e he => ?_, fun e he => ?_, fun p hp => hrem (h.allocated p hp)⟩
  · rw [lookup_removeEntry] at he
    split_ifs at he
    exact hrem (h.live k e he)
  · rcases h.recorded e (hsub e he) with hpast | ⟨e', he', hsame⟩
    · exact .inl hpast
    · by_cases hk : e.key = key
      · rw [hk] at he'
        exact .inl (hgone e he e' he' hk hsame)
      · exact .inr ⟨e', by rw [lookup_removeEntry, if_neg hk, he'], hsame⟩

/-- Forgetting what lies before `now` forgets nothing, from `now` on. -/
theorem Timely.keep {s : Ledger} {now : ℕ} (h : Timely c L A s) (hnow : now ≤ c) :
    Timely c L A { s with tupleLastTs := Table.keep (fun ts => decide (now ≤ ts)) s.tupleLastTs } := by
  have hrem : ∀ {tuple ts}, Remembers s c tuple ts →
      Remembers { s with tupleLastTs := Table.keep (fun ts => decide (now ≤ ts)) s.tupleLastTs } c tuple ts := by
    intro tuple ts hr
    rcases hr with hr | ⟨last, hlast, hle⟩
    · exact .inl hr
    · by_cases hpast : now ≤ last
      · exact .inr ⟨last, Table.lookup_keep.mpr ⟨hlast, by simpa using hpast⟩, hle⟩
      · exact .inl (by omega)
  exact ⟨fun k e he => hrem (h.live k e he), h.recorded, fun p hp => hrem (h.allocated p hp)⟩

theorem lookup_indexEntry_tuple (s : Ledger) (entry : LedgerEntry) (tuple : PaymentTuple) :
    (s.indexEntry J entry).tupleLastTs.lookup tuple =
      if tuple = entry.tuple then some (max ((s.tupleLastTs.lookup entry.tuple).getD 0) entry.timestamp)
      else s.tupleLastTs.lookup tuple :=
  Table.lookup_insert_ite _ _ _ _

/-- A fresh entry is remembered, and nothing is forgotten for it. -/
theorem Timely.indexEntry {s : Ledger} {entry : LedgerEntry} (h : Timely c L A s)
    (hfree : s.entries.lookup entry.key = none) : Timely c L A (s.indexEntry J entry) := by
  have hrem : ∀ {tuple ts}, Remembers s c tuple ts → Remembers (s.indexEntry J entry) c tuple ts := by
    intro tuple ts hr
    rcases hr with hr | ⟨last, hlast, hle⟩
    · exact .inl hr
    · right
      rw [lookup_indexEntry_tuple]
      by_cases ht : tuple = entry.tuple
      · subst ht
        rw [if_pos rfl, hlast]
        exact ⟨_, rfl, le_trans hle (le_max_left _ _)⟩
      · rw [if_neg ht]
        exact ⟨last, hlast, hle⟩
  have hlook : ∀ k, (s.indexEntry J entry).entries.lookup k =
      if k = entry.key then some entry else s.entries.lookup k := fun k => Table.lookup_insert_ite _ _ _ _
  refine ⟨fun k e he => ?_, fun e he => ?_, fun p hp => hrem (h.allocated p hp)⟩
  · rw [hlook] at he
    split_ifs at he with hk
    · cases he
      right
      rw [lookup_indexEntry_tuple, if_pos rfl]
      exact ⟨_, rfl, le_max_right _ _⟩
    · exact hrem (h.live k e he)
  · rcases h.recorded e he with hpast | ⟨e', he', hsame⟩
    · exact .inl hpast
    · have hk : e.key ≠ entry.key := by
        intro hk
        rw [hk, hfree] at he'
        cases he'
      exact .inr ⟨e', by rw [hlook, if_neg hk, he'], hsame⟩

/-! ### Allocation -/

/-- A timestamp that is handed out lies in its window, behind everything remembered. -/
theorem allocate_fresh {s : Ledger} {tuple : PaymentTuple} {now ts : ℕ}
    (hrange : now + s.config.futureAllocationMarginSecs < u64Max)
    (h : (s.allocateTimestamp tuple now).2 = some ts) :
    now ≤ ts ∧ ts ≤ now + s.config.futureAllocationMarginSecs ∧
      (∀ ts', c ≤ now → Remembers s c tuple ts' → ts' < ts) ∧
      (s.allocateTimestamp tuple now).1.tupleLastTs = s.tupleLastTs.insert tuple ts := by
  unfold allocateTimestamp at h ⊢
  cases hlast : s.tupleLastTs.lookup tuple with
  | none =>
    simp only [hlast] at h ⊢
    split_ifs at h ⊢
    cases h
    refine ⟨le_rfl, by omega, fun ts' hc hr => ?_, rfl⟩
    rcases hr with hr | ⟨last, hlast', -⟩
    · omega
    · rw [hlast] at hlast'
      cases hlast'
  | some last =>
    simp only [hlast] at h ⊢
    have hnow : now ≤ max now (min (last + 1) u64Max) := le_max_left _ _
    have hnext : min (last + 1) u64Max ≤ max now (min (last + 1) u64Max) := le_max_right _ _
    generalize max now (min (last + 1) u64Max) = candidate at h hnow hnext ⊢
    split_ifs at h ⊢ with hfar
    cases h
    -- The window ends below the largest `u64`, so the successor of `last` did not saturate.
    have hlt : last < ts := by omega
    refine ⟨hnow, by omega, fun ts' hc hr => ?_, rfl⟩
    rcases hr with hr | ⟨last', hlast', hle⟩
    · omega
    · rw [hlast] at hlast'
      cases hlast'
      omega

theorem allocate_refused {s : Ledger} {tuple : PaymentTuple} {now : ℕ}
    (h : (s.allocateTimestamp tuple now).2 = none) : (s.allocateTimestamp tuple now).1 = s := by
  unfold allocateTimestamp at h ⊢
  dsimp only at h ⊢
  split_ifs at h ⊢
  rfl

theorem allocate_timely {s : Ledger} {tuple : PaymentTuple} {now ts : ℕ} (h : Timely c L A s) (hnow : c ≤ now)
    (hrange : now + s.config.futureAllocationMarginSecs < u64Max)
    (halloc : (s.allocateTimestamp tuple now).2 = some ts) :
    Timely c L ((tuple, ts) :: A) (s.allocateTimestamp tuple now).1 := by
  obtain ⟨-, -, hfresh, hlast⟩ := allocate_fresh (c := c) hrange halloc
  obtain ⟨-, hentries, -, -⟩ := allocateTimestamp_frame s tuple now
  have hrem : ∀ {tuple' ts'}, Remembers s c tuple' ts' →
      Remembers (s.allocateTimestamp tuple now).1 c tuple' ts' := by
    intro tuple' ts' hr
    unfold Remembers
    rw [hlast, Table.lookup_insert_ite]
    by_cases ht : tuple' = tuple
    · subst ht
      rw [if_pos rfl]
      exact .inr ⟨ts, rfl, (hfresh ts' hnow hr).le⟩
    · rw [if_neg ht]
      exact hr
  refine ⟨fun k e he => ?_, fun e he => ?_, fun p hp => ?_⟩
  · rw [hentries] at he
    exact hrem (h.live k e he)
  · rw [hentries]
    exact h.recorded e he
  · rcases List.mem_cons.mp hp with rfl | hp
    · right
      rw [hlast, Table.lookup_insert_ite, if_pos rfl]
      exact ⟨ts, rfl, le_rfl⟩
    · exact hrem (h.allocated p hp)

/-! ### Operations -/

/-- The keys that an operation prunes. -/
def prunedKeys (J : Json) (s : Ledger) : LedgerOp → List Text
  | .record key tuple timestamp txId signedTx now =>
    let entry := newEntry key tuple timestamp txId signedTx now
    let need := encodedUpsertLen J entry
    if (s.entries.lookup entry.key).isNone ∧ ¬ (s.txIndex.lookup txId).any (· ≠ entry.key) = true ∧
        need ≤ s.config.maxLiveBytes then
      ((s.refreshExpiry now).recalculateLiveBytes J).pruneKeys J now (s.config.maxEntries - 1)
        (s.config.maxLiveBytes - need)
    else []
  | .prune now =>
    ((s.refreshExpiry now).recalculateLiveBytes J).pruneKeys J now s.config.maxEntries s.config.maxLiveBytes
  | _ => []

/-- Pruning entries whose timestamp is past forgets nothing. -/
theorem deleteAll_timely (io : Io) : ∀ (keys : List Text) {s : Ledger}, Timely c L A s →
    (∀ k ∈ keys, ∀ e, s.entries.lookup k = some e → e.timestamp < c) →
    Timely c L A (deleteAll J io keys s).1
  | [], _, h, _ => h
  | key :: keys, s, h, hpast => by
    simp only [List.forall_mem_cons] at hpast
    unfold deleteAll
    cases hkey : s.entries.lookup key with
    | none => exact deleteAll_timely io keys h hpast.2
    | some entry =>
      dsimp only
      rcases happ : s.append J io (.delete key entry.txId) with ⟨s', q⟩
      have hsame := append_same happ
      have hs' : Timely c L A s' := h.of_maps hsame
      cases q with
      | error e => exact hs'
      | ok u =>
        dsimp only
        have hgone : Timely c L A (s'.removeEntry J key) := by
          refine hs'.removeEntry key (fun _ he => he) fun e _ e' he' _ hpay => ?_
          rw [hsame.entries] at he'
          rw [← hpay.timestamp]
          exact hpast.1 e' he'
        have hrest := deleteAll_timely io keys hgone (fun k hk e he => by
          rw [lookup_removeEntry] at he
          split_ifs at he
          rw [hsame.entries] at he
          exact hpast.2 k hk e he)
        rcases hres : deleteAll J io keys (s'.removeEntry J key) with ⟨t, q⟩
        rw [hres] at hrest
        cases q <;> exact hrest

theorem pruneDurable_timely (io : Io) {s : Ledger} {now targetEntries targetBytes : ℕ} (h : Timely c L A s)
    (hnow : now ≤ c) (hpast : ∀ k ∈ s.pruneKeys J now targetEntries targetBytes, ∀ e,
      s.entries.lookup k = some e → e.timestamp < c) :
    Timely c L A (s.pruneDurable J io now targetEntries targetBytes).1 := by
  unfold pruneDurable
  dsimp only
  split_ifs with hnil
  · exact h
  · set keys := (s.pruneKeys J now targetEntries targetBytes).mergeSort fun a b => a ≤ b with hkeys
    have hall : Timely c L A (deleteAll J io keys s).1 := by
      refine deleteAll_timely io keys h fun k hk => hpast k ?_
      rwa [hkeys, List.mem_mergeSort] at hk
    rcases hres : deleteAll J io keys s with ⟨s', q⟩
    rw [hres] at hall
    cases q with
    | error e => exact hall
    | ok count => exact (hall.keep hnow).of_maps (maybeCompact_same _ _)

theorem makeRoom_timely (io : Io) {s : Ledger} {entry : LedgerEntry} {now : ℕ} (h : Timely c L A s)
    (hnow : now ≤ c) (hpast : encodedUpsertLen J entry ≤ s.config.maxLiveBytes →
      ∀ k ∈ s.pruneKeys J now (s.config.maxEntries - 1) (s.config.maxLiveBytes - encodedUpsertLen J entry),
        ∀ e, s.entries.lookup k = some e → e.timestamp < c) :
    Timely c L A (s.makeRoom J io entry now).1 := by
  unfold makeRoom
  dsimp only
  split_ifs with hbig
  · exact h
  · have hprune := pruneDurable_timely io h hnow (hpast (Nat.not_lt.mp hbig))
    rcases hres : s.pruneDurable J io now (s.config.maxEntries - 1)
      (s.config.maxLiveBytes - encodedUpsertLen J entry) with ⟨s', q⟩
    rw [hres] at hprune
    cases q with
    | error e => exact hprune
    | ok count =>
      dsimp only
      split_ifs <;> exact hprune

theorem record_timely (io : Io) {s : Ledger} (hb : Bound s) {key : Option Text} {tuple : PaymentTuple}
    {timestamp : ℕ} {txId : Text} {signedTx : Option Text} {now : ℕ} (h : Timely c L A s) (hnow : now ≤ c)
    (hpast : ∀ k ∈ prunedKeys J s (.record key tuple timestamp txId signedTx now), ∀ e,
      s.entries.lookup k = some e → e.timestamp < now) :
    Timely c L A (s.record J io key tuple timestamp txId signedTx now).1 := by
  unfold record
  dsimp only
  cases hkey : s.entries.lookup (primaryKey key txId) with
  | some existing =>
    dsimp only
    split_ifs <;> exact h
  | none =>
    dsimp only
    split_ifs with hown
    · exact h
    · set entry := newEntry key tuple timestamp txId signedTx now with hentry
      have hroom : Timely c L A (((s.refreshExpiry now).recalculateLiveBytes J).makeRoom J io entry now).1 := by
        refine makeRoom_timely io (h.prepared now) hnow fun hfit k hk e' he' => ?_
        obtain ⟨e, he, hpay⟩ := shrinks_prepared (J := J) now s k e' he'
        have hcond : (s.entries.lookup entry.key).isNone = true ∧
            ¬ (s.txIndex.lookup txId).any (· ≠ entry.key) = true ∧
            encodedUpsertLen J entry ≤ s.config.maxLiveBytes :=
          ⟨Option.isNone_iff_eq_none.mpr hkey, hown, hfit⟩
        have hlt := hpast k (by rw [prunedKeys, ← hentry, if_pos hcond]; exact hk) e he
        rw [hpay.timestamp]
        omega
      have hshr := (makeRoom_bound (J := J) io (hb.prepared (J := J) now) entry now).2.1
      rcases hres : ((s.refreshExpiry now).recalculateLiveBytes J).makeRoom J io entry now with ⟨s', q⟩
      rw [hres] at hroom hshr
      cases q with
      | error e => exact hroom
      | ok u =>
        dsimp only [commitEntry]
        rcases happ : s'.append J io (.upsert entry) with ⟨s'', q⟩
        have hsame := append_same happ
        cases q with
        | error e => exact hroom.of_maps hsame
        | ok u =>
          have hfree : s''.entries.lookup entry.key = none := by
            rw [hsame.entries]
            exact ((shrinks_prepared now s).trans hshr).lookup_none hkey
          exact ((hroom.of_maps hsame).indexEntry hfree).of_maps (maybeCompact_same _ _)

/-- A release takes an entry back; what else it stood for is not counted any more. -/
theorem releaseKey_timely (io : Io) {s : Ledger} (h : Timely c L A s) (key txId : Text) :
    ((s.releaseKey J io key txId).2 = .ok true →
      Timely c (L.filter fun e => ¬ (e.key = key ∧ e.txId = txId)) A (s.releaseKey J io key txId).1) ∧
      ((s.releaseKey J io key txId).2 ≠ .ok true → Timely c L A (s.releaseKey J io key txId).1) := by
  unfold releaseKey
  cases hkey : s.entries.lookup key with
  | none => exact ⟨fun hb => absurd hb (by simp), fun _ => h⟩
  | some entry =>
    dsimp only
    split_ifs with hskip
    · exact ⟨fun hb => absurd hb (by simp), fun _ => h⟩
    · have htx : entry.txId = txId := by
        by_contra hne
        exact hskip (.inl hne)
      rcases happ : s.append J io (.delete key txId) with ⟨s', q⟩
      have hsame := append_same happ
      have hs' : Timely c L A s' := h.of_maps hsame
      cases q with
      | error e => exact ⟨fun hb => absurd hb (by simp), fun _ => hs'⟩
      | ok u =>
        refine ⟨fun _ => ?_, fun hne => absurd rfl hne⟩
        have hgone : Timely c (L.filter fun e => ¬ (e.key = key ∧ e.txId = txId)) A (s'.removeEntry J key) := by
          refine hs'.removeEntry key (fun e he => List.mem_of_mem_filter he) fun e he e' he' hk hpay => ?_
          rw [hsame.entries, hkey] at he'
          cases he'
          have hnot : ¬ (e.key = key ∧ e.txId = txId) := by
            have hkept := List.of_mem_filter he
            exact of_decide_eq_true hkept
          exact absurd ⟨hk, hpay.txId.symm.trans htx⟩ hnot
        exact hgone.of_maps (maybeCompact_same _ _)

theorem updateState_timely (io : Io) {s : Ledger} (h : Timely c L A s) (txId : Text) (st : EntryState)
    (now : ℕ) : Timely c L A (s.updateState J io txId st now).1 := by
  unfold updateState
  cases hkey : s.txIndex.lookup txId with
  | none => exact h
  | some key =>
    dsimp only
    rcases happ : s.append J io (.state txId st now) with ⟨s', q⟩
    have hs' : Timely c L A s' := h.of_maps (append_same happ)
    cases q with
    | error e => exact hs'
    | ok u => exact (hs'.setState st now key).of_maps (maybeCompact_same _ _)

/-! ### Histories -/

/-- What a run has done so far: the time of its last call, the entries recorded and not
released, and the timestamps allocated since the ledger was opened. -/
structure History where
  clock : ℕ
  recorded : List LedgerEntry
  allocated : List (PaymentTuple × ℕ)

namespace History

/-- Nothing has been called yet; the ledger holds what was recorded before. -/
def opening (s : Ledger) : History := ⟨0, s.entries.values, []⟩

def allocate (h : History) (tuple : PaymentTuple) : Option ℕ → History
  | some ts => { h with allocated := (tuple, ts) :: h.allocated }
  | none => h

def record (h : History) : Except ErrorKind LedgerEntry → History
  | .ok e => { h with recorded := e :: h.recorded }
  | .error _ => h

def release (h : History) (key txId : Text) : Except ErrorKind Bool → History
  | .ok true => { h with recorded := h.recorded.filter fun e => ¬ (e.key = key ∧ e.txId = txId) }
  | _ => h

/-- The history after an operation, from what the operation answers. -/
def call (J : Json) (h : History) (s : Ledger) (io : Io) : LedgerOp → History
  | .allocateTimestamp tuple now => h.allocate tuple (s.allocateTimestamp tuple now).2
  | .record key tuple timestamp txId signedTx now =>
    h.record (s.record J io key tuple timestamp txId signedTx now).2
  | .releaseReservation key txId =>
    h.release (primaryKey (some key) txId) txId (s.releaseReservation J io key txId).2
  | .releaseLocalReservation txId =>
    h.release (primaryKey none txId) txId (s.releaseLocalReservation J io txId).2
  | _ => h

def advance (J : Json) (h : History) (s : Ledger) : LedgerEvent → History
  | .call io op => ({ h with clock := max h.clock op.now } : History).call J s io op
  | .rehash _ => h
  | .restart => { h with allocated := [] }

def after (J : Json) : History → List (Ledger × LedgerEvent) → History
  | h, [] => h
  | h, (s, ev) :: tr => after J (h.advance J s ev) tr

end History

def LedgerOp.readsClock : LedgerOp → Bool
  | .releaseReservation _ _ => false
  | .releaseLocalReservation _ => false
  | _ => true

/-- A condition on the calls of a run, which may look back at the history. -/
abbrev CallCondition : Type := History → Ledger → Io → LedgerOp → Prop

def StepMeets (C : CallCondition) (h : History) (s : Ledger) : LedgerEvent → Prop
  | .call io op => C h s io op
  | .rehash _ => True
  | .restart => True

/-- Every call of the trace meets the condition, given what came before it. -/
def RunMeets (J : Json) (C : CallCondition) : History → List (Ledger × LedgerEvent) → Prop
  | _, [] => True
  | h, (s, ev) :: tr => StepMeets C h s ev ∧ RunMeets J C (h.advance J s ev) tr

/-- No append fails and the clock does not run back. -/
structure Clocked (h : History) (s : Ledger) (io : Io) (op : LedgerOp) : Prop where
  synced : Synced io
  clock : op.readsClock = true → h.clock ≤ op.now

/-- Also, what is pruned lies in the past, and no window of allocation reaches the end of `u64`. -/
structure Orderly (J : Json) (h : History) (s : Ledger) (io : Io) (op : LedgerOp) : Prop
    extends Clocked h s io op where
  past : ∀ k ∈ prunedKeys J s op, ∀ e, s.entries.lookup k = some e → e.timestamp < op.now
  range : ∀ tuple now, op = .allocateTimestamp tuple now →
    now + s.config.futureAllocationMarginSecs < u64Max

theorem Timely.record {s : Ledger} {e : LedgerEntry} (h : Timely c L A s)
    (he : s.entries.lookup e.key = some e) : Timely c (e :: L) A s := by
  refine ⟨h.live, fun e' he' => ?_, h.allocated⟩
  rcases List.mem_cons.mp he' with rfl | he'
  · exact .inr ⟨e', he, .refl e'⟩
  · exact h.recorded e' he'

/-- The history and the ledger agree. -/
def Faithful (h : History) (s : Ledger) : Prop := Timely h.clock h.recorded h.allocated s

theorem release_faithful (io : Io) {h : History} {s : Ledger} (hs : Faithful h s) (key txId : Text) :
    Faithful (h.release key txId (s.releaseKey J io key txId).2) (s.releaseKey J io key txId).1 := by
  obtain ⟨hreleased, hkept⟩ := releaseKey_timely (J := J) io hs key txId
  rcases hres : s.releaseKey J io key txId with ⟨t, q⟩
  rw [hres] at hreleased hkept
  cases q with
  | error e => exact hkept (by simp)
  | ok b =>
    cases b with
    | false => exact hkept (by simp)
    | true => exact hreleased rfl

/-- **One operation** keeps the history faithful. -/
theorem perform_timely {h : History} {io : Io} {s : Ledger} {op : LedgerOp} (hb : Bound s) (hs : Faithful h s)
    (ho : Orderly J h s io op) : Faithful (h.advance J s (.call io op)) (perform J io s op).1 := by
  have hle : op.now ≤ max h.clock op.now := le_max_right _ _
  have hmono : Faithful { h with clock := max h.clock op.now } s := hs.mono (le_max_left _ _)
  cases op with
  | allocateTimestamp tuple now =>
    have hclock : max h.clock now = now := max_eq_right (ho.clock rfl)
    change Faithful (History.allocate _ tuple (s.allocateTimestamp tuple now).2) (s.allocateTimestamp tuple now).1
    cases halloc : (s.allocateTimestamp tuple now).2 with
    | none =>
      rw [allocate_refused halloc]
      exact hmono
    | some ts => exact allocate_timely hmono hclock.le (ho.range tuple now rfl) halloc
  | checkSubmission key txId now => exact hmono.refreshExpiry now
  | record key tuple timestamp txId signedTx now =>
    have hrec := record_timely (J := J) io hb hmono hle ho.past
    change Faithful (History.record _ (s.record J io key tuple timestamp txId signedTx now).2)
      (s.record J io key tuple timestamp txId signedTx now).1
    cases hres : (s.record J io key tuple timestamp txId signedTx now).2 with
    | error e => exact hrec
    | ok e => exact hrec.record (record_in_memory hb hres)
  | releaseReservation key txId => exact release_faithful io hmono _ txId
  | releaseLocalReservation txId => exact release_faithful io hmono _ txId
  | updateState txId state now => exact updateState_timely io hmono txId state now
  | findByKey key now => exact hmono.refreshExpiry now
  | findByTxId txId now => exact hmono.refreshExpiry now
  | prune now =>
    refine pruneDurable_timely io (hmono.prepared now) hle fun k hk e' he' => ?_
    obtain ⟨e, he, hpay⟩ := shrinks_prepared (J := J) now s k e' he'
    rw [hpay.timestamp]
    have hlt := ho.past k hk e he
    exact lt_of_lt_of_le hlt hle

/-! ### Restarts -/

/-- Every entry's timestamp is the last of its tuple, or before it. -/
def Stamped (s : Ledger) : Prop :=
  ∀ k e, s.entries.lookup k = some e → ∃ last, s.tupleLastTs.lookup e.tuple = some last ∧ e.timestamp ≤ last

theorem stamped_of_timely {s : Ledger} (h : Timely 0 [] [] s) : Stamped s := by
  intro k e he
  exact (h.live k e he).resolve_left (Nat.not_lt_zero _)

theorem timely_of_stamped {s : Ledger} (h : Stamped s) : Timely 0 [] [] s :=
  ⟨fun k e he => .inr (h k e he), fun _ he => absurd he List.not_mem_nil, fun _ hp => absurd hp List.not_mem_nil⟩

/-- An entry that takes the place of another, as in a log read back. -/
theorem stamped_indexEntry {s : Ledger} (h : Stamped s) (entry : LedgerEntry) :
    Stamped (s.indexEntry J entry) := by
  intro k e he
  simp only [indexEntry, Table.lookup_insert_ite] at he ⊢
  split_ifs at he with hk
  · cases he
    exact ⟨_, if_pos rfl, le_max_right _ _⟩
  · obtain ⟨last, hlast, hle⟩ := h k e he
    by_cases ht : e.tuple = entry.tuple
    · rw [if_pos ht, ← ht, hlast]
      exact ⟨_, rfl, le_trans hle (le_max_left _ _)⟩
    · rw [if_neg ht]
      exact ⟨last, hlast, hle⟩

theorem apply_stamped {s t : Ledger} {r : LogRecord} (h : Stamped s) (ha : s.apply J r = .ok t) : Stamped t := by
  cases r with
  | upsert logged =>
    simp only [apply] at ha
    split_ifs at ha
    cases ha
    exact stamped_indexEntry h _
  | state txId state updatedAt =>
    simp only [apply] at ha
    split at ha
    · cases ha
    · split at ha
      · cases ha
      · cases ha
        exact stamped_of_timely ((timely_of_stamped h).setState state updatedAt _)
  | delete logged txId =>
    simp only [apply] at ha
    split_ifs at ha
    · cases ha
      refine stamped_of_timely ((timely_of_stamped h).removeEntry _ (fun _ he => he) ?_)
      intro e he
      cases he
    · cases ha
      exact h

theorem applyLines_stamped : ∀ {ls : List Bytes} {s t : Ledger}, Stamped s → applyLines J ls s = .ok t → Stamped t
  | [], _, _, h, ha => by
    cases ha
    exact h
  | l :: ls, s, t, h, ha => by
    simp only [applyLines, applyLine] at ha
    split_ifs at ha with hl
    · exact applyLines_stamped h ha
    · cases hdec : J.decode l with
      | none =>
        rw [hdec] at ha
        cases ha
      | some q =>
        rw [hdec] at ha
        dsimp only at ha
        cases hq : s.apply J q with
        | error e =>
          rw [hq] at ha
          cases ha
        | ok u =>
          rw [hq] at ha
          exact applyLines_stamped (apply_stamped h hq) ha

/-- An opened ledger remembers the timestamps of all its entries. -/
theorem load_stamped {config : LedgerConfig} {file : Option Bytes} {t : Ledger}
    (h : load J config file = .ok t) : Stamped t := by
  obtain ⟨r, ⟨ls, -, happ⟩, hsame⟩ := load_replays h
  have hblank : Stamped (blank t.config none) := by
    intro k e he
    cases he
  have hr := applyLines_stamped hblank happ
  intro k e he
  rw [hsame.entries] at he
  rw [hsame.tupleLastTs]
  exact hr k e he

/-! ### Runs -/

theorem Mirror.mono {r s : Ledger} {T T' : ℕ} (h : Mirror T r s) (hle : T ≤ T') : Mirror T' r s := by
  refine ⟨h.txIndex, fun k => ?_⟩
  obtain ⟨τ, hτ, hk⟩ := h.entries k
  exact ⟨τ, le_trans hτ hle, hk⟩

theorem advance_clock (h : History) (s : Ledger) (io : Io) (op : LedgerOp) :
    (h.advance J s (.call io op)).clock = max h.clock op.now := by
  have hrelease : ∀ (g : History) (key txId : Text) (q : Except ErrorKind Bool),
      (g.release key txId q).clock = g.clock := by
    intro g key txId q
    unfold History.release
    split <;> rfl
  cases op with
  | allocateTimestamp tuple now =>
    simp only [History.advance, History.call]
    cases (s.allocateTimestamp tuple now).2 <;> rfl
  | record key tuple timestamp txId signedTx now =>
    simp only [History.advance, History.call]
    cases (s.record J io key tuple timestamp txId signedTx now).2 <;> rfl
  | releaseReservation key txId => exact hrelease _ _ _ _
  | releaseLocalReservation txId => exact hrelease _ _ _ _
  | _ => rfl

/-- What a step keeps: the bindings, a log that mirrors memory, and a faithful history. -/
structure Followed (J : Json) (h : History) (s : Ledger) : Prop where
  bound : Bound s
  log : Clean J (Mirror h.clock) s
  faithful : Faithful h s

theorem restart_faithful {h : History} {s t : Ledger} (hf : Followed J h s) (hload : load J s.config s.file = .ok t) :
    Faithful (h.advance J s .restart) t := by
  obtain ⟨r, hrep, hmirror⟩ := hf.log
  obtain ⟨t', ht', hsame⟩ := hrep.load (.inl rfl)
  rw [hload] at ht'
  cases ht'
  refine ⟨fun k e he => .inr (load_stamped hload k e he), fun e he => ?_, fun p hp => absurd hp List.not_mem_nil⟩
  rcases hf.faithful.recorded e he with hpast | ⟨e', he', hpay⟩
  · exact .inl hpast
  · obtain ⟨e'', he'', hpay'⟩ := hmirror.entry he'
    refine .inr ⟨e'', ?_, hpay.trans hpay'.symm⟩
    rw [hsame.entries]
    exact he''

theorem step_followed (hJ : JsonOk J) {h : History} {s t : Ledger} {ev : LedgerEvent} (hf : Followed J h s)
    (ho : StepMeets (Orderly J) h s ev) (hstep : LedgerStep J s ev t) : Followed J (h.advance J s ev) t := by
  refine ⟨step_bound hf.bound hstep, ?_, ?_⟩
  · have hlog : Clean J (Mirror (max h.clock ev.now)) s :=
      hf.log.mono fun _ _ hm => hm.mono (le_max_left _ _)
    have hclock : (h.advance J s ev).clock = max h.clock ev.now := by
      cases ev with
      | call io op => exact advance_clock h s io op
      | rehash entries => exact (Nat.max_zero _).symm
      | restart => exact (Nat.max_zero _).symm
    rw [hclock]
    refine (step_clean hJ ⟨hf.bound, hlog⟩ ?_ (le_max_right _ _) hstep).2
    cases ev with
    | call io op => exact .inr ho.synced
    | rehash entries => trivial
    | restart => trivial
  · cases hstep with
    | call io op => exact perform_timely hf.bound hf.faithful ho
    | rehash hperm =>
      have hlook := (rehash_lookups hperm).entries
      refine hf.faithful.frame rfl (fun k e he => ⟨e, (hlook k).symm.trans he, .refl e⟩) ?_
      intro k e he
      exact ⟨e, (hlook k).trans he, .refl e⟩
    | restart hload => exact restart_faithful hf hload

theorem run_followed (hJ : JsonOk J) {s t : Ledger} {tr : List (Ledger × LedgerEvent)}
    (hrun : LedgerRun J s tr t) : ∀ {h : History}, Followed J h s → RunMeets J (Orderly J) h tr →
    Followed J (h.after J tr) t := by
  induction hrun with
  | nil s => exact fun hf _ => hf
  | cons hstep _ ih => exact fun hf ho => ih (step_followed hJ hf ho.1 hstep) ho.2

theorem opening_followed {config : LedgerConfig} {file : Option Bytes} {s : Ledger}
    (hload : load J config file = .ok s) : Followed J (.opening s) s := by
  have hb := load_bound hload
  refine ⟨hb, load_clean mirror_follows hload, ?_⟩
  refine ⟨fun k e he => .inr (load_stamped hload k e he), fun e he => ?_, fun p hp => absurd hp List.not_mem_nil⟩
  obtain ⟨k, hk⟩ := Table.mem_values.mp he
  exact .inr ⟨e, by rw [hb.key k e hk, hk], .refl e⟩

/-- **Timestamps are handed out once.** In every orderly run, restarts included, a timestamp that is
allocated lies in its window and differs from that of every recorded payment of its tuple and from
every other one that was allocated for it in this process. -/
theorem allocated_timestamp_fresh (hJ : JsonOk J) {config : LedgerConfig} {file : Option Bytes}
    {s₀ s : Ledger} {tr : List (Ledger × LedgerEvent)} {tuple : PaymentTuple} {now ts : ℕ}
    (hload : load J config file = .ok s₀) (hrun : LedgerRun J s₀ tr s)
    (hord : RunMeets J (Orderly J) (.opening s₀) tr) (hclock : ((History.opening s₀).after J tr).clock ≤ now)
    (hrange : now + s.config.futureAllocationMarginSecs < u64Max)
    (halloc : (s.allocateTimestamp tuple now).2 = some ts) :
    now ≤ ts ∧ ts ≤ now + s.config.futureAllocationMarginSecs ∧
      (∀ e ∈ ((History.opening s₀).after J tr).recorded, e.tuple = tuple → e.timestamp ≠ ts) ∧
      ∀ p ∈ ((History.opening s₀).after J tr).allocated, p.1 = tuple → p.2 ≠ ts := by
  obtain ⟨-, -, hfaithful⟩ := run_followed hJ hrun (opening_followed hload) hord
  obtain ⟨hge, hle, hfresh, -⟩ := allocate_fresh hrange halloc
  refine ⟨hge, hle, fun e he ht => ?_, fun p hp ht => ?_⟩
  · have hrem := hfaithful.remembers he
    rw [ht] at hrem
    exact (hfresh e.timestamp hclock hrem).ne
  · have hrem := hfaithful.allocated p hp
    rw [ht] at hrem
    exact (hfresh p.2 hclock hrem).ne

namespace Sample

/-- Room for one entry, and a compaction after every append. -/
def narrow : LedgerConfig := { LedgerConfig.default with maxEntries := 1, compactionThresholdBytes := 0 }

def otherTuple : PaymentTuple := ⟨['f'], ['h'], 7, 1⟩

/-- Reserve a payment, see it rejected, and reserve another one in its place. -/
def replacing : List LedgerOp :=
  [.allocateTimestamp tuple 5, reserve 'a' 5 't' 5, .updateState ['t'] (.rejected []) 5,
    .allocateTimestamp otherTuple 5, .record (some ['b']) otherTuple 5 ['u'] none 5]

def calls : List LedgerOp → Ledger → Ledger
  | [], s => s
  | op :: ops, s => calls ops (perform toyJson .fine s op).1

def callTrace : List LedgerOp → Ledger → List (Ledger × LedgerEvent)
  | [], _ => []
  | op :: ops, s => (s, .call .fine op) :: callTrace ops (perform toyJson .fine s op).1

theorem calls_run : ∀ (ops : List LedgerOp) (s : Ledger), LedgerRun toyJson s (callTrace ops s) (calls ops s)
  | [], s => .nil s
  | op :: ops, s => .cons (.call s .fine op) (calls_run ops _)

def reopened (s : Ledger) : Ledger := (load toyJson s.config s.file).toOption.getD s

theorem load_reopened {s : Ledger} (h : (load toyJson s.config s.file).isOk = true) :
    load toyJson s.config s.file = .ok (reopened s) := by
  unfold reopened
  cases hload : load toyJson s.config s.file with
  | error e =>
    rw [hload] at h
    cases h
  | ok t => rfl

def replaced : Ledger := calls replacing (opened narrow)
def replacingTrace : List (Ledger × LedgerEvent) :=
  callTrace replacing (opened narrow) ++ [(replaced, .restart)]

theorem replacing_run : LedgerRun toyJson (opened narrow) replacingTrace (reopened replaced) :=
  (calls_run replacing (opened narrow)).trans (.single (.restart (load_reopened (by decide +kernel))))

end Sample

open Sample in
/-- A rejected payment stamped now is pruned for another one, the log is compacted and the ledger
reopened: the timestamp is handed out again. -/
theorem pruned_timestamp_reused :
    ¬ ∀ (config : LedgerConfig) (s₀ s : Ledger) (tr : List (Ledger × LedgerEvent)) (tuple : PaymentTuple)
      (now ts : ℕ), load toyJson config none = .ok s₀ → LedgerRun toyJson s₀ tr s →
      RunMeets toyJson Clocked (.opening s₀) tr → ((History.opening s₀).after toyJson tr).clock ≤ now →
      (s.allocateTimestamp tuple now).2 = some ts →
      ∀ e ∈ ((History.opening s₀).after toyJson tr).recorded, e.tuple = tuple → e.timestamp ≠ ts := by
  intro h
  have hclocked : RunMeets toyJson Clocked (.opening (opened narrow)) replacingTrace := by
    refine ⟨⟨fun _ => rfl, fun _ => ?_⟩, ⟨fun _ => rfl, fun _ => ?_⟩, ⟨fun _ => rfl, fun _ => ?_⟩,
      ⟨fun _ => rfl, fun _ => ?_⟩, ⟨fun _ => rfl, fun _ => ?_⟩, trivial, trivial⟩ <;> decide +kernel
  have hclock : ((History.opening (opened narrow)).after toyJson replacingTrace).clock ≤ 5 := by decide +kernel
  have halloc : ((reopened replaced).allocateTimestamp tuple 5).2 = some 5 := by decide +kernel
  have hrecorded : newEntry (some ['a']) tuple 5 ['t'] none 5 ∈
      ((History.opening (opened narrow)).after toyJson replacingTrace).recorded := by decide +kernel
  exact h narrow _ _ _ tuple 5 5 rfl replacing_run hclocked hclock halloc _ hrecorded rfl rfl

open Sample in
/-- A second timestamp of one tuple differs from the recorded first. -/
theorem second_timestamp_differs :
    let ops : List LedgerOp := [.allocateTimestamp tuple 5, reserve 'a' 5 't' 5]
    let s := calls ops (opened .default)
    (s.allocateTimestamp tuple 5).2 = some 6 ∧
      ∀ e ∈ ((History.opening (opened .default)).after toyJson (callTrace ops (opened .default))).recorded,
        e.tuple = tuple → e.timestamp ≠ 6 := by
  intro ops s
  have hord : RunMeets toyJson (Orderly toyJson) (.opening (opened .default)) (callTrace ops (opened .default)) := by
    refine ⟨⟨⟨fun _ => rfl, fun _ => ?_⟩, ?_, ?_⟩, ⟨⟨fun _ => rfl, fun _ => ?_⟩, ?_, ?_⟩, trivial⟩
    · decide +kernel
    · exact fun k hk => absurd hk List.not_mem_nil
    · intro tuple now hop
      cases hop
      decide +kernel
    · decide +kernel
    · intro k hk
      have hnil : prunedKeys toyJson (perform toyJson .fine (opened .default) (.allocateTimestamp tuple 5)).1
          (reserve 'a' 5 't' 5) = [] := by decide +kernel
      rw [hnil] at hk
      cases hk
    · intro tuple now hop
      cases hop
  have halloc : (s.allocateTimestamp tuple 5).2 = some 6 := by decide +kernel
  exact ⟨halloc, (allocated_timestamp_fresh toyJson_ok load_nothing (calls_run ops _) hord (by decide +kernel)
    (by decide +kernel) halloc).2.2.1⟩

end Alphanumeric.PaymentLedger
