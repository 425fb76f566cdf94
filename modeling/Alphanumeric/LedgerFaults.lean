/-
# Appends that fail

An append that fails has put some of its line into the file, and nothing takes it out
again. The next append writes behind it: behind part of a record its own record is
unreadable, and the file no longer opens. A whole record that no one was told about
stays in the log too: a `Delete` has taken an entry the operator still counts on, and
an `Upsert` holds on to a key or a transaction that memory gives to someone else.

Everything else is recovered. As long as an operation appends only where a line
starts (`Sheltered.wholeLines`), a failed `Delete` is cut short, and a new entry
fits what the log already says, the file opens with every entry in memory
(`failed_appends_recover`).

Key definitions: `Covers`, `appends`, `Sheltered`, `Recovers`.
Key theorems: `covers_follows`, `perform_quiet`, `failed_appends_recover`.
-/
import Alphanumeric.LedgerReplay

namespace Alphanumeric.PaymentLedger

open Ledger

variable {J : Json} {T : ℕ}

/-! ### A log that says more than memory -/

theorem SamePayment.symm {e e' : LedgerEntry} (h : SamePayment e e') : SamePayment e' e := by
  unfold SamePayment at h ⊢
  rw [h]

/-- Every payment in memory is in the rebuilt ledger. -/
def Covers (r s : Ledger) : Prop :=
  ∀ k e, s.entries.lookup k = some e → ∃ e', r.entries.lookup k = some e' ∧ SamePayment e' e

theorem covers_of_lookups {r s : Ledger} (h : SameLookups r s) : Covers r s := by
  intro k e he
  exact ⟨e, (h.entries k).trans he, .refl e⟩

theorem Covers.shrinks {r s t : Ledger} (h : Covers r s) (hsh : Shrinks s t) : Covers r t := by
  intro k e'' he''
  obtain ⟨e, he, hsame⟩ := hsh k e'' he''
  obtain ⟨e', he', hsame'⟩ := h k e he
  exact ⟨e', he', hsame'.trans hsame⟩

theorem covers_delete {r s : Ledger} {key : Text} {e : LedgerEntry} (hs : Bound s) (h : Covers r s)
    (he : s.entries.lookup key = some e) :
    ∃ r', r.apply J (.delete key e.txId) = .ok r' ∧ Covers r' (s.removeEntry J key) := by
  obtain ⟨e', he', hsame⟩ := h key e he
  refine ⟨r.removeEntry J key, apply_delete hs he he' hsame, ?_⟩
  intro k e₁ he₁
  rw [lookup_removeEntry] at he₁
  rw [lookup_removeEntry]
  split_ifs at he₁ ⊢
  exact h k e₁ he₁

/-- A state that is in the log, acknowledged or not, is the state of a known payment. -/
theorem covers_setState {r s : Ledger} (h : Covers r s) (st : EntryState) (updatedAt : ℕ) (key : Text) :
    Covers (r.setState st updatedAt key) s := by
  intro k e he
  obtain ⟨e', he', hsame⟩ := h k e he
  rw [lookup_setState]
  split_ifs with hk
  · refine ⟨{ e' with state := st, updatedAt }, by rw [← hk, he', Option.map_some], ?_⟩
    have hset : SamePayment { e' with state := st, updatedAt } e' := rfl
    exact hset.trans hsame
  · exact ⟨e', he', hsame⟩

theorem covers_state {r s : Ledger} {key txId : Text} (st : EntryState) (updatedAt : ℕ) (hr : Bound r)
    (hs : Bound s) (h : Covers r s) (hkey : s.txIndex.lookup txId = some key) :
    ∃ r', r.apply J (.state txId st updatedAt) = .ok r' ∧ Covers r' (s.setState st updatedAt key) ∧
      Covers r' s := by
  obtain ⟨e, he, htx⟩ := (hs.index key txId).mpr hkey
  obtain ⟨e', he', hsame⟩ := h key e he
  have hindex : r.txIndex.lookup txId = some key :=
    (hr.index key txId).mp ⟨e', he', hsame.txId.symm.trans htx⟩
  have hcovers := covers_setState h st updatedAt key
  exact ⟨_, apply_state st updatedAt hindex he', hcovers.shrinks (shrinks_setState st updatedAt s key), hcovers⟩

theorem covers_upsert {r s : Ledger} {e : LedgerEntry} (h : Covers r s) (hfree : Free e s) :
    Covers (r.indexEntry J e) (s.indexEntry J e) ∧ Covers (r.indexEntry J e) s := by
  have hlook : ∀ k, (r.indexEntry J e).entries.lookup k = if k = e.key then some e else r.entries.lookup k :=
    fun k => Table.lookup_insert_ite _ _ _ _
  have hlook' : ∀ k, (s.indexEntry J e).entries.lookup k = if k = e.key then some e else s.entries.lookup k :=
    fun k => Table.lookup_insert_ite _ _ _ _
  constructor
  · intro k e₁ he₁
    rw [hlook'] at he₁
    rw [hlook]
    split_ifs at he₁ ⊢
    · exact ⟨e₁, he₁, .refl e₁⟩
    · exact h k e₁ he₁
  · intro k e₁ he₁
    have hk : k ≠ e.key := by
      intro hk
      rw [hk, hfree.key] at he₁
      cases he₁
    rw [hlook, if_neg hk]
    exact h k e₁ he₁

theorem covers_follows {P : Prop} : Follows J T P Covers where
  frame h hlook _ := by
    intro k e he
    rw [hlook.entries] at he
    exact h k e he
  snapshot _ hlook := covers_of_lookups hlook
  delete _ hs h he := covers_delete hs h he
  opened := covers_of_lookups
  refresh _ h := h.shrinks (shrinks_refreshExpiry _ _)
  state st updatedAt hr hs h hkey := by
    obtain ⟨r', ha, hset, halone⟩ := covers_state (J := J) st updatedAt hr hs h hkey
    exact ⟨r', ha, hset, fun _ => halone⟩
  upsert h hfree hfits hkey := by
    obtain ⟨hindex, halone⟩ := covers_upsert (J := J) h hfree
    exact ⟨_, apply_upsert hkey hfits, hindex, fun _ => halone⟩

/-! ### Operations that write nothing -/

/-- Whether `record` gets as far as a line of the log, for a key and a transaction that are free:
the entry must fit at all, and there is something to prune or room without it. -/
def Ledger.reachesLog (J : Json) (s : Ledger) (entry : LedgerEntry) (now : ℕ) : Bool :=
  let need := encodedUpsertLen J entry
  decide (need ≤ s.config.maxLiveBytes) &&
    (decide (s.pruneKeys J now (s.config.maxEntries - 1) (s.config.maxLiveBytes - need) ≠ []) ||
      (decide (s.entries.values.length < s.config.maxEntries) &&
        decide (s.liveBytes ≤ s.config.maxLiveBytes - need)))

def Ledger.releases (s : Ledger) (key txId : Text) : Bool :=
  (s.entries.lookup key).any fun e => decide (e.txId = txId ∧ e.state = .reserved)

/-- Whether the operation appends to the log. -/
def appends (J : Json) (s : Ledger) : LedgerOp → Bool
  | .record key tuple timestamp txId signedTx now =>
    let entry := newEntry key tuple timestamp txId signedTx now
    (s.entries.lookup entry.key).isNone && !(s.txIndex.lookup txId).any (· ≠ entry.key) &&
      ((s.refreshExpiry now).recalculateLiveBytes J).reachesLog J entry now
  | .releaseReservation key txId => s.releases (primaryKey (some key) txId) txId
  | .releaseLocalReservation txId => s.releases (primaryKey none txId) txId
  | .updateState txId _ _ => (s.txIndex.lookup txId).isSome
  | .prune now =>
    decide (((s.refreshExpiry now).recalculateLiveBytes J).pruneKeys J now s.config.maxEntries
      s.config.maxLiveBytes ≠ [])
  | _ => false

/-- The file stays as it is, and memory at most looks at the clock. -/
structure Quiet (s t : Ledger) : Prop where
  file : t.file = s.file
  config : t.config = s.config
  shrinks : Shrinks s t

theorem Quiet.refl (s : Ledger) : Quiet s s := ⟨rfl, rfl, .refl s⟩

theorem quiet_refresh (s : Ledger) (now : ℕ) : Quiet s (s.refreshExpiry now) :=
  ⟨rfl, rfl, shrinks_refreshExpiry now s⟩

theorem quiet_prepared (s : Ledger) (now : ℕ) : Quiet s ((s.refreshExpiry now).recalculateLiveBytes J) :=
  ⟨rfl, rfl, shrinks_prepared now s⟩

theorem makeRoom_quiet (io : Io) {s : Ledger} {entry : LedgerEntry} {now : ℕ}
    (h : s.reachesLog J entry now = false) :
    (s.makeRoom J io entry now).1 = s ∧ ∃ e, (s.makeRoom J io entry now).2 = .error e := by
  simp only [Ledger.reachesLog, Bool.and_eq_false_iff, Bool.or_eq_false_iff, decide_eq_false_iff_not, not_le,
    not_lt, not_not] at h
  unfold makeRoom
  dsimp only
  rcases h with hbig | ⟨hnil, hfull⟩
  · rw [if_pos hbig]
    exact ⟨rfl, _, rfl⟩
  · split_ifs with hbig
    · exact ⟨rfl, _, rfl⟩
    · simp only [pruneDurable, hnil, if_true]
      rcases hfull with hfull | hfull
      · rw [if_pos hfull]
        exact ⟨rfl, _, rfl⟩
      · rw [if_pos hfull]
        split_ifs <;> exact ⟨rfl, _, rfl⟩

theorem record_quiet {io : Io} {s : Ledger} {key : Option Text} {tuple : PaymentTuple} {timestamp : ℕ}
    {txId : Text} {signedTx : Option Text} {now : ℕ}
    (h : appends J s (.record key tuple timestamp txId signedTx now) = false) :
    Quiet s (s.record J io key tuple timestamp txId signedTx now).1 := by
  unfold record
  dsimp only
  cases hkey : s.entries.lookup (primaryKey key txId) with
  | some existing =>
    dsimp only
    split_ifs <;> exact .refl s
  | none =>
    dsimp only
    split_ifs with hown
    · exact .refl s
    · have hroom : ((s.refreshExpiry now).recalculateLiveBytes J).reachesLog J
          (newEntry key tuple timestamp txId signedTx now) now = false := by
        have hkey' : s.entries.lookup (newEntry key tuple timestamp txId signedTx now).key = none := hkey
        have hown' : (s.txIndex.lookup txId).any
            (· ≠ (newEntry key tuple timestamp txId signedTx now).key) = false := by
          rw [Bool.eq_false_iff]
          exact hown
        simpa only [appends, hkey', hown', Option.isNone_none, Bool.not_false, Bool.true_and] using h
      obtain ⟨hsame, e, he⟩ := makeRoom_quiet io hroom
      rcases hres : ((s.refreshExpiry now).recalculateLiveBytes J).makeRoom J io
        (newEntry key tuple timestamp txId signedTx now) now with ⟨s', q⟩
      rw [hres] at hsame he
      cases he
      cases hsame
      exact quiet_prepared s now

theorem releaseKey_quiet {io : Io} {s : Ledger} {key txId : Text} (h : s.releases key txId = false) :
    (s.releaseKey J io key txId).1 = s := by
  unfold releaseKey
  cases hkey : s.entries.lookup key with
  | none => rfl
  | some entry =>
    dsimp only
    rw [if_pos]
    simp only [Ledger.releases, hkey, Option.any_some, decide_eq_false_iff_not, not_and_or] at h
    exact h

/-- An operation that appends nothing leaves the file alone. -/
theorem perform_quiet {io : Io} {s : Ledger} {op : LedgerOp} (h : appends J s op = false) :
    Quiet s (perform J io s op).1 := by
  cases op with
  | allocateTimestamp tuple now =>
    obtain ⟨hfile, hentries, -, hconf⟩ := allocateTimestamp_frame s tuple now
    exact ⟨hfile, hconf, .of_eq hentries⟩
  | checkSubmission key txId now => exact quiet_refresh s now
  | record key tuple timestamp txId signedTx now => exact record_quiet h
  | releaseReservation key txId =>
    have hsame : (s.releaseKey J io (primaryKey (some key) txId) txId).1 = s := releaseKey_quiet h
    change Quiet s (s.releaseKey J io (primaryKey (some key) txId) txId).1
    rw [hsame]
    exact .refl s
  | releaseLocalReservation txId =>
    have hsame : (s.releaseKey J io (primaryKey none txId) txId).1 = s := releaseKey_quiet h
    change Quiet s (s.releaseKey J io (primaryKey none txId) txId).1
    rw [hsame]
    exact .refl s
  | updateState txId state now =>
    have hnone : s.txIndex.lookup txId = none := by simpa [appends] using h
    change Quiet s (s.updateState J io txId state now).1
    simp only [updateState, hnone]
    exact .refl s
  | findByKey key now => exact quiet_refresh s now
  | findByTxId txId now => exact quiet_refresh s now
  | prune now =>
    have hnil : ((s.refreshExpiry now).recalculateLiveBytes J).pruneKeys J now s.config.maxEntries
        s.config.maxLiveBytes = [] := by simpa [appends] using h
    change Quiet s (s.prune J io now).1
    simp only [prune, pruneDurable, hnil, if_true]
    exact quiet_prepared s now

/-! ### Runs -/

/-- What keeps an accident from spreading: nothing is appended behind part of a line, a failed
`Delete` stops short of a whole record, and the log does not bind a new entry's key or
transaction to something else. -/
structure Sheltered (J : Json) (s : Ledger) (io : Io) (op : LedgerOp) : Prop where
  wholeLines : appends J s op = true → (splitLines (s.file.getD [])).2 = []
  shortDeletes : ShortDeletes J io
  fits : appends J s op = true → ∀ e ∈ op.entry, ∀ t, load J s.config s.file = .ok t → Fits e t

def ShelteredStep (J : Json) (s : Ledger) : LedgerEvent → Prop
  | .call io op => Sheltered J s io op
  | .rehash _ => True
  | .restart => True

/-- The file opens, with every payment that memory holds. -/
def Recovers (J : Json) (s : Ledger) : Prop :=
  ∃ t, load J s.config s.file = .ok t ∧
    ∀ k e, s.entries.lookup k = some e → ∃ e', t.entries.lookup k = some e' ∧ SamePayment e' e

theorem Ready.recovers (hJ : JsonOk J) {s : Ledger} (h : Ready J Covers s) : Recovers J s := by
  obtain ⟨tail, r, hrep, hcovers, htail⟩ := h
  have hopen : ∀ {r t}, SameMaps r t → Covers r s → Covers t s := by
    intro r t hsame hr k e he
    rw [hsame.entries]
    exact hr k e he
  rcases htail with htail | htail | ⟨q, r', rfl, ha, hcovers'⟩
  · obtain ⟨t, ht, hsame⟩ := hrep.load (.inl htail)
    exact ⟨t, ht, hopen hsame hcovers⟩
  · obtain ⟨t, ht, hsame⟩ := hrep.load (.inr htail)
    exact ⟨t, ht, hopen hsame hcovers⟩
  · obtain ⟨t, ht, hsame⟩ := hrep.load_repaired hJ ha
    exact ⟨t, ht, hopen hsame hcovers'⟩

theorem Ready.quiet {s t : Ledger} (h : Ready J Covers s) (hq : Quiet s t) : Ready J Covers t := by
  obtain ⟨tail, r, hrep, hcovers, htail⟩ := h
  refine ⟨tail, r, hrep.of_file hq.file hq.config, hcovers.shrinks hq.shrinks, ?_⟩
  rcases htail with htail | htail | ⟨q, r', hq', ha, hcovers'⟩
  · exact .inl htail
  · exact .inr (.inl htail)
  · exact .inr (.inr ⟨q, r', hq', ha, hcovers'.shrinks hq.shrinks⟩)

theorem Ready.clean {s : Ledger} (h : Ready J Covers s) (hwhole : (splitLines (s.file.getD [])).2 = []) :
    Clean J Covers s := by
  obtain ⟨tail, r, ⟨ls, hsplit, happ⟩, hcovers, -⟩ := h
  have htail : tail = [] := by rwa [hsplit] at hwhole
  subst htail
  exact ⟨r, ⟨ls, hsplit, happ⟩, hcovers⟩

theorem perform_ready (hJ : JsonOk J) {io : Io} {s : Ledger} {op : LedgerOp} (hb : Bound s)
    (h : Ready J Covers s) (hsh : Sheltered J s io op) : Ready J Covers (perform J io s op).1 := by
  cases happ : appends J s op with
  | false => exact h.quiet (perform_quiet happ)
  | true =>
    have hclean := h.clean (hsh.wholeLines happ)
    have hkept : Kept J io True Covers (perform J io s op) := by
      refine perform_kept (T := op.now) hJ covers_follows (fun _ => hsh.shortDeletes) hb hclean op le_rfl ?_
      intro e he r hrep _ _
      obtain ⟨t, ht, hsame⟩ := hrep.load (.inl rfl)
      have hfits := hsh.fits happ e he t ht
      refine hfits.of_sub ?_ ?_
      · intro k e' he'
        rw [hsame.entries]
        exact he'
      · intro x k hk
        rw [hsame.txIndex]
        exact hk
    exact hkept.2 trivial

theorem step_ready (hJ : JsonOk J) {s t : Ledger} {ev : LedgerEvent} (h : Bound s ∧ Ready J Covers s)
    (hsh : ShelteredStep J s ev) (hstep : LedgerStep J s ev t) : Bound t ∧ Ready J Covers t := by
  refine ⟨step_bound h.1 hstep, ?_⟩
  cases hstep with
  | call io op => exact perform_ready hJ h.1 h.2 hsh
  | rehash hperm =>
    refine h.2.quiet ⟨rfl, rfl, ?_⟩
    intro k e he
    exact ⟨e, ((rehash_lookups hperm).entries k).symm.trans he, .refl e⟩
  | restart hload => exact (load_clean (T := 0) (P := True) covers_follows hload).ready

/-- An acknowledged `record` has its entry in memory. -/
theorem record_in_memory {io : Io} {s : Ledger} (hb : Bound s) {key : Option Text} {tuple : PaymentTuple}
    {timestamp : ℕ} {txId : Text} {signedTx : Option Text} {now : ℕ} {e : LedgerEntry}
    (h : (s.record J io key tuple timestamp txId signedTx now).2 = .ok e) :
    (s.record J io key tuple timestamp txId signedTx now).1.entries.lookup e.key = some e := by
  unfold record at h ⊢
  dsimp only at h ⊢
  cases hkey : s.entries.lookup (primaryKey key txId) with
  | some existing =>
    rw [hkey] at h
    dsimp only at h ⊢
    split_ifs at h ⊢
    cases h
    rw [hb.key _ _ hkey]
    exact hkey
  | none =>
    rw [hkey] at h
    dsimp only at h ⊢
    split_ifs at h ⊢
    rcases hres : ((s.refreshExpiry now).recalculateLiveBytes J).makeRoom J io
      (newEntry key tuple timestamp txId signedTx now) now with ⟨s', q⟩
    rw [hres] at h
    cases q with
    | error err => cases h
    | ok u =>
      dsimp only [commitEntry] at h ⊢
      rcases happ : s'.append J io (.upsert (newEntry key tuple timestamp txId signedTx now)) with ⟨s'', q⟩
      rw [happ] at h
      cases q with
      | error err => cases h
      | ok u =>
        cases h
        dsimp only
        rw [(maybeCompact_same io.compact _).entries, indexEntry, Table.lookup_insert_ite, if_pos rfl]

/-- **Failed appends are recovered from** in every run whose operations are sheltered: whatever
appends failed, the file opens with every payment in memory, and what was acknowledged is in
memory. -/
theorem failed_appends_recover (hJ : JsonOk J) {config : LedgerConfig} {file : Option Bytes} {s₀ s : Ledger}
    {tr : List (Ledger × LedgerEvent)} (hload : load J config file = .ok s₀) (hrun : LedgerRun J s₀ tr s)
    (hsh : ∀ p ∈ tr, ShelteredStep J p.1 p.2) :
    Recovers J s ∧ ∀ io key tuple timestamp txId signedTx now e,
      (s.record J io key tuple timestamp txId signedTx now).2 = .ok e →
      (s.record J io key tuple timestamp txId signedTx now).1.entries.lookup e.key = some e := by
  have hready : Bound s ∧ Ready J Covers s :=
    Trace.Run.invariant (I := fun s => Bound s ∧ Ready J Covers s) (C := ShelteredStep J)
      (fun _ _ _ h hC hstep => step_ready hJ h hC hstep) hrun
      ⟨load_bound hload, (load_clean (T := 0) (P := True) covers_follows hload).ready⟩ hsh
  exact ⟨hready.2.recovers hJ, fun _ _ _ _ _ _ _ _ h => record_in_memory hready.1 h⟩

namespace Sample

/-- Every append fails after one byte. -/
def cutShort : Io := ⟨fun _ => .failed 1, .replaced, .replaced⟩

theorem cutShort_deletes : ShortDeletes toyJson cutShort := by
  intro key txId n hn
  cases hn
  simp [toyJson]

def torn : Ledger := (perform toyJson cutShort (opened .default) (reserve 'a' 5 't' 5)).1
def behindTorn : Ledger := (perform toyJson .fine torn (reserve 'b' 5 'u' 5)).1

theorem torn_run : LedgerRun toyJson (opened .default)
    [(opened .default, .call cutShort (reserve 'a' 5 't' 5))] torn :=
  .single (.call _ cutShort (reserve 'a' 5 't' 5))

theorem behindTorn_run : LedgerRun toyJson (opened .default)
    [(opened .default, .call cutShort (reserve 'a' 5 't' 5)), (torn, .call .fine (reserve 'b' 5 'u' 5))]
    behindTorn :=
  torn_run.trans (.single (.call _ .fine (reserve 'b' 5 'u' 5)))

end Sample

open Sample in
/-- The log opens behind a reservation that was cut short. -/
theorem torn_reservation_recovers : torn.file ≠ some [] ∧ Recovers toyJson torn := by
  refine ⟨by decide +kernel, (failed_appends_recover toyJson_ok load_nothing torn_run ?_).1⟩
  intro p hp
  rw [List.mem_singleton.mp hp]
  refine ⟨fun _ => rfl, cutShort_deletes, ?_⟩
  intro _ e _ t ht
  cases ht
  constructor
  · intro e' he'
    cases he'
  · intro k hk
    cases hk

open Sample in
/-- A reservation is cut short, the next one is acknowledged, and the file no longer opens. -/
theorem append_behind_torn_poisons :
    (perform toyJson .fine torn (reserve 'b' 5 'u' 5)).2.isOk = true ∧
      ¬ ∀ (s₀ s : Ledger) (tr : List (Ledger × LedgerEvent)), load toyJson .default none = .ok s₀ →
        LedgerRun toyJson s₀ tr s → Recovers toyJson s := by
  refine ⟨by decide +kernel, fun h => ?_⟩
  obtain ⟨t, ht, -⟩ := h _ _ _ load_nothing behindTorn_run
  have hfail : (load toyJson behindTorn.config behindTorn.file).isOk = false := by decide +kernel
  rw [ht] at hfail
  cases hfail

end Alphanumeric.PaymentLedger
