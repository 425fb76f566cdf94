/-
# Logs of the initial release

The initial release wrote its log with bare keys: the idempotency key of a payment that has one, else
the transaction id. `apply` gives such a record its namespaced key. For an `Upsert` it computes the key
anew; for a `Delete` it looks the bare key up among keys that are all namespaced already, finds
nothing, and reads it as a transaction id.

So a log means what it says up to the first `Delete` that is read under another key and meets a live
entry of its transaction there or under its own key: the `Delete` of a payment with an idempotency
key, or of a transaction id that begins like a namespace.

Key definitions: `LegacyRecord`, `bareKey`, `applyAll`, `Normalised`, `readKey`, `ReadAsWritten`.
Key theorems: `normalizeKey_of_bound`, `apply_bare_delete`, `legacy_log_normalised_iff`.
-/
import Alphanumeric.LedgerReplay

namespace Alphanumeric.PaymentLedger

open Ledger

/-- A record of the initial release, apart from the key it is written under. -/
inductive LegacyRecord where
  | upsert (entry : LedgerEntry)
  | state (txId : Text) (state : EntryState) (updatedAt : ℕ)
  | delete (idempotencyKey : Option Text) (txId : Text)

/-- The key of the initial release. -/
def bareKey (idempotencyKey : Option Text) (txId : Text) : Text := idempotencyKey.getD txId

/-- The record as it is written, with keys chosen by `key`. -/
def LegacyRecord.write (key : Option Text → Text → Text) : LegacyRecord → LogRecord
  | upsert entry => .upsert { entry with key := key entry.idempotencyKey entry.txId }
  | state txId st updatedAt => .state txId st updatedAt
  | delete idempotencyKey txId => .delete (key idempotencyKey txId) txId

def bare (log : List LegacyRecord) : List LogRecord := log.map (·.write bareKey)

def namespaced (log : List LegacyRecord) : List LogRecord := log.map (·.write primaryKey)

variable (J : Json)

/-- Replay: every record is applied, the first error stops. -/
def applyAll : List LogRecord → Ledger → Except ErrorKind Ledger
  | [], s => .ok s
  | r :: rs, s =>
    match s.apply J r with
    | .error e => .error e
    | .ok s' => applyAll rs s'

/-- The live entries that a replay from the empty ledger ends with. -/
def replayed (config : LedgerConfig) (rs : List LogRecord) : Except ErrorKind (Table Text LedgerEntry) :=
  (applyAll J rs (blank config none)).map (·.entries)

/-- After every record the log leaves the entries that it would leave with namespaced keys, and a `Delete`
leaves nothing under the key of the payment it deletes. -/
structure Normalised (config : LedgerConfig) (log : List LegacyRecord) : Prop where
  same : ∀ n, replayed J config (bare (log.take n)) = replayed J config (namespaced (log.take n))
  deletes : ∀ before key txId after s, log = before ++ .delete key txId :: after →
    applyAll J (bare before) (blank config none) = .ok s → Live s (primaryKey key txId) txId →
    ∃ s', s.apply J (.delete (bareKey key txId) txId) = .ok s' ∧ ¬ Live s' (primaryKey key txId) txId

/-- The key that `apply` reads a logged key as, when the map has namespaced keys alone. -/
def readKey (logged : Text) : Text :=
  if idempotencyPrefix.isPrefixOf logged ∨ transactionPrefix.isPrefixOf logged then logged
  else transactionPrefix ++ logged

/-- A `Delete` that would be read under another key meets no live entry of its transaction, under that key or under
its own. -/
def ReadAsWritten (s : Ledger) (key : Option Text) (txId : Text) : Prop :=
  readKey (bareKey key txId) = primaryKey key txId ∨
    ¬ Live s (readKey (bareKey key txId)) txId ∧ ¬ Live s (primaryKey key txId) txId

variable {J} {config : LedgerConfig} {s t : Ledger}

/-! ### Replay -/

theorem applyAll_append : ∀ (rs rs' : List LogRecord) (s : Ledger),
    applyAll J (rs ++ rs') s = (applyAll J rs s).bind (applyAll J rs')
  | [], _, _ => rfl
  | r :: rs, rs', s => by
    simp only [List.cons_append, applyAll]
    cases s.apply J r with
    | error e => rfl
    | ok s' => exact applyAll_append rs rs' s'

theorem applyAll_singleton (r : LogRecord) (s : Ledger) : applyAll J [r] s = s.apply J r := by
  unfold applyAll
  cases s.apply J r <;> rfl

theorem applyAll_bound : ∀ {rs : List LogRecord} {s t : Ledger}, Bound s → applyAll J rs s = .ok t → Bound t
  | [], s, t, h, ha => by
    cases ha
    exact h
  | r :: rs, s, t, h, ha => by
    unfold applyAll at ha
    split at ha
    · cases ha
    · rename_i s' hr
      exact applyAll_bound (apply_bound h hr) ha

theorem replayed_eq_ok {rs : List LogRecord} {entries : Table Text LedgerEntry} :
    replayed J config rs = .ok entries ↔ ∃ s, applyAll J rs (blank config none) = .ok s ∧ s.entries = entries := by
  unfold replayed
  cases applyAll J rs (blank config none) with
  | error e => simp [Except.map]
  | ok s => simp [Except.map]

/-! ### Deletes -/

/-- Every key of the map is namespaced, so a bare key is never found in it. -/
theorem normalizeKey_of_bound (h : Bound s) (logged : Text) : s.normalizeKey logged = readKey logged := by
  unfold normalizeKey readKey
  split_ifs with hprefixed hfound
  · rfl
  · obtain ⟨key, hkey⟩ := Option.isSome_iff_exists.mp hfound
    obtain ⟨e, he, -⟩ := Option.bind_eq_some_iff.mp hkey
    have hown := normalizeKey_primaryKey s e.idempotencyKey e.txId
    rw [← h.normal logged e he, normalizeKey, if_neg hprefixed, if_pos hfound] at hown
    have hlength := congrArg List.length hown
    rw [List.length_append, idempotencyPrefix] at hlength
    simp only [List.length_cons, List.length_nil] at hlength
    omega
  · rfl

/-- What a `Delete` leaves. -/
theorem apply_delete_lookup (h : Bound s) (logged txId k : Text) :
    ∃ s', s.apply J (.delete logged txId) = .ok s' ∧
      (Live s (readKey logged) txId → s'.entries.lookup k = if k = readKey logged then none else s.entries.lookup k) ∧
      (¬ Live s (readKey logged) txId → s' = s) := by
  have hlive : (s.entries.lookup (readKey logged)).any (·.txId = txId) = true ↔ Live s (readKey logged) txId := by
    simp [Live, Option.any_eq_true]
  rw [apply, normalizeKey_of_bound h]
  by_cases hl : Live s (readKey logged) txId
  · exact ⟨_, if_pos (hlive.mpr hl), fun _ => lookup_removeEntry s _ k, fun hnot => absurd hl hnot⟩
  · exact ⟨s, if_neg fun hfound => hl (hlive.mp hfound), fun hl' => absurd hl' hl, fun _ => rfl⟩

theorem readKey_primaryKey (key : Option Text) (txId : Text) : readKey (primaryKey key txId) = primaryKey key txId := by
  rw [← normalizeKey_of_bound (blank_bound LedgerConfig.default none), normalizeKey_primaryKey]

/-- A record that is read as written acts as its namespaced form. -/
theorem apply_write (h : Bound s) (r : LegacyRecord)
    (hread : ∀ key txId, r = .delete key txId → ReadAsWritten s key txId) :
    s.apply J (r.write bareKey) = s.apply J (r.write primaryKey) := by
  cases r with
  | upsert entry => rfl
  | state txId st updatedAt => rfl
  | delete key txId =>
    simp only [LegacyRecord.write]
    rcases hread key txId rfl with hsame | ⟨hbare, hown⟩
    · have hkey : s.normalizeKey (bareKey key txId) = s.normalizeKey (primaryKey key txId) := by
        rw [normalizeKey_of_bound h, normalizeKey_primaryKey, hsame]
      rw [apply, hkey]
      rfl
    · obtain ⟨s₁, h₁, -, hstay₁⟩ := apply_delete_lookup (J := J) h (bareKey key txId) txId []
      obtain ⟨s₂, h₂, -, hstay₂⟩ := apply_delete_lookup (J := J) h (primaryKey key txId) txId []
      rw [readKey_primaryKey] at hstay₂
      rw [h₁, h₂, hstay₁ hbare, hstay₂ hown]

/-- One that is not leaves other entries than its namespaced form. -/
theorem apply_write_differs (hs : Bound s) (ht : Bound t) (hsame : s.entries = t.entries) {key : Option Text}
    {txId : Text} (hread : ¬ ReadAsWritten t key txId) :
    (s.apply J (.delete (bareKey key txId) txId)).map (·.entries) ≠
      (t.apply J (.delete (primaryKey key txId) txId)).map (·.entries) := by
  have hlive : ∀ k, Live s k txId ↔ Live t k txId := by
    intro k
    rw [Live, Live, hsame]
  rw [ReadAsWritten, not_or, not_and_or, not_not, not_not] at hread
  obtain ⟨hne, hmet⟩ := hread
  intro heq
  rcases hmet with hbare | hown
  · -- the bare form removes an entry that the namespaced form keeps
    set k := readKey (bareKey key txId) with hk
    obtain ⟨s₁, h₁, hgone, -⟩ := apply_delete_lookup (J := J) hs (bareKey key txId) txId k
    obtain ⟨t₁, h₂, hother, hstay⟩ := apply_delete_lookup (J := J) ht (primaryKey key txId) txId k
    rw [readKey_primaryKey] at hother hstay
    rw [h₁, h₂] at heq
    have hentries : s₁.entries = t₁.entries := Except.ok.inj heq
    have hleft := hgone ((hlive k).mpr hbare)
    obtain ⟨e, he, -⟩ := hbare
    rw [if_pos rfl, hentries] at hleft
    have hright : t₁.entries.lookup k = t.entries.lookup k := by
      by_cases hl : Live t (primaryKey key txId) txId
      · rw [hother hl, if_neg hne]
      · rw [hstay hl]
    rw [hright, he] at hleft
    cases hleft
  · set k := primaryKey key txId with hk
    obtain ⟨s₁, h₁, hother, hstay⟩ := apply_delete_lookup (J := J) hs (bareKey key txId) txId k
    obtain ⟨t₁, h₂, hgone, -⟩ := apply_delete_lookup (J := J) ht k txId k
    rw [readKey_primaryKey] at hgone
    rw [h₁, h₂] at heq
    have hentries : s₁.entries = t₁.entries := Except.ok.inj heq
    have hright := hgone hown
    rw [if_pos rfl, ← hentries] at hright
    have hleft : s₁.entries.lookup k = s.entries.lookup k := by
      by_cases hl : Live s (readKey (bareKey key txId)) txId
      · rw [hother hl, if_neg (Ne.symm hne)]
      · rw [hstay hl]
    obtain ⟨e, he, -⟩ := (hlive k).mpr hown
    rw [hleft, he] at hright
    cases hright

/-! ### Whole logs -/

/-- The replays of a log agree as long as its records are read as written. -/
theorem applyAll_write : ∀ (log : List LegacyRecord) {s : Ledger}, Bound s →
    (∀ before key txId after s', log = before ++ .delete key txId :: after →
      applyAll J (namespaced before) s = .ok s' → ReadAsWritten s' key txId) →
    applyAll J (bare log) s = applyAll J (namespaced log) s
  | [], _, _, _ => rfl
  | r :: log, s, h, hread => by
    have hfirst : s.apply J (r.write bareKey) = s.apply J (r.write primaryKey) :=
      apply_write h r fun key txId hr => hread [] key txId log s (by rw [hr, List.nil_append]) rfl
    simp only [bare, namespaced, List.map_cons, applyAll, hfirst]
    cases happly : s.apply J (r.write primaryKey) with
    | error e => rfl
    | ok s' =>
      refine applyAll_write log (apply_bound h happly) fun before key txId after u hlog hu => ?_
      refine hread (r :: before) key txId after u (by rw [hlog, List.cons_append]) ?_
      simp only [namespaced, List.map_cons, applyAll, happly]
      exact hu

/-- **A legacy log means what it says exactly up to a misread `Delete`.** Replayed with its bare keys, a log leaves
after every record the entries it would leave with namespaced keys, and its `Delete`s remove their entries, if and
only if each `Delete` is read as written in the ledger before it. -/
theorem legacy_log_normalised_iff (J : Json) (config : LedgerConfig) (log : List LegacyRecord) :
    Normalised J config log ↔
      ∀ before key txId after s, log = before ++ .delete key txId :: after →
        applyAll J (namespaced before) (blank config none) = .ok s → ReadAsWritten s key txId := by
  have hblank := blank_bound config none
  constructor
  · intro h before key txId after t hlog ht
    by_contra hread
    have hbefore : log.take before.length = before := by rw [hlog, List.take_left]
    have hthrough : log.take (before.length + 1) = before ++ [.delete key txId] := by
      rw [hlog, List.take_append, List.take_of_length_le (by omega), Nat.add_sub_cancel_left, List.take_succ_cons,
        List.take_zero]
    have hsame := h.same before.length
    rw [hbefore, replayed_eq_ok.mpr ⟨t, ht, rfl⟩] at hsame
    obtain ⟨s, hs, hentries⟩ := replayed_eq_ok.mp hsame
    have hnext := h.same (before.length + 1)
    simp only [hthrough, replayed, bare, namespaced, List.map_append] at hnext
    rw [applyAll_append, applyAll_append] at hnext
    unfold bare at hs
    unfold namespaced at ht
    rw [hs, ht] at hnext
    refine apply_write_differs (J := J) (applyAll_bound hblank hs) (applyAll_bound hblank ht) hentries hread ?_
    simpa only [List.map_cons, List.map_nil, Except.bind, applyAll_singleton, LegacyRecord.write] using hnext
  · intro hread
    have hagree : ∀ before after, log = before ++ after →
        applyAll J (bare before) (blank config none) = applyAll J (namespaced before) (blank config none) := by
      intro before after hlog
      refine applyAll_write before hblank fun front key txId rest s hfront hs => ?_
      exact hread front key txId (rest ++ after) s (by rw [hlog, hfront]; simp) hs
    refine ⟨fun n => ?_, fun before key txId after s hlog hs hlive => ?_⟩
    · rw [replayed, replayed, hagree _ _ (List.take_append_drop n log).symm]
    · rw [hagree before _ hlog] at hs
      have hbound := applyAll_bound hblank hs
      rcases hread before key txId after s hlog hs with hsame | ⟨-, hgone⟩
      · obtain ⟨s', hs', hremoved, -⟩ :=
          apply_delete_lookup (J := J) hbound (bareKey key txId) txId (primaryKey key txId)
        rw [hsame] at hremoved
        refine ⟨s', hs', ?_⟩
        rintro ⟨e, he, -⟩
        rw [hremoved hlive, if_pos rfl] at he
        cases he
      · exact absurd hlive hgone

namespace Sample

/-- A payment with an idempotency key, recorded and then deleted. -/
def releasedLog : List LegacyRecord :=
  [.upsert (newEntry (some ['a']) tuple 5 ['t'] none 5), .delete (some ['a']) ['t']]

end Sample

open Sample in
/-- The deleted payment is still there. -/
theorem released_payment_returns : ¬ Normalised toyJson LedgerConfig.default releasedLog := by
  intro h
  have hfirst : ∃ s, applyAll toyJson (bare (releasedLog.take 1)) (blank LedgerConfig.default none) = .ok s ∧
      Live s (primaryKey (some ['a']) ['t']) ['t'] := ⟨_, rfl, _, rfl, rfl⟩
  obtain ⟨s, hs, hlive⟩ := hfirst
  obtain ⟨s', hs', hgone⟩ := h.deletes (releasedLog.take 1) (some ['a']) ['t'] [] s rfl hs hlive
  obtain rfl : s = _ := (Except.ok.inj hs).symm
  obtain rfl : s' = _ := (Except.ok.inj hs').symm
  exact hgone ⟨_, rfl, rfl⟩

end Alphanumeric.PaymentLedger
