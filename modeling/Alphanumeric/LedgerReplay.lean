/-
# The log follows memory

Every operation writes to the log before it changes memory, so what the log
rebuilds follows memory. How closely is a parameter: a relation `R` between the
rebuilt ledger and memory that a snapshot establishes and that each kind of record
carries over (`Follows`). Whatever the relation, an acknowledged operation leaves a
log of whole lines (`Clean`), and one whose append failed leaves a log that still
opens (`Ready`), as far as the failure may be accepted (`P`).

The first relation is `Mirror`: the rebuilt ledger is memory, except that the clock
may have expired an open entry in memory alone. Hence a ledger reopened after
acknowledged operations is the ledger that was closed (`reopen_mirrors`).

Key definitions: `Prunes`, `Follows`, `Clean`, `Ready`, `Mirror`.
Key theorems: `perform_kept`, `mirror_follows`, `reopen_mirrors`.
-/
import Alphanumeric.LedgerLog

namespace Alphanumeric.PaymentLedger

open Ledger

variable {J : Json} {R R' : Ledger → Ledger → Prop} {P : Prop} {T : ℕ}

/-! ### Relations between log and memory -/

/-- What pruning asks of a relation: it looks up entries only, a snapshot keeps it, and a
`Delete` carries it over. -/
structure Prunes (J : Json) (R : Ledger → Ledger → Prop) : Prop where
  frame : ∀ {r s s' : Ledger}, R r s → SameLookups s' s → s'.config = s.config → R r s'
  snapshot : ∀ {r r' s : Ledger}, R r s → SameLookups r' s → R r' s
  delete : ∀ {r s : Ledger} {key : Text} {e : LedgerEntry}, Bound r → Bound s → R r s →
    s.entries.lookup key = some e →
    ∃ r', r.apply J (.delete key e.txId) = .ok r' ∧ R r' (s.removeEntry J key)

/-- Memory binds neither the entry's key nor its transaction. -/
structure Free (e : LedgerEntry) (s : Ledger) : Prop where
  key : s.entries.lookup e.key = none
  txId : s.txIndex.lookup e.txId = none

/-- All operations: also the clock up to `T`, a `State` and an `Upsert`. Under `P` the relation
puts up with either record in the log alone. -/
structure Follows (J : Json) (T : ℕ) (P : Prop) (R : Ledger → Ledger → Prop) : Prop extends Prunes J R where
  opened : ∀ {r s : Ledger}, SameLookups r s → R r s
  refresh : ∀ {r s : Ledger} {now : ℕ}, now ≤ T → R r s → R r (s.refreshExpiry now)
  state : ∀ {r s : Ledger} {key txId : Text} (st : EntryState) (updatedAt : ℕ), Bound r → Bound s → R r s →
    s.txIndex.lookup txId = some key →
    ∃ r', r.apply J (.state txId st updatedAt) = .ok r' ∧ R r' (s.setState st updatedAt key) ∧ (P → R r' s)
  upsert : ∀ {r s : Ledger} {e : LedgerEntry}, R r s → Free e s → Fits e r →
    e.key = primaryKey e.idempotencyKey e.txId →
    ∃ r', r.apply J (.upsert e) = .ok r' ∧ R r' (s.indexEntry J e) ∧ (P → R r' s)

/-- Whole lines that rebuild memory up to `R`. -/
def Clean (J : Json) (R : Ledger → Ledger → Prop) (s : Ledger) : Prop := ∃ r, Replays J s [] r ∧ R r s

/-- A log that opens up to `R`: behind the whole lines lies nothing, a torn record, or a whole
one that still applies. -/
def Ready (J : Json) (R : Ledger → Ledger → Prop) (s : Ledger) : Prop :=
  ∃ tail r, Replays J s tail r ∧ R r s ∧
    (tail = [] ∨ J.decode tail = none ∨ ∃ q r', tail = J.encode q ∧ r.apply J q = .ok r' ∧ R r' s)

theorem Clean.ready {s : Ledger} (h : Clean J R s) : Ready J R s := by
  obtain ⟨r, hrep, hR⟩ := h
  exact ⟨[], r, hrep, hR, .inl rfl⟩

theorem Clean.mono {s : Ledger} (h : Clean J R s) (hRR : ∀ r s, R r s → R' r s) : Clean J R' s := by
  obtain ⟨r, hrep, hR⟩ := h
  exact ⟨r, hrep, hRR r s hR⟩

theorem Ready.mono {s : Ledger} (h : Ready J R s) (hRR : ∀ r s, R r s → R' r s) : Ready J R' s := by
  obtain ⟨tail, r, hrep, hR, htail⟩ := h
  refine ⟨tail, r, hrep, hRR r s hR, ?_⟩
  rcases htail with htail | htail | ⟨q, r', hq, ha, hR'⟩
  · exact .inl htail
  · exact .inr (.inl htail)
  · exact .inr (.inr ⟨q, r', hq, ha, hRR r' s hR'⟩)

theorem SameMaps.lookups {s t : Ledger} (h : SameMaps s t) : SameLookups t s :=
  ⟨fun k => by rw [h.entries], fun x => by rw [h.txIndex]⟩

theorem Clean.frame (hR : Prunes J R) {s s' : Ledger} (h : Clean J R s) (hfile : s'.file = s.file)
    (hmaps : SameLookups s' s) (hconf : s'.config = s.config) : Clean J R s' := by
  obtain ⟨r, hrep, hrs⟩ := h
  exact ⟨r, hrep.of_file hfile hconf, hR.frame hrs hmaps hconf⟩

/-! ### One append -/

theorem append_ok {io : Io} {s t : Ledger} {q : LogRecord} {u : Unit} (h : s.append J io q = (t, .ok u)) :
    t.file = some (s.file.getD [] ++ line J q) := by
  unfold append at h
  split at h <;> cases h
  rfl

theorem append_failed {io : Io} {s t : Ledger} {q : LogRecord} {e : ErrorKind}
    (h : s.append J io q = (t, .error e)) :
    ∃ n, io.append q = .failed n ∧ t.file = some (s.file.getD [] ++ (line J q).take n) := by
  unfold append at h
  split at h
  · cases h
  · rename_i n hn
    cases h
    exact ⟨n, hn, rfl⟩

/-- A failed append leaves a log that opens, if it stopped short of a whole record or the
record is one the relation accepts. -/
theorem append_ready (hJ : JsonOk J) (hR : Prunes J R) {io : Io} {s t r : Ledger} {q : LogRecord}
    {e : ErrorKind} (hrep : Replays J s [] r) (hrs : R r s) (h : s.append J io q = (t, .error e))
    (hshort : (∀ n, io.append q = .failed n → n < (J.encode q).length) ∨
      ∃ r', r.apply J q = .ok r' ∧ R r' s) : Ready J R t := by
  have hsame := append_same h
  obtain ⟨n, hn, hfile⟩ := append_failed h
  have hmem : ∀ {r}, R r s → R r t := fun hr => hR.frame hr hsame.lookups hsame.config
  by_cases hlen : n ≤ (J.encode q).length
  · have htake : (line J q).take n = (J.encode q).take n := List.take_append_of_le_length hlen
    rw [htake] at hfile
    refine ⟨_, r, hrep.part hJ hfile hsame.config, hmem hrs, .inr ?_⟩
    by_cases hlt : n < (J.encode q).length
    · exact .inl (hJ.torn q n hlt)
    · rcases hshort with hshort | ⟨r', ha, hr'⟩
      · exact absurd (hshort n hn) hlt
      · exact .inr ⟨q, r', List.take_of_length_le (Nat.not_lt.mp hlt), ha, hmem hr'⟩
  · have htake : (line J q).take n = line J q := by
      refine List.take_of_length_le ?_
      simp only [line, List.length_append, List.length_singleton]
      omega
    rw [htake] at hfile
    rcases hshort with hshort | ⟨r', ha, hr'⟩
    · exact absurd (hshort n hn).le hlen
    · exact Clean.ready ⟨r', hrep.line hJ hfile hsame.config ha, hmem hr'⟩

/-! ### What an operation leaves -/

/-- No append fails. -/
def Synced (io : Io) : Prop := ∀ q, io.append q = .synced

/-- An operation that is acknowledged, or during which no append fails, leaves whole lines, and
any operation a log that opens. -/
def Kept (J : Json) (io : Io) (P : Prop) (R : Ledger → Ledger → Prop) {α : Type} (x : Outcome α) : Prop :=
  ((∃ a, x.2 = .ok a) ∨ Synced io → Clean J R x.1) ∧ (P → Ready J R x.1)

/-- A failed `Delete` stops short of a whole record. -/
def ShortDeletes (J : Json) (io : Io) : Prop :=
  ∀ key txId n, io.append (.delete key txId) = .failed n → n < (J.encode (.delete key txId)).length

theorem Clean.kept {io : Io} {α : Type} {x : Outcome α} (h : Clean J R x.1) : Kept J io P R x :=
  ⟨fun _ => h, fun _ => h.ready⟩

/-- The operation stops at an append that failed. -/
theorem Kept.failed {io : Io} {α : Type} {s t : Ledger} {q : LogRecord} {e : ErrorKind}
    (happ : s.append J io q = (t, .error e)) (h : P → Ready J R t) :
    Kept J io P R ((t, .error e) : Outcome α) := by
  refine ⟨?_, h⟩
  rintro (⟨a, ha⟩ | hsync)
  · cases ha
  · obtain ⟨n, hn, -⟩ := append_failed happ
    rw [hsync q] at hn
    cases hn

theorem Kept.mono {io : Io} {α : Type} {x : Outcome α} (h : Kept J io P R x) (hRR : ∀ r s, R r s → R' r s) :
    Kept J io P R' x :=
  ⟨fun hok => (h.1 hok).mono hRR, fun hP => (h.2 hP).mono hRR⟩

theorem Kept.error {io : Io} {α β : Type} {t : Ledger} {e : ErrorKind}
    (h : Kept J io P R ((t, .error e) : Outcome α)) : Kept J io P R ((t, .error e) : Outcome β) := by
  refine ⟨?_, h.2⟩
  rintro (⟨a, ha⟩ | hsync)
  · cases ha
  · exact h.1 (.inr hsync)

theorem maybeCompact_clean (hJ : JsonOk J) (hR : Prunes J R) {s : Ledger} (hb : Bound s) (h : Clean J R s)
    (c : CompactOutcome) : Clean J R (s.maybeCompactBestEffort J c) := by
  have hsame := maybeCompact_same (J := J) c s
  have hfresh : ∀ {t : Ledger}, SameMaps s t → t.file = some (s.snapshot J) → Clean J R t := by
    intro t hmaps hfile
    obtain ⟨r₀, -, hrs⟩ := h
    obtain ⟨r, hrep, hlook⟩ := replays_snapshot hJ hb hfile
    exact ⟨r, hrep, hR.frame (hR.snapshot hrs hlook) hmaps.lookups hmaps.config⟩
  unfold maybeCompactBestEffort at hsame ⊢
  split_ifs at hsame ⊢
  · cases c with
    | replaced => exact hfresh hsame rfl
    | failedBefore => exact h
    | failedAfter => exact hfresh hsame rfl
  · exact h

/-- The log first, then memory: a `Delete`. -/
theorem delete_clean (hJ : JsonOk J) (hR : Prunes J R) {io : Io} {s t : Ledger} {key : Text}
    {entry : LedgerEntry} {u : Unit} (hb : Bound s) (h : Clean J R s) (he : s.entries.lookup key = some entry)
    (happ : s.append J io (.delete key entry.txId) = (t, .ok u)) : Clean J R (t.removeEntry J key) := by
  obtain ⟨r, hrep, hrs⟩ := h
  have hsame := append_same happ
  obtain ⟨r', ha, hr'⟩ := hR.delete hrep.bound hb hrs he
  have hremove := removeEntry_same (J := J) hsame key
  have hfile : (t.removeEntry J key).file = t.file ∧ (t.removeEntry J key).config = t.config := by
    unfold removeEntry
    split <;> exact ⟨rfl, rfl⟩
  refine ⟨r', (hrep.line hJ (append_ok happ) hsame.config ha).of_file hfile.1 hfile.2, ?_⟩
  exact hR.frame hr' hremove.lookups hremove.config

theorem delete_failed (hJ : JsonOk J) (hR : Prunes J R) {io : Io} (hio : ShortDeletes J io) {s t : Ledger}
    {key txId : Text} {e : ErrorKind} (h : Clean J R s)
    (happ : s.append J io (.delete key txId) = (t, .error e)) : Ready J R t := by
  obtain ⟨r, hrep, hrs⟩ := h
  exact append_ready hJ hR hrep hrs happ (.inl (hio key txId))

theorem deleteAll_kept (hJ : JsonOk J) (hR : Prunes J R) {io : Io} (hio : P → ShortDeletes J io) :
    ∀ (keys : List Text) {s : Ledger}, Bound s → Clean J R s → Kept J io P R (deleteAll J io keys s)
  | [], _, _, h => h.kept
  | key :: keys, s, hb, h => by
    unfold deleteAll
    cases hkey : s.entries.lookup key with
    | none => exact deleteAll_kept hJ hR hio keys hb h
    | some entry =>
      dsimp only
      rcases happ : s.append J io (.delete key entry.txId) with ⟨s', q⟩
      have hsame := append_same happ
      cases q with
      | error e => exact .failed happ fun hP => delete_failed hJ hR (hio hP) h happ
      | ok u =>
        dsimp only
        have hb' : Bound (s'.removeEntry J key) := (hb.of_eq hsame.entries hsame.txIndex).removeEntry key
        have hrest := deleteAll_kept hJ hR hio keys hb' (delete_clean hJ hR hb h hkey happ)
        rcases hres : deleteAll J io keys (s'.removeEntry J key) with ⟨t, q⟩
        rw [hres] at hrest
        cases q with
        | error e => exact hrest
        | ok count =>
          have hclean : Clean J R t := hrest.1 (.inl ⟨count, rfl⟩)
          exact hclean.kept

theorem pruneDurable_kept (hJ : JsonOk J) (hR : Prunes J R) {io : Io} (hio : P → ShortDeletes J io)
    {s : Ledger} (hb : Bound s) (h : Clean J R s) (now targetEntries targetBytes : ℕ) :
    Kept J io P R (s.pruneDurable J io now targetEntries targetBytes) := by
  unfold pruneDurable
  dsimp only
  split_ifs with hnil
  · exact h.kept
  · set keys := (s.pruneKeys J now targetEntries targetBytes).mergeSort fun a b => a ≤ b with hkeys
    have hall := deleteAll_kept hJ hR hio keys hb h
    have hbound := (deleteAll_bound (J := J) io keys hb).1
    rcases hres : deleteAll J io keys s with ⟨s', q⟩
    rw [hres] at hall hbound
    cases q with
    | error e => exact hall
    | ok count =>
      have hclean : Clean J R s' := hall.1 (.inl ⟨count, rfl⟩)
      refine (maybeCompact_clean hJ hR ?_ ?_ _).kept
      · exact hbound.of_eq rfl rfl
      · exact hclean.frame hR rfl ⟨fun _ => rfl, fun _ => rfl⟩ rfl

/-! ### A new entry

While room is made for an entry, the log goes on fitting it. -/

/-- `R`, with memory free for the entry and the log not contradicting it. -/
def Fitting (e : LedgerEntry) (R : Ledger → Ledger → Prop) (r s : Ledger) : Prop :=
  R r s ∧ Fits e r ∧ Free e s

theorem Fits.of_sub {e : LedgerEntry} {r r' : Ledger} (h : Fits e r)
    (hentries : ∀ k e', r'.entries.lookup k = some e' → r.entries.lookup k = some e')
    (hindex : ∀ x k, r'.txIndex.lookup x = some k → r.txIndex.lookup x = some k) : Fits e r' :=
  ⟨fun e' he' => h.key e' (hentries _ e' he'), fun k hk => h.txId k (hindex _ k hk)⟩

theorem Fits.removeEntry {e : LedgerEntry} {r : Ledger} (h : Fits e r) (key : Text) :
    Fits e (r.removeEntry J key) := by
  refine h.of_sub ?_ ?_
  · intro k e' he'
    rw [lookup_removeEntry] at he'
    split_ifs at he'
    exact he'
  · intro x k hk
    unfold Ledger.removeEntry at hk
    split at hk
    · exact hk
    · rw [Table.lookup_erase_ite] at hk
      split_ifs at hk
      exact hk

theorem Fits.apply_delete {e : LedgerEntry} {r r' : Ledger} {key txId : Text} (h : Fits e r)
    (ha : r.apply J (.delete key txId) = .ok r') : Fits e r' := by
  simp only [apply] at ha
  split_ifs at ha
  · cases ha
    exact h.removeEntry _
  · cases ha
    exact h

theorem Free.fits {e : LedgerEntry} {r s : Ledger} (h : Free e s) (hlook : SameLookups r s) : Fits e r := by
  constructor
  · intro e' he'
    rw [hlook.entries, h.key] at he'
    cases he'
  · intro k hk
    rw [hlook.txIndex, h.txId] at hk
    cases hk

theorem Free.removeEntry {e : LedgerEntry} {s : Ledger} (h : Free e s) (key : Text) :
    Free e (s.removeEntry J key) := by
  refine ⟨?_, removeEntry_txIndex_none h.txId⟩
  rw [lookup_removeEntry]
  split_ifs
  · rfl
  · exact h.key

theorem Free.frame {e : LedgerEntry} {s s' : Ledger} (h : Free e s) (hlook : SameLookups s' s) : Free e s' :=
  ⟨(hlook.entries _).trans h.key, (hlook.txIndex _).trans h.txId⟩

theorem Prunes.fitting (hR : Prunes J R) (e : LedgerEntry) : Prunes J (Fitting e R) where
  frame h hlook hconf := ⟨hR.frame h.1 hlook hconf, h.2.1, h.2.2.frame hlook⟩
  snapshot h hlook := ⟨hR.snapshot h.1 hlook, h.2.2.fits hlook, h.2.2⟩
  delete hr hs h he := by
    obtain ⟨r', ha, hr'⟩ := hR.delete hr hs h.1 he
    exact ⟨r', ha, hr', h.2.1.apply_delete ha, h.2.2.removeEntry _⟩

theorem makeRoom_kept (hJ : JsonOk J) (hR : Prunes J R) {io : Io} (hio : P → ShortDeletes J io) {s : Ledger}
    (hb : Bound s) (h : Clean J R s) (entry : LedgerEntry) (now : ℕ) :
    Kept J io P R (s.makeRoom J io entry now) := by
  unfold makeRoom
  dsimp only
  split_ifs with hbig
  · exact h.kept
  · have hprune := pruneDurable_kept hJ hR hio hb h now (s.config.maxEntries - 1)
      (s.config.maxLiveBytes - encodedUpsertLen J entry)
    rcases hres : s.pruneDurable J io now (s.config.maxEntries - 1)
      (s.config.maxLiveBytes - encodedUpsertLen J entry) with ⟨s', q⟩
    rw [hres] at hprune
    cases q with
    | error e => exact hprune.error
    | ok count =>
      have hclean : Clean J R s' := hprune.1 (.inl ⟨count, rfl⟩)
      dsimp only
      split_ifs <;> exact hclean.kept

theorem commitEntry_kept (hJ : JsonOk J) (hR : Follows J T P R) {io : Io} {s : Ledger} {e : LedgerEntry}
    (hb : Bound s) (h : Clean J (Fitting e R) s) (hkey : e.key = primaryKey e.idempotencyKey e.txId) :
    Kept J io P R (s.commitEntry J io e) := by
  obtain ⟨r, hrep, hrs, hfits, hfree⟩ := h
  obtain ⟨r', ha, hr', halone⟩ := hR.upsert hrs hfree hfits hkey
  unfold commitEntry
  rcases happ : s.append J io (.upsert e) with ⟨s', q⟩
  have hsame := append_same happ
  cases q with
  | error err =>
    exact .failed happ fun hP => append_ready hJ hR.toPrunes hrep hrs happ (.inr ⟨r', ha, halone hP⟩)
  | ok u =>
    have hindex := indexEntry_same (J := J) hsame e
    have hfree' : Free e s' := hfree.frame hsame.lookups
    have hb' : Bound (s'.indexEntry J e) := by
      refine (hb.of_eq hsame.entries hsame.txIndex).indexEntry hkey ?_ ?_
      · intro e' he'
        rw [hfree'.key] at he'
        cases he'
      · intro k hk
        rw [hfree'.txId] at hk
        cases hk
    refine (maybeCompact_clean hJ hR.toPrunes hb' ?_ io.compact).kept
    refine ⟨r', (hrep.line hJ (append_ok happ) hsame.config ha).of_file rfl rfl, ?_⟩
    exact hR.frame hr' hindex.lookups hindex.config

theorem refresh_clean (hR : Follows J T P R) {s : Ledger} (h : Clean J R s) {now : ℕ} (hnow : now ≤ T) :
    Clean J R (s.refreshExpiry now) := by
  obtain ⟨r, hrep, hrs⟩ := h
  exact ⟨r, hrep.of_file rfl rfl, hR.refresh hnow hrs⟩

theorem Free.refreshExpiry {e : LedgerEntry} {s : Ledger} (h : Free e s) (now : ℕ) :
    Free e (s.refreshExpiry now) := by
  refine ⟨?_, h.txId⟩
  simp only [Ledger.refreshExpiry, Table.lookup_mapValues, h.key, Option.map_none]

theorem free_of_unowned {s : Ledger} (hb : Bound s) {e : LedgerEntry} (hkey : s.entries.lookup e.key = none)
    (hown : ¬ (s.txIndex.lookup e.txId).any (· ≠ e.key) = true) : Free e s := by
  refine ⟨hkey, ?_⟩
  rw [Option.eq_none_iff_forall_not_mem]
  intro owner howner
  have heq : owner = e.key := by simpa [Option.mem_def.mp howner] using hown
  obtain ⟨e', he', -⟩ := (hb.index owner e.txId).mpr howner
  rw [heq, hkey] at he'
  cases he'

theorem record_kept (hJ : JsonOk J) (hR : Follows J T P R) {io : Io} (hio : P → ShortDeletes J io)
    {s : Ledger} (hb : Bound s) (h : Clean J R s) (key : Option Text) (tuple : PaymentTuple) (timestamp : ℕ)
    (txId : Text) (signedTx : Option Text) {now : ℕ} (hnow : now ≤ T)
    (hfits : ∀ r, Replays J s [] r → R r s → Free (newEntry key tuple timestamp txId signedTx now) s →
      Fits (newEntry key tuple timestamp txId signedTx now) r) :
    Kept J io P R (s.record J io key tuple timestamp txId signedTx now) := by
  set entry := newEntry key tuple timestamp txId signedTx now with hentry
  unfold record
  dsimp only
  cases hkey : s.entries.lookup (primaryKey key txId) with
  | some existing =>
    dsimp only
    split_ifs <;> exact h.kept
  | none =>
    dsimp only
    split_ifs with hown
    · exact h.kept
    · have hfree : Free entry s := free_of_unowned hb hkey hown
      obtain ⟨r, hrep, hrs⟩ := h
      have hready : Clean J (Fitting entry R) ((s.refreshExpiry now).recalculateLiveBytes J) := by
        refine ⟨r, hrep.of_file rfl rfl, ?_, hfits r hrep hrs hfree, ?_⟩
        · exact hR.frame (hR.refresh hnow hrs) ⟨fun _ => rfl, fun _ => rfl⟩ rfl
        · exact (hfree.refreshExpiry now).frame ⟨fun _ => rfl, fun _ => rfl⟩
      have hbound : Bound ((s.refreshExpiry now).recalculateLiveBytes J) := hb.prepared now
      have hroom := makeRoom_kept hJ (hR.toPrunes.fitting entry) hio hbound hready entry now
      have hbound' := (makeRoom_bound (J := J) io hbound entry now).1
      rw [← hentry]
      rcases hres : ((s.refreshExpiry now).recalculateLiveBytes J).makeRoom J io entry now with ⟨s', q⟩
      rw [hres] at hroom hbound'
      cases q with
      | error e => exact (hroom.mono fun _ _ hf => hf.1).error
      | ok u => exact commitEntry_kept hJ hR hbound' (hroom.1 (.inl ⟨u, rfl⟩)) rfl

theorem releaseKey_kept (hJ : JsonOk J) (hR : Prunes J R) {io : Io} (hio : P → ShortDeletes J io)
    {s : Ledger} (hb : Bound s) (h : Clean J R s) (key txId : Text) :
    Kept J io P R (s.releaseKey J io key txId) := by
  unfold releaseKey
  cases hkey : s.entries.lookup key with
  | none => exact h.kept
  | some entry =>
    dsimp only
    split_ifs with hskip
    · exact h.kept
    · have htx : entry.txId = txId := by
        by_contra hne
        exact hskip (.inl hne)
      rcases happ : s.append J io (.delete key txId) with ⟨s', q⟩
      have hsame := append_same happ
      cases q with
      | error e => exact .failed happ fun hP => delete_failed hJ hR (hio hP) h happ
      | ok u =>
        have hb' : Bound (s'.removeEntry J key) := (hb.of_eq hsame.entries hsame.txIndex).removeEntry key
        subst htx
        exact (maybeCompact_clean hJ hR hb' (delete_clean hJ hR hb h hkey happ) io.compact).kept

theorem updateState_kept (hJ : JsonOk J) (hR : Follows J T P R) {io : Io} {s : Ledger} (hb : Bound s)
    (h : Clean J R s) (txId : Text) (st : EntryState) (now : ℕ) :
    Kept J io P R (s.updateState J io txId st now) := by
  unfold updateState
  cases hkey : s.txIndex.lookup txId with
  | none => exact h.kept
  | some key =>
    obtain ⟨r, hrep, hrs⟩ := h
    obtain ⟨r', ha, hr', halone⟩ := hR.state st now hrep.bound hb hrs hkey
    dsimp only
    rcases happ : s.append J io (.state txId st now) with ⟨s', q⟩
    have hsame := append_same happ
    cases q with
    | error e =>
      exact .failed happ fun hP => append_ready hJ hR.toPrunes hrep hrs happ (.inr ⟨r', ha, halone hP⟩)
    | ok u =>
      have hset := setState_same hsame st now key
      have hb' : Bound (s'.setState st now key) := (hb.of_eq hsame.entries hsame.txIndex).setState st now key
      have hfile : (s'.setState st now key).file = s'.file ∧ (s'.setState st now key).config = s'.config := by
        unfold setState
        split <;> exact ⟨rfl, rfl⟩
      refine (maybeCompact_clean hJ hR.toPrunes hb' ?_ io.compact).kept
      refine ⟨r', (hrep.line hJ (append_ok happ) hsame.config ha).of_file hfile.1 hfile.2, ?_⟩
      exact hR.frame hr' hset.lookups hset.config

/-! ### Every operation -/

/-- The time an operation reads, if it reads one. -/
def LedgerOp.now : LedgerOp → ℕ
  | .allocateTimestamp _ now => now
  | .checkSubmission _ _ now => now
  | .record _ _ _ _ _ now => now
  | .releaseReservation _ _ => 0
  | .releaseLocalReservation _ => 0
  | .updateState _ _ now => now
  | .findByKey _ now => now
  | .findByTxId _ now => now
  | .prune now => now

def LedgerEvent.now : LedgerEvent → ℕ
  | .call _ op => op.now
  | .rehash _ => 0
  | .restart => 0

/-- The entry an operation would add. -/
def LedgerOp.entry : LedgerOp → Option LedgerEntry
  | .record key tuple timestamp txId signedTx now => some (newEntry key tuple timestamp txId signedTx now)
  | _ => none

theorem Kept.done {io : Io} {α : Type} {x : Outcome α} (h : Kept J io P R x) : Kept J io P R (done x) := by
  refine ⟨?_, h.2⟩
  rcases x with ⟨s, q⟩
  cases q with
  | error e => exact h.error.1
  | ok b => exact fun _ => h.1 (.inl ⟨b, rfl⟩)

theorem allocateTimestamp_frame (s : Ledger) (tuple : PaymentTuple) (now : ℕ) :
    (s.allocateTimestamp tuple now).1.file = s.file ∧ (s.allocateTimestamp tuple now).1.entries = s.entries ∧
      (s.allocateTimestamp tuple now).1.txIndex = s.txIndex ∧
      (s.allocateTimestamp tuple now).1.config = s.config := by
  unfold allocateTimestamp
  dsimp only
  split_ifs <;> exact ⟨rfl, rfl, rfl, rfl⟩

/-- **One operation** on a log of whole lines. -/
theorem perform_kept (hJ : JsonOk J) (hR : Follows J T P R) {io : Io} (hio : P → ShortDeletes J io)
    {s : Ledger} (hb : Bound s) (h : Clean J R s) (op : LedgerOp) (hnow : op.now ≤ T)
    (hfits : ∀ e ∈ op.entry, ∀ r, Replays J s [] r → R r s → Free e s → Fits e r) :
    Kept J io P R (perform J io s op) := by
  cases op with
  | allocateTimestamp tuple now =>
    obtain ⟨hfile, hentries, hindex, hconf⟩ := allocateTimestamp_frame s tuple now
    have hlook : SameLookups (s.allocateTimestamp tuple now).1 s :=
      ⟨fun k => by rw [hentries], fun x => by rw [hindex]⟩
    have hclean : Clean J R (s.allocateTimestamp tuple now).1 := h.frame hR.toPrunes hfile hlook hconf
    exact hclean.kept
  | checkSubmission key txId now =>
    have hclean : Clean J R (s.refreshExpiry now) := refresh_clean hR h hnow
    exact hclean.kept
  | record key tuple timestamp txId signedTx now =>
    exact (record_kept hJ hR hio hb h key tuple timestamp txId signedTx hnow (hfits _ rfl)).done
  | releaseReservation key txId => exact (releaseKey_kept hJ hR.toPrunes hio hb h _ txId).done
  | releaseLocalReservation txId => exact (releaseKey_kept hJ hR.toPrunes hio hb h _ txId).done
  | updateState txId state now => exact updateState_kept hJ hR hb h txId state now
  | findByKey key now =>
    have hclean : Clean J R (s.refreshExpiry now) := refresh_clean hR h hnow
    exact hclean.kept
  | findByTxId txId now =>
    have hclean : Clean J R (s.refreshExpiry now) := refresh_clean hR h hnow
    exact hclean.kept
  | prune now =>
    have hclean : Clean J R ((s.refreshExpiry now).recalculateLiveBytes J) :=
      (refresh_clean hR h hnow).frame hR.toPrunes rfl ⟨fun _ => rfl, fun _ => rfl⟩ rfl
    exact (pruneDurable_kept hJ hR.toPrunes hio (hb.prepared now) hclean now _ _).done

theorem load_clean (hR : Follows J T P R) {config : LedgerConfig} {file : Option Bytes} {t : Ledger}
    (h : load J config file = .ok t) : Clean J R t := by
  obtain ⟨r, hrep, hsame⟩ := load_replays h
  exact ⟨r, hrep, hR.opened hsame.symm.lookups⟩

/-! ### Expiry -/

theorem expire_zero (horizon : ℕ) (e : LedgerEntry) : expire horizon 0 e = e := by simp [expire]

theorem map_expire_zero (horizon : ℕ) (o : Option LedgerEntry) : o.map (expire horizon 0) = o := by
  cases o with
  | none => rfl
  | some e => rw [Option.map_some, expire_zero]

/-- A second look at the clock either finds the entry expired or comes first. -/
theorem expire_expire (horizon τ now : ℕ) (e : LedgerEntry) :
    expire horizon now (expire horizon τ e) = expire horizon τ e ∨
      expire horizon now (expire horizon τ e) = expire horizon now e := by
  by_cases h : e.state.isOpen ∧ e.timestamp + horizon < τ
  · left
    have hτ : expire horizon τ e = { e with state := .expired, updatedAt := τ } := by
      rw [expire, if_pos h]
    rw [hτ, expire, if_neg]
    simp [EntryState.isOpen]
  · right
    rw [expire.eq_1 horizon τ, if_neg h]

/-- An entry without the time its expiry was noticed. -/
def undated (e : LedgerEntry) : LedgerEntry :=
  { e with updatedAt := if e.state = .expired then 0 else e.updatedAt }

/-- By the time `now`, it no longer matters that the entry was already looked at at `τ`. -/
theorem undated_expire {τ now : ℕ} (hle : τ ≤ now) (horizon : ℕ) (e : LedgerEntry) :
    undated (expire horizon now (expire horizon τ e)) = undated (expire horizon now e) := by
  by_cases h : e.state.isOpen ∧ e.timestamp + horizon < τ
  · have hτ : expire horizon τ e = { e with state := .expired, updatedAt := τ } := by
      rw [expire, if_pos h]
    have hnow : expire horizon now e = { e with state := .expired, updatedAt := now } := by
      rw [expire, if_pos ⟨h.1, by omega⟩]
    have hstay : expire horizon now (expire horizon τ e) = expire horizon τ e := by
      rw [hτ, expire, if_neg]
      simp [EntryState.isOpen]
    rw [hstay, hτ, hnow]
    simp [undated]
  · rw [expire.eq_1 horizon τ, if_neg h]

/-! ### Memory, but for expiry -/

/-- The log rebuilds memory, except for what the clock expired in memory alone by `T`. -/
structure Mirror (T : ℕ) (r s : Ledger) : Prop where
  txIndex : ∀ x, r.txIndex.lookup x = s.txIndex.lookup x
  entries : ∀ k, ∃ τ ≤ T, s.entries.lookup k = (r.entries.lookup k).map (expire s.config.txAgeLimitSecs τ)

theorem Mirror.of_lookups {r s : Ledger} (h : SameLookups r s) : Mirror T r s := by
  refine ⟨h.txIndex, fun k => ⟨0, Nat.zero_le T, ?_⟩⟩
  rw [map_expire_zero, h.entries]

/-- The entry that the log rebuilds for one in memory. -/
theorem Mirror.entry {r s : Ledger} (h : Mirror T r s) {k : Text} {e : LedgerEntry}
    (he : s.entries.lookup k = some e) : ∃ e', r.entries.lookup k = some e' ∧ SamePayment e' e := by
  obtain ⟨τ, -, hτ⟩ := h.entries k
  rw [he] at hτ
  obtain ⟨e', he', rfl⟩ := Option.map_eq_some_iff.mp hτ.symm
  exact ⟨e', he', .expire _ _ e'⟩

theorem normalizeKey_primaryKey (s : Ledger) (key : Option Text) (txId : Text) :
    s.normalizeKey (primaryKey key txId) = primaryKey key txId := by
  have hprefix : idempotencyPrefix.isPrefixOf (primaryKey key txId) = true ∨
      transactionPrefix.isPrefixOf (primaryKey key txId) = true := by
    cases key with
    | none => exact .inr (List.isPrefixOf_iff_prefix.mpr ⟨txId, rfl⟩)
    | some key => exact .inl (List.isPrefixOf_iff_prefix.mpr ⟨key, rfl⟩)
  rw [normalizeKey, if_pos hprefix]

/-- A logged `Delete` removes the entry that memory removes. -/
theorem apply_delete {r s : Ledger} {key : Text} {e e' : LedgerEntry} (hs : Bound s)
    (he : s.entries.lookup key = some e) (he' : r.entries.lookup key = some e') (hsame : SamePayment e' e) :
    r.apply J (.delete key e.txId) = .ok (r.removeEntry J key) := by
  have hnorm : r.normalizeKey key = key := by
    rw [hs.normal key e he]
    exact normalizeKey_primaryKey r _ _
  have hown : (r.entries.lookup (r.normalizeKey key)).any (·.txId = e.txId) = true := by
    rw [hnorm, he', hsame.txId]
    simp
  simp only [apply]
  rw [if_pos hown, hnorm]

theorem removeEntry_txIndex {s : Ledger} {key : Text} {e : LedgerEntry} (he : s.entries.lookup key = some e)
    (x : Text) : (s.removeEntry J key).txIndex.lookup x = if x = e.txId then none else s.txIndex.lookup x := by
  simp only [removeEntry, he, Table.lookup_erase_ite]

/-- A logged `State` finds the entry of a transaction that memory knows. -/
theorem apply_state {r : Ledger} {key txId : Text} {e : LedgerEntry} (st : EntryState) (updatedAt : ℕ)
    (hkey : r.txIndex.lookup txId = some key) (he : r.entries.lookup key = some e) :
    r.apply J (.state txId st updatedAt) = .ok (r.setState st updatedAt key) := by
  simp only [apply, hkey, he]

theorem removeEntry_config (s : Ledger) (key : Text) : (s.removeEntry J key).config = s.config := by
  unfold removeEntry
  split <;> rfl

theorem setState_config (s : Ledger) (st : EntryState) (updatedAt : ℕ) (key : Text) :
    (s.setState st updatedAt key).config = s.config := by
  unfold setState
  split <;> rfl

theorem setState_txIndex (s : Ledger) (st : EntryState) (updatedAt : ℕ) (key : Text) :
    (s.setState st updatedAt key).txIndex = s.txIndex := by
  unfold setState
  split <;> rfl

theorem mirror_delete {r s : Ledger} {key : Text} {e : LedgerEntry} (hs : Bound s) (h : Mirror T r s)
    (he : s.entries.lookup key = some e) :
    ∃ r', r.apply J (.delete key e.txId) = .ok r' ∧ Mirror T r' (s.removeEntry J key) := by
  obtain ⟨e', he', hsame⟩ := h.entry he
  refine ⟨r.removeEntry J key, apply_delete hs he he' hsame, ?_, ?_⟩
  · intro x
    rw [removeEntry_txIndex he, removeEntry_txIndex he', hsame.txId, h.txIndex]
  · intro k
    obtain ⟨τ, hτ, hk⟩ := h.entries k
    refine ⟨τ, hτ, ?_⟩
    rw [lookup_removeEntry, lookup_removeEntry, removeEntry_config]
    split_ifs
    · rfl
    · exact hk

theorem mirror_state {r s : Ledger} {key txId : Text} (st : EntryState) (updatedAt : ℕ) (hs : Bound s)
    (h : Mirror T r s) (hkey : s.txIndex.lookup txId = some key) :
    ∃ r', r.apply J (.state txId st updatedAt) = .ok r' ∧ Mirror T r' (s.setState st updatedAt key) := by
  obtain ⟨e, he, -⟩ := (hs.index key txId).mpr hkey
  obtain ⟨e', he', hsame⟩ := h.entry he
  refine ⟨r.setState st updatedAt key, apply_state st updatedAt ((h.txIndex txId).trans hkey) he', ?_, ?_⟩
  · intro x
    rw [setState_txIndex, setState_txIndex, h.txIndex]
  · intro k
    rw [lookup_setState, lookup_setState, setState_config]
    by_cases hk : k = key
    · -- The new state overwrites what the clock did.
      refine ⟨0, Nat.zero_le T, ?_⟩
      rw [if_pos hk, if_pos hk, map_expire_zero, he, he', Option.map_some, Option.map_some, hsame]
    · rw [if_neg hk, if_neg hk]
      exact h.entries k

theorem mirror_upsert {r s : Ledger} {e : LedgerEntry} (h : Mirror T r s) :
    Mirror T (r.indexEntry J e) (s.indexEntry J e) := by
  constructor
  · intro x
    simp only [indexEntry, Table.lookup_insert_ite, h.txIndex]
  · intro k
    simp only [indexEntry, Table.lookup_insert_ite]
    by_cases hk : k = e.key
    · refine ⟨0, Nat.zero_le T, ?_⟩
      rw [if_pos hk, if_pos hk, map_expire_zero]
    · rw [if_neg hk, if_neg hk]
      exact h.entries k

theorem mirror_refresh {r s : Ledger} {now : ℕ} (hnow : now ≤ T) (h : Mirror T r s) :
    Mirror T r (s.refreshExpiry now) := by
  refine ⟨h.txIndex, fun k => ?_⟩
  obtain ⟨τ, hτ, hk⟩ := h.entries k
  simp only [refreshExpiry, Table.lookup_mapValues, hk]
  cases r.entries.lookup k with
  | none => exact ⟨0, Nat.zero_le T, rfl⟩
  | some e =>
    simp only [Option.map_some, Option.some.injEq]
    rcases expire_expire s.config.txAgeLimitSecs τ now e with heq | heq
    · exact ⟨τ, hτ, heq⟩
    · exact ⟨now, hnow, heq⟩

theorem mirror_frame {r s s' : Ledger} (h : Mirror T r s) (hlook : SameLookups s' s)
    (hconf : s'.config = s.config) : Mirror T r s' := by
  refine ⟨fun x => (h.txIndex x).trans (hlook.txIndex x).symm, fun k => ?_⟩
  rw [hlook.entries, hconf]
  exact h.entries k

/-- No record may be in the log alone. -/
theorem mirror_follows : Follows J T False (Mirror T) where
  frame := mirror_frame
  snapshot _ hlook := .of_lookups hlook
  delete _ hs h he := mirror_delete hs h he
  opened := .of_lookups
  refresh := mirror_refresh
  state st updatedAt _ hs h hkey := by
    obtain ⟨r', ha, hr'⟩ := mirror_state (J := J) st updatedAt hs h hkey
    exact ⟨r', ha, hr', False.elim⟩
  upsert h _ hfits hkey := ⟨_, apply_upsert hkey hfits, mirror_upsert h, False.elim⟩

theorem Mirror.fits {r s : Ledger} (h : Mirror T r s) {e : LedgerEntry} (hfree : Free e s) : Fits e r := by
  constructor
  · intro e' he'
    obtain ⟨τ, -, hk⟩ := h.entries e.key
    rw [hfree.key, he'] at hk
    cases hk
  · intro k hk
    rw [h.txIndex, hfree.txId] at hk
    cases hk

/-! ### Runs of acknowledged operations -/

/-- An operation that is answered with `Ok`, or during which no append fails. -/
def Acknowledged (J : Json) (s : Ledger) : LedgerEvent → Prop
  | .call io op => (perform J io s op).2 = .ok () ∨ Synced io
  | .rehash _ => True
  | .restart => True

theorem rehash_lookups {s : Ledger} {entries : Table Text LedgerEntry}
    (hperm : entries.entries.Perm s.entries.entries) : SameLookups { s with entries } s :=
  ⟨rehash_lookup hperm, fun _ => rfl⟩

theorem step_clean (hJ : JsonOk J) {s t : Ledger} {ev : LedgerEvent} (h : Bound s ∧ Clean J (Mirror T) s)
    (hok : Acknowledged J s ev) (hnow : ev.now ≤ T) (hstep : LedgerStep J s ev t) :
    Bound t ∧ Clean J (Mirror T) t := by
  refine ⟨(step_bound h.1 hstep), ?_⟩
  cases hstep with
  | call io op =>
    have hkept : Kept J io False (Mirror T) (perform J io s op) :=
      perform_kept hJ mirror_follows False.elim h.1 h.2 op hnow fun e _ r _ hr hfree => hr.fits hfree
    exact hkept.1 (hok.imp_left fun h => ⟨(), h⟩)
  | rehash hperm => exact h.2.frame mirror_follows.toPrunes rfl (rehash_lookups hperm) rfl
  | restart hload => exact load_clean mirror_follows hload

/-- **A reopened ledger is the ledger that was closed.** After any operations that were acknowledged
or met no failed append, the file opens; the transactions are bound as in memory, every entry in memory is the
reopened one with perhaps one look at the clock, and after a look at the clock now the two are the same but for the
time an expiry was noticed. -/
theorem reopen_mirrors (hJ : JsonOk J) {config : LedgerConfig} {file : Option Bytes} {s₀ s : Ledger}
    {tr : List (Ledger × LedgerEvent)} {now : ℕ} (hload : load J config file = .ok s₀)
    (hrun : LedgerRun J s₀ tr s) (hok : ∀ p ∈ tr, Acknowledged J p.1 p.2) (hnow : ∀ p ∈ tr, p.2.now ≤ now) :
    ∃ t, load J s.config s.file = .ok t ∧ (∀ x, t.txIndex.lookup x = s.txIndex.lookup x) ∧
      (∀ k, ∃ τ ≤ now,
        s.entries.lookup k = (t.entries.lookup k).map (expire s.config.txAgeLimitSecs τ)) ∧
      ∀ k, ((t.refreshExpiry now).entries.lookup k).map undated =
        ((s.refreshExpiry now).entries.lookup k).map undated := by
  have hclean : Bound s ∧ Clean J (Mirror now) s :=
    Trace.Run.invariant (C := fun s ev => Acknowledged J s ev ∧ ev.now ≤ now)
      (fun _ _ _ h hC hstep => step_clean hJ h hC.1 hC.2 hstep) hrun
      ⟨load_bound hload, load_clean mirror_follows hload⟩ fun p hp => ⟨hok p hp, hnow p hp⟩
  obtain ⟨-, r, hrep, hmirror⟩ := hclean
  obtain ⟨t, ht, hsame⟩ := hrep.load (.inl rfl)
  have hentries : ∀ k, ∃ τ ≤ now,
      s.entries.lookup k = (t.entries.lookup k).map (expire s.config.txAgeLimitSecs τ) := by
    rw [hsame.entries]
    exact hmirror.entries
  refine ⟨t, ht, ?_, hentries, ?_⟩
  · rw [hsame.txIndex]
    exact hmirror.txIndex
  · intro k
    obtain ⟨τ, hτ, hk⟩ := hentries k
    have hconf : t.config = s.config := hsame.config.trans hrep.config
    simp only [refreshExpiry, Table.lookup_mapValues, hk, hconf, Option.map_map]
    cases t.entries.lookup k with
    | none => rfl
    | some e => exact congrArg some (undated_expire hτ _ e).symm

namespace Sample

/-- A ledger that compacts after every record. -/
def compacting : LedgerConfig := { LedgerConfig.default with compactionThresholdBytes := 0 }

/-- Two reservations, and the second is released. -/
def released : List LedgerOp := [reserve 'a' 5 't' 5, reserve 'b' 6 'u' 6, .releaseReservation ['b'] ['u']]

def after (ops : List LedgerOp) : Ledger := ops.foldl (fun s op => (perform toyJson .fine s op).1) (opened compacting)

def releasedTrace : List (Ledger × LedgerEvent) :=
  [(after [], .call .fine (reserve 'a' 5 't' 5)), (after (released.take 1), .call .fine (reserve 'b' 6 'u' 6)),
    (after (released.take 2), .call .fine (.releaseReservation ['b'] ['u']))]

end Sample

open Sample in
/-- After a restart the first reservation is there, and the one that was released is not. -/
theorem reservation_reopens :
    ∃ t, load toyJson (after released).config (after released).file = .ok t ∧
      (t.txIndex.lookup ['t']).isSome = true ∧ t.txIndex.lookup ['u'] = none := by
  have hrun : LedgerRun toyJson (opened compacting) releasedTrace (after released) :=
    .cons (.call _ .fine _) (.cons (.call _ .fine _) (.single (.call _ .fine _)))
  have hok : ∀ p ∈ releasedTrace, Acknowledged toyJson p.1 p.2 := by
    intro p hp
    simp only [releasedTrace, List.mem_cons, List.not_mem_nil, or_false] at hp
    rcases hp with rfl | rfl | rfl <;> exact .inr fun _ => rfl
  have hnow : ∀ p ∈ releasedTrace, p.2.now ≤ 6 := by
    intro p hp
    simp only [releasedTrace, List.mem_cons, List.not_mem_nil, or_false] at hp
    rcases hp with rfl | rfl | rfl <;> decide
  have hempty : load toyJson compacting none = .ok (opened compacting) := rfl
  obtain ⟨t, ht, hindex, -⟩ := reopen_mirrors toyJson_ok hempty hrun hok hnow
  refine ⟨t, ht, ?_, ?_⟩
  · rw [hindex]
    decide +kernel
  · rw [hindex]
    decide +kernel

end Alphanumeric.PaymentLedger
