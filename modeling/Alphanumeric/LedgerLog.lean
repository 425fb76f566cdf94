/-
# The payment ledger's log as lines

The log is a list of lines and what follows the last newline. An append that is
synced adds one line; one that fails leaves a part of it; a compaction replaces
the lines by one record for each entry in memory. `Replays` says what the whole
lines rebuild, and the lemmas here say how it changes, and what opening the file
makes of it.

Key definitions: `Replays`, `SameLookups`.
Key theorems: `Replays.line`, `Replays.part`, `replays_snapshot`, `Replays.load`, `load_replays`.
-/
import Alphanumeric.LedgerBindings

namespace Alphanumeric.PaymentLedger

open Ledger

variable {J : Json}

/-! ### Lines -/

theorem splitLines_of_notMem : ∀ {l : Bytes}, newline ∉ l → splitLines l = ([], l)
  | [], _ => rfl
  | b :: l, h => by
    simp only [List.mem_cons, not_or] at h
    simp [splitLines, splitLines_of_notMem h.2, Ne.symm h.1]

theorem splitLines_line_append : ∀ {l : Bytes} (rest : Bytes), newline ∉ l →
    splitLines (l ++ newline :: rest) = (l :: (splitLines rest).1, (splitLines rest).2)
  | [], rest, _ => by
    rcases hr : splitLines rest with ⟨ls, tail⟩
    cases ls <;> simp [splitLines, hr]
  | b :: l, rest, h => by
    simp only [List.mem_cons, not_or] at h
    simp [splitLines, splitLines_line_append rest h.2, Ne.symm h.1]

/-- Lines without newlines, each ended by one, and a tail without a newline split back. -/
theorem splitLines_join : ∀ {ls : List Bytes} {tail : Bytes}, (∀ l ∈ ls, newline ∉ l) → newline ∉ tail →
    splitLines (ls.flatMap (· ++ [newline]) ++ tail) = (ls, tail)
  | [], _, _, htail => splitLines_of_notMem htail
  | l :: ls, tail, hls, htail => by
    simp only [List.forall_mem_cons] at hls
    simp only [List.flatMap_cons, List.append_assoc, List.cons_append, List.nil_append]
    rw [splitLines_line_append _ hls.1, splitLines_join hls.2 htail]

theorem splitLines_spec : ∀ {bytes tail : Bytes} {ls : List Bytes}, splitLines bytes = (ls, tail) →
    (∀ l ∈ ls, newline ∉ l) ∧ newline ∉ tail ∧ bytes = ls.flatMap (· ++ [newline]) ++ tail
  | [], _, _, h => by
    cases h
    simp
  | b :: bytes, tail, ls, h => by
    rcases hb : splitLines bytes with ⟨ls', tail'⟩
    obtain ⟨hls, htail, rfl⟩ := splitLines_spec hb
    cases ls' with
    | nil =>
      simp only [splitLines, hb] at h
      split_ifs at h with hnl
      · cases h
        simp [hnl, htail]
      · cases h
        simp [htail, Ne.symm hnl]
    | cons l ls' =>
      simp only [splitLines, hb] at h
      simp only [List.forall_mem_cons] at hls
      split_ifs at h with hnl
      · cases h
        exact ⟨by simpa using hls, htail, by simp [hnl]⟩
      · cases h
        refine ⟨?_, htail, by simp⟩
        rw [List.forall_mem_cons, List.mem_cons, not_or]
        exact ⟨⟨Ne.symm hnl, hls.1⟩, hls.2⟩

theorem splitLines_append_line {bytes tail l : Bytes} {ls : List Bytes} (h : splitLines bytes = (ls, tail))
    (hl : newline ∉ l) : splitLines (bytes ++ (l ++ [newline])) = (ls ++ [tail ++ l], []) := by
  obtain ⟨hls, htail, rfl⟩ := splitLines_spec h
  have hjoin : ls.flatMap (· ++ [newline]) ++ tail ++ (l ++ [newline]) =
      (ls ++ [tail ++ l]).flatMap (· ++ [newline]) ++ [] := by simp
  rw [hjoin]
  refine splitLines_join ?_ (by simp)
  intro l' hl'
  rcases List.mem_append.mp hl' with hl' | hl'
  · exact hls l' hl'
  · rw [List.mem_singleton.mp hl', List.mem_append, not_or]
    exact ⟨htail, hl⟩

theorem splitLines_append_part {bytes tail l : Bytes} {ls : List Bytes} (h : splitLines bytes = (ls, tail))
    (hl : newline ∉ l) : splitLines (bytes ++ l) = (ls, tail ++ l) := by
  obtain ⟨hls, htail, rfl⟩ := splitLines_spec h
  rw [List.append_assoc]
  refine splitLines_join hls ?_
  rw [List.mem_append, not_or]
  exact ⟨htail, hl⟩

theorem splitLines_cut {bytes tail : Bytes} {ls : List Bytes} (h : splitLines bytes = (ls, tail)) :
    splitLines (bytes.take (bytes.length - tail.length)) = (ls, []) := by
  obtain ⟨hls, -, rfl⟩ := splitLines_spec h
  rw [List.length_append, Nat.add_sub_cancel, List.take_left]
  have hjoin : splitLines (ls.flatMap (· ++ [newline]) ++ []) = (ls, []) := splitLines_join hls (by simp)
  rwa [List.append_nil] at hjoin

/-! ### Records -/

theorem encode_ne_nil (hJ : JsonOk J) (r : LogRecord) : J.encode r ≠ [] := by
  intro hnil
  -- Two records cannot both be the empty text, and the shorter text of the other is torn.
  have hdec : J.decode [] = some r := by rw [← hnil, hJ.roundTrip]
  obtain ⟨r', hne⟩ : ∃ r' : LogRecord, r' ≠ r := by
    by_cases hr : r = .delete [] []
    · exact ⟨.delete ['a'] [], by simp [hr]⟩
    · exact ⟨.delete [] [], Ne.symm hr⟩
  have hlen : 0 < (J.encode r').length := by
    rw [List.length_pos_iff]
    intro hnil'
    have hround := hJ.roundTrip r'
    rw [hnil', hdec] at hround
    exact hne (Option.some.inj hround).symm
  have htorn := hJ.torn r' 0 hlen
  rw [List.take_zero, hdec] at htorn
  cases htorn

/-- The log binds neither the entry's key nor its transaction otherwise. -/
structure Fits (e : LedgerEntry) (r : Ledger) : Prop where
  key : ∀ e', r.entries.lookup e.key = some e' → e'.txId = e.txId
  txId : ∀ k, r.txIndex.lookup e.txId = some k → k = e.key

theorem apply_upsert {r : Ledger} {e : LedgerEntry} (hkey : e.key = primaryKey e.idempotencyKey e.txId)
    (hfits : Fits e r) : r.apply J (.upsert e) = .ok (r.indexEntry J e) := by
  have hnormal : ({ e with key := primaryKey e.idempotencyKey e.txId } : LedgerEntry) = e := by rw [← hkey]
  have hfree : ¬ (r.entries.lookup e.key).any (·.txId ≠ e.txId) = true := by
    simpa only [Option.any_eq_true, not_exists, not_and, decide_eq_true_eq, not_not] using hfits.key
  have hown : ¬ (r.txIndex.lookup e.txId).any (· ≠ e.key) = true := by
    simpa only [Option.any_eq_true, not_exists, not_and, decide_eq_true_eq, not_not] using hfits.txId
  rw [hkey] at hfree hown
  simp only [apply, hnormal, hfree, hown]
  rfl

theorem applyLine_encode (hJ : JsonOk J) (s : Ledger) (r : LogRecord) :
    s.applyLine J (J.encode r) = s.apply J r := by
  simp only [applyLine, encode_ne_nil hJ, if_false, hJ.roundTrip]

theorem applyLines_append : ∀ {ls ls' : List Bytes} {s t : Ledger}, applyLines J ls s = .ok t →
    applyLines J (ls ++ ls') s = applyLines J ls' t
  | [], _, _, _, h => by
    cases h
    rfl
  | l :: ls, ls', s, t, h => by
    simp only [List.cons_append, applyLines] at h ⊢
    cases hl : s.applyLine J l with
    | error e =>
      rw [hl] at h
      cases h
    | ok s' =>
      rw [hl] at h
      exact applyLines_append h

theorem applyLines_snoc (hJ : JsonOk J) {ls : List Bytes} {s t u : Ledger} {r : LogRecord}
    (h : applyLines J ls s = .ok t) (ha : t.apply J r = .ok u) :
    applyLines J (ls ++ [J.encode r]) s = .ok u := by
  rw [applyLines_append h]
  simp only [applyLines, applyLine_encode hJ, ha]

/-! ### Replay looks at the maps alone -/

theorem SameMaps.trans {s t u : Ledger} (h : SameMaps s t) (h' : SameMaps t u) : SameMaps s u :=
  ⟨h'.entries.trans h.entries, h'.txIndex.trans h.txIndex, h'.tupleLastTs.trans h.tupleLastTs,
    h'.config.trans h.config⟩

theorem SameMaps.symm {s t : Ledger} (h : SameMaps s t) : SameMaps t s :=
  ⟨h.entries.symm, h.txIndex.symm, h.tupleLastTs.symm, h.config.symm⟩

theorem blank_same (config : LedgerConfig) (file file' : Option Bytes) :
    SameMaps (blank config file) (blank config file') := ⟨rfl, rfl, rfl, rfl⟩

theorem removeEntry_same {s s' : Ledger} (h : SameMaps s s') (key : Text) :
    SameMaps (s.removeEntry J key) (s'.removeEntry J key) := by
  unfold removeEntry
  rw [h.entries]
  cases s.entries.lookup key with
  | none => exact h
  | some e => exact ⟨rfl, by simp [h.txIndex], h.tupleLastTs, h.config⟩

theorem setState_same {s s' : Ledger} (h : SameMaps s s') (state : EntryState) (updatedAt : ℕ) (key : Text) :
    SameMaps (s.setState state updatedAt key) (s'.setState state updatedAt key) := by
  unfold setState
  rw [h.entries]
  cases s.entries.lookup key with
  | none => exact h
  | some e => exact ⟨rfl, h.txIndex, h.tupleLastTs, h.config⟩

theorem indexEntry_same {s s' : Ledger} (h : SameMaps s s') (entry : LedgerEntry) :
    SameMaps (s.indexEntry J entry) (s'.indexEntry J entry) := by
  refine ⟨?_, ?_, ?_, h.config⟩
  · simp only [indexEntry, h.entries]
  · simp only [indexEntry, h.txIndex]
  · simp only [indexEntry, h.tupleLastTs]

theorem apply_same {s s' t : Ledger} {r : LogRecord} (h : SameMaps s s') (ha : s.apply J r = .ok t) :
    ∃ t', s'.apply J r = .ok t' ∧ SameMaps t t' := by
  cases r with
  | upsert logged =>
    simp only [apply] at ha ⊢
    rw [h.entries, h.txIndex]
    split_ifs at ha ⊢ with hkey htx
    cases ha
    exact ⟨_, rfl, indexEntry_same h _⟩
  | state txId state updatedAt =>
    simp only [apply] at ha ⊢
    rw [h.txIndex, h.entries]
    cases hkey : s.txIndex.lookup txId with
    | none =>
      rw [hkey] at ha
      cases ha
    | some key =>
      simp only [hkey] at ha ⊢
      cases he : s.entries.lookup key with
      | none =>
        rw [he] at ha
        cases ha
      | some e =>
        rw [he] at ha
        cases ha
        exact ⟨_, rfl, setState_same h _ _ _⟩
  | delete logged txId =>
    have hnorm : s'.normalizeKey logged = s.normalizeKey logged := by simp only [normalizeKey, h.entries]
    simp only [apply] at ha ⊢
    rw [hnorm, h.entries]
    split_ifs at ha ⊢ with hgone
    · cases ha
      exact ⟨_, rfl, removeEntry_same h _⟩
    · cases ha
      exact ⟨_, rfl, h⟩

theorem applyLine_same {s s' t : Ledger} {l : Bytes} (h : SameMaps s s') (ha : s.applyLine J l = .ok t) :
    ∃ t', s'.applyLine J l = .ok t' ∧ SameMaps t t' := by
  unfold applyLine at ha ⊢
  split_ifs at ha ⊢ with hl
  · cases ha
    exact ⟨_, rfl, h⟩
  · cases hdec : J.decode l with
    | none =>
      rw [hdec] at ha
      cases ha
    | some r =>
      rw [hdec] at ha
      exact apply_same h ha

theorem applyLines_same : ∀ {ls : List Bytes} {s s' t : Ledger}, SameMaps s s' →
    applyLines J ls s = .ok t → ∃ t', applyLines J ls s' = .ok t' ∧ SameMaps t t'
  | [], _, s', _, h, ha => by
    cases ha
    exact ⟨s', rfl, h⟩
  | l :: ls, s, s', t, h, ha => by
    simp only [applyLines] at ha ⊢
    cases hl : s.applyLine J l with
    | error e =>
      rw [hl] at ha
      cases ha
    | ok u =>
      rw [hl] at ha
      obtain ⟨u', hu', hsame⟩ := applyLine_same h hl
      rw [hu']
      exact applyLines_same hsame ha

theorem apply_frame {s t : Ledger} {q : LogRecord} (h : s.apply J q = .ok t) : t.config = s.config := by
  cases q with
  | upsert logged =>
    simp only [apply] at h
    split_ifs at h
    cases h
    rfl
  | state txId state updatedAt =>
    simp only [apply] at h
    split at h
    · cases h
    · split at h
      · cases h
      · cases h
        unfold setState
        split <;> rfl
  | delete logged txId =>
    simp only [apply] at h
    split_ifs at h
    · cases h
      unfold removeEntry
      split <;> rfl
    · cases h
      rfl

theorem applyLines_config : ∀ {ls : List Bytes} {s t : Ledger}, applyLines J ls s = .ok t → t.config = s.config
  | [], _, _, h => by
    cases h
    rfl
  | l :: ls, s, t, h => by
    simp only [applyLines, applyLine] at h
    split_ifs at h with hl
    · exact applyLines_config h
    · cases hdec : J.decode l with
      | none =>
        rw [hdec] at h
        cases h
      | some q =>
        rw [hdec] at h
        dsimp only at h
        cases hq : s.apply J q with
        | error e =>
          rw [hq] at h
          cases h
        | ok u =>
          rw [hq] at h
          rw [applyLines_config h, apply_frame hq]

/-! ### What the whole lines rebuild -/

/-- The file is whole lines that rebuild `r`, and then `tail`. -/
def Replays (J : Json) (s : Ledger) (tail : Bytes) (r : Ledger) : Prop :=
  ∃ ls, splitLines (s.file.getD []) = (ls, tail) ∧ applyLines J ls (blank s.config none) = .ok r

namespace Replays

theorem of_file {s s' : Ledger} {tail : Bytes} {r : Ledger} (h : Replays J s tail r) (hfile : s'.file = s.file)
    (hconf : s'.config = s.config) : Replays J s' tail r := by
  unfold Replays
  rw [hfile, hconf]
  exact h

theorem bound {s r : Ledger} {tail : Bytes} (h : Replays J s tail r) : Bound r := by
  obtain ⟨ls, -, ha⟩ := h
  exact applyLines_bound (blank_bound _ _) ha

theorem config {s r : Ledger} {tail : Bytes} (h : Replays J s tail r) : r.config = s.config := by
  obtain ⟨ls, -, ha⟩ := h
  have hconf := applyLines_config ha
  exact hconf

/-- A synced append adds its record. -/
theorem line (hJ : JsonOk J) {s s' r r' : Ledger} {q : LogRecord} (h : Replays J s [] r)
    (hfile : s'.file = some (s.file.getD [] ++ line J q)) (hconf : s'.config = s.config)
    (ha : r.apply J q = .ok r') : Replays J s' [] r' := by
  obtain ⟨ls, hsplit, happ⟩ := h
  refine ⟨ls ++ [J.encode q], ?_, ?_⟩
  · rw [hfile]
    exact splitLines_append_line hsplit (hJ.oneLine q)
  · rw [hconf]
    exact applyLines_snoc hJ happ ha

/-- Part of a record, without its newline, is a tail. -/
theorem part (hJ : JsonOk J) {s s' r : Ledger} {q : LogRecord} {n : ℕ} (h : Replays J s [] r)
    (hfile : s'.file = some (s.file.getD [] ++ (J.encode q).take n)) (hconf : s'.config = s.config) :
    Replays J s' ((J.encode q).take n) r := by
  obtain ⟨ls, hsplit, happ⟩ := h
  refine ⟨ls, ?_, ?_⟩
  · rw [hfile]
    exact splitLines_append_part hsplit fun hmem => hJ.oneLine q (List.mem_of_mem_take hmem)
  · rw [hconf]
    exact happ

end Replays

/-! ### Compaction -/

/-- `r` and `s` hold the same entries under the same keys and transactions. -/
structure SameLookups (r s : Ledger) : Prop where
  entries : ∀ k, r.entries.lookup k = s.entries.lookup k
  txIndex : ∀ x, r.txIndex.lookup x = s.txIndex.lookup x

/-- `r` holds the entries of `done` and nothing else. -/
structure Holds (done : List LedgerEntry) (r : Ledger) : Prop where
  entries : ∀ k e, r.entries.lookup k = some e ↔ e ∈ done ∧ e.key = k
  txIndex : ∀ x k, r.txIndex.lookup x = some k ↔ ∃ e ∈ done, e.txId = x ∧ e.key = k

theorem holds_blank (config : LedgerConfig) : Holds [] (blank config none) :=
  ⟨fun k e => by simp [blank], fun x k => by simp [blank]⟩

/-- Two entries of memory with one key or one transaction are the same entry. -/
theorem Bound.entry_unique {s : Ledger} (h : Bound s) {e e' : LedgerEntry}
    (he : s.entries.lookup e.key = some e) (he' : s.entries.lookup e'.key = some e')
    (hor : e.key = e'.key ∨ e.txId = e'.txId) : e = e' := by
  have hkey : e.key = e'.key := by
    rcases hor with hkey | htx
    · exact hkey
    · have hidx := (h.index e.key e.txId).mp ⟨e, he, rfl⟩
      rw [htx, (h.index e'.key e'.txId).mp ⟨e', he', rfl⟩] at hidx
      exact (Option.some.inj hidx).symm
  rw [hkey, he'] at he
  exact (Option.some.inj he).symm

theorem Holds.snoc {s r : Ledger} (h : Bound s) {done : List LedgerEntry} {e : LedgerEntry}
    (hin : ∀ e' ∈ done ++ [e], s.entries.lookup e'.key = some e') (hr : Holds done r) :
    ∃ r', r.apply J (.upsert e) = .ok r' ∧ Holds (done ++ [e]) r' := by
  have he := hin e (by simp)
  have huniq : ∀ e' ∈ done, e'.key = e.key ∨ e'.txId = e.txId → e' = e := fun e' hmem hor =>
    h.entry_unique (hin e' (List.mem_append_left _ hmem)) he hor
  have hfits : Fits e r := by
    constructor
    · intro e' he'
      obtain ⟨hmem, hk⟩ := (hr.entries _ _).mp he'
      rw [huniq e' hmem (.inl hk)]
    · intro k hk
      obtain ⟨e', hmem, hx, rfl⟩ := (hr.txIndex _ _).mp hk
      rw [huniq e' hmem (.inr hx)]
  refine ⟨r.indexEntry J e, apply_upsert (h.normal e.key e he) hfits, ?_, ?_⟩
  · intro k e'
    simp only [indexEntry, Table.lookup_insert_ite, List.mem_append, List.mem_singleton]
    by_cases hk : k = e.key
    · simp only [hk, if_true, Option.some.injEq]
      constructor
      · rintro rfl
        exact ⟨.inr rfl, rfl⟩
      · rintro ⟨hmem | rfl, hk'⟩
        · exact (huniq e' hmem (.inl hk')).symm
        · rfl
    · simp only [hk, if_false, hr.entries]
      constructor
      · rintro ⟨hmem, hk'⟩
        exact ⟨.inl hmem, hk'⟩
      · rintro ⟨hmem | rfl, hk'⟩
        · exact ⟨hmem, hk'⟩
        · exact absurd hk'.symm hk
  · intro x k
    simp only [indexEntry, Table.lookup_insert_ite, List.mem_append, List.mem_singleton]
    by_cases hx : x = e.txId
    · simp only [hx, if_true, Option.some.injEq]
      constructor
      · rintro rfl
        exact ⟨e, .inr rfl, rfl, rfl⟩
      · rintro ⟨e', hmem | rfl, hx', rfl⟩
        · rw [huniq e' hmem (.inr hx')]
        · rfl
    · simp only [hx, if_false, hr.txIndex]
      constructor
      · rintro ⟨e', hmem, hx', hk'⟩
        exact ⟨e', .inl hmem, hx', hk'⟩
      · rintro ⟨e', hmem | rfl, hx', hk'⟩
        · exact ⟨e', hmem, hx', hk'⟩
        · exact absurd hx'.symm hx

theorem applyLines_upserts (hJ : JsonOk J) {s : Ledger} (h : Bound s) : ∀ (todo done : List LedgerEntry)
    {r : Ledger}, (∀ e ∈ done ++ todo, s.entries.lookup e.key = some e) → Holds done r →
    ∃ r', applyLines J (todo.map fun e => J.encode (.upsert e)) r = .ok r' ∧ Holds (done ++ todo) r'
  | [], done, r, _, hr => ⟨r, rfl, by rwa [List.append_nil]⟩
  | e :: todo, done, r, hin, hr => by
    obtain ⟨r₁, hr₁, hholds⟩ := Holds.snoc (J := J) h (e := e) (fun e' hmem => hin e' (by
      simp only [List.mem_append, List.mem_cons] at hmem ⊢
      tauto)) hr
    obtain ⟨r', hr', hholds'⟩ := applyLines_upserts hJ h todo (done ++ [e]) (by simpa using hin) hholds
    refine ⟨r', ?_, by simpa using hholds'⟩
    simp only [List.map_cons, applyLines, applyLine_encode hJ, hr₁, hr']

/-- A snapshot rebuilds exactly what was in memory. -/
theorem replays_snapshot (hJ : JsonOk J) {s s' : Ledger} (h : Bound s)
    (hfile : s'.file = some (s.snapshot J)) : ∃ r, Replays J s' [] r ∧ SameLookups r s := by
  have hvalues : ∀ e ∈ s.entries.values, s.entries.lookup e.key = some e := by
    intro e he
    obtain ⟨k, hk⟩ := Table.mem_values.mp he
    rw [h.key k e hk]
    exact hk
  obtain ⟨r, hr, hholds⟩ := applyLines_upserts hJ h s.entries.values [] (by simpa using hvalues)
    (holds_blank s'.config)
  rw [List.nil_append] at hholds
  refine ⟨r, ⟨_, ?_, hr⟩, ?_, ?_⟩
  · have hsnap : s.snapshot J =
        (s.entries.values.map fun e => J.encode (.upsert e)).flatMap (· ++ [newline]) ++ [] := by
      simp only [snapshot, line, List.flatMap_map, List.append_nil]
    rw [hfile, Option.getD_some, hsnap]
    refine splitLines_join ?_ (by simp)
    intro l hl
    obtain ⟨e, -, rfl⟩ := List.mem_map.mp hl
    exact hJ.oneLine _
  · intro k
    refine Option.ext fun e => ?_
    rw [hholds.entries]
    constructor
    · rintro ⟨hmem, rfl⟩
      exact hvalues e hmem
    · intro he
      exact ⟨Table.mem_values.mpr ⟨k, he⟩, h.key k e he⟩
  · intro x
    refine Option.ext fun k => ?_
    rw [hholds.txIndex, ← h.index]
    constructor
    · rintro ⟨e, hmem, rfl, rfl⟩
      exact ⟨e, hvalues e hmem, rfl⟩
    · rintro ⟨e, he, rfl⟩
      exact ⟨e, Table.mem_values.mpr ⟨k, he⟩, rfl, h.key k e he⟩

/-! ### Opening -/

theorem load_some {config : LedgerConfig} {bytes tail : Bytes} {ls : List Bytes} {r t : Ledger}
    (hsplit : splitLines bytes = (ls, tail)) (happ : applyLines J ls (blank config (some bytes)) = .ok r)
    (htail : r.applyTail J bytes tail = .ok t) :
    load J config (some bytes) = .ok (t.recalculateLiveBytes J) := by
  simp only [load, hsplit, happ, htail]

/-- A log with a torn end, or none, opens as its whole lines. -/
theorem Replays.load {s r : Ledger} {tail : Bytes} (h : Replays J s tail r)
    (htail : tail = [] ∨ J.decode tail = none) : ∃ t, load J s.config s.file = .ok t ∧ SameMaps r t := by
  obtain ⟨ls, hsplit, happ⟩ := h
  cases hfile : s.file with
  | none =>
    rw [hfile] at hsplit
    cases hsplit
    cases happ
    exact ⟨_, rfl, ⟨rfl, rfl, rfl, rfl⟩⟩
  | some bytes =>
    rw [hfile, Option.getD_some] at hsplit
    obtain ⟨r', hr', hsame⟩ := applyLines_same (blank_same s.config none (some bytes)) happ
    by_cases hnil : tail = []
    · refine ⟨_, load_some (t := { r' with file := some bytes, uncompactedBytes := bytes.length })
        hsplit hr' (by simp only [applyTail, hnil, if_true]), ?_⟩
      exact hsame.trans ⟨rfl, rfl, rfl, rfl⟩
    · have hdec := htail.resolve_left hnil
      refine ⟨_, load_some (t := { r' with
          file := some (bytes.take (bytes.length - tail.length))
          uncompactedBytes := bytes.length - tail.length })
        hsplit hr' (by simp only [applyTail, hnil, if_false, hdec]), ?_⟩
      exact hsame.trans ⟨rfl, rfl, rfl, rfl⟩

/-- A whole record without its newline is accepted. -/
theorem Replays.load_repaired (hJ : JsonOk J) {s r r' : Ledger} {q : LogRecord}
    (h : Replays J s (J.encode q) r) (ha : r.apply J q = .ok r') :
    ∃ t, Ledger.load J s.config s.file = .ok t ∧ SameMaps r' t := by
  obtain ⟨ls, hsplit, happ⟩ := h
  cases hfile : s.file with
  | none =>
    rw [hfile] at hsplit
    exact absurd (congrArg Prod.snd hsplit).symm (encode_ne_nil hJ q)
  | some bytes =>
    rw [hfile, Option.getD_some] at hsplit
    obtain ⟨u, hu, hsame⟩ := applyLines_same (blank_same s.config none (some bytes)) happ
    obtain ⟨u', hu', hsame'⟩ := apply_same hsame ha
    refine ⟨_, load_some (t := { u' with
        file := some (bytes ++ [newline]), uncompactedBytes := bytes.length + 1 }) hsplit hu (by
      simp only [applyTail, encode_ne_nil hJ, if_false, hJ.roundTrip, hu']), ?_⟩
    exact hsame'.trans ⟨rfl, rfl, rfl, rfl⟩

/-- What an opened ledger holds is what its file rebuilds. -/
theorem load_replays {config : LedgerConfig} {file : Option Bytes} {t : Ledger}
    (h : load J config file = .ok t) : ∃ r, Replays J t [] r ∧ SameMaps r t := by
  cases file with
  | none =>
    cases h
    exact ⟨_, ⟨[], rfl, rfl⟩, ⟨rfl, rfl, rfl, rfl⟩⟩
  | some bytes =>
    rcases hsplit : splitLines bytes with ⟨ls, tail⟩
    simp only [load, hsplit] at h
    cases happ : applyLines J ls (blank config (some bytes)) with
    | error e =>
      rw [happ] at h
      cases h
    | ok s =>
      rw [happ] at h
      dsimp only at h
      obtain ⟨r, hr, hsame⟩ := applyLines_same (blank_same config (some bytes) none) happ
      have hconf : s.config = config := applyLines_config happ
      by_cases hnil : tail = []
      · simp only [applyTail, hnil, if_true] at h
        cases h
        refine ⟨r, ⟨ls, ?_, ?_⟩, hsame.symm.trans ⟨rfl, rfl, rfl, rfl⟩⟩
        · rw [← hnil]
          exact hsplit
        · exact hconf.symm ▸ hr
      · simp only [applyTail, hnil, if_false] at h
        cases hdec : J.decode tail with
        | none =>
          rw [hdec] at h
          cases h
          exact ⟨r, ⟨ls, splitLines_cut hsplit, hconf.symm ▸ hr⟩, hsame.symm.trans ⟨rfl, rfl, rfl, rfl⟩⟩
        | some q =>
          rw [hdec] at h
          dsimp only at h
          cases hq : s.apply J q with
          | error e =>
            rw [hq] at h
            cases h
          | ok u =>
            rw [hq] at h
            cases h
            obtain ⟨r', hr', hsame'⟩ := apply_same hsame hq
            have hconf' : u.config = config := (apply_frame hq).trans hconf
            refine ⟨r', ⟨ls ++ [tail], ?_, ?_⟩, hsame'.symm.trans ⟨rfl, rfl, rfl, rfl⟩⟩
            · exact splitLines_append_line hsplit (l := []) (by simp) |>.trans (by rw [List.append_nil])
            · change applyLines J (ls ++ [tail]) (blank u.config none) = .ok r'
              rw [hconf', applyLines_append hr]
              simp only [applyLines, applyLine, hnil, if_false, hdec, hr']

end Alphanumeric.PaymentLedger
