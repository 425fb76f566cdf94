/-
# Room for a new payment

`record` makes room before it writes: `prune_keys` plans the deletions in three stages (past
retention, over the count, over the bytes) and `prune_durable` carries them out one log line
at a time, in the order of the keys. The plan takes terminal entries alone, and within the
retention window the oldest first and none that the targets did not ask for; the cached byte
total is exact throughout, so an entry that is written finds its room.

Key definitions: `Ledger.aged`, `Ledger.remaining`, `Ledger.victims`, `Ledger.Planned`, `CapacityKept`.
Key theorems: `deleteAll_spec`, `victims_planned`, `record_shape`, `record_keeps_capacity`.
-/
import Alphanumeric.LedgerBindings

namespace Alphanumeric.PaymentLedger

open Ledger

variable {J : Json}

/-! ### Carrying out the deletions -/

theorem append_liveBytes {io : Io} {s t : Ledger} {r : LogRecord} {q : Except ErrorKind Unit}
    (h : s.append J io r = (t, q)) : t.liveBytes = s.liveBytes := by
  unfold append at h
  split at h
  · cases h
    rfl
  · cases h
    rfl

theorem append_synced {io : Io} {s t : Ledger} {r : LogRecord} {q : Except ErrorKind Unit}
    (h : s.append J io r = (t, q)) (hio : io.append r = .synced) : q = .ok () := by
  unfold append at h
  rw [hio] at h
  cases h
  rfl

theorem maybeCompact_liveBytes (c : CompactOutcome) (s : Ledger) :
    (s.maybeCompactBestEffort J c).liveBytes = s.liveBytes := by
  unfold maybeCompactBestEffort compact
  split
  · split <;> rfl
  · rfl

/-- The cached byte total is the sum over the entries. -/
def LiveExact (J : Json) (s : Ledger) : Prop := s.liveBytes = Table.total (encodedUpsertLen J) s.entries

theorem LiveExact.removeEntry {s : Ledger} (h : LiveExact J s) (key : Text) : LiveExact J (s.removeEntry J key) := by
  unfold LiveExact Ledger.removeEntry at *
  cases hkey : s.entries.lookup key with
  | none => exact h
  | some entry =>
    dsimp only
    rw [h, Table.total_erase (encodedUpsertLen J) hkey]
    omega

/-- What deleting `keys` made of `s`. -/
structure Deleted (J : Json) (s : Ledger) (keys : List Text) (u : Ledger) : Prop where
  lookup : ∀ k, u.entries.lookup k = s.entries.lookup k ∨ k ∈ keys ∧ u.entries.lookup k = none
  live : LiveExact J s → LiveExact J u
  config : u.config = s.config

theorem Deleted.nothing {s u : Ledger} {keys : List Text} (h : SameMaps s u) (hlive : u.liveBytes = s.liveBytes) :
    Deleted J s keys u where
  lookup k := by
    rw [h.entries]
    exact .inl rfl
  live hs := by
    unfold LiveExact at *
    rw [hlive, h.entries]
    exact hs
  config := h.config

theorem Deleted.none {s u : Ledger} {keys : List Text} (h : Deleted J s keys u) {k : Text}
    (hk : s.entries.lookup k = none) : u.entries.lookup k = none := by
  rcases h.lookup k with heq | ⟨-, hnone⟩
  · rw [heq, hk]
  · exact hnone

theorem Deleted.first {s s' u : Ledger} {key : Text} {keys : List Text} (hsame : SameMaps s s')
    (hlive : s'.liveBytes = s.liveBytes) (h : Deleted J (s'.removeEntry J key) keys u) :
    Deleted J s (key :: keys) u where
  lookup k := by
    rcases h.lookup k with heq | ⟨hmem, hnone⟩
    · rw [lookup_removeEntry, hsame.entries] at heq
      by_cases hk : k = key
      · rw [if_pos hk] at heq
        exact .inr ⟨by rw [hk]; exact List.mem_cons_self, heq⟩
      · rw [if_neg hk] at heq
        exact .inl heq
    · exact .inr ⟨List.mem_cons_of_mem _ hmem, hnone⟩
  live hs := by
    refine h.live (LiveExact.removeEntry ?_ key)
    unfold LiveExact at *
    rw [hlive, hsame.entries]
    exact hs
  config := by
    have hremove : (s'.removeEntry J key).config = s'.config := by
      unfold removeEntry
      split <;> rfl
    exact h.config.trans (hremove.trans hsame.config)

/-- Deleting stops at the first line that cannot be written; without one, every key goes. -/
theorem deleteAll_spec (io : Io) : ∀ (keys : List Text) (s : Ledger),
    Deleted J s keys (deleteAll J io keys s).1 ∧
      (∀ n, (deleteAll J io keys s).2 = .ok n → ∀ k ∈ keys, (deleteAll J io keys s).1.entries.lookup k = none) ∧
      ((∀ k e, s.entries.lookup k = some e → io.append (.delete k e.txId) = .synced) →
        ∃ n, (deleteAll J io keys s).2 = .ok n)
  | [], s => ⟨.nothing ⟨rfl, rfl, rfl, rfl⟩ rfl, fun _ _ _ hk => absurd hk List.not_mem_nil, fun _ => ⟨0, rfl⟩⟩
  | key :: keys, s => by
    unfold deleteAll
    cases hkey : s.entries.lookup key with
    | none =>
      dsimp only
      obtain ⟨hdel, hdone, hsync⟩ := deleteAll_spec io keys s
      refine ⟨⟨fun k => ?_, hdel.live, hdel.config⟩, ?_, hsync⟩
      · exact (hdel.lookup k).imp_right fun h => ⟨List.mem_cons_of_mem _ h.1, h.2⟩
      · intro n hok k hk
        rcases List.mem_cons.mp hk with rfl | hk
        · exact hdel.none hkey
        · exact hdone n hok k hk
    | some entry =>
      dsimp only
      rcases happ : s.append J io (.delete key entry.txId) with ⟨s', q⟩
      have hsame := append_same happ
      have hlive := append_liveBytes happ
      cases q with
      | error e =>
        refine ⟨.nothing hsame hlive, ?_, ?_⟩
        · intro n hok
          cases hok
        · intro hio
          cases append_synced happ (hio key entry hkey)
      | ok u =>
        dsimp only
        obtain ⟨hdel, hdone, hsync⟩ := deleteAll_spec io keys (s'.removeEntry J key)
        have hgone : (s'.removeEntry J key).entries.lookup key = none := by
          rw [lookup_removeEntry, if_pos rfl]
        rcases hrest : deleteAll J io keys (s'.removeEntry J key) with ⟨t, q⟩
        rw [hrest] at hdel hdone hsync
        have hfirst := Deleted.first hsame hlive hdel
        have hfewer : (∀ k e, s.entries.lookup k = some e → io.append (.delete k e.txId) = .synced) →
            ∀ k e, (s'.removeEntry J key).entries.lookup k = some e → io.append (.delete k e.txId) = .synced := by
          intro hio k e he
          rw [lookup_removeEntry, hsame.entries] at he
          split_ifs at he with hk
          exact hio k e he
        cases q with
        | error e =>
          refine ⟨hfirst, ?_, ?_⟩
          · intro n hok
            cases hok
          · intro hio
            obtain ⟨n, hn⟩ := hsync (hfewer hio)
            cases hn
        | ok count =>
          refine ⟨hfirst, ?_, fun _ => ⟨count + 1, rfl⟩⟩
          intro n hok k hk
          rcases List.mem_cons.mp hk with rfl | hk
          · exact hdel.none hgone
          · exact hdone count rfl k hk

theorem pruneDurable_spec (io : Io) (s : Ledger) (now targetEntries targetBytes : ℕ) :
    Deleted J s (s.pruneKeys J now targetEntries targetBytes) (s.pruneDurable J io now targetEntries targetBytes).1 ∧
      (∀ n, (s.pruneDurable J io now targetEntries targetBytes).2 = .ok n →
        ∀ k ∈ s.pruneKeys J now targetEntries targetBytes,
          (s.pruneDurable J io now targetEntries targetBytes).1.entries.lookup k = none) ∧
      ((∀ k e, s.entries.lookup k = some e → io.append (.delete k e.txId) = .synced) →
        ∃ n, (s.pruneDurable J io now targetEntries targetBytes).2 = .ok n) := by
  unfold pruneDurable
  dsimp only
  set keys := s.pruneKeys J now targetEntries targetBytes with hkeys
  split_ifs with hnil
  · refine ⟨.nothing ⟨rfl, rfl, rfl, rfl⟩ rfl, fun _ _ k hk => ?_, fun _ => ⟨0, rfl⟩⟩
    rw [hnil] at hk
    exact absurd hk List.not_mem_nil
  · obtain ⟨hdel, hdone, hsync⟩ := deleteAll_spec (J := J) io (keys.mergeSort fun a b => a ≤ b) s
    rcases hres : deleteAll J io (keys.mergeSort fun a b => a ≤ b) s with ⟨s', q⟩
    rw [hres] at hdel hdone hsync
    have hdel' : Deleted J s keys s' :=
      ⟨fun k => (hdel.lookup k).imp_right fun h => ⟨List.mem_mergeSort.mp h.1, h.2⟩, hdel.live, hdel.config⟩
    cases q with
    | error e =>
      refine ⟨hdel', ?_, hsync⟩
      intro n hok
      cases hok
    | ok count =>
      dsimp only
      set pruned : Ledger := { s' with tupleLastTs := Table.keep (fun ts => decide (now ≤ ts)) s'.tupleLastTs }
      have hsame := maybeCompact_same (J := J) io.compactAfterPrune pruned
      refine ⟨⟨fun k => ?_, fun hs => ?_, hsame.config.trans hdel.config⟩, fun _ _ k hk => ?_, fun _ => ⟨count, rfl⟩⟩
      · rw [hsame.entries]
        exact hdel'.lookup k
      · unfold LiveExact
        rw [maybeCompact_liveBytes, hsame.entries]
        exact hdel.live hs
      · rw [hsame.entries]
        exact hdone count rfl k (List.mem_mergeSort.mpr hk)

/-! ### The plan -/

namespace Ledger

/-- Terminal, and past the retention window. -/
def aged (s : Ledger) (now : ℕ) (e : LedgerEntry) : Bool :=
  e.state.isTerminal && e.updatedAt + s.config.retentionSecs < now

/-- The entries that are neither aged nor among `gone`. -/
def remaining (s : Ledger) (now : ℕ) (gone : List LedgerEntry) : List LedgerEntry :=
  s.entries.values.filter fun e => !s.aged now e && !gone.contains e

def overflowVictims (s : Ledger) (removed : List Text) (targetEntries : ℕ) : List LedgerEntry :=
  if targetEntries < s.entries.values.length - removed.length then
    (s.terminalOutside removed).take (s.entries.values.length - removed.length - targetEntries)
  else []

def byteVictims (J : Json) (target : ℕ) : List LedgerEntry → ℕ → List LedgerEntry
  | [], _ => []
  | e :: es, left => if left ≤ target then [] else e :: byteVictims J target es (left - encodedUpsertLen J e)

/-- The terminal entries that the plan takes within the retention window, in its order. -/
def victims (J : Json) (s : Ledger) (now targetEntries targetBytes : ℕ) : List LedgerEntry :=
  let overflow := s.overflowVictims (s.agedKeys now) targetEntries
  let removed := s.agedKeys now ++ overflow.map (·.key)
  overflow ++ byteVictims J targetBytes (s.terminalOutside removed) (s.bytesAfter J removed)

/-- What makes `gone` a good choice: terminal entries in the retention window, oldest first, each of them taken while
the count or the bytes were still over their target. -/
structure Planned (J : Json) (s : Ledger) (now targetEntries targetBytes : ℕ) (gone : List LedgerEntry) : Prop where
  terminal : ∀ v ∈ gone, v ∈ s.entries.values ∧ v.state.isTerminal = true ∧ s.aged now v = false
  oldestFirst : gone.Pairwise fun a b => a.updatedAt ≤ b.updatedAt
  older : ∀ v ∈ gone, ∀ e ∈ s.remaining now gone, e.state.isTerminal = true → v.updatedAt ≤ e.updatedAt
  required : ∀ i < gone.length, targetEntries < (s.remaining now (gone.take i)).length ∨
    targetBytes < ((s.remaining now (gone.take i)).map (encodedUpsertLen J)).sum

end Ledger

theorem dropForBytes_eq (target : ℕ) : ∀ (l : List LedgerEntry) (left : ℕ),
    dropForBytes J target l left = (byteVictims J target l left).map (·.key)
  | [], _ => rfl
  | e :: es, left => by
    unfold dropForBytes byteVictims
    split_ifs
    · rfl
    · rw [List.map_cons, dropForBytes_eq target es]

theorem pruneKeys_eq (s : Ledger) (now targetEntries targetBytes : ℕ) :
    s.pruneKeys J now targetEntries targetBytes =
      s.agedKeys now ++ (s.victims J now targetEntries targetBytes).map (·.key) := by
  have hover : ∀ removed, s.overflowKeys removed targetEntries =
      (s.overflowVictims removed targetEntries).map (·.key) := by
    intro removed
    unfold overflowKeys overflowVictims
    split_ifs
    · rfl
    · rfl
  unfold pruneKeys victims
  dsimp only
  rw [dropForBytes_eq, hover, List.map_append, List.append_assoc]

/-- The last stage takes a first part of its list, and looks at the bytes before each entry. -/
theorem byteVictims_spec (target : ℕ) : ∀ (l : List LedgerEntry) (left : ℕ), ∃ n ≤ l.length,
    byteVictims J target l left = l.take n ∧
      ∀ i < n, target < left - ((l.take i).map (encodedUpsertLen J)).sum
  | [], _ => ⟨0, le_rfl, rfl, fun i hi => absurd hi (Nat.not_lt_zero i)⟩
  | e :: es, left => by
    unfold byteVictims
    split_ifs with hfits
    · exact ⟨0, Nat.zero_le _, rfl, fun i hi => absurd hi (Nat.not_lt_zero i)⟩
    · obtain ⟨n, hn, heq, hover⟩ := byteVictims_spec target es (left - encodedUpsertLen J e)
      refine ⟨n + 1, by simpa using hn, by rw [heq, List.take_succ_cons], fun i hi => ?_⟩
      cases i with
      | zero => simpa using hfits
      | succ i =>
        have hnext := hover i (by omega)
        rw [List.take_succ_cons, List.map_cons, List.sum_cons]
        omega

section Terminal

variable {s : Ledger} {removed : List Text}

theorem mem_terminalOutside {e : LedgerEntry} :
    e ∈ s.terminalOutside removed ↔ e ∈ s.entries.values ∧ e.state.isTerminal = true ∧ e.key ∉ removed := by
  unfold terminalOutside
  rw [List.mem_mergeSort, List.mem_filter]
  simp

theorem terminalOutside_sorted : (s.terminalOutside removed).Pairwise fun a b => a.updatedAt ≤ b.updatedAt := by
  have htrans : ∀ a b c : LedgerEntry, decide (a.updatedAt ≤ b.updatedAt) = true →
      decide (b.updatedAt ≤ c.updatedAt) = true → decide (a.updatedAt ≤ c.updatedAt) = true := by
    intro a b c hab hbc
    exact decide_eq_true ((of_decide_eq_true hab).trans (of_decide_eq_true hbc))
  have htotal : ∀ a b : LedgerEntry,
      (decide (a.updatedAt ≤ b.updatedAt) || decide (b.updatedAt ≤ a.updatedAt)) = true := by
    intro a b
    rcases Nat.le_total a.updatedAt b.updatedAt with h | h
    · rw [decide_eq_true h, Bool.true_or]
    · rw [decide_eq_true h, Bool.or_true]
  exact (List.pairwise_mergeSort htrans htotal _).imp fun h => of_decide_eq_true h

theorem Bound.values_unique (h : Bound s) {e e' : LedgerEntry} (he : e ∈ s.entries.values)
    (he' : e' ∈ s.entries.values) (hkey : e.key = e'.key) : e = e' := by
  obtain ⟨k, hk⟩ := Table.mem_values.mp he
  obtain ⟨k', hk'⟩ := Table.mem_values.mp he'
  rw [h.key k e hk, h.key k' e' hk'] at hkey
  rw [hkey, hk'] at hk
  exact (Option.some.inj hk).symm

theorem Bound.lookup_key (h : Bound s) {e : LedgerEntry} (he : e ∈ s.entries.values) :
    s.entries.lookup e.key = some e := by
  obtain ⟨k, hk⟩ := Table.mem_values.mp he
  rw [h.key k e hk]
  exact hk

theorem Bound.values_nodup (h : Bound s) : s.entries.values.Nodup := by
  refine Table.pairwise_values fun k k' v v' hne hv hv' => ?_
  rintro rfl
  exact hne ((h.key k v hv).symm.trans (h.key k' v hv'))

theorem Bound.terminalOutside_nodup (h : Bound s) : (s.terminalOutside removed).Nodup :=
  (List.mergeSort_perm _ _).nodup_iff.mpr (h.values_nodup.filter _)

theorem Bound.mem_agedKeys (h : Bound s) {now : ℕ} {e : LedgerEntry} (he : e ∈ s.entries.values) :
    e.key ∈ s.agedKeys now ↔ s.aged now e = true := by
  unfold agedKeys
  rw [List.mem_map]
  constructor
  · rintro ⟨e', he', hkey⟩
    obtain ⟨hmem, haged⟩ := List.mem_filter.mp he'
    rw [← h.values_unique hmem he hkey]
    exact haged
  · intro haged
    exact ⟨e, List.mem_filter.mpr ⟨he, haged⟩, rfl⟩

end Terminal

theorem mem_remaining {s : Ledger} {now : ℕ} {gone : List LedgerEntry} {e : LedgerEntry} :
    e ∈ s.remaining now gone ↔ e ∈ s.entries.values ∧ s.aged now e = false ∧ e ∉ gone := by
  simp only [remaining, List.mem_filter, Bool.and_eq_true, Bool.not_eq_true', List.contains_eq_mem,
    decide_eq_false_iff_not]

/-- Weights add up over the aged entries, the taken ones and the rest. -/
theorem remaining_sum {s : Ledger} (h : Bound s) (now : ℕ) {gone : List LedgerEntry} (hnodup : gone.Nodup)
    (hgone : ∀ v ∈ gone, v ∈ s.entries.values ∧ s.aged now v = false) (w : LedgerEntry → ℕ) :
    ((s.remaining now gone).map w).sum + (gone.map w).sum + ((s.entries.values.filter (s.aged now)).map w).sum =
      (s.entries.values.map w).sum := by
  have hsplit : (s.remaining now gone ++ gone ++ s.entries.values.filter (s.aged now)).Perm s.entries.values := by
    have hall : (s.remaining now gone ++ gone ++ s.entries.values.filter (s.aged now)).Nodup := by
      rw [List.nodup_append, List.nodup_append]
      refine ⟨⟨h.values_nodup.filter _, hnodup, ?_⟩, h.values_nodup.filter _, ?_⟩
      · rintro e he v hv rfl
        exact (mem_remaining.mp he).2.2 hv
      · rintro e he v hv rfl
        have haged := (List.mem_filter.mp hv).2
        rcases List.mem_append.mp he with he | he
        · rw [(mem_remaining.mp he).2.1] at haged
          cases haged
        · rw [(hgone e he).2] at haged
          cases haged
    rw [List.perm_ext_iff_of_nodup hall h.values_nodup]
    intro e
    rw [List.mem_append, List.mem_append, mem_remaining, List.mem_filter]
    constructor
    · rintro ((⟨he, -⟩ | he) | ⟨he, -⟩)
      · exact he
      · exact (hgone e he).1
      · exact he
    · intro he
      by_cases haged : s.aged now e = true
      · exact .inr ⟨he, haged⟩
      · by_cases hmem : e ∈ gone
        · exact .inl (.inr hmem)
        · exact .inl (.inl ⟨he, by simpa using haged, hmem⟩)
  have hsum := (hsplit.map w).sum_eq
  rw [List.map_append, List.map_append, List.sum_append, List.sum_append] at hsum
  exact hsum

section Plan

variable {s : Ledger} (h : Bound s) (now targetEntries targetBytes : ℕ)
include h

theorem mem_terminalOutside_aged {e : LedgerEntry} :
    e ∈ s.terminalOutside (s.agedKeys now) ↔
      e ∈ s.entries.values ∧ e.state.isTerminal = true ∧ s.aged now e = false := by
  rw [mem_terminalOutside]
  constructor
  · rintro ⟨he, hterminal, hkey⟩
    rw [h.mem_agedKeys he, Bool.not_eq_true] at hkey
    exact ⟨he, hterminal, hkey⟩
  · rintro ⟨he, hterminal, haged⟩
    refine ⟨he, hterminal, ?_⟩
    rw [h.mem_agedKeys he, haged]
    exact Bool.false_ne_true

omit h in
/-- The second stage takes a first part of its list, as long as the count asks for it. -/
theorem overflowVictims_spec (removed : List Text) : ∃ n, s.overflowVictims removed targetEntries =
      (s.terminalOutside removed).take n ∧
    ∀ i < (s.overflowVictims removed targetEntries).length,
      targetEntries < s.entries.values.length - removed.length - i := by
  unfold overflowVictims
  split_ifs with hcount
  · refine ⟨_, rfl, fun i hi => ?_⟩
    rw [List.length_take] at hi
    omega
  · exact ⟨0, rfl, fun i hi => absurd hi (Nat.not_lt_zero i)⟩

/-- The third stage starts where the second stopped. -/
theorem mem_terminalOutside_next {n : ℕ} {e : LedgerEntry} :
    e ∈ s.terminalOutside (s.agedKeys now ++ ((s.terminalOutside (s.agedKeys now)).take n).map (·.key)) ↔
      e ∈ (s.terminalOutside (s.agedKeys now)).drop n := by
  have hnodup : (s.terminalOutside (s.agedKeys now)).Nodup := h.terminalOutside_nodup
  rw [mem_terminalOutside, List.mem_append, not_or]
  set first := s.terminalOutside (s.agedKeys now) with hfirst
  have hsplit : first.take n ++ first.drop n = first := List.take_append_drop n first
  constructor
  · rintro ⟨he, hterminal, haged, htaken⟩
    have hmem : e ∈ first := mem_terminalOutside.mpr ⟨he, hterminal, haged⟩
    rw [← hsplit] at hmem
    rcases List.mem_append.mp hmem with htake | hdrop
    · exact absurd (List.mem_map_of_mem htake) htaken
    · exact hdrop
  · intro hdrop
    obtain ⟨he, hterminal, haged⟩ := mem_terminalOutside.mp (List.mem_of_mem_drop hdrop)
    refine ⟨he, hterminal, haged, fun htaken => ?_⟩
    obtain ⟨v, hv, hkey⟩ := List.mem_map.mp htaken
    have hvalue := (mem_terminalOutside.mp (List.mem_of_mem_take hv)).1
    rw [h.values_unique hvalue he hkey] at hv
    rw [← hsplit, List.nodup_append] at hnodup
    exact hnodup.2.2 e hv e hdrop rfl

/-- The bytes the third stage starts from. -/
theorem bytesAfter_eq (hlive : LiveExact J s) {gone : List LedgerEntry}
    (hgone : ∀ v ∈ gone, v ∈ s.entries.values) :
    s.bytesAfter J (s.agedKeys now ++ gone.map (·.key)) = (s.entries.values.map (encodedUpsertLen J)).sum -
      (((s.entries.values.filter (s.aged now)).map (encodedUpsertLen J)).sum +
          (gone.map (encodedUpsertLen J)).sum) := by
  have hsizes : ∀ l : List LedgerEntry, (∀ v ∈ l, v ∈ s.entries.values) →
      (l.map (·.key)).map (fun key => ((s.entries.lookup key).map (encodedUpsertLen J)).getD 0) =
        l.map (encodedUpsertLen J) := by
    intro l hl
    rw [List.map_map]
    refine List.map_congr_left fun v hv => ?_
    rw [Function.comp_apply, h.lookup_key (hl v hv)]
    rfl
  have haged : s.agedKeys now = (s.entries.values.filter (s.aged now)).map (·.key) := rfl
  unfold bytesAfter
  rw [List.map_append, List.sum_append, haged, hsizes _ fun v hv => (List.mem_filter.mp hv).1, hsizes _ hgone, hlive]
  rfl

omit h in
/-- The plan is a first part of the second stage's list and a first part of the third's. -/
theorem victims_eq : ∃ m n, s.victims J now targetEntries targetBytes =
      (s.terminalOutside (s.agedKeys now)).take m ++
        (s.terminalOutside (s.agedKeys now ++ ((s.terminalOutside (s.agedKeys now)).take m).map (·.key))).take n ∧
    (∀ i < ((s.terminalOutside (s.agedKeys now)).take m).length,
      targetEntries < s.entries.values.length - (s.agedKeys now).length - i) ∧
    ∀ i < n, targetBytes < s.bytesAfter J (s.agedKeys now ++ ((s.terminalOutside (s.agedKeys now)).take m).map
        (·.key)) -
      (((s.terminalOutside (s.agedKeys now ++ ((s.terminalOutside (s.agedKeys now)).take m).map (·.key))).take i).map
        (encodedUpsertLen J)).sum := by
  obtain ⟨m, hoverflow, hcount⟩ := overflowVictims_spec (s := s) targetEntries (s.agedKeys now)
  rw [hoverflow] at hcount
  obtain ⟨n, -, hbytes, hover⟩ := byteVictims_spec (J := J) targetBytes
    (s.terminalOutside (s.agedKeys now ++ ((s.terminalOutside (s.agedKeys now)).take m).map (·.key)))
    (s.bytesAfter J (s.agedKeys now ++ ((s.terminalOutside (s.agedKeys now)).take m).map (·.key)))
  refine ⟨m, n, ?_, hcount, hover⟩
  unfold victims
  dsimp only
  rw [hoverflow, hbytes]

/-- The plan of the code is a good one. -/
theorem victims_planned (hlive : LiveExact J s) :
    s.Planned J now targetEntries targetBytes (s.victims J now targetEntries targetBytes) := by
  obtain ⟨m, n, hvictims, hcount, hbytes⟩ := victims_eq (J := J) (s := s) now targetEntries targetBytes
  have hmem := fun e => mem_terminalOutside_aged (s := s) h now (e := e)
  have hnext := fun e => mem_terminalOutside_next (s := s) h now (n := m) (e := e)
  have hnodup : (s.terminalOutside (s.agedKeys now)).Nodup := h.terminalOutside_nodup
  have hsorted : (s.terminalOutside (s.agedKeys now)).Pairwise fun a b => a.updatedAt ≤ b.updatedAt :=
    terminalOutside_sorted
  set first := s.terminalOutside (s.agedKeys now) with hfirst
  set second := s.terminalOutside (s.agedKeys now ++ (first.take m).map (·.key)) with hsecond
  have hsplit : first.take m ++ first.drop m = first := List.take_append_drop m first
  -- everything taken comes from the second stage's list
  have hfrom : ∀ v ∈ s.victims J now targetEntries targetBytes, v ∈ first := by
    intro v hv
    rw [hvictims] at hv
    rcases List.mem_append.mp hv with hv | hv
    · exact List.mem_of_mem_take hv
    · exact List.mem_of_mem_drop ((hnext v).mp (List.mem_of_mem_take hv))
  have hcross : ∀ v ∈ first.take m, ∀ e ∈ first.drop m, v.updatedAt ≤ e.updatedAt ∧ v ≠ e := by
    intro v hv e he
    rw [← hsplit] at hsorted hnodup
    exact ⟨(List.pairwise_append.mp hsorted).2.2 v hv e he, (List.nodup_append.mp hnodup).2.2 v hv e he⟩
  have hsecondSorted : second.Pairwise fun a b => a.updatedAt ≤ b.updatedAt := terminalOutside_sorted
  have hallNodup : (s.victims J now targetEntries targetBytes).Nodup := by
    rw [hvictims, List.nodup_append]
    refine ⟨hnodup.take, (h.terminalOutside_nodup : second.Nodup).take, fun v hv e he => ?_⟩
    exact (hcross v hv e ((hnext e).mp (List.mem_of_mem_take he))).2
  refine ⟨fun v hv => (hmem v).mp (hfrom v hv), ?_, ?_, ?_⟩
  · rw [hvictims, List.pairwise_append]
    refine ⟨hsorted.take, hsecondSorted.take, fun v hv e he => ?_⟩
    exact (hcross v hv e ((hnext e).mp (List.mem_of_mem_take he))).1
  · intro v hv e he hterminal
    obtain ⟨hvalue, haged, hout⟩ := mem_remaining.mp he
    rw [hvictims, List.mem_append, not_or] at hout
    have hdrop : e ∈ first.drop m := by
      have hin : e ∈ first := (hmem e).mpr ⟨hvalue, hterminal, haged⟩
      rw [← hsplit] at hin
      exact (List.mem_append.mp hin).resolve_left hout.1
    rw [hvictims] at hv
    rcases List.mem_append.mp hv with hv | hv
    · exact (hcross v hv e hdrop).1
    · have hin : e ∈ second := (hnext e).mpr hdrop
      rw [← List.take_append_drop n second] at hin hsecondSorted
      exact (List.pairwise_append.mp hsecondSorted).2.2 v hv e ((List.mem_append.mp hin).resolve_left hout.2)
  · intro i hi
    have htake : ∀ v ∈ (s.victims J now targetEntries targetBytes).take i,
        v ∈ s.entries.values ∧ s.aged now v = false := by
      intro v hv
      obtain ⟨hvalue, -, haged⟩ := (hmem v).mp (hfrom v (List.mem_of_mem_take hv))
      exact ⟨hvalue, haged⟩
    have hweights := remaining_sum h now hallNodup.take htake
    rcases Nat.lt_or_ge i (first.take m).length with hearly | hlate
    · left
      have hones := hweights fun _ => 1
      have hneeded := hcount i hearly
      have haged : (s.agedKeys now).length = (s.entries.values.filter (s.aged now)).length := List.length_map _
      simp only [List.map_const', List.sum_replicate, smul_eq_mul, mul_one, List.length_take] at hones
      omega
    · right
      have hsizes := hweights (encodedUpsertLen J)
      rw [hvictims, List.length_append] at hi
      have hlast : (second.take n).length ≤ n := List.length_take_le n second
      have hneeded := hbytes (i - (first.take m).length) (by omega)
      rw [bytesAfter_eq h now hlive fun v hv => ((hmem v).mp (List.mem_of_mem_take hv)).1] at hneeded
      have hfront : (s.victims J now targetEntries targetBytes).take i =
          first.take m ++ second.take (i - (first.take m).length) := by
        rw [hvictims, List.take_append, List.take_of_length_le hlate, List.take_take]
        congr 2
        omega
      rw [hfront] at hsizes ⊢
      rw [List.map_append, List.sum_append] at hsizes
      omega

end Plan

/-! ### What `record` leaves -/

section Record

variable {s t : Ledger} {io : Io} {idempotencyKey : Option Text} {txId : Text} {now : ℕ}

/-- The ledger after the prune that makes room for `entry`. -/
def roomFor (J : Json) (io : Io) (s : Ledger) (entry : LedgerEntry) (now : ℕ) : Outcome ℕ :=
  ((s.refreshExpiry now).recalculateLiveBytes J).pruneDurable J io now (s.config.maxEntries - 1)
    (s.config.maxLiveBytes - encodedUpsertLen J entry)

theorem makeRoom_shape (io : Io) (s : Ledger) (entry : LedgerEntry) (now : ℕ) :
    let prepared := (s.refreshExpiry now).recalculateLiveBytes J
    let out := prepared.makeRoom J io entry now
    (out.1 = prepared ∧ ∃ e, out.2 = .error e) ∨
      (out.1 = (roomFor J io s entry now).1 ∧ ∃ e, out.2 = .error e) ∨
      out = ((roomFor J io s entry now).1, .ok ()) ∧ encodedUpsertLen J entry ≤ s.config.maxLiveBytes ∧
        (roomFor J io s entry now).1.entries.values.length < s.config.maxEntries ∧
        (roomFor J io s entry now).1.liveBytes ≤ s.config.maxLiveBytes - encodedUpsertLen J entry := by
  intro prepared out
  have hconfig : prepared.config = s.config := rfl
  have hout : out = prepared.makeRoom J io entry now := rfl
  unfold makeRoom at hout
  rw [hconfig] at hout
  have hroom : prepared.pruneDurable J io now (s.config.maxEntries - 1)
      (s.config.maxLiveBytes - encodedUpsertLen J entry) = roomFor J io s entry now := rfl
  dsimp only at hout
  rw [hroom] at hout
  split_ifs at hout with hbig
  · exact .inl ⟨congrArg Prod.fst hout, _, congrArg Prod.snd hout⟩
  · rcases hres : roomFor J io s entry now with ⟨u, q⟩
    rw [hres] at hout
    cases q with
    | error e => exact .inr (.inl ⟨congrArg Prod.fst hout, e, congrArg Prod.snd hout⟩)
    | ok n =>
      dsimp only at hout
      split_ifs at hout with hcount hbytes
      · exact .inr (.inl ⟨congrArg Prod.fst hout, _, congrArg Prod.snd hout⟩)
      · exact .inr (.inl ⟨congrArg Prod.fst hout, _, congrArg Prod.snd hout⟩)
      · exact .inr (.inr ⟨hout, by omega, by simpa using hcount, by simpa using hbytes⟩)

/-- A call on a free key leaves the ledger alone, or refreshes it, or prunes it, or adds the entry it made room for. -/
theorem record_shape (io : Io) (tuple : PaymentTuple) (timestamp : ℕ) (signedTx : Option Text) (now : ℕ)
    (hnew : s.entries.lookup (primaryKey idempotencyKey txId) = none) :
    let entry := newEntry idempotencyKey tuple timestamp txId signedTx now
    let out := s.record J io idempotencyKey tuple timestamp txId signedTx now
    let room := (roomFor J io s entry now).1
    (out.1.entries = s.entries ∧ ∃ e, out.2 = .error e) ∨
      (out.1.entries = (s.refreshExpiry now).entries ∧ ∃ e, out.2 = .error e) ∨
      (out.1.entries = room.entries ∧ ∃ e, out.2 = .error e) ∨
      out.1.entries = room.entries.insert entry.key entry ∧ encodedUpsertLen J entry ≤ s.config.maxLiveBytes ∧
        room.entries.values.length < s.config.maxEntries ∧
        room.liveBytes ≤ s.config.maxLiveBytes - encodedUpsertLen J entry := by
  intro entry out room
  have hout : out = s.record J io idempotencyKey tuple timestamp txId signedTx now := rfl
  unfold record at hout
  dsimp only at hout
  rw [hnew] at hout
  dsimp only at hout
  split_ifs at hout with hown
  · exact .inl ⟨congrArg (·.1.entries) hout, _, congrArg Prod.snd hout⟩
  · have hshape := makeRoom_shape (J := J) io s entry now
    dsimp only at hshape
    have hentry : newEntry idempotencyKey tuple timestamp txId signedTx now = entry := rfl
    rw [hentry] at hout
    rcases hmake : ((s.refreshExpiry now).recalculateLiveBytes J).makeRoom J io entry now with ⟨t, q⟩
    rw [hmake] at hout hshape
    rcases hshape with ⟨ht, e, hq⟩ | ⟨ht, e, hq⟩ | ⟨hok, hfits, hcount, hbytes⟩
    · cases hq
      refine .inr (.inl ⟨?_, e, congrArg Prod.snd hout⟩)
      have htaken : t = (s.refreshExpiry now).recalculateLiveBytes J := ht
      rw [hout, htaken]
      rfl
    · cases hq
      refine .inr (.inr (.inl ⟨?_, e, congrArg Prod.snd hout⟩))
      have htaken : t = room := ht
      rw [hout, htaken]
    · cases hok
      dsimp only [commitEntry] at hout
      rcases happ : (roomFor J io s entry now).1.append J io (.upsert entry) with ⟨u, q⟩
      have hsame := append_same happ
      rw [happ] at hout
      cases q with
      | error e =>
        refine .inr (.inr (.inl ⟨?_, e, congrArg Prod.snd hout⟩))
        rw [hout]
        exact hsame.entries
      | ok x =>
        refine .inr (.inr (.inr ⟨?_, hfits, hcount, hbytes⟩))
        rw [hout]
        dsimp only
        rw [(maybeCompact_same (J := J) io.compact (u.indexEntry J entry)).entries]
        change u.entries.insert entry.key entry = _
        rw [hsame.entries]

/-- An entry of `t` that `u` no longer has. -/
def Removed (t u : Ledger) (e : LedgerEntry) : Prop := e ∈ t.entries.values ∧ u.entries.lookup e.key = none

/-- What a call of `record` with a new entry `entry` may do to the entries of `t`, the refreshed ledger. -/
structure CapacityKept (J : Json) (io : Io) (t : Ledger) (now : ℕ) (entry : LedgerEntry) (out : Outcome LedgerEntry) :
    Prop where
  capacity : ∀ e, out.2 = .ok e → out.1.entries.values.length ≤ t.config.maxEntries ∧
    Table.total (encodedUpsertLen J) out.1.entries ≤ t.config.maxLiveBytes
  unfinished : ∀ e, Removed t out.1 e → e.state.isTerminal = true
  plan : ∃ gone, t.Planned J now (t.config.maxEntries - 1) (t.config.maxLiveBytes - encodedUpsertLen J entry) gone ∧
    (∀ e, Removed t out.1 e → t.aged now e = true ∨ e ∈ gone) ∧
    ((∀ e ∈ t.entries.values, io.append (.delete e.key e.txId) = .synced) →
      ∀ v e, Removed t out.1 v → t.aged now v = false → e ∈ t.entries.values → e.state.isTerminal = true →
        e.updatedAt < v.updatedAt → Removed t out.1 e)

theorem lookup_refreshExpiry_none {k : Text} :
    (s.refreshExpiry now).entries.lookup k = none ↔ s.entries.lookup k = none := by
  unfold refreshExpiry
  dsimp only
  rw [Table.lookup_mapValues, Option.map_eq_none_iff]

theorem Bound.not_removed (hb : Bound t) {u : Ledger} {e : LedgerEntry}
    (hsame : ∀ k, u.entries.lookup k = none → t.entries.lookup k = none) : ¬ Removed t u e := by
  rintro ⟨he, hnone⟩
  have hkey := hsame e.key hnone
  rw [hb.lookup_key he] at hkey
  cases hkey

/-- The pruned ledger, against the plan. -/
theorem roomFor_spec (hb : Bound s) (io : Io) (entry : LedgerEntry) (now : ℕ) :
    let t := s.refreshExpiry now
    let gone := (t.recalculateLiveBytes J).victims J now (s.config.maxEntries - 1)
      (s.config.maxLiveBytes - encodedUpsertLen J entry)
    t.Planned J now (s.config.maxEntries - 1) (s.config.maxLiveBytes - encodedUpsertLen J entry) gone ∧
      LiveExact J (roomFor J io s entry now).1 ∧
      (∀ e, Removed t (roomFor J io s entry now).1 e → t.aged now e = true ∨ e ∈ gone) ∧
      ((∀ e ∈ t.entries.values, io.append (.delete e.key e.txId) = .synced) →
        ∀ e ∈ t.entries.values, t.aged now e = true ∨ e ∈ gone → Removed t (roomFor J io s entry now).1 e) := by
  intro t gone
  set p := t.recalculateLiveBytes J with hp
  have hbp : Bound p := hb.prepared now
  have hexact : LiveExact J p := rfl
  obtain ⟨hdel, hdone, hsync⟩ := pruneDurable_spec (J := J) io p now (s.config.maxEntries - 1)
    (s.config.maxLiveBytes - encodedUpsertLen J entry)
  have hroom : p.pruneDurable J io now (s.config.maxEntries - 1) (s.config.maxLiveBytes - encodedUpsertLen J entry) =
      roomFor J io s entry now := rfl
  rw [hroom, pruneKeys_eq] at hdel hdone
  rw [hroom] at hsync
  have hplan := victims_planned (J := J) hbp now (s.config.maxEntries - 1)
    (s.config.maxLiveBytes - encodedUpsertLen J entry) hexact
  -- a key is planned exactly when its entry is aged or a victim
  have hkeys : ∀ e ∈ t.entries.values, e.key ∈ p.agedKeys now ++ gone.map (·.key) ↔ t.aged now e = true ∨ e ∈ gone := by
    intro e he
    have haged : e.key ∈ p.agedKeys now ↔ t.aged now e = true := hbp.mem_agedKeys he
    rw [List.mem_append, haged]
    refine or_congr_right ⟨fun hmem => ?_, fun hmem => List.mem_map_of_mem hmem⟩
    obtain ⟨v, hv, hkey⟩ := List.mem_map.mp hmem
    rw [← hbp.values_unique (hplan.terminal v hv).1 he hkey]
    exact hv
  refine ⟨⟨hplan.terminal, hplan.oldestFirst, hplan.older, hplan.required⟩, hdel.live hexact, ?_, ?_⟩
  · rintro e ⟨he, hnone⟩
    rcases hdel.lookup e.key with heq | ⟨hmem, -⟩
    · rw [hnone, hbp.lookup_key he] at heq
      cases heq
    · exact (hkeys e he).mp hmem
  · intro hio e he hplanned
    have hall : ∀ k x, p.entries.lookup k = some x → io.append (.delete k x.txId) = .synced := by
      intro k x hx
      rw [← hbp.key k x hx]
      exact hio x (Table.mem_values.mpr ⟨k, hx⟩)
    obtain ⟨n, hn⟩ := hsync hall
    exact ⟨he, hdone n hn e.key ((hkeys e he).mpr hplanned)⟩

/-- Whatever has the lookups of the pruned ledger keeps to the plan. -/
theorem CapacityKept.of_room (hb : Bound s) {entry : LedgerEntry} {out : Outcome LedgerEntry}
    (hremoved : ∀ e, Removed (s.refreshExpiry now) out.1 e ↔
      Removed (s.refreshExpiry now) (roomFor J io s entry now).1 e)
    (hcapacity : ∀ e, out.2 = .ok e → out.1.entries.values.length ≤ s.config.maxEntries ∧
      Table.total (encodedUpsertLen J) out.1.entries ≤ s.config.maxLiveBytes) :
    CapacityKept J io (s.refreshExpiry now) now entry out := by
  obtain ⟨hplan, -, hin, hall⟩ := roomFor_spec (J := J) hb io entry now
  refine ⟨hcapacity, ?_, _, hplan, ?_, ?_⟩
  · intro e he
    rcases hin e ((hremoved e).mp he) with haged | hmem
    · exact (Bool.and_eq_true_iff.mp haged).1
    · exact (hplan.terminal e hmem).2.1
  · intro e he
    exact hin e ((hremoved e).mp he)
  · intro hio v e hv hfresh he hterminal holder
    have hgone := (hin v ((hremoved v).mp hv)).resolve_left (by rw [hfresh]; exact Bool.false_ne_true)
    refine (hremoved e).mpr (hall hio e he ?_)
    -- an older terminal entry that stayed would contradict the order of the plan
    by_contra hstays
    rw [not_or, Bool.not_eq_true] at hstays
    have hle := hplan.older v hgone e (mem_remaining.mpr ⟨he, hstays.1, hstays.2⟩) hterminal
    omega

/-- Nothing removed keeps to any plan. -/
theorem CapacityKept.of_untouched (hb : Bound s) {entry : LedgerEntry} {out : Outcome LedgerEntry}
    (hsame : ∀ k, out.1.entries.lookup k = none → (s.refreshExpiry now).entries.lookup k = none)
    (herror : ∃ e, out.2 = .error e) : CapacityKept J io (s.refreshExpiry now) now entry out := by
  have hbt : Bound (s.refreshExpiry now) := hb.refreshExpiry now
  obtain ⟨hplan, -, -, -⟩ := roomFor_spec (J := J) hb io entry now
  refine ⟨?_, fun e he => absurd he (hbt.not_removed hsame), _, hplan, fun e he => absurd he (hbt.not_removed hsame),
    fun _ v _ hv => absurd hv (hbt.not_removed hsame)⟩
  intro e hok
  obtain ⟨e', he'⟩ := herror
  rw [he'] at hok
  cases hok

end Record

/-- **Main result.** In every reachable ledger, whatever the file system does: an entry that `record` reports as written
stands within both capacities; only terminal entries were removed to make room for it; those of them inside the
retention window stood in a plan that takes the oldest first and stops at the targets, and unless a delete could not be
written, no older one was left standing. -/
theorem record_keeps_capacity {config : LedgerConfig} {file : Option Bytes} {s₀ s : Ledger}
    {tr : List (Ledger × LedgerEvent)} (hload : load J config file = .ok s₀) (hrun : LedgerRun J s₀ tr s) (io : Io)
    (idempotencyKey : Option Text) (tuple : PaymentTuple) (timestamp : ℕ) (txId : Text) (signedTx : Option Text)
    (now : ℕ) (hnew : s.entries.lookup (primaryKey idempotencyKey txId) = none) :
    CapacityKept J io (s.refreshExpiry now) now (newEntry idempotencyKey tuple timestamp txId signedTx now)
      (s.record J io idempotencyKey tuple timestamp txId signedTx now) := by
  have hb : Bound s := run_bound (load_bound hload) hrun
  have herror : ∀ out : Outcome LedgerEntry, (∃ e, out.2 = .error e) → ∀ e, out.2 ≠ .ok e := by
    rintro out ⟨e', he'⟩ e hok
    rw [he'] at hok
    cases hok
  have hshape := record_shape (J := J) io tuple timestamp signedTx now hnew
  dsimp only at hshape
  set entry := newEntry idempotencyKey tuple timestamp txId signedTx now with hentry
  set out := s.record J io idempotencyKey tuple timestamp txId signedTx now with hout
  rcases hshape with ⟨hsame, hfail⟩ | ⟨hsame, hfail⟩ | ⟨hsame, hfail⟩ | ⟨hadded, hfits, hcount, hbytes⟩
  · refine .of_untouched hb (fun k hk => ?_) hfail
    rw [hsame] at hk
    exact lookup_refreshExpiry_none.mpr hk
  · refine .of_untouched hb (fun k hk => ?_) hfail
    rw [hsame] at hk
    exact hk
  · refine .of_room hb (fun e => ?_) fun e hok => absurd hok (herror out hfail e)
    unfold Removed
    rw [hsame]
  · obtain ⟨-, hexact, -, -⟩ := roomFor_spec (J := J) hb io entry now
    have hfree : (roomFor J io s entry now).1.entries.lookup entry.key = none := by
      have hprepared : ((s.refreshExpiry now).recalculateLiveBytes J).entries.lookup entry.key = none :=
        lookup_refreshExpiry_none.mpr hnew
      exact (pruneDurable_spec io _ _ _ _).1.none hprepared
    refine .of_room hb (fun e => ?_) fun e _ => ?_
    · unfold Removed
      rw [hadded, Table.lookup_insert_ite]
      refine and_congr_right fun he => ?_
      have hother : e.key ≠ entry.key := by
        intro hkey
        have hfound := (hb.refreshExpiry now).lookup_key he
        have hnone : (s.refreshExpiry now).entries.lookup entry.key = none := lookup_refreshExpiry_none.mpr hnew
        rw [hkey, hnone] at hfound
        cases hfound
      rw [if_neg hother]
    · have hlength : out.1.entries.values.length = (roomFor J io s entry now).1.entries.values.length + 1 := by
        unfold Table.values
        rw [List.length_map, List.length_map, hadded, Table.length_insert _ hfree]
      rw [hlength, hadded, Table.total_insert _ _ hfree, ← hexact]
      omega

namespace Sample

/-- Room for two small entries, or for one with a long transaction. -/
def small : LedgerConfig := { LedgerConfig.default with maxLiveBytes := 5000 }

def reserved : Ledger :=
  (perform toyJson .fine (perform toyJson .fine (opened small) (reserve 'a' 5 't' 5)).1 (reserve 'b' 6 'u' 6)).1

/-- Two confirmed payments, `b` before `a`. -/
def confirmed : Ledger :=
  (perform toyJson .fine (perform toyJson .fine reserved (.updateState ['u'] (.confirmed 1) 10)).1
    (.updateState ['t'] (.confirmed 1) 20)).1

def newer : LedgerEntry := { newEntry (some ['a']) tuple 5 ['t'] none 5 with state := .confirmed 1, updatedAt := 20 }
def older : LedgerEntry := { newEntry (some ['b']) tuple 6 ['u'] none 6 with state := .confirmed 1, updatedAt := 10 }

/-- The file takes every line but the one that deletes `b`. -/
def failsOnB : Io := ⟨fun r => if r = .delete older.key ['u'] then .failed 0 else .synced, .replaced, .replaced⟩

theorem confirmed_reached : ∃ tr, LedgerRun toyJson (opened small) tr confirmed :=
  ⟨_, .cons (.call _ .fine (reserve 'a' 5 't' 5)) (.cons (.call _ .fine (reserve 'b' 6 'u' 6))
    (.cons (.call _ .fine (.updateState ['u'] (.confirmed 1) 10))
      (.single (.call _ .fine (.updateState ['t'] (.confirmed 1) 20)))))⟩

/-- The payment that needs the room of both. -/
def long : LedgerEntry := newEntry (some ['c']) tuple 7 ['v'] (some (List.replicate 23 'x')) 30

def prepared : Ledger := (confirmed.refreshExpiry 30).recalculateLiveBytes toyJson

theorem mergeSort_pair {α : Type} {le : α → α → Bool} {a b : α} :
    [a, b].mergeSort le = if le a b then [a, b] else [b, a] := by
  simp [List.mergeSort, List.MergeSort.Internal.splitInTwo, List.merge]

/-- What is known of the ledger and of the long payment, evaluated once. -/
theorem sample_facts :
    prepared.entries.values = [newer, older] ∧
      (([newer, older].filter fun e => e.state.isTerminal && e.updatedAt + prepared.config.retentionSecs < 30).map
        (·.key)) = [] ∧
      prepared.config.maxEntries = 100000 ∧
      dropForBytes toyJson (prepared.config.maxLiveBytes - encodedUpsertLen toyJson long) [older, newer]
        (prepared.bytesAfter toyJson []) = [older.key, newer.key] ∧
      (deleteAll toyJson failsOnB [newer.key, older.key] prepared).2 = .error .other ∧
      ¬ prepared.config.maxLiveBytes < encodedUpsertLen toyJson long ∧
      confirmed.entries.lookup (primaryKey (some ['c']) ['v']) = none ∧
      ¬ (confirmed.txIndex.lookup ['v']).any (· ≠ primaryKey (some ['c']) ['v']) = true := by
  decide +kernel

theorem prepared_values : prepared.entries.values = [newer, older] := sample_facts.1

theorem prepared_plan : prepared.pruneKeys toyJson 30 (prepared.config.maxEntries - 1)
    (prepared.config.maxLiveBytes - encodedUpsertLen toyJson long) = [older.key, newer.key] := by
  obtain ⟨-, hold, hentries, hdrop, -⟩ := sample_facts
  have haged : prepared.agedKeys 30 = [] := by
    unfold agedKeys
    rw [prepared_values]
    exact hold
  have hoverflow : prepared.overflowKeys [] (prepared.config.maxEntries - 1) = [] := by
    unfold overflowKeys
    rw [prepared_values, hentries]
    rfl
  have hterminal : prepared.terminalOutside [] = [older, newer] := by
    have hfilter : [newer, older].filter (fun e => e.state.isTerminal && !([] : List Text).contains e.key) =
        [newer, older] := by decide +kernel
    unfold terminalOutside
    rw [prepared_values, hfilter, mergeSort_pair]
    rfl
  unfold pruneKeys
  dsimp only
  rw [haged, hoverflow, List.append_nil, hterminal, List.nil_append]
  exact hdrop

/-- The delete of `a` is written, that of `b` is not. -/
theorem record_fails_on_b :
    confirmed.record toyJson failsOnB (some ['c']) tuple 7 ['v'] (some (List.replicate 23 'x')) 30 =
    ((deleteAll toyJson failsOnB [newer.key, older.key] prepared).1, .error .other) := by
  have hsorted : [older.key, newer.key].mergeSort (fun a b => decide (a ≤ b)) = [newer.key, older.key] := by
    have hle : decide (older.key ≤ newer.key) = false := by decide +kernel
    rw [mergeSort_pair, hle]
    rfl
  obtain ⟨-, -, -, -, hfails, hfits, hnew, hown⟩ := sample_facts
  have hprune : prepared.pruneDurable toyJson failsOnB 30 (prepared.config.maxEntries - 1)
      (prepared.config.maxLiveBytes - encodedUpsertLen toyJson long) =
        ((deleteAll toyJson failsOnB [newer.key, older.key] prepared).1, .error .other) := by
    unfold pruneDurable
    dsimp only
    rw [prepared_plan, if_neg (List.cons_ne_nil _ _), hsorted]
    rcases hd : deleteAll toyJson failsOnB [newer.key, older.key] prepared with ⟨u, q⟩
    rw [hd] at hfails
    cases hfails
    rfl
  have hmake : ((confirmed.refreshExpiry 30).recalculateLiveBytes toyJson).makeRoom toyJson failsOnB
      (newEntry (some ['c']) tuple 7 ['v'] (some (List.replicate 23 'x')) 30) 30 =
      ((deleteAll toyJson failsOnB [newer.key, older.key] prepared).1, .error .other) := by
    have hroom : prepared.makeRoom toyJson failsOnB long 30 =
        ((deleteAll toyJson failsOnB [newer.key, older.key] prepared).1, .error .other) := by
      unfold makeRoom
      dsimp only
      rw [if_neg hfits, hprune]
    exact hroom
  unfold record
  dsimp only
  rw [hnew]
  dsimp only
  rw [if_neg hown, hmake]

end Sample

open Sample in
/-- A long transaction finds its room. -/
theorem long_transaction_fits : confirmed.entries.lookup (primaryKey (some ['c']) ['v']) = none ∧
    CapacityKept toyJson .fine (confirmed.refreshExpiry 30) 30
      (newEntry (some ['c']) tuple 7 ['v'] (some (List.replicate 23 'x')) 30)
      (confirmed.record toyJson .fine (some ['c']) tuple 7 ['v'] (some (List.replicate 23 'x')) 30) := by
  have hnew : confirmed.entries.lookup (primaryKey (some ['c']) ['v']) = none := by decide +kernel
  obtain ⟨tr, hrun⟩ := confirmed_reached
  have hload : load toyJson small none = .ok (opened small) := rfl
  exact ⟨hnew, record_keeps_capacity hload hrun .fine _ _ _ _ _ _ hnew⟩

open Sample in
/-- Deletes go in the order of the keys, so one that cannot be written may leave an older entry standing where a newer
one has gone. -/
theorem newer_goes_older_stays : (∃ tr, LedgerRun toyJson (opened small) tr confirmed) ∧
    let t := confirmed.refreshExpiry 30
    let out := confirmed.record toyJson failsOnB (some ['c']) tuple 7 ['v'] (some (List.replicate 23 'x')) 30
    (newer ∈ t.entries.values ∧ t.aged 30 newer = false ∧ out.1.entries.lookup newer.key = none) ∧
      (older ∈ t.entries.values ∧ t.aged 30 older = false ∧ out.1.entries.lookup older.key = some older) ∧
      newer.state.isTerminal = true ∧ older.state.isTerminal = true ∧ older.updatedAt < newer.updatedAt := by
  have hvalues : (confirmed.refreshExpiry 30).entries.values = [newer, older] := prepared_values
  refine ⟨confirmed_reached, ⟨?_, by decide +kernel, ?_⟩, ⟨?_, by decide +kernel, ?_⟩, rfl, rfl, by decide⟩
  · rw [hvalues]
    exact List.mem_cons_self
  · rw [record_fails_on_b]
    decide +kernel
  · rw [hvalues]
    exact List.mem_cons_of_mem _ List.mem_cons_self
  · rw [record_fails_on_b]
    decide +kernel

end Alphanumeric.PaymentLedger
