/-
# The exact transaction deduper

A transaction body is claimed before it is verified, so that no two tasks verify the
same bytes. Three structures hold the answer: the accepted keys, a bounded FIFO set
behind a lock; the keys in flight, a concurrent map from key to claim id; and an
atomic count of the slots in flight. `claim`, `commit`, the drop of a claim and
`mark_accepted` update them one after the other, and between any two updates other
tasks may run. A task is its program counter, a step is one update, and the history
records what happened to the keys.

Claim ids and byte estimates are `ℕ` (the source's `u64` and `usize`; neither is
exhausted by the claims a node can make).

Key definitions: `AcceptedTransactionKeys`, `ExactTransactionDeduper`, `ClaimTask`,
`DedupAction`, `DedupState.step`, `Accounted`.
Key theorems: `insert_within`, `step_owned`, `step_traced`, `deduper_accounted`.
-/
import Alphanumeric.Lib.Table
import Alphanumeric.Lib.Tasks
import Alphanumeric.Types

namespace Alphanumeric

/-! ### Accepted keys -/

def txDedupEstimatedEntryBytes : ℕ := 128

structure AcceptedTransactionKeys where
  entries : Finset Hash
  insertionOrder : List Hash
  estimatedBytes : ℕ
  maxEntries : ℕ
  byteBudget : ℕ

namespace AcceptedTransactionKeys

def new (maxEntries byteBudget : ℕ) : AcceptedTransactionKeys where
  entries := ∅
  insertionOrder := []
  estimatedBytes := 0
  maxEntries := max maxEntries 1
  byteBudget := max byteBudget txDedupEstimatedEntryBytes

/-- The `while` loop of `insert`: drop the oldest keys until both bounds hold. -/
def shrink (a : AcceptedTransactionKeys) : List Hash → Finset Hash → ℕ → AcceptedTransactionKeys
  | order, entries, bytes =>
    if a.maxEntries < entries.card ∨ a.byteBudget < bytes then
      match order with
      | [] => { a with entries := ∅, insertionOrder := [], estimatedBytes := 0 }
      | oldest :: order =>
        if oldest ∈ entries then a.shrink order (entries.erase oldest) (bytes - txDedupEstimatedEntryBytes)
        else a.shrink order entries bytes
    else { a with entries, insertionOrder := order, estimatedBytes := bytes }

def insert (a : AcceptedTransactionKeys) (key : Hash) : AcceptedTransactionKeys :=
  if key ∈ a.entries then a.shrink a.insertionOrder a.entries a.estimatedBytes
  else a.shrink (a.insertionOrder ++ [key]) (Insert.insert key a.entries)
    (a.estimatedBytes + txDedupEstimatedEntryBytes)

end AcceptedTransactionKeys

/-! ### The deduper and the tasks at it -/

structure ExactTransactionDeduper where
  accepted : AcceptedTransactionKeys
  inflight : Table Hash ℕ
  inflightCount : ℕ
  nextClaimId : ℕ
  maxInflight : ℕ

def ExactTransactionDeduper.new (maxEntries byteBudget maxInflight : ℕ) : ExactTransactionDeduper where
  accepted := .new maxEntries byteBudget
  inflight := ∅
  inflightCount := 0
  nextClaimId := 1
  maxInflight := max maxInflight 1

/-- The answers of `claim` that leave no guard behind. -/
inductive ClaimRefusal where
  | duplicateAccepted
  | duplicateInflight
  | saturated
deriving DecidableEq, Repr

/-- Where a task stands. -/
inductive ClaimTask where
  /-- `claim` found the key not accepted. -/
  | reserve (key : Hash)
  /-- It holds a slot. -/
  | takeId (key : Hash)
  | enter (key : Hash) (claimId : ℕ)
  /-- It found the key in flight and gives the slot back. -/
  | undo
  /-- Its entry is in the map. -/
  | recheck (key : Hash) (claimId : ℕ)
  /-- A live `Claimed` guard. -/
  | held (key : Hash) (claimId : ℕ)
  /-- `release_claim` before its look at the map: of a redundant claim, a drop or a commit. -/
  | release (key : Hash) (claimId : ℕ)
  /-- `mark_accepted` before its removal. -/
  | unmark (key : Hash)
  /-- An entry is out of the map, the count not yet lowered. -/
  | decrement
  | refused (answer : ClaimRefusal)
  | finished
deriving DecidableEq, Repr

/-- What happened to a key. -/
inductive KeyEvent where
  | accepted (key : Hash)
  | evicted (key : Hash)
  /-- `claim` returned `Claimed`. -/
  | granted (key : Hash) (claimId : ℕ)
  /-- `mark_accepted` removed the entry of this claim. -/
  | displaced (key : Hash) (claimId : ℕ)
deriving DecidableEq, Repr

structure DedupState where
  deduper : ExactTransactionDeduper
  tasks : List ClaimTask
  history : List KeyEvent

inductive DedupAction where
  /-- Call `claim`. -/
  | claim (key : Hash)
  /-- Call `mark_accepted`. -/
  | markAccepted (key : Hash)
  /-- Commit the guard of the task in this place. -/
  | commit (i : ℕ)
  /-- Drop the guard of the task in this place. -/
  | dropGuard (i : ℕ)
  /-- The task in this place takes its next step. -/
  | advance (i : ℕ)
deriving DecidableEq, Repr

namespace DedupState

def start (maxEntries byteBudget maxInflight : ℕ) : DedupState :=
  ⟨.new maxEntries byteBudget maxInflight, [], []⟩

/-- `accepted.lock().insert(key)`. -/
def acceptKey (s : DedupState) (key : Hash) : DedupState :=
  let before := s.deduper.accepted
  let after := before.insert key
  { s with
    deduper := { s.deduper with accepted := after }
    history := s.history ++ .accepted key ::
      ((before.insertionOrder ++ [key]).filter fun k => k ∉ after.entries).map .evicted }

def goTo (s : DedupState) (i : ℕ) (t : ClaimTask) : DedupState := { s with tasks := s.tasks.set i t }

def setInflight (s : DedupState) (inflight : Table Hash ℕ) : DedupState :=
  { s with deduper := { s.deduper with inflight } }

def setCount (s : DedupState) (count : ℕ) : DedupState :=
  { s with deduper := { s.deduper with inflightCount := count } }

def record (s : DedupState) (e : KeyEvent) : DedupState := { s with history := s.history ++ [e] }

/-- `fetch_sub(1)`, which wraps at 0. -/
def fetchSubOne (count : ℕ) : ℕ := if count = 0 then 2 ^ 64 - 1 else count - 1

/-- The next step of the task `t` in place `i`. -/
def advanceTask (s : DedupState) (i : ℕ) : ClaimTask → DedupState
  | .reserve key =>
    if s.deduper.inflightCount < s.deduper.maxInflight then
      (s.setCount (s.deduper.inflightCount + 1)).goTo i (.takeId key)
    else s.goTo i (.refused .saturated)
  | .takeId key =>
    { s with deduper := { s.deduper with nextClaimId := s.deduper.nextClaimId + 1 } }.goTo i
      (.enter key s.deduper.nextClaimId)
  | .enter key claimId =>
    if (s.deduper.inflight.lookup key).isSome then s.goTo i .undo
    else (s.setInflight (s.deduper.inflight.insert key claimId)).goTo i (.recheck key claimId)
  | .undo => (s.setCount (fetchSubOne s.deduper.inflightCount)).goTo i (.refused .duplicateInflight)
  | .recheck key claimId =>
    if key ∈ s.deduper.accepted.entries then s.goTo i (.release key claimId)
    else (s.record (.granted key claimId)).goTo i (.held key claimId)
  | .release key claimId =>
    if s.deduper.inflight.lookup key = some claimId then
      (s.setInflight (s.deduper.inflight.erase key)).goTo i .decrement
    else s.goTo i .finished
  | .unmark key =>
    match s.deduper.inflight.lookup key with
    | some claimId =>
      ((s.setInflight (s.deduper.inflight.erase key)).record (.displaced key claimId)).goTo i .decrement
    | none => s.goTo i .finished
  | .decrement => (s.setCount (fetchSubOne s.deduper.inflightCount)).goTo i .finished
  | .held _ _ => s
  | .refused _ => s
  | .finished => s

def step (s : DedupState) : DedupAction → DedupState
  | .claim key =>
    { s with
      tasks := s.tasks ++
        [if key ∈ s.deduper.accepted.entries then .refused .duplicateAccepted else .reserve key] }
  | .markAccepted key => { s.acceptKey key with tasks := s.tasks ++ [.unmark key] }
  | .commit i =>
    match s.tasks[i]? with
    | some (.held key claimId) => (s.acceptKey key).goTo i (.release key claimId)
    | _ => s
  | .dropGuard i =>
    match s.tasks[i]? with
    | some (.held key claimId) => s.goTo i (.release key claimId)
    | _ => s
  | .advance i =>
    match s.tasks[i]? with
    | some t => s.advanceTask i t
    | none => s

end DedupState

/-! ### The accepted keys stay in order and within bounds -/

/-- The set, the queue and the byte estimate agree. -/
structure AcceptedTransactionKeys.Consistent (entries : Finset Hash) (order : List Hash) (bytes : ℕ) : Prop where
  queued : ∀ k, k ∈ entries ↔ k ∈ order
  once : order.Nodup
  bytes : bytes = order.length * txDedupEstimatedEntryBytes

/-- Consistent, and within both bounds. -/
structure AcceptedTransactionKeys.Within (a : AcceptedTransactionKeys) : Prop where
  consistent : Consistent a.entries a.insertionOrder a.estimatedBytes
  entries : a.entries.card ≤ a.maxEntries
  bytes : a.estimatedBytes ≤ a.byteBudget
  roomForOne : 1 ≤ a.maxEntries ∧ txDedupEstimatedEntryBytes ≤ a.byteBudget

namespace AcceptedTransactionKeys

theorem Consistent.pop {entries : Finset Hash} {oldest : Hash} {order : List Hash} {bytes : ℕ}
    (h : Consistent entries (oldest :: order) bytes) :
    oldest ∈ entries ∧ Consistent (entries.erase oldest) order (bytes - txDedupEstimatedEntryBytes) := by
  have hnotMem : oldest ∉ order := (List.nodup_cons.mp h.once).1
  refine ⟨(h.queued oldest).mpr (by simp), ?_, (List.nodup_cons.mp h.once).2, ?_⟩
  · intro k
    rw [Finset.mem_erase, h.queued, List.mem_cons]
    constructor
    · rintro ⟨hne, hk | hk⟩
      · exact absurd hk hne
      · exact hk
    · intro hk
      exact ⟨fun heq => hnotMem (heq ▸ hk), .inr hk⟩
  · rw [h.bytes, List.length_cons]
    simp only [txDedupEstimatedEntryBytes]
    omega

/-- The loop ends within the bounds, and what it drops is a prefix of the queue. -/
theorem shrink_within {a : AcceptedTransactionKeys}
    (hroom : 1 ≤ a.maxEntries ∧ txDedupEstimatedEntryBytes ≤ a.byteBudget) :
    ∀ {order : List Hash} {entries : Finset Hash} {bytes : ℕ}, Consistent entries order bytes →
      (a.shrink order entries bytes).Within ∧ (a.shrink order entries bytes).entries ⊆ entries
  | [], entries, bytes, h => by
    have hempty : entries = ∅ := Finset.eq_empty_of_forall_notMem fun k hk => by simpa using (h.queued k).mp hk
    have hbytes : bytes = 0 := by simpa using h.bytes
    subst hempty hbytes
    have hfits : ¬ (a.maxEntries < (∅ : Finset Hash).card ∨ a.byteBudget < 0) := by simp
    unfold shrink
    rw [if_neg hfits]
    exact ⟨⟨h, by simp, Nat.zero_le _, hroom⟩, fun k hk => hk⟩
  | oldest :: order, entries, bytes, h => by
    unfold shrink
    by_cases hover : a.maxEntries < entries.card ∨ a.byteBudget < bytes
    · rw [if_pos hover]
      obtain ⟨hmem, hpop⟩ := h.pop
      simp only [hmem, if_true]
      have ih := shrink_within hroom hpop
      exact ⟨ih.1, ih.2.trans (Finset.erase_subset _ _)⟩
    · rw [if_neg hover]
      rw [not_or, not_lt, not_lt] at hover
      exact ⟨⟨h, hover.1, hover.2, hroom⟩, fun k hk => hk⟩

theorem new_within (maxEntries byteBudget : ℕ) : (new maxEntries byteBudget).Within :=
  ⟨⟨by simp [new], .nil, rfl⟩, by simp [new], Nat.zero_le _, le_max_right _ _, le_max_right _ _⟩

theorem insert_within {a : AcceptedTransactionKeys} (h : a.Within) (key : Hash) :
    (a.insert key).Within ∧ ∀ k ∈ (a.insert key).entries, k = key ∨ k ∈ a.entries := by
  unfold insert
  by_cases hmem : key ∈ a.entries
  · rw [if_pos hmem]
    have hs := shrink_within h.roomForOne h.consistent
    exact ⟨hs.1, fun k hk => .inr (hs.2 hk)⟩
  · rw [if_neg hmem]
    have hc : Consistent (Insert.insert key a.entries) (a.insertionOrder ++ [key])
        (a.estimatedBytes + txDedupEstimatedEntryBytes) := by
      refine ⟨fun k => ?_, ?_, ?_⟩
      · rw [Finset.mem_insert, h.consistent.queued, List.mem_append, List.mem_singleton, or_comm]
      · have hnew : key ∉ a.insertionOrder := fun hk => hmem ((h.consistent.queued key).mpr hk)
        exact List.nodup_append.mpr ⟨h.consistent.once, by simp, fun x hx y hy =>
          fun heq => hnew (by simpa [heq, List.mem_singleton.mp hy] using hx)⟩
      · rw [h.consistent.bytes, List.length_append, List.length_singleton, Nat.add_mul, Nat.one_mul]
    have hs := shrink_within h.roomForOne hc
    exact ⟨hs.1, fun k hk => Finset.mem_insert.mp (hs.2 hk)⟩

end AcceptedTransactionKeys

/-! ### Slots -/

namespace ClaimTask

/-- `claim` between its reservation and its insertion. -/
def reserving : ClaimTask → ℕ
  | .takeId _ => 1
  | .enter _ _ => 1
  | .undo => 1
  | _ => 0

/-- Between the removal of an entry and the lowering of the count. -/
def releasing : ClaimTask → ℕ
  | .decrement => 1
  | _ => 0

def slots (t : ClaimTask) : ℕ := t.reserving + t.releasing

/-- The id a claim goes by. -/
def claimId? : ClaimTask → Option ℕ
  | .enter _ claimId => some claimId
  | .recheck _ claimId => some claimId
  | .held _ claimId => some claimId
  | .release _ claimId => some claimId
  | _ => none

/-- The claim whose entry went into the map. -/
def entered : ClaimTask → Option (Hash × ℕ)
  | .recheck key claimId => some (key, claimId)
  | .held key claimId => some (key, claimId)
  | .release key claimId => some (key, claimId)
  | _ => none

theorem claimId_of_entered {t : ClaimTask} {key : Hash} {claimId : ℕ} (h : t.entered = some (key, claimId)) :
    t.claimId? = some claimId := by
  cases t <;> simp_all [entered, claimId?]

end ClaimTask

open Tasks

namespace DedupState

/-- The count is the entries in flight and the slots of tasks under way, and ids are not shared. -/
structure Owned (s : DedupState) : Prop where
  count : s.deduper.inflightCount = s.deduper.inflight.entries.length + weigh ClaimTask.slots s.tasks
  bound : s.deduper.inflightCount ≤ s.deduper.maxInflight
  fresh : ∀ t ∈ s.tasks, ∀ claimId ∈ t.claimId?, claimId < s.deduper.nextClaimId
  distinct : ∀ (i j : ℕ) (t u : ClaimTask) (claimId : ℕ), i ≠ j → s.tasks[i]? = some t → s.tasks[j]? = some u →
    t.claimId? = some claimId → u.claimId? ≠ some claimId

variable {s s' : DedupState} {i : ℕ} {t : ClaimTask}

/-- One task moves from `t` to `t'`: what the shared fields and the new program point must satisfy. -/
theorem Owned.move (h : s.Owned) (ht : s.tasks[i]? = some t) (t' : ClaimTask)
    (htasks : s'.tasks = s.tasks.set i t')
    (hcount : s'.deduper.inflightCount + s.deduper.inflight.entries.length + t.slots =
      s.deduper.inflightCount + s'.deduper.inflight.entries.length + t'.slots)
    (hbound : s'.deduper.inflightCount ≤ s'.deduper.maxInflight)
    (hnext : s.deduper.nextClaimId ≤ s'.deduper.nextClaimId)
    (hid : ∀ claimId ∈ t'.claimId?, t.claimId? = some claimId ∨
      claimId = s.deduper.nextClaimId ∧ s.deduper.nextClaimId < s'.deduper.nextClaimId) : s'.Owned := by
  have hmem : t ∈ s.tasks := List.mem_of_getElem? ht
  refine ⟨?_, hbound, ?_, ?_⟩
  · have hw := weigh_set ClaimTask.slots t' ht
    have hc := h.count
    rw [htasks]
    omega
  · intro u hu claimId hclaim
    rw [htasks] at hu
    rcases List.mem_or_eq_of_mem_set hu with hold | rfl
    · have := h.fresh u hold claimId hclaim
      omega
    · rcases hid claimId hclaim with hsame | ⟨rfl, hlt⟩
      · have := h.fresh t hmem claimId hsame
        omega
      · exact hlt
  · intro j k u v claimId hjk hu hv hclaim hclaim'
    rw [htasks] at hu hv
    -- The moved task's id is its old one or a new one; no other task has either.
    have hother : ∀ m x, m ≠ i → s.tasks[m]? = some x → x.claimId? = some claimId →
        t'.claimId? ≠ some claimId := by
      intro m x hm hx hxid ht'
      rcases hid claimId ht' with hsame | ⟨rfl, -⟩
      · exact h.distinct i m t x claimId hm.symm ht hx hsame hxid
      · exact lt_irrefl _ (h.fresh x (List.mem_of_getElem? hx) _ hxid)
    rcases get_set_cases hu with ⟨hj, rfl⟩ | ⟨hj, hu'⟩
    · rcases get_set_cases hv with ⟨hk, -⟩ | ⟨hk, hv'⟩
      · exact hjk (hj.trans hk.symm)
      · exact hother k v hk hv' hclaim' hclaim
    · rcases get_set_cases hv with ⟨-, rfl⟩ | ⟨hk, hv'⟩
      · exact hother j u hj hu' hclaim hclaim'
      · exact h.distinct j k u v claimId hjk hu' hv' hclaim hclaim'

/-- A task starts, at a point where it holds nothing. -/
theorem Owned.push (h : s.Owned) (htasks : s'.tasks = s.tasks ++ [t]) (hslots : t.slots = 0)
    (hid : t.claimId? = none) (hcount : s'.deduper.inflightCount = s.deduper.inflightCount)
    (hmap : s'.deduper.inflight = s.deduper.inflight) (hmax : s'.deduper.maxInflight = s.deduper.maxInflight)
    (hnext : s'.deduper.nextClaimId = s.deduper.nextClaimId) : s'.Owned := by
  refine ⟨?_, ?_, ?_, ?_⟩
  · rw [hcount, hmap, htasks, weigh_append, weigh_singleton, hslots, h.count]
    rfl
  · rw [hcount, hmax]
    exact h.bound
  · intro u hu claimId hclaim
    rw [htasks] at hu
    rw [hnext]
    rcases List.mem_append.mp hu with hold | hnew
    · exact h.fresh u hold claimId hclaim
    · rw [List.mem_singleton.mp hnew, hid] at hclaim
      simp at hclaim
  · intro j k u v claimId hjk hu hv hclaim hclaim'
    rw [htasks] at hu hv
    have hnone : ∀ x, x = t → x.claimId? ≠ some claimId := by
      rintro x rfl
      simp [hid]
    rcases get_append_cases hu with hu | ⟨-, hu⟩
    · rcases get_append_cases hv with hv | ⟨-, hv⟩
      · exact h.distinct j k u v claimId hjk hu hv hclaim hclaim'
      · exact hnone v hv hclaim'
    · exact hnone u hu hclaim

theorem lt_of_slots (h : s.Owned) (ht : s.tasks[i]? = some t) (hslots : t.slots = 1) :
    fetchSubOne s.deduper.inflightCount + 1 = s.deduper.inflightCount := by
  have hle := weigh_le ClaimTask.slots (List.mem_of_getElem? ht)
  have hpos : s.deduper.inflightCount ≠ 0 := by
    have := h.count
    omega
  unfold fetchSubOne
  rw [if_neg hpos]
  omega

theorem advance_owned (h : s.Owned) (ht : s.tasks[i]? = some t) : (s.advanceTask i t).Owned := by
  have hb := h.bound
  cases t with
  | reserve key =>
    simp only [advanceTask]
    by_cases hlt : s.deduper.inflightCount < s.deduper.maxInflight
    · rw [if_pos hlt]
      refine h.move ht (.takeId key) rfl ?_ (by simpa [setCount, goTo] using hlt) le_rfl
        (by simp [ClaimTask.claimId?])
      change s.deduper.inflightCount + 1 + s.deduper.inflight.entries.length + 0 =
          s.deduper.inflightCount + s.deduper.inflight.entries.length + 1
      omega
    · rw [if_neg hlt]
      exact h.move ht (.refused .saturated) rfl rfl hb le_rfl (by simp [ClaimTask.claimId?])
  | takeId key =>
    simp only [advanceTask]
    exact h.move ht (.enter key s.deduper.nextClaimId) rfl rfl hb (Nat.le_succ _) fun claimId hid =>
      .inr ⟨by simpa [ClaimTask.claimId?] using hid.symm, Nat.lt_succ_self _⟩
  | enter key claimId =>
    simp only [advanceTask]
    by_cases hocc : (s.deduper.inflight.lookup key).isSome
    · rw [if_pos hocc]
      exact h.move ht .undo rfl rfl hb le_rfl (by simp [ClaimTask.claimId?])
    · rw [if_neg hocc]
      have hlen := Table.length_insert claimId (by simpa using hocc : s.deduper.inflight.lookup key = none)
      refine h.move ht (.recheck key claimId) rfl ?_ hb le_rfl fun _ hid => .inl hid
      change s.deduper.inflightCount + s.deduper.inflight.entries.length + 1 =
          s.deduper.inflightCount + (s.deduper.inflight.insert key claimId).entries.length + 0
      omega
  | undo =>
    simp only [advanceTask]
    have hpos := lt_of_slots h ht rfl
    refine h.move ht (.refused .duplicateInflight) rfl ?_ ?_ le_rfl (by simp [ClaimTask.claimId?])
    · change fetchSubOne s.deduper.inflightCount + s.deduper.inflight.entries.length + 1 =
        s.deduper.inflightCount + s.deduper.inflight.entries.length + 0
      omega
    · change fetchSubOne s.deduper.inflightCount ≤ s.deduper.maxInflight
      omega
  | recheck key claimId =>
    simp only [advanceTask]
    by_cases hacc : key ∈ s.deduper.accepted.entries
    · rw [if_pos hacc]
      exact h.move ht (.release key claimId) rfl rfl hb le_rfl fun _ hid => .inl hid
    · rw [if_neg hacc]
      exact h.move ht (.held key claimId) rfl rfl hb le_rfl fun _ hid => .inl hid
  | release key claimId =>
    simp only [advanceTask]
    by_cases hown : s.deduper.inflight.lookup key = some claimId
    · rw [if_pos hown]
      have hlen := Table.length_erase hown
      refine h.move ht .decrement rfl ?_ hb le_rfl (by simp [ClaimTask.claimId?])
      change s.deduper.inflightCount + s.deduper.inflight.entries.length + 0 =
          s.deduper.inflightCount + (s.deduper.inflight.erase key).entries.length + 1
      omega
    · rw [if_neg hown]
      exact h.move ht .finished rfl rfl hb le_rfl (by simp [ClaimTask.claimId?])
  | unmark key =>
    simp only [advanceTask]
    split
    · rename_i claimId hown
      have hlen := Table.length_erase hown
      refine h.move ht .decrement rfl ?_ hb le_rfl (by simp [ClaimTask.claimId?])
      change s.deduper.inflightCount + s.deduper.inflight.entries.length + 0 =
          s.deduper.inflightCount + (s.deduper.inflight.erase key).entries.length + 1
      omega
    · exact h.move ht .finished rfl rfl hb le_rfl (by simp [ClaimTask.claimId?])
  | decrement =>
    simp only [advanceTask]
    have hpos := lt_of_slots h ht rfl
    refine h.move ht .finished rfl ?_ ?_ le_rfl (by simp [ClaimTask.claimId?])
    · change fetchSubOne s.deduper.inflightCount + s.deduper.inflight.entries.length + 1 =
        s.deduper.inflightCount + s.deduper.inflight.entries.length + 0
      omega
    · change fetchSubOne s.deduper.inflightCount ≤ s.deduper.maxInflight
      omega
  | held key claimId => exact h
  | refused answer => exact h
  | finished => exact h

theorem step_owned (h : s.Owned) (a : DedupAction) : (s.step a).Owned := by
  unfold step
  cases a with
  | claim key =>
    dsimp only
    split_ifs
    · exact h.push rfl rfl rfl rfl rfl rfl rfl
    · exact h.push rfl rfl rfl rfl rfl rfl rfl
  | markAccepted key => exact h.push rfl rfl rfl rfl rfl rfl rfl
  | commit i =>
    dsimp only
    split
    · rename_i key claimId ht
      exact h.move ht (.release key claimId) rfl rfl h.bound le_rfl fun _ hid => .inl hid
    · exact h
  | dropGuard i =>
    dsimp only
    split
    · rename_i key claimId ht
      exact h.move ht (.release key claimId) rfl rfl h.bound le_rfl fun _ hid => .inl hid
    · exact h
  | advance i =>
    dsimp only
    split
    · rename_i t ht
      exact advance_owned h ht
    · exact h

/-! ### What became of a key -/

/-- `mark_accepted` accepted the key and then removed this claim's entry. -/
def Displaced (history : List KeyEvent) (key : Hash) (claimId : ℕ) : Prop :=
  ∃ before after, history = before ++ .accepted key :: after ∧ .displaced key claimId ∈ after

/-- The key was accepted; after that it was evicted, and a `mark_accepted` removed the entry of one
of the two claims. -/
def Overlap (history : List KeyEvent) (key : Hash) (a b : ℕ) : Prop :=
  ∃ before after, history = before ++ .accepted key :: after ∧ .evicted key ∈ after ∧
    (.displaced key a ∈ after ∨ .displaced key b ∈ after)

theorem Displaced.append {history : List KeyEvent} {key : Hash} {claimId : ℕ}
    (h : Displaced history key claimId) (more : List KeyEvent) : Displaced (history ++ more) key claimId := by
  obtain ⟨before, after, rfl, hmem⟩ := h
  exact ⟨before, after ++ more, by simp, List.mem_append_left _ hmem⟩

theorem Overlap.append {history : List KeyEvent} {key : Hash} {a b : ℕ} (h : Overlap history key a b)
    (more : List KeyEvent) : Overlap (history ++ more) key a b := by
  obtain ⟨before, after, rfl, hevicted, hdisplaced⟩ := h
  exact ⟨before, after ++ more, by simp, List.mem_append_left _ hevicted,
    hdisplaced.imp (List.mem_append_left _) (List.mem_append_left _)⟩

theorem Overlap.symm {history : List KeyEvent} {key : Hash} {a b : ℕ} (h : Overlap history key a b) :
    Overlap history key b a := by
  obtain ⟨before, after, hsplit, hevicted, hdisplaced⟩ := h
  exact ⟨before, after, hsplit, hevicted, hdisplaced.symm⟩

/-- An acceptance is still in force or was followed by an eviction. -/
def Kept (entries : Finset Hash) (history : List KeyEvent) : Prop :=
  ∀ before key after, history = before ++ .accepted key :: after → key ∈ entries ∨ .evicted key ∈ after

/-- A split of an appended history that does not fall into the new part falls into the old one. -/
theorem split_of_append {history more before after : List KeyEvent} {e : KeyEvent} (hnew : e ∉ more)
    (h : history ++ more = before ++ e :: after) :
    ∃ rest, history = before ++ e :: rest ∧ after = rest ++ more := by
  rcases List.append_eq_append_iff.mp h with ⟨mid, hbefore, hmore⟩ | ⟨mid, hhistory, hrest⟩
  · exact absurd (by simp [hmore]) hnew
  · cases mid with
    | nil => exact absurd (by simp [← (List.nil_append more ▸ hrest)]) hnew
    | cons x mid =>
      rw [List.cons_append, List.cons.injEq] at hrest
      exact ⟨mid, by rw [hhistory, hrest.1], hrest.2⟩

theorem Kept.record {entries : Finset Hash} {history : List KeyEvent} (h : Kept entries history)
    {e : KeyEvent} (he : ∀ key, e ≠ .accepted key) : Kept entries (history ++ [e]) := by
  intro before key after hsplit
  have hnew : KeyEvent.accepted key ∉ [e] := by
    simp only [List.mem_singleton]
    exact fun heq => he key heq.symm
  obtain ⟨rest, hhistory, rfl⟩ := split_of_append hnew hsplit
  exact (h before key rest hhistory).imp_right (List.mem_append_left _)

theorem Kept.acceptKey (h : Kept s.deduper.accepted.entries s.history) (hw : s.deduper.accepted.Within)
    (key : Hash) : Kept (s.acceptKey key).deduper.accepted.entries (s.acceptKey key).history := by
  set gone := ((s.deduper.accepted.insertionOrder ++ [key]).filter
    fun k => k ∉ (s.deduper.accepted.insert key).entries).map KeyEvent.evicted with hgone
  have hevicted : ∀ k, k ∈ s.deduper.accepted.insertionOrder ++ [key] →
      k ∈ (s.deduper.accepted.insert key).entries ∨ KeyEvent.evicted k ∈ gone := by
    intro k hk
    by_cases hin : k ∈ (s.deduper.accepted.insert key).entries
    · exact .inl hin
    · refine .inr (List.mem_map_of_mem (List.mem_filter.mpr ⟨hk, ?_⟩))
      simpa using hin
  have hnoAccept : ∀ k, KeyEvent.accepted k ∉ gone := by
    intro k hk
    obtain ⟨_, -, h'⟩ := List.mem_map.mp hk
    cases h'
  intro before k after hsplit
  change s.history ++ .accepted key :: gone = _ at hsplit
  change k ∈ (s.deduper.accepted.insert key).entries ∨ _
  rw [← List.singleton_append, ← List.append_assoc] at hsplit
  obtain ⟨rest, hhistory, rfl⟩ := split_of_append (hnoAccept k) hsplit
  by_cases hk : k = key
  · subst hk
    exact (hevicted k (by simp)).imp_right (List.mem_append_right _)
  · have hnew : KeyEvent.accepted k ∉ [KeyEvent.accepted key] := by simpa using hk
    obtain ⟨rest', hold, rfl⟩ := split_of_append hnew hhistory
    rcases h before k rest' hold with hin | hout
    · exact (hevicted k (List.mem_append_left _ ((hw.consistent.queued k).mp hin))).imp_right
        (List.mem_append_right _)
    · exact .inr (by simp [hout])

/-- Every claim that entered the map is in it or was displaced, and two guards of one key overlap
only past an eviction. -/
structure Traced (s : DedupState) : Prop where
  entered : ∀ t ∈ s.tasks, ∀ key claimId, t.entered = some (key, claimId) →
    s.deduper.inflight.lookup key = some claimId ∨ Displaced s.history key claimId
  marked : ∀ key, .unmark key ∈ s.tasks → .accepted key ∈ s.history
  kept : Kept s.deduper.accepted.entries s.history
  guards : ∀ (i j : ℕ) (key : Hash) (a b : ℕ), i ≠ j → s.tasks[i]? = some (.held key a) →
    s.tasks[j]? = some (.held key b) → Overlap s.history key a b

/-- One task moves on, and is no new mark: what its step owes the others. -/
theorem Traced.move (h : s.Traced) (t' : ClaimTask) (more : List KeyEvent)
    (htasks : s'.tasks = s.tasks.set i t') (hhistory : s'.history = s.history ++ more)
    (hkept : Kept s'.deduper.accepted.entries s'.history)
    (hmap : ∀ j u key claimId, j ≠ i → s.tasks[j]? = some u → u.entered = some (key, claimId) →
      s.deduper.inflight.lookup key = some claimId →
      s'.deduper.inflight.lookup key = some claimId ∨ Displaced s'.history key claimId)
    (hself : ∀ key claimId, t'.entered = some (key, claimId) →
      s'.deduper.inflight.lookup key = some claimId ∨ Displaced s'.history key claimId)
    (hmark : ∀ key, t' ≠ .unmark key)
    (hguard : ∀ key a, t' = .held key a → ∀ j b, j ≠ i → s.tasks[j]? = some (.held key b) →
      Overlap s'.history key a b) : s'.Traced := by
  refine ⟨?_, ?_, hkept, ?_⟩
  · intro u hu key claimId hentered
    obtain ⟨j, hj⟩ := List.getElem?_of_mem hu
    rw [htasks] at hj
    rcases get_set_cases hj with ⟨-, rfl⟩ | ⟨hne, hj'⟩
    · exact hself key claimId hentered
    · rcases h.entered u (List.mem_of_getElem? hj') key claimId hentered with hin | hout
      · exact hmap j u key claimId hne hj' hentered hin
      · rw [hhistory]
        exact .inr (hout.append more)
  · intro key hu
    rw [htasks] at hu
    rw [hhistory]
    rcases List.mem_or_eq_of_mem_set hu with hold | heq
    · exact List.mem_append_left _ (h.marked key hold)
    · exact absurd heq.symm (hmark key)
  · intro j k key a b hjk hj hk
    rw [htasks] at hj hk
    rcases get_set_cases hj with ⟨hji, heq⟩ | ⟨hji, hj'⟩
    · rcases get_set_cases hk with ⟨hki, -⟩ | ⟨hki, hk'⟩
      · exact absurd (hji.trans hki.symm) hjk
      · exact hguard key a heq.symm k b hki hk'
    · rcases get_set_cases hk with ⟨-, heq⟩ | ⟨-, hk'⟩
      · exact (hguard key b heq.symm j a hji hj').symm
      · rw [hhistory]
        exact (h.guards j k key a b hjk hj' hk').append more

/-- A step that leaves the map and the accepted keys alone. -/
theorem Traced.idle (h : s.Traced) (t' : ClaimTask) (htasks : s'.tasks = s.tasks.set i t')
    (hhistory : s'.history = s.history) (hmap : s'.deduper.inflight = s.deduper.inflight)
    (hacc : s'.deduper.accepted = s.deduper.accepted)
    (hself : ∀ key claimId, t'.entered = some (key, claimId) →
      s.deduper.inflight.lookup key = some claimId ∨ Displaced s.history key claimId)
    (hmark : ∀ key, t' ≠ .unmark key) (hguard : ∀ key a, t' ≠ .held key a) : s'.Traced := by
  refine h.move t' [] htasks (by rw [hhistory, List.append_nil]) ?_ ?_ ?_ hmark ?_
  · rw [hacc, hhistory]
    exact h.kept
  · intro j u key claimId _ _ _ hin
    rw [hmap]
    exact .inl hin
  · rw [hmap, hhistory]
    exact hself
  · intro key a heq
    exact absurd heq (hguard key a)

/-- A task starts; the history only grows. -/
theorem Traced.push (h : s.Traced) (more : List KeyEvent) (htasks : s'.tasks = s.tasks ++ [t])
    (hhistory : s'.history = s.history ++ more) (hmap : s'.deduper.inflight = s.deduper.inflight)
    (hkept : Kept s'.deduper.accepted.entries s'.history) (hentered : t.entered = none)
    (hmark : ∀ key, t = .unmark key → .accepted key ∈ s'.history) (hguard : ∀ key a, t ≠ .held key a) :
    s'.Traced := by
  refine ⟨?_, ?_, hkept, ?_⟩
  · intro u hu key claimId hid
    rw [htasks] at hu
    rcases List.mem_append.mp hu with hold | hnew
    · rw [hmap, hhistory]
      exact (h.entered u hold key claimId hid).imp_right fun hout => hout.append more
    · rw [List.mem_singleton.mp hnew, hentered] at hid
      cases hid
  · intro key hu
    rw [htasks] at hu
    rcases List.mem_append.mp hu with hold | hnew
    · rw [hhistory]
      exact List.mem_append_left _ (h.marked key hold)
    · exact hmark key (List.mem_singleton.mp hnew).symm
  · intro j k key a b hjk hj hk
    rw [htasks] at hj hk
    rcases get_append_cases hj with hj' | ⟨-, heq⟩
    · rcases get_append_cases hk with hk' | ⟨-, heq⟩
      · rw [hhistory]
        exact (h.guards j k key a b hjk hj' hk').append more
      · exact absurd heq.symm (hguard key b)
    · exact absurd heq.symm (hguard key a)

/-- The claim's second look found the key not accepted: every other guard of it lost its entry to a
`mark_accepted` whose acceptance is over. -/
theorem grant_traced (h : s.Traced) (ho : s.Owned) {key : Hash} {claimId : ℕ}
    (ht : s.tasks[i]? = some (.recheck key claimId)) (hacc : key ∉ s.deduper.accepted.entries) :
    ((s.record (.granted key claimId)).goTo i (.held key claimId)).Traced := by
  have hown := h.entered _ (List.mem_of_getElem? ht) key claimId rfl
  refine h.move (.held key claimId) [.granted key claimId] rfl rfl (h.kept.record (by simp)) ?_ ?_ (by simp) ?_
  · intro j u k c _ _ _ hin
    exact .inl hin
  · intro k c heq
    obtain ⟨rfl, rfl⟩ : key = k ∧ claimId = c := by simpa [ClaimTask.entered] using heq
    exact hown.imp_right fun hout => hout.append _
  · intro k a heq j b hj hheld
    obtain ⟨rfl, rfl⟩ : key = k ∧ claimId = a := by simpa using heq
    have hother := h.entered _ (List.mem_of_getElem? hheld) key b rfl
    have hne : claimId ≠ b := fun heq =>
      ho.distinct i j _ _ claimId hj.symm ht hheld rfl (by rw [heq]; rfl)
    have hlost : Displaced s.history key claimId ∨ Displaced s.history key b := by
      rcases hown with hin | hout
      · rcases hother with hin' | hout
        · rw [hin, Option.some.injEq] at hin'
          exact absurd hin' hne
        · exact .inr hout
      · exact .inl hout
    have hoverlap : Overlap s.history key claimId b := by
      rcases hlost with ⟨before, after, hsplit, hmem⟩ | ⟨before, after, hsplit, hmem⟩
      · exact ⟨before, after, hsplit, (h.kept before key after hsplit).resolve_left hacc, .inl hmem⟩
      · exact ⟨before, after, hsplit, (h.kept before key after hsplit).resolve_left hacc, .inr hmem⟩
    exact hoverlap.append _

theorem advance_traced (h : s.Traced) (ho : s.Owned) (ht : s.tasks[i]? = some t) :
    (s.advanceTask i t).Traced := by
  have hmem := List.mem_of_getElem? ht
  cases t with
  | reserve key =>
    simp only [advanceTask]
    by_cases hlt : s.deduper.inflightCount < s.deduper.maxInflight
    · rw [if_pos hlt]
      exact h.idle (.takeId key) rfl rfl rfl rfl (by simp [ClaimTask.entered]) (by simp) (by simp)
    · rw [if_neg hlt]
      exact h.idle (.refused .saturated) rfl rfl rfl rfl (by simp [ClaimTask.entered]) (by simp) (by simp)
  | takeId key => exact h.idle _ rfl rfl rfl rfl (by simp [ClaimTask.entered]) (by simp) (by simp)
  | enter key claimId =>
    simp only [advanceTask]
    by_cases hocc : (s.deduper.inflight.lookup key).isSome
    · rw [if_pos hocc]
      exact h.idle .undo rfl rfl rfl rfl (by simp [ClaimTask.entered]) (by simp) (by simp)
    · rw [if_neg hocc]
      have hnone : s.deduper.inflight.lookup key = none := by simpa using hocc
      refine h.move (.recheck key claimId) [] rfl (by simp [setInflight, goTo]) h.kept ?_ ?_ (by simp) (by simp)
      · intro j u k c _ _ _ hin
        have hne : k ≠ key := by
          rintro rfl
          simp [hnone] at hin
        refine .inl ?_
        change (s.deduper.inflight.insert key claimId).lookup k = some c
        rw [Table.lookup_insert_ite, if_neg hne, hin]
      · intro k c heq
        obtain ⟨rfl, rfl⟩ : key = k ∧ claimId = c := by simpa [ClaimTask.entered] using heq
        refine .inl ?_
        change (s.deduper.inflight.insert key claimId).lookup key = some claimId
        rw [Table.lookup_insert_ite, if_pos rfl]
  | undo => exact h.idle _ rfl rfl rfl rfl (by simp [ClaimTask.entered]) (by simp) (by simp)
  | recheck key claimId =>
    simp only [advanceTask]
    by_cases hacc : key ∈ s.deduper.accepted.entries
    · rw [if_pos hacc]
      exact h.idle (.release key claimId) rfl rfl rfl rfl (h.entered (.recheck key claimId) hmem) (by simp)
        (by simp)
    · rw [if_neg hacc]
      exact grant_traced h ho ht hacc
  | release key claimId =>
    simp only [advanceTask]
    by_cases hown : s.deduper.inflight.lookup key = some claimId
    · rw [if_pos hown]
      refine h.move .decrement [] rfl (by simp [setInflight, goTo]) h.kept ?_ (by simp [ClaimTask.entered])
        (by simp) (by simp)
      -- The entry that goes bears this claim's id, so it is no other claim's.
      intro j u k c hj hu hentered hin
      have hne : k ≠ key := by
        rintro rfl
        have hid : claimId = c := by
          rw [hown] at hin
          exact Option.some.inj hin
        exact ho.distinct i j _ u claimId hj.symm ht hu rfl (hid ▸ ClaimTask.claimId_of_entered hentered)
      refine .inl ?_
      change (s.deduper.inflight.erase key).lookup k = some c
      rw [Table.lookup_erase_ite, if_neg hne, hin]
    · rw [if_neg hown]
      exact h.idle .finished rfl rfl rfl rfl (by simp [ClaimTask.entered]) (by simp) (by simp)
  | unmark key =>
    simp only [advanceTask]
    split
    · rename_i claimId hown
      refine h.move .decrement [.displaced key claimId] rfl rfl (h.kept.record (by simp)) ?_
        (by simp [ClaimTask.entered]) (by simp) (by simp)
      intro j u k c _ _ _ hin
      by_cases hk : k = key
      · subst hk
        obtain rfl : claimId = c := by
          rw [hown] at hin
          exact Option.some.inj hin
        obtain ⟨before, after, hsplit⟩ := List.append_of_mem (h.marked k hmem)
        refine .inr ⟨before, after ++ [.displaced k claimId], ?_, by simp⟩
        change s.history ++ [.displaced k claimId] = _
        rw [hsplit]
        simp
      · refine .inl ?_
        change (s.deduper.inflight.erase key).lookup k = some c
        rw [Table.lookup_erase_ite, if_neg hk, hin]
    · exact h.idle .finished rfl rfl rfl rfl (by simp [ClaimTask.entered]) (by simp) (by simp)
  | decrement => exact h.idle _ rfl rfl rfl rfl (by simp [ClaimTask.entered]) (by simp) (by simp)
  | held key claimId => exact h
  | refused answer => exact h
  | finished => exact h

theorem step_traced (h : s.Traced) (ho : s.Owned) (hw : s.deduper.accepted.Within) (a : DedupAction) :
    (s.step a).Traced := by
  unfold step
  cases a with
  | claim key =>
    dsimp only
    split_ifs
    · exact h.push [] rfl (by simp) rfl h.kept rfl (by simp) (by simp)
    · exact h.push [] rfl (by simp) rfl h.kept rfl (by simp) (by simp)
  | markAccepted key =>
    refine h.push _ rfl rfl rfl (h.kept.acceptKey hw key) rfl ?_ (by simp)
    intro k heq
    obtain rfl : key = k := by simpa using heq
    simp [acceptKey]
  | commit i =>
    dsimp only
    split
    · rename_i key claimId ht
      refine h.move (.release key claimId) _ rfl rfl (h.kept.acceptKey hw key) ?_ ?_ (by simp) (by simp)
      · intro j u k c _ _ _ hin
        exact .inl hin
      · intro k c hentered
        exact (h.entered _ (List.mem_of_getElem? ht) k c hentered).imp_right fun hout => hout.append _
    · exact h
  | dropGuard i =>
    dsimp only
    split
    · rename_i key claimId ht
      exact h.idle (.release key claimId) rfl rfl rfl rfl
        (h.entered (.held key claimId) (List.mem_of_getElem? ht)) (by simp) (by simp)
    · exact h
  | advance i =>
    dsimp only
    split
    · rename_i t ht
      exact advance_traced h ho ht
    · exact h

/-! ### Every run -/

theorem step_within (h : s.deduper.accepted.Within) (a : DedupAction) :
    (s.step a).deduper.accepted.Within := by
  have hinsert := fun key => (AcceptedTransactionKeys.insert_within h key).1
  cases a with
  | claim key => exact h
  | markAccepted key => exact hinsert key
  | commit i =>
    simp only [step]
    split
    · exact hinsert _
    · exact h
  | dropGuard i =>
    simp only [step]
    split
    · exact h
    · exact h
  | advance i =>
    have hsame : (s.step (.advance i)).deduper.accepted = s.deduper.accepted := by
      simp only [step]
      split
      · rename_i t _
        cases t <;> simp only [advanceTask] <;> repeat' split
        all_goals rfl
      · rfl
    rw [hsame]
    exact h

/-- What the deduper promises in a state it has reached. -/
structure Accounted (s : DedupState) : Prop where
  /-- Entries in flight, claims between reservation and insertion, removals not yet counted. -/
  count : s.deduper.inflightCount = s.deduper.inflight.entries.length +
    weigh ClaimTask.reserving s.tasks + weigh ClaimTask.releasing s.tasks
  bound : s.deduper.inflightCount ≤ s.deduper.maxInflight
  noUnderflow : ∀ t ∈ s.tasks, t = .undo ∨ t = .decrement → 0 < s.deduper.inflightCount
  /-- A claim is refused at once if the key is accepted when it starts. -/
  refused : ∀ key ∈ s.deduper.accepted.entries,
    (s.step (.claim key)).tasks = s.tasks ++ [.refused .duplicateAccepted]
  /-- A claim is granted only while the key is not accepted. -/
  granted : ∀ (i : ℕ) (key : Hash) (claimId : ℕ), s.tasks[i]? = some (.recheck key claimId) →
    (s.step (.advance i)).tasks[i]? = some (.held key claimId) → key ∉ s.deduper.accepted.entries
  guards : ∀ (i j : ℕ) (key : Hash) (a b : ℕ), i ≠ j → s.tasks[i]? = some (.held key a) →
    s.tasks[j]? = some (.held key b) → Overlap s.history key a b
  /-- A release takes out an entry under its own key and id only, and no two claims share an id. -/
  ownEntry : ∀ (i : ℕ) (key : Hash) (claimId : ℕ), s.tasks[i]? = some (.release key claimId) →
    ∀ k, (s.step (.advance i)).deduper.inflight.lookup k ≠ s.deduper.inflight.lookup k →
      k = key ∧ s.deduper.inflight.lookup k = some claimId
  ownId : ∀ (i j : ℕ) (t u : ClaimTask) (claimId : ℕ), i ≠ j → s.tasks[i]? = some t → s.tasks[j]? = some u →
    t.claimId? = some claimId → u.claimId? ≠ some claimId
  accepted : s.deduper.accepted.Within

theorem weigh_slots (tasks : List ClaimTask) :
    weigh ClaimTask.slots tasks = weigh ClaimTask.reserving tasks + weigh ClaimTask.releasing tasks :=
  List.sum_map_add

theorem accounted_of_invariants (ho : s.Owned) (ht : s.Traced) (hw : s.deduper.accepted.Within) :
    s.Accounted := by
  refine ⟨?_, ho.bound, ?_, ?_, ?_, ht.guards, ?_, ho.distinct, hw⟩
  · rw [ho.count, weigh_slots, Nat.add_assoc]
  · intro t hmem hdown
    have hle := weigh_le ClaimTask.slots hmem
    have hone : t.slots = 1 := by
      rcases hdown with rfl | rfl
      · rfl
      · rfl
    have := ho.count
    omega
  · intro key hkey
    simp only [step, if_pos hkey]
  · intro i key claimId hi hheld hkey
    simp only [step, hi, advanceTask, if_pos hkey, goTo] at hheld
    rcases get_set_cases hheld with ⟨-, heq⟩ | ⟨hne, -⟩
    · cases heq
    · exact hne rfl
  · intro i key claimId hi k hne
    simp only [step, hi, advanceTask] at hne
    by_cases hown : s.deduper.inflight.lookup key = some claimId
    · rw [if_pos hown] at hne
      change (s.deduper.inflight.erase key).lookup k ≠ _ at hne
      rw [Table.lookup_erase_ite] at hne
      by_cases hk : k = key
      · rw [hk]
        exact ⟨rfl, hown⟩
      · rw [if_neg hk] at hne
        exact absurd rfl hne
    · rw [if_neg hown] at hne
      exact absurd rfl hne

/-- **The books of the deduper.** In every interleaving the count of slots is what is in flight or
under way, acceptance excludes a grant, a guard takes out its own entry only, and the accepted keys
stay in order and within bounds. -/
theorem deduper_accounted (maxEntries byteBudget maxInflight : ℕ) (actions : List DedupAction) :
    (actions.foldl step (start maxEntries byteBudget maxInflight)).Accounted := by
  have hrun : ∀ (actions : List DedupAction) (s : DedupState), s.Owned → s.Traced →
      s.deduper.accepted.Within → (actions.foldl step s).Accounted := by
    intro actions
    induction actions with
    | nil =>
      intro s ho ht hw
      exact accounted_of_invariants ho ht hw
    | cons a rest ih =>
      intro s ho ht hw
      exact ih (s.step a) (step_owned ho a) (step_traced ht ho hw a) (step_within hw a)
  refine hrun actions _ ?_ ?_ (AcceptedTransactionKeys.new_within maxEntries byteBudget)
  · exact ⟨rfl, Nat.zero_le _, by simp [start], by simp [start]⟩
  · exact ⟨by simp [start], by simp [start], by simp [start, Kept], by simp [start]⟩

/-- A dropped claim leaves its slot counted after its entry is gone; and a `mark_accepted` that is
slow to remove takes out a claim made after its key was evicted, so that the key is granted twice
with neither an acceptance nor an eviction in between. -/
theorem slow_removals :
    (let s := [.claim 1, .advance 0, .advance 0, .advance 0, .advance 0, .dropGuard 0, .advance 0].foldl
      step (start 1 128 4)
    s.deduper.inflightCount ≠ s.deduper.inflight.entries.length + weigh ClaimTask.reserving s.tasks) ∧
    (let s := [.markAccepted 1, .markAccepted 2, .claim 1, .advance 2, .advance 2, .advance 2, .advance 2,
      .advance 0, .claim 1, .advance 3, .advance 3, .advance 3, .advance 3].foldl step (start 1 128 4)
    s.tasks[2]? = some (.held 1 1) ∧ s.tasks[3]? = some (.held 1 2) ∧
      s.history = [.accepted 1, .accepted 2, .evicted 1, .granted 1 1, .displaced 1 1, .granted 1 2]) := by
  decide +kernel

end DedupState

end Alphanumeric
