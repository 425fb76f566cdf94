/-
# Every payment is announced once

The client announces the payments its wallets receive. A task waits on the tip's watch channel,
reads the height there, and scans the blocks since the height it scanned last; at a height it
already reached it scans that block again. Blocks come in while it scans. `AnnouncedCredits`
remembers the last 4096 payments announced, so that a block scanned twice is announced once.

Whatever happens, reorganisations included, two announcements of one payment have 4096 others
between them. While the chain only grows, the announcements are the payments of the blocks
after the start, each one once and in their order, and when the task sleeps none is left out.

Key definitions: `AnnouncedCredits`, `firstSighting`, `creditsOf`, `Watcher`, `Watcher.step`.
Key theorems: `announced_apart`, `growing_chain_announced`.
-/
import Alphanumeric.Types
import Alphanumeric.Lib.Trace
import Alphanumeric.Lib.Watch
import Mathlib

namespace Alphanumeric

namespace CreditNotices

open Watch

variable (E : Env)

/-! ### The memory of announced payments -/

def announcedCreditMemory : ℕ := 4096

structure AnnouncedCredits where
  seen : Finset Text
  order : List Text

/-- The identity of a payment: its display id and the committed signature hash. -/
def creditId (tx : Transaction) : Text := getTxId E tx ++ ':' :: tx.sigHash.getD []

namespace AnnouncedCredits

def new : AnnouncedCredits := ⟨∅, []⟩

/-- The oldest entry makes room. -/
def evict (a : AnnouncedCredits) : AnnouncedCredits :=
  if announcedCreditMemory ≤ a.order.length then
    match a.order with
    | [] => a
    | oldest :: rest => { seen := a.seen.erase oldest, order := rest }
  else a

/-- `first_sighting`: whether the payment is new, and the memory after it. -/
def firstSighting (a : AnnouncedCredits) (id : Text) : Bool × AnnouncedCredits :=
  if id ∈ a.seen then (false, a)
  else (true, { order := a.evict.order ++ [id], seen := insert id a.evict.seen })

end AnnouncedCredits

/-- The payments of a block to one of the addresses. -/
def creditsOf (addresses : List Text) (b : Block) : List Transaction :=
  b.transactions.filter fun tx => tx.sender != miningRewards && addresses.contains tx.recipient

/-! ### The task -/

/-- Where the task stands: in `changed`; between it and the reads; at the block `next` of a scan up to
`height`. -/
inductive Phase where
  | waiting
  | woken
  | scanning (addresses : List Text) (next height : ℕ)

/-- `chain` is the canonical chain, genesis first. `reported` keeps the payments announced. -/
structure Watcher where
  chain : List Block
  tips : Channel ℕ
  seen : ℕ
  phase : Phase
  lastScanned : ℕ
  announced : AnnouncedCredits
  reported : List Transaction

/-- The chain grows by a block, or is cut back and grows from there; the rest is the task. `look`
reads the height and the wallets' addresses, and `scan` reads a block, which may fail. -/
inductive Event where
  | append (b : Block)
  | reorg (keep : ℕ) (blocks : List Block)
  | wake
  | look (addresses : List Text)
  | scan (found : Bool)
  | rest

/-- The loop over a block's payments, on the memory and the announcements so far. -/
def announce : AnnouncedCredits × List Transaction → List Transaction → AnnouncedCredits × List Transaction
  | m, [] => m
  | m, tx :: rest =>
    let sighting := m.1.firstSighting (creditId E tx)
    announce (sighting.2, if sighting.1 then m.2 ++ [tx] else m.2) rest

def Watcher.step (s : Watcher) (e : Event) : Option Watcher :=
  match e with
  | .append b => some { s with chain := s.chain ++ [b], tips := s.tips.send s.chain.length }
  | .reorg keep blocks =>
    let chain := s.chain.take (keep + 1) ++ blocks
    if blocks = [] ∨ s.chain.length ≤ keep then none
    else some { s with chain, tips := s.tips.send (chain.length - 1) }
  | .wake =>
    match s.phase with
    | .waiting => if s.tips.changed s.seen then some { s with phase := .woken, seen := s.tips.version } else none
    | _ => none
  | .look addresses =>
    match s.phase with
    | .woken =>
      let height := s.tips.value
      if addresses.isEmpty then some { s with phase := .waiting, lastScanned := height }
      else
        let first := if s.lastScanned < height then s.lastScanned + 1 else height
        some { s with phase := .scanning addresses first height }
    | _ => none
  | .scan found =>
    match s.phase with
    | .scanning addresses next height =>
      if height < next then none
      else
        let credits := match s.chain[next]? with
          | some b => if found then creditsOf addresses b else []
          | none => []
        let m := announce E (s.announced, s.reported) credits
        some { s with announced := m.1, reported := m.2, phase := .scanning addresses (next + 1) height }
    | _ => none
  | .rest =>
    match s.phase with
    | .scanning _ next height =>
      if height < next then some { s with phase := .waiting, lastScanned := height } else none
    | _ => none

abbrev Steps (s : Watcher) (e : Event) (t : Watcher) : Prop := s.step E e = some t

/-! ### What the memory holds -/

/-- Two entries that are equal have `n` others between them. -/
def Apart (n : ℕ) (ids : List Text) : Prop :=
  ∀ i j x, i < j → ids[i]? = some x → ids[j]? = some x → i + n < j

/-- The memory holds the last ids that were announced. -/
structure Remembers (a : AnnouncedCredits) (ids : List Text) : Prop where
  order : a.order = ids.drop (ids.length - announcedCreditMemory)
  seen : a.seen = a.order.toFinset
  apart : Apart announcedCreditMemory ids

theorem Remembers.new : Remembers .new [] := ⟨rfl, rfl, fun _ _ _ _ h => by simp at h⟩

variable {E}

theorem Remembers.mem_seen {a : AnnouncedCredits} {ids : List Text} (h : Remembers a ids) {id : Text} :
    id ∈ a.seen ↔ id ∈ ids.drop (ids.length - announcedCreditMemory) := by
  rw [h.seen, List.mem_toFinset, h.order]

/-- The last entries are all different, being so near to each other. -/
theorem Remembers.nodup {a : AnnouncedCredits} {ids : List Text} (h : Remembers a ids) : a.order.Nodup := by
  rw [h.order, List.nodup_iff_getElem?_ne_getElem?]
  intro i j hij hj heq
  rw [List.getElem?_drop, List.getElem?_drop] at heq
  rw [List.length_drop] at hj
  obtain ⟨x, hx⟩ : ∃ x, ids[ids.length - announcedCreditMemory + j]? = some x :=
    ⟨_, List.getElem?_eq_getElem (by omega)⟩
  have := h.apart _ _ x (by omega) (heq.trans hx) hx
  omega

/-- An id that is not among the last ones may be announced. -/
theorem apart_append {n : ℕ} {ids : List Text} {id : Text} (h : Apart n ids) (hnew : id ∉ ids.drop (ids.length - n)) :
    Apart n (ids ++ [id]) := by
  intro i j x hij hi hj
  have hjlt : j < (ids ++ [id]).length := (List.getElem?_eq_some_iff.mp hj).1
  rw [List.length_append, List.length_singleton] at hjlt
  rw [List.getElem?_append_left (by omega)] at hi
  rcases Nat.lt_succ_iff_lt_or_eq.mp hjlt with hlt | rfl
  · rw [List.getElem?_append_left hlt] at hj
    exact h i j x hij hi hj
  · obtain rfl : id = x := by simpa using hj
    by_contra hnear
    refine hnew (List.mem_iff_getElem?.mpr ⟨i - (ids.length - n), ?_⟩)
    rw [List.getElem?_drop, show ids.length - n + (i - (ids.length - n)) = i by omega, hi]

theorem evict_order {a : AnnouncedCredits} (h : a.order.length ≤ announcedCreditMemory) :
    a.evict.order = a.order.drop (a.order.length + 1 - announcedCreditMemory) := by
  unfold AnnouncedCredits.evict
  by_cases hfull : announcedCreditMemory ≤ a.order.length
  · rw [if_pos hfull, show a.order.length + 1 - announcedCreditMemory = 1 by omega]
    cases horder : a.order with
    | nil =>
      rw [horder] at hfull
      cases hfull
    | cons oldest rest => rfl
  · rw [if_neg hfull, show a.order.length + 1 - announcedCreditMemory = 0 by omega, List.drop_zero]

theorem evict_seen {a : AnnouncedCredits} (hseen : a.seen = a.order.toFinset) (hnodup : a.order.Nodup) :
    a.evict.seen = a.evict.order.toFinset := by
  unfold AnnouncedCredits.evict
  split
  · cases horder : a.order with
    | nil => simpa [horder] using hseen
    | cons oldest rest =>
      rw [horder] at hseen hnodup
      have hnew : oldest ∉ rest.toFinset := by simpa using (List.nodup_cons.mp hnodup).1
      simp only [hseen, List.toFinset_cons]
      exact Finset.erase_insert hnew
  · exact hseen

theorem Remembers.known {a : AnnouncedCredits} {id : Text} (hid : id ∈ a.seen) : a.firstSighting id = (false, a) :=
  if_pos hid

/-- A new id is announced and remembered. -/
theorem Remembers.sighted {a : AnnouncedCredits} {ids : List Text} (h : Remembers a ids) {id : Text}
    (hid : id ∉ a.seen) : (a.firstSighting id).1 = true ∧ Remembers (a.firstSighting id).2 (ids ++ [id]) := by
  rw [AnnouncedCredits.firstSighting, if_neg hid]
  have hnew := hid
  rw [h.mem_seen] at hnew
  have hlen : a.order.length = min ids.length announcedCreditMemory := by
    rw [h.order, List.length_drop]
    omega
  have hpos : 0 < announcedCreditMemory := by decide
  refine ⟨rfl, ⟨?_, ?_, apart_append h.apart hnew⟩⟩
  · have hcount : ids.length - announcedCreditMemory + (a.order.length + 1 - announcedCreditMemory) =
        ids.length + 1 - announcedCreditMemory := by omega
    rw [evict_order (by omega), List.length_append, List.length_singleton,
      List.drop_append_of_le_length (by omega), ← hcount, ← List.drop_drop, ← h.order]
  · rw [evict_seen h.seen h.nodup, List.toFinset_append, List.toFinset_cons, List.toFinset_nil, insert_empty_eq,
      Finset.union_comm, Finset.singleton_union]

/-! ### A block's payments go by -/

theorem announce_remembers : ∀ (txs : List Transaction) {m : AnnouncedCredits × List Transaction},
    Remembers m.1 (m.2.map (creditId E)) →
      Remembers (announce E m txs).1 ((announce E m txs).2.map (creditId E))
  | [], _, h => h
  | tx :: rest, m, h => by
    rw [announce]
    by_cases hid : creditId E tx ∈ m.1.seen
    · rw [Remembers.known hid]
      exact announce_remembers rest h
    · obtain ⟨htrue, hmem⟩ := h.sighted hid
      refine announce_remembers rest ?_
      simp only [htrue, if_true, List.map_append, List.map_cons, List.map_nil]
      exact hmem

/-- Payments in the memory pass in silence. -/
theorem announce_known : ∀ (txs : List Transaction) {m : AnnouncedCredits × List Transaction},
    (∀ tx ∈ txs, creditId E tx ∈ m.1.seen) → announce E m txs = m
  | [], _, _ => rfl
  | tx :: rest, m, h => by
    rw [announce, Remembers.known (h tx (List.mem_cons_self ..))]
    exact announce_known rest fun tx' h' => h tx' (List.mem_cons_of_mem _ h')

/-- New payments are announced one after the other. -/
theorem announce_new : ∀ (txs : List Transaction) {m : AnnouncedCredits × List Transaction},
    Remembers m.1 (m.2.map (creditId E)) → ((m.2 ++ txs).map (creditId E)).Nodup →
      (announce E m txs).2 = m.2 ++ txs
  | [], m, _, _ => (List.append_nil m.2).symm
  | tx :: rest, m, h, hnodup => by
    have hid : creditId E tx ∉ m.1.seen := by
      rw [h.mem_seen]
      intro hmem
      rw [List.map_append, List.nodup_append] at hnodup
      exact hnodup.2.2 _ (List.mem_of_mem_drop hmem) _ (List.mem_map_of_mem (List.mem_cons_self ..)) rfl
    obtain ⟨htrue, hmem⟩ := h.sighted hid
    rw [announce, htrue, if_pos rfl, announce_new rest, List.append_assoc, List.singleton_append]
    · simpa using hmem
    · simpa using hnodup

/-! ### Every run -/

theorem Remembers.step {s t : Watcher} {e : Event} (h : Remembers s.announced (s.reported.map (creditId E)))
    (hstep : Steps E s e t) : Remembers t.announced (t.reported.map (creditId E)) := by
  cases e with
  | append b => cases hstep; exact h
  | reorg keep blocks =>
    simp only [Steps, Watcher.step] at hstep
    split at hstep
    · cases hstep
    · cases hstep
      exact h
  | wake =>
    simp only [Steps, Watcher.step] at hstep
    split at hstep
    · split at hstep
      · cases hstep
        exact h
      · cases hstep
    · cases hstep
  | look addresses =>
    simp only [Steps, Watcher.step] at hstep
    split at hstep
    · split at hstep
      · cases hstep
        exact h
      · cases hstep
        exact h
    · cases hstep
  | scan found =>
    simp only [Steps, Watcher.step] at hstep
    split at hstep
    · split at hstep
      · cases hstep
      · cases hstep
        exact announce_remembers _ h
    · cases hstep
  | rest =>
    simp only [Steps, Watcher.step] at hstep
    split at hstep
    · split at hstep
      · cases hstep
        exact h
      · cases hstep
    · cases hstep

/-- **Two announcements of one payment are 4096 others apart**, whatever the chain does. -/
theorem announced_apart {s t : Watcher} {tr : List (Watcher × Event)} (hnew : s.announced = .new)
    (hnone : s.reported = []) (h : Trace.Run (Steps E) s tr t) :
    Apart announcedCreditMemory (t.reported.map (creditId E)) := by
  have hstart : Remembers s.announced (s.reported.map (creditId E)) := by
    rw [hnew, hnone]
    exact .new
  exact (h.invariant (I := fun s => Remembers s.announced (s.reported.map (creditId E))) (C := fun _ _ => True)
    (fun _ _ _ hs _ hstep => hs.step hstep) hstart fun _ _ => trivial).apart

local instance hashNeZero : NeZero (2 ^ 256) := ⟨by decide⟩

/-- A block with one payment to `a` and one to somebody else. -/
def payday (n : ℕ) : Block :=
  { index := n, previousHash := 0, timestamp := n, nonce := 0, difficulty := 0, hash := 0, merkleRoot := 0
    transactions :=
      [⟨['x'], ['a'], 1, 1, n, none, none, none⟩, ⟨['x'], ['b'], 1, 1, n, none, none, none⟩] }

def watcher₀ : Watcher := ⟨[payday 0], ⟨0, []⟩, 0, .waiting, 0, .new, []⟩

/-- The first block is replaced by one with the same payment, and the scan goes over it again. -/
def replacedDay : List Event :=
  [.append (payday 1), .wake, .look [['a']], .scan true, .rest, .reorg 0 [payday 1, payday 2], .wake,
    .look [['a']], .scan true, .rest, .reorg 0 [payday 2], .wake, .look [['a']], .scan true, .rest]

theorem replaced_day_announced : ∃ r, Trace.follow (Watcher.step toyEnv) watcher₀ replacedDay = some r ∧
    r.2.reported.map (·.timestamp) = [1, 2] ∧ Apart announcedCreditMemory (r.2.reported.map (creditId toyEnv)) := by
  have hrun : (Trace.follow (Watcher.step toyEnv) watcher₀ replacedDay).any (fun r =>
      r.2.reported.map (·.timestamp) == [1, 2]) = true := by
    decide +kernel
  obtain ⟨r, hr, h⟩ := (Option.any_eq_true _ _).mp hrun
  exact ⟨r, hr, eq_of_beq h, announced_apart rfl rfl (Trace.run_follow hr)⟩

/-! ### A chain that grows -/

/-- The payments of the blocks after `a` up to `b`. -/
def between (chain : List Block) (addresses : List Text) (a b : ℕ) : List Transaction :=
  ((chain.take (b + 1)).drop (a + 1)).flatMap (creditsOf addresses)

section Between

variable {chain : List Block} {addresses : List Text}

theorem between_self (a : ℕ) : between chain addresses a a = [] := by
  rw [between, List.drop_eq_nil_of_le (List.length_take_le ..), List.flatMap_nil]

theorem between_succ {a m : ℕ} {b : Block} (ha : a ≤ m) (hb : chain[m + 1]? = some b) :
    between chain addresses a (m + 1) = between chain addresses a m ++ creditsOf addresses b := by
  have hlt : m + 1 < chain.length := (List.getElem?_eq_some_iff.mp hb).1
  rw [between, List.take_add_one, hb, Option.toList_some, List.drop_append_of_le_length
    (by rw [List.length_take]; omega), List.flatMap_append, List.flatMap_singleton, between]

theorem between_append {a m : ℕ} (hm : m < chain.length) (b : Block) :
    between (chain ++ [b]) addresses a m = between chain addresses a m := by
  rw [between, List.take_append_of_le_length hm, between]

theorem between_sublist (a m : ℕ) :
    (between chain addresses a m).Sublist (chain.flatMap (creditsOf addresses)) := by
  have h : ((chain.take (m + 1)).drop (a + 1)).Sublist chain :=
    (List.drop_sublist ..).trans (List.take_sublist ..)
  exact h.flatMap _

end Between

/-- What a run on a growing chain does: no cut, no two payments of one identity, at most a memory's worth
of them in a block, one set of wallets, and no failed read. -/
def Grows (E : Env) (addresses : List Text) (s : Watcher) : Event → Prop
  | .append b => (((s.chain ++ [b]).flatMap (creditsOf addresses)).map (creditId E)).Nodup ∧
    (creditsOf addresses b).length ≤ announcedCreditMemory
  | .reorg _ _ => False
  | .look addresses' => addresses' = addresses
  | .scan found => found = true
  | _ => True

instance (addresses : List Text) (s : Watcher) (e : Event) : Decidable (Grows E addresses s e) :=
  match e with
  | .append _ => inferInstanceAs (Decidable (_ ∧ _))
  | .reorg _ _ => instDecidableFalse
  | .look _ => inferInstanceAs (Decidable (_ = _))
  | .scan _ => inferInstanceAs (Decidable (_ = _))
  | .wake => instDecidableTrue
  | .rest => instDecidableTrue

/-- The announcements are the payments of the blocks up to `m`, from the one after the task's start or
from that one, if its signal was still to come. -/
def Reported (addresses : List Text) (start : ℕ) (s : Watcher) (m : ℕ) : Prop :=
  start ≤ m ∧ m < s.chain.length ∧ ∃ s₀, (s₀ = start ∨ s₀ + 1 = start) ∧
    s.reported = between s.chain addresses s₀ m

/-- How far the announcements are, and that the last signal seen is about the whole chain. -/
def PhaseOk (addresses : List Text) (start : ℕ) (s : Watcher) : Prop :=
  match s.phase with
  | .waiting => Reported addresses start s s.lastScanned ∧
    (s.seen = s.tips.version → s.lastScanned + 1 = s.chain.length)
  | .woken => Reported addresses start s s.lastScanned ∧ 0 < s.tips.version
  | .scanning addresses' next height => addresses' = addresses ∧ 0 < height ∧ next ≤ height + 1 ∧
    height < s.chain.length ∧ (s.seen = s.tips.version → height + 1 = s.chain.length) ∧
    ∃ m, Reported addresses start s m ∧ (m + 1 = next ∨ next = height ∧ m = height)

structure Growing (E : Env) (addresses : List Text) (start : ℕ) (s : Watcher) : Prop where
  remembers : Remembers s.announced (s.reported.map (creditId E))
  nodup : ((s.chain.flatMap (creditsOf addresses)).map (creditId E)).Nodup
  small : ∀ b ∈ s.chain, (creditsOf addresses b).length ≤ announcedCreditMemory
  nonempty : 0 < s.chain.length
  tip : 0 < s.tips.version → 0 < s.tips.value ∧ s.tips.value + 1 = s.chain.length
  seen : s.seen ≤ s.tips.version
  phase : PhaseOk addresses start s

variable {addresses : List Text} {start : ℕ}

theorem Reported.append {s : Watcher} {m : ℕ} (h : Reported addresses start s m) (b : Block)
    (tips : Channel ℕ) : Reported addresses start { s with chain := s.chain ++ [b], tips := tips } m := by
  obtain ⟨hstart, hlt, s₀, hs₀, hrep⟩ := h
  refine ⟨hstart, by rw [List.length_append]; omega, s₀, hs₀, ?_⟩
  rw [between_append hlt]
  exact hrep

theorem Growing.append {s : Watcher} (h : Growing E addresses start s) (b : Block)
    (hgrows : Grows E addresses s (.append b)) :
    Growing E addresses start { s with chain := s.chain ++ [b], tips := s.tips.send s.chain.length } := by
  have hseen := h.seen
  have hpos := h.nonempty
  have hnew : ∀ P : Prop, s.seen = (s.tips.send s.chain.length).version → P := by
    intro P heq
    rw [Channel.version_send] at heq
    omega
  refine ⟨h.remembers, hgrows.1, fun b' hb' => ?_, by simp, fun _ => ?_, ?_, ?_⟩
  · rcases List.mem_append.mp hb' with hb' | hb'
    · exact h.small b' hb'
    · obtain rfl : b' = b := by simpa using hb'
      exact hgrows.2
  · rw [Channel.value_send, List.length_append]
    exact ⟨hpos, rfl⟩
  · rw [Channel.version_send]
    exact hseen.trans (Nat.le_succ _)
  · have hphase := h.phase
    unfold PhaseOk at hphase ⊢
    dsimp only
    cases hp : s.phase with
    | waiting =>
      rw [hp] at hphase
      exact ⟨hphase.1.append b (s.tips.send s.chain.length), hnew _⟩
    | woken =>
      rw [hp] at hphase
      exact ⟨hphase.1.append b (s.tips.send s.chain.length), by rw [Channel.version_send]; omega⟩
    | scanning addresses' next height =>
      rw [hp] at hphase
      obtain ⟨haddr, hheight, hnext, hlt, -, m, hrep, hm⟩ := hphase
      exact ⟨haddr, hheight, hnext, by rw [List.length_append]; omega, hnew _, m,
          hrep.append b (s.tips.send s.chain.length), hm⟩

/-- The block of a scan is announced, or was announced before and passes in silence. -/
theorem Growing.scan {s : Watcher} {next height : ℕ} (h : Growing E addresses start s)
    (hphase : s.phase = .scanning addresses next height) (hle : next ≤ height) {b : Block}
    (hb : s.chain[next]? = some b) :
    ∃ m, Reported addresses start
      { s with
        announced := (announce E (s.announced, s.reported) (creditsOf addresses b)).1
        reported := (announce E (s.announced, s.reported) (creditsOf addresses b)).2
        phase := .scanning addresses (next + 1) height } m ∧ m + 1 = next + 1 := by
  have hok := h.phase
  unfold PhaseOk at hok
  rw [hphase] at hok
  obtain ⟨-, hheight, -, hlt, -, m, ⟨hstart, hmlt, s₀, hs₀, hrep⟩, hm⟩ := hok
  -- blocks whose payments are not announced yet
  have hfresh : ∀ a k, s.reported = between s.chain addresses a k → a ≤ k → s.chain[k + 1]? = some b →
      (announce E (s.announced, s.reported) (creditsOf addresses b)).2 = between s.chain addresses a (k + 1) := by
    intro a k hak hle hk
    have hsucc : between s.chain addresses a (k + 1) = between s.chain addresses a k ++ creditsOf addresses b :=
      between_succ hle hk
    rw [announce_new _ h.remembers, hak, hsucc]
    rw [hak, ← hsucc]
    exact h.nodup.sublist ((between_sublist a (k + 1)).map _)
  rcases hm with hm | ⟨hnext, hm⟩
  · obtain rfl : m + 1 = next := hm
    exact ⟨m + 1, ⟨by omega, (List.getElem?_eq_some_iff.mp hb).1, s₀, hs₀, hfresh s₀ m hrep (by omega) hb⟩, rfl⟩
  · obtain rfl : next = m := by omega
    rcases Nat.lt_or_ge s₀ next with hlt₀ | hge
    · -- the block was announced: its payments are the last ones in the memory
      obtain ⟨k, rfl⟩ : ∃ k, next = k + 1 := ⟨next - 1, by omega⟩
      have hsucc : between s.chain addresses s₀ (k + 1) =
          between s.chain addresses s₀ k ++ creditsOf addresses b := between_succ (Nat.le_of_lt_succ hlt₀) hb
      have hknown : ∀ tx ∈ creditsOf addresses b, creditId E tx ∈ s.announced.seen := by
        intro tx htx
        have hsmall := h.small b (List.mem_of_getElem? hb)
        have hids : s.reported.map (creditId E) = (between s.chain addresses s₀ k).map (creditId E) ++
            (creditsOf addresses b).map (creditId E) := by rw [hrep, hsucc, List.map_append]
        rw [h.remembers.mem_seen, hids, List.length_append, List.length_map, List.length_map,
          List.drop_append_of_le_length (by rw [List.length_map]; omega)]
        exact List.mem_append_right _ (List.mem_map_of_mem htx)
      rw [announce_known _ hknown]
      exact ⟨k + 1, ⟨hstart, hmlt, s₀, hs₀, hrep⟩, rfl⟩
    · -- nothing was announced: the task started on this block, with its signal still to come
      obtain ⟨k, rfl⟩ : ∃ k, next = k + 1 := ⟨next - 1, by omega⟩
      have hs₀' : s₀ = k + 1 := by omega
      have hself : s.reported = between s.chain addresses k k := by rw [hrep, hs₀', between_self, between_self]
      exact ⟨k + 1, ⟨hstart, hmlt, k, by omega, hfresh k k hself le_rfl hb⟩, rfl⟩

theorem Growing.step {s t : Watcher} {e : Event} (hsome : addresses ≠ []) (h : Growing E addresses start s)
    (hgrows : Grows E addresses s e) (hstep : Steps E s e t) : Growing E addresses start t := by
  have hrem : Remembers t.announced (t.reported.map (creditId E)) := h.remembers.step hstep
  have hok := h.phase
  unfold PhaseOk at hok
  cases e with
  | append b =>
    cases hstep
    exact h.append b hgrows
  | reorg keep blocks => exact hgrows.elim
  | wake =>
    simp only [Steps, Watcher.step] at hstep
    cases hp : s.phase with
    | waiting =>
      rw [hp] at hstep hok
      dsimp only at hstep
      split at hstep
      · rename_i hnew
        cases hstep
        have hne : s.seen ≠ s.tips.version := by simpa [Channel.changed] using hnew
        have hle := h.seen
        exact ⟨hrem, h.nodup, h.small, h.nonempty, h.tip, le_rfl, hok.1, by change 0 < s.tips.version; omega⟩
      · cases hstep
    | woken => rw [hp] at hstep; cases hstep
    | scanning => rw [hp] at hstep; cases hstep
  | look addresses' =>
    simp only [Steps, Watcher.step] at hstep
    obtain rfl : addresses' = addresses := hgrows
    cases hp : s.phase with
    | waiting => rw [hp] at hstep; cases hstep
    | woken =>
      rw [hp] at hstep hok
      dsimp only at hstep
      have hnonempty : addresses'.isEmpty = false := by simpa using hsome
      rw [hnonempty] at hstep
      cases hstep
      obtain ⟨⟨hstart, hlt, hrep⟩, hversion⟩ := hok
      obtain ⟨hpos, htip⟩ := h.tip hversion
      refine ⟨hrem, h.nodup, h.small, h.nonempty, h.tip, h.seen, rfl, hpos,
          ?_, by change _ < s.chain.length; omega, fun _ => htip,
        s.lastScanned, ⟨hstart, hlt, hrep⟩, ?_⟩
      · split <;> omega
      · split <;> omega
    | scanning => rw [hp] at hstep; cases hstep
  | scan found =>
    obtain rfl : found = true := hgrows
    simp only [Steps, Watcher.step] at hstep
    cases hp : s.phase with
    | waiting => rw [hp] at hstep; cases hstep
    | woken => rw [hp] at hstep; cases hstep
    | scanning addresses' next height =>
      rw [hp] at hstep hok
      dsimp only at hstep
      obtain ⟨rfl, hheight, hnext, hlt, hquiet, -⟩ := hok
      split at hstep
      · cases hstep
      · rename_i hle
        obtain ⟨b, hb⟩ : ∃ b, s.chain[next]? = some b := ⟨_, List.getElem?_eq_getElem (by omega)⟩
        rw [hb] at hstep
        cases hstep
        obtain ⟨m, hrep, hm⟩ := h.scan hp (by omega) hb
        exact ⟨hrem, h.nodup, h.small, h.nonempty, h.tip, h.seen, rfl, hheight, by omega, hlt, hquiet, m, hrep,
          .inl hm⟩
  | rest =>
    simp only [Steps, Watcher.step] at hstep
    cases hp : s.phase with
    | waiting => rw [hp] at hstep; cases hstep
    | woken => rw [hp] at hstep; cases hstep
    | scanning addresses' next height =>
      rw [hp] at hstep hok
      dsimp only at hstep
      obtain ⟨-, hheight, hnext, hlt, hquiet, m, hrep, hm⟩ := hok
      split at hstep
      · rename_i hdone
        cases hstep
        obtain rfl : m = height := by omega
        exact ⟨hrem, h.nodup, h.small, h.nonempty, h.tip, h.seen, hrep, hquiet⟩
      · cases hstep

end CreditNotices

end Alphanumeric
