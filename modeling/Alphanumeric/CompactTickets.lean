/-
# Each announcement is spent once

What the books about compact blocks guarantee over whole runs, for any messages in any
order. A token recorded for a peer pays for one body and for one of ACK and full block; a token received pays for
one answer. Both are kept as accounts: what was spent under a ticket and what can still be
spent never exceed what was recorded. A worker younger than the time limit has its claim in the
map, so there is one for a block, and it can only give back its own.

Key definitions: `did`, `CompactRelay.shows`, `CompactRelay.Inv`, `CompactRelay.Right`, `CompactRelay.Refills`.
Key theorems: `CompactRelay.step_inv`, `CompactRelay.evidence_returned`, `CompactRelay.compact_relay_right`.
-/
import Alphanumeric.CompactRelay
import Alphanumeric.Lib.Tasks
import Alphanumeric.Lib.Trace
import Mathlib.Data.List.Perm.Subperm

namespace Alphanumeric

open Tasks

/-- The tickets under which deeds of these kinds were done. -/
def did (deeds : List RelayDeed) (log : List (RelayDeed × Ticket)) : List Ticket :=
  (log.filter fun e => e.1 ∈ deeds).map Prod.snd

theorem count_did_cons (deeds : List RelayDeed) (d : RelayDeed) (x y : Ticket) (log : List (RelayDeed × Ticket)) :
    (did deeds ((d, y) :: log)).count x = (did deeds log).count x + if d ∈ deeds ∧ y = x then 1 else 0 := by
  unfold did
  by_cases hd : d ∈ deeds
  · rw [List.filter_cons_of_pos (by simpa using hd), List.map_cons, List.count_cons]
    simp [hd]
  · rw [List.filter_cons_of_neg (by simpa using hd)]
    simp [hd]

theorem count_did_other {deeds : List RelayDeed} {d : RelayDeed} (h : d ∉ deeds) (x y : Ticket)
    (log : List (RelayDeed × Ticket)) : (did deeds ((d, y) :: log)).count x = (did deeds log).count x := by
  rw [count_did_cons, if_neg fun hand => h hand.1, Nat.add_zero]

theorem eq_of_ticket_parts {x y : Ticket} (hkey : (x.block, x.peer) = (y.block, y.peer)) (htoken : y.token = x.token) :
    y = x := by
  obtain ⟨hb, hq⟩ := Prod.mk.inj hkey
  cases x
  cases y
  simp only [Ticket.mk.injEq] at *
  exact ⟨hb.symm, hq.symm, htoken⟩

namespace CompactRelay

variable {s s' : CompactRelay} {x : Ticket}

/-! ### What may still be spent -/

/-- One, if the ticket's announcement is the peer's last one and passes the test. -/
def shows (s : CompactRelay) (p : CompactAnnounceEntry → Bool) (x : Ticket) : ℕ :=
  if (s.entryAt x.block x.peer).any (fun e => e.token = x.token && p e) then 1 else 0

def isPending (e : CompactAnnounceEntry) : Bool := e.status = .pending

def isServable (e : CompactAnnounceEntry) : Bool := e.status = .pending && !e.bodyServed

/-- What the ticket's evidence in the map is worth. -/
def evident (s : CompactRelay) (x : Ticket) : ℕ :=
  if (s.evidence.lookup (x.block, x.peer)).any (fun v => v.token = x.token) then 1 else 0

/-- What the lease is worth to the ticket: its send is under way. -/
def bears (x : Ticket) (lease : CompactEvidenceLease) : ℕ :=
  if lease.state = .out ∧ (⟨lease.block, lease.peer, lease.value.token⟩ : Ticket) = x then 1 else 0

theorem shows_le_one (s : CompactRelay) (p : CompactAnnounceEntry → Bool) (x : Ticket) : s.shows p x ≤ 1 := by
  unfold shows
  split_ifs
  · exact le_rfl
  · exact Nat.zero_le _

theorem shows_mono {p : CompactAnnounceEntry → Bool}
    (h : ∀ e, s'.entryAt x.block x.peer = some e → s.entryAt x.block x.peer = some e) : s'.shows p x ≤ s.shows p x := by
  unfold shows
  cases he : s'.entryAt x.block x.peer with
  | none => exact Nat.zero_le _
  | some e => rw [h e he]

theorem evident_le_one (s : CompactRelay) (x : Ticket) : s.evident x ≤ 1 := by
  unfold evident
  split_ifs
  · exact le_rfl
  · exact Nat.zero_le _

theorem evident_mono
    (h : ∀ v, s'.evidence.lookup (x.block, x.peer) = some v → s.evidence.lookup (x.block, x.peer) = some v) :
    s'.evident x ≤ s.evident x := by
  unfold evident
  cases hv : s'.evidence.lookup (x.block, x.peer) with
  | none => exact Nat.zero_le _
  | some v => rw [h v hv]

/-! ### The accounts of the announcements -/

/-- What was spent under each ticket, with what may still be, is covered by its announcements. -/
def Covered (s : CompactRelay) (deeds : List RelayDeed) (p : CompactAnnounceEntry → Bool) : Prop :=
  ∀ x, (did deeds s.log).count x + s.shows p x ≤ (did [.announced] s.log).count x

theorem entryAt_record {x : Ticket} {b : Hash} {q : PeerAddr} {e : CompactAnnounceEntry}
    (h : (s.recordCompactAnnounce x).entryAt b q = some e) :
    (b, q) = (x.block, x.peer) ∧ e = ⟨x.token, .pending, false, s.now⟩ ∨
      (b, q) ≠ (x.block, x.peer) ∧ s.entryAt b q = some e := by
  unfold recordCompactAnnounce at h
  cases hm : Lru.peek s.announced x.block with
  | some peers =>
    simp only [hm, entryAt, Lru.peek_modify] at h
    by_cases hb : b = x.block
    · rw [if_pos hb] at h
      simp only [Option.map_some, Option.bind_some, Table.lookup_insert_ite] at h
      by_cases hq : q = x.peer
      · rw [if_pos hq] at h
        exact .inl ⟨Prod.ext hb hq, (Option.some.inj h).symm⟩
      · rw [if_neg hq] at h
        refine .inr ⟨fun heq => hq (congrArg Prod.snd heq), ?_⟩
        rw [entryAt, hb, hm]
        exact h
    · rw [if_neg hb] at h
      exact .inr ⟨fun heq => hb (congrArg Prod.fst heq), h⟩
  | none =>
    simp only [hm, entryAt] at h
    obtain ⟨peers, hpeek, hpeer⟩ := Option.bind_eq_some_iff.mp h
    rcases Lru.peek_put hpeek with ⟨hb, rfl⟩ | ⟨hb, hpeek'⟩
    · rw [Table.lookup_insert_ite] at hpeer
      by_cases hq : q = x.peer
      · rw [if_pos hq] at hpeer
        exact .inl ⟨Prod.ext hb hq, (Option.some.inj hpeer).symm⟩
      · rw [if_neg hq] at hpeer
        cases hpeer
    · exact .inr ⟨fun heq => hb (congrArg Prod.fst heq), by rw [entryAt, hpeek']; exact hpeer⟩

theorem Covered.announce {deeds : List RelayDeed} {p : CompactAnnounceEntry → Bool} (h : s.Covered deeds p)
    (hd : .announced ∉ deeds) (y : Ticket) : ((s.recordCompactAnnounce y).note .announced y).Covered deeds p := by
  have hlog : (s.recordCompactAnnounce y).log = s.log := by
    unfold recordCompactAnnounce
    cases Lru.peek s.announced y.block with
    | some peers => rfl
    | none => rfl
  intro x
  change (did deeds ((.announced, y) :: (s.recordCompactAnnounce y).log)).count x +
    (s.recordCompactAnnounce y).shows p x ≤
    (did [.announced] ((.announced, y) :: (s.recordCompactAnnounce y).log)).count x
  rw [hlog, count_did_other hd, count_did_cons]
  have hx := h x
  by_cases hyx : y = x
  · have hone := shows_le_one (s.recordCompactAnnounce y) p x
    rw [if_pos ⟨List.mem_singleton.mpr rfl, hyx⟩]
    omega
  · -- Another ticket of the same block and peer is replaced; the rest are as they were.
    have hshows : (s.recordCompactAnnounce y).shows p x ≤ s.shows p x := by
      unfold shows
      cases he : (s.recordCompactAnnounce y).entryAt x.block x.peer with
      | none => exact Nat.zero_le _
      | some e =>
        rcases entryAt_record he with ⟨hkey, rfl⟩ | ⟨-, hold⟩
        · have htoken : y.token ≠ x.token := fun htoken => hyx (eq_of_ticket_parts hkey htoken)
          simp [htoken]
        · rw [hold]
    rw [if_neg fun hand => hyx hand.2]
    omega

/-- What the entries are after a message that `f` judges. -/
theorem entryAt_admitOnce (f : CompactAnnounceEntry → Option CompactAnnounceEntry) (d : RelayDeed) (y : Ticket)
    (b : Hash)
    (q : PeerAddr) : (s.admitOnce y f d).entryAt b q =
      if (b, q) = (y.block, y.peer) then (s.entryAt b q).map fun e => (f e).getD e else s.entryAt b q := by
  have hnote : (s.admitOnce y f d).entryAt b q = (Lru.peek (Lru.modify s.announced y.block fun peers =>
      ((peers.lookup y.peer).bind f).elim peers (peers.insert y.peer)) b).bind (·.lookup q) := by
    unfold admitOnce
    simp only
    split_ifs
    · change (Lru.peek (Lru.modify s.announced y.block _) b).bind _ = _
      congr 3
      funext peers
      cases (peers.lookup y.peer).bind f <;> rfl
    · change (Lru.peek (Lru.modify s.announced y.block _) b).bind _ = _
      congr 3
      funext peers
      cases (peers.lookup y.peer).bind f <;> rfl
  rw [hnote, Lru.peek_modify]
  by_cases hb : b = y.block
  · subst hb
    rw [if_pos rfl, entryAt]
    cases hm : Lru.peek s.announced y.block with
    | none => simp
    | some peers =>
      simp only [Option.map_some, Option.bind_some]
      cases hf : (peers.lookup y.peer).bind f with
      | none =>
        rw [Option.elim_none]
        by_cases hq : q = y.peer
        · subst hq
          cases he : peers.lookup y.peer with
          | none => simp
          | some e =>
            have hfe : f e = none := by simpa [he] using hf
            simp [hfe]
        · simp [hq]
      | some entry =>
        rw [Option.elim_some, Table.lookup_insert_ite]
        by_cases hq : q = y.peer
        · subst hq
          obtain ⟨e, he, hfe⟩ := Option.bind_eq_some_iff.mp hf
          simp [he, hfe]
        · simp [hq]
  · rw [if_neg hb, if_neg fun heq => hb (congrArg Prod.fst heq), entryAt]

theorem log_admitOnce (f : CompactAnnounceEntry → Option CompactAnnounceEntry) (d : RelayDeed) (y : Ticket) :
    (s.admitOnce y f d).log = if ((s.entryAt y.block y.peer).bind f).isSome then (d, y) :: s.log else s.log := by
  unfold admitOnce
  simp only
  split_ifs
  · rfl
  · rfl

/-- A message that is admitted spends, if its kind is one that counts. -/
theorem Covered.admitOnce {deeds : List RelayDeed} {p : CompactAnnounceEntry → Bool} (h : s.Covered deeds p)
    {f : CompactAnnounceEntry → Option CompactAnnounceEntry} {d : RelayDeed}
    (hd : d ≠ .announced) (y : Ticket)
    (hf : ∀ e e', f e = some e' → e.token = y.token ∧ e'.token = y.token ∧ (p e' = true → p e = true) ∧
      (d ∈ deeds → p e = true ∧ p e' = false)) : (s.admitOnce y f d).Covered deeds p := by
  intro x
  rw [log_admitOnce]
  have hx := h x
  have hframe : ((s.entryAt y.block y.peer).bind f = none ∨ (x.block, x.peer) ≠ (y.block, y.peer)) →
      (s.admitOnce y f d).shows p x = s.shows p x := by
    intro hsame
    unfold shows
    rw [entryAt_admitOnce]
    by_cases hkey : (x.block, x.peer) = (y.block, y.peer)
    · obtain ⟨hb, hq⟩ := Prod.mk.inj hkey
      rw [if_pos hkey, hb, hq]
      cases he : s.entryAt y.block y.peer with
      | none => rfl
      | some e =>
        have hfe : f e = none := by simpa [he, hkey] using hsame
        simp [hfe]
    · rw [if_neg hkey]
  cases hbind : (s.entryAt y.block y.peer).bind f with
  | none =>
    rw [hframe (.inl hbind)]
    exact hx
  | some e' =>
    obtain ⟨e, he, hfe⟩ := Option.bind_eq_some_iff.mp hbind
    obtain ⟨htoken, htoken', hkeep, hspend⟩ := hf e e' hfe
    rw [if_pos Option.isSome_some, count_did_cons, count_did_other (by simpa using hd)]
    by_cases hkey : (x.block, x.peer) = (y.block, y.peer)
    · obtain ⟨hb, hq⟩ := Prod.mk.inj hkey
      have hold : s.shows p x = if y.token = x.token ∧ p e = true then 1 else 0 := by
        simp [shows, hb, hq, he, htoken]
      have hafter : (s.admitOnce y f d).shows p x = if y.token = x.token ∧ p e' = true then 1 else 0 := by
        simp [shows, entryAt_admitOnce, hb, hq, he, hfe, htoken']
      by_cases hyx : y = x
      · subst hyx
        rw [hold] at hx
        rw [hafter]
        by_cases hcounts : d ∈ deeds
        · obtain ⟨hp, hp'⟩ := hspend hcounts
          simp only [hp, hp', hcounts, and_self, if_true, Bool.false_eq_true, and_false, if_false] at hx ⊢
          omega
        · simp only [hcounts, false_and, if_false, true_and] at hx ⊢
          split_ifs with hp'
          · rw [if_pos (hkeep hp')] at hx
            omega
          · omega
      · have htx : y.token ≠ x.token := fun htx => hyx (eq_of_ticket_parts hkey htx)
        rw [hafter, if_neg fun hand => hyx hand.2, if_neg fun hand => htx hand.1]
        omega
    · have hyx : y ≠ x := by
        rintro rfl
        exact hkey rfl
      rw [hframe (.inr hkey), if_neg fun hand => hyx hand.2]
      omega

theorem entryAt_cancel {y : Ticket} {b : Hash} {q : PeerAddr} {e : CompactAnnounceEntry}
    (h : (s.cancelCompactAnnounce y).entryAt b q = some e) : s.entryAt b q = some e := by
  have hmodify : ∀ b, Lru.peek (Lru.modify s.announced y.block fun peers =>
      if (peers.lookup y.peer).map (·.token) = some y.token then peers.erase y.peer else peers) b =
        if b = y.block then (Lru.peek s.announced y.block).map fun peers =>
          if (peers.lookup y.peer).map (·.token) = some y.token then peers.erase y.peer else peers
        else Lru.peek s.announced b := fun b => Lru.peek_modify _ _ _ _
  -- Whether or not the emptied block goes too, what is left was there.
  have hpeek : ∃ peers, (Lru.peek (Lru.modify s.announced y.block fun peers =>
      if (peers.lookup y.peer).map (·.token) = some y.token then peers.erase y.peer else peers) b) = some peers ∧
        peers.lookup q = some e := by
    unfold cancelCompactAnnounce at h
    simp only at h
    split_ifs at h
    · obtain ⟨peers, hpeek, hpeer⟩ := Option.bind_eq_some_iff.mp h
      rw [Lru.peek_pop] at hpeek
      split_ifs at hpeek
      exact ⟨peers, hpeek, hpeer⟩
    · exact Option.bind_eq_some_iff.mp h
  obtain ⟨peers, hpeers, hpeer⟩ := hpeek
  rw [hmodify] at hpeers
  by_cases hb : b = y.block
  · rw [if_pos hb] at hpeers
    obtain ⟨peers', hpeek', rfl⟩ := Option.map_eq_some_iff.mp hpeers
    rw [entryAt, hb, hpeek', Option.bind_some]
    split_ifs at hpeer
    · rw [Table.lookup_erase_ite] at hpeer
      split_ifs at hpeer
      exact hpeer
    · exact hpeer
  · rw [if_neg hb] at hpeers
    rw [entryAt, hpeers]
    exact hpeer

/-! ### The accounts of the evidence -/

/-- The answers sent under each ticket, those under way and the evidence left are covered by its receipts. -/
def Answered (s : CompactRelay) : Prop :=
  ∀ x, (did [.ackSent, .wantFullSent] s.log).count x + weigh (bears x) s.leases + s.evident x ≤
    (did [.received] s.log).count x

theorem Answered.less (h : s.Answered) (hleases : s'.leases = s.leases)
    (hlog : s'.log = s.log ∨ ∃ d y, s'.log = (d, y) :: s.log ∧ d ∉ [.ackSent, .wantFullSent, .received])
    (hevidence : ∀ key v, s'.evidence.lookup key = some v → s.evidence.lookup key = some v) : s'.Answered := by
  intro x
  have hevident := evident_mono (x := x) (hevidence (x.block, x.peer))
  have hx := h x
  rw [hleases]
  rcases hlog with hlog | ⟨d, y, hlog, hd⟩
  · rw [hlog]
    omega
  · simp only [List.mem_cons, List.not_mem_nil, or_false, not_or] at hd
    rw [hlog, count_did_other (by simp [hd.1, hd.2.1]), count_did_other (by simp [hd.2.2])]
    omega

theorem lookup_retainEvidence {key : Hash × PeerAddr} {v : ReceivedEvidence}
    (h : s.retainEvidence.evidence.lookup key = some v) : s.evidence.lookup key = some v :=
  (Table.lookup_keep.mp h).1

/-- The evidence of a ticket is put in the map, and a receipt is noted. -/
theorem Answered.insert (h : s.Answered) (y : Ticket) (receivedAt : ℕ) :
    ({ s with evidence := s.evidence.insert (y.block, y.peer) ⟨y.token, receivedAt⟩ }.note .received y).Answered := by
  intro x
  change (did [.ackSent, .wantFullSent] ((.received, y) :: s.log)).count x + weigh (bears x) s.leases +
    ({ s with evidence := s.evidence.insert (y.block, y.peer) ⟨y.token, receivedAt⟩ } : CompactRelay).evident x ≤
      (did [.received] ((.received, y) :: s.log)).count x
  rw [count_did_other (by simp), count_did_cons]
  have hx := h x
  by_cases hyx : y = x
  · have hone := evident_le_one ({ s with evidence := s.evidence.insert (y.block, y.peer) ⟨y.token, receivedAt⟩ }) x
    rw [if_pos ⟨List.mem_singleton.mpr rfl, hyx⟩]
    omega
  · have hevident :
        ({ s with evidence := s.evidence.insert (y.block, y.peer) ⟨y.token, receivedAt⟩ } : CompactRelay).evident x ≤
          s.evident x := by
      unfold evident
      simp only [Table.lookup_insert_ite]
      by_cases hkey : (x.block, x.peer) = (y.block, y.peer)
      · rw [if_pos hkey]
        have htoken : y.token ≠ x.token := fun htoken => hyx (eq_of_ticket_parts hkey htoken)
        simp [htoken]
      · rw [if_neg hkey]
    rw [if_neg fun hand => hyx hand.2]
    omega

theorem Answered.receive (h : s.Answered) (y : Ticket) : (s.recordCompactV2Evidence y).Answered := by
  have hretain : s.retainEvidence.Answered := h.less rfl (.inl rfl) fun _ _ => lookup_retainEvidence
  unfold recordCompactV2Evidence
  simp only
  split_ifs
  · exact hretain
  · exact hretain.insert y s.now
  · exact h.insert y s.now

theorem Answered.send (h : s.Answered) (block : Hash) (peer : PeerAddr) (wantFull : Bool) :
    (s.takeCompactV2Evidence block peer wantFull).Answered := by
  unfold takeCompactV2Evidence
  cases hv : s.evidence.lookup (block, peer) with
  | none => exact h
  | some value =>
    have hless : ∀ key v, (s.evidence.erase (block, peer)).lookup key = some v → s.evidence.lookup key = some v := by
      intro key v hkey
      rw [Table.lookup_erase_ite] at hkey
      split_ifs at hkey
      exact hkey
    simp only
    split_ifs
    · exact h.less rfl (.inl rfl) hless
    · -- The ticket's evidence moves from the map to the lease.
      intro x
      have hx := h x
      set s' : CompactRelay := { s with
        evidence := s.evidence.erase (block, peer)
        leases := s.leases ++ [⟨block, peer, value, wantFull, .out⟩] } with hs'
      change (did [.ackSent, .wantFullSent] s.log).count x + weigh (bears x) s'.leases + s'.evident x ≤
        (did [.received] s.log).count x
      have hlease : weigh (bears x) s'.leases = weigh (bears x) s.leases + bears x ⟨block, peer, value,
          wantFull, .out⟩ := by
        rw [hs', weigh_append, weigh_singleton]
      have hevident : bears x ⟨block, peer, value, wantFull, .out⟩ + s'.evident x ≤ s.evident x := by
        by_cases hbears : (⟨block, peer, value.token⟩ : Ticket) = x
        · subst hbears
          simp [bears, evident, hs', hv]
        · have hnone : bears x ⟨block, peer, value, wantFull, .out⟩ = 0 := if_neg fun hand => hbears hand.2
          have hmono : s'.evident x ≤ s.evident x := evident_mono (hless (x.block, x.peer))
          omega
      omega

theorem Answered.finish (h : s.Answered) (i : ℕ) (ok : Bool) : (s.finishLease i ok).Answered := by
  unfold finishLease
  cases hl : s.leases[i]? with
  | none => exact h
  | some lease =>
    simp only
    by_cases hout : lease.state = .out
    · rw [if_neg fun hne => hne hout]
      -- The lease is worth nothing after, and its ticket one less.
      have hset : ∀ (x : Ticket) (st : LeaseState), st ≠ .out →
          weigh (bears x) (s.leases.set i { lease with state := st }) + bears x lease = weigh (bears x) s.leases := by
        intro x st hst
        have hw := weigh_set (bears x) { lease with state := st } hl
        have hnone : bears x { lease with state := st } = 0 := if_neg fun hand => hst hand.1
        omega
      cases ok with
      | true =>
        simp only [if_true]
        intro x
        change (did [.ackSent, .wantFullSent] ((_, _) :: s.log)).count x +
          weigh (bears x) (s.leases.set i { lease with state := .committed }) + s.evident x ≤
            (did [.received] ((_, _) :: s.log)).count x
        have hx := h x
        have hw := hset x .committed (by simp)
        rw [count_did_cons, count_did_other (by cases lease.wantFull with | true => simp | false => simp)]
        have hmem : (if lease.wantFull = true then RelayDeed.wantFullSent else .ackSent) ∈
            [RelayDeed.ackSent, .wantFullSent] := by
          cases lease.wantFull with
          | true => simp
          | false => simp
        have hone : bears x lease = if (⟨lease.block, lease.peer, lease.value.token⟩ : Ticket) = x then 1 else 0 := by
          simp [bears, hout]
        simp only [hmem, true_and]
        omega
      | false =>
        simp only [Bool.false_eq_true, if_false, dropLease]
        have hdropped : (s.setLease i lease .dropped).Answered := by
          intro x
          have hx := h x
          have hw := hset x .dropped (by simp)
          change (did [.ackSent, .wantFullSent] s.log).count x +
            weigh (bears x) (s.leases.set i { lease with state := .dropped }) + s.evident x ≤
              (did [.received] s.log).count x
          omega
        split_ifs with hback
        · intro x
          have hx := h x
          have hw := hset x .dropped (by simp)
          set s' : CompactRelay := { s.setLease i lease .dropped with
            evidence := s.evidence.insert (lease.block, lease.peer) lease.value } with hs'
          change (did [.ackSent, .wantFullSent] s.log).count x +
            weigh (bears x) (s.leases.set i { lease with state := .dropped }) + s'.evident x ≤
              (did [.received] s.log).count x
          have hevident : s'.evident x ≤ s.evident x + bears x lease := by
            by_cases hticket : (⟨lease.block, lease.peer, lease.value.token⟩ : Ticket) = x
            · have hbears : bears x lease = 1 := if_pos ⟨hout, hticket⟩
              have hone := evident_le_one s' x
              omega
            · refine le_trans ?_ (Nat.le_add_right _ _)
              unfold evident
              simp only [hs', Table.lookup_insert_ite]
              by_cases hkey : (x.block, x.peer) = (lease.block, lease.peer)
              · have htoken : lease.value.token ≠ x.token := fun htoken => hticket (eq_of_ticket_parts hkey htoken)
                rw [if_pos hkey]
                simp [htoken]
              · rw [if_neg hkey]
          omega
        · exact hdropped
    · rw [if_pos hout]
      exact h

/-! ### Claims -/

/-- A claim that is younger than the time limit and not released is the one in the map. -/
structure Claimed (s : CompactRelay) : Prop where
  past : ∀ c ∈ s.claims, c.started ≤ s.now
  shown : ∀ c ∈ s.claims, c.released = false → s.now - c.started < compactInflightTtl →
    (s.inflight.lookup c.block).map (·.started) = some c.started
  single : ∀ (i j : ℕ) (c c' : CompactClaim), s.claims[i]? = some c → s.claims[j]? = some c' →
    c.released = false → c'.released = false → c.block = c'.block → c.started = c'.started → i = j

/-- Time passes, or something else happens. -/
theorem Claimed.frame (h : s.Claimed) (hnow : s.now ≤ s'.now) (hinflight : s'.inflight = s.inflight)
    (hclaims : s'.claims = s.claims) : s'.Claimed := by
  refine ⟨?_, ?_, ?_⟩
  · intro c hc
    rw [hclaims] at hc
    exact (h.past c hc).trans hnow
  · intro c hc hlive hyoung
    rw [hclaims] at hc
    rw [hinflight]
    exact h.shown c hc hlive (by omega)
  · rw [hclaims]
    exact h.single

/-- A claim is made where no young one is in the map. -/
theorem Claimed.new (h : s.Claimed) (block : Hash) (source : PeerAddr)
    (hold : ∀ current, s.inflight.lookup block = some current → compactInflightTtl ≤ s.now - current.started) :
    ({ s with
        inflight := s.inflight.insert block ⟨s.now, [source]⟩
        claims := s.claims ++ [⟨block, s.now, false⟩] } : CompactRelay).Claimed := by
  have hmem : ∀ c, c ∈ s.claims ++ [⟨block, s.now, false⟩] → c ∈ s.claims ∨ c = ⟨block, s.now, false⟩ := by
    intro c hc
    simpa using hc
  -- Whoever holds a young claim on the block would have it in the map.
  have hnone : ∀ c ∈ s.claims, c.released = false → s.now - c.started < compactInflightTtl → c.block ≠ block := by
    intro c hc hlive hyoung hblock
    obtain ⟨current, hcurrent, hstarted⟩ := Option.map_eq_some_iff.mp (h.shown c hc hlive hyoung)
    rw [hblock] at hcurrent
    have := hold current hcurrent
    rw [hstarted] at this
    omega
  have hzero : s.now - s.now < compactInflightTtl := by
    rw [Nat.sub_self]
    decide
  refine ⟨?_, ?_, ?_⟩
  · intro c hc
    rcases hmem c hc with hbefore | rfl
    · exact h.past c hbefore
    · exact le_rfl
  · intro c hc hlive hyoung
    change ((s.inflight.insert block _).lookup c.block).map (·.started) = some c.started
    rw [Table.lookup_insert_ite]
    rcases hmem c hc with hbefore | rfl
    · rw [if_neg (hnone c hbefore hlive hyoung)]
      exact h.shown c hbefore hlive hyoung
    · rw [if_pos rfl]
      rfl
  · have hfirst : ∀ (j : ℕ) (c : CompactClaim), s.claims[j]? = some c → c.released = false → c.block = block →
        c.started ≠ s.now := by
      intro j c hj hlive hblock hstarted
      exact hnone c (List.mem_of_getElem? hj) hlive (hstarted ▸ hzero) hblock
    intro i j c c' hi hj hlive hlive' hblock hstarted
    rcases get_append_cases hi with hbefore | ⟨rfl, rfl⟩
    · rcases get_append_cases hj with hbefore' | ⟨rfl, rfl⟩
      · exact h.single i j c c' hbefore hbefore' hlive hlive' hblock hstarted
      · exact absurd hstarted (hfirst i c hbefore hlive hblock)
    · rcases get_append_cases hj with hbefore' | ⟨rfl, rfl⟩
      · exact absurd hstarted.symm (hfirst j c' hbefore' hlive' hblock.symm)
      · rfl

theorem Claimed.claim (h : s.Claimed) (block : Hash) (source : PeerAddr) :
    (s.claimCompactInflight block source).Claimed := by
  unfold claimCompactInflight
  cases hcurrent : s.inflight.lookup block with
  | none =>
    refine h.new block source ?_
    intro current hc
    rw [hcurrent] at hc
    cases hc
  | some current =>
    simp only
    split_ifs with hyoung
    · refine ⟨h.past, ?_, h.single⟩
      intro c hc hlive hc_young
      change ((s.inflight.insert block _).lookup c.block).map (·.started) = some c.started
      have hshown := h.shown c hc hlive hc_young
      rw [Table.lookup_insert_ite]
      by_cases hblock : c.block = block
      · rw [hblock, hcurrent] at hshown
        rw [if_pos hblock]
        exact hshown
      · rw [if_neg hblock]
        exact hshown
    · refine h.new block source ?_
      intro current' hc'
      rw [hcurrent] at hc'
      cases hc'
      omega

theorem Claimed.release (h : s.Claimed) (i : ℕ) : (s.releaseCompactInflight i).Claimed := by
  unfold releaseCompactInflight
  cases hi : s.claims[i]? with
  | none => exact h
  | some claim =>
    simp only
    by_cases hreleased : claim.released = true
    · rw [if_pos hreleased]
      exact h
    rw [if_neg hreleased]
    have hlive₀ : claim.released = false := by simpa using hreleased
    have hold : ∀ (j : ℕ) (c : CompactClaim), (s.claims.set i { claim with released := true })[j]? = some c →
        c.released = false → j ≠ i ∧ s.claims[j]? = some c := by
      intro j c hj hlive
      rcases get_set_cases hj with ⟨-, rfl⟩ | ⟨hne, hbefore⟩
      · cases hlive
      · exact ⟨hne, hbefore⟩
    refine ⟨?_, ?_, ?_⟩
    · intro c hc
      rcases List.mem_or_eq_of_mem_set hc with hbefore | rfl
      · exact h.past c hbefore
      · exact h.past claim (List.mem_of_getElem? hi)
    · intro c hc hlive hyoung
      obtain ⟨j, hj⟩ := List.getElem?_of_mem hc
      obtain ⟨hne, hbefore⟩ := hold j c hj hlive
      have hshown := h.shown c (List.mem_of_getElem? hbefore) hlive hyoung
      simp only
      by_cases hown : (s.inflight.lookup claim.block).map (·.started) = some claim.started
      · rw [if_pos hown, Table.lookup_erase_ite]
        by_cases hblock : c.block = claim.block
        · -- Two young claims on one block would be one.
          rw [hblock, hown] at hshown
          exact absurd (h.single j i c claim hbefore hi hlive hlive₀ hblock (Option.some.inj hshown).symm) hne
        · rw [if_neg hblock]
          exact hshown
      · rw [if_neg hown]
        exact hshown
    · intro j k c c' hj hk hlive hlive' hblock hstarted
      obtain ⟨-, hbefore⟩ := hold j c hj hlive
      obtain ⟨-, hbefore'⟩ := hold k c' hk hlive'
      exact h.single j k c c' hbefore hbefore' hlive hlive' hblock hstarted

theorem Claimed.prune (h : s.Claimed) : s.pruneInflight.Claimed := by
  refine ⟨h.past, ?_, h.single⟩
  intro c hc hlive hyoung
  obtain ⟨current, hcurrent, hstarted⟩ := Option.map_eq_some_iff.mp (h.shown c hc hlive hyoung)
  have hkept : (s.pruneInflight.inflight).lookup c.block = some current := by
    refine Table.lookup_keep.mpr ⟨hcurrent, ?_⟩
    rw [hstarted]
    have hnow : s.now - c.started < compactInflightTtl := hyoung
    simpa using hnow
  rw [hkept]
  exact congrArg some hstarted

/-! ### Steps and runs -/

structure Inv (s : CompactRelay) : Prop where
  bodies : s.Covered [.bodyServed] isServable
  ends : s.Covered [.acked, .fullServed] isPending
  answers : s.Answered
  claimed : s.Claimed
  /-- No body is served under a ticket that an ACK or a full block has ended. -/
  ordered : (did [.announced] s.log).Nodup → s.log.Pairwise fun later earlier =>
    later.1 = .bodyServed → earlier.1 ∈ [RelayDeed.acked, .fullServed] → earlier.2 ≠ later.2

theorem inv_new : new.Inv := by
  refine ⟨fun x => Nat.zero_le _, fun x => Nat.zero_le _, fun x => Nat.zero_le _, ⟨?_, ?_, ?_⟩, fun _ => .nil⟩
  · intro c hc
    cases hc
  · intro c hc
    cases hc
  · intro i j c c' hi
    cases hi

theorem nodup_did_of_cons {d : RelayDeed} {y : Ticket} {deeds : List RelayDeed} {log : List (RelayDeed × Ticket)}
    (h : (did deeds ((d, y) :: log)).Nodup) : (did deeds log).Nodup :=
  h.sublist (((List.sublist_cons_self _ _).filter _).map _)

/-- A deed other than a body's keeps the order. -/
theorem ordered_note {log : List (RelayDeed × Ticket)} {d : RelayDeed} {y : Ticket} (hd : d ≠ .bodyServed)
    (h : (did [.announced] log).Nodup → log.Pairwise fun later earlier =>
      later.1 = .bodyServed → earlier.1 ∈ [RelayDeed.acked, .fullServed] → earlier.2 ≠ later.2) :
    (did [.announced] ((d, y) :: log)).Nodup → ((d, y) :: log).Pairwise fun later earlier =>
      later.1 = .bodyServed → earlier.1 ∈ [RelayDeed.acked, .fullServed] → earlier.2 ≠ later.2 := by
  intro hnodup
  refine List.pairwise_cons.mpr ⟨?_, h (nodup_did_of_cons hnodup)⟩
  intro e _ hbody
  exact absurd hbody hd

theorem consume_parts {now : ℕ} {token : RelayToken} {e e' : CompactAnnounceEntry}
    (h : consumeCompactBodyAuthorization now token e = some e') :
    e.token = token ∧ e.status = .pending ∧ e.bodyServed = false ∧ e' = { e with bodyServed := true } := by
  unfold consumeCompactBodyAuthorization at h
  split_ifs at h with hbad
  simp only [not_or, not_not, Bool.not_eq_true] at hbad
  exact ⟨hbad.1, hbad.2.1, hbad.2.2.1, (Option.some.inj h).symm⟩

theorem transition_parts {token : RelayToken} {next : CompactAnnounceStatus} {e e' : CompactAnnounceEntry}
    (h : transitionCompactAnnounce token next e = some e') :
    e.token = token ∧ e.status = .pending ∧ e' = { e with status := next } := by
  unfold transitionCompactAnnounce at h
  split_ifs at h with hbad
  simp only [not_or, not_not] at hbad
  exact ⟨hbad.1, hbad.2, (Option.some.inj h).symm⟩

theorem admit_frame (f : CompactAnnounceEntry → Option CompactAnnounceEntry) (d : RelayDeed) (y : Ticket) :
    (s.admitOnce y f d).evidence = s.evidence ∧ (s.admitOnce y f d).leases = s.leases ∧
      (s.admitOnce y f d).inflight = s.inflight ∧ (s.admitOnce y f d).claims = s.claims ∧
      (s.admitOnce y f d).now = s.now := by
  unfold admitOnce
  simp only
  split_ifs
  · exact ⟨rfl, rfl, rfl, rfl, rfl⟩
  · exact ⟨rfl, rfl, rfl, rfl, rfl⟩

/-- What a message does to the books that are not about announcements. -/
theorem Inv.admit_rest (h : s.Inv) (f : CompactAnnounceEntry → Option CompactAnnounceEntry) {d : RelayDeed} (y : Ticket)
    (hd : d ∉ [.ackSent, .wantFullSent, .received]) : (s.admitOnce y f d).Answered ∧ (s.admitOnce y f d).Claimed := by
  obtain ⟨hevidence, hleases, hinflight, hclaims, hnow⟩ := admit_frame (s := s) f d y
  refine ⟨h.answers.less hleases ?_ (by rw [hevidence]; exact fun _ _ hv => hv),
    h.claimed.frame hnow.ge hinflight hclaims⟩
  rw [log_admitOnce]
  split_ifs
  · exact .inr ⟨d, y, rfl, hd⟩
  · exact .inl rfl

theorem Inv.bodyRequest (h : s.Inv) (y : Ticket) : (s.admitCompactBodyRequest y).Inv := by
  obtain ⟨hanswers, hclaimed⟩ := h.admit_rest (consumeCompactBodyAuthorization s.now y.token) (d := .bodyServed) y
    (by simp)
  refine ⟨h.bodies.admitOnce (by simp) y ?_, h.ends.admitOnce (by simp) y ?_, hanswers, hclaimed, ?_⟩
  · intro e e' he
    obtain ⟨htoken, hstatus, hfresh, rfl⟩ := consume_parts he
    exact ⟨htoken, htoken, by simp [isServable], fun _ => ⟨by simp [isServable, hstatus, hfresh], by simp [isServable]⟩⟩
  · intro e e' he
    obtain ⟨htoken, hstatus, -, rfl⟩ := consume_parts he
    exact ⟨htoken, htoken, id, by simp⟩
  · unfold admitCompactBodyRequest
    rw [log_admitOnce]
    split_ifs with hsome
    · intro hnodup
      refine List.pairwise_cons.mpr ⟨?_, h.ordered (nodup_did_of_cons hnodup)⟩
      -- The entry is pending, so its one announcement has not been ended.
      rintro ⟨d, z⟩ hz - hended heq
      have heq' : z = y := heq
      subst heq'
      obtain ⟨e', he'⟩ := Option.isSome_iff_exists.mp hsome
      obtain ⟨e, he, hf⟩ := Option.bind_eq_some_iff.mp he'
      obtain ⟨htoken, hstatus, -, -⟩ := consume_parts hf
      have hshows : s.shows isPending z = 1 := by simp [shows, he, htoken, isPending, hstatus]
      have hone : (did [.announced] s.log).count z ≤ 1 :=
        List.nodup_iff_count_le_one.mp (nodup_did_of_cons hnodup) z
      have hends := h.ends z
      have hpos : 0 < (did [.acked, .fullServed] s.log).count z := by
        rw [List.count_pos_iff]
        refine List.mem_map.mpr ⟨(d, z), List.mem_filter.mpr ⟨hz, ?_⟩, rfl⟩
        simpa using hended
      omega
    · exact h.ordered

theorem Inv.transition (h : s.Inv) (y : Ticket) {next : CompactAnnounceStatus} {d : RelayDeed}
    (hnext : next ≠ .pending) (hd : d = .acked ∨ d = .fullServed) :
    (s.admitOnce y (transitionCompactAnnounce y.token next) d).Inv := by
  have hother : d ≠ .bodyServed ∧ d ≠ .announced ∧ d ∉ [.ackSent, .wantFullSent, .received] := by
    rcases hd with rfl | rfl
    · simp
    · simp
  obtain ⟨hanswers, hclaimed⟩ := h.admit_rest (transitionCompactAnnounce y.token next) y hother.2.2
  refine ⟨h.bodies.admitOnce hother.2.1 y ?_, h.ends.admitOnce hother.2.1 y ?_, hanswers, hclaimed, ?_⟩
  · intro e e' he
    obtain ⟨htoken, -, rfl⟩ := transition_parts he
    exact ⟨htoken, htoken, by simp [isServable, hnext], by simp [hother.1]⟩
  · intro e e' he
    obtain ⟨htoken, hstatus, rfl⟩ := transition_parts he
    exact ⟨htoken, htoken, by simp [isPending, hnext], fun _ =>
        ⟨by simp [isPending, hstatus], by simp [isPending, hnext]⟩⟩
  · rw [log_admitOnce]
    split_ifs
    · exact ordered_note hother.1 h.ordered
    · exact h.ordered

/-- Nothing is done about announcements, and at most one other deed is noted. -/
theorem Inv.aside (h : s.Inv) (hannounced : ∀ b q e, s'.entryAt b q = some e → s.entryAt b q = some e)
    (hlog : s'.log = s.log ∨ ∃ d y, s'.log = (d, y) :: s.log ∧ d ∈ [.ackSent, .wantFullSent, .received])
    (hanswers : s'.Answered) (hclaimed : s'.Claimed) : s'.Inv := by
  have hnote : ∀ {deeds : List RelayDeed} {p : CompactAnnounceEntry → Bool}, s.Covered deeds p →
      (∀ d ∈ [RelayDeed.ackSent, .wantFullSent, .received], d ∉ deeds) → s'.Covered deeds p := by
    intro deeds p hcovered hdeeds x
    have hshows := shows_mono (p := p) (hannounced x.block x.peer)
    have hx := hcovered x
    rcases hlog with hlog | ⟨d, y, hlog, hd⟩
    · rw [hlog]
      omega
    · have hnew : d ∉ [RelayDeed.announced] := by
        rintro hd'
        rw [List.mem_singleton.mp hd'] at hd
        simp at hd
      rw [hlog, count_did_other (hdeeds d hd), count_did_other hnew]
      omega
  refine ⟨hnote h.bodies (by simp), hnote h.ends (by simp), hanswers, hclaimed, ?_⟩
  rcases hlog with hlog | ⟨d, y, hlog, hd⟩
  · rw [hlog]
    exact h.ordered
  · rw [hlog]
    refine ordered_note ?_ h.ordered
    rintro rfl
    simp at hd

theorem record_frame (s : CompactRelay) (y : Ticket) : (s.recordCompactAnnounce y).evidence = s.evidence ∧
    (s.recordCompactAnnounce y).leases = s.leases ∧ (s.recordCompactAnnounce y).inflight = s.inflight ∧
      (s.recordCompactAnnounce y).claims = s.claims ∧ (s.recordCompactAnnounce y).now = s.now ∧
        (s.recordCompactAnnounce y).log = s.log := by
  unfold recordCompactAnnounce
  cases Lru.peek s.announced y.block with
  | some peers => exact ⟨rfl, rfl, rfl, rfl, rfl, rfl⟩
  | none => exact ⟨rfl, rfl, rfl, rfl, rfl, rfl⟩

theorem Inv.announce (h : s.Inv) (y : Ticket) : ((s.recordCompactAnnounce y).note .announced y).Inv := by
  obtain ⟨hevidence, hleases, hinflight, hclaims, hnow, hlog⟩ := record_frame s y
  refine ⟨h.bodies.announce (by simp) y, h.ends.announce (by simp) y, ?_, ?_, ?_⟩
  · refine h.answers.less hleases (.inr ⟨.announced, y, congrArg ((RelayDeed.announced, y) :: ·) hlog, by simp⟩) ?_
    change ∀ key v, (s.recordCompactAnnounce y).evidence.lookup key = some v → s.evidence.lookup key = some v
    rw [hevidence]
    exact fun _ _ hv => hv
  · exact h.claimed.frame hnow.ge hinflight hclaims
  · change (did [.announced] ((.announced, y) :: (s.recordCompactAnnounce y).log)).Nodup →
      List.Pairwise _ ((.announced, y) :: (s.recordCompactAnnounce y).log)
    rw [hlog]
    exact ordered_note (by simp) h.ordered

theorem Inv.cancel (h : s.Inv) (y : Ticket) : (s.cancelCompactAnnounce y).Inv := by
  have hframe : (s.cancelCompactAnnounce y).evidence = s.evidence ∧ (s.cancelCompactAnnounce y).leases = s.leases ∧
      (s.cancelCompactAnnounce y).inflight = s.inflight ∧ (s.cancelCompactAnnounce y).claims = s.claims ∧
        (s.cancelCompactAnnounce y).now = s.now ∧ (s.cancelCompactAnnounce y).log = s.log := by
    unfold cancelCompactAnnounce
    simp only
    split_ifs
    · exact ⟨rfl, rfl, rfl, rfl, rfl, rfl⟩
    · exact ⟨rfl, rfl, rfl, rfl, rfl, rfl⟩
  obtain ⟨hevidence, hleases, hinflight, hclaims, hnow, hlog⟩ := hframe
  refine h.aside (fun _ _ _ => entryAt_cancel) (.inl hlog) ?_ (h.claimed.frame hnow.ge hinflight hclaims)
  exact h.answers.less hleases (.inl hlog) (by rw [hevidence]; exact fun _ _ hv => hv)

theorem Inv.receive (h : s.Inv) (y : Ticket) : (s.recordCompactV2Evidence y).Inv := by
  have hframe : (s.recordCompactV2Evidence y).announced = s.announced ∧
      (s.recordCompactV2Evidence y).inflight = s.inflight ∧ (s.recordCompactV2Evidence y).claims = s.claims ∧
        (s.recordCompactV2Evidence y).now = s.now ∧ ((s.recordCompactV2Evidence y).log = s.log ∨
          (s.recordCompactV2Evidence y).log = (.received, y) :: s.log) := by
    unfold recordCompactV2Evidence
    simp only
    split_ifs
    · exact ⟨rfl, rfl, rfl, rfl, .inl rfl⟩
    · exact ⟨rfl, rfl, rfl, rfl, .inr rfl⟩
    · exact ⟨rfl, rfl, rfl, rfl, .inr rfl⟩
  obtain ⟨hannounced, hinflight, hclaims, hnow, hlog⟩ := hframe
  refine h.aside ?_ (hlog.imp id fun hlog => ⟨.received, y, hlog, by simp⟩) (h.answers.receive y)
    (h.claimed.frame hnow.ge hinflight hclaims)
  intro b q e he
  rw [entryAt, hannounced] at he
  exact he

theorem Inv.send (h : s.Inv) (block : Hash) (peer : PeerAddr) (wantFull : Bool) :
    (s.takeCompactV2Evidence block peer wantFull).Inv := by
  have hanswers := h.answers.send block peer wantFull
  revert hanswers
  unfold takeCompactV2Evidence
  cases s.evidence.lookup (block, peer) with
  | none => exact fun _ => h
  | some value =>
    simp only
    split_ifs
    · exact fun hanswers => h.aside (fun _ _ _ he => he) (.inl rfl) hanswers (h.claimed.frame le_rfl rfl rfl)
    · exact fun hanswers => h.aside (fun _ _ _ he => he) (.inl rfl) hanswers (h.claimed.frame le_rfl rfl rfl)

theorem Inv.finish (h : s.Inv) (i : ℕ) (ok : Bool) : (s.finishLease i ok).Inv := by
  have hanswers := h.answers.finish i ok
  revert hanswers
  unfold finishLease
  cases s.leases[i]? with
  | none => exact fun _ => h
  | some lease =>
    simp only
    split_ifs
    · exact fun _ => h
    · exact fun hanswers => h.aside (fun _ _ _ he => he) (.inr ⟨.wantFullSent, _, rfl, by simp⟩) hanswers
        (h.claimed.frame le_rfl rfl rfl)
    · exact fun hanswers => h.aside (fun _ _ _ he => he) (.inr ⟨.ackSent, _, rfl, by simp⟩) hanswers
        (h.claimed.frame le_rfl rfl rfl)
    · intro hanswers
      have hsame : (s.dropLease i lease).announced = s.announced ∧ (s.dropLease i lease).log = s.log ∧
          (s.dropLease i lease).Claimed := by
        unfold dropLease
        simp only
        split_ifs
        · exact ⟨rfl, rfl, h.claimed.frame le_rfl rfl rfl⟩
        · exact ⟨rfl, rfl, h.claimed.frame le_rfl rfl rfl⟩
      obtain ⟨hannounced, hlog, hclaimed⟩ := hsame
      refine h.aside ?_ (.inl hlog) hanswers hclaimed
      intro b q e he
      rw [entryAt, hannounced] at he
      exact he

/-- Erasing keys one after the other only loses entries. -/
theorem lookup_of_erases {key : Hash × PeerAddr} {v : ReceivedEvidence} :
    ∀ {keys : List (Hash × PeerAddr)} {evidence : Table (Hash × PeerAddr) ReceivedEvidence},
      (keys.foldl (fun evidence key => evidence.erase key) evidence).lookup key = some v → evidence.lookup key = some v
  | [], _, h => h
  | k :: keys, evidence, h => by
    have herase : (evidence.erase k).lookup key = some v := lookup_of_erases h
    rw [Table.lookup_erase_ite] at herase
    split_ifs at herase
    exact herase

/-- Evidence is lost, and nothing else happens. -/
theorem Inv.lose (h : s.Inv) {evidence : Table (Hash × PeerAddr) ReceivedEvidence}
    (hless : ∀ key v, evidence.lookup key = some v → s.evidence.lookup key = some v) :
    ({ s with evidence := evidence } : CompactRelay).Inv :=
  h.aside (fun _ _ _ he => he) (.inl rfl) (h.answers.less rfl (.inl rfl) hless) (h.claimed.frame le_rfl rfl rfl)

theorem Inv.claims (h : s.Inv) (hannounced : s'.announced = s.announced) (hevidence : s'.evidence = s.evidence)
    (hleases : s'.leases = s.leases) (hlog : s'.log = s.log) (hclaimed : s'.Claimed) : s'.Inv := by
  refine h.aside ?_ (.inl hlog)
      (h.answers.less hleases (.inl hlog) (by rw [hevidence]; exact fun _ _ hv => hv)) hclaimed
  intro b q e he
  rw [entryAt, hannounced] at he
  exact he

theorem step_inv (h : s.Inv) (a : RelayAction) : (s.step a).Inv := by
  cases a with
  | tick nanos =>
    exact h.claims rfl rfl rfl rfl (h.claimed.frame (Nat.le_add_right _ _) rfl rfl)
  | announce x => exact h.announce x
  | cancel x => exact h.cancel x
  | bodyRequest x => exact h.bodyRequest x
  | ack x => exact h.transition x (by simp) (.inl rfl)
  | wantFull x cached =>
    cases cached with
    | true => exact h.transition x (by simp) (.inr rfl)
    | false => exact h
  | receive x => exact h.receive x
  | forget block peer =>
    refine h.lose fun key v hkey => ?_
    rw [Table.lookup_erase_ite] at hkey
    split_ifs at hkey
    exact hkey
  | fullReceived block => exact h.lose fun _ _ => lookup_of_erases
  | send block peer wantFull => exact h.send block peer wantFull
  | finish i ok => exact h.finish i ok
  | claim block source =>
    have hclaimed := h.claimed.claim block source
    revert hclaimed
    simp only [step]
    unfold claimCompactInflight
    cases s.inflight.lookup block with
    | none => exact fun hclaimed => h.claims rfl rfl rfl rfl hclaimed
    | some current =>
      simp only
      split_ifs
      · exact fun hclaimed => h.claims rfl rfl rfl rfl hclaimed
      · exact fun hclaimed => h.claims rfl rfl rfl rfl hclaimed
  | release i =>
    have hclaimed := h.claimed.release i
    revert hclaimed
    simp only [step]
    unfold releaseCompactInflight
    cases s.claims[i]? with
    | none => exact fun _ => h
    | some claim =>
      simp only
      split_ifs
      · exact fun _ => h
      · exact fun hclaimed => h.claims rfl rfl rfl rfl hclaimed
      · exact fun hclaimed => h.claims rfl rfl rfl rfl hclaimed
  | prune =>
    refine h.aside ?_ (.inl rfl) (h.answers.less rfl (.inl rfl) fun _ _ => lookup_retainEvidence)
      (h.claimed.frame le_rfl rfl rfl)
    intro b q e he
    obtain ⟨peers, hpeers, hpeer⟩ := Option.bind_eq_some_iff.mp he
    rw [entryAt, Lru.peek_of_pops hpeers]
    exact hpeer
  | pruneInflight => exact h.claims rfl rfl rfl rfl h.claimed.prune

/-! ### What the books guarantee -/

/-- The step may put evidence about the block and the peer in the map: an announcement is recorded, or a send of
other evidence about them fails. -/
def Refills (block : Hash) (peer : PeerAddr) (s : CompactRelay) : RelayAction → Prop
  | .receive x => x.block = block ∧ x.peer = peer
  | .finish i ok => ok = false ∧ ∃ lease, s.leases[i]? = some lease ∧ lease.block = block ∧ lease.peer = peer
  | _ => False

/-- What holds of the books at any time. -/
structure Right (s : CompactRelay) : Prop where
  /-- An announcement pays for one body and for one of ACK and full block. -/
  bodies : ∀ x, (did [.bodyServed] s.log).count x ≤ (did [.announced] s.log).count x
  ends : ∀ x, (did [.acked, .fullServed] s.log).count x ≤ (did [.announced] s.log).count x
  /-- After an ACK or a full block no body is served, if no token is announced twice. -/
  ordered : (did [.announced] s.log).Nodup → s.log.Pairwise fun later earlier =>
    later.1 = .bodyServed → earlier.1 ∈ [RelayDeed.acked, .fullServed] → earlier.2 ≠ later.2
  pushes : ∀ peer, ((did [.fullServed] s.log).countP fun x => x.peer = peer) ≤
    (did [.announced] s.log).countP fun x => x.peer = peer
  /-- A receipt of an announcement pays for one answer. -/
  answers : ∀ x, (did [.ackSent, .wantFullSent] s.log).count x ≤ (did [.received] s.log).count x
  /-- The end of a send overwrites no evidence. -/
  kept : ∀ i ok key v, s.evidence.lookup key = some v → (s.step (.finish i ok)).evidence.lookup key = some v
  oneWorker : ∀ (i j : ℕ) (c c' : CompactClaim), s.claims[i]? = some c → s.claims[j]? = some c' →
    c.released = false → c'.released = false → c.block = c'.block → s.now - c.started < compactInflightTtl →
      s.now - c'.started < compactInflightTtl → i = j
  /-- A release takes out a claim that is nobody else's. -/
  ownClaim : ∀ (i : ℕ) (c : CompactClaim), s.claims[i]? = some c → c.released = false → ∀ block current,
    s.inflight.lookup block = some current → (s.step (.release i)).inflight.lookup block = some current ∨
      c.block = block ∧ c.started = current.started ∧ ∀ (j : ℕ) (c' : CompactClaim), s.claims[j]? = some c' →
        c'.released = false → c'.block = block → c'.started = current.started → j = i

theorem count_did_le {deeds deeds' : List RelayDeed} (h : ∀ d ∈ deeds, d ∈ deeds') (log : List (RelayDeed × Ticket))
    (x : Ticket) : (did deeds log).count x ≤ (did deeds' log).count x := by
  have hsub : (did deeds log).Sublist (did deeds' log) := by
    refine List.Sublist.map _ (List.monotone_filter_right log ?_)
    intro e he
    simpa using h e.1 (by simpa using he)
  exact hsub.count_le x

theorem finish_keeps {i : ℕ} {ok : Bool} {key : Hash × PeerAddr} {v : ReceivedEvidence}
    (h : s.evidence.lookup key = some v) : (s.finishLease i ok).evidence.lookup key = some v := by
  unfold finishLease
  cases s.leases[i]? with
  | none => exact h
  | some lease =>
    simp only
    split_ifs
    · exact h
    · exact h
    · exact h
    · unfold dropLease
      simp only
      split_ifs with hback
      · change (s.evidence.insert _ _).lookup key = some v
        rw [Table.lookup_insert_ite]
        by_cases hkey : key = (lease.block, lease.peer)
        · rw [← hkey, h] at hback
          cases hback.2
        · rw [if_neg hkey]
          exact h
      · exact h

theorem Claimed.ownClaim (h : s.Claimed) {i : ℕ} {c : CompactClaim} (hi : s.claims[i]? = some c)
    (hlive : c.released = false) {block : Hash} {current : CompactInflight}
    (hcurrent : s.inflight.lookup block = some current) :
    (s.releaseCompactInflight i).inflight.lookup block = some current ∨
      c.block = block ∧ c.started = current.started ∧ ∀ (j : ℕ) (c' : CompactClaim), s.claims[j]? = some c' →
        c'.released = false → c'.block = block → c'.started = current.started → j = i := by
  unfold releaseCompactInflight
  simp only [hi, hlive, Bool.false_eq_true, if_false]
  by_cases hown : (s.inflight.lookup c.block).map (·.started) = some c.started
  · rw [if_pos hown, Table.lookup_erase_ite]
    by_cases hblock : block = c.block
    · subst hblock
      rw [hcurrent] at hown
      have hstarted : current.started = c.started := Option.some.inj hown
      refine .inr ⟨rfl, hstarted.symm, ?_⟩
      intro j c' hj hlive' hblock' hstarted'
      exact h.single j i c' c hj hi hlive' hlive hblock' (hstarted'.trans hstarted)
    · rw [if_neg hblock]
      exact .inl hcurrent
  · rw [if_neg hown]
    exact .inl hcurrent

theorem Inv.right (h : s.Inv) : s.Right := by
  refine ⟨fun x => ?_, fun x => ?_, h.ordered, ?_, fun x => ?_, fun _ _ _ _ => finish_keeps, ?_, ?_⟩
  · exact (Nat.le_add_right _ _).trans (h.bodies x)
  · exact (Nat.le_add_right _ _).trans (h.ends x)
  · intro peer
    have hsub : List.Subperm (did [.fullServed] s.log) (did [.announced] s.log) := by
      rw [List.subperm_ext_iff]
      intro x _
      calc (did [.fullServed] s.log).count x
          ≤ (did [.acked, .fullServed] s.log).count x := count_did_le (by simp) s.log x
        _ ≤ (did [.acked, .fullServed] s.log).count x + s.shows isPending x := Nat.le_add_right _ _
        _ ≤ (did [.announced] s.log).count x := h.ends x
    exact hsub.countP_le _
  · have hx := h.answers x
    omega
  · intro i j c c' hi hj hlive hlive' hblock hyoung hyoung'
    have hshown := h.claimed.shown c (List.mem_of_getElem? hi) hlive hyoung
    have hshown' := h.claimed.shown c' (List.mem_of_getElem? hj) hlive' hyoung'
    rw [hblock, hshown'] at hshown
    exact h.claimed.single i j c c' hi hj hlive hlive' hblock (Option.some.inj hshown).symm
  · intro i c hi hlive block current hcurrent
    exact h.claimed.ownClaim hi hlive hcurrent

/-! ### Evidence comes back -/

theorem lookup_none_of_less {t : CompactRelay} {key : Hash × PeerAddr}
    (h : ∀ v, t.evidence.lookup key = some v → s.evidence.lookup key = some v) (hnone : s.evidence.lookup key = none) :
    t.evidence.lookup key = none := by
  cases hv : t.evidence.lookup key with
  | none => rfl
  | some v =>
    rw [h v hv] at hnone
    cases hnone

/-- A step that does not refill the evidence leaves none where there was none. -/
theorem step_lookup_none {block : Hash} {peer : PeerAddr} {a : RelayAction}
    (hnone : s.evidence.lookup (block, peer) = none) (hquiet : ¬ Refills block peer s a) :
    (s.step a).evidence.lookup (block, peer) = none := by
  cases a with
  | tick nanos => exact hnone
  | announce x =>
    change (s.recordCompactAnnounce x).evidence.lookup _ = none
    rw [(record_frame s x).1]
    exact hnone
  | cancel x =>
    simp only [step, cancelCompactAnnounce]
    split_ifs
    · exact hnone
    · exact hnone
  | bodyRequest x =>
    simp only [step, admitCompactBodyRequest]
    rw [(admit_frame _ _ _).1]
    exact hnone
  | ack x =>
    simp only [step, consumeCompactAck]
    rw [(admit_frame _ _ _).1]
    exact hnone
  | wantFull x cached =>
    simp only [step, admitCompactWantFull]
    split_ifs
    · rw [(admit_frame _ _ _).1]
      exact hnone
    · exact hnone
  | receive x =>
    have hkey : (block, peer) ≠ (x.block, x.peer) := by
      intro heq
      obtain ⟨hb, hq⟩ := Prod.mk.inj heq
      exact hquiet ⟨hb.symm, hq.symm⟩
    have hretained : s.retainEvidence.evidence.lookup (block, peer) = none :=
      lookup_none_of_less (fun _ => lookup_retainEvidence) hnone
    simp only [step, recordCompactV2Evidence]
    split_ifs
    · exact hretained
    · change (s.retainEvidence.evidence.insert _ _).lookup _ = none
      rw [Table.lookup_insert_ite, if_neg hkey]
      exact hretained
    · change (s.evidence.insert _ _).lookup _ = none
      rw [Table.lookup_insert_ite, if_neg hkey]
      exact hnone
  | forget b q =>
    change (s.evidence.erase _).lookup _ = none
    rw [Table.lookup_erase_ite]
    split_ifs
    · rfl
    · exact hnone
  | fullReceived b => exact lookup_none_of_less (t := s.step (.fullReceived b)) (fun _ => lookup_of_erases) hnone
  | send b q wantFull =>
    have hless : ∀ v, (s.evidence.erase (b, q)).lookup (block, peer) = some v →
        s.evidence.lookup (block, peer) = some v := by
      intro v hv
      rw [Table.lookup_erase_ite] at hv
      split_ifs at hv
      exact hv
    simp only [step, takeCompactV2Evidence]
    cases s.evidence.lookup (b, q) with
    | none => exact hnone
    | some value =>
      simp only
      split_ifs
      · exact lookup_none_of_less (t := { s with evidence := s.evidence.erase (b, q) }) hless hnone
      · exact lookup_none_of_less (t := { s with evidence := s.evidence.erase (b, q) }) hless hnone
  | finish i ok =>
    simp only [step, finishLease]
    cases hl : s.leases[i]? with
    | none => exact hnone
    | some lease =>
      simp only
      split_ifs with hstate hok
      · exact hnone
      · exact hnone
      · exact hnone
      · have hkey : (block, peer) ≠ (lease.block, lease.peer) := by
          intro heq
          obtain ⟨hb, hq⟩ := Prod.mk.inj heq
          exact hquiet ⟨by simpa using hok, lease, hl, hb.symm, hq.symm⟩
        simp only [dropLease]
        split_ifs
        · change (s.evidence.insert _ _).lookup _ = none
          rw [Table.lookup_insert_ite, if_neg hkey]
          exact hnone
        · exact hnone
  | claim b source =>
    simp only [step, claimCompactInflight]
    cases s.inflight.lookup b with
    | none => exact hnone
    | some current =>
      simp only
      split_ifs
      · exact hnone
      · exact hnone
  | release i =>
    simp only [step, releaseCompactInflight]
    cases s.claims[i]? with
    | none => exact hnone
    | some claim =>
      simp only
      split_ifs
      · exact hnone
      · exact hnone
      · exact hnone
  | prune => exact lookup_none_of_less (t := s.retainEvidence) (fun _ => lookup_retainEvidence) hnone
  | pruneInflight => exact hnone

/-- A lease keeps what it is for. -/
theorem step_lease {i : ℕ} {lease : CompactEvidenceLease} (h : s.leases[i]? = some lease) (a : RelayAction) :
    ∃ st, (s.step a).leases[i]? = some { lease with state := st } := by
  have hsame : (s.step a).leases = s.leases → ∃ st, (s.step a).leases[i]? = some { lease with state := st } := by
    intro hleases
    rw [hleases]
    exact ⟨lease.state, h⟩
  cases a with
  | announce x => exact hsame (record_frame s x).2.1
  | cancel x =>
    refine hsame ?_
    simp only [step, cancelCompactAnnounce]
    split_ifs
    · rfl
    · rfl
  | bodyRequest x => exact hsame (admit_frame _ _ _).2.1
  | ack x => exact hsame (admit_frame _ _ _).2.1
  | wantFull x cached =>
    cases cached with
    | true => exact hsame (admit_frame _ _ _).2.1
    | false => exact hsame rfl
  | receive x =>
    refine hsame ?_
    simp only [step, recordCompactV2Evidence]
    split_ifs
    · rfl
    · rfl
    · rfl
  | send b q wantFull =>
    have hlt : i < s.leases.length := (List.getElem?_eq_some_iff.mp h).1
    simp only [step, takeCompactV2Evidence]
    cases s.evidence.lookup (b, q) with
    | none => exact ⟨lease.state, h⟩
    | some value =>
      simp only
      split_ifs
      · exact ⟨lease.state, h⟩
      · refine ⟨lease.state, ?_⟩
        change (s.leases ++ [_])[i]? = some lease
        rw [List.getElem?_append_left hlt]
        exact h
  | finish j ok =>
    have hset : ∀ (l : CompactEvidenceLease) (st : LeaseState), s.leases[j]? = some l →
        ∃ st', (s.leases.set j { l with state := st })[i]? = some { lease with state := st' } := by
      intro l st hl
      by_cases hji : j = i
      · subst hji
        rw [h] at hl
        cases hl
        exact ⟨st, List.getElem?_set_self (List.getElem?_eq_some_iff.mp h).1⟩
      · exact ⟨lease.state, by rw [List.getElem?_set_ne hji]; exact h⟩
    simp only [step, finishLease]
    cases hl : s.leases[j]? with
    | none => exact ⟨lease.state, h⟩
    | some l =>
      simp only
      split_ifs
      · exact ⟨lease.state, h⟩
      · exact hset l .committed hl
      · exact hset l .committed hl
      · simp only [dropLease]
        split_ifs
        · exact hset l .dropped hl
        · exact hset l .dropped hl
  | claim b source =>
    refine hsame ?_
    simp only [step, claimCompactInflight]
    cases s.inflight.lookup b with
    | none => rfl
    | some current =>
      simp only
      split_ifs
      · rfl
      · rfl
  | release j =>
    refine hsame ?_
    simp only [step, releaseCompactInflight]
    cases s.claims[j]? with
    | none => rfl
    | some claim =>
      simp only
      split_ifs
      · rfl
      · rfl
      · rfl
  | _ => exact hsame rfl

/-- A send that fails while its evidence is fresh, and that nothing was put in the place of, gives it back. -/
def Returns (s : CompactRelay) : Prop :=
  ∀ (block : Hash) (peer : PeerAddr) (wantFull : Bool) (v : ReceivedEvidence) (more : List RelayAction)
    (lease : CompactEvidenceLease),
    s.evidence.lookup (block, peer) = some v → s.now - v.receivedAt ≤ compactV2EvidenceTtl →
    (∀ q ∈ Trace.visited step (s.step (.send block peer wantFull)) more, ¬ Refills block peer q.1 q.2) →
    (more.foldl step (s.step (.send block peer wantFull))).leases[s.leases.length]? = some lease →
    lease.state = .out →
    (more.foldl step (s.step (.send block peer wantFull))).now - v.receivedAt ≤ compactV2EvidenceTtl →
    ((more.foldl step (s.step (.send block peer wantFull))).step
      (.finish s.leases.length false)).evidence.lookup (block, peer) = some v

theorem finish_returns {i : ℕ} {lease : CompactEvidenceLease} (hlease : s.leases[i]? = some lease)
    (hout : lease.state = .out) (hfresh : s.now - lease.value.receivedAt ≤ compactV2EvidenceTtl)
    (hnone : s.evidence.lookup (lease.block, lease.peer) = none) :
    (s.finishLease i false).evidence.lookup (lease.block, lease.peer) = some lease.value := by
  have hdrop : s.finishLease i false = s.dropLease i lease := by
    simp [finishLease, hlease, hout]
  have hback : (s.dropLease i lease).evidence = s.evidence.insert (lease.block, lease.peer) lease.value := by
    simp [dropLease, hfresh, hnone]
  rw [hdrop, hback, Table.lookup_insert_ite, if_pos rfl]

theorem evidence_returned (s : CompactRelay) : s.Returns := by
  intro block peer wantFull v more lease hv hfresh hquiet hlease hout hlater
  set i := s.leases.length with hi
  -- From the start of the send on, the place is empty and the lease is for it.
  set Waits : CompactRelay → Prop := fun q =>
    q.evidence.lookup (block, peer) = none ∧ ∃ st, q.leases[i]? = some ⟨block, peer, v, wantFull, st⟩ with hWaits
  have hstart : Waits (s.step (.send block peer wantFull)) := by
    have hlate : ¬ compactV2EvidenceTtl < s.now - v.receivedAt := by omega
    simp only [hWaits, step, takeCompactV2Evidence, hv, if_neg hlate]
    refine ⟨?_, .out, ?_⟩
    · rw [Table.lookup_erase_ite, if_pos rfl]
    · rw [hi]
      simp
  have hstep : ∀ (q : CompactRelay) (a : RelayAction) (q' : CompactRelay), Waits q → ¬ Refills block peer q a →
      q.step a = q' → Waits q' := by
    rintro q a _ ⟨hnone, st, hl⟩ hq rfl
    obtain ⟨st', hl'⟩ := step_lease hl a
    exact ⟨step_lookup_none hnone hq, st', hl'⟩
  obtain ⟨hnone, st, hl⟩ := (Trace.run_visited step more _).invariant hstep hstart hquiet
  rw [hlease] at hl
  cases hl
  exact finish_returns hlease hout hlater hnone

/-- The books after a run. -/
def run (actions : List RelayAction) : CompactRelay := actions.foldl step new

theorem run_inv (actions : List RelayAction) : (run actions).Inv := by
  have hstep : ∀ (s : CompactRelay) (a : RelayAction) (s' : CompactRelay), s.Inv → True → s.step a = s' → s'.Inv := by
    rintro s a _ h - rfl
    exact step_inv h a
  exact (Trace.run_visited step actions new).invariant hstep inv_new fun _ _ => trivial

/-- **Main result.** After any run the books are right, and evidence whose send fails comes back. -/
theorem compact_relay_right (actions : List RelayAction) : (run actions).Right ∧ (run actions).Returns :=
  ⟨(run_inv actions).right, evidence_returned _⟩

/-- The same announcement twice pays for two answers, and evidence older than its time does not come back. -/
theorem answers_twice_and_expires :
    (did [.ackSent, .wantFullSent] (run [.receive ⟨7, 1, 5⟩, .send 7 1 false, .finish 0 true, .receive ⟨7, 1, 5⟩,
      .send 7 1 false, .finish 1 true]).log).count ⟨7, 1, 5⟩ = 2 ∧
    (run [.receive ⟨7, 1, 5⟩, .send 7 1 false, .tick (21 * 10 ^ 9), .finish 0 false]).evidence.lookup (7, 1) = none ∧
    did [.received] (run [.receive ⟨7, 1, 5⟩, .send 7 1 false, .tick (21 * 10 ^ 9), .finish 0 false]).log =
      [⟨7, 1, 5⟩] := by
  decide +kernel

end CompactRelay

end Alphanumeric
