/-
# Which transaction bodies a peer may send

A peer that announces transaction keys is asked for the bodies of the unknown ones, and
the requests are remembered: in a map from (peer, key) to the time of the request, and
in a queue of the same requests, the oldest first. The queue bounds both. When it is
full, or when its oldest request is too old, that request leaves it, and it leaves the
map as well if the map holds it with the same time. A body is accepted if its request
is still in the map, and only once.

Two requests for one key at one instant are one entry of the map and two of the queue,
and nothing tells the older one from the live one. When the older one is pushed out,
the live entry goes with it. `take_authorised` says when this shows.

Instants are `ℕ`, so that `duration_since` is the truncated difference.

Key definitions: `PendingTransactionBodyRequests`, `record`, `take`, `history`, `Latest`,
`Authorised`, `Confused`, `Tracked`.
Key theorems: `latest_iff`, `Tracked.expire`, `Tracked.push`, `run_tracked`, `take_authorised`.
-/
import Alphanumeric.Lib.Table
import Alphanumeric.Types

namespace Alphanumeric

/-! ### The table of requests -/

structure PendingTransactionBodyRequests (κ : Type) where
  entries : Table κ ℕ
  order : List (κ × ℕ)
  maxEntries : ℕ
  ttl : ℕ

namespace PendingTransactionBodyRequests

variable {κ Peer : Type} [DecidableEq κ] [DecidableEq Peer]

def new (maxEntries ttl : ℕ) : PendingTransactionBodyRequests κ where
  entries := ∅
  order := []
  maxEntries := max maxEntries 1
  ttl := ttl

/-- A request that left the queue leaves the map if its time is the one the map has. -/
def forget (entries : Table κ ℕ) (node : κ × ℕ) : Table κ ℕ :=
  if entries.lookup node.1 = some node.2 then entries.erase node.1 else entries

/-- The `while let` of `prune_expired`. -/
def pruneLoop (ttl now : ℕ) : List (κ × ℕ) → Table κ ℕ → List (κ × ℕ) × Table κ ℕ
  | [], entries => ([], entries)
  | node :: order, entries =>
    if now - node.2 < ttl then (node :: order, entries) else pruneLoop ttl now order (forget entries node)

def pruneExpired (r : PendingTransactionBodyRequests κ) (now : ℕ) : PendingTransactionBodyRequests κ :=
  let (order, entries) := pruneLoop r.ttl now r.order r.entries
  { r with order, entries }

/-- The `while` of `record`: the oldest requests leave a full queue. -/
def roomLoop (maxEntries : ℕ) : List (κ × ℕ) → Table κ ℕ → List (κ × ℕ) × Table κ ℕ
  | [], entries => ([], entries)
  | node :: order, entries =>
    if maxEntries ≤ (node :: order).length then roomLoop maxEntries order (forget entries node)
    else (node :: order, entries)

/-- One turn of the loop of `record`. -/
def recordKey (r : PendingTransactionBodyRequests κ) (composite : κ) (now : ℕ) : PendingTransactionBodyRequests κ :=
  let (order, entries) := roomLoop r.maxEntries r.order r.entries
  { r with order := order ++ [(composite, now)], entries := entries.insert composite now }

def record (r : PendingTransactionBodyRequests (Peer × Hash)) (peer : Peer) (keys : List Hash) (now : ℕ) :
    PendingTransactionBodyRequests (Peer × Hash) :=
  keys.foldl (fun r key => r.recordKey (peer, key) now) (r.pruneExpired now)

def take (r : PendingTransactionBodyRequests (Peer × Hash)) (peer : Peer) (key : Hash) (now : ℕ) :
    Bool × PendingTransactionBodyRequests (Peer × Hash) :=
  let r := r.pruneExpired now
  ((r.entries.lookup (peer, key)).isSome, { r with entries := r.entries.erase (peer, key) })

end PendingTransactionBodyRequests

open PendingTransactionBodyRequests

/-! ### Runs and their history -/

inductive BodyCall (Peer : Type)
  | record (peer : Peer) (keys : List Hash) (now : ℕ)
  | take (peer : Peer) (key : Hash) (now : ℕ)

inductive BodyEvent (κ : Type)
  | recorded (key : κ) (time : ℕ)
  | taken (key : κ)

variable {κ Peer : Type} [DecidableEq κ] [DecidableEq Peer]

def BodyCall.now : BodyCall Peer → ℕ
  | .record _ _ now => now
  | .take _ _ now => now

def BodyCall.step (r : PendingTransactionBodyRequests (Peer × Hash)) :
    BodyCall Peer → PendingTransactionBodyRequests (Peer × Hash)
  | .record peer keys now => r.record peer keys now
  | .take peer key now => (r.take peer key now).2

def runBodyCalls (r : PendingTransactionBodyRequests (Peer × Hash)) (calls : List (BodyCall Peer)) :
    PendingTransactionBodyRequests (Peer × Hash) :=
  calls.foldl BodyCall.step r

/-- What a call does, the newest first. -/
def BodyCall.events : BodyCall Peer → List (BodyEvent (Peer × Hash))
  | .record peer keys now => (keys.map fun key => .recorded (peer, key) now).reverse
  | .take peer key _ => [.taken (peer, key)]

/-- What the calls did, the newest first. It says what was asked of the table, not what the table answered. -/
def bodyHistory (calls : List (BodyCall Peer)) : List (BodyEvent (Peer × Hash)) :=
  calls.foldl (fun log call => call.events ++ log) []

/-- The records of a history with their times, the newest first. -/
def records : List (BodyEvent κ) → List (κ × ℕ)
  | [] => []
  | .recorded key time :: log => (key, time) :: records log
  | .taken _ :: log => records log

/-- The key's latest record is at time `t`, after `older` and before `newer`, and no take of the key
came after it. -/
structure Latest (log : List (BodyEvent κ)) (key : κ) (t : ℕ) (newer older : List (BodyEvent κ)) : Prop where
  split : log = newer ++ .recorded key t :: older
  last : ∀ t', .recorded key t' ∉ newer
  untaken : .taken key ∉ newer

/-- The key is recorded, its latest record is younger than `ttl`, it was not taken since, and fewer
than `maxEntries` keys were recorded after it. -/
def Authorised (maxEntries ttl : ℕ) (log : List (BodyEvent κ)) (key : κ) (now : ℕ) : Prop :=
  ∃ t newer older, Latest log key t newer older ∧ now - t < ttl ∧ (records newer).length < maxEntries

/-- The key is authorised, it was recorded before at the very same instant, the older request was
still in the queue at the latest record, and by now it was pushed out. -/
def Confused (maxEntries ttl : ℕ) (log : List (BodyEvent κ)) (key : κ) (now : ℕ) : Prop :=
  ∃ t newer older, Latest log key t newer older ∧ now - t < ttl ∧ (records newer).length < maxEntries ∧
    ∃ i, (records older)[i]? = some (key, t) ∧ i + 1 < maxEntries ∧ maxEntries ≤ (records newer).length + i + 1

/-! ### The latest record -/

/-- The time of the key's latest record and the number of records after it, unless it was taken since. -/
def latest (key : κ) : List (BodyEvent κ) → Option (ℕ × ℕ)
  | [] => none
  | .recorded k t :: log => if k = key then some (t, 0) else (latest key log).map fun (t, c) => (t, c + 1)
  | .taken k :: log => if k = key then none else latest key log

omit [DecidableEq κ] in
theorem records_append : ∀ log log' : List (BodyEvent κ), records (log ++ log') = records log ++ records log'
  | [], _ => rfl
  | .recorded k t :: log, log' => congrArg ((k, t) :: ·) (records_append log log')
  | .taken _ :: log, log' => records_append log log'

omit [DecidableEq κ] in
theorem mem_of_mem_records {key : κ} {t : ℕ} : ∀ {log : List (BodyEvent κ)}, (key, t) ∈ records log →
    .recorded key t ∈ log
  | .recorded k s :: log, h => by
    rcases List.mem_cons.mp h with heq | hmem
    · obtain ⟨rfl, rfl⟩ := Prod.mk.inj heq
      exact List.mem_cons_self
    · exact List.mem_cons_of_mem _ (mem_of_mem_records hmem)
  | .taken _ :: log, h => List.mem_cons_of_mem _ (mem_of_mem_records h)

section Latest

variable {log newer older : List (BodyEvent κ)} {e : BodyEvent κ} {key : κ} {t c : ℕ}

omit [DecidableEq κ] in
theorem Latest.cons (hrec : ∀ t', e ≠ .recorded key t') (htake : e ≠ .taken key) (h : Latest log key t newer older) :
    Latest (e :: log) key t (e :: newer) older := by
  refine ⟨congrArg _ h.split, fun t' hmem => ?_, fun hmem => ?_⟩
  · exact h.last t' ((List.mem_cons.mp hmem).resolve_left fun heq => hrec t' heq.symm)
  · exact h.untaken ((List.mem_cons.mp hmem).resolve_left fun heq => htake heq.symm)

omit [DecidableEq κ] in
theorem Latest.uncons (hrec : ∀ t', e ≠ .recorded key t') (h : Latest (e :: log) key t newer older) :
    ∃ newer', newer = e :: newer' ∧ Latest log key t newer' older := by
  rcases newer with _ | ⟨x, newer⟩
  · exact absurd (List.cons.inj h.split).1 (hrec t)
  · obtain ⟨rfl, hlog⟩ := List.cons.inj h.split
    exact ⟨newer, rfl, hlog, fun t' hmem => h.last t' (List.mem_cons_of_mem _ hmem),
      fun hmem => h.untaken (List.mem_cons_of_mem _ hmem)⟩

omit [DecidableEq κ] in
theorem Latest.head {s : ℕ} (h : Latest (.recorded key s :: log) key t newer older) : newer = [] ∧ s = t := by
  rcases newer with _ | ⟨x, newer⟩
  · exact ⟨rfl, (BodyEvent.recorded.inj (List.cons.inj h.split).1).2⟩
  · obtain ⟨rfl, -⟩ := List.cons.inj h.split
    exact absurd List.mem_cons_self (h.last s)

theorem latest_iff : ∀ {log : List (BodyEvent κ)} {c : ℕ}, latest key log = some (t, c) ↔
    ∃ newer older, Latest log key t newer older ∧ (records newer).length = c
  | [], c => by
    constructor
    · intro h
      cases h
    · rintro ⟨newer, older, h, -⟩
      exact absurd h.split (by simp)
  | .recorded k s :: log, c => by
    rw [latest]
    by_cases hk : k = key
    · subst hk
      rw [if_pos rfl, Option.some_inj, Prod.mk_inj]
      constructor
      · rintro ⟨rfl, rfl⟩
        exact ⟨[], log, ⟨rfl, fun _ => List.not_mem_nil, List.not_mem_nil⟩, rfl⟩
      · rintro ⟨newer, older, h, rfl⟩
        obtain ⟨rfl, rfl⟩ := h.head
        exact ⟨rfl, rfl⟩
    · have hrec : ∀ t', BodyEvent.recorded k s ≠ .recorded key t' := fun t' heq => hk (BodyEvent.recorded.inj heq).1
      rw [if_neg hk]
      constructor
      · intro h
        obtain ⟨⟨t', c'⟩, h', heq⟩ := Option.map_eq_some_iff.mp h
        obtain ⟨ht, rfl⟩ := Prod.mk.inj heq
        rw [ht] at h'
        obtain ⟨newer, older, hl, rfl⟩ := latest_iff.mp h'
        exact ⟨.recorded k s :: newer, older, hl.cons hrec (fun heq => nomatch heq), rfl⟩
      · rintro ⟨newer, older, h, rfl⟩
        obtain ⟨newer', rfl, hl⟩ := h.uncons hrec
        rw [latest_iff.mpr ⟨newer', older, hl, rfl⟩]
        rfl
  | .taken k :: log, c => by
    have hrec : ∀ t', BodyEvent.taken k ≠ .recorded key t' := fun t' heq => nomatch heq
    rw [latest]
    by_cases hk : k = key
    · subst hk
      rw [if_pos rfl]
      constructor
      · intro h
        cases h
      · rintro ⟨newer, older, h, -⟩
        obtain ⟨newer', rfl, -⟩ := h.uncons hrec
        exact absurd List.mem_cons_self h.untaken
    · rw [if_neg hk, latest_iff]
      constructor
      · rintro ⟨newer, older, hl, rfl⟩
        exact ⟨.taken k :: newer, older, hl.cons hrec (fun heq => hk (BodyEvent.taken.inj heq)), rfl⟩
      · rintro ⟨newer, older, h, hc⟩
        obtain ⟨newer', rfl, hl⟩ := h.uncons hrec
        exact ⟨newer', older, hl, hc⟩

/-- The latest record is the key's first one in the list of records. -/
theorem latest_min (h : latest key log = some (t, c)) : (records log)[c]? = some (key, t) ∧
    ∀ j s, (records log)[j]? = some (key, s) → c ≤ j := by
  obtain ⟨newer, older, hl, rfl⟩ := latest_iff.mp h
  have hrecs : records log = records newer ++ (key, t) :: records older := by
    rw [hl.split, records_append]
    rfl
  rw [hrecs]
  refine ⟨by rw [List.getElem?_append_right le_rfl, Nat.sub_self, List.getElem?_cons_zero], fun j s hj => ?_⟩
  by_contra hlt
  rw [List.getElem?_append_left (by omega)] at hj
  exact hl.last s (mem_of_mem_records (List.mem_of_getElem? hj))

end Latest

/-! ### What the queue and the map hold -/

/-- The map has the key with time `t`: its latest record is at `t`, not too many came after it, and
no older request of the same instant was pushed out since. -/
def Held (maxEntries : ℕ) (log : List (BodyEvent κ)) (key : κ) (t : ℕ) : Prop :=
  ∃ c, latest key log = some (t, c) ∧ c < maxEntries ∧
    ∀ i, (records log)[i]? = some (key, t) → maxEntries ≤ i → c + maxEntries ≤ i

/-- The queue holds the newest records, the others were pushed out or are too old, and the map holds
what `Held` says of every key that is young at `last`. -/
structure Tracked (maxEntries ttl last : ℕ) (log : List (BodyEvent κ)) (order : List (κ × ℕ))
    (entries : Table κ ℕ) : Prop where
  queue : order.reverse <+: records log
  room : order.length ≤ maxEntries
  gone : ∀ i k t, (records log)[i]? = some (k, t) → order.length ≤ i → maxEntries ≤ i ∨ ttl ≤ last - t
  sorted : (records log).Pairwise fun a b => b.2 ≤ a.2
  past : ∀ e ∈ records log, e.2 ≤ last
  node : ∀ k t, entries.lookup k = some t → (k, t) ∈ order
  held : ∀ k t, last - t < ttl → (entries.lookup k = some t ↔ Held maxEntries log k t)

theorem lookup_forget {entries : Table κ ℕ} {k k' : κ} {t t' : ℕ} :
    (forget entries (k, t)).lookup k' = some t' ↔ entries.lookup k' = some t' ∧ (k', t') ≠ (k, t) := by
  by_cases h : entries.lookup k = some t
  · rw [forget, if_pos h, Table.lookup_erase_ite]
    by_cases hk : k' = k
    · subst hk
      rw [if_pos rfl, h, Option.some_inj]
      exact ⟨fun h => (nomatch h), fun ⟨heq, hne⟩ => absurd (by rw [heq]) hne⟩
    · rw [if_neg hk]
      exact ⟨fun h' => ⟨h', fun heq => hk (Prod.mk.inj heq).1⟩, And.left⟩
  · rw [forget, if_neg h]
    refine ⟨fun h' => ⟨h', fun heq => h ?_⟩, And.left⟩
    obtain ⟨rfl, rfl⟩ := Prod.mk.inj heq
    exact h'

section Tracked

variable {maxEntries ttl last now : ℕ} {log : List (BodyEvent κ)} {order : List (κ × ℕ)} {entries : Table κ ℕ}
  {k : κ} {t : ℕ}

theorem Tracked.later (h : Tracked maxEntries ttl last log order entries) (hle : last ≤ now) :
    Tracked maxEntries ttl now log order entries where
  queue := h.queue
  room := h.room
  gone i k t hi hlen := (h.gone i k t hi hlen).imp_right fun hold => hold.trans (Nat.sub_le_sub_right hle t)
  sorted := h.sorted
  past e he := (h.past e he).trans hle
  node := h.node
  held k t hyoung := h.held k t ((Nat.sub_le_sub_right hle t).trans_lt hyoung)

/-- The oldest node is the last of the records that the queue holds. -/
theorem Tracked.head_index (h : Tracked maxEntries ttl last log ((k, t) :: order) entries) :
    (records log)[order.length]? = some (k, t) := by
  obtain ⟨rest, hrest⟩ := h.queue
  rw [← hrest, List.reverse_cons, List.append_assoc, List.getElem?_append_right (by rw [List.length_reverse]),
    List.length_reverse, Nat.sub_self]
  rfl

/-- The oldest request expires. -/
theorem Tracked.expire (h : Tracked maxEntries ttl now log ((k, t) :: order) entries) (hold : ttl ≤ now - t) :
    Tracked maxEntries ttl now log order (forget entries (k, t)) where
  queue := by
    have hq := h.queue
    rw [List.reverse_cons] at hq
    exact (List.prefix_append _ _).trans hq
  room := (Nat.le_succ _).trans h.room
  gone i k' t' hi hlen := by
    rcases hlen.eq_or_lt with rfl | hlt
    · rw [h.head_index, Option.some_inj] at hi
      obtain ⟨rfl, rfl⟩ := Prod.mk.inj hi
      exact .inr hold
    · exact h.gone i k' t' hi hlt
  sorted := h.sorted
  past := h.past
  node k' t' hlookup := by
    obtain ⟨hlookup', hne⟩ := lookup_forget.mp hlookup
    exact (List.mem_cons.mp (h.node k' t' hlookup')).resolve_left hne
  held k' t' hyoung := by
    rw [lookup_forget, h.held k' t' hyoung]
    refine ⟨And.left, fun hheld => ⟨hheld, fun heq => ?_⟩⟩
    obtain ⟨rfl, rfl⟩ := Prod.mk.inj heq
    omega

theorem Tracked.prune : ∀ {order : List (κ × ℕ)} {entries : Table κ ℕ}, Tracked maxEntries ttl now log order entries →
    Tracked maxEntries ttl now log (pruneLoop ttl now order entries).1 (pruneLoop ttl now order entries).2
  | [], _, h => h
  | (k, t) :: order, entries, h => by
    rw [pruneLoop]
    by_cases hyoung : now - t < ttl
    · rw [if_pos hyoung]
      exact h
    · rw [if_neg hyoung]
      exact (h.expire (Nat.le_of_not_lt hyoung)).prune

/-- After pruning every request of the queue is young. -/
theorem prune_young {e : κ × ℕ} : ∀ {order : List (κ × ℕ)} {entries : Table κ ℕ},
    order.Pairwise (fun a b => a.2 ≤ b.2) → e ∈ (pruneLoop ttl now order entries).1 → now - e.2 < ttl
  | [], _, _, hmem => nomatch hmem
  | (k, t) :: order, entries, hsorted, hmem => by
    rw [pruneLoop] at hmem
    obtain ⟨hhead, htail⟩ := List.pairwise_cons.mp hsorted
    by_cases hyoung : now - t < ttl
    · rw [if_pos hyoung] at hmem
      rcases List.mem_cons.mp hmem with rfl | hmem'
      · exact hyoung
      · have hle : t ≤ e.2 := hhead e hmem'
        exact (Nat.sub_le_sub_left hle now).trans_lt hyoung
    · rw [if_neg hyoung] at hmem
      exact prune_young htail hmem

/-! ### Recording a key -/

theorem held_recorded_self (hmax : 1 ≤ maxEntries) : Held maxEntries (.recorded k now :: log) k t ↔ t = now := by
  simp only [Held, latest, if_true, Option.some_inj, Prod.mk_inj]
  constructor
  · rintro ⟨c, ⟨rfl, -⟩, -⟩
    rfl
  · rintro rfl
    exact ⟨0, ⟨rfl, rfl⟩, hmax, fun i _ hi => by omega⟩

/-- Another key is held after a record if it was held before and its request is not the one that the
record pushes out. -/
theorem held_recorded {key : κ} (hmax : 1 ≤ maxEntries) (hk : key ≠ k) :
    Held maxEntries (.recorded key now :: log) k t ↔
      Held maxEntries log k t ∧ (records log)[maxEntries - 1]? ≠ some (k, t) := by
  simp only [Held, latest, if_neg hk]
  constructor
  · rintro ⟨c', hlatest, hc, hold⟩
    obtain ⟨⟨s, c⟩, hlatest', heq⟩ := Option.map_eq_some_iff.mp hlatest
    obtain ⟨rfl, rfl⟩ := Prod.mk.inj heq
    refine ⟨⟨c, hlatest', by omega, fun i hi hle => ?_⟩, fun hi => ?_⟩
    · have hnew : c + 1 + maxEntries ≤ i + 1 := hold (i + 1) hi (by omega)
      omega
    · have hnew : c + 1 + maxEntries ≤ maxEntries - 1 + 1 := hold (maxEntries - 1 + 1) hi (by omega)
      omega
  · rintro ⟨⟨c, hlatest, hc, hold⟩, hpushed⟩
    have hne : c ≠ maxEntries - 1 := fun heq => hpushed (heq ▸ (latest_min hlatest).1)
    refine ⟨c + 1, by rw [hlatest]; rfl, by omega, fun i hi hle => ?_⟩
    obtain ⟨j, rfl⟩ : ∃ j, i = j + 1 := ⟨i - 1, by omega⟩
    have hj : (records log)[j]? = some (k, t) := hi
    have hjne : j ≠ maxEntries - 1 := fun heq => hpushed (heq ▸ hj)
    have hcj : c + maxEntries ≤ j := hold j hj (by omega)
    omega

/-- A queue within its bound makes room by dropping its oldest request, or has room. -/
theorem room_cases (entries : Table κ ℕ) (hroom : order.length ≤ maxEntries) (hmax : 1 ≤ maxEntries) :
    order.length < maxEntries ∧ roomLoop maxEntries order entries = (order, entries) ∨
    ∃ k t rest, order = (k, t) :: rest ∧ order.length = maxEntries ∧
      roomLoop maxEntries order entries = (rest, forget entries (k, t)) := by
  have hfits : ∀ {order : List (κ × ℕ)} {entries : Table κ ℕ}, order.length < maxEntries →
      roomLoop maxEntries order entries = (order, entries) := by
    intro order entries hlt
    cases order with
    | nil => rfl
    | cons node order => rw [roomLoop, if_neg (Nat.not_le_of_lt hlt)]
  rcases hroom.lt_or_eq with hlt | heq
  · exact .inl ⟨hlt, hfits hlt⟩
  · obtain ⟨⟨k, t⟩, rest, rfl⟩ := List.exists_cons_of_length_pos (heq ▸ hmax : 0 < order.length)
    refine .inr ⟨k, t, rest, rfl, heq, ?_⟩
    rw [roomLoop, if_pos heq.ge]
    exact hfits (heq ▸ Nat.lt_succ_self _)

theorem Tracked.push {key : κ} (hmax : 1 ≤ maxEntries) (h : Tracked maxEntries ttl now log order entries) :
    Tracked maxEntries ttl now (.recorded key now :: log) ((roomLoop maxEntries order entries).1 ++ [(key, now)])
      ((roomLoop maxEntries order entries).2.insert key now) := by
  -- after making room: the queue is shorter than the bound, and the map lost the record at its end
  obtain ⟨order', entries', heq, hprefix, hlen, hgone, hnode, hheld⟩ : ∃ order' entries',
      roomLoop maxEntries order entries = (order', entries') ∧ order'.reverse <+: records log ∧
      order'.length < maxEntries ∧
      (∀ i k t, (records log)[i]? = some (k, t) → order'.length ≤ i → maxEntries ≤ i + 1 ∨ ttl ≤ now - t) ∧
      (∀ k t, entries'.lookup k = some t → (k, t) ∈ order') ∧
      ∀ k t, now - t < ttl → (entries'.lookup k = some t ↔
        Held maxEntries log k t ∧ (records log)[maxEntries - 1]? ≠ some (k, t)) := by
    rcases room_cases entries h.room hmax with ⟨hlt, heq⟩ | ⟨kh, th, rest, rfl, hfull, heq⟩
    · refine ⟨order, entries, heq, h.queue, hlt, fun i k t hi hle => ?_, h.node, fun k t hyoung => ?_⟩
      · exact (h.gone i k t hi hle).imp_left Nat.le_succ_of_le
      · rw [h.held k t hyoung]
        refine ⟨fun hheld => ⟨hheld, fun hlast => ?_⟩, And.left⟩
        rcases h.gone _ k t hlast (by omega) with hle | hold <;> omega
    · have hindex := h.head_index
      rw [List.length_cons] at hfull
      have hlast : maxEntries - 1 = rest.length := by omega
      have hpre := h.queue
      rw [List.reverse_cons] at hpre
      refine ⟨rest, _, heq, (List.prefix_append _ _).trans hpre, by omega, fun i k t _ hle => .inl (by omega), ?_, ?_⟩
      · intro k t hlookup
        obtain ⟨hlookup', hne⟩ := lookup_forget.mp hlookup
        exact (List.mem_cons.mp (h.node k t hlookup')).resolve_left hne
      · intro k t hyoung
        rw [lookup_forget, h.held k t hyoung, hlast, hindex, ne_eq, ne_eq, Option.some_inj, eq_comm]
  rw [heq]
  dsimp only
  refine ⟨?_, ?_, ?_, ?_, ?_, ?_, ?_⟩
  · rw [List.reverse_append, List.reverse_singleton, List.singleton_append]
    exact List.cons_prefix_cons.mpr ⟨rfl, hprefix⟩
  · rw [List.length_append, List.length_singleton]
    omega
  · intro i k t hi hle
    rw [List.length_append, List.length_singleton] at hle
    obtain ⟨j, rfl⟩ : ∃ j, i = j + 1 := ⟨i - 1, by omega⟩
    exact hgone j k t hi (by omega)
  · exact List.pairwise_cons.mpr ⟨fun e he => h.past e he, h.sorted⟩
  · intro e he
    rcases List.mem_cons.mp he with rfl | he'
    · exact le_rfl
    · exact h.past e he'
  · intro k t hlookup
    rw [Table.lookup_insert_ite] at hlookup
    rw [List.mem_append]
    by_cases hk : k = key
    · rw [if_pos hk, Option.some_inj] at hlookup
      exact .inr (by rw [hk, hlookup]; exact List.mem_singleton_self _)
    · rw [if_neg hk] at hlookup
      exact .inl (hnode k t hlookup)
  · intro k t hyoung
    rw [Table.lookup_insert_ite]
    by_cases hk : k = key
    · subst hk
      rw [if_pos rfl, Option.some_inj, held_recorded_self hmax, eq_comm]
    · rw [if_neg hk, hheld k t hyoung, held_recorded hmax fun heq => hk heq.symm]

/-! ### Taking a key -/

theorem Tracked.taken {key : κ} (h : Tracked maxEntries ttl now log order entries) :
    Tracked maxEntries ttl now (.taken key :: log) order (entries.erase key) where
  queue := h.queue
  room := h.room
  gone := h.gone
  sorted := h.sorted
  past := h.past
  node k t hlookup := by
    rw [Table.lookup_erase_ite] at hlookup
    by_cases hk : k = key
    · rw [if_pos hk] at hlookup
      cases hlookup
    · rw [if_neg hk] at hlookup
      exact h.node k t hlookup
  held k t hyoung := by
    rw [Table.lookup_erase_ite, Held, latest]
    by_cases hk : k = key
    · rw [if_pos hk, if_pos hk.symm]
      exact ⟨fun hnone => (nomatch hnone), fun ⟨_, hnone, _⟩ => (nomatch hnone)⟩
    · rw [if_neg hk, if_neg fun heq => hk heq.symm]
      exact h.held k t hyoung

end Tracked

/-! ### Runs -/

section Runs

variable {maxEntries ttl last now : ℕ} {log : List (BodyEvent κ)} {r : PendingTransactionBodyRequests κ}

/-- A table that was made with these bounds, and what it holds after `log`. -/
structure Holds (maxEntries ttl last : ℕ) (log : List (BodyEvent κ)) (r : PendingTransactionBodyRequests κ) :
    Prop where
  bound : r.maxEntries = maxEntries
  age : r.ttl = ttl
  tracked : Tracked maxEntries ttl last log r.order r.entries

theorem new_holds (maxEntries ttl : ℕ) :
    Holds (κ := κ) (max maxEntries 1) ttl 0 [] (PendingTransactionBodyRequests.new maxEntries ttl) where
  bound := rfl
  age := rfl
  tracked :=
    { queue := List.prefix_rfl
      room := Nat.zero_le _
      gone := fun _ _ _ h => nomatch h
      sorted := .nil
      past := fun _ h => nomatch h
      node := fun _ _ h => nomatch h
      held := fun _ _ _ => ⟨fun hnone => (nomatch hnone), fun ⟨_, hnone, _⟩ => (nomatch hnone)⟩ }

theorem Holds.prune (h : Holds maxEntries ttl last log r) (hle : last ≤ now) :
    Holds maxEntries ttl now log (r.pruneExpired now) where
  bound := h.bound
  age := h.age
  tracked := by
    have hpruned := (h.tracked.later hle).prune
    rwa [← h.age] at hpruned ⊢

theorem Holds.recordKey (hmax : 1 ≤ maxEntries) (key : κ) (h : Holds maxEntries ttl now log r) :
    Holds maxEntries ttl now (.recorded key now :: log) (r.recordKey key now) where
  bound := h.bound
  age := h.age
  tracked := by
    have hpushed : Tracked maxEntries ttl now (.recorded key now :: log) _ _ := h.tracked.push hmax
    rwa [← h.bound] at hpushed ⊢

theorem Holds.recordKeys (hmax : 1 ≤ maxEntries) : ∀ (keys : List κ) {log : List (BodyEvent κ)}
    {r : PendingTransactionBodyRequests κ}, Holds maxEntries ttl now log r →
    Holds maxEntries ttl now ((keys.map fun key => .recorded key now).reverse ++ log)
      (keys.foldl (fun r key => r.recordKey key now) r)
  | [], _, _, h => h
  | key :: keys, log, _, h => by
    have hrest := recordKeys hmax keys (h.recordKey hmax key)
    rw [List.map_cons, List.reverse_cons, List.append_assoc]
    exact hrest

theorem call_holds {log : List (BodyEvent (Peer × Hash))} {r : PendingTransactionBodyRequests (Peer × Hash)}
    (hmax : 1 ≤ maxEntries) (h : Holds maxEntries ttl last log r) :
    ∀ (call : BodyCall Peer), last ≤ call.now → Holds maxEntries ttl call.now (call.events ++ log) (call.step r)
  | .record peer keys now, hle => by
    have hrecorded := (h.prune hle).recordKeys hmax (keys.map fun key => (peer, key))
    rw [List.map_map, List.foldl_map] at hrecorded
    exact hrecorded
  | .take peer key now, hle => by
    obtain ⟨hbound, hage, htracked⟩ := h.prune hle
    exact ⟨hbound, hage, htracked.taken⟩

/-- What a table holds after any calls at non-decreasing times. -/
theorem run_holds {maxEntries ttl : ℕ} (hmax : 1 ≤ maxEntries) : ∀ (calls : List (BodyCall Peer)) {last now : ℕ}
    {log : List (BodyEvent (Peer × Hash))} {r : PendingTransactionBodyRequests (Peer × Hash)},
    Holds maxEntries ttl last log r → (last :: (calls.map BodyCall.now ++ [now])).Pairwise (· ≤ ·) →
    ∃ last', last' ≤ now ∧ Holds maxEntries ttl last' (calls.foldl (fun log call => call.events ++ log) log)
      (runBodyCalls r calls)
  | [], last, now, _, _, h, htimes => by
    have hle : last ≤ now := (List.pairwise_cons.mp htimes).1 now (List.mem_singleton_self _)
    exact ⟨last, hle, h⟩
  | call :: calls, last, now, log, r, h, htimes => by
    obtain ⟨hfirst, hrest⟩ := List.pairwise_cons.mp htimes
    have hle : last ≤ call.now := hfirst _ List.mem_cons_self
    exact run_holds hmax calls (call_holds hmax h call hle) hrest

/-- After pruning, the map answers for a key as `Held` says, at any age. -/
theorem Holds.answer {log : List (BodyEvent κ)} {r : PendingTransactionBodyRequests κ}
    (h : Holds maxEntries ttl last log r) (hle : last ≤ now) (key : κ) :
    ((r.pruneExpired now).entries.lookup key).isSome = true ↔ ∃ t, now - t < ttl ∧ Held maxEntries log key t := by
  have hpruned := (h.prune hle).tracked
  rw [Option.isSome_iff_exists]
  constructor
  · rintro ⟨t, hlookup⟩
    have hsorted : r.order.Pairwise fun a b => a.2 ≤ b.2 := by
      have hqueue := h.tracked.sorted.sublist h.tracked.queue.sublist
      rwa [List.pairwise_reverse] at hqueue
    have hyoung : now - t < ttl := by
      have hlt := prune_young hsorted (hpruned.node key t hlookup)
      rwa [h.age] at hlt
    exact ⟨t, hyoung, (hpruned.held key t hyoung).mp hlookup⟩
  · rintro ⟨t, hyoung, hheld⟩
    exact ⟨t, (hpruned.held key t hyoung).mpr hheld⟩

theorem authorised_iff {log : List (BodyEvent κ)} {key : κ} : Authorised maxEntries ttl log key now ↔
    ∃ t c, latest key log = some (t, c) ∧ now - t < ttl ∧ c < maxEntries := by
  constructor
  · rintro ⟨t, newer, older, hl, hyoung, hc⟩
    exact ⟨t, _, latest_iff.mpr ⟨newer, older, hl, rfl⟩, hyoung, hc⟩
  · rintro ⟨t, c, hlatest, hyoung, hc⟩
    obtain ⟨newer, older, hl, rfl⟩ := latest_iff.mp hlatest
    exact ⟨t, newer, older, hl, hyoung, hc⟩

omit [DecidableEq κ] in
theorem records_older {log newer older : List (BodyEvent κ)} {key : κ} {t : ℕ} (hl : Latest log key t newer older)
    (i : ℕ) : (records log)[(records newer).length + i + 1]? = (records older)[i]? := by
  rw [hl.split, records_append, List.getElem?_append_right (by omega)]
  have hsub : (records newer).length + i + 1 - (records newer).length = i + 1 := by omega
  rw [hsub]
  rfl

theorem confused_iff {log : List (BodyEvent κ)} {key : κ} : Confused maxEntries ttl log key now ↔
    ∃ t c, latest key log = some (t, c) ∧ now - t < ttl ∧ c < maxEntries ∧
      ∃ i, (records log)[i]? = some (key, t) ∧ maxEntries ≤ i ∧ i < c + maxEntries := by
  constructor
  · rintro ⟨t, newer, older, hl, hyoung, hc, i, hi, hlt, hle⟩
    refine ⟨t, _, latest_iff.mpr ⟨newer, older, hl, rfl⟩, hyoung, hc, (records newer).length + i + 1, ?_, hle, by omega⟩
    rw [records_older hl, hi]
  · rintro ⟨t, c, hlatest, hyoung, hc, i, hi, hle, hlt⟩
    obtain ⟨newer, older, hl, rfl⟩ := latest_iff.mp hlatest
    obtain ⟨j, rfl⟩ : ∃ j, i = (records newer).length + j + 1 := ⟨i - (records newer).length - 1, by omega⟩
    rw [records_older hl] at hi
    exact ⟨t, newer, older, hl, hyoung, hc, j, hi, by omega, hle⟩

/-- The map misses an authorised key exactly if it was confused with an older request. -/
theorem held_iff {log : List (BodyEvent κ)} {key : κ} : (∃ t, now - t < ttl ∧ Held maxEntries log key t) ↔
    Authorised maxEntries ttl log key now ∧ ¬ Confused maxEntries ttl log key now := by
  rw [authorised_iff, confused_iff]
  constructor
  · rintro ⟨t, hyoung, c, hlatest, hc, hold⟩
    refine ⟨⟨t, c, hlatest, hyoung, hc⟩, ?_⟩
    rintro ⟨t', c', hlatest', -, -, i, hi, hle, hlt⟩
    obtain ⟨rfl, rfl⟩ := Prod.mk.inj (Option.some.inj (hlatest.symm.trans hlatest'))
    have hge : c + maxEntries ≤ i := hold i hi hle
    omega
  · rintro ⟨⟨t, c, hlatest, hyoung, hc⟩, hclear⟩
    refine ⟨t, hyoung, c, hlatest, hc, fun i hi hle => ?_⟩
    by_contra hlt
    exact hclear ⟨t, c, hlatest, hyoung, hc, i, hi, hle, by omega⟩

end Runs

/-- **Body-request authorisation.** After any calls at non-decreasing times the queue is within its
bound and every live entry has a queue node with its time; and a take answers what the history says,
exactly if the key's live request is not confused with an older one of the same instant. -/
theorem take_authorised (maxEntries ttl : ℕ) (calls : List (BodyCall Peer)) (peer : Peer) (key : Hash) (now : ℕ)
    (htimes : (calls.map BodyCall.now ++ [now]).Pairwise (· ≤ ·)) :
    let r := runBodyCalls (.new maxEntries ttl) calls
    let log := bodyHistory calls
    r.order.length ≤ r.maxEntries ∧
    (∀ k t, r.entries.lookup k = some t → (k, t) ∈ r.order) ∧
    (((r.take peer key now).1 = true ↔ Authorised r.maxEntries r.ttl log (peer, key) now) ↔
      ¬ Confused r.maxEntries r.ttl log (peer, key) now) := by
  intro r log
  obtain ⟨last, hle, hbound, hage, htracked⟩ := run_holds (le_max_right maxEntries 1) calls (new_holds maxEntries ttl)
    (List.pairwise_cons.mpr ⟨fun _ _ => Nat.zero_le _, htimes⟩)
  have hmax : r.maxEntries = max maxEntries 1 := hbound
  have httl : r.ttl = ttl := hage
  have htake : (r.take peer key now).1 = true ↔
      Authorised (max maxEntries 1) ttl log (peer, key) now ∧ ¬ Confused (max maxEntries 1) ttl log (peer, key) now :=
    (Holds.answer ⟨hbound, hage, htracked⟩ hle (peer, key)).trans held_iff
  have hconfused : Confused (max maxEntries 1) ttl log (peer, key) now →
      Authorised (max maxEntries 1) ttl log (peer, key) now := by
    rintro ⟨t, newer, older, hl, hyoung, hc, -⟩
    exact ⟨t, newer, older, hl, hyoung, hc⟩
  rw [hmax, httl, htake]
  exact ⟨htracked.room, htracked.node, by tauto⟩

local instance keyNeZero : NeZero (2 ^ 256) := ⟨by decide⟩

/-- Peer 1 asks twice for one key, a second apart, and peer 2 for another, in a queue of two; peer 2 is served. -/
def refreshed : List (BodyCall ℕ) := [.record 1 [5] 0, .record 1 [5] 1, .record 2 [6] 2, .take 2 6 3]

/-- The first node of peer 1's key was pushed out, and the key is still good. -/
theorem take_authorised_refreshed :
    (runBodyCalls (.new 2 10) refreshed).order.length ≤ 2 ∧
    ((runBodyCalls (.new 2 10) refreshed).take 1 5 4).1 = true ∧
    Authorised 2 10 (bodyHistory refreshed) (1, 5) 4 ∧ ¬ Confused 2 10 (bodyHistory refreshed) (1, 5) 4 := by
  obtain ⟨hroom, -, hexact⟩ := take_authorised 2 10 refreshed 1 5 4 (by decide)
  have htaken : ((runBodyCalls (.new 2 10) refreshed).take 1 5 4).1 = true := by decide
  have hauthorised : Authorised 2 10 (bodyHistory refreshed) (1, 5) 4 :=
    authorised_iff.mpr ⟨1, 1, by decide, by decide, by decide⟩
  exact ⟨hroom, htaken, hauthorised, hexact.mp (iff_of_true htaken hauthorised)⟩

/-- Two requests for one key at one instant, then one for another key, in a queue of two: the key is
refused, though a single key was recorded after it. -/
theorem take_refuses_authorised :
    ¬ ∀ (maxEntries ttl : ℕ) (calls : List (BodyCall ℕ)) (peer : ℕ) (key : Hash) (now : ℕ),
      (calls.map BodyCall.now ++ [now]).Pairwise (· ≤ ·) →
      (((runBodyCalls (.new maxEntries ttl) calls).take peer key now).1 = true ↔
        Authorised (max maxEntries 1) ttl (bodyHistory calls) (peer, key) now) := by
  intro h
  have hiff := h 2 10 [.record 1 [5] 0, .record 1 [5] 0, .record 1 [6] 0] 1 5 0 (by decide)
  have hauthorised : Authorised 2 10 (bodyHistory [.record (1 : ℕ) [5] 0, .record 1 [5] 0, .record 1 [6] 0]) (1, 5) 0 :=
    authorised_iff.mpr ⟨0, 1, by decide, by decide, by decide⟩
  exact absurd (hiff.mpr hauthorised) (by decide)

end Alphanumeric
