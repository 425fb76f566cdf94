/-
# The history merger

`gui/src/history.rs` merges the histories of the wallet's addresses into one list. `Merge::accept` puts one page of an
address into that address's stream; `Merge::advance` emits rows up to a target, and says which page it needs to go on.
Nothing is emitted while a stream that has not ended is empty. Two streams whose heads have the same key are two sides
of one transaction, which becomes one row.

Key definitions: `History.Stream`, `History.Merge`, `History.Merge.accept`, `History.Merge.advance`,
`History.Merge.pickHighest`, `History.Merge.emit`.
Key theorems: `History.pickHighest_spec`, `History.emit_cases`, `History.advance_spec`, `History.Emits.keeps`.
-/
import Mathlib.Data.Prod.Lex
import Alphanumeric.Lib.Tasks
import Alphanumeric.Types

namespace Alphanumeric.History

/-! ### Pages -/

/-- Height, then position in the block. -/
abbrev Key : Type := ℕ ×ₗ ℕ

structure Cursor where
  beforeHeight : ℕ
  beforePos : ℕ
deriving DecidableEq, Repr

def Cursor.key (c : Cursor) : Key := toLex (c.beforeHeight, c.beforePos)

structure TxEntry where
  amountUnits : ℤ
  feeUnits : ℤ
  counterparty : Text
  direction : Text
  height : ℕ
  position : ℕ
  timestamp : ℕ
deriving DecidableEq, Repr

def TxEntry.key (e : TxEntry) : Key := toLex (e.height, e.position)

/-- `transactions` is absent when the index cannot answer. -/
structure AddressPage where
  transactions : Option (List TxEntry)
  next : Option Cursor
  indexHeight : Option ℕ
deriving DecidableEq, Repr

def dirIn : Text := ['i', 'n']
def dirOut : Text := ['o', 'u', 't']
def dirSelf : Text := ['s', 'e', 'l', 'f']

/-- Strictly below the cursor of the request; the first page is accepted in full. -/
def below (before : Option Cursor) (e : TxEntry) : Bool := before.all fun cursor => decide (e.key < cursor.key)

/-- The entries of a page that are not dropped. -/
def AddressPage.kept (page : AddressPage) (before : Option Cursor) : List TxEntry :=
  (page.transactions.getD []).filter (below before)

/-! ### Rows -/

inductive RowKind where
  | mining
  | incoming (sender : Text)
  | outgoing (recipient : Text)
  | internal (sender recipient : Text)
deriving DecidableEq, Repr

structure Row where
  height : ℕ
  position : ℕ
  timestamp : ℕ
  amountUnits : ℤ
  feeUnits : ℤ
  kind : RowKind
  owner : Text
deriving DecidableEq, Repr

def Row.key (r : Row) : Key := toLex (r.height, r.position)

def TxEntry.row (e : TxEntry) (kind : RowKind) (owner : Text) : Row :=
  ⟨e.height, e.position, e.timestamp, e.amountUnits, e.feeUnits, kind, owner⟩

/-- The kind of an entry that no other stream has. -/
def TxEntry.kind (e : TxEntry) (owner : Text) : RowKind :=
  if e.counterparty = miningRewards ∧ e.direction = dirIn then .mining
  else if e.direction = dirSelf then .internal owner owner
  else if e.direction = dirOut then .outgoing e.counterparty
  else .incoming e.counterparty

/-- The kind of an entry that the stream of `other` has too. -/
def TxEntry.folded (e : TxEntry) (owner other : Text) : RowKind :=
  if e.direction = dirOut then .internal owner other else .internal other owner

/-! ### Streams -/

structure Stream where
  address : Text
  buffer : List TxEntry
  next : Option Cursor
  answered : Bool
  finished : Bool
  stalled : Bool
  indexHeight : Option ℕ
deriving DecidableEq, Repr

namespace Stream

def new (address : Text) : Stream := ⟨address, [], none, false, false, false, none⟩

def needsAPage (s : Stream) : Bool := s.buffer.isEmpty && !s.finished && !s.stalled

def head (s : Stream) : Option Key := s.buffer.head?.map TxEntry.key

def accept (s : Stream) (before : Option Cursor) (page : AddressPage) : Stream :=
  { s with
    answered := true
    indexHeight := page.indexHeight
    next := page.next
    buffer := s.buffer ++ page.kept before
    finished := if page.transactions.isSome then page.next.isNone else s.finished
    stalled := s.stalled || page.transactions.isNone }

def pop (s : Stream) : Stream := { s with buffer := s.buffer.tail }

end Stream

/-! ### The merger -/

structure Merge where
  streams : List Stream
  rows : List Row
deriving DecidableEq, Repr

inductive Need where
  | page (index : ℕ) (address : Text) (before : Option Cursor)
  | idle
deriving DecidableEq, Repr

/-- `Iterator::max_by_key`: the last of the largest. -/
def lastMax {α : Type} [LinearOrder α] : List (ℕ × α) → Option (ℕ × α)
  | [] => none
  | x :: xs =>
    match lastMax xs with
    | none => some x
    | some y => if y.2 < x.2 then some x else some y

namespace Merge

def new (addresses : List Text) : Merge := ⟨addresses.map Stream.new, []⟩

def isDone (m : Merge) : Bool := m.streams.all fun s => s.answered && s.finished && s.buffer.isEmpty

/-- Feeds a page to stream `index`, and says how many entries were kept. -/
def accept (m : Merge) (index : ℕ) (before : Option Cursor) (page : AddressPage) : Merge × ℕ :=
  match m.streams[index]? with
  | none => (m, 0)
  | some s => ({ m with streams := m.streams.set index (s.accept before page) }, (page.kept before).length)

def heads (m : Merge) : List (ℕ × Key) := m.streams.zipIdx.filterMap fun p => p.1.head.map (p.2, ·)

def pickHighest (m : Merge) : Option ℕ := (lastMax m.heads).map Prod.fst

/-- A different stream with the same key at its head. -/
def twin (m : Merge) (index : ℕ) (key : Key) : Option ℕ := m.streams.zipIdx.findSome? fun p =>
  if p.2 ≠ index ∧ p.1.head = some key then some p.2 else none

def popAt (m : Merge) (index : ℕ) : Merge := { m with streams := m.streams.modify index Stream.pop }

def push (m : Merge) (r : Row) : Merge := { m with rows := m.rows ++ [r] }

def emit (m : Merge) (index : ℕ) : Merge :=
  match m.streams[index]? with
  | none => m
  | some s =>
    match s.buffer with
    | [] => m
    | entry :: _ =>
      match (m.popAt index).twin index entry.key with
      | none => (m.popAt index).push (entry.row (entry.kind s.address) s.address)
      | some other =>
        let otherAddress := (m.streams[other]?.map Stream.address).getD []
        ((m.popAt index).popAt other).push (entry.row (entry.folded s.address otherAddress) s.address)

/-- How many entries wait in the buffers. -/
def buffered (m : Merge) : ℕ := (m.streams.map fun s => s.buffer.length).sum

/-- The loop of `advance`; every round takes an entry from a buffer. -/
def advanceLoop (want : ℕ) : ℕ → Merge → Merge × Need
  | 0, m => (m, .idle)
  | fuel + 1, m =>
    if want ≤ m.rows.length then (m, .idle)
    else if m.streams.any Stream.stalled then (m, .idle)
    else
      match m.streams.zipIdx.find? fun p => p.1.needsAPage with
      | some (s, index) => (m, .page index s.address s.next)
      | none =>
        match m.pickHighest with
        | none => (m, .idle)
        | some index => advanceLoop want fuel (m.emit index)

def advance (m : Merge) (want : ℕ) : Merge × Need := advanceLoop want (m.buffered + 1) m

end Merge

/-! ### The largest head -/

/-- The last of the largest, where the indices go up. -/
theorem lastMax_spec {α : Type} [LinearOrder α] : ∀ {xs : List (ℕ × α)} {y : ℕ × α},
    xs.Pairwise (fun a b => a.1 < b.1) → lastMax xs = some y →
    y ∈ xs ∧ ∀ x ∈ xs, x.2 ≤ y.2 ∧ (x.2 = y.2 → x.1 ≤ y.1)
  | [], _, _, h => by cases h
  | x :: xs, y, hup, h => by
    obtain ⟨hx, hxs⟩ := List.pairwise_cons.mp hup
    rw [lastMax] at h
    cases hrest : lastMax xs with
    | none =>
      rw [hrest] at h
      cases h
      have hnil : xs = [] := by
        cases xs with
        | nil => rfl
        | cons z zs =>
          rw [lastMax] at hrest
          split at hrest
          · cases hrest
          · split_ifs at hrest
      subst hnil
      refine ⟨List.mem_singleton_self _, fun z hz => ?_⟩
      rw [List.mem_singleton.mp hz]
      exact ⟨le_rfl, fun _ => le_rfl⟩
    | some z =>
      rw [hrest] at h
      obtain ⟨hmem, hmax⟩ := lastMax_spec hxs hrest
      dsimp only at h
      split_ifs at h with hlt
      · cases h
        refine ⟨List.mem_cons_self, fun u hu => ?_⟩
        rcases List.mem_cons.mp hu with rfl | hu
        · exact ⟨le_rfl, fun _ => le_rfl⟩
        · have hle := ((hmax u hu).1.trans_lt hlt)
          exact ⟨hle.le, fun heq => absurd heq hle.ne⟩
      · cases h
        refine ⟨List.mem_cons_of_mem _ hmem, fun u hu => ?_⟩
        rcases List.mem_cons.mp hu with rfl | hu
        · exact ⟨not_lt.mp hlt, fun _ => (hx _ hmem).le⟩
        · exact hmax u hu

theorem lastMax_eq_none {α : Type} [LinearOrder α] : ∀ {xs : List (ℕ × α)}, lastMax xs = none → xs = []
  | [], _ => rfl
  | x :: xs, h => by
    rw [lastMax] at h
    split at h
    · cases h
    · split_ifs at h

variable {m : Merge}

theorem mem_heads {i : ℕ} {k : Key} : (i, k) ∈ m.heads ↔ ∃ s, m.streams[i]? = some s ∧ s.head = some k := by
  unfold Merge.heads
  rw [List.mem_filterMap]
  constructor
  · rintro ⟨⟨s, j⟩, hmem, hsome⟩
    obtain ⟨k', hk', heq⟩ := Option.map_eq_some_iff.mp hsome
    cases heq
    exact ⟨s, List.mk_mem_zipIdx_iff_getElem?.mp hmem, hk'⟩
  · rintro ⟨s, hs, hk⟩
    exact ⟨(s, i), List.mk_mem_zipIdx_iff_getElem?.mpr hs, by rw [hk, Option.map_some]⟩

theorem heads_increasing (m : Merge) : m.heads.Pairwise fun a b => a.1 < b.1 := by
  unfold Merge.heads
  rw [List.pairwise_filterMap]
  have hidx : m.streams.zipIdx.Pairwise fun a b => a.2 < b.2 := by
    rw [List.pairwise_iff_getElem]
    intro i j hi hj hij
    rw [List.getElem_zipIdx, List.getElem_zipIdx]
    exact Nat.add_lt_add_left hij 0
  refine hidx.imp fun {a b} hab x hx y hy => ?_
  obtain ⟨k, -, rfl⟩ := Option.map_eq_some_iff.mp hx
  obtain ⟨l, -, rfl⟩ := Option.map_eq_some_iff.mp hy
  exact hab

/-- **The picked stream** has the largest head, and of those the last. -/
theorem pickHighest_spec {index : ℕ} (h : m.pickHighest = some index) : ∃ s entry rest,
    m.streams[index]? = some s ∧ s.buffer = entry :: rest ∧
    ∀ j t k, m.streams[j]? = some t → t.head = some k → k ≤ entry.key ∧ (k = entry.key → j ≤ index) := by
  obtain ⟨⟨i, k⟩, hmax, rfl⟩ := Option.map_eq_some_iff.mp h
  obtain ⟨hmem, hle⟩ := lastMax_spec (heads_increasing m) hmax
  obtain ⟨s, hs, hk⟩ := mem_heads.mp hmem
  obtain ⟨entry, hentry, rfl⟩ := Option.map_eq_some_iff.mp hk
  obtain ⟨rest, hbuffer⟩ := List.head?_eq_some_iff.mp hentry
  exact ⟨s, entry, rest, hs, hbuffer, fun j t k ht hk => hle (j, k) (mem_heads.mpr ⟨t, ht, hk⟩)⟩

theorem pickHighest_eq_none (h : m.pickHighest = none) {s : Stream} (hs : s ∈ m.streams) : s.buffer = [] := by
  have hnil := lastMax_eq_none (Option.map_eq_none_iff.mp h)
  obtain ⟨i, hi⟩ := List.mem_iff_getElem?.mp hs
  cases hbuffer : s.buffer with
  | nil => rfl
  | cons entry rest =>
    have hmem : (i, entry.key) ∈ m.heads := mem_heads.mpr ⟨s, hi, by rw [Stream.head, hbuffer]; rfl⟩
    rw [hnil] at hmem
    cases hmem

/-! ### One row -/

theorem popAt_get (m : Merge) (i j : ℕ) :
    (m.popAt i).streams[j]? = m.streams[j]?.map fun s => if i = j then s.pop else s :=
  List.getElem?_modify ..

theorem popAt_get_ne (m : Merge) {i j : ℕ} (h : j ≠ i) : (m.popAt i).streams[j]? = m.streams[j]? := by
  rw [popAt_get]
  simp only [if_neg (Ne.symm h)]
  exact Option.map_id'

theorem popAt_get_self (m : Merge) (i : ℕ) : (m.popAt i).streams[i]? = m.streams[i]?.map Stream.pop := by
  rw [popAt_get]
  simp only [if_true]

theorem twin_eq_some {index other : ℕ} {key : Key} (h : m.twin index key = some other) :
    other ≠ index ∧ ∃ t, m.streams[other]? = some t ∧ t.head = some key := by
  obtain ⟨⟨t, j⟩, hmem, hsome⟩ := List.exists_of_findSome?_eq_some h
  split_ifs at hsome with hcond
  cases hsome
  exact ⟨hcond.1, t, List.mk_mem_zipIdx_iff_getElem?.mp hmem, hcond.2⟩

theorem twin_eq_none {index : ℕ} {key : Key} (h : m.twin index key = none) {j : ℕ} {t : Stream} (hj : j ≠ index)
    (ht : m.streams[j]? = some t) : t.head ≠ some key := by
  intro hhead
  have hnone := List.findSome?_eq_none_iff.mp h (t, j) (List.mk_mem_zipIdx_iff_getElem?.mpr ht)
  rw [if_pos ⟨hj, hhead⟩] at hnone
  cases hnone

/-- **What emitting does**: it takes the head of one stream, or of two that have the same key. -/
theorem emit_cases {index : ℕ} {s : Stream} {entry : TxEntry} {rest : List TxEntry} (hs : m.streams[index]? = some s)
    (hbuffer : s.buffer = entry :: rest) :
    ((∀ j t, j ≠ index → m.streams[j]? = some t → t.head ≠ some entry.key) ∧
      m.emit index = (m.popAt index).push (entry.row (entry.kind s.address) s.address)) ∨
    ∃ other t, other ≠ index ∧ m.streams[other]? = some t ∧ t.head = some entry.key ∧
      m.emit index =
        ((m.popAt index).popAt other).push (entry.row (entry.folded s.address t.address) s.address) := by
  unfold Merge.emit
  rw [hs]
  dsimp only
  rw [hbuffer]
  dsimp only
  cases htwin : (m.popAt index).twin index entry.key with
  | none =>
    refine Or.inl ⟨fun j t hj ht => twin_eq_none htwin hj ?_, rfl⟩
    rwa [popAt_get_ne m hj]
  | some other =>
    obtain ⟨hother, t, ht, hhead⟩ := twin_eq_some htwin
    rw [popAt_get_ne m hother] at ht
    refine Or.inr ⟨other, t, hother, ht, hhead, ?_⟩
    dsimp only
    rw [ht]
    rfl

/-- What popping does not touch. -/
theorem popAt_map {β : Type*} {f : Stream → β} (hf : ∀ s : Stream, f s.pop = f s) (m : Merge) (i : ℕ) :
    (m.popAt i).streams.map f = m.streams.map f := by
  apply List.ext_getElem?
  intro j
  rw [List.getElem?_map, List.getElem?_map, popAt_get, Option.map_map]
  congr 1
  funext s
  show f (if i = j then s.pop else s) = f s
  split_ifs
  · exact hf s
  · rfl

theorem emit_map {β : Type*} {f : Stream → β} (hf : ∀ s : Stream, f s.pop = f s) (m : Merge) (index : ℕ) :
    (m.emit index).streams.map f = m.streams.map f := by
  unfold Merge.emit
  split
  · rfl
  · split
    · rfl
    · split
      · exact popAt_map hf m index
      · exact (popAt_map hf _ _).trans (popAt_map hf m index)

/-! ### What waits in the buffers -/

theorem buffered_popAt {i : ℕ} {s : Stream} (hs : m.streams[i]? = some s) :
    (m.popAt i).buffered + s.buffer.length = m.buffered + s.buffer.tail.length := by
  have hset : (m.popAt i).streams = m.streams.set i s.pop := by
    unfold Merge.popAt
    rw [List.modify_eq_set_getElem?, hs]
    rfl
  have hweigh := Tasks.weigh_set (fun s : Stream => s.buffer.length) s.pop hs
  unfold Tasks.weigh at hweigh
  unfold Merge.buffered
  rw [hset, hweigh]
  rfl

theorem buffered_popAt_le (m : Merge) (i : ℕ) : (m.popAt i).buffered ≤ m.buffered := by
  cases hs : m.streams[i]? with
  | none =>
    unfold Merge.popAt
    rw [List.modify_eq_set_getElem?, hs]
    exact le_rfl
  | some s =>
    have hpop := buffered_popAt hs
    rw [List.length_tail] at hpop
    omega

theorem buffered_emit {index : ℕ} (h : m.pickHighest = some index) : (m.emit index).buffered < m.buffered := by
  obtain ⟨s, entry, rest, hs, hbuffer, -⟩ := pickHighest_spec h
  have hpop := buffered_popAt hs
  rw [hbuffer, List.length_tail, List.length_cons] at hpop
  rcases emit_cases hs hbuffer with ⟨-, hemit⟩ | ⟨other, t, -, -, -, hemit⟩
  · rw [hemit]
    show (m.popAt index).buffered < m.buffered
    omega
  · rw [hemit]
    show ((m.popAt index).popAt other).buffered < m.buffered
    have hle := buffered_popAt_le (m.popAt index) other
    omega

/-! ### The loop -/

/-- Every stream has something at its head, or has ended. -/
def Merge.Ready (m : Merge) : Prop := ∀ s ∈ m.streams, s.stalled = false ∧ s.needsAPage = false

/-- The rows that one call of `advance` emits, one after the other. -/
inductive Emits (want : ℕ) : Merge → Merge → Prop where
  | refl (m : Merge) : Emits want m m
  | step {m m' : Merge} {index : ℕ} (hwant : m.rows.length < want) (hready : m.Ready)
      (hpick : m.pickHighest = some index) (h : Emits want (m.emit index) m') : Emits want m m'

/-- Why `advance` stops. -/
inductive Stops (want : ℕ) (m : Merge) : Need → Prop where
  | reached (h : want ≤ m.rows.length) : Stops want m .idle
  | stalled {s : Stream} (hs : s ∈ m.streams) (h : s.stalled = true) : Stops want m .idle
  | ended (hready : m.Ready) (h : m.pickHighest = none) : Stops want m .idle
  | needs {index : ℕ} {s : Stream} (hwant : m.rows.length < want) (hnone : ∀ s ∈ m.streams, s.stalled = false)
      (hs : m.streams[index]? = some s) (h : s.needsAPage = true) : Stops want m (.page index s.address s.next)

theorem advanceLoop_spec (want : ℕ) : ∀ (fuel : ℕ) (m : Merge), m.buffered < fuel →
    Emits want m (Merge.advanceLoop want fuel m).1 ∧
      Stops want (Merge.advanceLoop want fuel m).1 (Merge.advanceLoop want fuel m).2
  | 0, _, hfuel => absurd hfuel (Nat.not_lt_zero _)
  | fuel + 1, m, hfuel => by
    rw [Merge.advanceLoop]
    split_ifs with hwant hstalled
    · exact ⟨.refl m, .reached hwant⟩
    · obtain ⟨s, hs, h⟩ := List.any_eq_true.mp hstalled
      exact ⟨.refl m, .stalled hs h⟩
    · have hnone : ∀ s ∈ m.streams, s.stalled = false := fun s hs => by
        by_contra h
        exact hstalled (List.any_eq_true.mpr ⟨s, hs, by simpa using h⟩)
      cases hfind : m.streams.zipIdx.find? fun p => p.1.needsAPage with
      | some p =>
        obtain ⟨s, index⟩ := p
        have hs := List.mk_mem_zipIdx_iff_getElem?.mp (List.mem_of_find?_eq_some hfind)
        have hneeds : s.needsAPage = true := List.find?_some (p := fun p : Stream × ℕ => p.1.needsAPage) hfind
        exact ⟨.refl m, .needs (not_le.mp hwant) hnone hs hneeds⟩
      | none =>
        have hready : m.Ready := by
          intro s hs
          obtain ⟨i, hi⟩ := List.mem_iff_getElem?.mp hs
          have hneed := List.find?_eq_none.mp hfind (s, i) (List.mk_mem_zipIdx_iff_getElem?.mpr hi)
          exact ⟨hnone s hs, by simpa using hneed⟩
        dsimp only
        cases hpick : m.pickHighest with
        | none => exact ⟨.refl m, .ended hready hpick⟩
        | some index =>
          have hless := buffered_emit hpick
          obtain ⟨hemits, hstops⟩ := advanceLoop_spec want fuel (m.emit index) (by omega)
          exact ⟨.step (not_le.mp hwant) hready hpick hemits, hstops⟩

/-- **One call of `advance`**: it emits, row by row, and stops for a reason. -/
theorem advance_spec (m : Merge) (want : ℕ) :
    Emits want m (m.advance want).1 ∧ Stops want (m.advance want).1 (m.advance want).2 :=
  advanceLoop_spec want _ m (Nat.lt_succ_self _)

/-- What every row keeps, a call of `advance` keeps. -/
theorem Emits.keeps {want : ℕ} {P : Merge → Prop} {m m' : Merge}
    (hstep : ∀ {m : Merge} {index : ℕ}, P m → m.Ready → m.pickHighest = some index → P (m.emit index))
    (h : Emits want m m') (hm : P m) : P m' := by
  induction h with
  | refl => exact hm
  | step _ hready hpick _ ih => exact ih (hstep hm hready hpick)

end Alphanumeric.History
