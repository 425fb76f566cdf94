/-
# The history of an untrusted node

`HistoryMore` and `HistoryPageFetched` of `gui/src/app.rs` drive the merger: a press of "load more" aims at one
screen more than there is, asks for a page where the merger needs one, and goes on by itself with every page that
arrives, until the merger is idle, a page adds nothing although there is said to be more, or a request fails. The
target is set anew with every page.

`accept` compares entries with the cursor of the request, and with nothing else. The rows are in order, and no key
is shown twice, as long as every page is in order, its cursor is not above what it gave or was asked for, and no key
is given for three addresses. Requests come to an end as long as the cursors go down.

Key definitions: `History.HistoryDrive`, `History.Proper`, `History.CursorSinks`, `History.Sinking`, `History.rank`.
Key theorems: `History.Sinking.emit`, `History.Sinking.accept`, `History.run_sinking`, `History.fetchAll_ends`,
`History.untrusted_history`.
-/
import Mathlib.Data.DFinsupp.WellFounded
import Alphanumeric.HistoryMerge

namespace Alphanumeric.History

/-! ### The loop of the app -/

/-- `HISTORY_PAGE_ROWS`. -/
def historyPageRows : ℕ := 25

structure HistoryState where
  merge : Merge
  inFlight : Bool
  error : Option Text
  generation : ℕ
deriving DecidableEq, Repr

/-- A request for a page, which brings its index, generation and cursor back. -/
structure Request where
  index : ℕ
  address : Text
  generation : ℕ
  before : Option Cursor
deriving DecidableEq, Repr

def noNewEntries : Text :=
  "The node said more history was available but returned no new entries.".toList

def historyMore (h : HistoryState) : HistoryState × Option Request :=
  if h.inFlight then (h, none)
  else
    let (merge, need) := h.merge.advance (h.merge.rows.length + historyPageRows)
    match need with
    | .page index address before =>
      ({ h with merge, error := none, inFlight := true }, some ⟨index, address, h.generation, before⟩)
    | .idle => ({ h with merge, error := none }, none)

def historyPageFetched (h : HistoryState) (r : Request) (result : Except Text AddressPage) :
    HistoryState × Option Request :=
  if h.generation ≠ r.generation then (h, none)
  else
    match result with
    | .error error => ({ h with inFlight := false, error := some error }, none)
    | .ok page =>
      let (merge, kept) := h.merge.accept r.index r.before page
      if kept = 0 ∧ page.next.isSome then ({ h with merge, inFlight := false, error := some noNewEntries }, none)
      else historyMore { h with merge, inFlight := false }

/-- The state of one opening of the screen, and the request that is out. -/
structure HistoryDrive where
  state : HistoryState
  request : Option Request
deriving DecidableEq, Repr

inductive HistoryStep where
  | more
  | fetched (result : Except Text AddressPage)
  /-- An answer to an earlier opening of the screen. -/
  | stale (r : Request) (result : Except Text AddressPage)

namespace HistoryDrive

def new (addresses : List Text) (generation : ℕ) : HistoryDrive :=
  ⟨⟨Merge.new addresses, false, none, generation⟩, none⟩

def more (d : HistoryDrive) : HistoryDrive :=
  ⟨(historyMore d.state).1, (historyMore d.state).2.or d.request⟩

/-- The request that is out is answered. -/
def fetched (d : HistoryDrive) (result : Except Text AddressPage) : HistoryDrive :=
  match d.request with
  | none => d
  | some r => ⟨(historyPageFetched d.state r result).1, (historyPageFetched d.state r result).2⟩

def stale (d : HistoryDrive) (r : Request) (result : Except Text AddressPage) : HistoryDrive :=
  if r.generation = d.state.generation then d
  else ⟨(historyPageFetched d.state r result).1, (historyPageFetched d.state r result).2.or d.request⟩

def step (d : HistoryDrive) : HistoryStep → HistoryDrive
  | .more => d.more
  | .fetched result => d.fetched result
  | .stale r result => d.stale r result

def run (addresses : List Text) (generation : ℕ) (steps : List HistoryStep) : HistoryDrive :=
  steps.foldl step (new addresses generation)

/-- `n` answers, one after the other, and no press. -/
def fetchAll (d : HistoryDrive) (answers : ℕ → Except Text AddressPage) : ℕ → HistoryDrive
  | 0 => d
  | n + 1 => (d.fetchAll answers n).fetched (answers n)

end HistoryDrive

/-! ### What is asked of the node -/

/-- The cursor of a page is not above what the page gave, or above the cursor that it was asked for. -/
def CursorSinks (before : Option Cursor) (page : AddressPage) : Prop :=
  ∀ c, page.next = some c → (∀ e ∈ page.kept before, c.key ≤ e.key) ∧ ∀ b, before = some b → c.key ≤ b.key

/-- `parties` names two streams for every key. -/
structure Proper (parties : Key → ℕ × ℕ) (index : ℕ) (before : Option Cursor) (page : AddressPage) : Prop where
  descending : (page.kept before).Pairwise fun e f => f.key < e.key
  cursor : CursorSinks before page
  parties : ∀ e ∈ page.kept before, index = (parties e.key).1 ∨ index = (parties e.key).2

/-- Every page of a run is proper. -/
def ProperRun (parties : Key → ℕ × ℕ) : HistoryDrive → List HistoryStep → Prop
  | _, [] => True
  | d, s :: steps =>
    (∀ page r, s = .fetched (.ok page) → d.request = some r → Proper parties r.index r.before page) ∧
      ProperRun parties (d.step s) steps

/-- The rows are in order, and none is shown twice. -/
structure InOrder (rows : List Row) : Prop where
  order : rows.Pairwise fun a b => b.key ≤ a.key
  once : (rows.map Row.key).Nodup

/-- From one page to the next of a stream, the entries go down. -/
def KeepsDescending (d : HistoryDrive) (answers : ℕ → Except Text AddressPage) : Prop :=
  ∀ i j r r' page page', i < j → (d.fetchAll answers i).request = some r →
    (d.fetchAll answers j).request = some r' → r.index = r'.index → answers i = .ok page → answers j = .ok page' →
    ∀ e ∈ page.kept r.before, ∀ f ∈ page'.kept r'.before, f.key < e.key

/-! ### Rows that go down -/

/-- The invariant of a proper run. -/
structure Sinking (parties : Key → ℕ × ℕ) (m : Merge) : Prop where
  rows : m.rows.Pairwise fun a b => b.key < a.key
  buffer : ∀ s ∈ m.streams, s.buffer.Pairwise fun e f => f.key < e.key
  parties : ∀ (i : ℕ) s, m.streams[i]? = some s → ∀ e ∈ s.buffer, i = (parties e.key).1 ∨ i = (parties e.key).2
  under : ∀ s ∈ m.streams, ∀ e ∈ s.buffer, ∀ r ∈ m.rows, e.key < r.key
  cursor : ∀ s ∈ m.streams, s.finished = false → ∀ c, s.next = some c →
    (∀ e ∈ s.buffer, c.key ≤ e.key) ∧ ∀ r ∈ m.rows, c.key ≤ r.key
  first : ∀ s ∈ m.streams, s.finished = false → s.stalled = false → s.next = none → s.buffer = [] ∧ m.rows = []

variable {parties : Key → ℕ × ℕ} {m : Merge}

theorem new_sinking (parties : Key → ℕ × ℕ) (addresses : List Text) : Sinking parties (Merge.new addresses) := by
  have hfresh : ∀ s ∈ (Merge.new addresses).streams, s.buffer = [] ∧ s.next = none := fun s hs => by
    obtain ⟨a, -, rfl⟩ := List.mem_map.mp hs
    exact ⟨rfl, rfl⟩
  refine ⟨List.Pairwise.nil, fun s hs => ?_, fun i s hs e he => ?_, fun s hs e he => ?_, fun s hs _ c hc => ?_,
    fun s hs _ _ _ => ⟨(hfresh s hs).1, rfl⟩⟩
  · rw [(hfresh s hs).1]
    exact List.Pairwise.nil
  · rw [(hfresh s (List.mem_of_getElem? hs)).1] at he
    cases he
  · rw [(hfresh s hs).1] at he
    cases he
  · rw [(hfresh s hs).2] at hc
    cases hc

/-- Streams are popped, and a row of key `k` comes that lies over all that is left. -/
theorem Sinking.push (h : Sinking parties m) (hready : m.Ready) {m' : Merge} {r : Row}
    (hrows : m'.rows = m.rows ++ [r])
    (hstreams : ∀ (j : ℕ) s', m'.streams[j]? = some s' → ∃ s, m.streams[j]? = some s ∧
      (s' = s ∨ s' = s.pop) ∧ ∀ e ∈ s'.buffer, e.key < r.key)
    (hover : ∀ r' ∈ m.rows, r.key < r'.key)
    (hheads : ∀ s ∈ m.streams, ∀ e ∈ s.buffer, e.key ≤ r.key) : Sinking parties m' := by
  have hold : ∀ {j : ℕ} {s' : Stream}, m'.streams[j]? = some s' → ∃ s, m.streams[j]? = some s ∧
      s'.next = s.next ∧ s'.finished = s.finished ∧ s'.stalled = s.stalled ∧ s'.buffer.Sublist s.buffer := by
    intro j s' hs'
    obtain ⟨s, hs, hcase, -⟩ := hstreams j s' hs'
    refine ⟨s, hs, ?_⟩
    rcases hcase with rfl | rfl
    · exact ⟨rfl, rfl, rfl, List.Sublist.refl _⟩
    · exact ⟨rfl, rfl, rfl, List.tail_sublist _⟩
  refine ⟨?_, fun s' hs' => ?_, fun i s' hs' e he => ?_, fun s' hs' e he r' hr' => ?_, fun s' hs' hopen c hc => ?_,
    fun s' hs' hopen hstalled hnone => ?_⟩
  · rw [hrows]
    refine List.pairwise_append.mpr ⟨h.rows, List.pairwise_singleton _ _, fun r' hr' a ha => ?_⟩
    rw [List.mem_singleton.mp ha]
    exact hover r' hr'
  · obtain ⟨j, hj⟩ := List.mem_iff_getElem?.mp hs'
    obtain ⟨s, hs, -, -, -, hsub⟩ := hold hj
    exact (h.buffer s (List.mem_of_getElem? hs)).sublist hsub
  · obtain ⟨s, hs, -, -, -, hsub⟩ := hold hs'
    exact h.parties i s hs e (hsub.subset he)
  · obtain ⟨j, hj⟩ := List.mem_iff_getElem?.mp hs'
    obtain ⟨s, hs, -, -, -, hsub⟩ := hold hj
    obtain ⟨-, -, -, hless⟩ := hstreams j s' hj
    rw [hrows] at hr'
    rcases List.mem_append.mp hr' with hr' | hr'
    · exact h.under s (List.mem_of_getElem? hs) e (hsub.subset he) r' hr'
    · rw [List.mem_singleton.mp hr']
      exact hless e he
  · obtain ⟨j, hj⟩ := List.mem_iff_getElem?.mp hs'
    obtain ⟨s, hs, hnext, hfinished, -, hsub⟩ := hold hj
    have hmem := List.mem_of_getElem? hs
    rw [hnext] at hc
    rw [hfinished] at hopen
    obtain ⟨hbuffer, hrows'⟩ := h.cursor s hmem hopen c hc
    refine ⟨fun e he => hbuffer e (hsub.subset he), fun r' hr' => ?_⟩
    rw [hrows] at hr'
    rcases List.mem_append.mp hr' with hr' | hr'
    · exact hrows' r' hr'
    · -- the stream was ready, so its head lies between the cursor and the row
      rw [List.mem_singleton.mp hr']
      have hneeds := (hready s hmem).2
      rw [Stream.needsAPage, hopen, (hready s hmem).1, Bool.not_false, Bool.and_true, Bool.and_true] at hneeds
      cases hb : s.buffer with
      | nil =>
        rw [hb] at hneeds
        cases hneeds
      | cons e rest =>
        have he : e ∈ s.buffer := by rw [hb]; exact List.mem_cons_self
        exact (hbuffer e he).trans (hheads s hmem e he)
  · obtain ⟨j, hj⟩ := List.mem_iff_getElem?.mp hs'
    obtain ⟨s, hs, hnext, hfinished, hstalled', -⟩ := hold hj
    have hmem := List.mem_of_getElem? hs
    rw [hnext] at hnone
    rw [hfinished] at hopen
    rw [hstalled'] at hstalled
    have hbuffer := (h.first s hmem hopen hstalled hnone).1
    have hneeds := (hready s hmem).2
    rw [Stream.needsAPage, hopen, hstalled, hbuffer] at hneeds
    cases hneeds

/-- Behind the head of a descending buffer all is less. -/
theorem pop_less {s : Stream} {k : Key} (hdesc : s.buffer.Pairwise fun e f => f.key < e.key)
    (hhead : s.head = some k) : ∀ e ∈ s.pop.buffer, e.key < k := by
  intro e he
  cases hb : s.buffer with
  | nil =>
    rw [Stream.head, hb] at hhead
    cases hhead
  | cons x rest =>
    have he : e ∈ s.buffer.tail := he
    rw [hb] at hdesc he
    rw [Stream.head, hb] at hhead
    cases hhead
    exact (List.pairwise_cons.mp hdesc).1 e he

/-- **A row goes out under all others**, and over all that waits. -/
theorem Sinking.emit (h : Sinking parties m) (hready : m.Ready) {index : ℕ} (hpick : m.pickHighest = some index) :
    Sinking parties (m.emit index) := by
  obtain ⟨s, entry, rest, hs, hbuffer, hmax⟩ := pickHighest_spec hpick
  have hmem := List.mem_of_getElem? hs
  have hentry : entry ∈ s.buffer := by rw [hbuffer]; exact List.mem_cons_self
  have hhead : s.head = some entry.key := by rw [Stream.head, hbuffer]; rfl
  have hover : ∀ r ∈ m.rows, entry.key < r.key := fun r hr => h.under s hmem entry hentry r hr
  -- the head of a stream lies over its buffer
  have hfirst : ∀ (j : ℕ) t, m.streams[j]? = some t → ∀ e ∈ t.buffer, ∃ k, t.head = some k ∧ e.key ≤ k ∧
      (e.key = k → ∃ tail, t.buffer = e :: tail) := by
    intro j t ht e he
    have hdesc := h.buffer t (List.mem_of_getElem? ht)
    cases hb : t.buffer with
    | nil =>
      rw [hb] at he
      cases he
    | cons x tail =>
      rw [hb] at he hdesc
      refine ⟨x.key, by rw [Stream.head, hb]; rfl, ?_⟩
      rcases List.mem_cons.mp he with rfl | he
      · exact ⟨le_rfl, fun _ => ⟨tail, rfl⟩⟩
      · have hlt := (List.pairwise_cons.mp hdesc).1 e he
        exact ⟨hlt.le, fun heq => absurd heq hlt.ne⟩
  have hheads : ∀ t ∈ m.streams, ∀ e ∈ t.buffer, e.key ≤ entry.key := by
    intro t ht e he
    obtain ⟨j, hj⟩ := List.mem_iff_getElem?.mp ht
    obtain ⟨k, hk, hle, -⟩ := hfirst j t hj e he
    exact hle.trans (hmax j t k hj hk).1
  -- a stream with another head has nothing as high as the row
  have hother : ∀ (j : ℕ) t, m.streams[j]? = some t → t.head ≠ some entry.key → ∀ e ∈ t.buffer,
      e.key < entry.key := by
    intro j t ht hne e he
    obtain ⟨k, hk, hle, -⟩ := hfirst j t ht e he
    have hk' := (hmax j t k ht hk).1
    exact hle.trans_lt (lt_of_le_of_ne hk' fun heq => hne (hk.trans (congrArg some heq)))
  rcases emit_cases hs hbuffer with ⟨halone, hemit⟩ | ⟨other, t, hne, ht, hthead, hemit⟩
  · rw [hemit]
    refine h.push hready rfl (fun j s' hj => ?_) hover hheads
    have hj : (m.popAt index).streams[j]? = some s' := hj
    by_cases hji : j = index
    · rw [hji, popAt_get_self, hs] at hj
      cases hj
      exact ⟨s, hji ▸ hs, Or.inr rfl, pop_less (h.buffer s hmem) hhead⟩
    · rw [popAt_get_ne m hji] at hj
      exact ⟨s', hj, Or.inl rfl, hother j s' hj (halone j s' hji hj)⟩
  · rw [hemit]
    refine h.push hready rfl (fun j s' hj => ?_) hover hheads
    have hj : ((m.popAt index).popAt other).streams[j]? = some s' := hj
    by_cases hjo : j = other
    · rw [hjo, popAt_get_self, popAt_get_ne m hne, ht] at hj
      cases hj
      exact ⟨t, hjo ▸ ht, Or.inr rfl, pop_less (h.buffer t (List.mem_of_getElem? ht)) hthead⟩
    · rw [popAt_get_ne _ hjo] at hj
      by_cases hji : j = index
      · rw [hji, popAt_get_self, hs] at hj
        cases hj
        exact ⟨s, hji ▸ hs, Or.inr rfl, pop_less (h.buffer s hmem) hhead⟩
      · rw [popAt_get_ne m hji] at hj
        refine ⟨s', hj, Or.inl rfl, hother j s' hj fun hhead' => ?_⟩
        -- a key has only two parties, and they are popped
        obtain ⟨x, hx, hxkey⟩ := Option.map_eq_some_iff.mp hhead'
        obtain ⟨y, hy, hykey⟩ := Option.map_eq_some_iff.mp hthead
        have h1 := h.parties j s' hj x (List.mem_of_head? hx)
        have h2 := h.parties other t ht y (List.mem_of_head? hy)
        have h3 := h.parties index s hs entry hentry
        rw [hxkey] at h1
        rw [hykey] at h2
        omega

/-- **A proper page** goes under all that the stream has shown. -/
theorem Sinking.accept (h : Sinking parties m) {index : ℕ} {s : Stream} (hs : m.streams[index]? = some s)
    (hneeds : s.needsAPage = true) {page : AddressPage} (hpage : Proper parties index s.next page) :
    Sinking parties (m.accept index s.next page).1 := by
  have hmem := List.mem_of_getElem? hs
  rw [Stream.needsAPage, Bool.and_eq_true, Bool.and_eq_true, List.isEmpty_iff, Bool.not_eq_true',
    Bool.not_eq_true'] at hneeds
  obtain ⟨⟨hempty, hopen⟩, hstalled⟩ := hneeds
  have hbuffer : (s.accept s.next page).buffer = page.kept s.next := by
    show s.buffer ++ _ = _
    rw [hempty, List.nil_append]
  -- what is kept, and the new cursor, lie under all rows
  have hunder : ∀ e ∈ page.kept s.next, ∀ r ∈ m.rows, e.key < r.key := by
    intro e he r hr
    cases hnext : s.next with
    | none =>
      rw [(h.first s hmem hopen hstalled hnext).2] at hr
      cases hr
    | some c =>
      rw [hnext] at he
      have hlt : e.key < c.key := of_decide_eq_true (List.mem_filter.mp he).2
      exact hlt.trans_le ((h.cursor s hmem hopen c hnext).2 r hr)
  have hcursor : ∀ c, page.next = some c → ∀ r ∈ m.rows, c.key ≤ r.key := by
    intro c hc r hr
    cases hnext : s.next with
    | none =>
      rw [(h.first s hmem hopen hstalled hnext).2] at hr
      cases hr
    | some b => exact ((hpage.cursor c hc).2 b hnext).trans ((h.cursor s hmem hopen b hnext).2 r hr)
  have hm : (m.accept index s.next page).1 = { m with streams := m.streams.set index (s.accept s.next page) } := by
    rw [Merge.accept, hs]
  rw [hm]
  have hcases : ∀ t ∈ m.streams.set index (s.accept s.next page), t ∈ m.streams ∨ t = s.accept s.next page :=
    fun t ht => List.mem_or_eq_of_mem_set ht
  refine ⟨h.rows, fun t ht => ?_, fun i t ht e he => ?_, fun t ht => ?_, fun t ht hopen' c hc => ?_,
    fun t ht hopen' hstalled' hnone => ?_⟩
  · rcases hcases t ht with ht | rfl
    · exact h.buffer t ht
    · rw [hbuffer]
      exact hpage.descending
  · rcases Tasks.get_set_cases ht with ⟨rfl, rfl⟩ | ⟨-, hold⟩
    · rw [hbuffer] at he
      exact hpage.parties e he
    · exact h.parties i t hold e he
  · rcases hcases t ht with ht | rfl
    · exact h.under t ht
    · rw [hbuffer]
      exact hunder
  · rcases hcases t ht with ht | rfl
    · exact h.cursor t ht hopen' c hc
    · rw [hbuffer]
      exact ⟨(hpage.cursor c hc).1, hcursor c hc⟩
  · rcases hcases t ht with ht | rfl
    · exact h.first t ht hopen' hstalled' hnone
    · -- a page without a cursor ends the stream, or stalls it
      have hnone : page.next = none := hnone
      have hopen' : (if page.transactions.isSome then page.next.isNone else s.finished) = false := hopen'
      have hstalled' : (s.stalled || page.transactions.isNone) = false := hstalled'
      rw [hstalled, Bool.false_or, Option.isNone_eq_false_iff] at hstalled'
      rw [hstalled', hnone] at hopen'
      cases hopen'

/-! ### The loop, step by step -/

/-- What is out was asked for a stream that needs it. -/
structure Waiting (d : HistoryDrive) : Prop where
  idle : d.state.inFlight = false → d.request = none
  request : ∀ r, d.request = some r → d.state.inFlight = true ∧ r.generation = d.state.generation ∧
    ∃ s, d.state.merge.streams[r.index]? = some s ∧ s.needsAPage = true ∧ r.before = s.next

theorem historyMore_spec {h : HistoryState} (hidle : h.inFlight = false) :
    Waiting ⟨(historyMore h).1, (historyMore h).2⟩ ∧
      ∃ want, (historyMore h).1.merge = (h.merge.advance want).1 := by
  have hstops := (advance_spec h.merge (h.merge.rows.length + historyPageRows)).2
  unfold historyMore
  rw [hidle]
  simp only [Bool.false_eq_true, if_false]
  cases hneed : (h.merge.advance (h.merge.rows.length + historyPageRows)).2 with
  | idle =>
    refine ⟨⟨fun _ => rfl, fun r hr => ?_⟩, _, rfl⟩
    cases hr
  | page index address before =>
    rw [hneed] at hstops
    refine ⟨⟨fun hfalse => ?_, fun r hr => ?_⟩, _, rfl⟩
    · cases hfalse
    · cases hr
      cases hstops with
      | needs _ _ hs hneeds => exact ⟨rfl, rfl, _, hs, hneeds, rfl⟩

theorem historyMore_inFlight {h : HistoryState} (hflight : h.inFlight = true) : historyMore h = (h, none) := by
  unfold historyMore
  rw [if_pos hflight]

/-- A press does nothing while a request is out, and otherwise advances. -/
theorem more_cases {d : HistoryDrive} (hw : Waiting d) : d.more = d ∨
    d.state.inFlight = false ∧ d.more = ⟨(historyMore d.state).1, (historyMore d.state).2⟩ := by
  unfold HistoryDrive.more
  cases hflight : d.state.inFlight with
  | true =>
    left
    rw [historyMore_inFlight hflight, Option.none_or]
  | false =>
    right
    rw [hw.idle hflight, Option.or_none]
    exact ⟨rfl, rfl⟩

theorem stale_eq (d : HistoryDrive) (r : Request) (result : Except Text AddressPage) : d.stale r result = d := by
  unfold HistoryDrive.stale
  split_ifs with hsame
  · rfl
  · unfold historyPageFetched
    rw [if_pos (fun heq : d.state.generation = r.generation => hsame heq.symm), Option.none_or]

/-- An answer ends the loop, or a page is accepted and the loop goes on. -/
theorem fetched_cases {d : HistoryDrive} (hw : Waiting d) {r : Request} (hr : d.request = some r)
    (result : Except Text AddressPage) :
    ((d.fetched result).request = none ∧ (d.fetched result).state.inFlight = false ∧
      ((d.fetched result).state.merge = d.state.merge ∨ ∃ page, result = .ok page ∧
        (d.fetched result).state.merge = (d.state.merge.accept r.index r.before page).1)) ∨
    ∃ page h, result = .ok page ∧ ¬ (page.kept r.before = [] ∧ page.next.isSome = true) ∧ h.inFlight = false ∧
      h.merge = (d.state.merge.accept r.index r.before page).1 ∧
      d.fetched result = ⟨(historyMore h).1, (historyMore h).2⟩ := by
  obtain ⟨-, hgeneration, s, hs, -, -⟩ := hw.request r hr
  have hkept : ∀ page, (d.state.merge.accept r.index r.before page).2 = (page.kept r.before).length := fun page => by
    rw [Merge.accept, hs]
  unfold HistoryDrive.fetched
  rw [hr]
  dsimp only
  unfold historyPageFetched
  rw [if_neg (not_not_intro hgeneration.symm)]
  cases result with
  | error error => exact Or.inl ⟨rfl, rfl, Or.inl rfl⟩
  | ok page =>
    dsimp only
    split_ifs with hstop
    · exact Or.inl ⟨rfl, rfl, Or.inr ⟨page, rfl, rfl⟩⟩
    · refine Or.inr ⟨page, _, rfl, fun hnone => hstop ⟨?_, hnone.2⟩, rfl, rfl, rfl⟩
      rw [hkept, hnone.1]
      rfl

theorem fetched_waiting {d : HistoryDrive} (hw : Waiting d) (result : Except Text AddressPage) :
    Waiting (d.fetched result) := by
  cases hr : d.request with
  | none =>
    have hsame : d.fetched result = d := by rw [HistoryDrive.fetched, hr]
    rwa [hsame]
  | some r =>
    rcases fetched_cases hw hr result with ⟨hnone, -, -⟩ | ⟨page, h, -, -, hidle, -, heq⟩
    · refine ⟨fun _ => hnone, fun r' hr' => ?_⟩
      rw [hnone] at hr'
      cases hr'
    · rw [heq]
      exact (historyMore_spec hidle).1

theorem step_waiting {d : HistoryDrive} (hw : Waiting d) : ∀ s : HistoryStep, Waiting (d.step s)
  | .more => by
    show Waiting d.more
    rcases more_cases hw with hsame | ⟨hidle, heq⟩
    · rwa [hsame]
    · rw [heq]
      exact (historyMore_spec hidle).1
  | .fetched result => fetched_waiting hw result
  | .stale r result => by
    show Waiting (d.stale r result)
    rwa [stale_eq]

theorem new_waiting (addresses : List Text) (generation : ℕ) : Waiting (HistoryDrive.new addresses generation) :=
  ⟨fun _ => rfl, fun _ hr => by cases hr⟩

theorem run_waiting (addresses : List Text) (generation : ℕ) (steps : List HistoryStep) :
    Waiting (HistoryDrive.run addresses generation steps) :=
  List.foldlRecOn steps _ (new_waiting addresses generation) fun _ hw s _ => step_waiting hw s

/-! ### Order -/

theorem Sinking.advance (h : Sinking parties m) (want : ℕ) : Sinking parties (m.advance want).1 :=
  (advance_spec m want).1.keeps (fun hm hready hpick => hm.emit hready hpick) h

theorem Sinking.more {h : HistoryState} (hsinks : Sinking parties h.merge) (hidle : h.inFlight = false) :
    Sinking parties (historyMore h).1.merge := by
  obtain ⟨-, want, hmerge⟩ := historyMore_spec hidle
  rw [hmerge]
  exact hsinks.advance want

/-- **Every proper step keeps the rows going down.** -/
theorem step_sinking {d : HistoryDrive} (hw : Waiting d) (h : Sinking parties d.state.merge) : ∀ s : HistoryStep,
    (∀ page r, s = .fetched (.ok page) → d.request = some r → Proper parties r.index r.before page) →
    Sinking parties (d.step s).state.merge
  | .more, _ => by
    show Sinking parties d.more.state.merge
    rcases more_cases hw with hsame | ⟨hidle, heq⟩
    · rwa [hsame]
    · rw [heq]
      exact h.more hidle
  | .fetched result, hproper => by
    show Sinking parties (d.fetched result).state.merge
    cases hr : d.request with
    | none =>
      have hsame : d.fetched result = d := by rw [HistoryDrive.fetched, hr]
      rwa [hsame]
    | some r =>
      obtain ⟨-, -, s, hs, hneeds, hbefore⟩ := hw.request r hr
      have haccept : ∀ page, result = .ok page →
          Sinking parties (d.state.merge.accept r.index r.before page).1 := by
        rintro page rfl
        have hpage := hproper page r rfl hr
        rw [hbefore] at hpage ⊢
        exact h.accept hs hneeds hpage
      rcases fetched_cases hw hr result with ⟨-, -, hsame | ⟨page, hok, hmerge⟩⟩ | ⟨page, h', hok, -, hidle,
          hmerge, heq⟩
      · rwa [hsame]
      · rw [hmerge]
        exact haccept page hok
      · rw [heq]
        exact Sinking.more (hmerge ▸ haccept page hok) hidle
  | .stale r result, _ => by
    show Sinking parties (d.stale r result).state.merge
    rwa [stale_eq]

theorem run_sinking : ∀ {d : HistoryDrive} (steps : List HistoryStep), Waiting d → Sinking parties d.state.merge →
    ProperRun parties d steps → Sinking parties (steps.foldl HistoryDrive.step d).state.merge
  | _, [], _, h, _ => h
  | _, s :: steps, hw, h, hproper =>
    run_sinking steps (step_waiting hw s) (step_sinking hw h s hproper.1) hproper.2

theorem Sinking.inOrder (h : Sinking parties m) : InOrder m.rows where
  order := h.rows.imp fun hlt => hlt.le
  once := List.pairwise_map.mpr (h.rows.imp fun hlt => hlt.ne')

/-! ### Requests come to an end -/

/-- How far a stream can still go down. -/
def rank (s : Stream) : WithBot (WithTop Key) :=
  if s.finished || s.stalled then ⊥
  else
    match s.next with
    | none => ((⊤ : WithTop Key) : WithBot (WithTop Key))
    | some c => ((c.key : WithTop Key) : WithBot (WithTop Key))

/-- A page that adds something, or ends the stream, takes it down. -/
theorem rank_accept {s : Stream} (hneeds : s.needsAPage = true) {page : AddressPage}
    (hsinks : CursorSinks s.next page) (hgoes : ¬ (page.kept s.next = [] ∧ page.next.isSome = true)) :
    rank (s.accept s.next page) < rank s := by
  rw [Stream.needsAPage, Bool.and_eq_true, Bool.and_eq_true, Bool.not_eq_true', Bool.not_eq_true'] at hneeds
  obtain ⟨⟨-, hopen⟩, hstalled⟩ := hneeds
  have hbot : ⊥ < rank s := by
    unfold rank
    rw [hopen, hstalled]
    cases s.next <;> exact WithBot.bot_lt_coe _
  have hend : ((s.accept s.next page).finished || (s.accept s.next page).stalled) = true →
      rank (s.accept s.next page) < rank s := fun h => by
    rw [rank, if_pos h]
    exact hbot
  have hfinished : (s.accept s.next page).finished =
      if page.transactions.isSome then page.next.isNone else s.finished := rfl
  have hstalled' : (s.accept s.next page).stalled = (s.stalled || page.transactions.isNone) := rfl
  cases htransactions : page.transactions with
  | none =>
    refine hend ?_
    rw [hstalled', htransactions, Option.isNone_none, Bool.or_true, Bool.or_true]
  | some entries =>
    rw [htransactions, Option.isSome_some, if_pos rfl] at hfinished
    rw [htransactions, hstalled] at hstalled'
    cases hnext : page.next with
    | none =>
      refine hend ?_
      rw [hfinished, hnext]
      rfl
    | some c =>
      have hkept : page.kept s.next ≠ [] := fun hnil => hgoes ⟨hnil, by rw [hnext]; rfl⟩
      obtain ⟨e, he⟩ := List.exists_mem_of_ne_nil _ hkept
      have hle := (hsinks c hnext).1 e he
      have hafter : rank (s.accept s.next page) = ((c.key : WithTop Key) : WithBot (WithTop Key)) := by
        unfold rank
        rw [hfinished, hstalled', hnext]
        show (match page.next with
          | none => ((⊤ : WithTop Key) : WithBot (WithTop Key))
          | some c => ((c.key : WithTop Key) : WithBot (WithTop Key))) = _
        rw [hnext]
      rw [hafter]
      unfold rank
      rw [hopen, hstalled]
      cases hbefore : s.next with
      | none => exact WithBot.coe_lt_coe.mpr (WithTop.coe_lt_top _)
      | some b =>
        rw [hbefore] at he
        have hlt : e.key < b.key := of_decide_eq_true (List.mem_filter.mp he).2
        exact WithBot.coe_lt_coe.mpr (WithTop.coe_lt_coe.mpr (hle.trans_lt hlt))

theorem advance_ranks (m : Merge) (want : ℕ) : (m.advance want).1.streams.map rank = m.streams.map rank :=
  (advance_spec m want).1.keeps (P := fun m' => m'.streams.map rank = m.streams.map rank)
    (fun {m' index} hm _ _ => (emit_map (fun _ => rfl) m' index).trans hm) rfl

/-- While requests go on, some stream goes down, and the others stay where they are. -/
theorem fetched_ranks {d : HistoryDrive} (hw : Waiting d) {r : Request} (hr : d.request = some r)
    {result : Except Text AddressPage} (hsinks : ∀ page, result = .ok page → CursorSinks r.before page)
    (hgoes : (d.fetched result).request ≠ none) : ∃ s page, d.state.merge.streams[r.index]? = some s ∧
      rank (s.accept s.next page) < rank s ∧
      (d.fetched result).state.merge.streams.map rank =
        (d.state.merge.streams.map rank).set r.index (rank (s.accept s.next page)) := by
  obtain ⟨-, -, s, hs, hneeds, hbefore⟩ := hw.request r hr
  rcases fetched_cases hw hr result with ⟨hnone, -, -⟩ | ⟨page, h, hok, hadds, hidle, hmerge, heq⟩
  · exact absurd hnone hgoes
  · have hpage := hsinks page hok
    rw [hbefore] at hpage hadds hmerge
    refine ⟨s, page, hs, rank_accept hneeds hpage hadds, ?_⟩
    obtain ⟨-, want, hadvance⟩ := historyMore_spec hidle
    rw [heq]
    show (historyMore h).1.merge.streams.map rank = _
    rw [hadvance, advance_ranks, hmerge, Merge.accept, hs]
    exact List.map_set

theorem fetchAll_waiting {d : HistoryDrive} (hw : Waiting d) (answers : ℕ → Except Text AddressPage) :
    ∀ n, Waiting (d.fetchAll answers n)
  | 0 => hw
  | n + 1 => fetched_waiting (fetchAll_waiting hw answers n) (answers n)

/-- The ranks of `n` streams. -/
def ranks (n : ℕ) (m : Merge) (i : Fin n) : WithBot (WithTop Key) := (m.streams.map rank)[i.val]?.getD ⊥

/-- **The requests of one press come to an end**, as long as the cursors go down. -/
theorem fetchAll_ends {d : HistoryDrive} (hw : Waiting d) {answers : ℕ → Except Text AddressPage}
    (hsinks : ∀ i r page, (d.fetchAll answers i).request = some r → answers i = .ok page →
      CursorSinks r.before page) : ∃ n, (d.fetchAll answers n).request = none := by
  by_contra hforever
  rw [not_exists] at hforever
  set n := d.state.merge.streams.length with hn
  have hstep : ∀ k, ∃ i r, i < ((d.fetchAll answers k).state.merge.streams.map rank).length ∧
      r < (((d.fetchAll answers k).state.merge.streams.map rank)[i]?.getD ⊥) ∧
      (d.fetchAll answers (k + 1)).state.merge.streams.map rank =
        ((d.fetchAll answers k).state.merge.streams.map rank).set i r := by
    intro k
    obtain ⟨r, hr⟩ := Option.ne_none_iff_exists'.mp (hforever k)
    obtain ⟨s, page, hs, hlt, hset⟩ := fetched_ranks (fetchAll_waiting hw answers k) hr
      (fun page hok => hsinks k r page hr hok) (hforever (k + 1))
    refine ⟨r.index, _, ?_, ?_, hset⟩
    · rw [List.length_map]
      exact (List.getElem?_eq_some_iff.mp hs).1
    · rwa [List.getElem?_map, hs, Option.map_some, Option.getD_some]
  have hlen : ∀ k, ((d.fetchAll answers k).state.merge.streams.map rank).length = n := by
    intro k
    induction k with
    | zero => exact List.length_map _
    | succ k ih =>
      obtain ⟨i, r, -, -, hset⟩ := hstep k
      rw [hset, List.length_set, ih]
  have hanti : StrictAnti fun k => ranks n (d.fetchAll answers k).state.merge := by
    refine strictAnti_nat_of_succ_lt fun k => ?_
    obtain ⟨i, r, hi, hlt, hset⟩ := hstep k
    have hin : i < n := by rwa [hlen k] at hi
    refine Pi.lt_def.mpr ⟨fun j => ?_, ⟨i, hin⟩, ?_⟩
    · unfold ranks
      rw [hset]
      by_cases hji : j.val = i
      · rw [hji, List.getElem?_set_self hi]
        exact hlt.le
      · rw [List.getElem?_set_ne (Ne.symm hji)]
    · unfold ranks
      rw [hset, List.getElem?_set_self hi]
      exact hlt
  exact not_strictAnti_of_wellFoundedLT _ hanti

/-- **What holds of the history of an untrusted node.** In a run whose pages are all proper the rows are in order and
none is shown twice; and from any point of any run, the requests come to an end if the cursors go down. -/
theorem untrusted_history (addresses : List Text) (generation : ℕ) (steps : List HistoryStep) :
    (∀ parties, ProperRun parties (HistoryDrive.new addresses generation) steps →
      InOrder (HistoryDrive.run addresses generation steps).state.merge.rows) ∧
    ∀ answers : ℕ → Except Text AddressPage,
      (∀ i r page, ((HistoryDrive.run addresses generation steps).fetchAll answers i).request = some r →
        answers i = .ok page → CursorSinks r.before page) →
      ∃ n, ((HistoryDrive.run addresses generation steps).fetchAll answers n).request = none :=
  ⟨fun parties hproper => (run_sinking steps (new_waiting addresses generation)
    (new_sinking parties addresses) hproper).inOrder,
    fun _ hsinks => fetchAll_ends (run_waiting addresses generation steps) hsinks⟩

/-! ### What a node can do to it -/

/-- An entry at a height. -/
def entryAt (height : ℕ) : TxEntry := ⟨1, 0, ['x'], dirIn, height, 0, 0⟩

/-- A first page in the wrong order. -/
def unsorted : List HistoryStep := [.more, .fetched (.ok ⟨some [entryAt 10, entryAt 100], none, none⟩)]

theorem unsorted_disorders : ¬ (HistoryDrive.run [['a']] 0 unsorted).state.merge.rows.Pairwise
    (fun a b => b.key ≤ a.key) := by decide +kernel

/-- A page with one entry twice. -/
def repeated : List HistoryStep := [.more, .fetched (.ok ⟨some [entryAt 10, entryAt 10], none, none⟩)]

theorem repeated_repeats : ¬ ((HistoryDrive.run [['a']] 0 repeated).state.merge.rows.map Row.key).Nodup := by
  decide +kernel

/-- One entry, over and over, under a cursor that stays above it. -/
def standing (_ : ℕ) : Except Text AddressPage := .ok ⟨some [entryAt 100], some ⟨200, 0⟩, none⟩

/-- What is out under the standing cursor, with so many rows shown. -/
structure Standing (d : HistoryDrive) : Prop where
  request : ∃ before, (before = none ∨ before = some ⟨200, 0⟩) ∧ d.request = some ⟨0, ['a'], 0, before⟩
  inFlight : d.state.inFlight = true
  generation : d.state.generation = 0
  streams : ∃ s, d.state.merge.streams = [s] ∧ s.address = ['a'] ∧ s.buffer = [] ∧ s.finished = false ∧
    s.stalled = false

theorem standing_goes_on {d : HistoryDrive} (h : Standing d) (n : ℕ) : Standing (d.fetched (standing n)) := by
  obtain ⟨⟨before, hbefore, hrequest⟩, -, hgeneration, s, hstreams, haddress, hbuffer, hfinished, hstalled⟩ := h
  have hkept : (AddressPage.mk (some [entryAt 100]) (some ⟨200, 0⟩) none).kept before = [entryAt 100] := by
    rcases hbefore with rfl | rfl <;> decide +kernel
  obtain ⟨address, buffer, next, answered, finished, stalled, indexHeight⟩ := s
  dsimp only at haddress hbuffer hfinished hstalled
  subst haddress hbuffer hfinished hstalled
  obtain ⟨⟨⟨streams, rows⟩, inFlight, error, generation⟩, request⟩ := d
  dsimp only at hrequest hgeneration hstreams
  subst hrequest hgeneration hstreams
  have haccept : (Merge.mk [⟨['a'], [], next, answered, false, false, indexHeight⟩] rows).accept 0 before
      ⟨some [entryAt 100], some ⟨200, 0⟩, none⟩ =
      (⟨[⟨['a'], [entryAt 100], some ⟨200, 0⟩, true, false, false, none⟩], rows⟩, 1) := by
    simp [Merge.accept, Stream.accept, hkept]
  have hadvance : (Merge.mk [⟨['a'], [entryAt 100], some ⟨200, 0⟩, true, false, false, none⟩] rows).advance
      (rows.length + historyPageRows) =
      (⟨[⟨['a'], [], some ⟨200, 0⟩, true, false, false, none⟩],
        rows ++ [(entryAt 100).row ((entryAt 100).kind ['a']) ['a']]⟩, .page 0 ['a'] (some ⟨200, 0⟩)) := by
    simp [Merge.advance, Merge.advanceLoop, Merge.buffered, historyPageRows, Stream.needsAPage, Merge.pickHighest,
      Merge.heads, Stream.head, lastMax, Merge.emit, Merge.popAt, Merge.push, Merge.twin, Stream.pop]
  have hfetched : HistoryDrive.fetched ⟨⟨⟨[⟨['a'], [], next, answered, false, false, indexHeight⟩], rows⟩, inFlight,
      error, 0⟩, some ⟨0, ['a'], 0, before⟩⟩ (standing n) =
      ⟨⟨⟨[⟨['a'], [], some ⟨200, 0⟩, true, false, false, none⟩],
        rows ++ [(entryAt 100).row ((entryAt 100).kind ['a']) ['a']]⟩, true, none, 0⟩,
        some ⟨0, ['a'], 0, some ⟨200, 0⟩⟩⟩ := by
    simp [HistoryDrive.fetched, historyPageFetched, standing, haccept, historyMore, hadvance]
  rw [hfetched]
  exact ⟨⟨_, Or.inr rfl, rfl⟩, rfl, rfl, _, rfl, rfl, rfl, rfl, rfl⟩

theorem standing_forever (n : ℕ) : Standing ((HistoryDrive.run [['a']] 0 [.more]).fetchAll standing n) := by
  induction n with
  | zero => exact ⟨⟨none, Or.inl rfl, by decide +kernel⟩, by decide +kernel, rfl, Stream.new ['a'],
      by decide +kernel, rfl, rfl, rfl, rfl⟩
  | succ n ih => exact standing_goes_on ih n

/-- **An unsorted page, a repeated entry, and a cursor that does not go down** each break a promise. -/
theorem untrusted_history_fails :
    (¬ ∀ addresses generation steps,
      (HistoryDrive.run addresses generation steps).state.merge.rows.Pairwise fun a b => b.key ≤ a.key) ∧
    (¬ ∀ addresses generation steps,
      ((HistoryDrive.run addresses generation steps).state.merge.rows.map Row.key).Nodup) ∧
    ¬ ∀ addresses generation steps (answers : ℕ → Except Text AddressPage),
      (∃ n, ((HistoryDrive.run addresses generation steps).fetchAll answers n).request = none) ∨
        KeepsDescending (HistoryDrive.run addresses generation steps) answers := by
  refine ⟨fun h => unsorted_disorders (h _ _ _), fun h => repeated_repeats (h _ _ _), fun h => ?_⟩
  rcases h [['a']] 0 [.more] standing with ⟨n, hnone⟩ | hdescends
  · obtain ⟨before, -, hrequest⟩ := (standing_forever n).request
    rw [hnone] at hrequest
    cases hrequest
  · obtain ⟨before, hbefore, hrequest⟩ := (standing_forever 0).request
    obtain ⟨before', hbefore', hrequest'⟩ := (standing_forever 1).request
    have hkept : ∀ {before : Option Cursor}, before = none ∨ before = some ⟨200, 0⟩ →
        entryAt 100 ∈ (AddressPage.mk (some [entryAt 100]) (some ⟨200, 0⟩) none).kept before := by
      rintro before (rfl | rfl) <;> decide +kernel
    exact lt_irrefl _ (hdescends 0 1 _ _ _ _ Nat.zero_lt_one hrequest hrequest' rfl rfl rfl _ (hkept hbefore) _
      (hkept hbefore'))

/-- One page in order, and then nothing but errors. -/
theorem untrusted_history_onePage :
    InOrder (HistoryDrive.run [['a']] 0
      [.more, .fetched (.ok ⟨some [entryAt 100, entryAt 10], some ⟨10, 0⟩, none⟩)]).state.merge.rows ∧
    ∃ n, ((HistoryDrive.run [['a']] 0
      [.more, .fetched (.ok ⟨some [entryAt 100, entryAt 10], some ⟨10, 0⟩, none⟩)]).fetchAll
        (fun _ => .error ['x']) n).request = none := by
  refine ⟨(untrusted_history [['a']] 0 _).1 (fun _ => (0, 0)) ⟨fun page r h _ => ?_, fun page r h hr => ?_, trivial⟩,
    (untrusted_history [['a']] 0 _).2 _ fun i r page _ h => ?_⟩
  · cases h
  · cases h
    have hrequest : (HistoryDrive.step (.new [['a']] 0) .more).request = some ⟨0, ['a'], 0, none⟩ := by decide +kernel
    rw [hrequest] at hr
    cases hr
    refine ⟨by decide +kernel, fun c hc => ⟨?_, fun b hb => ?_⟩, fun e _ => Or.inl rfl⟩
    · cases hc
      decide +kernel
    · cases hb
  · cases h

end Alphanumeric.History
