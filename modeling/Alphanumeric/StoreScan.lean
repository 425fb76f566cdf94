/-
# Scans of the store

`scan_prefix`, `range` and `iter` of `src/a9/store.rs` walk a tree in pages of at most `limit` entries, a page ending
early once it holds `budget` bytes. Each page is read through a snapshot of its own. A scan resumes at the byte
successor of the last key it read, `key ∥ 0x00`; backwards, the smallest key read becomes the exclusive end.

A tree is its entries in the order of the keys. A read of the database may fail, which ends the scan.

Key definitions: `prefixEnd`, `rangePage`, `LazyScan`, `LazyScanRev`, `ScanCall`, `Walks`.
Key theorems: `prefixEnd_spec`, `LazyScan.next_view`, `LazyScanRev.next_view`, `paged_scans_exact`.
-/
import Alphanumeric.AddressIndex
import Alphanumeric.Lib.PagedScan

namespace Alphanumeric

open PagedScan

abbrev KvPair : Type := Bytes × Bytes

abbrev StoreTree : Type := Ordered Bytes Bytes

/-- `LazyScan::PAGE`. -/
def pageEntries : ℕ := 1024

def pageByteBudget : ℕ := 16 * 1024 * 1024

/-! ### Bounds -/

/-- The bytes from the last on: drop what cannot be incremented. -/
def prefixEndLoop : Bytes → Option Bytes
  | [] => none
  | last :: rest => if last < 0xff then some (rest.reverse ++ [last + 1]) else prefixEndLoop rest

/-- Exclusive-end bound for a prefix scan. -/
def prefixEnd (pre : Bytes) : Option Bytes := prefixEndLoop pre.reverse

/-- `x ∥ 0x00`. -/
def successor (key : Bytes) : Bytes := key ++ [0]

inductive Bound where
  | included (key : Bytes)
  | excluded (key : Bytes)
  | unbounded
deriving DecidableEq, Repr

def Bound.startKey : Bound → Bytes
  | .included s => s
  | .excluded s => successor s
  | .unbounded => []

def Bound.endKey : Bound → Option Bytes
  | .included e => some (successor e)
  | .excluded e => some e
  | .unbounded => none

/-- `k` lies below an exclusive end. -/
def below (endKey : Option Bytes) (k : Bytes) : Bool := endKey.all fun e => k < e

/-! ### Pages -/

def pageLoop (budget : ℕ) : ℕ → ℕ → List KvPair → List KvPair
  | limit + 1, bytes, e :: rest =>
    if budget ≤ bytes + (e.1.length + e.2.length) then [e]
    else e :: pageLoop budget limit (bytes + (e.1.length + e.2.length)) rest
  | _, _, _ => []

/-- One page of `start..end`. -/
def rangePage (limit budget : ℕ) (t : StoreTree) (start : Bytes) (endKey : Option Bytes) : List KvPair :=
  pageLoop budget limit 0 (t.scan fun k => decide (start ≤ k) && below endKey k)

/-- One descending page from the top of `start..end`. -/
def rangePageRev (limit budget : ℕ) (t : StoreTree) (start : Bytes) (endKey : Option Bytes) : List KvPair :=
  pageLoop budget limit 0 (t.scan fun k => decide (start ≤ k) && below endKey k).reverse

/-! ### Scans -/

structure LazyScan where
  tree : Bool
  nextStart : Bytes
  endKey : Option Bytes
  buf : List KvPair
deriving DecidableEq, Repr

structure LazyScanRev where
  tree : Bool
  start : Bytes
  nextEnd : Option Bytes
  buf : List KvPair
deriving DecidableEq, Repr

variable {ε : Type}

namespace LazyScan

def new (start : Bytes) (endKey : Option Bytes) : LazyScan := ⟨true, start, endKey, []⟩

/-- `read` is what a transaction that begins now would see. -/
def next (limit budget : ℕ) (read : Except ε StoreTree) (s : LazyScan) : Option (Except ε KvPair) × LazyScan :=
  match s.buf with
  | pair :: buf => (some (.ok pair), { s with buf })
  | [] =>
    if s.tree then
      match read with
      | .error e => (some (.error e), { s with tree := false })
      | .ok t =>
        match rangePage limit budget t s.nextStart s.endKey with
        | [] => (none, { s with tree := false })
        | pair :: page =>
          (some (.ok pair), { s with
            nextStart := successor ((pair :: page).getLast (List.cons_ne_nil pair page)).1
            buf := page })
    else (none, s)

def rev (s : LazyScan) : LazyScanRev := ⟨s.tree, s.nextStart, s.endKey, []⟩

def after (limit budget : ℕ) (reads : ℕ → Except ε StoreTree) (s : LazyScan) : ℕ → LazyScan
  | 0 => s
  | n + 1 => ((s.after limit budget reads n).next limit budget (reads n)).2

/-- What call `n` of `next` returns. -/
def yields (limit budget : ℕ) (reads : ℕ → Except ε StoreTree) (s : LazyScan) (n : ℕ) : Option (Except ε KvPair) :=
  ((s.after limit budget reads n).next limit budget (reads n)).1

end LazyScan

namespace LazyScanRev

def next (limit budget : ℕ) (read : Except ε StoreTree) (s : LazyScanRev) : Option (Except ε KvPair) × LazyScanRev :=
  match s.buf with
  | pair :: buf => (some (.ok pair), { s with buf })
  | [] =>
    if s.tree then
      match read with
      | .error e => (some (.error e), { s with tree := false })
      | .ok t =>
        match rangePageRev limit budget t s.start s.nextEnd with
        | [] => (none, { s with tree := false })
        | pair :: page =>
          (some (.ok pair), { s with
            nextEnd := some ((pair :: page).getLast (List.cons_ne_nil pair page)).1
            buf := page })
    else (none, s)

def after (limit budget : ℕ) (reads : ℕ → Except ε StoreTree) (s : LazyScanRev) : ℕ → LazyScanRev
  | 0 => s
  | n + 1 => ((s.after limit budget reads n).next limit budget (reads n)).2

def yields (limit budget : ℕ) (reads : ℕ → Except ε StoreTree) (s : LazyScanRev) (n : ℕ) : Option (Except ε KvPair) :=
  ((s.after limit budget reads n).next limit budget (reads n)).1

end LazyScanRev

/-- The ways to begin a scan. -/
inductive ScanCall where
  | scanPrefix (pre : Bytes)
  | range (start stop : Bound)
  | iter
deriving DecidableEq, Repr

def ScanCall.scan : ScanCall → LazyScan
  | .scanPrefix pre => LazyScan.new pre (prefixEnd pre)
  | .range start stop => LazyScan.new start.startKey stop.endKey
  | .iter => LazyScan.new [] none

/-! ### What a scan is for -/

def Bound.startsBefore : Bound → Bytes → Bool
  | .included s, k => s ≤ k
  | .excluded s, k => s < k
  | .unbounded, _ => true

def Bound.endsAfter : Bound → Bytes → Bool
  | .included e, k => k ≤ e
  | .excluded e, k => k < e
  | .unbounded, _ => true

/-- The keys that a call asks for. -/
def ScanCall.selects : ScanCall → Bytes → Bool
  | .scanPrefix pre, k => pre.isPrefixOf k
  | .range start stop, k => start.startsBefore k && stop.endsAfter k
  | .iter, _ => true

/-- A walk that never turns back and misses nothing that stays. -/
structure Walks (before : Bytes → Bytes → Prop) (selects : Bytes → Bool) (tables : ℕ → StoreTree)
    (yields : ℕ → Option (Except ε KvPair)) : Prop where
  found : ∀ i r, yields i = some r → ∃ e, r = .ok e ∧ selects e.1 = true
  monotone : ∀ i j a b, i < j → yields i = some (.ok a) → yields j = some (.ok b) → before a.1 b.1
  complete : ∀ n, yields n = none → ∀ k, selects k = true → (∀ i ≤ n, k ∈ (tables i).keys) →
    ∃ i < n, ∃ v, yields i = some (.ok (k, v))

/-! ### Bounds of byte strings -/

/-- What comes before the successor. -/
theorem lt_successor : ∀ {key k : Bytes}, k < successor key ↔ k ≤ key
  | [], [] => by simp [successor]
  | [], b :: bs => by
    have hb : ¬ b < 0 := by simp [UInt8.lt_iff_toNat_lt]
    rw [successor, List.nil_append, List.cons_lt_cons_iff]
    simp [hb]
  | a :: as, [] => ⟨fun _ => not_lt.mp (List.not_lt_nil _), fun _ => List.nil_lt_cons a _⟩
  | a :: as, b :: bs => by
    have ih : bs < successor as ↔ bs ≤ as := lt_successor
    have hcons : successor (a :: as) = a :: successor as := rfl
    rw [hcons, List.cons_lt_cons_iff, ih, ← not_lt, ← not_lt, List.cons_lt_cons_iff]
    constructor
    · rintro (hlt | ⟨rfl, hle⟩) (hlt' | ⟨heq, hlt'⟩)
      · exact lt_asymm hlt hlt'
      · exact absurd hlt (heq ▸ lt_irrefl _)
      · exact lt_irrefl _ hlt'
      · exact hle hlt'
    · intro h
      rcases lt_trichotomy b a with hlt | rfl | hgt
      · exact Or.inl hlt
      · exact Or.inr ⟨rfl, fun hlt => h (Or.inr ⟨rfl, hlt⟩)⟩
      · exact absurd (Or.inl hgt) h

theorem successor_le {key k : Bytes} : successor key ≤ k ↔ key < k := by
  rw [← not_lt, lt_successor, not_le]

theorem le_append (xs ys : Bytes) : xs ≤ xs ++ ys := by
  rw [← not_lt]
  intro h
  have hiff : xs ++ ys < xs ++ [] ↔ xs < xs ∨ xs = xs ∧ ys < [] := List.append_lt_append_iff rfl
  rw [List.append_nil] at hiff
  rw [hiff] at h
  rcases h with h | ⟨-, h⟩
  · exact lt_irrefl xs h
  · exact absurd h (List.not_lt_nil ys)

theorem append_le_append_iff {xs ys zs : Bytes} : xs ++ ys ≤ xs ++ zs ↔ ys ≤ zs := by
  rw [← not_lt, List.append_lt_append_iff rfl, ← not_lt]
  simp

/-- The strings between a byte and the next begin with it. -/
theorem cons_of_between {b : UInt8} (hb : b < 0xff) {r : Bytes} (hle : [b] ≤ r) (hlt : r < [b + 1]) :
    ∃ r', r = b :: r' := by
  cases r with
  | nil => exact absurd hle (by simp)
  | cons c r' =>
    rw [← not_lt, List.cons_lt_cons_iff] at hle
    rw [List.cons_lt_cons_iff] at hlt
    simp only [List.not_lt_nil, and_false, or_false] at hlt
    have hc : ¬ c < b := fun h => hle (Or.inl h)
    refine ⟨r', ?_⟩
    congr 1
    apply UInt8.toNat.inj
    rw [UInt8.lt_iff_toNat_lt] at hb hc hlt
    rw [UInt8.toNat_add] at hlt
    have h255 : (0xff : UInt8).toNat = 255 := rfl
    have h1 : (1 : UInt8).toNat = 1 := rfl
    omega

theorem prefixEnd_append (pre : Bytes) (b : UInt8) :
    prefixEnd (pre ++ [b]) = if b < 0xff then some (pre ++ [b + 1]) else prefixEnd pre := by
  rw [prefixEnd, List.reverse_append, List.reverse_singleton, List.singleton_append, prefixEndLoop,
    List.reverse_reverse]
  rfl

/-- **The bounds of a prefix scan**: what starts with the prefix, whatever the prefix. -/
theorem prefixEnd_spec (pre k : Bytes) : pre <+: k ↔ pre ≤ k ∧ below (prefixEnd pre) k = true := by
  induction pre using List.reverseRecOn with
  | nil =>
    have hempty : prefixEnd [] = none := rfl
    rw [hempty]
    exact ⟨fun _ => ⟨le_append [] k, rfl⟩, fun _ => List.nil_prefix⟩
  | append_singleton pre b ih =>
    rw [prefixEnd_append]
    split_ifs with hb
    · simp only [below, Option.all_some, decide_eq_true_eq]
      constructor
      · rintro ⟨r, rfl⟩
        refine ⟨le_append _ r, ?_⟩
        rw [List.append_assoc, List.append_lt_append_iff rfl]
        refine Or.inr ⟨rfl, List.cons_lt_cons_iff.mpr (Or.inl ?_)⟩
        rw [UInt8.lt_iff_toNat_lt] at hb ⊢
        rw [UInt8.toNat_add]
        have h255 : (0xff : UInt8).toNat = 255 := rfl
        have h1 : (1 : UInt8).toNat = 1 := rfl
        omega
      · rintro ⟨hle, hlt⟩
        obtain ⟨r, rfl⟩ := List.isPrefix_of_between ((le_append pre [b]).trans hle) hlt
        rw [append_le_append_iff] at hle
        have hlt' : r < [b + 1] := by
          rw [List.append_lt_append_iff rfl] at hlt
          exact (hlt.resolve_left (lt_irrefl pre)).2
        obtain ⟨r', rfl⟩ := cons_of_between hb hle hlt'
        exact ⟨r', by rw [List.append_assoc, List.singleton_append]⟩
    · have hmax : ∀ c : UInt8, ¬ c < b → c = b := by
        intro c hc
        apply UInt8.toNat.inj
        rw [UInt8.lt_iff_toNat_lt] at hb hc
        have h255 : (0xff : UInt8).toNat = 255 := rfl
        have hlt := c.toNat_lt
        have hlt' := b.toNat_lt
        omega
      constructor
      · intro h
        obtain ⟨r, rfl⟩ := h
        have hpre := ih.mp ⟨[b] ++ r, by rw [List.append_assoc]⟩
        exact ⟨le_append _ r, hpre.2⟩
      · rintro ⟨hle, hbelow⟩
        obtain ⟨r, rfl⟩ := ih.mpr ⟨(le_append pre [b]).trans hle, hbelow⟩
        rw [append_le_append_iff] at hle
        cases r with
        | nil => exact absurd hle (by simp)
        | cons c r' =>
          have hc : c = b := hmax c fun hlt => absurd (List.cons_lt_cons_iff.mpr (Or.inl hlt)) (not_lt.mpr hle)
          exact ⟨r', by rw [List.append_assoc, List.singleton_append, hc]⟩

/-- A fresh scan looks at the keys that the call asks for. -/
theorem selects_eq (call : ScanCall) (k : Bytes) :
    call.selects k = (decide (call.scan.nextStart ≤ k) && below call.scan.endKey k) := by
  have hbool : ∀ {a b : Bool}, (a = true ↔ b = true) → a = b := fun h => Bool.eq_iff_iff.mpr h
  apply hbool
  rw [Bool.and_eq_true, decide_eq_true_eq]
  cases call with
  | scanPrefix pre => exact List.isPrefixOf_iff_prefix.trans (prefixEnd_spec pre k)
  | range start stop =>
    change (start.startsBefore k && stop.endsAfter k) = true ↔ start.startKey ≤ k ∧ below stop.endKey k = true
    rw [Bool.and_eq_true]
    refine and_congr ?_ ?_
    · cases start with
      | included s => exact decide_eq_true_iff
      | excluded s => exact decide_eq_true_iff.trans successor_le.symm
      | unbounded => exact ⟨fun _ => le_append [] k, fun _ => rfl⟩
    · cases stop with
      | included e => exact decide_eq_true_iff.trans (lt_successor.symm.trans decide_eq_true_iff.symm)
      | excluded e => exact Iff.rfl
      | unbounded => exact Iff.rfl
  | iter => exact ⟨fun _ => ⟨le_append [] k, rfl⟩, fun _ => rfl⟩

/-! ### Pages of the store are pages -/

theorem pageLoop_front (budget : ℕ) : ∀ (limit bytes : ℕ) (xs : List KvPair), pageLoop budget limit bytes xs <+: xs
  | 0, bytes, xs => by
    have hnil : pageLoop budget 0 bytes xs = [] := by cases xs <;> rfl
    rw [hnil]
    exact List.nil_prefix
  | _ + 1, _, [] => List.nil_prefix
  | limit + 1, bytes, e :: rest => by
    rw [pageLoop]
    split_ifs
    · exact ⟨rest, rfl⟩
    · exact (List.prefix_cons_inj e).mpr (pageLoop_front budget limit _ rest)

theorem pageLoop_isPage {limit : ℕ} (hlimit : 1 ≤ limit) (budget : ℕ) : IsPage (pageLoop budget limit 0) := by
  refine ⟨pageLoop_front budget limit 0, fun xs h => ?_⟩
  obtain ⟨limit, rfl⟩ := Nat.exists_eq_add_of_le' hlimit
  cases xs with
  | nil => rfl
  | cons e rest =>
    rw [pageLoop] at h
    split_ifs at h

/-! ### The scans are paged scans -/

/-- Forwards: the keys from the resumption point on. -/
def LazyScan.view (s : LazyScan) : Scan Bytes Bytes :=
  ⟨s.tree, fun k => decide (s.nextStart ≤ k) && below s.endKey k, s.buf⟩

/-- Backwards: the keys under the moving end. -/
def LazyScanRev.view (s : LazyScanRev) : Scan Bytes Bytes :=
  ⟨s.tree, fun k => decide (s.start ≤ k) && below s.nextEnd k, s.buf⟩

theorem LazyScan.next_view (limit budget : ℕ) (t : StoreTree) (s : LazyScan) :
    (s.next limit budget (.ok t : Except ε StoreTree)).1 =
        (s.view.next (· < ·) (pageLoop budget limit 0) t.entries).1.map .ok ∧
      (s.next limit budget (.ok t : Except ε StoreTree)).2.view =
        (s.view.next (· < ·) (pageLoop budget limit 0) t.entries).2 := by
  obtain ⟨tree, nextStart, endKey, buf⟩ := s
  cases buf with
  | cons e buf => exact ⟨rfl, rfl⟩
  | nil =>
    cases tree with
    | false => exact ⟨rfl, rfl⟩
    | true =>
      have hfront := pageLoop_front budget limit 0 (t.scan fun k => decide (nextStart ≤ k) && below endKey k)
      unfold LazyScan.next Scan.next LazyScan.view rangePage
      dsimp only [Ordered.scan] at hfront ⊢
      simp only [if_true]
      cases hpage : pageLoop budget limit 0 (t.entries.filter fun e =>
          decide (nextStart ≤ e.1) && below endKey e.1) with
      | nil => exact ⟨rfl, rfl⟩
      | cons e page =>
        refine ⟨rfl, ?_⟩
        dsimp only
        rw [hpage] at hfront
        have hlast := List.mem_filter.mp (hfront.subset (List.getLast_mem (List.cons_ne_nil e page)))
        rw [Bool.and_eq_true, decide_eq_true_eq] at hlast
        congr 1
        funext k
        -- beyond the last key, the start of the window no longer counts
        rw [decide_eq_decide.mpr successor_le, Bool.and_comm (decide (nextStart ≤ k) && _), ← Bool.and_assoc]
        by_cases hk : ((e :: page).getLast (List.cons_ne_nil e page)).1 < k
        · rw [decide_eq_true (hlast.2.1.trans hk.le), decide_eq_true hk]
          rfl
        · rw [decide_eq_false hk]
          rfl

theorem LazyScanRev.next_view (limit budget : ℕ) (t : StoreTree) (s : LazyScanRev) :
    (s.next limit budget (.ok t : Except ε StoreTree)).1 =
        (s.view.next (· > ·) (pageLoop budget limit 0) t.entries.reverse).1.map .ok ∧
      (s.next limit budget (.ok t : Except ε StoreTree)).2.view =
        (s.view.next (· > ·) (pageLoop budget limit 0) t.entries.reverse).2 := by
  obtain ⟨tree, start, nextEnd, buf⟩ := s
  cases buf with
  | cons e buf => exact ⟨rfl, rfl⟩
  | nil =>
    cases tree with
    | false => exact ⟨rfl, rfl⟩
    | true =>
      have hfront := pageLoop_front budget limit 0 (t.scan fun k => decide (start ≤ k) && below nextEnd k).reverse
      unfold LazyScanRev.next Scan.next LazyScanRev.view rangePageRev
      dsimp only [Ordered.scan] at hfront ⊢
      simp only [if_true, List.filter_reverse]
      cases hpage : pageLoop budget limit 0
          (t.entries.filter fun e => decide (start ≤ e.1) && below nextEnd e.1).reverse with
      | nil => exact ⟨rfl, rfl⟩
      | cons e page =>
        refine ⟨rfl, ?_⟩
        dsimp only
        rw [hpage] at hfront
        have hlast := List.mem_filter.mp (List.mem_reverse.mp
          (hfront.subset (List.getLast_mem (List.cons_ne_nil e page))))
        rw [Bool.and_eq_true] at hlast
        congr 1
        funext k
        -- under the smallest key, the end of the window no longer counts
        have hbelow : k < ((e :: page).getLast (List.cons_ne_nil e page)).1 → below nextEnd k = true := by
          intro hk
          cases nextEnd with
          | none => rfl
          | some stop => exact decide_eq_true (hk.trans (of_decide_eq_true hlast.2.2))
        by_cases hk : k < ((e :: page).getLast (List.cons_ne_nil e page)).1
        · rw [hbelow hk]
          simp [below, hk]
        · simp [below, hk]

theorem LazyScan.yields_view (limit budget : ℕ) (tables : ℕ → StoreTree) (s : LazyScan) (n : ℕ) :
    s.yields limit budget (fun i => (.ok (tables i) : Except ε StoreTree)) n =
      (s.view.yields (· < ·) (pageLoop budget limit 0) (fun i => (tables i).entries) n).map .ok := by
  have hafter : (s.after limit budget (fun i => (.ok (tables i) : Except ε StoreTree)) n).view =
      s.view.after (· < ·) (pageLoop budget limit 0) (fun i => (tables i).entries) n := by
    induction n with
    | zero => rfl
    | succ n ih => rw [LazyScan.after, Scan.after, (LazyScan.next_view limit budget (tables n) _).2, ih]
  rw [LazyScan.yields, Scan.yields, (LazyScan.next_view limit budget (tables n) _).1, hafter]

theorem LazyScanRev.yields_view (limit budget : ℕ) (tables : ℕ → StoreTree) (s : LazyScanRev) (n : ℕ) :
    s.yields limit budget (fun i => (.ok (tables i) : Except ε StoreTree)) n =
      (s.view.yields (· > ·) (pageLoop budget limit 0) (fun i => (tables i).entries.reverse) n).map .ok := by
  have hafter : (s.after limit budget (fun i => (.ok (tables i) : Except ε StoreTree)) n).view =
      s.view.after (· > ·) (pageLoop budget limit 0) (fun i => (tables i).entries.reverse) n := by
    induction n with
    | zero => rfl
    | succ n ih => rw [LazyScanRev.after, Scan.after, (LazyScanRev.next_view limit budget (tables n) _).2, ih]
  rw [LazyScanRev.yields, Scan.yields, (LazyScanRev.next_view limit budget (tables n) _).1, hafter]

/-! ### The result -/

/-- A paged scan over changing trees walks as it should. -/
theorem walks_of_scan {before : Bytes → Bytes → Prop} [DecidableRel before] [IsStrictOrder Bytes before]
    {cut : List KvPair → List KvPair} (hcut : IsPage cut) {selects : Bytes → Bool} {tables : ℕ → StoreTree}
    {entries : ℕ → List KvPair} (hentries : ∀ i, (entries i).Perm (tables i).entries)
    (hordered : ∀ i, (entries i).Pairwise fun a b => before a.1 b.1) {s : Scan Bytes Bytes} (hfresh : s.buf = [])
    (hlive : s.live = true) (hselects : ∀ k, selects k = s.window k) {yields : ℕ → Option (Except ε KvPair)}
    (hyields : ∀ n, yields n = (s.yields before cut entries n).map .ok) : Walks before selects tables yields where
  found i r hr := by
    rw [hyields] at hr
    obtain ⟨e, he, rfl⟩ := Option.map_eq_some_iff.mp hr
    exact ⟨e, rfl, (hselects e.1).trans (yields_inside hcut hordered hfresh hlive he)⟩
  monotone i j a b hij ha hb := by
    rw [hyields] at ha hb
    obtain ⟨a', ha', heq⟩ := Option.map_eq_some_iff.mp ha
    obtain ⟨b', hb', heq'⟩ := Option.map_eq_some_iff.mp hb
    cases heq
    cases heq'
    exact yields_monotone hcut hordered hfresh hlive hij ha' hb'
  complete n hend k hk hstays := by
    rw [hyields, Option.map_eq_none_iff] at hend
    rw [hselects] at hk
    obtain ⟨i, hi, v, hv⟩ := yields_complete hcut hordered hfresh hlive hend hk fun i hi =>
      ((hentries i).map Prod.fst).mem_iff.mpr (hstays i hi)
    exact ⟨i, hi, v, by rw [hyields, hv, Option.map_some]⟩

/-- **Paged scans are exact.** However small the pages: over a tree that does not change, every call lists exactly the
entries it asks for, in order (backwards after `rev`), and then ends. Over a tree that changes in any way between
the calls of `next`, the keys are strictly monotone and none that stays is missed. -/
theorem paged_scans_exact {limit : ℕ} (hlimit : 1 ≤ limit) (budget : ℕ) (call : ScanCall) :
    (∀ (t : StoreTree) (n : ℕ),
      call.scan.yields limit budget (fun _ => (.ok t : Except ε StoreTree)) n = ((t.scan call.selects)[n]?).map .ok ∧
      call.scan.rev.yields limit budget (fun _ => (.ok t : Except ε StoreTree)) n =
        ((t.scan call.selects).reverse[n]?).map .ok) ∧
    ∀ tables : ℕ → StoreTree,
      Walks (· < ·) call.selects tables
        (call.scan.yields limit budget fun i => (.ok (tables i) : Except ε StoreTree)) ∧
      Walks (· > ·) call.selects tables
        (call.scan.rev.yields limit budget fun i => (.ok (tables i) : Except ε StoreTree)) := by
  have hcut := pageLoop_isPage hlimit budget
  have hfresh : call.scan.buf = [] ∧ call.scan.tree = true := by cases call <;> exact ⟨rfl, rfl⟩
  have hwindow : ∀ k, call.selects k = call.scan.view.window k := selects_eq call
  have hwindow' : ∀ k, call.selects k = call.scan.rev.view.window k := selects_eq call
  have hreverse : ∀ t : StoreTree, t.entries.reverse.Pairwise fun a b => a.1 > b.1 := fun t =>
    List.pairwise_reverse.mpr t.increasing
  refine ⟨fun t n => ⟨?_, ?_⟩, fun tables => ⟨?_, ?_⟩⟩
  · rw [LazyScan.yields_view, yields_eq hcut t.increasing]
    have hremaining : call.scan.view.remaining t.entries = t.scan call.selects := by
      rw [Scan.remaining]
      simp only [LazyScan.view, hfresh.1, hfresh.2, List.nil_append, if_true, Ordered.scan, selects_eq]
    rw [hremaining]
  · rw [LazyScanRev.yields_view, yields_eq hcut (hreverse t)]
    have hremaining : call.scan.rev.view.remaining t.entries.reverse = (t.scan call.selects).reverse := by
      rw [Scan.remaining]
      simp only [LazyScanRev.view, LazyScan.rev, hfresh.2, List.nil_append, if_true, Ordered.scan, selects_eq,
        List.filter_reverse]
    rw [hremaining]
  · exact walks_of_scan hcut (fun _ => List.Perm.refl _) (fun i => (tables i).increasing) hfresh.1 hfresh.2 hwindow
      fun n => LazyScan.yields_view limit budget tables call.scan n
  · exact walks_of_scan hcut (fun i => List.reverse_perm _) (fun i => hreverse (tables i)) rfl hfresh.2 hwindow'
      fun n => LazyScanRev.yields_view limit budget tables call.scan.rev n

/-- With the pages of the source, for a prefix of nothing but `0xff`. -/
theorem paged_scans_exact_source :
    (∀ (t : StoreTree) (n : ℕ),
      (ScanCall.scanPrefix [0xff, 0xff]).scan.yields pageEntries pageByteBudget (fun _ =>
          (.ok t : Except String StoreTree)) n =
        ((t.scan (ScanCall.scanPrefix [0xff, 0xff]).selects)[n]?).map .ok ∧
      (ScanCall.scanPrefix [0xff, 0xff]).scan.rev.yields pageEntries pageByteBudget
        (fun _ => (.ok t : Except String StoreTree)) n =
        ((t.scan (ScanCall.scanPrefix [0xff, 0xff]).selects).reverse[n]?).map .ok) ∧
    ∀ tables : ℕ → StoreTree,
      Walks (· < ·) (ScanCall.scanPrefix [0xff, 0xff]).selects tables
        ((ScanCall.scanPrefix [0xff, 0xff]).scan.yields pageEntries pageByteBudget fun i =>
          (.ok (tables i) : Except String StoreTree)) ∧
      Walks (· > ·) (ScanCall.scanPrefix [0xff, 0xff]).selects tables
        ((ScanCall.scanPrefix [0xff, 0xff]).scan.rev.yields pageEntries pageByteBudget fun i =>
          (.ok (tables i) : Except String StoreTree)) :=
  paged_scans_exact (by decide) pageByteBudget (.scanPrefix [0xff, 0xff])

end Alphanumeric
