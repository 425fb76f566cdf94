/-
# Paged scans

A walk over a table in pages. Each page is read from the table as it is at that moment: a first part of what lies in
the window, in the order of the walk; the window then shrinks to what comes after the page. Over a table
that does not change the walk lists the window. Over one that changes in any way it never turns back, and
it misses nothing that stays.

The order of the walk is any strict order, so that a walk backwards is one more instance.

Key definitions: `PagedScan.Scan`, `PagedScan.Scan.next`, `PagedScan.Scan.yields`, `PagedScan.IsPage`.
Key theorems: `PagedScan.yields_eq`, `PagedScan.yields_monotone`, `PagedScan.yields_complete`.
-/
import Mathlib.Tactic

namespace PagedScan

/-- What has not been read, and what has been read ahead. -/
structure Scan (κ ν : Type*) where
  live : Bool
  window : κ → Bool
  buf : List (κ × ν)

variable {κ ν : Type*}

/-- How much of what is there makes a page: some, if there is any. -/
structure IsPage (cut : List (κ × ν) → List (κ × ν)) : Prop where
  front : ∀ xs, cut xs <+: xs
  nonempty : ∀ xs, cut xs = [] → xs = []

variable (before : κ → κ → Prop) [DecidableRel before] (cut : List (κ × ν) → List (κ × ν))

def Scan.next (table : List (κ × ν)) (s : Scan κ ν) : Option (κ × ν) × Scan κ ν :=
  match s.buf with
  | e :: buf => (some e, { s with buf })
  | [] =>
    if s.live then
      match cut (table.filter fun e => s.window e.1) with
      | [] => (none, { s with live := false })
      | e :: page =>
        (some e, { s with
          window := fun k => s.window k && decide (before ((e :: page).getLast (List.cons_ne_nil e page)).1 k)
          buf := page })
    else (none, s)

/-- The scan after `n` steps; the table may be another at every one. -/
def Scan.after (tables : ℕ → List (κ × ν)) (s : Scan κ ν) : ℕ → Scan κ ν
  | 0 => s
  | n + 1 => ((s.after tables n).next before cut (tables n)).2

/-- What step `n` gives out. -/
def Scan.yields (tables : ℕ → List (κ × ν)) (s : Scan κ ν) (n : ℕ) : Option (κ × ν) :=
  ((s.after before cut tables n).next before cut (tables n)).1

variable {before cut}

/-! ### Pages -/

variable (before) in
/-- What a walk can do in one step. -/
theorem next_cases (hcut : IsPage cut) (table : List (κ × ν)) (s : Scan κ ν) :
    (∃ e buf, s.buf = e :: buf ∧ s.next before cut table = (some e, { s with buf })) ∨
    (s.buf = [] ∧ (s.live = true → table.filter (fun e => s.window e.1) = []) ∧
      s.next before cut table = (none, { s with live := false })) ∨
    ∃ e page rest, s.buf = [] ∧ s.live = true ∧ table.filter (fun e => s.window e.1) = e :: page ++ rest ∧
      s.next before cut table = (some e, { s with
        window := fun k => s.window k && decide (before ((e :: page).getLast (List.cons_ne_nil e page)).1 k)
        buf := page }) := by
  obtain ⟨live, window, buf⟩ := s
  cases buf with
  | cons e buf => exact Or.inl ⟨e, buf, rfl, rfl⟩
  | nil =>
    cases live with
    | false => exact Or.inr (Or.inl ⟨rfl, fun h => Bool.noConfusion h, rfl⟩)
    | true =>
      cases hpage : cut (table.filter fun e => window e.1) with
      | nil =>
        refine Or.inr (Or.inl ⟨rfl, fun _ => hcut.nonempty _ hpage, ?_⟩)
        simp only [Scan.next, hpage, if_true]
      | cons e page =>
        obtain ⟨rest, hrest⟩ := hcut.front (table.filter fun e => window e.1)
        rw [hpage] at hrest
        refine Or.inr (Or.inr ⟨e, page, rest, rfl, rfl, hrest.symm, ?_⟩)
        simp only [Scan.next, hpage, if_true]

section

variable [IsStrictOrder κ before]

/-- In an ordered list, what comes after the last of a first part is the rest. -/
theorem filter_after {xs rest : List (κ × ν)} (hne : xs ≠ [])
    (h : (xs ++ rest).Pairwise fun a b => before a.1 b.1) :
    (xs ++ rest).filter (fun e => decide (before (xs.getLast hne).1 e.1)) = rest := by
  obtain ⟨hxs, -, hcross⟩ := List.pairwise_append.mp h
  have hfront : xs.filter (fun e => decide (before (xs.getLast hne).1 e.1)) = [] := by
    refine List.filter_eq_nil_iff.mpr fun e he => ?_
    rw [decide_eq_true_eq]
    intro hlt
    have hsplit := List.dropLast_append_getLast hne
    rw [← hsplit] at he hxs
    rcases List.mem_append.mp he with he | he
    · exact asymm_of before hlt ((List.pairwise_append.mp hxs).2.2 e he _ (List.mem_singleton_self _))
    · rw [List.mem_singleton.mp he] at hlt
      exact irrefl_of before _ hlt
  rw [List.filter_append, hfront, List.nil_append]
  exact List.filter_eq_self.mpr fun e he => decide_eq_true (hcross _ (List.getLast_mem hne) e he)

/-! ### A table that stays as it is -/

/-- What the scan has still to give out. -/
def Scan.remaining (table : List (κ × ν)) (s : Scan κ ν) : List (κ × ν) :=
  s.buf ++ if s.live then table.filter fun e => s.window e.1 else []

theorem next_remaining (hcut : IsPage cut) {table : List (κ × ν)} (h : table.Pairwise fun a b => before a.1 b.1)
    (s : Scan κ ν) : (s.next before cut table).1 = (s.remaining table).head? ∧
      (s.next before cut table).2.remaining table = (s.remaining table).tail := by
  rcases next_cases before hcut table s with
    ⟨e, buf, hbuf, hnext⟩ | ⟨hbuf, hempty, hnext⟩ | ⟨e, page, rest, hbuf, hlive, hfilter, hnext⟩
  · rw [hnext]
    simp only [Scan.remaining, hbuf, List.cons_append, List.head?_cons, List.tail_cons, true_and]
  · rw [hnext]
    have hnone : s.remaining table = [] := by
      rw [Scan.remaining, hbuf, List.nil_append]
      split_ifs with hlive
      · exact hempty hlive
      · rfl
    rw [hnone]
    simp [Scan.remaining, hbuf]
  · rw [hnext]
    have hsorted : (e :: page ++ rest).Pairwise fun a b => before a.1 b.1 := hfilter ▸ h.filter _
    have hafter := filter_after (List.cons_ne_nil e page) hsorted
    have hall : s.remaining table = e :: page ++ rest := by
      rw [Scan.remaining, hbuf, List.nil_append, if_pos hlive, hfilter]
    have hshrunk : (table.filter fun f => s.window f.1 &&
        decide (before ((e :: page).getLast (List.cons_ne_nil e page)).1 f.1)) = rest := by
      rw [← hafter, ← hfilter, List.filter_filter]
      exact List.filter_congr fun f _ => Bool.and_comm _ _
    rw [hall]
    refine ⟨rfl, ?_⟩
    simp only [Scan.remaining, hlive, if_true, hshrunk, List.cons_append, List.tail_cons]

/-- **An unchanging table is listed**, and then the scan has ended. -/
theorem yields_eq (hcut : IsPage cut) {table : List (κ × ν)} (h : table.Pairwise fun a b => before a.1 b.1)
    (s : Scan κ ν) (n : ℕ) : s.yields before cut (fun _ => table) n = (s.remaining table)[n]? := by
  have hdrop : (s.after before cut (fun _ => table) n).remaining table = (s.remaining table).drop n := by
    induction n with
    | zero => rfl
    | succ n ih =>
      rw [Scan.after, (next_remaining hcut h _).2, ih, List.tail_drop]
  rw [Scan.yields, (next_remaining hcut h _).1, hdrop, List.head?_drop]

/-! ### A table that changes -/

/-- After reading `seen`, in a scan that began with the window `start`; `stays` are keys that have been in the table
at every step. -/
structure Walked (before : κ → κ → Prop) (start : κ → Bool) (stays : κ → Prop) (seen : List (κ × ν)) (s : Scan κ ν) :
    Prop where
  ordered : seen.Pairwise fun a b => before a.1 b.1
  inside : ∀ e ∈ seen, start e.1 = true
  ahead : ∀ e ∈ seen, ∀ k, s.window k = true → before e.1 k
  within : ∀ k, s.window k = true → start k = true
  complete : ∀ k, start k = true → stays k → (s.live = true → s.window k = false) → k ∈ seen.map Prod.fst

/-- **One step of the walk.** -/
theorem Walked.next (hcut : IsPage cut) {table : List (κ × ν)} (h : table.Pairwise fun a b => before a.1 b.1)
    {start : κ → Bool} {stays : κ → Prop} (hstays : ∀ k, stays k → k ∈ table.map Prod.fst) {given : List (κ × ν)}
    {s : Scan κ ν} (hw : Walked before start stays (given ++ s.buf) s) :
    Walked before start stays (given ++ (s.next before cut table).1.toList ++ (s.next before cut table).2.buf)
      (s.next before cut table).2 := by
  rcases next_cases before hcut table s with
    ⟨e, buf, hbuf, hnext⟩ | ⟨hbuf, hempty, hnext⟩ | ⟨e, page, rest, hbuf, hlive, hfilter, hnext⟩
  · have hseen : given ++ [e] ++ buf = given ++ s.buf := by rw [hbuf, List.append_assoc, List.singleton_append]
    rw [hnext]
    dsimp only [Option.toList_some]
    rw [hseen]
    exact ⟨hw.ordered, hw.inside, hw.ahead, hw.within, hw.complete⟩
  · rw [hnext]
    dsimp only [Option.toList_none]
    rw [List.append_nil]
    refine ⟨hw.ordered, hw.inside, hw.ahead, hw.within, fun k hk hstay _ => hw.complete k hk hstay fun hlive => ?_⟩
    -- what stays would have been in the page
    by_contra hwindow
    rw [Bool.not_eq_false] at hwindow
    obtain ⟨f, hf, hfk⟩ := List.mem_map.mp (hstays k hstay)
    have hin : f ∈ table.filter fun e => s.window e.1 := List.mem_filter.mpr ⟨hf, hfk ▸ hwindow⟩
    rw [hempty hlive] at hin
    cases hin
  · rw [hbuf, List.append_nil] at hw
    have hsorted : (e :: page ++ rest).Pairwise fun a b => before a.1 b.1 := hfilter ▸ h.filter _
    have hwindow : ∀ f ∈ e :: page ++ rest, s.window f.1 = true := fun f hf => by
      rw [← hfilter] at hf
      exact (List.mem_filter.mp hf).2
    have hpage : ∀ f ∈ e :: page, s.window f.1 = true := fun f hf => hwindow f (List.mem_append_left _ hf)
    have hlast : ∀ f ∈ e :: page, f = (e :: page).getLast (List.cons_ne_nil e page) ∨
        before f.1 ((e :: page).getLast (List.cons_ne_nil e page)).1 := by
      intro f hf
      have hsplit := List.dropLast_append_getLast (List.cons_ne_nil e page)
      have hordered := (List.pairwise_append.mp hsorted).1
      rw [← hsplit] at hf hordered
      rcases List.mem_append.mp hf with hf | hf
      · exact Or.inr ((List.pairwise_append.mp hordered).2.2 f hf _ (List.mem_singleton_self _))
      · exact Or.inl (List.mem_singleton.mp hf)
    have hseen : given ++ [e] ++ page = given ++ e :: page := by rw [List.append_assoc, List.singleton_append]
    rw [hnext]
    dsimp only [Option.toList_some]
    rw [hseen]
    refine ⟨?_, ?_, ?_, ?_, ?_⟩
    · refine List.pairwise_append.mpr ⟨hw.ordered, (List.pairwise_append.mp hsorted).1, fun a ha b hb => ?_⟩
      exact hw.ahead a ha b.1 (hpage b hb)
    · intro f hf
      rcases List.mem_append.mp hf with hf | hf
      · exact hw.inside f hf
      · exact hw.within f.1 (hpage f hf)
    · intro f hf k hk
      rw [Bool.and_eq_true, decide_eq_true_eq] at hk
      rcases List.mem_append.mp hf with hf | hf
      · exact hw.ahead f hf k hk.1
      · rcases hlast f hf with heq | hlt
        · exact heq ▸ hk.2
        · exact trans_of before hlt hk.2
    · intro k hk
      rw [Bool.and_eq_true] at hk
      exact hw.within k hk.1
    · intro k hk hstay hout
      rw [List.map_append, List.mem_append]
      by_cases hin : s.window k = true
      · right
        obtain ⟨f, hf, hfk⟩ := List.mem_map.mp (hstays k hstay)
        have hmem : f ∈ e :: page ++ rest := by
          rw [← hfilter]
          exact List.mem_filter.mpr ⟨hf, hfk ▸ hin⟩
        rcases List.mem_append.mp hmem with hmem | hmem
        · exact hfk ▸ List.mem_map_of_mem hmem
        · have hafter := (List.pairwise_append.mp hsorted).2.2 _ (List.getLast_mem (List.cons_ne_nil e page)) f hmem
          have hno := hout hlive
          dsimp only at hno
          rw [hin, Bool.true_and, decide_eq_false_iff_not, ← hfk] at hno
          exact absurd hafter hno
      · left
        exact hw.complete k hk hstay fun _ => by simpa using hin

/-- What the first `n` steps give out. -/
def Scan.given (before : κ → κ → Prop) [DecidableRel before] (cut : List (κ × ν) → List (κ × ν))
    (tables : ℕ → List (κ × ν)) (s : Scan κ ν) : ℕ → List (κ × ν)
  | 0 => []
  | n + 1 => s.given before cut tables n ++ (s.yields before cut tables n).toList

omit [IsStrictOrder κ before] in
theorem mem_given {tables : ℕ → List (κ × ν)} {s : Scan κ ν} {e : κ × ν} : ∀ {n : ℕ},
    e ∈ s.given before cut tables n ↔ ∃ i < n, s.yields before cut tables i = some e
  | 0 => by simp [Scan.given]
  | n + 1 => by
    rw [Scan.given, List.mem_append, mem_given, Option.mem_toList]
    constructor
    · rintro (⟨i, hi, h⟩ | h)
      · exact ⟨i, Nat.lt_succ_of_lt hi, h⟩
      · exact ⟨n, Nat.lt_succ_self n, h⟩
    · rintro ⟨i, hi, h⟩
      rcases Nat.lt_succ_iff_lt_or_eq.mp hi with hi | rfl
      · exact Or.inl ⟨i, hi, h⟩
      · exact Or.inr h

variable {tables : ℕ → List (κ × ν)} {s : Scan κ ν}

/-- **A whole walk**, from a fresh scan, over a table that may be another at every step. -/
theorem walked (hcut : IsPage cut) (h : ∀ i, (tables i).Pairwise fun a b => before a.1 b.1) (hfresh : s.buf = [])
    (hlive : s.live = true) (stays : κ → Prop) : ∀ (n : ℕ), (∀ i < n, ∀ k, stays k → k ∈ (tables i).map Prod.fst) →
    Walked before s.window stays (s.given before cut tables n ++ (s.after before cut tables n).buf)
      (s.after before cut tables n)
  | 0, _ => by
    have hnil : Scan.given before cut tables s 0 ++ (s.after before cut tables 0).buf = [] := hfresh
    rw [hnil]
    refine ⟨List.Pairwise.nil, fun e he => absurd he List.not_mem_nil, fun e he => absurd he List.not_mem_nil,
      fun k hk => hk, fun k hk _ hout => ?_⟩
    have hwindow := hout hlive
    rw [Scan.after, hk] at hwindow
    cases hwindow
  | n + 1, hstays =>
    (walked hcut h hfresh hlive stays n fun i hi => hstays i (Nat.lt_succ_of_lt hi)).next hcut (h n)
      (hstays n (Nat.lt_succ_self n))

theorem yields_monotone (hcut : IsPage cut) (h : ∀ i, (tables i).Pairwise fun a b => before a.1 b.1)
    (hfresh : s.buf = []) (hlive : s.live = true) {i j : ℕ} (hij : i < j) {a b : κ × ν}
    (ha : s.yields before cut tables i = some a) (hb : s.yields before cut tables j = some b) : before a.1 b.1 := by
  have hw := walked hcut h hfresh hlive (fun _ => False) (j + 1) fun _ _ _ h => h.elim
  have hordered := (List.pairwise_append.mp hw.ordered).1
  rw [Scan.given, hb] at hordered
  exact (List.pairwise_append.mp hordered).2.2 a (mem_given.mpr ⟨i, hij, ha⟩) b (List.mem_singleton_self b)

theorem yields_inside (hcut : IsPage cut) (h : ∀ i, (tables i).Pairwise fun a b => before a.1 b.1)
    (hfresh : s.buf = []) (hlive : s.live = true) {i : ℕ} {e : κ × ν} (he : s.yields before cut tables i = some e) :
    s.window e.1 = true := by
  have hw := walked hcut h hfresh hlive (fun _ => False) (i + 1) fun _ _ _ h => h.elim
  exact hw.inside e (List.mem_append_left _ (mem_given.mpr ⟨i, Nat.lt_succ_self i, he⟩))

/-- **Nothing that stays is missed**, when the scan says that it has ended. -/
theorem yields_complete (hcut : IsPage cut) (h : ∀ i, (tables i).Pairwise fun a b => before a.1 b.1)
    (hfresh : s.buf = []) (hlive : s.live = true) {n : ℕ} (hend : s.yields before cut tables n = none) {k : κ}
    (hk : s.window k = true) (hstays : ∀ i ≤ n, k ∈ (tables i).map Prod.fst) :
    ∃ i < n, ∃ v, s.yields before cut tables i = some (k, v) := by
  have hw := walked hcut h hfresh hlive (fun k' => k' = k) (n + 1) fun i hi k' hk' => by
    rw [hk']
    exact hstays i (Nat.lt_succ_iff.mp hi)
  have hended : (s.after before cut tables (n + 1)).buf = [] ∧ (s.after before cut tables (n + 1)).live = false := by
    rw [Scan.yields] at hend
    rw [Scan.after]
    rcases next_cases before hcut (tables n) (s.after before cut tables n) with
      ⟨e, buf, -, hnext⟩ | ⟨hbuf, -, hnext⟩ | ⟨e, page, rest, -, -, -, hnext⟩
    · rw [hnext] at hend
      cases hend
    · rw [hnext]
      exact ⟨hbuf, rfl⟩
    · rw [hnext] at hend
      cases hend
  have hmem := hw.complete k hk rfl fun hlive => by
    rw [hended.2] at hlive
    cases hlive
  rw [hended.1, List.append_nil, Scan.given, hend, Option.toList_none, List.append_nil] at hmem
  obtain ⟨⟨_, v⟩, he, rfl⟩ := List.mem_map.mp hmem
  obtain ⟨i, hi, hyield⟩ := mem_given.mp he
  exact ⟨i, hi, v, hyield⟩

end

end PagedScan
