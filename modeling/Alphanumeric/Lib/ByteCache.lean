/-
# Caches with a byte count

A least recently used cache beside a number that is meant to be the total size of its
entries. The number is changed by saturating arithmetic next to every change of the
entries. `saturated` is a ghost: it records whether a subtraction was ever asked for more
than there was.

Key definitions: `satAdd`, `Counted`, `Counted.pop`, `Counted.evictWhile`, `Counted.enter`,
`Counted.store`, `Balanced`.
Key theorems: `Balanced.pop`, `Balanced.rewritten`, `Balanced.evict`, `Balanced.enter`, `Balanced.store`.
-/
import Alphanumeric.Lib.Lru
import Mathlib

namespace ByteCache

open Lru

variable {κ ν : Type}

/-- `saturating_add` of `usize`. -/
def satAdd (a b : ℕ) : ℕ := min (a + b) (2 ^ 64 - 1)

theorem satAdd_eq {a b : ℕ} (h : a + b < 2 ^ 64) : satAdd a b = a + b := min_eq_left (by omega)

theorem lt_satAdd_iff {limit a b : ℕ} (hlimit : limit < 2 ^ 64 - 1) : limit < satAdd a b ↔ limit < a + b := by
  rw [satAdd, lt_min_iff]
  exact and_iff_left hlimit

/-! ### The cache -/

structure Counted (κ ν : Type) where
  entries : List (κ × ν)
  bytes : ℕ
  saturated : Bool

namespace Counted

def empty : Counted κ ν := ⟨[], 0, false⟩

/-- A saturating subtraction `a - b` is made. -/
def note (c : Counted κ ν) (a b : ℕ) : Counted κ ν := { c with saturated := c.saturated || decide (a < b) }

/-- `bytes.saturating_sub(n)`. -/
def release (c : Counted κ ν) (n : ℕ) : Counted κ ν := { c.note c.bytes n with bytes := c.bytes - n }

/-- `bytes.saturating_add(n)`. -/
def charge (c : Counted κ ν) (n : ℕ) : Counted κ ν := { c with bytes := satAdd c.bytes n }

variable (size : ν → ℕ)

/-- `pop_lru`, and its size is given back. -/
def popLru (c : Counted κ ν) : Option (Counted κ ν) :=
  c.entries.getLast?.map fun e => release { c with entries := c.entries.dropLast } (size e.2)

section Evict

variable (tooMuch : Counted κ ν → Prop) [DecidablePred tooMuch]

def evict : ℕ → Counted κ ν → Counted κ ν
  | 0, c => c
  | n + 1, c =>
    if tooMuch c then
      match c.popLru size with
      | some c' => evict n c'
      | none => c
    else c

/-- The loop that pops entries while there is too much; it pops each entry at most once. -/
def evictWhile (c : Counted κ ν) : Counted κ ν := evict size tooMuch c.entries.length c

end Evict

variable [DecidableEq κ]

def modify (c : Counted κ ν) (k : κ) (f : ν → ν) : Counted κ ν := { c with entries := Lru.modify c.entries k f }

def pop (c : Counted κ ν) (k : κ) : Option ν × Counted κ ν :=
  match peek c.entries k with
  | some v => (some v, release { c with entries := Lru.pop c.entries k } (size v))
  | none => (none, c)

theorem bytes_pop_le {c : Counted κ ν} {k : κ} : (c.pop size k).2.bytes ≤ c.bytes := by
  unfold pop
  cases peek c.entries k with
  | none => exact le_rfl
  | some v => exact Nat.sub_le _ _

/-- `push` after the new entry's size was added; what it returns is subtracted. -/
def enter (capacity : ℕ) (c : Counted κ ν) (k : κ) (v : ν) : Counted κ ν :=
  let c := c.charge (size v)
  match push capacity c.entries k v with
  | (some (_, evicted), entries) => release { c with entries } (size evicted)
  | (none, entries) => { c with entries }

/-- Room is made for the entry; it goes in if there is room then. -/
def store (budget capacity : ℕ) (c : Counted κ ν) (k : κ) (v : ν) : Bool × Counted κ ν :=
  let c := c.evictWhile size fun c => budget < satAdd c.bytes (size v)
  if budget < satAdd c.bytes (size v) then (false, c) else (true, c.enter size capacity k v)

end Counted

/-! ### The count is right -/

section Weight

variable (size : ν → ℕ)

def weight (entries : List (κ × ν)) : ℕ := (entries.map fun e => size e.2).sum

@[simp] theorem weight_cons (e : κ × ν) (entries : List (κ × ν)) :
    weight size (e :: entries) = size e.2 + weight size entries := by
  rw [weight, List.map_cons, List.sum_cons]
  rfl

theorem weight_dropLast {entries : List (κ × ν)} {e : κ × ν} (h : entries.getLast? = some e) :
    weight size entries = weight size entries.dropLast + size e.2 := by
  obtain ⟨front, rfl⟩ := List.getLast?_eq_some_iff.mp h
  rw [List.dropLast_concat, weight, weight, List.map_append, List.sum_append, List.map_singleton,
    List.sum_singleton]

theorem weight_pop [DecidableEq κ] {k : κ} {v : ν} : ∀ {entries : List (κ × ν)}, (entries.map Prod.fst).Nodup →
    peek entries k = some v → weight size entries = size v + weight size (Lru.pop entries k)
  | [], _, h => nomatch h
  | e :: entries, hkeys, h => by
    rw [List.map_cons, List.nodup_cons] at hkeys
    rw [peek] at h
    rw [weight_cons, pop_cons]
    by_cases he : e.1 = k
    · rw [if_pos he] at h ⊢
      rw [pop_of_not_mem (he ▸ hkeys.1), Option.some.inj h]
    · rw [if_neg he] at h ⊢
      rw [weight_cons, weight_pop hkeys.2 h]
      omega

theorem le_weight_of_mem {e : κ × ν} {entries : List (κ × ν)} (h : e ∈ entries) : size e.2 ≤ weight size entries := by
  obtain ⟨front, back, rfl⟩ := List.append_of_mem h
  rw [weight, List.map_append, List.sum_append, List.map_cons, List.sum_cons]
  omega

end Weight

/-- The count is the size of the entries, each key has one entry, and no subtraction saturated. -/
structure Balanced (size : ν → ℕ) (c : Counted κ ν) : Prop where
  bytes : c.bytes = weight size c.entries
  keys : (c.entries.map Prod.fst).Nodup
  saturated : c.saturated = false

variable {size : ν → ℕ} {c : Counted κ ν}

namespace Balanced

theorem empty : Balanced size (.empty : Counted κ ν) := ⟨rfl, List.nodup_nil, rfl⟩

/-- Entries go and their size is subtracted. -/
theorem released {entries : List (κ × ν)} {n : ℕ} (hkeys : (entries.map Prod.fst).Nodup)
    (hsaturated : c.saturated = false) (hbytes : c.bytes = weight size entries + n) :
    Balanced size (Counted.release { c with entries } n) where
  bytes := by
    show c.bytes - n = weight size entries
    omega
  keys := hkeys
  saturated := by
    show (c.saturated || decide (c.bytes < n)) = false
    rw [hsaturated, Bool.false_or, decide_eq_false_iff_not]
    omega

theorem note {a b : ℕ} (hc : Balanced size c) (h : b ≤ a) : Balanced size (c.note a b) where
  bytes := hc.bytes
  keys := hc.keys
  saturated := by
    show (c.saturated || decide (a < b)) = false
    rw [hc.saturated, Bool.false_or, decide_eq_false_iff_not]
    exact Nat.not_lt_of_le h

theorem popLru {c' : Counted κ ν} (hc : Balanced size c) (h : c.popLru size = some c') :
    Balanced size c' ∧ c'.entries = c.entries.dropLast ∧ c'.entries.length + 1 = c.entries.length := by
  obtain ⟨e, he, rfl⟩ := Option.map_eq_some_iff.mp h
  have hkeys : (c.entries.dropLast.map Prod.fst).Nodup :=
    hc.keys.sublist ((List.dropLast_sublist c.entries).map Prod.fst)
  refine ⟨released hkeys hc.saturated (hc.bytes.trans (weight_dropLast size he)), rfl, ?_⟩
  obtain ⟨front, hlast⟩ := List.getLast?_eq_some_iff.mp he
  show c.entries.dropLast.length + 1 = c.entries.length
  rw [hlast, List.dropLast_concat, List.length_append]
  rfl

section Evict

variable (tooMuch : Counted κ ν → Prop) [DecidablePred tooMuch]

variable {tooMuch} in
theorem evict : ∀ {n : ℕ} {c : Counted κ ν}, Balanced size c →
    Balanced size (c.evict size tooMuch n) ∧ (c.evict size tooMuch n).entries <+: c.entries
  | 0, _, hc => ⟨hc, List.prefix_rfl⟩
  | n + 1, c, hc => by
    rw [Counted.evict]
    by_cases htoo : tooMuch c
    · rw [if_pos htoo]
      cases hpop : c.popLru size with
      | none => exact ⟨hc, List.prefix_rfl⟩
      | some c' =>
        obtain ⟨hc', hentries, -⟩ := hc.popLru hpop
        obtain ⟨hbalanced, hfront⟩ := evict (n := n) hc'
        exact ⟨hbalanced, hfront.trans (hentries ▸ List.dropLast_prefix _)⟩
    · rw [if_neg htoo]
      exact ⟨hc, List.prefix_rfl⟩

/-- The loop ends when there is no longer too much, or nothing left. -/
theorem evict_stops : ∀ {n : ℕ} {c : Counted κ ν}, Balanced size c → c.entries.length ≤ n →
    ¬ tooMuch (c.evict size tooMuch n) ∨ (c.evict size tooMuch n).entries = []
  | 0, c, _, hn => .inr (List.eq_nil_of_length_eq_zero (Nat.le_zero.mp hn))
  | n + 1, c, hc, hn => by
    rw [Counted.evict]
    by_cases htoo : tooMuch c
    · rw [if_pos htoo]
      cases hpop : c.popLru size with
      | none => exact .inr (List.getLast?_eq_none_iff.mp (Option.map_eq_none_iff.mp hpop))
      | some c' =>
        obtain ⟨hc', -, hlength⟩ := hc.popLru hpop
        exact evict_stops hc' (by omega)
    · rw [if_neg htoo]
      exact .inl htoo

/-- What the condition leaves to the cache stays. -/
theorem le_length_evict {m : ℕ} (htoo : ∀ c, tooMuch c → m < c.entries.length) :
    ∀ {n : ℕ} {c : Counted κ ν}, Balanced size c → m ≤ c.entries.length →
      m ≤ (c.evict size tooMuch n).entries.length
  | 0, _, _, hm => hm
  | n + 1, c, hc, hm => by
    rw [Counted.evict]
    by_cases h : tooMuch c
    · rw [if_pos h]
      cases hpop : c.popLru size with
      | none => exact hm
      | some c' =>
        obtain ⟨hc', -, hlength⟩ := hc.popLru hpop
        have hlarge := htoo c h
        exact le_length_evict htoo hc' (by omega)
    · rwa [if_neg h]

end Evict

variable [DecidableEq κ] {k : κ} {v : ν}

/-- An entry is written over, and the count is changed by as much as its size. -/
theorem rewritten {f : ν → ν} {n : ℕ} (hc : Balanced size c) (hv : peek c.entries k = some v)
    (hn : n + size v = c.bytes + size (f v)) : Balanced size (Counted.modify { c with bytes := n } k f) := by
  have hbytes := hc.bytes
  rw [weight_pop size hc.keys hv] at hbytes
  unfold Counted.modify Lru.modify
  rw [hv]
  refine ⟨?_, List.nodup_cons.mpr ⟨not_mem_pop k c.entries, nodup_pop k hc.keys⟩, hc.saturated⟩
  show n = weight size ((k, f v) :: Lru.pop c.entries k)
  rw [weight_cons]
  dsimp only
  omega

/-- Entries are written over without a change of their size. -/
theorem modify {f : ν → ν} (hc : Balanced size c) (hf : ∀ v, size (f v) = size v) : Balanced size (c.modify k f) := by
  cases hv : peek c.entries k with
  | none =>
    unfold Counted.modify Lru.modify
    rw [hv]
    exact hc
  | some v => exact hc.rewritten hv (by rw [hf])

theorem pop (hc : Balanced size c) :
    Balanced size (c.pop size k).2 ∧ (c.pop size k).2.entries = Lru.pop c.entries k ∧
      (c.pop size k).1 = peek c.entries k := by
  unfold Counted.pop
  cases hv : peek c.entries k with
  | none => exact ⟨hc, (pop_of_not_mem (not_mem_of_peek hv)).symm, rfl⟩
  | some v =>
    refine ⟨released (nodup_pop k hc.keys) hc.saturated ?_, rfl, rfl⟩
    rw [hc.bytes, weight_pop size hc.keys hv, Nat.add_comm]

omit [DecidableEq κ] in
/-- A new entry goes in front and its size is added. -/
theorem cons (hc : Balanced size c) (hk : k ∉ c.entries.map Prod.fst) (hroom : c.bytes + size v < 2 ^ 64) :
    Balanced size (Counted.charge { c with entries := (k, v) :: c.entries } (size v)) where
  bytes := by
    show satAdd c.bytes (size v) = weight size ((k, v) :: c.entries)
    rw [satAdd_eq hroom, weight_cons, hc.bytes, Nat.add_comm]
  keys := List.nodup_cons.mpr ⟨hk, hc.keys⟩
  saturated := hc.saturated

theorem enter {capacity : ℕ} (hc : Balanced size c) (hk : k ∉ c.entries.map Prod.fst)
    (hroom : c.bytes + size v < 2 ^ 64) (hpositive : 0 < capacity) (hcapacity : c.entries.length ≤ capacity) :
    Balanced size (c.enter size capacity k v) ∧ (c.enter size capacity k v).bytes ≤ c.bytes + size v ∧
      (c.enter size capacity k v).entries.length ≤ capacity ∧
      ∃ kept, kept <+: c.entries ∧ (c.enter size capacity k v).entries = (k, v) :: kept := by
  have hnew := hc.cons (v := v) hk hroom
  have hbytes : (c.charge (size v)).bytes = c.bytes + size v := satAdd_eq hroom
  have hpush : push capacity c.entries k v = if c.entries.length = capacity then
      (c.entries.getLast?, (k, v) :: c.entries.dropLast) else (none, (k, v) :: c.entries) := by
    rw [push, peek_of_not_mem hk]
  have hentries : (c.charge (size v)).entries = c.entries := rfl
  simp only [Counted.enter, hentries, hpush]
  by_cases hfull : c.entries.length = capacity
  · obtain ⟨e, he⟩ : ∃ e, c.entries.getLast? = some e := by
      rw [← Option.isSome_iff_exists, List.getLast?_isSome, ← List.length_pos_iff]
      omega
    rw [if_pos hfull, he]
    dsimp only
    have hweight := weight_dropLast size he
    have hkeys : (((k, v) :: c.entries.dropLast).map Prod.fst).Nodup :=
      hnew.keys.sublist (((List.dropLast_sublist c.entries).cons_cons (k, v)).map Prod.fst)
    refine ⟨released hkeys hc.saturated ?_, ?_, ?_, _, List.dropLast_prefix _, rfl⟩
    · rw [hbytes, weight_cons, hc.bytes, hweight]
      dsimp only
      omega
    · show (c.charge (size v)).bytes - size e.2 ≤ c.bytes + size v
      rw [hbytes]
      exact Nat.sub_le _ _
    · show c.entries.dropLast.length + 1 ≤ capacity
      rw [List.length_dropLast]
      omega
  · rw [if_neg hfull]
    refine ⟨hnew, hbytes.le, ?_, _, List.prefix_rfl, rfl⟩
    show c.entries.length + 1 ≤ capacity
    omega

/-- An entry that fits the budget by itself is stored. -/
theorem store {budget capacity : ℕ} (hbudget : budget < 2 ^ 64 - 1) (hpositive : 0 < capacity)
    (hc : Balanced size c) (hcapacity : c.entries.length ≤ capacity) (hk : k ∉ c.entries.map Prod.fst)
    (hfits : size v ≤ budget) :
    (c.store size budget capacity k v).1 = true ∧ Balanced size (c.store size budget capacity k v).2 ∧
      (c.store size budget capacity k v).2.bytes ≤ budget ∧
      (c.store size budget capacity k v).2.entries.length ≤ capacity ∧
      ∃ kept, kept <+: c.entries ∧ (c.store size budget capacity k v).2.entries = (k, v) :: kept := by
  unfold Counted.store
  dsimp only
  set c' := c.evictWhile size fun c => budget < satAdd c.bytes (size v) with hc'def
  obtain ⟨hc', hfront⟩ : Balanced size c' ∧ c'.entries <+: c.entries := hc.evict
  have hstops : ¬ budget < satAdd c'.bytes (size v) ∨ c'.entries = [] :=
      hc.evict_stops (fun c => budget < satAdd c.bytes (size v)) le_rfl
  have hroom : ¬ budget < satAdd c'.bytes (size v) := by
    rcases hstops with hfree | hempty
    · exact hfree
    · have hbytes : c'.bytes = 0 := by
        rw [hc'.bytes, show c'.entries = [] from hempty]
        rfl
      rw [lt_satAdd_iff hbudget, hbytes]
      omega
  have hsum : c'.bytes + size v ≤ budget := by
    rw [lt_satAdd_iff hbudget] at hroom
    omega
  have hk' : k ∉ c'.entries.map Prod.fst := fun hmem => hk ((hfront.map Prod.fst).subset hmem)
  obtain ⟨hbalanced, hbytes, hlength, kept, hkept, hentries⟩ :=
    hc'.enter (v := v) hk' (by omega) hpositive (hfront.length_le.trans hcapacity)
  rw [if_neg hroom]
  exact ⟨rfl, hbalanced, hbytes.trans hsum, hlength, kept, hkept.trans hfront, hentries⟩

end Balanced

end ByteCache
