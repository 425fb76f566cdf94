/-
# Least recently used caches

A bounded map as the list of its entries, the most recently used first. Writing through a
mutable borrow moves the entry to the front; a new entry pushes the last one out when the
cache is full. What a cache shows for a key is what was written there last, or nothing.

Key definitions: `Lru.peek`, `Lru.modify`, `Lru.put`, `Lru.push`, `Lru.pop`.
Key theorems: `Lru.peek_modify`, `Lru.peek_pop`, `Lru.peek_put`, `Lru.peek_of_pops`.
-/
import Mathlib.Data.List.Basic

namespace Lru

variable {κ ν : Type} [DecidableEq κ]

def peek : List (κ × ν) → κ → Option ν
  | [], _ => none
  | e :: cache, k => if e.1 = k then some e.2 else peek cache k

def pop (cache : List (κ × ν)) (k : κ) : List (κ × ν) := cache.filter fun e => e.1 ≠ k

/-- `get_mut` and a write through it. -/
def modify (cache : List (κ × ν)) (k : κ) (f : ν → ν) : List (κ × ν) :=
  match peek cache k with
  | some v => (k, f v) :: pop cache k
  | none => cache

def put (capacity : ℕ) (cache : List (κ × ν)) (k : κ) (v : ν) : List (κ × ν) :=
  ((k, v) :: pop cache k).take capacity

/-- `put` of a full cache, with the entry that goes. -/
def push (capacity : ℕ) (cache : List (κ × ν)) (k : κ) (v : ν) : Option (κ × ν) × List (κ × ν) :=
  match peek cache k with
  | some old => (some (k, old), (k, v) :: pop cache k)
  | none =>
    if cache.length = capacity then (cache.getLast?, (k, v) :: cache.dropLast) else (none, (k, v) :: cache)

theorem peek_pop (k k' : κ) : ∀ cache : List (κ × ν), peek (pop cache k) k' = if k' = k then none else peek cache k'
  | [] => by simp [pop, peek]
  | e :: cache => by
    have ih := peek_pop k k' cache
    unfold pop at ih ⊢
    by_cases he : e.1 = k
    · rw [List.filter_cons_of_neg (by simpa using he), ih, peek]
      by_cases hk : k' = k
      · rw [if_pos hk, if_pos hk]
      · rw [if_neg hk, if_neg hk, if_neg fun heq => hk (heq.symm.trans he)]
    · rw [List.filter_cons_of_pos (by simpa using he), peek, ih, peek]
      by_cases hk : k' = k
      · rw [if_pos hk, if_neg fun heq => he (heq.trans hk), if_pos hk]
      · simp only [if_neg hk]

theorem peek_modify (cache : List (κ × ν)) (k k' : κ) (f : ν → ν) :
    peek (modify cache k f) k' = if k' = k then (peek cache k).map f else peek cache k' := by
  unfold modify
  cases hv : peek cache k with
  | none =>
    by_cases hk : k' = k
    · rw [if_pos hk, hk, hv]
      rfl
    · rw [if_neg hk]
  | some v =>
    simp only [peek]
    by_cases hk : k' = k
    · rw [if_pos hk.symm, if_pos hk]
      rfl
    · rw [if_neg fun heq => hk heq.symm, if_neg hk, peek_pop, if_neg hk]

/-- What the first entries show, the whole cache shows. -/
theorem peek_of_take {k : κ} {v : ν} : ∀ {n : ℕ} {cache : List (κ × ν)}, peek (cache.take n) k = some v →
    peek cache k = some v
  | 0, _, h => by cases h
  | _ + 1, [], h => h
  | n + 1, e :: cache, h => by
    rw [List.take_succ_cons, peek] at h
    rw [peek]
    by_cases he : e.1 = k
    · rw [if_pos he] at h ⊢
      exact h
    · rw [if_neg he] at h ⊢
      exact peek_of_take h

/-- After a new entry a key shows the new value or what it showed before, if it was not pushed out. -/
theorem peek_put {capacity : ℕ} {cache : List (κ × ν)} {k k' : κ} {v w : ν}
    (h : peek (put capacity cache k v) k' = some w) : k' = k ∧ w = v ∨ k' ≠ k ∧ peek cache k' = some w := by
  have hshown := peek_of_take h
  rw [peek] at hshown
  by_cases hk : k' = k
  · rw [if_pos hk.symm] at hshown
    exact .inl ⟨hk, (Option.some.inj hshown).symm⟩
  · rw [if_neg fun heq => hk heq.symm, peek_pop, if_neg hk] at hshown
    exact .inr ⟨hk, hshown⟩

theorem peek_of_pops {k : κ} {v : ν} : ∀ {gone : List κ} {cache : List (κ × ν)},
    peek (gone.foldl pop cache) k = some v → peek cache k = some v
  | [], _, h => h
  | k' :: gone, cache, h => by
    have hpop : peek (pop cache k') k = some v := peek_of_pops h
    rw [peek_pop] at hpop
    split_ifs at hpop
    exact hpop

/-! ### The keys of a cache -/

theorem mem_of_peek {k : κ} {v : ν} : ∀ {cache : List (κ × ν)}, peek cache k = some v → (k, v) ∈ cache
  | [], h => nomatch h
  | e :: cache, h => by
    rw [peek] at h
    by_cases he : e.1 = k
    · rw [if_pos he] at h
      rw [← he, ← Option.some.inj h]
      exact List.mem_cons_self
    · rw [if_neg he] at h
      exact List.mem_cons_of_mem _ (mem_of_peek h)

theorem peek_of_not_mem {k : κ} : ∀ {cache : List (κ × ν)}, k ∉ cache.map Prod.fst → peek cache k = none
  | [], _ => rfl
  | e :: cache, h => by
    rw [List.map_cons, List.mem_cons, not_or] at h
    rw [peek, if_neg (Ne.symm h.1), peek_of_not_mem h.2]

theorem not_mem_of_peek {k : κ} : ∀ {cache : List (κ × ν)}, peek cache k = none → k ∉ cache.map Prod.fst
  | [], _ => List.not_mem_nil
  | e :: cache, h => by
    rw [peek] at h
    by_cases he : e.1 = k
    · rw [if_pos he] at h
      cases h
    · rw [if_neg he] at h
      rw [List.map_cons, List.mem_cons, not_or]
      exact ⟨Ne.symm he, not_mem_of_peek h⟩

/-- With one entry for each key, the entry for a key is what is shown for it. -/
theorem peek_of_mem {k : κ} {v : ν} : ∀ {cache : List (κ × ν)}, (cache.map Prod.fst).Nodup → (k, v) ∈ cache →
    peek cache k = some v
  | [], _, h => nomatch h
  | e :: cache, hkeys, h => by
    rw [List.map_cons, List.nodup_cons] at hkeys
    rw [peek]
    rcases List.mem_cons.mp h with rfl | hmem
    · rw [if_pos rfl]
    · have hne : e.1 ≠ k := fun he => hkeys.1 (he ▸ List.mem_map_of_mem hmem)
      rw [if_neg hne, peek_of_mem hkeys.2 hmem]

theorem pop_cons (e : κ × ν) (cache : List (κ × ν)) (k : κ) :
    pop (e :: cache) k = if e.1 = k then pop cache k else e :: pop cache k := by
  by_cases he : e.1 = k
  · rw [if_pos he, pop, List.filter_cons_of_neg (by simpa using he), pop]
  · rw [if_neg he, pop, List.filter_cons_of_pos (by simpa using he), pop]

theorem pop_of_not_mem {k : κ} {cache : List (κ × ν)} (h : k ∉ cache.map Prod.fst) : pop cache k = cache :=
  List.filter_eq_self.mpr fun _ he => decide_eq_true fun hk => h (hk ▸ List.mem_map_of_mem he)

theorem not_mem_pop (k : κ) (cache : List (κ × ν)) : k ∉ (pop cache k).map Prod.fst := by
  intro h
  obtain ⟨e, he, hk⟩ := List.mem_map.mp h
  exact of_decide_eq_true (List.mem_filter.mp he).2 hk

theorem nodup_pop (k : κ) {cache : List (κ × ν)} (h : (cache.map Prod.fst).Nodup) :
    ((pop cache k).map Prod.fst).Nodup := h.sublist (List.filter_sublist.map Prod.fst)

theorem mem_of_mem_pop {cache : List (κ × ν)} {k : κ} {e : κ × ν} (h : e ∈ pop cache k) : e ∈ cache :=
  (List.mem_filter.mp h).1

theorem length_pop_le (cache : List (κ × ν)) (k : κ) : (pop cache k).length ≤ cache.length :=
  List.length_filter_le _ _

theorem mem_modify {cache : List (κ × ν)} {k : κ} {f : ν → ν} {e : κ × ν} (h : e ∈ modify cache k f) :
    (∃ v, (k, v) ∈ cache ∧ e = (k, f v)) ∨ e ∈ cache := by
  unfold modify at h
  cases hv : peek cache k with
  | none =>
    rw [hv] at h
    exact .inr h
  | some v =>
    rw [hv] at h
    rcases List.mem_cons.mp h with rfl | hmem
    · exact .inl ⟨v, mem_of_peek hv, rfl⟩
    · exact .inr (mem_of_mem_pop hmem)

theorem length_modify_le (cache : List (κ × ν)) (k : κ) (f : ν → ν) : (modify cache k f).length ≤ cache.length := by
  unfold modify
  cases hv : peek cache k with
  | none => exact Nat.le_refl _
  | some v =>
    have hless : (pop cache k).length < cache.length :=
      List.length_filter_lt_length_iff_exists.mpr ⟨(k, v), mem_of_peek hv, by simp⟩
    exact hless

end Lru
