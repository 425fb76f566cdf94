/-
# Slots

A sequence put together from pieces that arrive in any order, from anywhere: a row of slots,
each empty or with a piece, and a counter of the pieces' sizes. A piece goes into an empty slot
only, so a slot is filled once. If whatever fills a slot is the target's piece there, the row is
a part of the target: what it holds and what it misses add up to the target's size, and a full
row is the target.

Key definitions: `Slots.fill`, `Slots.missing`, `Slots.Fitting`, `Slots.PartOf`.
Key theorems: `Slots.Fitting.fill`, `Slots.PartOf.bytes_add_missing`, `Slots.PartOf.held_eq`.
-/
import Mathlib

structure Slots (α : Type) where
  held : List (Option α)
  bytes : ℕ

namespace Slots

variable {α : Type} {size : α → ℕ} {fits : ℕ → α → Prop} {s : Slots α} {target : List α} {i : ℕ} {x : α}

def fill (size : α → ℕ) (s : Slots α) (i : ℕ) (x : α) : Slots α := ⟨s.held.set i (some x), s.bytes + size x⟩

def vacant (slot : Option (Option α)) : Bool := slot.any Option.isNone

theorem vacant_iff {slot : Option (Option α)} : vacant slot = true ↔ slot = some none := by
  match slot with
  | none => simp [vacant]
  | some none => simp [vacant]
  | some (some _) => simp [vacant]

/-- The positions of the empty slots, in order. -/
def missing (s : Slots α) : List ℕ := (List.range s.held.length).filter fun i => vacant s.held[i]?

/-- The size of what is in a slot. -/
def slotSize (size : α → ℕ) (slot : Option α) : ℕ := slot.elim 0 size

theorem mem_missing : i ∈ s.missing ↔ s.held[i]? = some none := by
  unfold missing
  rw [List.mem_filter, List.mem_range, vacant_iff]
  constructor
  · exact fun h => h.2
  · intro h
    exact ⟨(List.getElem?_eq_some_iff.mp h).1, h⟩

theorem missing_lt (h : i ∈ s.missing) : i < s.held.length :=
  (List.getElem?_eq_some_iff.mp (mem_missing.mp h)).1

theorem nodup_missing (s : Slots α) : s.missing.Nodup := List.nodup_range.filter _

theorem missing_eq_nil : s.missing = [] ↔ ∀ slot ∈ s.held, slot ≠ none := by
  rw [List.eq_nil_iff_forall_not_mem]
  constructor
  · intro h slot hslot hnone
    obtain ⟨i, hi⟩ := List.getElem?_of_mem hslot
    exact h i (mem_missing.mpr (by rw [hi, hnone]))
  · intro h i hi
    exact h none (List.mem_of_getElem? (mem_missing.mp hi)) rfl

/-- A row with no empty slot is a sequence of pieces. -/
theorem exists_of_full (h : s.missing = []) : ∃ pieces : List α, s.held = pieces.map some := by
  have hfull := missing_eq_nil.mp h
  generalize s.held = held at hfull
  induction held with
  | nil => exact ⟨[], rfl⟩
  | cons slot held ih =>
    obtain ⟨x, rfl⟩ := Option.ne_none_iff_exists'.mp (hfull slot List.mem_cons_self)
    obtain ⟨pieces, rfl⟩ := ih fun slot hslot => hfull slot (List.mem_cons_of_mem _ hslot)
    exact ⟨x :: pieces, rfl⟩

@[simp] theorem length_fill : (s.fill size i x).held.length = s.held.length := List.length_set

theorem held_fill (hempty : s.held[i]? = some none) (j : ℕ) :
    (s.fill size i x).held[j]? = if j = i then some (some x) else s.held[j]? := by
  have hi := (List.getElem?_eq_some_iff.mp hempty).1
  rw [fill, List.getElem?_set]
  by_cases hj : j = i
  · rw [if_pos hj.symm, if_pos hj, if_pos hi]
  · rw [if_neg fun h => hj h.symm, if_neg hj]

theorem missing_fill (hempty : s.held[i]? = some none) (j : ℕ) :
    j ∈ (s.fill size i x).missing ↔ j ∈ s.missing ∧ j ≠ i := by
  rw [mem_missing, mem_missing, held_fill hempty]
  by_cases hj : j = i
  · rw [if_pos hj]
    simp [hj]
  · rw [if_neg hj]
    exact ⟨fun h => ⟨h, hj⟩, fun h => h.1⟩

/-! ### What the slots hold -/

/-- Every piece fits its slot, and the counter is the sum of their sizes. -/
structure Fitting (fits : ℕ → α → Prop) (size : α → ℕ) (s : Slots α) : Prop where
  fits : ∀ (i : ℕ) (x : α), s.held[i]? = some (some x) → fits i x
  counted : s.bytes = (s.held.map (slotSize size)).sum

theorem sum_set_empty : ∀ {held : List (Option α)} {i : ℕ}, held[i]? = some none →
    ((held.set i (some x)).map (slotSize size)).sum = (held.map (slotSize size)).sum + size x
  | [], i, h => by cases h
  | slot :: held, 0, h => by
    have hslot : slot = none := Option.some.inj h
    rw [List.set_cons_zero, List.map_cons, List.sum_cons, List.map_cons, List.sum_cons, hslot]
    change size x + _ = 0 + _ + size x
    omega
  | slot :: held, i + 1, h => by
    have hrest : held[i]? = some none := h
    rw [List.set_cons_succ, List.map_cons, List.sum_cons, sum_set_empty hrest, List.map_cons, List.sum_cons]
    omega

theorem Fitting.fill (h : Fitting fits size s) (hempty : s.held[i]? = some none) (hx : fits i x) :
    Fitting fits size (s.fill size i x) := by
  refine ⟨?_, ?_⟩
  · intro j y hy
    rw [held_fill hempty] at hy
    by_cases hj : j = i
    · rw [if_pos hj] at hy
      rw [hj, ← Option.some.inj (Option.some.inj hy)]
      exact hx
    · rw [if_neg hj] at hy
      exact h.fits j y hy
  · calc (s.fill size i x).bytes = s.bytes + size x := rfl
      _ = (s.held.map (slotSize size)).sum + size x := by rw [h.counted]
      _ = ((s.held.set i (some x)).map (slotSize size)).sum := (sum_set_empty hempty).symm

/-! ### Part of a target -/

/-- As many slots as the target has pieces, and in every slot the target's piece or none. -/
structure PartOf (target : List α) (s : Slots α) : Prop where
  length : s.held.length = target.length
  same : ∀ (i : ℕ) (x : α), s.held[i]? = some (some x) → target[i]? = some x

theorem PartOf.fill (h : PartOf target s) (hempty : s.held[i]? = some none) (hx : target[i]? = some x) :
    PartOf target (s.fill size i x) := by
  refine ⟨by rw [length_fill, h.length], ?_⟩
  intro j y hy
  rw [held_fill hempty] at hy
  by_cases hj : j = i
  · rw [if_pos hj] at hy
    rw [hj, hx, Option.some.inj hy]
  · rw [if_neg hj] at hy
    exact h.same j y hy

/-- **A full row is the target.** -/
theorem PartOf.held_eq (h : PartOf target s) (hfull : s.missing = []) : s.held = target.map some := by
  obtain ⟨pieces, hpieces⟩ := exists_of_full hfull
  have hsame : pieces = target := by
    have hlength : pieces.length = target.length := by
      rw [← h.length, hpieces, List.length_map]
    refine List.ext_getElem? fun i => ?_
    by_cases hi : i < pieces.length
    · have hpiece : pieces[i]? = some pieces[i] := List.getElem?_eq_getElem hi
      rw [hpiece, h.same i pieces[i] (by rw [hpieces, List.getElem?_map, hpiece]; rfl)]
    · rw [List.getElem?_eq_none (by omega), List.getElem?_eq_none (by omega)]
  rw [hpieces, hsame]

/-- What the target has at the empty slots. -/
def wanted (target : List α) (s : Slots α) : List α := s.missing.filterMap (target[·]?)

theorem sum_slots (size : α → ℕ) : ∀ {held : List (Option α)} {target : List α}, held.length = target.length →
    (∀ (i : ℕ) (x : α), held[i]? = some (some x) → target[i]? = some x) →
    (held.map (slotSize size)).sum +
      ((((List.range held.length).filter fun i => vacant held[i]?).filterMap (target[·]?)).map size).sum =
    (target.map size).sum
  | [], [], _, _ => rfl
  | [], _ :: _, hlen, _ => by cases hlen
  | _ :: _, [], hlen, _ => by cases hlen
  | slot :: held, x :: target, hlen, hsame => by
    have ih := sum_slots size (Nat.succ.inj hlen) fun i y hy => hsame (i + 1) y hy
    have htail : ((List.range held.length).map Nat.succ).filter (fun i => vacant (slot :: held)[i]?) =
        ((List.range held.length).filter fun i => vacant held[i]?).map Nat.succ := by
      rw [List.filter_map]
      rfl
    have hwanted : ((List.range held.length).filter fun i => vacant held[i]?).filterMap
        ((fun i => (x :: target)[i]?) ∘ Nat.succ) =
        ((List.range held.length).filter fun i => vacant held[i]?).filterMap (target[·]?) := rfl
    rw [List.length_cons, List.range_succ_eq_map, List.filter_cons, htail]
    rw [List.map_cons, List.sum_cons, List.map_cons, List.sum_cons]
    cases slot with
    | none =>
      have hvacant : vacant (none :: held)[0]? = true := rfl
      have hfirst : (x :: target)[0]? = some x := rfl
      rw [if_pos hvacant, List.filterMap_cons_some hfirst, List.filterMap_map, hwanted, List.map_cons, List.sum_cons]
      change 0 + _ + (size x + _) = _
      omega
    | some y =>
      have hxy : x = y := Option.some.inj (hsame 0 y rfl)
      rw [if_neg (by simp [vacant]), List.filterMap_map, hwanted, hxy]
      change size y + _ + _ = _
      omega

/-- **What is held and what is wanted add up to the target.** -/
theorem PartOf.bytes_add_wanted (h : PartOf target s) (hcounted : s.bytes = (s.held.map (slotSize size)).sum) :
    s.bytes + ((wanted target s).map size).sum = (target.map size).sum := by
  rw [hcounted]
  exact sum_slots size h.length h.same

end Slots
