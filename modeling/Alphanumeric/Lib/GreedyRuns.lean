/-
# Cutting a list into longest runs

Items with weights go into runs of at most `count` items and at most `budget` weight. A
run takes items as long as they fit, and an item that is over the budget by itself stays
alone. `cutFrom` does this in one pass, with the run under construction at hand; `Cut`
says what the outcome is, and that it is the only one.

Key definitions: `GreedyRuns.Piece`, `GreedyRuns.cutFrom`, `GreedyRuns.Cut`.
Key theorems: `GreedyRuns.items_cutFrom`, `GreedyRuns.cut_cutFrom`, `GreedyRuns.Cut.piece`,
`GreedyRuns.Cut.unique`.
-/
import Mathlib.Algebra.Order.BigOperators.Group.List
import Mathlib.Algebra.Order.Ring.Nat

namespace GreedyRuns

variable {α : Type} (w : α → ℕ) (count budget : ℕ)

inductive Piece (α : Type)
  | alone (x : α)
  | run (xs : List α)

def Piece.items : Piece α → List α
  | .alone x => [x]
  | .run xs => xs

def weight (xs : List α) : ℕ := (xs.map w).sum

/-- The parts of a list, after a run `xs` that is under construction. -/
def cutFrom : List α → List α → List (Piece α)
  | xs, [] => if xs = [] then [] else [.run xs]
  | xs, x :: rest =>
    if budget < w x then (if xs = [] then [] else [.run xs]) ++ .alone x :: cutFrom [] rest
    else if xs ≠ [] ∧ (xs.length = count ∨ budget < weight w xs + w x) then .run xs :: cutFrom [x] rest
    else cutFrom (xs ++ [x]) rest

/-- The next item does not go into the run. -/
def Full (xs rest : List α) : Prop :=
  ∀ y ys, rest = y :: ys → budget < w y ∨ xs.length = count ∨ budget < weight w xs + w y

inductive Cut : List α → List (Piece α) → Prop
  | nil : Cut [] []
  | alone {x : α} {rest : List α} {parts : List (Piece α)} (hover : budget < w x) (hrest : Cut rest parts) :
    Cut (x :: rest) (.alone x :: parts)
  | run {xs rest : List α} {parts : List (Piece α)} (hne : xs ≠ []) (hcount : xs.length ≤ count)
    (hweight : weight w xs ≤ budget) (hfull : Full w count budget xs rest) (hrest : Cut rest parts) :
    Cut (xs ++ rest) (.run xs :: parts)

variable {w count budget} {xs ys rest : List α} {x : α}

theorem weight_concat : weight w (xs ++ [x]) = weight w xs + w x := by simp [weight]

theorem weight_append : weight w (xs ++ ys) = weight w xs + weight w ys := by simp [weight]

theorem le_weight (hx : x ∈ xs) : w x ≤ weight w xs :=
  List.single_le_sum (fun _ _ => Nat.zero_le _) _ (List.mem_map_of_mem hx)

/-! ### The pass -/

theorem items_cutFrom : ∀ xs rest : List α, (cutFrom w count budget xs rest).flatMap Piece.items = xs ++ rest
  | xs, [] => by
    rw [cutFrom]
    by_cases hxs : xs = []
    · rw [if_pos hxs, hxs]
      rfl
    · rw [if_neg hxs]
      simp [Piece.items]
  | xs, x :: rest => by
    have hflush : (if xs = [] then [] else [Piece.run xs]).flatMap Piece.items = xs := by
      by_cases hxs : xs = []
      · rw [if_pos hxs, hxs]
        rfl
      · rw [if_neg hxs]
        simp [Piece.items]
    rw [cutFrom]
    split
    · rw [List.flatMap_append, hflush, List.flatMap_cons, items_cutFrom [] rest]
      rfl
    · split
      · rw [List.flatMap_cons, items_cutFrom [x] rest]
        rfl
      · rw [items_cutFrom (xs ++ [x]) rest, List.append_assoc]
        rfl

/-- The pass makes the longest runs. -/
theorem cut_cutFrom (hcount : 1 ≤ count) : ∀ xs rest : List α, xs.length ≤ count → weight w xs ≤ budget →
    Cut w count budget (xs ++ rest) (cutFrom w count budget xs rest)
  | xs, [], hlen, hweight => by
    rw [cutFrom]
    by_cases hxs : xs = []
    · rw [if_pos hxs, hxs]
      exact .nil
    · rw [if_neg hxs]
      exact .run hxs hlen hweight (fun _ _ h => nomatch h) .nil
  | xs, x :: rest, hlen, hweight => by
    rw [cutFrom]
    by_cases hover : budget < w x
    · have halone : Cut w count budget (x :: rest) (.alone x :: cutFrom w count budget [] rest) :=
        .alone hover (cut_cutFrom hcount [] rest (Nat.zero_le _) (Nat.zero_le _))
      rw [if_pos hover]
      by_cases hxs : xs = []
      · rw [if_pos hxs, hxs]
        exact halone
      · rw [if_neg hxs]
        refine .run hxs hlen hweight ?_ halone
        rintro y ys ⟨⟩
        exact .inl hover
    · rw [if_neg hover]
      by_cases hfull : xs ≠ [] ∧ (xs.length = count ∨ budget < weight w xs + w x)
      · rw [if_pos hfull]
        refine .run hfull.1 hlen hweight ?_ ?_
        · rintro y ys ⟨⟩
          exact .inr hfull.2
        · exact cut_cutFrom hcount [x] rest hcount (by simpa [weight] using Nat.le_of_not_lt hover)
      · rw [if_neg hfull]
        have hfits : xs = [] ∨ (xs.length ≠ count ∧ weight w xs + w x ≤ budget) := by
          by_cases hxs : xs = []
          · exact .inl hxs
          · refine .inr ⟨fun h => hfull ⟨hxs, .inl h⟩, ?_⟩
            exact Nat.le_of_not_lt fun h => hfull ⟨hxs, .inr h⟩
        have hnext : Cut w count budget ((xs ++ [x]) ++ rest) (cutFrom w count budget (xs ++ [x]) rest) := by
          refine cut_cutFrom hcount (xs ++ [x]) rest ?_ ?_
          · rw [List.length_append, List.length_singleton]
            rcases hfits with rfl | ⟨hne, -⟩
            · exact hcount
            · omega
          · rw [weight_concat]
            rcases hfits with rfl | ⟨-, hle⟩
            · exact (Nat.zero_add _).le.trans (Nat.le_of_not_lt hover)
            · exact hle
        rwa [List.append_assoc] at hnext

theorem Cut.piece {l : List α} {parts : List (Piece α)} (h : Cut w count budget l parts) :
    (∀ x, .alone x ∈ parts → budget < w x) ∧
    ∀ xs, .run xs ∈ parts → xs ≠ [] ∧ xs.length ≤ count ∧ weight w xs ≤ budget := by
  induction h with
  | nil => exact ⟨fun _ h => (nomatch h), fun _ h => (nomatch h)⟩
  | @alone x rest parts hover _ ih =>
    refine ⟨fun y hy => ?_, fun xs hxs => ih.2 xs ((List.mem_cons.mp hxs).resolve_left fun h => nomatch h)⟩
    rcases List.mem_cons.mp hy with heq | hy'
    · cases heq
      exact hover
    · exact ih.1 y hy'
  | @run xs rest parts hne hcount hweight _ _ ih =>
    refine ⟨fun y hy => ih.1 y ((List.mem_cons.mp hy).resolve_left fun h => nomatch h), fun ys hys => ?_⟩
    rcases List.mem_cons.mp hys with heq | hys'
    · cases heq
      exact ⟨hne, hcount, hweight⟩
    · exact ih.2 ys hys'

/-! ### The only cut -/

/-- A run that cannot be extended is not the beginning of a longer one. -/
theorem Full.not_longer {more : List α} (hfull : Full w count budget xs (ys ++ more)) (hne : ys ≠ [])
    (hcount : (xs ++ ys).length ≤ count) (hweight : weight w (xs ++ ys) ≤ budget) : False := by
  obtain ⟨y, ys, rfl⟩ := List.exists_cons_of_ne_nil hne
  rw [weight_append] at hweight
  have hy : w y ≤ weight w (y :: ys) := le_weight List.mem_cons_self
  rw [List.length_append, List.length_cons] at hcount
  rcases hfull y (ys ++ more) rfl with hover | hlen | hover <;> omega

theorem Full.eq {rest' : List α} (hfull : Full w count budget xs rest) (hfull' : Full w count budget ys rest')
    (hcount : xs.length ≤ count) (hweight : weight w xs ≤ budget) (hcount' : ys.length ≤ count)
    (hweight' : weight w ys ≤ budget) (heq : xs ++ rest = ys ++ rest') : xs = ys := by
  rcases List.append_eq_append_iff.mp heq with ⟨more, rfl, rfl⟩ | ⟨more, rfl, rfl⟩
  · by_cases hmore : more = []
    · rw [hmore, List.append_nil]
    · exact (hfull.not_longer hmore hcount' hweight').elim
  · by_cases hmore : more = []
    · rw [hmore, List.append_nil]
    · exact (hfull'.not_longer hmore hcount hweight).elim

theorem Cut.unique {l : List α} {parts : List (Piece α)} (h : Cut w count budget l parts) :
    ∀ {parts' : List (Piece α)}, Cut w count budget l parts' → parts = parts' := by
  -- an item over the budget is not the first of a run
  have hfirst : ∀ {x : α} {xs : List α}, budget < w x → weight w (x :: xs) ≤ budget → False := fun hover hweight =>
    absurd ((le_weight List.mem_cons_self).trans hweight) (Nat.not_le_of_lt hover)
  induction h with
  | nil =>
    intro parts' h'
    generalize hl : ([] : List α) = l at h'
    cases h' with
    | nil => rfl
    | alone => cases hl
    | run hne => exact absurd (List.append_eq_nil_iff.mp hl.symm).1 hne
  | @alone x rest parts hover _ ih =>
    intro parts' h'
    generalize hl : x :: rest = l at h'
    cases h' with
    | nil => cases hl
    | alone _ hrest' =>
      obtain ⟨rfl, rfl⟩ := List.cons.inj hl
      rw [ih hrest']
    | @run xs rest' parts' hne _ hweight =>
      obtain ⟨y, ys, rfl⟩ := List.exists_cons_of_ne_nil hne
      obtain ⟨rfl, -⟩ := List.cons.inj hl
      exact (hfirst hover hweight).elim
  | @run xs rest parts hne hcount hweight hfull _ ih =>
    intro parts' h'
    generalize hl : xs ++ rest = l at h'
    cases h' with
    | nil => exact absurd (List.append_eq_nil_iff.mp hl).1 hne
    | alone hover _ =>
      obtain ⟨y, ys, rfl⟩ := List.exists_cons_of_ne_nil hne
      obtain ⟨rfl, -⟩ := List.cons.inj hl
      exact (hfirst hover hweight).elim
    | run _ hcount' hweight' hfull' hrest' =>
      obtain rfl := hfull.eq hfull' hcount hweight hcount' hweight' hl
      obtain rfl := List.append_cancel_left hl
      rw [ih hrest']

end GreedyRuns
