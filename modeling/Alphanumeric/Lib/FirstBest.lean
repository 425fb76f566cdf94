/-
# The first of the best

`List.argmax` over the items of several groups, one group after the other. The result is the
first best item of the first group that has a best one; what a reader takes from it is the same
for every order of the groups exactly if all groups that have a best item agree on it.

Key definitions: `FirstBest.best`, `FirstBest.Top`.
Key theorems: `FirstBest.argmax_append`, `FirstBest.find?_of_argmax`, `FirstBest.top_of_best`,
`FirstBest.order_free_iff`.
-/
import Mathlib.Data.List.MinMax

namespace FirstBest

variable {α β γ δ : Type} [LinearOrder β] {key : α → β}

theorem argmax_append (key : α → β) : ∀ xs ys : List α, (xs ++ ys).argmax key =
    match xs.argmax key, ys.argmax key with
    | none, r => r
    | some a, none => some a
    | some a, some b => if key a < key b then some b else some a
  | [], ys => by
    rw [List.nil_append, List.argmax_nil]
  | x :: xs, ys => by
    rw [List.cons_append, List.argmax_cons, List.argmax_cons, argmax_append key xs ys]
    cases xs.argmax key with
    | none => cases ys.argmax key <;> rfl
    | some a =>
      cases ys.argmax key with
      | none => dsimp only; split <;> rfl
      | some b =>
        dsimp only
        by_cases hab : key a < key b <;> by_cases hxa : key x < key a
        · rw [if_pos hab, if_pos hxa]
          dsimp only
          rw [if_pos (hxa.trans hab), if_pos hab]
        · rw [if_pos hab, if_neg hxa]
        · rw [if_neg hab, if_pos hxa]
          dsimp only
          rw [if_neg hab, if_pos hxa]
        · have hxb : ¬ key x < key b := fun hxb => hab (lt_of_le_of_lt (le_of_not_gt hxa) hxb)
          rw [if_neg hab, if_neg hxa]
          dsimp only
          rw [if_neg hxb, if_neg hxa]

/-- A best item is the first one of its key. -/
theorem find?_of_argmax [DecidableEq β] : ∀ {xs : List α} {m : α}, xs.argmax key = some m →
    (xs.find? fun a => decide (key a = key m)) = some m
  | [], m, h => by cases h
  | x :: xs, m, h => by
    rw [List.argmax_cons] at h
    cases hxs : xs.argmax key with
    | none =>
      rw [hxs] at h
      cases h
      exact List.find?_cons_of_pos (decide_eq_true rfl)
    | some c =>
      rw [hxs] at h
      dsimp only at h
      by_cases hlt : key x < key c
      · rw [if_pos hlt, Option.some_inj] at h
        subst h
        rw [List.find?_cons_of_neg (by simp [hlt.ne])]
        exact find?_of_argmax hxs
      · rw [if_neg hlt, Option.some_inj] at h
        subst h
        exact List.find?_cons_of_pos (decide_eq_true rfl)

/-- The best item of all groups. -/
def best (items : γ → List α) (key : α → β) (gs : List γ) : Option α := (gs.flatMap items).argmax key

/-- The best item of a group is a best one of all. -/
structure Top (items : γ → List α) (key : α → β) (gs : List γ) (g : γ) (m : α) : Prop where
  own : (items g).argmax key = some m
  all : ∀ g' ∈ gs, ∀ a ∈ items g', key a ≤ key m

variable {items : γ → List α} {gs gs' : List γ}

theorem Top.perm {g : γ} {m : α} (h : Top items key gs g m) (hperm : gs'.Perm gs) : Top items key gs' g m :=
  ⟨h.own, fun g' hg' => h.all g' (hperm.mem_iff.mp hg')⟩

theorem best_cons (g : γ) (gs : List γ) : best items key (g :: gs) =
    match (items g).argmax key, best items key gs with
    | none, r => r
    | some a, none => some a
    | some a, some b => if key a < key b then some b else some a := by
  unfold best
  rw [List.flatMap_cons, argmax_append]

/-- The best item of a group that comes first. -/
theorem best_of_head {g : γ} {m : α} (h : Top items key (g :: gs) g m) : best items key (g :: gs) = some m := by
  rw [best_cons, h.own]
  cases hrest : best items key gs with
  | none => rfl
  | some b =>
    obtain ⟨g', hg', hb⟩ := List.mem_flatMap.mp (List.argmax_mem hrest)
    exact if_neg (not_lt_of_ge (h.all g' (List.mem_cons_of_mem _ hg') b hb))

/-- The best item is one of a group. -/
theorem top_of_best : ∀ {gs : List γ} {m : α}, best items key gs = some m → ∃ g ∈ gs, Top items key gs g m
  | [], m, h => by cases h
  | g :: gs, m, h => by
    have hall : ∀ g' ∈ g :: gs, ∀ a ∈ items g', key a ≤ key m := fun g' hg' a ha =>
      List.le_of_mem_argmax (List.mem_flatMap.mpr ⟨g', hg', ha⟩) h
    have hrest : best items key gs = some m → ∃ g' ∈ g :: gs, Top items key (g :: gs) g' m := fun hm => by
      obtain ⟨g', hg', htop⟩ := top_of_best hm
      exact ⟨g', List.mem_cons_of_mem _ hg', htop.own, hall⟩
    rw [best_cons] at h
    cases hg : (items g).argmax key with
    | none =>
      rw [hg] at h
      exact hrest h
    | some a =>
      have hown : some a = some m → ∃ g' ∈ g :: gs, Top items key (g :: gs) g' m := fun heq =>
        ⟨g, List.mem_cons_self .., hg.trans heq, hall⟩
      rw [hg] at h
      cases hb : best items key gs with
      | none =>
        rw [hb] at h
        exact hown h
      | some b =>
        rw [hb] at h
        dsimp only at h
        split at h
        · exact hrest (hb.trans h)
        · exact hown h

theorem best_eq_none : best items key gs = none ↔ ∀ g ∈ gs, items g = [] := by
  unfold best
  rw [List.argmax_eq_none, List.flatMap_eq_nil_iff]

/-- **What is taken from the best item does not depend on the order of the groups exactly if all
groups with a best item agree on it.** -/
theorem order_free_iff (val : α → δ) : (∀ gs' : List γ, gs'.Perm gs →
      (best items key gs').map val = (best items key gs).map val) ↔
    ∀ g ∈ gs, ∀ g' ∈ gs, ∀ m m', Top items key gs g m → Top items key gs g' m' → val m = val m' := by
  constructor
  · intro h g hg g' hg' m m' htop htop'
    have hfirst : ∀ x ∈ gs, ∀ y, Top items key gs x y → (best items key gs).map val = some (val y) := by
      intro x hx y hy
      obtain ⟨s, t, rfl⟩ := List.append_of_mem hx
      have hperm : (x :: (s ++ t)).Perm (s ++ x :: t) := List.perm_middle.symm
      rw [← h _ hperm, best_of_head (hy.perm hperm)]
      rfl
    exact Option.some_inj.mp ((hfirst g hg m htop).symm.trans (hfirst g' hg' m' htop'))
  · intro h gs' hperm
    cases hbest : best items key gs with
    | none =>
      have hnone : best items key gs' = none :=
        best_eq_none.mpr fun g hg => best_eq_none.mp hbest g (hperm.mem_iff.mp hg)
      rw [hnone]
    | some m =>
      obtain ⟨g, hg, htop⟩ := top_of_best hbest
      cases hbest' : best items key gs' with
      | none =>
        have hnil := best_eq_none.mp hbest' g (hperm.mem_iff.mpr hg)
        have hown := htop.own
        rw [hnil] at hown
        cases hown
      | some m' =>
        obtain ⟨g', hg', htop'⟩ := top_of_best hbest'
        exact congrArg some (h g' (hperm.mem_iff.mp hg') g hg m' m (htop'.perm hperm.symm) htop)

end FirstBest
