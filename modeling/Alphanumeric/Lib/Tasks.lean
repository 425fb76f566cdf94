/-
# Tasks as a list of program counters

Any number of tasks run over a shared state, each at some program point. A step moves
one of them on (`List.set`) or starts a new one (an append). What many tasks hold of
a shared counter is a sum of weights over the list, and the lemmas say how a step
moves the sum.

Key definitions: `Tasks.weigh`.
Key theorems: `Tasks.weigh_set`, `Tasks.weigh_le`, `Tasks.get_set_cases`, `Tasks.get_append_cases`.
-/
import Mathlib.Algebra.BigOperators.Group.List.Basic
import Mathlib.Tactic

namespace Tasks

variable {τ : Type}

/-- What all tasks hold together, if a task `t` holds `w t`. -/
def weigh (w : τ → ℕ) (tasks : List τ) : ℕ := (tasks.map w).sum

@[simp] theorem weigh_append (w : τ → ℕ) (tasks more : List τ) :
    weigh w (tasks ++ more) = weigh w tasks + weigh w more := by
  simp [weigh]

@[simp] theorem weigh_singleton (w : τ → ℕ) (t : τ) : weigh w [t] = w t := by
  simp [weigh]

/-- One task moves on: the sum loses its old weight and gains the new one. -/
theorem weigh_set (w : τ → ℕ) {t : τ} (t' : τ) :
    ∀ {tasks : List τ} {i : ℕ}, tasks[i]? = some t →
      weigh w (tasks.set i t') + w t = weigh w tasks + w t'
  | [], i, h => by simp at h
  | x :: rest, 0, h => by
    obtain rfl : x = t := by simpa using h
    simp only [weigh, List.set_cons_zero, List.map_cons, List.sum_cons]
    omega
  | x :: rest, i + 1, h => by
    have hrest : rest[i]? = some t := by simpa using h
    have ih := weigh_set w t' hrest
    simp only [weigh, List.set_cons_succ, List.map_cons, List.sum_cons] at ih ⊢
    omega

theorem weigh_le (w : τ → ℕ) {t : τ} {tasks : List τ} (h : t ∈ tasks) : w t ≤ weigh w tasks :=
  List.single_le_sum (by simp) _ (List.mem_map_of_mem h)

theorem weigh_add (w v : τ → ℕ) (tasks : List τ) :
    weigh (fun t => w t + v t) tasks = weigh w tasks + weigh v tasks :=
  List.sum_map_add

theorem weigh_mono {w v : τ → ℕ} {tasks : List τ} (h : ∀ t ∈ tasks, w t ≤ v t) :
    weigh w tasks ≤ weigh v tasks :=
  List.sum_le_sum h

/-- A task after one of them moved is the moved one or an old one at another place. -/
theorem get_set_cases {tasks : List τ} {i j : ℕ} {t x : τ} (h : (tasks.set i t)[j]? = some x) :
    j = i ∧ x = t ∨ j ≠ i ∧ tasks[j]? = some x := by
  rw [List.getElem?_set] at h
  by_cases hij : i = j
  · subst hij
    by_cases hlt : i < tasks.length
    · simp only [hlt, if_true, Option.some.injEq] at h
      exact .inl ⟨rfl, h.symm⟩
    · simp [hlt] at h
  · simp only [hij, if_false] at h
    exact .inr ⟨fun heq => hij heq.symm, h⟩

/-- A task after one was started is an old one or the new one, in the last place. -/
theorem get_append_cases {tasks : List τ} {j : ℕ} {t x : τ} (h : (tasks ++ [t])[j]? = some x) :
    tasks[j]? = some x ∨ j = tasks.length ∧ x = t := by
  rw [List.getElem?_append] at h
  by_cases hlt : j < tasks.length
  · simp only [hlt, if_true] at h
    exact .inl h
  · simp only [hlt, if_false] at h
    have hj : j - tasks.length = 0 := by
      by_contra hne
      rw [List.getElem?_eq_none (by simp; omega)] at h
      simp at h
    rw [hj] at h
    exact .inr ⟨by omega, by simpa using h.symm⟩

end Tasks
