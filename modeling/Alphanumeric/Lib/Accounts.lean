/-
# Shared accounts and who holds what

Tasks take amounts from shared accounts and give them back later: permits of a
semaphore, units of a gauge. A task carries the list of what it holds. The accounts
are balanced when each shows what the tasks hold of it together, and taking, giving
back, moving on and starting a task keep them balanced; a balanced account is never
lowered by more than it shows. A task that gives back everything it holds, in any
order, ends up holding nothing.

Key definitions: `Accounts.on`, `Accounts.raise`, `Accounts.lower`, `Accounts.Balanced`.
Key theorems: `Accounts.Balanced.take`, `Accounts.Balanced.give`, `Accounts.Balanced.le`.
-/
import Alphanumeric.Lib.Tasks

namespace Accounts

open Tasks

variable {α τ : Type} [DecidableEq α]

/-- What a list of holdings has on one account. -/
def on (a : α) (held : List (α × ℕ)) : ℕ := ((held.filter fun h => h.1 = a).map Prod.snd).sum

@[simp] theorem on_nil (a : α) : on a [] = 0 := rfl

theorem on_cons (a : α) (h : α × ℕ) (held : List (α × ℕ)) :
    on a (h :: held) = (if h.1 = a then h.2 else 0) + on a held := by
  by_cases heq : h.1 = a
  · simp [on, heq]
  · simp [on, heq]

theorem on_perm {a : α} {held held' : List (α × ℕ)} (h : held.Perm held') : on a held = on a held' :=
  ((h.filter _).map _).sum_eq

theorem on_erase {a : α} {h : α × ℕ} {held : List (α × ℕ)} (hmem : h ∈ held) :
    on a held = (if h.1 = a then h.2 else 0) + on a (held.erase h) := by
  rw [on_perm (List.perm_cons_erase hmem), on_cons]

theorem le_on {h : α × ℕ} {held : List (α × ℕ)} (hmem : h ∈ held) : h.2 ≤ on h.1 held := by
  rw [on_erase hmem, if_pos rfl]
  exact Nat.le_add_right _ _

theorem on_eq_zero {a : α} {held : List (α × ℕ)} (h : ∀ x ∈ held, x.1 ≠ a) : on a held = 0 := by
  have hnone : held.filter (fun x => decide (x.1 = a)) = [] := by
    rw [List.filter_eq_nil_iff]
    intro x hx
    simpa using h x hx
  simp [on, hnone]

/-- Who holds a unit of `a`, once, only together with a unit of `b` holds no more of `a` than of `b`. -/
theorem on_le_on {a b : α} {held : List (α × ℕ)} (hnodup : held.Nodup) (hunit : ∀ x ∈ held, x.1 = a → x.2 = 1)
    (hboth : (a, 1) ∈ held → (b, 1) ∈ held) : on a held ≤ on b held := by
  by_cases hmem : (a, 1) ∈ held
  · have hrest : on a (held.erase (a, 1)) = 0 := by
      apply on_eq_zero
      intro x hx heq
      obtain ⟨hne, hx⟩ := (hnodup.mem_erase_iff).mp hx
      exact hne (Prod.ext heq (hunit x hx heq))
    rw [on_erase hmem, if_pos rfl, hrest]
    exact le_on (hboth hmem)
  · have hnone : on a held = 0 := by
      apply on_eq_zero
      intro x hx heq
      have : x = (a, 1) := Prod.ext heq (hunit x hx heq)
      exact hmem (this ▸ hx)
    omega

/-- `fetch_add`, or permits taken. -/
def raise (balance : α → ℕ) (b : α) (n : ℕ) : α → ℕ := fun x => if x = b then balance x + n else balance x

/-- 64-bit subtraction, which wraps. -/
def wrapSub (a n : ℕ) : ℕ := if n ≤ a then a - n else a + 2 ^ 64 - n

/-- `fetch_sub`, or permits given back. -/
def lower (balance : α → ℕ) (b : α) (n : ℕ) : α → ℕ :=
  fun x => if x = b then wrapSub (balance x) n else balance x

/-- Every account shows what the tasks hold of it. -/
def Balanced (balance : α → ℕ) (holds : τ → List (α × ℕ)) (tasks : List τ) : Prop :=
  ∀ a, balance a = weigh (fun t => on a (holds t)) tasks

variable {balance : α → ℕ} {holds : τ → List (α × ℕ)} {tasks : List τ} {i : ℕ} {t t' : τ}

/-- An account shows at least what any one task holds of it. -/
theorem Balanced.le (h : Balanced balance holds tasks) (ht : t ∈ tasks) {x : α × ℕ} (hx : x ∈ holds t) :
    x.2 ≤ balance x.1 := by
  rw [h x.1]
  exact (le_on hx).trans (weigh_le (fun t => on x.1 (holds t)) ht)

/-- A task moves on without taking or giving. -/
theorem Balanced.move (h : Balanced balance holds tasks) (ht : tasks[i]? = some t)
    (hsame : holds t' = holds t) : Balanced balance holds (tasks.set i t') := by
  intro a
  have hset := weigh_set (fun t => on a (holds t)) t' ht
  have := h a
  simp only [hsame] at hset
  omega

theorem Balanced.take (h : Balanced balance holds tasks) (ht : tasks[i]? = some t) {x : α × ℕ}
    (htaken : holds t' = x :: holds t) : Balanced (raise balance x.1 x.2) holds (tasks.set i t') := by
  intro a
  have hset := weigh_set (fun t => on a (holds t)) t' ht
  have := h a
  simp only [htaken, on_cons] at hset
  by_cases ha : a = x.1
  · simp only [raise, ha, if_true] at hset this ⊢
    omega
  · have hne : x.1 ≠ a := fun heq => ha heq.symm
    simp only [raise, ha, hne, if_false] at hset ⊢
    omega

theorem Balanced.give (h : Balanced balance holds tasks) (ht : tasks[i]? = some t) {x : α × ℕ}
    (hx : x ∈ holds t) (hgiven : holds t' = (holds t).erase x) :
    Balanced (lower balance x.1 x.2) holds (tasks.set i t') := by
  have hle := h.le (List.mem_of_getElem? ht) hx
  intro a
  have hset := weigh_set (fun t => on a (holds t)) t' ht
  have := h a
  have herase := on_erase (a := a) hx
  simp only [hgiven] at hset
  by_cases ha : a = x.1
  · simp only [lower, wrapSub, ha, if_true, hle] at hset this herase ⊢
    omega
  · have hne : x.1 ≠ a := fun heq => ha heq.symm
    simp only [lower, ha, hne, if_false] at hset herase ⊢
    omega

theorem Balanced.push (h : Balanced balance holds tasks) (hnothing : holds t = []) :
    Balanced balance holds (tasks ++ [t]) := by
  intro a
  rw [weigh_append, weigh_singleton, hnothing, on_nil, Nat.add_zero]
  exact h a

theorem Balanced.eq_zero (h : Balanced balance holds tasks) (a : α)
    (hnone : ∀ t ∈ tasks, ∀ x ∈ holds t, x.1 ≠ a) : balance a = 0 := by
  rw [h a, weigh, List.sum_eq_zero_iff]
  intro n hn
  obtain ⟨t, ht, rfl⟩ := List.mem_map.mp hn
  exact on_eq_zero (hnone t ht)

end Accounts
