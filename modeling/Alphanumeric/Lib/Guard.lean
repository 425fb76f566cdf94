/-
# Guard chains in `Except`

A validator is a chain of guards: each one either lets the value through or
stops with an error. `ensure` is one guard, `checkAll` runs a guard over a
list and stops at the first failure. The lemmas turn "the chain returned `ok`"
into the conjunction of what its guards checked, so that a proof about a
validator reads its conditions off without unfolding it branch by branch.

Key definitions: `Guard.ensure`, `Guard.checkAll`.
Key theorems: `Guard.ensure_eq_ok`, `Guard.bind_eq_ok`, `Guard.checkAll_eq_ok`.
-/
import Mathlib.Data.List.Basic

namespace Guard

variable {ε α β : Type}

/-- One guard: pass if `c` holds, stop with `e` otherwise. -/
def ensure (c : Prop) [Decidable c] (e : ε) : Except ε Unit :=
  if c then .ok () else .error e

/-- Run the guard `f` over a list, stopping at its first failure. -/
def checkAll (f : α → Except ε Unit) : List α → Except ε Unit
  | [] => .ok ()
  | a :: as => do
    f a
    checkAll f as

@[simp] theorem ensure_eq_ok {c : Prop} [Decidable c] {e : ε} {u : Unit} :
    ensure c e = .ok u ↔ c := by
  unfold ensure
  split <;> simp_all

theorem bind_eq_ok {x : Except ε α} {f : α → Except ε β} {b : β} :
    (x >>= f) = .ok b ↔ ∃ a, x = .ok a ∧ f a = .ok b := by
  rcases x with e | a
  · simp [bind, Except.bind]
  · exact ⟨fun h => ⟨a, rfl, h⟩, fun ⟨_, ha, h⟩ => by cases ha; exact h⟩

@[simp] theorem bind_unit_eq_ok {x : Except ε Unit} {f : Unit → Except ε β} {b : β} :
    (x >>= f) = .ok b ↔ x = .ok () ∧ f () = .ok b := by
  rw [bind_eq_ok]
  exact ⟨fun ⟨_, hx, hf⟩ => ⟨hx, hf⟩, fun ⟨hx, hf⟩ => ⟨(), hx, hf⟩⟩

@[simp] theorem checkAll_eq_ok {f : α → Except ε Unit} :
    ∀ {l : List α} {u : Unit}, checkAll f l = .ok u ↔ ∀ a ∈ l, f a = .ok ()
  | [], u => by simp [checkAll]
  | a :: as, u => by simp [checkAll, checkAll_eq_ok (l := as)]

theorem ok_bind (a : α) (f : α → Except ε β) : (Except.ok a >>= f) = f a := rfl

theorem toOption_eq_some {x : Except ε α} {a : α} : x.toOption = some a ↔ x = .ok a := by
  rcases x with e | b
  · simp [Except.toOption]
  · simp [Except.toOption]

theorem error_bind (e : ε) (f : α → Except ε β) : (Except.error e >>= f) = .error e := rfl

theorem ensure_bind_eq_error {c : Prop} [Decidable c] {e e' : ε} {f : Unit → Except ε β}
    (h : (ensure c e >>= f) = .error e') : e = e' ∨ f () = .error e' := by
  unfold ensure at h
  by_cases hc : c
  · rw [if_pos hc] at h
    exact .inr h
  · rw [if_neg hc] at h
    cases h
    exact .inl rfl

/-- An `Option` that must be there. -/
def need (x : Option α) (e : ε) : Except ε α :=
  match x with
  | some a => .ok a
  | none => .error e

@[simp] theorem need_eq_ok {x : Option α} {e : ε} {a : α} : need x e = .ok a ↔ x = some a := by
  cases x <;> simp [need]

theorem need_bind_eq_error {x : Option α} {e e' : ε} {f : α → Except ε β}
    (h : (need x e >>= f) = .error e') : e = e' ∨ ∃ a, f a = .error e' := by
  cases x with
  | none =>
    cases h
    exact .inl rfl
  | some a => exact .inr ⟨a, h⟩

end Guard
