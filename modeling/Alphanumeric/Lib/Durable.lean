/-
# Two copies of a store

What a process sees of a store, and what a crash leaves of it. Writes change what is seen;
a durable commit makes it what a crash leaves, and after a crash that is what is seen. What
every write keeps of the visible copy holds of both copies at any time.

Key definitions: `Durable.set`, `Durable.flush`, `Durable.crash`, `Durable.Both`.
Key theorems: `Durable.Both.set`, `Durable.Both.flush`, `Durable.Both.crash`.
-/
import Mathlib.Tactic.Common

structure Durable (α : Type) where
  visible : α
  durable : α
deriving DecidableEq

namespace Durable

variable {α : Type} {P : α → Prop} {d : Durable α} {a : α}

def set (d : Durable α) (a : α) : Durable α := { d with visible := a }

def flush (d : Durable α) : Durable α := ⟨d.visible, d.visible⟩

def crash (d : Durable α) : Durable α := ⟨d.durable, d.durable⟩

@[simp] theorem visible_set : (d.set a).visible = a := rfl
@[simp] theorem durable_set : (d.set a).durable = d.durable := rfl
@[simp] theorem visible_flush : d.flush.visible = d.visible := rfl
@[simp] theorem durable_flush : d.flush.durable = d.visible := rfl
@[simp] theorem visible_crash : d.crash.visible = d.durable := rfl
@[simp] theorem durable_crash : d.crash.durable = d.durable := rfl

/-- It holds of what is seen and of what a crash leaves. -/
structure Both (P : α → Prop) (d : Durable α) : Prop where
  visible : P d.visible
  durable : P d.durable

theorem Both.set (h : Both P d) (ha : P a) : Both P (d.set a) := ⟨ha, h.durable⟩

theorem Both.flush (h : Both P d) : Both P d.flush := ⟨h.visible, h.visible⟩

theorem Both.crash (h : Both P d) : Both P d.crash := ⟨h.durable, h.durable⟩

end Durable
