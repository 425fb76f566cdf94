/-
# A watch channel

A channel that keeps only its last value. A sender overwrites it and never waits. A receiver
remembers the version it has seen: it is woken when there is a newer one, and reads whatever
value is there then. `sent` keeps the values since the receiver subscribed; its length is the
version.

Key definitions: `Channel`, `Channel.send`, `Channel.value`, `Channel.changed`.
Key theorems: `value_of_changed`, `send_get`.
-/
import Mathlib.Data.List.Basic
import Mathlib.Data.Nat.Notation

namespace Watch

variable {α : Type}

structure Channel (α : Type) where
  initial : α
  sent : List α

namespace Channel

def version (c : Channel α) : ℕ := c.sent.length

/-- `borrow`. -/
def value (c : Channel α) : α := c.sent.getLastD c.initial

def send (c : Channel α) (a : α) : Channel α := { c with sent := c.sent ++ [a] }

/-- Whether `changed` returns to a receiver that has seen the version `seen`. -/
def changed (c : Channel α) (seen : ℕ) : Bool := seen != c.version

@[simp] theorem version_send (c : Channel α) (a : α) : (c.send a).version = c.version + 1 := by
  simp [version, send]

@[simp] theorem value_send (c : Channel α) (a : α) : (c.send a).value = a := by
  simp [value, send]

/-- What was sent stays what it was. -/
theorem send_get (c : Channel α) (a : α) {v : ℕ} {x : α} (h : c.sent[v]? = some x) :
    (c.send a).sent[v]? = some x := by
  have hlt : v < c.sent.length := (List.getElem?_eq_some_iff.mp h).1
  rw [send, List.getElem?_append_left hlt, h]

/-- The value of a channel something was sent on is the last one sent. -/
theorem value_of_changed (c : Channel α) {v : ℕ} (h : c.version = v + 1) : c.sent[v]? = some c.value := by
  obtain ⟨rest, x, hx⟩ := List.eq_nil_or_concat c.sent |>.resolve_left fun hnil => by
    simp [version, hnil] at h
  have hlen : rest.length = v := by
    have : c.sent.length = v + 1 := h
    simpa [hx] using this
  simp [value, hx, ← hlen]

end Channel

end Watch
