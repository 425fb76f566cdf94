/-
# Systematic polynomial codes

A word of `k` symbols over a field is the polynomial of degree below `k` that takes the
symbols at `k` nodes; further symbols are its values at further nodes. Any `k` of all the
symbols give the polynomial back, and so every other symbol.

Key definitions: `SystematicCode.symbol`.
Key theorems: `SystematicCode.symbol_data`, `SystematicCode.symbol_recover`.
-/
import Mathlib.LinearAlgebra.Lagrange

namespace SystematicCode

variable {F ι : Type} [Field F] [DecidableEq ι] {v : ι → F} {s t : Finset ι} {r c : ι → F}

/-- The symbol at node `i` of the word that has the symbols `r` at the nodes `s`. -/
noncomputable def symbol (v : ι → F) (s : Finset ι) (r : ι → F) (i : ι) : F :=
  (Lagrange.interpolate s v r).eval (v i)

theorem symbol_data {i : ι} (hs : Set.InjOn v s) (hi : i ∈ s) : symbol v s r i = r i :=
  Lagrange.eval_interpolate_at_node r hs hi

/-- **Recovery.** As many symbols as the word has give the same word, wherever they stand. -/
theorem symbol_recover (hs : Set.InjOn v s) (ht : Set.InjOn v t) (hcard : s.card ≤ t.card)
    (hc : ∀ j ∈ t, symbol v s r j = c j) (i : ι) : symbol v t c i = symbol v s r i := by
  have hdegree : (Lagrange.interpolate s v r).degree < t.card :=
    (Lagrange.degree_interpolate_lt r hs).trans_le (by exact_mod_cast hcard)
  have hsame : Lagrange.interpolate s v r = Lagrange.interpolate t v c :=
    Lagrange.eq_interpolate_of_eval_eq c ht hdegree hc
  rw [symbol, symbol, hsame]

end SystematicCode
