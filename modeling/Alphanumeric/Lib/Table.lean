/-
# Finite maps with values to sum and rewrite

A table is an association list without repeated keys (`AList`), the model of a hash
map: what it holds is `lookup`, and its order is the order a hash map happens to be
walked in. On top of Mathlib's `lookup`, `insert` and `erase` come the operations a
program needs to keep counters beside a map: rewriting all values, keeping some
entries, and the sum of a weight over the values with how it changes.

Key definitions: `Table`, `Table.values`, `Table.mapValues`, `Table.keep`, `Table.total`.
Key theorems: `Table.lookup_insert_ite`, `Table.lookup_erase_ite`, `Table.total_insert`,
`Table.total_erase`, `Table.length_insert`, `Table.length_erase`.
-/
import Mathlib.Algebra.BigOperators.Group.List.Basic
import Mathlib.Data.List.AList

/-- A finite map from `κ` to `ν`. -/
abbrev Table (κ ν : Type) : Type := AList fun _ : κ => ν

namespace Table

variable {κ ν : Type} [DecidableEq κ]

theorem lookup_insert_ite (t : Table κ ν) (a k : κ) (v : ν) :
    (t.insert a v).lookup k = if k = a then some v else t.lookup k := by
  by_cases h : k = a
  · subst h
    simp
  · simp [h, AList.lookup_insert_ne h]

theorem lookup_erase_ite (t : Table κ ν) (a k : κ) :
    (t.erase a).lookup k = if k = a then none else t.lookup k := by
  by_cases h : k = a
  · subst h
    simp
  · simp [h, AList.lookup_erase_ne h]

/-! ### Values -/

def values (t : Table κ ν) : List ν := t.entries.map (·.2)

theorem mem_values {t : Table κ ν} {v : ν} : v ∈ t.values ↔ ∃ k, t.lookup k = some v := by
  simp only [values, List.mem_map]
  constructor
  · rintro ⟨⟨k, w⟩, hmem, rfl⟩
    exact ⟨k, AList.mem_lookup_iff.mpr hmem⟩
  · rintro ⟨k, hk⟩
    exact ⟨⟨k, v⟩, AList.mem_lookup_iff.mp hk, rfl⟩

/-- A relation between values of different keys holds of any two in the list. -/
theorem pairwise_values {R : ν → ν → Prop} {t : Table κ ν}
    (h : ∀ k k' v v', k ≠ k' → t.lookup k = some v → t.lookup k' = some v' → R v v') :
    t.values.Pairwise R := by
  rw [values, List.pairwise_map]
  have hkeys : t.entries.Pairwise fun a b => a.1 ≠ b.1 := List.pairwise_map.mp t.nodupKeys
  refine hkeys.imp_of_mem ?_
  rintro ⟨k, v⟩ ⟨k', v'⟩ hmem hmem' hne
  exact h k k' v v' hne (AList.mem_lookup_iff.mpr hmem) (AList.mem_lookup_iff.mpr hmem')

/-- Rewrite every value. -/
def mapValues (f : ν → ν) (t : Table κ ν) : Table κ ν :=
  ⟨t.entries.map (.map id fun _ => f), t.nodupKeys.map₂ _ _⟩

@[simp] theorem lookup_mapValues (f : ν → ν) (t : Table κ ν) (k : κ) :
    (t.mapValues f).lookup k = (t.lookup k).map f :=
  List.dlookup_map₂ k

/-- The entries whose value passes `p`. -/
def keep (p : ν → Bool) (t : Table κ ν) : Table κ ν :=
  ⟨t.entries.filter fun e => p e.2, t.nodupKeys.sublist List.filter_sublist⟩

theorem lookup_keep {p : ν → Bool} {t : Table κ ν} {k : κ} {v : ν} :
    (t.keep p).lookup k = some v ↔ t.lookup k = some v ∧ p v = true := by
  have h := @AList.mem_lookup_iff κ (fun _ => ν) _ k v
  rw [← Option.mem_def, h, ← Option.mem_def, h]
  simp [keep]

/-! ### Totals -/

/-- The sum of the weight `w` over the values. -/
def total {α : Type} [AddCommMonoid α] (w : ν → α) (t : Table κ ν) : α := (t.values.map w).sum

variable {α : Type} [AddCommMonoid α]

theorem total_insert (w : ν → α) {t : Table κ ν} {k : κ} (v : ν) (h : t.lookup k = none) :
    total w (t.insert k v) = w v + total w t := by
  have hk : k ∉ t := AList.lookup_eq_none.mp h
  rw [total, values, AList.entries_insert_of_notMem hk]
  simp [total, values]

/-- Setting a value replaces the old one's weight. -/
theorem total_set (w : ν → α) (t : Table κ ν) (k : κ) (v : ν) :
    total w (t.insert k v) = w v + total w (t.erase k) := by
  have herase : (t.erase k).entries = t.entries.kerase k := rfl
  simp [total, values, AList.insert, herase, List.kinsert]

theorem total_erase (w : ν → α) {t : Table κ ν} {k : κ} {v : ν} (h : t.lookup k = some v) :
    total w t = w v + total w (t.erase k) := by
  have hmem : k ∈ t.entries.keys := by
    rw [← AList.keys.eq_1, ← AList.mem_keys, ← AList.lookup_isSome, h]
    rfl
  obtain ⟨u, l₁, l₂, -, hl, herase⟩ := List.exists_of_kerase hmem
  have hu : u = v := by
    have hin : (⟨k, u⟩ : Sigma fun _ : κ => ν) ∈ t.entries := by simp [hl]
    have := AList.mem_lookup_iff.mpr hin
    rw [Option.mem_def, h] at this
    exact (Option.some.inj this).symm
  have hleft : total w t = (l₁.map fun e => w e.2).sum + (w v + (l₂.map fun e => w e.2).sum) := by
    simp [total, values, hl, hu, Function.comp_def]
  have hright : total w (t.erase k) = (l₁.map fun e => w e.2).sum + (l₂.map fun e => w e.2).sum := by
    have hentries : (t.erase k).entries = t.entries.kerase k := rfl
    simp [total, values, hentries, herase, Function.comp_def]
  rw [hleft, hright, add_left_comm]

/-! ### Size -/

omit [DecidableEq κ] in
theorem total_one (t : Table κ ν) : total (fun _ => 1) t = t.entries.length := by
  simp [total, values, Function.comp_def]

theorem length_insert {t : Table κ ν} {k : κ} (v : ν) (h : t.lookup k = none) :
    (t.insert k v).entries.length = t.entries.length + 1 := by
  rw [← total_one, ← total_one, total_insert _ v h, Nat.add_comm]

theorem length_erase {t : Table κ ν} {k : κ} {v : ν} (h : t.lookup k = some v) :
    t.entries.length = (t.erase k).entries.length + 1 := by
  rw [← total_one, ← total_one, total_erase _ h, Nat.add_comm]

end Table
