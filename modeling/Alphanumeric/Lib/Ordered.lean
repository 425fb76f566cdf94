/-
# Ordered maps

A map kept as its entries in increasing order of the keys: the model of a table of a
key-value store, which is walked in the order of its keys. Two maps with the same entries are
equal, whatever was inserted and erased on the way, so a map built in one way is compared
with a map built in another by what it holds. A walk over a part of the keys is a filter of
the entries; for keys that are strings, the keys between a string and an extension of it
all extend it.

Key definitions: `Ordered`, `Ordered.insert`, `Ordered.erase`, `Ordered.insertAll`,
`Ordered.eraseAll`, `Ordered.scan`, `Ordered.keys`, `Ordered.get`.
Key theorems: `Ordered.ext_mem`, `Ordered.get_eq_some`, `Ordered.mem_insertAll`, `Ordered.eraseAll_insertAll`,
`Ordered.scan_eq`, `List.isPrefix_of_between`.
-/
import Mathlib.Data.List.Sort
import Mathlib.Data.List.Lex

/-- A map from `κ` to `ν`, as its entries in increasing order of the keys. -/
structure Ordered (κ ν : Type*) [LinearOrder κ] where
  entries : List (κ × ν)
  increasing : entries.Pairwise fun a b => a.1 < b.1

namespace Ordered

variable {κ ν : Type*} [LinearOrder κ]

/-- The map with no entry. -/
def empty : Ordered κ ν := ⟨[], .nil⟩

/-- Set the value of `k`. -/
def insert (m : Ordered κ ν) (k : κ) (v : ν) : Ordered κ ν where
  entries := m.entries.filter (fun e => e.1 < k) ++ (k, v) :: m.entries.filter fun e => k < e.1
  increasing := by
    rw [List.pairwise_append, List.pairwise_cons]
    refine ⟨m.increasing.filter _, ⟨?_, m.increasing.filter _⟩, ?_⟩
    · intro e he
      exact of_decide_eq_true (List.mem_filter.mp he).2
    · intro a ha e he
      have hak : a.1 < k := of_decide_eq_true (List.mem_filter.mp ha).2
      rcases List.mem_cons.mp he with rfl | he
      · exact hak
      · exact hak.trans (of_decide_eq_true (List.mem_filter.mp he).2)

/-- Remove `k`. -/
def erase (m : Ordered κ ν) (k : κ) : Ordered κ ν where
  entries := m.entries.filter fun e => e.1 ≠ k
  increasing := m.increasing.filter _

/-- Insert the pairs of a batch, in order. -/
def insertAll (m : Ordered κ ν) (ops : List (κ × ν)) : Ordered κ ν :=
  ops.foldl (fun m op => m.insert op.1 op.2) m

/-- Remove the keys of a batch. -/
def eraseAll (m : Ordered κ ν) (keys : List κ) : Ordered κ ν := keys.foldl erase m

/-- The entries whose keys pass `p`, in increasing order. -/
def scan (m : Ordered κ ν) (p : κ → Bool) : List (κ × ν) := m.entries.filter fun e => p e.1

/-! ### What a map holds -/

theorem mem_insert {m : Ordered κ ν} {k : κ} {v : ν} {e : κ × ν} :
    e ∈ (m.insert k v).entries ↔ e = (k, v) ∨ e ∈ m.entries ∧ e.1 ≠ k := by
  simp only [insert, List.mem_append, List.mem_cons, List.mem_filter, decide_eq_true_eq, ne_iff_lt_or_gt]
  tauto

theorem mem_erase {m : Ordered κ ν} {k : κ} {e : κ × ν} :
    e ∈ (m.erase k).entries ↔ e ∈ m.entries ∧ e.1 ≠ k := by
  simp [erase]

theorem mem_scan {m : Ordered κ ν} {p : κ → Bool} {e : κ × ν} :
    e ∈ m.scan p ↔ e ∈ m.entries ∧ p e.1 = true := by
  simp [scan]

/-- A list in increasing order is determined by its members. -/
theorem eq_of_mem_iff {xs ys : List (κ × ν)} (hx : xs.Pairwise fun a b => a.1 < b.1)
    (hy : ys.Pairwise fun a b => a.1 < b.1) (h : ∀ e, e ∈ xs ↔ e ∈ ys) : xs = ys := by
  have hnodup : ∀ {zs : List (κ × ν)}, zs.Pairwise (fun a b => a.1 < b.1) → zs.Nodup := fun hz =>
    hz.imp fun hlt heq => absurd hlt (by rw [heq]; exact lt_irrefl _)
  have hperm : xs.Perm ys := (List.perm_ext_iff_of_nodup (hnodup hx) (hnodup hy)).mpr h
  refine hperm.eq_of_pairwise (fun a b _ _ hab hba => ?_) hx hy
  exact absurd (lt_trans hab hba) (lt_irrefl _)

/-- Maps with the same entries are equal. -/
theorem ext_mem {m m' : Ordered κ ν} (h : ∀ e, e ∈ m.entries ↔ e ∈ m'.entries) : m = m' := by
  cases m
  cases m'
  congr 1
  exact eq_of_mem_iff ‹_› ‹_› h

/-- **A walk lists what it should.** A list in increasing order with the entries that pass
`p` is what the walk returns. -/
theorem scan_eq {m : Ordered κ ν} {p : κ → Bool} {xs : List (κ × ν)}
    (hx : xs.Pairwise fun a b => a.1 < b.1) (h : ∀ e, e ∈ xs ↔ e ∈ m.entries ∧ p e.1 = true) :
    m.scan p = xs :=
  eq_of_mem_iff (m.increasing.filter _) hx fun e => mem_scan.trans (h e).symm

/-! ### Batches -/

theorem insertAll_append (m : Ordered κ ν) (xs ys : List (κ × ν)) :
    m.insertAll (xs ++ ys) = (m.insertAll xs).insertAll ys := List.foldl_append

theorem mem_eraseAll {keys : List κ} {m : Ordered κ ν} {e : κ × ν} :
    e ∈ (m.eraseAll keys).entries ↔ e ∈ m.entries ∧ e.1 ∉ keys := by
  induction keys generalizing m with
  | nil => simp [eraseAll]
  | cons k keys ih =>
    have hstep : m.eraseAll (k :: keys) = (m.erase k).eraseAll keys := rfl
    rw [hstep, ih, mem_erase, List.mem_cons]
    tauto

/-- What a batch leaves alone. -/
theorem mem_insertAll_of_notMem {ops : List (κ × ν)} {m : Ordered κ ν} {e : κ × ν}
    (h : e.1 ∉ ops.map Prod.fst) : e ∈ (m.insertAll ops).entries ↔ e ∈ m.entries := by
  induction ops generalizing m with
  | nil => rfl
  | cons op ops ih =>
    rw [List.map_cons, List.mem_cons, not_or] at h
    have hstep : m.insertAll (op :: ops) = (m.insert op.1 op.2).insertAll ops := rfl
    rw [hstep, ih h.2, mem_insert]
    constructor
    · rintro (rfl | hmem)
      · exact absurd rfl h.1
      · exact hmem.1
    · intro hmem
      exact Or.inr ⟨hmem, h.1⟩

theorem mem_of_mem_insertAll {ops : List (κ × ν)} {m : Ordered κ ν} {e : κ × ν}
    (h : e ∈ (m.insertAll ops).entries) : e ∈ ops ∨ e ∈ m.entries := by
  induction ops generalizing m with
  | nil => exact Or.inr h
  | cons op ops ih =>
    rcases ih (m := m.insert op.1 op.2) h with hops | hm
    · exact Or.inl (List.mem_cons_of_mem _ hops)
    · rcases mem_insert.mp hm with rfl | hm
      · exact Or.inl List.mem_cons_self
      · exact Or.inr hm.1

theorem eraseAll_append (m : Ordered κ ν) (xs ys : List κ) :
    m.eraseAll (xs ++ ys) = (m.eraseAll xs).eraseAll ys := List.foldl_append

/-- A batch that gives no key two values sets them all. -/
theorem mem_insertAll {ops : List (κ × ν)} {m : Ordered κ ν} {e : κ × ν}
    (hops : ∀ a ∈ ops, ∀ b ∈ ops, a.1 = b.1 → a = b) :
    e ∈ (m.insertAll ops).entries ↔ e ∈ ops ∨ e ∈ m.entries ∧ e.1 ∉ ops.map Prod.fst := by
  induction ops generalizing m with
  | nil => simp [insertAll]
  | cons op ops ih =>
    have hstep : m.insertAll (op :: ops) = (m.insert op.1 op.2).insertAll ops := rfl
    have hrest : ∀ a ∈ ops, ∀ b ∈ ops, a.1 = b.1 → a = b := fun a ha b hb =>
      hops a (List.mem_cons_of_mem _ ha) b (List.mem_cons_of_mem _ hb)
    have hsame : e.1 ∈ ops.map Prod.fst → e = op → e ∈ ops := by
      intro hkey heq
      obtain ⟨b, hb, hbk⟩ := List.mem_map.mp hkey
      have hbop := hops b (List.mem_cons_of_mem _ hb) op List.mem_cons_self (by rw [hbk, heq])
      rw [heq, ← hbop]
      exact hb
    rw [hstep, ih hrest, mem_insert, List.map_cons, List.mem_cons, List.mem_cons]
    constructor
    · rintro (hmem | ⟨rfl | ⟨hmem, hne⟩, hkey⟩)
      · exact Or.inl (Or.inr hmem)
      · exact Or.inl (Or.inl rfl)
      · exact Or.inr ⟨hmem, fun h => h.elim hne hkey⟩
    · rintro ((heq | hmem) | ⟨hmem, hkey⟩)
      · by_cases hk : e.1 ∈ ops.map Prod.fst
        · exact Or.inl (hsame hk heq)
        · exact Or.inr ⟨Or.inl heq, hk⟩
      · exact Or.inl hmem
      · rw [not_or] at hkey
        exact Or.inr ⟨Or.inr ⟨hmem, hkey.1⟩, hkey.2⟩

/-- **Erasing a batch undoes it**, when its keys were new. -/
theorem eraseAll_insertAll {m : Ordered κ ν} {ops : List (κ × ν)}
    (hnew : ∀ e ∈ m.entries, e.1 ∉ ops.map Prod.fst) :
    (m.insertAll ops).eraseAll (ops.map Prod.fst) = m := by
  apply ext_mem
  intro e
  rw [mem_eraseAll]
  constructor
  · intro h
    exact (mem_insertAll_of_notMem h.2).mp h.1
  · intro h
    exact ⟨(mem_insertAll_of_notMem (hnew e h)).mpr h, hnew e h⟩

/-! ### Looking a key up -/

/-- The keys, in increasing order. -/
def keys (m : Ordered κ ν) : List κ := m.entries.map Prod.fst

/-- The value of `k`. -/
def get (m : Ordered κ ν) (k : κ) : Option ν := (m.entries.find? fun e => e.1 = k).map Prod.snd

theorem mem_keys {m : Ordered κ ν} {k : κ} : k ∈ m.keys ↔ ∃ v, (k, v) ∈ m.entries := by
  simp [keys]

theorem mem_keys_of_mem {m : Ordered κ ν} {e : κ × ν} (h : e ∈ m.entries) : e.1 ∈ m.keys :=
  List.mem_map_of_mem h

theorem nodup_keys (m : Ordered κ ν) : m.keys.Nodup :=
  List.pairwise_map.mpr (m.increasing.imp fun hlt => ne_of_lt hlt)

/-- A key has one value. -/
theorem eq_of_key {m : Ordered κ ν} {e e' : κ × ν} (he : e ∈ m.entries) (he' : e' ∈ m.entries)
    (h : e.1 = e'.1) : e = e' := List.inj_on_of_nodup_map m.nodup_keys he he' h

theorem get_eq_some {m : Ordered κ ν} {k : κ} {v : ν} : m.get k = some v ↔ (k, v) ∈ m.entries := by
  constructor
  · intro h
    obtain ⟨e, he, rfl⟩ := Option.map_eq_some_iff.mp h
    have hk : e.1 = k := by simpa using List.find?_some he
    rw [← hk]
    exact List.mem_of_find?_eq_some he
  · intro h
    obtain ⟨e, he⟩ : ∃ e, m.entries.find? (fun e => e.1 = k) = some e := by
      rw [← Option.isSome_iff_exists, List.find?_isSome]
      exact ⟨(k, v), h, by simp⟩
    have hk : e.1 = k := by simpa using List.find?_some he
    have heq : e = (k, v) := eq_of_key (List.mem_of_find?_eq_some he) h hk
    rw [get, he, heq, Option.map_some]

theorem get_eq_none {m : Ordered κ ν} {k : κ} : m.get k = none ↔ k ∉ m.keys := by
  rw [Option.eq_none_iff_forall_ne_some, mem_keys, not_exists]
  exact forall_congr' fun v => not_congr get_eq_some

theorem get_isSome {m : Ordered κ ν} {k : κ} : (m.get k).isSome = true ↔ k ∈ m.keys := by
  rw [Option.isSome_iff_exists, mem_keys]
  exact exists_congr fun v => get_eq_some

theorem mem_keys_insert {m : Ordered κ ν} {k k' : κ} {v : ν} :
    k' ∈ (m.insert k v).keys ↔ k' = k ∨ k' ∈ m.keys := by
  simp only [mem_keys, mem_insert, Prod.mk.injEq]
  by_cases h : k' = k
  · simp [h]
  · simp [h]

theorem mem_keys_insertAll {ops : List (κ × ν)} {m : Ordered κ ν} {k : κ} :
    k ∈ (m.insertAll ops).keys ↔ k ∈ ops.map Prod.fst ∨ k ∈ m.keys := by
  induction ops generalizing m with
  | nil => simp [insertAll]
  | cons op ops ih =>
    have hstep : m.insertAll (op :: ops) = (m.insert op.1 op.2).insertAll ops := rfl
    rw [hstep, ih, mem_keys_insert, List.map_cons, List.mem_cons]
    tauto

end Ordered

namespace List

variable {α : Type*} [LinearOrder α]

/-- Strings of one length followed by others compare by their first parts, then by the rest. -/
theorem append_lt_append_iff : ∀ {xs ys zs ws : List α}, xs.length = ys.length →
    (xs ++ zs < ys ++ ws ↔ xs < ys ∨ xs = ys ∧ zs < ws)
  | [], [], zs, ws, _ => by simp
  | x :: xs, y :: ys, zs, ws, h => by
    have ih : xs ++ zs < ys ++ ws ↔ xs < ys ∨ xs = ys ∧ zs < ws := append_lt_append_iff (Nat.succ.inj h)
    rw [List.cons_append, List.cons_append, List.cons_lt_cons_iff, List.cons_lt_cons_iff, ih,
      List.cons.injEq]
    tauto

/-- What lies between a string and an extension of it extends it. -/
theorem isPrefix_of_between : ∀ {xs ys zs : List α}, xs ≤ ys → ys < xs ++ zs → xs <+: ys
  | [], ys, _, _, _ => List.nil_prefix
  | x :: xs, [], _, hle, _ => absurd hle (not_le.mpr (List.nil_lt_cons x xs))
  | x :: xs, y :: ys, zs, hle, hlt => by
    rw [← not_lt, List.cons_lt_cons_iff] at hle
    rw [List.cons_append, List.cons_lt_cons_iff] at hlt
    push Not at hle
    rcases hlt with hyx | ⟨rfl, hlt⟩
    · exact absurd hyx (not_lt.mpr hle.1)
    · have hle' : xs ≤ ys := hle.2 rfl
      exact (List.prefix_cons_inj _).mpr (isPrefix_of_between hle' hlt)

end List
