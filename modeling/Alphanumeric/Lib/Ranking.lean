/-
# Ranking by a comparison

Lists sorted by an `Ordering`-valued comparison (`mergeSort`), when they are determined by what is in them, and how a
first part that some test singles out comes first. A merge of several sorted chains by a heap that holds one
cursor of each: it visits everything in the chains, once each and in order.

Key definitions: `Ranking.sort`, `Ranking.extract`, `Ranking.Chain`, `Ranking.merge`.
Key theorems: `Ranking.sort_eq`, `Ranking.sort_filter`.
-/
import Mathlib.Data.List.Sort
import Mathlib.Tactic

namespace Ranking

open Std

variable {α β : Type*}

/-! ### Sorting -/

/-- By `cmp`, first things first; what compares equal keeps its order. -/
def sort (cmp : α → α → Ordering) (xs : List α) : List α := xs.mergeSort fun a b => (cmp a b).isLE

section

variable {cmp : α → α → Ordering}

theorem sort_perm (xs : List α) : (sort cmp xs).Perm xs := List.mergeSort_perm _ _

@[simp] theorem mem_sort {a : α} {xs : List α} : a ∈ sort cmp xs ↔ a ∈ xs := List.mem_mergeSort

/-- Comparisons that agree on a list, up to a renaming of what is in it. -/
theorem map_sort {cmp' : β → β → Ordering} {f : α → β} {xs : List α}
    (h : ∀ a ∈ xs, ∀ b ∈ xs, cmp a b = cmp' (f a) (f b)) : (sort cmp xs).map f = sort cmp' (xs.map f) :=
  List.map_mergeSort fun a ha b hb => congrArg Ordering.isLE (h a ha b hb)

theorem isLE_total [OrientedCmp cmp] (a b : α) : (cmp a b).isLE = true ∨ (cmp b a).isLE = true := by
  by_cases h : (cmp a b).isLE = true
  · exact Or.inl h
  · exact Or.inr (Ordering.isLE_of_eq_lt (OrientedCmp.lt_of_not_isLE h))

/-- Two things in a list come in one order or the other. -/
theorem sublist_or_sublist : ∀ {xs : List α} {a b : α}, a ∈ xs → b ∈ xs → a ≠ b →
    [a, b].Sublist xs ∨ [b, a].Sublist xs
  | x :: xs, a, b, ha, hb, hne => by
    rcases List.mem_cons.mp ha with rfl | ha'
    · exact Or.inl ((List.singleton_sublist.mpr ((List.mem_cons.mp hb).resolve_left hne.symm)).cons_cons a)
    · rcases List.mem_cons.mp hb with rfl | hb'
      · exact Or.inr ((List.singleton_sublist.mpr ha').cons_cons b)
      · exact (sublist_or_sublist ha' hb' hne).imp (List.Sublist.cons x) (List.Sublist.cons x)

/-- Where nothing repeats, in only one. -/
theorem not_sublist_swap : ∀ {xs : List α} {a b : α}, xs.Nodup → [a, b].Sublist xs → ¬ [b, a].Sublist xs
  | x :: xs, a, b, hnodup, hab, hba => by
    obtain ⟨hx, hxs⟩ := List.nodup_cons.mp hnodup
    cases hab with
    | cons _ hab =>
      cases hba with
      | cons _ hba => exact not_sublist_swap hxs hab hba
      | cons_cons _ hba => exact hx (hab.subset (List.mem_cons_of_mem _ List.mem_cons_self))
    | cons_cons _ hab =>
      have hb := List.singleton_sublist.mp hab
      cases hba with
      | cons _ hba => exact hx (hba.subset (List.mem_cons_of_mem _ List.mem_cons_self))
      | cons_cons _ _ => exact hx hb

variable [TransCmp cmp]

theorem sort_pairwise (xs : List α) : (sort cmp xs).Pairwise fun a b => (cmp a b).isLE = true :=
  List.pairwise_mergeSort (fun _ _ _ => TransCmp.isLE_trans) (fun a b => Bool.or_eq_true_iff.mpr (isLE_total a b)) xs

/-- **A sorted list is determined** by what is in it, where only a thing itself compares equal to it. -/
theorem sort_eq {xs ys : List α} (hperm : xs.Perm ys) (hsorted : xs.Pairwise fun a b => (cmp a b).isLE = true)
    (hself : ∀ a ∈ xs, ∀ b ∈ xs, cmp a b = .eq → a = b) : xs = sort cmp ys := by
  refine List.Perm.eq_of_pairwise (fun a b ha hb hab hba => ?_) hsorted (sort_pairwise ys)
    (hperm.trans (sort_perm ys).symm)
  exact hself a ha b (hperm.mem_iff.mpr (mem_sort.mp hb)) (OrientedCmp.isLE_antisymm hab hba)

/-- Sorting is stable: what compares equal comes in the order it had. -/
theorem sort_stable {xs : List α} (hnodup : xs.Nodup) {R : α → α → Prop} (hR : xs.Pairwise R) :
    (sort cmp xs).Pairwise fun a b => cmp a b = .lt ∨ cmp a b = .eq ∧ R a b := by
  have hnodup' : (sort cmp xs).Nodup := (sort_perm xs).nodup_iff.mpr hnodup
  refine List.pairwise_iff_forall_sublist.mpr fun {a b} hab => ?_
  have hle := List.pairwise_iff_forall_sublist.mp (sort_pairwise xs) hab
  rcases Ordering.isLE_iff_eq_lt_or_eq_eq.mp hle with hlt | heq
  · exact Or.inl hlt
  · refine Or.inr ⟨heq, List.pairwise_iff_forall_sublist.mp hR ?_⟩
    have ha : a ∈ xs := mem_sort.mp (hab.subset List.mem_cons_self)
    have hb : b ∈ xs := mem_sort.mp (hab.subset (List.mem_cons_of_mem _ List.mem_cons_self))
    rcases sublist_or_sublist ha hb (List.nodup_iff_sublist.mp hnodup' a ∘ fun h => h ▸ hab) with h | h
    · exact h
    · have hback : [b, a].Sublist (sort cmp xs) := by
        refine List.pair_sublist_mergeSort (fun _ _ _ => TransCmp.isLE_trans)
          (fun a b => Bool.or_eq_true_iff.mpr (isLE_total a b)) ?_ h
        rw [OrientedCmp.eq_symm heq]
        rfl
      exact absurd hback (not_sublist_swap hnodup' hab)

/-- What a test singles out comes first, if whatever comes before it passes too. -/
theorem sort_filter {xs : List α} {p : α → Bool} (hself : ∀ a ∈ xs, ∀ b ∈ xs, cmp a b = .eq → a = b)
    (hdown : ∀ a ∈ xs, ∀ b ∈ xs, p b = true → p a = false → cmp b a = .lt) :
    sort cmp xs = sort cmp (xs.filter p) ++ sort cmp (xs.filter fun a => !p a) := by
  symm
  refine sort_eq ?_ ?_ ?_
  · exact ((sort_perm _).append (sort_perm _)).trans (List.filter_append_perm p xs)
  · refine List.pairwise_append.mpr ⟨sort_pairwise _, sort_pairwise _, fun a ha b hb => ?_⟩
    obtain ⟨hax, hap⟩ := List.mem_filter.mp (mem_sort.mp ha)
    obtain ⟨hbx, hbp⟩ := List.mem_filter.mp (mem_sort.mp hb)
    rw [hdown b hbx a hax hap (by simpa using hbp)]
    rfl
  · intro a ha b hb
    have hin : ∀ c ∈ sort cmp (xs.filter p) ++ sort cmp (xs.filter fun a => !p a), c ∈ xs := by
      intro c hc
      rcases List.mem_append.mp hc with hc | hc
      · exact List.mem_of_mem_filter (mem_sort.mp hc)
      · exact List.mem_of_mem_filter (mem_sort.mp hc)
    exact hself a (hin a ha) b (hin b hb)

end

/-! ### Taking the first -/

/-- The first of a heap by `before`, and the rest. -/
def extract (before : α → α → Bool) : List α → Option (α × List α)
  | [] => none
  | a :: as =>
    match extract before as with
    | none => some (a, [])
    | some (b, bs) => if before a b then some (a, b :: bs) else some (b, a :: bs)

variable {before : α → α → Bool}

@[simp] theorem extract_eq_none : ∀ {as : List α}, extract before as = none ↔ as = []
  | [] => by simp [extract]
  | a :: as => by
    rw [extract]
    split
    · simp
    · split_ifs <;> simp

theorem extract_perm : ∀ {as rest : List α} {a : α}, extract before as = some (a, rest) → (a :: rest).Perm as
  | [], rest, a, h => by simp [extract] at h
  | b :: bs, rest, a, h => by
    rw [extract] at h
    split at h
    · rename_i hnone
      rw [extract_eq_none] at hnone
      cases h
      rw [hnone]
    · rename_i c cs hsome
      have hperm := extract_perm hsome
      split_ifs at h
      · cases h
        exact hperm.cons b
      · cases h
        exact (List.Perm.swap b _ cs).trans (hperm.cons b)

theorem extract_first (htotal : ∀ a b, before a b = true ∨ before b a = true)
    (htrans : ∀ a b c, before a b = true → before b c = true → before a c = true) :
    ∀ {as rest : List α} {a : α}, extract before as = some (a, rest) → ∀ b ∈ as, before a b = true
  | [], rest, a, h => by simp [extract] at h
  | b :: bs, rest, a, h => by
    rw [extract] at h
    split at h
    · rename_i hnone
      rw [extract_eq_none] at hnone
      cases h
      intro c hc
      rw [hnone, List.mem_singleton] at hc
      rw [hc]
      exact (htotal b b).elim id id
    · rename_i c cs hsome
      have hfirst := extract_first htotal htrans hsome
      split_ifs at h with hbc
      · cases h
        intro d hd
        rcases List.mem_cons.mp hd with rfl | hd
        · exact (htotal d d).elim id id
        · exact htrans b c d hbc (hfirst d hd)
      · cases h
        intro d hd
        rcases List.mem_cons.mp hd with rfl | hd
        · exact (htotal d a).resolve_left hbc
        · exact hfirst d hd

theorem extract_map {before : β → β → Bool} {f : α → β} : ∀ as : List α, extract before (as.map f) =
    (extract (fun a b => before (f a) (f b)) as).map fun found => (f found.1, found.2.map f)
  | [] => rfl
  | a :: as => by
    rw [List.map_cons, extract, extract, extract_map as]
    cases extract (fun a b => before (f a) (f b)) as with
    | none => rfl
    | some found =>
      simp only [Option.map_some]
      split_ifs <;> rfl

/-- Only the comparisons between different places count. -/
theorem extract_congr {before' : α → α → Bool} : ∀ {as : List α},
    as.Pairwise (fun a b => before a b = before' a b ∧ before b a = before' b a) →
    extract before as = extract before' as
  | [], _ => rfl
  | a :: as, h => by
    obtain ⟨ha, has⟩ := List.pairwise_cons.mp h
    rw [extract, extract, extract_congr has]
    split
    · rfl
    · rename_i b bs hsome
      rw [(ha b ((extract_perm hsome).mem_iff.mp List.mem_cons_self)).1]

/-! ### Merging -/

/-- A cursor and those that come after it. -/
inductive Chain (next : α → Option α) : α → List α → Prop where
  | last {a : α} : next a = none → Chain next a [a]
  | step {a b : α} {as : List α} : next a = some b → Chain next b as → Chain next a (a :: as)

/-- Visit the first cursor of the heap and move it on, until the heap is empty. -/
def merge (before : α → α → Bool) (next : α → Option α) : ℕ → List α → List α
  | 0, _ => []
  | fuel + 1, heap =>
    match extract before heap with
    | none => []
    | some (a, rest) => a :: merge before next fuel ((next a).toList ++ rest)

/-- The cursors of one list, if each moves on to the next. -/
theorem chain_drop {next : α → Option α} {xs : List α} (h : ∀ k a, xs[k]? = some a → next a = xs[k + 1]?) {k : ℕ}
    {a : α} (ha : xs[k]? = some a) : Chain next a (xs.drop k) := by
  obtain ⟨hk, rfl⟩ := List.getElem?_eq_some_iff.mp ha
  rw [List.drop_eq_getElem_cons hk]
  cases hnext : xs[k + 1]? with
  | none =>
    rw [List.drop_eq_nil_of_le (List.getElem?_eq_none_iff.mp hnext)]
    exact .last ((h k _ ha).trans hnext)
  | some b =>
    have hlt := (List.getElem?_eq_some_iff.mp hnext).1
    exact .step ((h k _ ha).trans hnext) (chain_drop h hnext)
termination_by xs.length - k

theorem Chain.head_mem {next : α → Option α} {a : α} {as : List α} (h : Chain next a as) : a ∈ as := by
  cases h <;> exact List.mem_cons_self

section

variable {cmp : α → α → Ordering} {next : α → Option α}

/-- Between the chains, the heap compares as `cmp` does. -/
def Agree (before : α → α → Bool) (cmp : α → α → Ordering) (l l' : List α) : Prop :=
  ∀ a ∈ l, ∀ b ∈ l', before a b = (cmp a b).isLE ∧ before b a = (cmp b a).isLE

theorem Agree.symm {l l' : List α} (h : Agree before cmp l l') : Agree before cmp l' l :=
  fun a ha b hb => (h b hb a ha).symm

theorem exists_chain : ∀ {heap : List α} {chains : List (List α)}, List.Forall₂ (Chain next) heap chains →
    ∀ {a : α}, a ∈ heap → ∃ l ∈ chains, Chain next a l
  | _, _, .nil, _, ha => by cases ha
  | _, _, .cons h hrest, a, ha => by
    rcases List.mem_cons.mp ha with rfl | ha
    · exact ⟨_, List.mem_cons_self, h⟩
    · obtain ⟨l, hl, hchain⟩ := exists_chain hrest ha
      exact ⟨l, List.mem_cons_of_mem _ hl, hchain⟩

theorem extract_agree : ∀ {heap : List α} {chains : List (List α)}, List.Forall₂ (Chain next) heap chains →
    chains.Pairwise (Agree before cmp) → extract before heap = extract (fun a b => (cmp a b).isLE) heap := by
  intro heap chains hchains hagree
  refine extract_congr ?_
  induction hchains with
  | nil => exact List.Pairwise.nil
  | cons hchain hchains ih =>
    obtain ⟨hfirst, hrest⟩ := List.pairwise_cons.mp hagree
    refine List.pairwise_cons.mpr ⟨fun b hb => ?_, ih hrest⟩
    obtain ⟨l, hl, hbl⟩ := exists_chain hchains hb
    exact hfirst l hl _ hchain.head_mem b hbl.head_mem

/-- What the first cursor leaves: its own chain, a step on, and the others. -/
theorem Chain.rest {a : α} {as : List α} {rest : List α} {chains : List (List α)} (h : Chain next a as)
    (hrest : List.Forall₂ (Chain next) rest chains) : ∃ left, List.Forall₂ (Chain next) ((next a).toList ++ rest) left ∧
      as ++ chains.flatten = a :: left.flatten ∧ left.Sublist (as.tail :: chains) := by
  cases h with
  | last hnone =>
    rw [hnone]
    exact ⟨chains, hrest, rfl, List.sublist_cons_self _ _⟩
  | step hsome h =>
    rename_i b bs
    rw [hsome]
    exact ⟨bs :: chains, .cons h hrest, rfl, List.Sublist.refl _⟩

/-- Everything in sorted chains lies at a cursor or behind it. -/
theorem exists_before [TransCmp cmp] : ∀ {heap : List α} {chains : List (List α)},
    List.Forall₂ (Chain next) heap chains → (∀ l ∈ chains, l.Pairwise fun a b => (cmp a b).isLE = true) →
    ∀ {b : α}, b ∈ chains.flatten → ∃ a ∈ heap, (cmp a b).isLE = true
  | _, _, .nil, _, b, hb => by cases hb
  | a :: heap, l :: chains, .cons h hrest, hsorted, b, hb => by
    rw [List.forall_mem_cons] at hsorted
    rcases List.mem_append.mp (List.flatten_cons ▸ hb) with hb | hb
    · refine ⟨a, List.mem_cons_self, ?_⟩
      have hself : (cmp a a).isLE = true := (isLE_total a a).elim id id
      cases h with
      | last _ =>
        rw [List.mem_singleton.mp hb]
        exact hself
      | step _ _ =>
        rcases List.mem_cons.mp hb with rfl | hb
        · exact hself
        · exact (List.pairwise_cons.mp hsorted.1).1 b hb
    · obtain ⟨c, hc, hcb⟩ := exists_before hrest hsorted.2 hb
      exact ⟨c, List.mem_cons_of_mem _ hc, hcb⟩

/-- **Merging sorts.** Chains that are sorted each, and among which the heap compares rightly, are visited
completely and in order. -/
theorem merge_sorted [TransCmp cmp] : ∀ {fuel : ℕ} {heap : List α} {chains : List (List α)},
    List.Forall₂ (Chain next) heap chains → chains.flatten.length ≤ fuel →
    (∀ l ∈ chains, l.Pairwise fun a b => (cmp a b).isLE = true) → chains.Pairwise (Agree before cmp) →
    (merge before next fuel heap).Perm chains.flatten ∧
      (merge before next fuel heap).Pairwise fun a b => (cmp a b).isLE = true
  | 0, heap, chains, _, hfuel, _, _ => by
    rw [Nat.le_zero, List.length_eq_zero_iff] at hfuel
    rw [merge, hfuel]
    exact ⟨List.Perm.refl _, List.Pairwise.nil⟩
  | fuel + 1, heap, chains, hchains, hfuel, hsorted, hagree => by
    rw [merge, extract_agree hchains hagree]
    cases hextract : extract (fun a b => (cmp a b).isLE) heap with
    | none =>
      rw [extract_eq_none] at hextract
      rw [hextract, List.forall₂_nil_left_iff] at hchains
      rw [hchains]
      exact ⟨List.Perm.refl _, List.Pairwise.nil⟩
    | some found =>
      obtain ⟨a, rest⟩ := found
      dsimp only
      have hfirst : ∀ b ∈ heap, (cmp a b).isLE = true :=
        extract_first isLE_total (fun _ _ _ => TransCmp.isLE_trans) hextract
      -- the chains again, that of the first cursor first
      obtain ⟨_, hchains', hperm⟩ := List.perm_comp_forall₂ (extract_perm hextract) hchains
      obtain _ | @⟨_, as, _, others, hchain, hothers⟩ := hchains'
      obtain ⟨hagree₁, hagree₂⟩ := List.pairwise_cons.mp ((hperm.pairwise_iff fun h => h.symm).mpr hagree)
      obtain ⟨left, hleft, hflatten, hsub⟩ := hchain.rest hothers
      have hflat : (a :: left.flatten).Perm chains.flatten := by
        rw [← hflatten, ← List.flatten_cons]
        exact hperm.flatten
      have hlength : left.flatten.length ≤ fuel := by
        have hsame := hflat.length_eq
        rw [List.length_cons] at hsame
        omega
      have hsorted' : ∀ l ∈ left, l.Pairwise fun a b => (cmp a b).isLE = true := by
        intro l hl
        rcases List.mem_cons.mp (hsub.subset hl) with rfl | hl
        · exact (hsorted as (hperm.mem_iff.mp List.mem_cons_self)).sublist (List.tail_sublist as)
        · exact hsorted l (hperm.mem_iff.mp (List.mem_cons_of_mem _ hl))
      have hagree' : left.Pairwise (Agree before cmp) := by
        refine (List.pairwise_cons.mpr ⟨fun l hl => ?_, hagree₂⟩).sublist hsub
        exact fun b hb => hagree₁ l hl b (List.mem_of_mem_tail hb)
      obtain ⟨hvisit, horder⟩ := merge_sorted hleft hlength hsorted' hagree'
      refine ⟨(hvisit.cons a).trans hflat, List.pairwise_cons.mpr ⟨fun b hb => ?_, horder⟩⟩
      obtain ⟨c, hc, hcb⟩ := exists_before hchains hsorted
        (hflat.mem_iff.mp (List.mem_cons_of_mem _ (hvisit.mem_iff.mp hb)))
      exact TransCmp.isLE_trans (hfirst c hc) hcb

end

end Ranking
