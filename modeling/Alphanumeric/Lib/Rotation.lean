/-
# Weighted rotations

Entries with weights share a cycle of slots: each owns as many consecutive slots as it weighs. The owner of a slot
is found in the table of cumulative weights, by bisection. Over a whole cycle, wherever it starts, an
owner has exactly the slots that its entries weigh together.

Key definitions: `Rotation.partitionPoint`, `Rotation.cumulative`, `Rotation.slots`, `Rotation.share`.
Key theorems: `Rotation.partitionPoint_append`, `Rotation.owner`, `Rotation.card_window`.
-/
import Mathlib.Data.Nat.Periodic
import Mathlib.Tactic

namespace Rotation

/-! ### Bisection -/

/-- The first place in `lo … hi` where `p` fails, if it holds up to some place only. -/
def bisect (p : ℕ → Bool) : ℕ → ℕ → ℕ → ℕ
  | 0, lo, _ => lo
  | fuel + 1, lo, hi =>
    if lo < hi then
      let mid := lo + (hi - lo) / 2
      if p mid then bisect p fuel (mid + 1) hi else bisect p fuel lo mid
    else lo

variable {α : Type*}

/-- `slice::partition_point`. -/
def partitionPoint (p : α → Bool) (xs : List α) : ℕ :=
  bisect (fun i => xs[i]?.any p) xs.length 0 xs.length

theorem bisect_eq {p : ℕ → Bool} {k : ℕ} (hbelow : ∀ i < k, p i = true) (habove : ∀ i, k ≤ i → p i = false) :
    ∀ {fuel lo hi : ℕ}, lo ≤ k → k ≤ hi → hi - lo ≤ fuel → bisect p fuel lo hi = k
  | 0, lo, hi, hlo, hhi, hfuel => by
    rw [bisect]
    omega
  | fuel + 1, lo, hi, hlo, hhi, hfuel => by
    rw [bisect]
    split_ifs with hlt
    · dsimp only
      by_cases hk : lo + (hi - lo) / 2 < k
      · rw [if_pos (hbelow _ hk)]
        exact bisect_eq hbelow habove (by omega) hhi (by omega)
      · rw [if_neg (by rw [habove _ (not_lt.mp hk)]; exact Bool.false_ne_true)]
        exact bisect_eq hbelow habove hlo (not_lt.mp hk) (by omega)
    · omega

/-- A list in which `p` holds of a first part and of nothing after it is divided where that part ends. -/
theorem partitionPoint_append {p : α → Bool} {front back : List α} (hfront : ∀ x ∈ front, p x = true)
    (hback : ∀ x ∈ back, p x = false) : partitionPoint p (front ++ back) = front.length := by
  refine bisect_eq ?_ ?_ (Nat.zero_le _) (by simp) (by simp)
  · intro i hi
    have hget : (front ++ back)[i]? = some front[i] := by
      rw [List.getElem?_append_left hi, List.getElem?_eq_getElem hi]
    rw [hget, Option.any_some]
    exact hfront _ (List.getElem_mem hi)
  · intro i hi
    rw [List.getElem?_append_right hi]
    cases hget : back[i - front.length]? with
    | none => rfl
    | some x => exact hback x (List.mem_of_getElem? hget)

/-! ### The table and the cycle -/

def total (entries : List (α × ℕ)) : ℕ := (entries.map Prod.snd).sum

/-- Each entry with the weights up to it, after weights of `c`. -/
def cumulative (c : ℕ) : List (α × ℕ) → List (α × ℕ)
  | [] => []
  | e :: es => (e.1, c + e.2) :: cumulative (c + e.2) es

/-- One cycle, slot by slot. -/
def slots (entries : List (α × ℕ)) : List α := entries.flatMap fun e => List.replicate e.2 e.1

@[simp] theorem total_nil : total ([] : List (α × ℕ)) = 0 := rfl

@[simp] theorem total_cons (e : α × ℕ) (es : List (α × ℕ)) : total (e :: es) = e.2 + total es := rfl

theorem cumulative_length : ∀ (c : ℕ) (es : List (α × ℕ)), (cumulative c es).length = es.length
  | _, [] => rfl
  | c, e :: es => by rw [cumulative, List.length_cons, List.length_cons, cumulative_length]

theorem cumulative_append : ∀ (c : ℕ) (es es' : List (α × ℕ)),
    cumulative c (es ++ es') = cumulative c es ++ cumulative (c + total es) es'
  | c, [], es' => by simp [cumulative]
  | c, e :: es, es' => by
    rw [List.cons_append, cumulative, cumulative, cumulative_append (c + e.2) es es', total_cons, Nat.add_assoc,
      List.cons_append]

theorem cumulative_bounds : ∀ {c : ℕ} {es : List (α × ℕ)} {x : α × ℕ}, x ∈ cumulative c es →
    c ≤ x.2 ∧ x.2 ≤ c + total es
  | c, [], x, h => by simp [cumulative] at h
  | c, e :: es, x, h => by
    rw [cumulative] at h
    rw [total_cons]
    rcases List.mem_cons.mp h with rfl | h
    · exact ⟨Nat.le_add_right _ _, by dsimp only; omega⟩
    · have ih := cumulative_bounds h
      omega

theorem slots_length (es : List (α × ℕ)) : (slots es).length = total es := by
  rw [slots, List.length_flatMap, total]
  simp

/-- Every slot of the cycle falls into one entry's share. -/
theorem exists_share : ∀ {es : List (α × ℕ)} {slot : ℕ}, slot < total es →
    ∃ front e back, es = front ++ e :: back ∧ total front ≤ slot ∧ slot < total front + e.2
  | [], slot, h => by simp at h
  | e :: es, slot, h => by
    by_cases hfirst : slot < e.2
    · exact ⟨[], e, es, rfl, Nat.zero_le _, by rw [total_nil]; omega⟩
    · rw [total_cons] at h
      obtain ⟨front, e', back, rfl, hle, hlt⟩ := exists_share (show slot - e.2 < total es by omega)
      exact ⟨e :: front, e', back, rfl, by rw [total_cons]; omega, by rw [total_cons]; omega⟩

/-- **The owner of a slot.** The first cumulative weight above a slot of the cycle is that of the slot's
owner. -/
theorem owner {es : List (α × ℕ)} {slot : ℕ} (h : slot < total es) :
    partitionPoint (fun x => x.2 ≤ slot) (cumulative 0 es) < es.length ∧
      ((cumulative 0 es)[partitionPoint (fun x => x.2 ≤ slot) (cumulative 0 es)]?).map Prod.fst =
        (slots es)[slot]? := by
  obtain ⟨front, e, back, rfl, hle, hlt⟩ := exists_share h
  have htable : cumulative 0 (front ++ e :: back) =
      cumulative 0 front ++ (e.1, total front + e.2) :: cumulative (total front + e.2) back := by
    rw [cumulative_append, Nat.zero_add, cumulative]
  have hpoint : partitionPoint (fun x => decide (x.2 ≤ slot)) (cumulative 0 (front ++ e :: back)) = front.length := by
    rw [htable, partitionPoint_append, cumulative_length]
    · intro x hx
      have := (cumulative_bounds hx).2
      rw [decide_eq_true_eq]
      omega
    · intro x hx
      rw [decide_eq_false_iff_not]
      rcases List.mem_cons.mp hx with rfl | hx
      · exact not_le.mpr hlt
      · have := (cumulative_bounds hx).1
        omega
  rw [hpoint]
  refine ⟨by simp, ?_⟩
  have hslots : slots (front ++ e :: back) = slots front ++ (List.replicate e.2 e.1 ++ slots back) := by
    simp [slots]
  have hlength := cumulative_length 0 front
  rw [htable, hslots, List.getElem?_append_right (by omega), hlength, Nat.sub_self,
    List.getElem?_append_right (by rw [slots_length]; omega), slots_length,
    List.getElem?_append_left (by rw [List.length_replicate]; omega), List.getElem?_replicate,
    if_pos (by omega)]
  rfl

/-! ### Shares -/

variable [DecidableEq α]

/-- What the entries of `a` weigh together. -/
def share (a : α) (es : List (α × ℕ)) : ℕ := total (es.filter fun e => e.1 = a)

theorem count_slots (a : α) : ∀ es : List (α × ℕ), (slots es).count a = share a es
  | [] => rfl
  | e :: es => by
    have hcons : slots (e :: es) = List.replicate e.2 e.1 ++ slots es := rfl
    rw [hcons, List.count_append, count_slots a es, share, share, List.count_replicate, List.filter_cons]
    by_cases h : e.1 = a
    · simp [h]
    · simp [h]

theorem count_getElem? (a : α) (xs : List α) : Nat.count (fun i => xs[i]? = some a) xs.length = xs.count a := by
  induction xs using List.reverseRecOn with
  | nil => rfl
  | append_singleton xs x ih =>
    have hsame : Nat.count (fun i => (xs ++ [x])[i]? = some a) xs.length =
        Nat.count (fun i => xs[i]? = some a) xs.length := by
      rw [Nat.count_eq_card_filter_range, Nat.count_eq_card_filter_range]
      congr 1
      refine Finset.filter_congr fun i hi => ?_
      rw [List.getElem?_append_left (Finset.mem_range.mp hi)]
    rw [List.length_append, List.length_singleton, Nat.count_succ, hsame, ih, List.count_append,
      List.getElem?_concat_length]
    by_cases h : x = a
    · simp [h]
    · simp [h]

/-- **A whole cycle is proportional**, wherever it starts. -/
theorem card_window (a : α) (es : List (α × ℕ)) (start : ℕ) :
    ((Finset.Ico start (start + total es)).filter fun i => (slots es)[i % total es]? = some a).card = share a es := by
  have hperiodic : Function.Periodic (fun i => (slots es)[i % total es]? = some a) (total es) := by
    intro i
    simp only [Nat.add_mod_right]
  rw [Nat.filter_Ico_card_eq_of_periodic _ _ _ hperiodic, ← count_slots, ← count_getElem? a (slots es), slots_length,
    Nat.count_eq_card_filter_range, Nat.count_eq_card_filter_range]
  congr 1
  refine Finset.filter_congr fun i hi => ?_
  rw [Nat.mod_eq_of_lt (Finset.mem_range.mp hi)]

end Rotation
