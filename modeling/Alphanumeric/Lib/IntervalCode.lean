/-
# Words as intervals

The labels of a code are half-open cells that make up the unit interval. A word narrows the
unit interval cell by cell, and a value is decoded by looking up the cell it lies in and
stretching that cell to the unit interval again. Every value in the interval of a word
decodes to that word, whatever order the cells are searched in.

Key definitions: `Cell`, `Cells.Partition`, `Cells.narrow`, `Cells.interval`, `Cells.decode`,
`Cells.Chain`.
Key theorems: `Cells.Chain.partition`, `Cells.foldl_narrow`, `Cells.decode_interval`,
`Cells.decode_length`, `Cells.decode_perm`, `Cells.pow_le_width`.
-/
import Mathlib.Algebra.Order.Field.Basic
import Mathlib.Tactic

structure Cell (α K : Type) where
  label : α
  lo : K
  hi : K

namespace Cells

variable {α K : Type} [LinearOrder K]

/-- The value lies in the cell. -/
def Covers (c : Cell α K) (v : K) : Prop := c.lo ≤ v ∧ v < c.hi

/-! ### Adjoining cells -/

/-- Each cell begins where the one before it ends. -/
def Chain : K → K → List (Cell α K) → Prop
  | a, b, [] => a = b
  | a, b, c :: cells => c.lo = a ∧ c.lo < c.hi ∧ Chain c.hi b cells

theorem Chain.le : ∀ {a b : K} {cells : List (Cell α K)}, Chain a b cells → a ≤ b
  | _, _, [], h => le_of_eq h
  | _, _, _ :: _, ⟨hlo, hlt, hrest⟩ => (hlo ▸ hlt.le).trans hrest.le

theorem Chain.bounds : ∀ {a b : K} {cells : List (Cell α K)}, Chain a b cells →
    ∀ c ∈ cells, a ≤ c.lo ∧ c.lo < c.hi ∧ c.hi ≤ b
  | _, _, [], _, c, hc => absurd hc List.not_mem_nil
  | a, b, d :: cells, ⟨hlo, hlt, hrest⟩, c, hc => by
    rcases List.mem_cons.mp hc with rfl | hc
    · exact ⟨hlo.ge, hlt, hrest.le⟩
    · obtain ⟨hl, hlt', hh⟩ := hrest.bounds c hc
      exact ⟨(hlo ▸ hlt.le).trans hl, hlt', hh⟩

theorem Chain.disjoint : ∀ {a b : K} {cells : List (Cell α K)}, Chain a b cells →
    ∀ c ∈ cells, ∀ d ∈ cells, ∀ v, Covers c v → Covers d v → c = d
  | _, _, [], _, c, hc, _, _, _, _, _ => absurd hc List.not_mem_nil
  | a, b, e :: cells, ⟨hlo, hlt, hrest⟩, c, hc, d, hd, v, hcv, hdv => by
    rcases List.mem_cons.mp hc with rfl | hc'
    · rcases List.mem_cons.mp hd with rfl | hd'
      · rfl
      · exact absurd (hcv.2.trans_le ((hrest.bounds d hd').1.trans hdv.1)) (lt_irrefl v)
    · rcases List.mem_cons.mp hd with rfl | hd'
      · exact absurd (hdv.2.trans_le ((hrest.bounds c hc').1.trans hcv.1)) (lt_irrefl v)
      · exact hrest.disjoint c hc' d hd' v hcv hdv

theorem Chain.cover : ∀ {a b : K} {cells : List (Cell α K)}, Chain a b cells →
    ∀ v, a ≤ v → v < b → ∃ c ∈ cells, Covers c v
  | a, b, [], h, v, hav, hvb => by
    have hab : a = b := h
    exact absurd (hab ▸ hav) (not_le.mpr hvb)
  | a, b, c :: cells, ⟨hlo, _, hrest⟩, v, hav, hvb => by
    by_cases hv : v < c.hi
    · exact ⟨c, List.mem_cons_self .., hlo ▸ hav, hv⟩
    · obtain ⟨d, hd, hdv⟩ := hrest.cover v (not_lt.mp hv) hvb
      exact ⟨d, List.mem_cons_of_mem _ hd, hdv⟩

/-! ### Partitions of the unit interval -/

variable [Field K]

/-- The cells are not empty, do not overlap and make up the unit interval. -/
structure Partition (cells : List (Cell α K)) : Prop where
  bounds : ∀ c ∈ cells, 0 ≤ c.lo ∧ c.lo < c.hi ∧ c.hi ≤ 1
  disjoint : ∀ c ∈ cells, ∀ d ∈ cells, ∀ v, Covers c v → Covers d v → c = d
  cover : ∀ v, 0 ≤ v → v < 1 → ∃ c ∈ cells, Covers c v

theorem Partition.perm {cells cells' : List (Cell α K)} (h : Partition cells) (hp : cells'.Perm cells) :
    Partition cells' where
  bounds c hc := h.bounds c (hp.mem_iff.mp hc)
  disjoint c hc d hd := h.disjoint c (hp.mem_iff.mp hc) d (hp.mem_iff.mp hd)
  cover v h₀ h₁ := by
    obtain ⟨c, hc, hv⟩ := h.cover v h₀ h₁
    exact ⟨c, hp.mem_iff.mpr hc, hv⟩

theorem Chain.partition {cells : List (Cell α K)} (h : Chain 0 1 cells) : Partition cells :=
  ⟨h.bounds, h.disjoint, h.cover⟩

/-! ### The interval of a word -/

/-- One letter narrows the interval. -/
def narrow (r : K × K) (c : Cell α K) : K × K :=
  (r.1 + (r.2 - r.1) * c.lo, r.1 + (r.2 - r.1) * c.hi)

def interval : List (Cell α K) → K × K
  | [] => (0, 1)
  | c :: word => (c.lo + (c.hi - c.lo) * (interval word).1, c.lo + (c.hi - c.lo) * (interval word).2)

omit [LinearOrder K] in
theorem foldl_narrow : ∀ (word : List (Cell α K)) (r : K × K), word.foldl narrow r =
    (r.1 + (r.2 - r.1) * (interval word).1, r.1 + (r.2 - r.1) * (interval word).2)
  | [], r => by simp [interval]
  | c :: word, r => by
    rw [List.foldl_cons, foldl_narrow word]
    simp only [narrow, interval]
    refine Prod.ext ?_ ?_ <;> dsimp only <;> ring

variable [IsStrictOrderedRing K] {cells : List (Cell α K)}

theorem interval_bounds (h : Partition cells) : ∀ {word : List (Cell α K)}, (∀ c ∈ word, c ∈ cells) →
    0 ≤ (interval word).1 ∧ (interval word).1 < (interval word).2 ∧ (interval word).2 ≤ 1
  | [], _ => by simp [interval]
  | c :: word, hw => by
    obtain ⟨hlo, hlt, hhi⟩ := h.bounds c (hw c (List.mem_cons_self ..))
    obtain ⟨ih₀, ihlt, ih₁⟩ := interval_bounds h fun d hd => hw d (List.mem_cons_of_mem _ hd)
    have hpos : 0 < c.hi - c.lo := sub_pos.mpr hlt
    unfold interval
    refine ⟨by positivity, ?_, ?_⟩
    · exact add_lt_add_of_le_of_lt le_rfl (mul_lt_mul_of_pos_left ihlt hpos)
    · calc c.lo + (c.hi - c.lo) * (interval word).2 ≤ c.lo + (c.hi - c.lo) * 1 := by gcongr
        _ = c.hi := by ring
        _ ≤ 1 := hhi

/-- A word of wide cells has a wide interval. -/
theorem pow_le_width {q : K} (hq : 0 ≤ q) : ∀ {word : List (Cell α K)}, (∀ c ∈ word, q ≤ c.hi - c.lo) →
    q ^ word.length ≤ (interval word).2 - (interval word).1
  | [], _ => by simp [interval]
  | c :: word, hw => by
    have ih := pow_le_width hq fun d hd => hw d (List.mem_cons_of_mem _ hd)
    have hc := hw c (List.mem_cons_self ..)
    calc q ^ (c :: word).length = q * q ^ word.length := pow_succ' q word.length
      _ ≤ (c.hi - c.lo) * ((interval word).2 - (interval word).1) :=
        mul_le_mul hc ih (pow_nonneg hq _) (hq.trans hc)
      _ = (interval (c :: word)).2 - (interval (c :: word)).1 := by
        simp only [interval]
        ring

/-! ### Decoding -/

def find (cells : List (Cell α K)) (v : K) : Option (Cell α K) :=
  cells.find? fun c => decide (c.lo ≤ v) && decide (v < c.hi)

/-- The cell, stretched to the unit interval. -/
def rescale (c : Cell α K) (v : K) : K := (v - c.lo) / (c.hi - c.lo)

/-- At most `n` labels; the search ends where no cell has the value. -/
def decode (cells : List (Cell α K)) : ℕ → K → List α
  | 0, _ => []
  | n + 1, v =>
    match find cells v with
    | none => []
    | some c => c.label :: decode cells n (rescale c v)

omit [IsStrictOrderedRing K] in
theorem find_eq_some (h : Partition cells) {c : Cell α K} (hc : c ∈ cells) {v : K} (hv : Covers c v) :
    find cells v = some c := by
  have hp : (decide (c.lo ≤ v) && decide (v < c.hi)) = true := by simp [hv.1, hv.2]
  obtain ⟨d, hd⟩ := Option.isSome_iff_exists.mp (List.find?_isSome
    (p := fun c : Cell α K => decide (c.lo ≤ v) && decide (v < c.hi)).mpr ⟨c, hc, hp⟩)
  have hdv := List.find?_some hd
  rw [Bool.and_eq_true, decide_eq_true_eq, decide_eq_true_eq] at hdv
  rw [find, hd, h.disjoint d (List.mem_of_find?_eq_some hd) c hc v hdv hv]

theorem rescale_mem {c : Cell α K} {v : K} (hv : Covers c v) : 0 ≤ rescale c v ∧ rescale c v < 1 := by
  have hpos : 0 < c.hi - c.lo := sub_pos.mpr (hv.1.trans_lt hv.2)
  unfold rescale
  refine ⟨div_nonneg (sub_nonneg.mpr hv.1) hpos.le, ?_⟩
  rw [div_lt_one hpos]
  exact sub_lt_sub_right hv.2 _

theorem decode_length (h : Partition cells) : ∀ (n : ℕ) {v : K}, 0 ≤ v → v < 1 → (decode cells n v).length = n
  | 0, _, _, _ => rfl
  | n + 1, v, h₀, h₁ => by
    obtain ⟨c, hc, hv⟩ := h.cover v h₀ h₁
    obtain ⟨hr₀, hr₁⟩ := rescale_mem hv
    rw [decode, find_eq_some h hc hv]
    dsimp only
    rw [List.length_cons, decode_length h n hr₀ hr₁]

omit [IsStrictOrderedRing K] in
theorem decode_label (cells : List (Cell α K)) : ∀ (n : ℕ) (v : K), ∀ a ∈ decode cells n v, ∃ c ∈ cells, c.label = a
  | 0, _, a, ha => absurd ha List.not_mem_nil
  | n + 1, v, a, ha => by
    rw [decode] at ha
    split at ha
    · exact absurd ha List.not_mem_nil
    · rename_i c hc
      rcases List.mem_cons.mp ha with rfl | ha
      · exact ⟨c, List.mem_of_find?_eq_some hc, rfl⟩
      · exact decode_label cells n _ a ha

/-- **A value in the interval of a word decodes to that word**, and goes on from the unit interval. -/
theorem decode_interval (h : Partition cells) (k : ℕ) : ∀ {word : List (Cell α K)} {v : K},
    (∀ c ∈ word, c ∈ cells) → (interval word).1 ≤ v → v < (interval word).2 →
      ∃ v', 0 ≤ v' ∧ v' < 1 ∧ decode cells (word.length + k) v = word.map Cell.label ++ decode cells k v'
  | [], v, _, hl, hh => ⟨v, hl, hh, by simp⟩
  | c :: word, v, hw, hl, hh => by
    have hcm := hw c (List.mem_cons_self ..)
    obtain ⟨-, hlt, -⟩ := h.bounds c hcm
    have hpos : 0 < c.hi - c.lo := sub_pos.mpr hlt
    have hrest : ∀ d ∈ word, d ∈ cells := fun d hd => hw d (List.mem_cons_of_mem _ hd)
    obtain ⟨ih₀, -, ih₁⟩ := interval_bounds h hrest
    have hlow : (interval word).1 ≤ rescale c v := by
      rw [rescale, le_div_iff₀ hpos, mul_comm]
      exact le_sub_iff_add_le'.mpr hl
    have hhigh : rescale c v < (interval word).2 := by
      rw [rescale, div_lt_iff₀ hpos, mul_comm]
      exact sub_lt_iff_lt_add'.mpr hh
    have hv : Covers c v := by
      constructor
      · calc c.lo ≤ c.lo + (c.hi - c.lo) * (interval word).1 := le_add_of_nonneg_right (by positivity)
          _ ≤ v := hl
      · calc v < c.lo + (c.hi - c.lo) * (interval word).2 := hh
          _ ≤ c.lo + (c.hi - c.lo) * 1 := by gcongr
          _ = c.hi := by ring
    obtain ⟨v', h₀, h₁, heq⟩ := decode_interval h k hrest hlow hhigh
    refine ⟨v', h₀, h₁, ?_⟩
    rw [List.length_cons, Nat.add_right_comm, decode, find_eq_some h hcm hv]
    dsimp only
    rw [heq, List.map_cons, List.cons_append]

omit [IsStrictOrderedRing K] in
/-- **The order in which the cells are searched does not matter.** -/
theorem decode_perm {cells' : List (Cell α K)} (h : Partition cells) (hp : cells'.Perm cells) :
    ∀ (n : ℕ) (v : K), decode cells' n v = decode cells n v
  | 0, _ => rfl
  | n + 1, v => by
    have hfind : find cells' v = find cells v := by
      rcases hcell : find cells v with _ | c
      · unfold find at hcell ⊢
        rw [List.find?_eq_none] at hcell ⊢
        exact fun d hd => hcell d (hp.mem_iff.mp hd)
      · have hcv := List.find?_some hcell
        rw [Bool.and_eq_true, decide_eq_true_eq, decide_eq_true_eq] at hcv
        exact find_eq_some (h.perm hp) (hp.mem_iff.mpr (List.mem_of_find?_eq_some hcell)) hcv
    rw [decode, decode, hfind]
    split
    · rfl
    · rw [decode_perm h hp n]

end Cells
