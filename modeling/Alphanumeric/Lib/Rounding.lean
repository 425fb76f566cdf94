/-
# Rounding halves away from zero

The rounding of `f64::round`, over an ordered field with a floor.

Key definitions: `roundAway`.
Key theorems: `le_roundAway_iff`, `abs_roundAway_sub_le`, `roundAway_add_natCast`.
-/
import Mathlib.Algebra.Order.Floor.Ring
import Mathlib.Tactic

variable {K : Type} [Field K] [LinearOrder K] [FloorRing K]

/-- The nearest integer, a half away from zero. -/
def roundAway (x : K) : ℤ := if 0 ≤ x then ⌊x + 1 / 2⌋ else -⌊-x + 1 / 2⌋

theorem roundAway_of_nonneg {x : K} (hx : 0 ≤ x) : roundAway x = ⌊x + 1 / 2⌋ := if_pos hx

variable [IsStrictOrderedRing K]

theorem le_roundAway_iff {x : K} (hx : 0 ≤ x) {n : ℤ} : n ≤ roundAway x ↔ (n : K) - 1 / 2 ≤ x := by
  rw [roundAway_of_nonneg hx, Int.le_floor, sub_le_iff_le_add]

theorem roundAway_intCast (n : ℤ) : roundAway (n : K) = n := by
  have hhalf : ∀ m : ℤ, ⌊(m : K) + 1 / 2⌋ = m := by
    intro m
    rw [Int.floor_intCast_add, Int.floor_eq_zero_iff.mpr ⟨by norm_num, by norm_num⟩, add_zero]
  unfold roundAway
  split
  · exact hhalf n
  · rw [← Int.cast_neg, hhalf, neg_neg]

theorem abs_roundAway_sub_le (x : K) : |(roundAway x : K) - x| ≤ 1 / 2 := by
  have hfloor : ∀ y : K, |(⌊y + 1 / 2⌋ : K) - y| ≤ 1 / 2 := by
    intro y
    have hlow := Int.floor_le (y + 1 / 2)
    have hhigh := Int.lt_floor_add_one (y + 1 / 2)
    rw [abs_le]
    constructor <;> linarith
  unfold roundAway
  split
  · exact hfloor x
  · have hneg := hfloor (-x)
    rw [abs_sub_comm] at hneg
    rw [Int.cast_neg]
    convert hneg using 2
    ring

theorem roundAway_le {x : K} : (roundAway x : K) ≤ x + 1 / 2 := by
  have h := (abs_le.mp (abs_roundAway_sub_le x)).2
  linarith

theorem le_roundAway {x : K} : x - 1 / 2 ≤ (roundAway x : K) := by
  have h := (abs_le.mp (abs_roundAway_sub_le x)).1
  linarith

theorem roundAway_add_natCast {x : K} (hx : 0 ≤ x) (n : ℕ) : roundAway (x + n) = roundAway x + n := by
  rw [roundAway_of_nonneg hx, roundAway_of_nonneg (by positivity), add_right_comm, Int.floor_add_natCast]

theorem roundAway_nonneg {x : K} (hx : 0 ≤ x) : 0 ≤ roundAway x := by
  rw [le_roundAway_iff hx, Int.cast_zero]
  linarith
