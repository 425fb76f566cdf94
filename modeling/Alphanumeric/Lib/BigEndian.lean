/-
# Byte strings as numbers, the high byte first

Two byte strings of one length compare in the order of the bytes as they do as numbers
(`lexLe_iff`), and the number of zero bits a string starts with is a bound on the number
(`le_leadingZeros_iff`).

Key definitions: `value`, `lexLe`, `leadingZeros`.
Key theorems: `lexLe_iff`, `le_leadingZeros_iff`, `value_inj`.
-/
import Mathlib.Tactic

namespace BigEndian

def value : List UInt8 → ℕ
  | [] => 0
  | b :: bs => b.toNat * 256 ^ bs.length + value bs

/-- The order of the bytes from the left, as arrays of bytes are compared. -/
def lexLe : List UInt8 → List UInt8 → Bool
  | [], _ => true
  | _ :: _, [] => false
  | a :: as, b :: bs => a < b || (a == b && lexLe as bs)

/-- The zero bits before the first set bit; all of them if there is none. -/
def leadingZeros : List UInt8 → ℕ
  | [] => 0
  | b :: bs => if b = 0 then 8 + leadingZeros bs else 7 - b.toNat.log2

theorem value_lt : ∀ bs : List UInt8, value bs < 256 ^ bs.length
  | [] => by simp [value]
  | b :: bs => by
    have hb : b.toNat < 256 := b.toNat_lt
    have ih := value_lt bs
    have hmul : b.toNat * 256 ^ bs.length ≤ 255 * 256 ^ bs.length := Nat.mul_le_mul_right _ (by omega)
    rw [value, List.length_cons, pow_succ]
    omega

theorem value_append : ∀ as bs : List UInt8, value (as ++ bs) = value as * 256 ^ bs.length + value bs
  | [], bs => by simp [value]
  | a :: as, bs => by
    rw [List.cons_append, value, value_append as bs, value, List.length_append, pow_add]
    ring

theorem value_replicate_zero (n : ℕ) (bs : List UInt8) : value (List.replicate n 0 ++ bs) = value bs := by
  induction n with
  | zero => rfl
  | succ n ih => rw [List.replicate_succ, List.cons_append, value, ih, UInt8.toNat_zero, zero_mul, zero_add]

/-- Two numbers with the digits `a` and `b` before `x` and `y`. -/
theorem digit_le_iff {a b p x y : ℕ} (hx : x < p) (hy : y < p) :
    a * p + x ≤ b * p + y ↔ a < b ∨ a = b ∧ x ≤ y := by
  rcases Nat.lt_trichotomy a b with hab | rfl | hab
  · have hmul : (a + 1) * p ≤ b * p := Nat.mul_le_mul_right p hab
    have : a * p + x ≤ b * p + y := by
      rw [Nat.add_mul, one_mul] at hmul
      omega
    simp [this, hab]
  · simp
  · have hmul : (b + 1) * p ≤ a * p := Nat.mul_le_mul_right p hab
    have : ¬ a * p + x ≤ b * p + y := by
      rw [Nat.add_mul, one_mul] at hmul
      omega
    simp only [this, false_iff]
    omega

/-- A byte string of a given length is its number. -/
theorem value_inj : ∀ {as bs : List UInt8}, as.length = bs.length → value as = value bs → as = bs
  | [], [], _, _ => rfl
  | a :: as, b :: bs, h, heq => by
    have hlen : as.length = bs.length := by simpa using h
    have has := value_lt as
    have hbs := value_lt bs
    rw [hlen] at has
    rw [value, value, hlen] at heq
    rcases (digit_le_iff has hbs).mp heq.le with hlt | ⟨hab, -⟩
    · rcases (digit_le_iff hbs has).mp heq.ge with hgt | ⟨hab, -⟩ <;> omega
    · rw [hab] at heq
      rw [UInt8.toNat_inj.mp hab, value_inj hlen (by omega)]

/-- **The order of the bytes is the order of the numbers.** -/
theorem lexLe_iff : ∀ {as bs : List UInt8}, as.length = bs.length → (lexLe as bs = true ↔ value as ≤ value bs)
  | [], [], _ => by simp [lexLe, value]
  | a :: as, b :: bs, h => by
    have hlen : as.length = bs.length := by simpa using h
    have ih := lexLe_iff hlen
    have has := value_lt as
    rw [hlen] at has
    rw [value, value, hlen, digit_le_iff has (value_lt bs), lexLe, Bool.or_eq_true, Bool.and_eq_true, ih,
      decide_eq_true_iff, beq_iff_eq, UInt8.lt_iff_toNat_lt, UInt8.toNat_inj]

theorem leadingZeros_le : ∀ bs : List UInt8, leadingZeros bs ≤ 8 * bs.length
  | [] => le_rfl
  | b :: bs => by
    have ih := leadingZeros_le bs
    rw [leadingZeros, List.length_cons]
    split <;> omega

/-- A string that is not all zeros hides what stands behind it. -/
theorem leadingZeros_append : ∀ as bs : List UInt8, leadingZeros (as ++ bs) =
    if leadingZeros as = 8 * as.length then 8 * as.length + leadingZeros bs else leadingZeros as
  | [], bs => by simp [leadingZeros]
  | a :: as, bs => by
    have hle := leadingZeros_le as
    rw [List.cons_append, leadingZeros, leadingZeros_append as bs, leadingZeros, List.length_cons]
    by_cases ha : a = 0
    · simp only [ha, if_true]
      split
      · rw [if_pos (by omega)]
        omega
      · rw [if_neg (by omega)]
    · rw [if_neg ha, if_neg ha, if_neg (by omega)]

/-- **Leading zero bits bound the number.** -/
theorem le_leadingZeros_iff : ∀ {bs : List UInt8} {k : ℕ}, k ≤ 8 * bs.length →
    (k ≤ leadingZeros bs ↔ value bs < 2 ^ (8 * bs.length - k))
  | [], k, h => by
    obtain rfl : k = 0 := by simpa using h
    simp [leadingZeros, value]
  | b :: bs, k, h => by
    have hlt := value_lt bs
    have hpow : 256 ^ bs.length = 2 ^ (8 * bs.length) := by rw [pow_mul]; norm_num
    rw [List.length_cons] at h ⊢
    by_cases hb : b = 0
    · have hval : value (b :: bs) = value bs := by simp [value, hb]
      rw [hval, leadingZeros, if_pos hb]
      rcases Nat.lt_or_ge k 9 with hk | hk
      · have hle : 2 ^ (8 * bs.length) ≤ 2 ^ (8 * (bs.length + 1) - k) :=
          Nat.pow_le_pow_right (by omega) (by omega)
        simp only [show k ≤ 8 + leadingZeros bs by omega, true_iff]
        omega
      · have ih : k - 8 ≤ leadingZeros bs ↔ value bs < 2 ^ (8 * bs.length - (k - 8)) :=
          le_leadingZeros_iff (by omega)
        rw [show 8 * (bs.length + 1) - k = 8 * bs.length - (k - 8) by omega, ← ih]
        omega
    · have hne : b.toNat ≠ 0 := fun h0 => hb (UInt8.toNat_inj.mp (by simpa using h0))
      have hlog : b.toNat.log2 < 8 := (Nat.log2_lt hne).mpr (by have := b.toNat_lt; omega)
      have hlow : 2 ^ b.toNat.log2 ≤ b.toNat := Nat.log2_self_le hne
      have hhigh : b.toNat < 2 ^ (b.toNat.log2 + 1) := Nat.lt_log2_self
      rw [value, leadingZeros, if_neg hb, hpow]
      rw [hpow] at hlt
      constructor
      · intro hk
        calc b.toNat * 2 ^ (8 * bs.length) + value bs < (b.toNat + 1) * 2 ^ (8 * bs.length) := by
              rw [Nat.add_mul, one_mul]; omega
          _ ≤ 2 ^ (b.toNat.log2 + 1) * 2 ^ (8 * bs.length) := Nat.mul_le_mul_right _ hhigh
          _ = 2 ^ (b.toNat.log2 + 1 + 8 * bs.length) := (pow_add ..).symm
          _ ≤ 2 ^ (8 * (bs.length + 1) - k) := Nat.pow_le_pow_right (by omega) (by omega)
      · intro hval
        by_contra hk
        have hle : 2 ^ (8 * (bs.length + 1) - k) ≤ b.toNat * 2 ^ (8 * bs.length) :=
          calc 2 ^ (8 * (bs.length + 1) - k) ≤ 2 ^ (b.toNat.log2 + 8 * bs.length) :=
                Nat.pow_le_pow_right (by omega) (by omega)
            _ = 2 ^ b.toNat.log2 * 2 ^ (8 * bs.length) := pow_add ..
            _ ≤ b.toNat * 2 ^ (8 * bs.length) := Nat.mul_le_mul_right _ hlow
        omega

end BigEndian
