/-
# The two fast tests of a proof of work

A block's hash is checked as a number against the target of its difficulty. The miners do not
do that: the processor search compares the hash's bytes with the target's, and the graphics
kernel counts the zero bits the hash starts with. Both say the same as the check, for the
byte test at every difficulty and for the bit count up to difficulty 4111, past which the count asks
for more bits than a hash has.

Key definitions: `toBytesBe`, `powTargetBytes`.
Key theorems: `lexLe_powTargetBytes`, `le_leadingZeros_iff_valid`.
-/
import Alphanumeric.Types
import Alphanumeric.Lib.BigEndian

namespace Alphanumeric

open BigEndian

/-- `BigUint::to_bytes_be`: no zero byte in front, and one zero byte for zero. -/
def toBytesBe (n : ℕ) : List UInt8 :=
  if n = 0 then [0] else (Nat.digits 256 n).reverse.map UInt8.ofNat

/-- `pow_target_bytes`: the low 32 bytes, padded in front. -/
def powTargetBytes (target : ℕ) : List UInt8 :=
  let raw := toBytesBe target
  let len := min raw.length 32
  List.replicate (32 - len) 0 ++ raw.drop (raw.length - len)

theorem value_reverse_map : ∀ ds : List ℕ, (∀ d ∈ ds, d < 256) →
    value (ds.reverse.map UInt8.ofNat) = Nat.ofDigits 256 ds
  | [], _ => rfl
  | d :: ds, h => by
    have hd : d < 256 := h d (List.mem_cons_self ..)
    have ih := value_reverse_map ds fun x hx => h x (List.mem_cons_of_mem _ hx)
    rw [List.reverse_cons, List.map_append, value_append, ih, Nat.ofDigits_cons]
    simp only [List.map_cons, List.map_nil, List.length_singleton, pow_one, value, List.length_nil, pow_zero,
      mul_one, add_zero, UInt8.toNat_ofNat', Nat.mod_eq_of_lt hd]
    ring

theorem value_toBytesBe (n : ℕ) : value (toBytesBe n) = n := by
  by_cases h : n = 0
  · simp [toBytesBe, h, value]
  · rw [toBytesBe, if_neg h, value_reverse_map _ fun d hd => Nat.digits_lt_base (by omega) hd,
      Nat.ofDigits_digits]

theorem length_toBytesBe_le {n w : ℕ} (hw : 0 < w) (h : n < 256 ^ w) : (toBytesBe n).length ≤ w := by
  rw [toBytesBe]
  split
  · exact hw
  · rename_i hne
    rw [List.length_map, List.length_reverse, Nat.length_digits 256 n (by omega) hne]
    exact Nat.log_lt_of_lt_pow hne h

theorem powTargetBytes_spec {target : ℕ} (h : target < 2 ^ 256) :
    (powTargetBytes target).length = 32 ∧ value (powTargetBytes target) = target := by
  have hlen : (toBytesBe target).length ≤ 32 := length_toBytesBe_le (by omega) (h.trans_eq (by norm_num))
  refine ⟨?_, ?_⟩
  · simp only [powTargetBytes, List.length_append, List.length_replicate, List.length_drop]
    omega
  · rw [powTargetBytes, min_eq_left hlen, Nat.sub_self, List.drop_zero, value_replicate_zero, value_toBytesBe]

theorem toLeBytes_len : ∀ w n : ℕ, (toLeBytes w n).length = w
  | 0, _ => rfl
  | w + 1, n => by rw [toLeBytes, List.length_cons, toLeBytes_len w]

theorem value_toBeBytes : ∀ {w n : ℕ}, n < 256 ^ w → value (toBeBytes w n) = n
  | 0, n, h => by
    obtain rfl : n = 0 := by simpa using h
    rfl
  | w + 1, n, h => by
    have hdiv : n / 256 < 256 ^ w := Nat.div_lt_of_lt_mul (by rwa [pow_succ, mul_comm] at h)
    have ih := value_toBeBytes hdiv
    rw [toBeBytes] at ih ⊢
    rw [toLeBytes, List.reverse_cons, value_append, ih]
    simp only [List.length_singleton, pow_one, value, List.length_nil, pow_zero, mul_one, add_zero,
      UInt8.toNat_ofNat', Nat.mod_mod]
    omega

theorem value_hash (h : Hash) : value h.bytes = h.val :=
  value_toBeBytes (h.isLt.trans_eq (by norm_num))

theorem length_hash (h : Hash) : h.bytes.length = 32 := by
  rw [Hash.bytes, toBeBytes, List.length_reverse, toLeBytes_len]

theorem powTarget_lt (d : ℕ) : powTargetFromDifficulty d < 2 ^ 256 := by
  have hmax : maxTarget < 2 ^ 256 := by decide
  rw [powTargetFromDifficulty]
  split
  · exact hmax
  · split
    · exact Nat.two_pow_pos 256
    · exact (Nat.div_le_self ..).trans_lt hmax

/-- **The byte test of the processor search is the check of the proof of work.** -/
theorem lexLe_powTargetBytes (h : Hash) (d : ℕ) :
    lexLe h.bytes (powTargetBytes (powTargetFromDifficulty d)) = isValidHashWithDifficulty h d := by
  obtain ⟨hlen, hval⟩ := powTargetBytes_spec (powTarget_lt d)
  rw [Bool.eq_iff_iff, lexLe_iff ((length_hash h).trans hlen.symm), hval, value_hash,
    isValidHashWithDifficulty, decide_eq_true_iff]

theorem mul_sub_one_div {a b : ℕ} (ha : 0 < a) (hb : 0 < b) : (a * b - 1) / b = a - 1 := by
  have hmul : (a - 1) * b = a * b - b := Nat.sub_one_mul ..
  have hle : b ≤ a * b := Nat.le_mul_of_pos_left b ha
  refine Nat.div_eq_of_lt_le (by omega) ?_
  rw [Nat.sub_add_cancel ha]
  omega

/-- The target of a difficulty is the largest number that starts with that many zero bits. -/
theorem le_powTarget_iff {d n : ℕ} (hd : d / 16 ≤ 256) :
    n ≤ powTargetFromDifficulty d ↔ n < 2 ^ (256 - d / 16) := by
  have hpos : 0 < 2 ^ (256 - d / 16) := Nat.two_pow_pos _
  have htarget : powTargetFromDifficulty d = 2 ^ (256 - d / 16) - 1 := by
    rw [powTargetFromDifficulty]
    split
    · rename_i h
      simp [h, maxTarget]
    · split
      · rename_i h
        simp [le_antisymm hd h]
      · have hsplit : 2 ^ 256 = 2 ^ (256 - d / 16) * 2 ^ (d / 16) := by
          rw [← pow_add, Nat.sub_add_cancel hd]
        rw [maxTarget, hsplit]
        exact mul_sub_one_div hpos (Nat.two_pow_pos _)
  rw [htarget]
  omega

/-- **The bit count of the graphics kernel is the check of the proof of work.** -/
theorem le_leadingZeros_iff_valid (h : Hash) {d : ℕ} (hd : d / 16 ≤ 256) :
    d / 16 ≤ leadingZeros h.bytes ↔ isValidHashWithDifficulty h d = true := by
  rw [le_leadingZeros_iff (by rw [length_hash]; omega), length_hash, value_hash, isValidHashWithDifficulty,
    decide_eq_true_iff, le_powTarget_iff hd]

end Alphanumeric
