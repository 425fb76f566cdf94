/-
# The miners search for what the chain accepts

The chain compares a block's hash with the target of its difficulty. The processor search
compares bytes, the graphics kernel counts zero bits, and both ask the same of a hash as the
chain does. The kernel's hash is BLAKE3 of the header with the nonce in its place, and a
dispatch that reports nothing has tested the nonces of its range, each of them once and no
others; one that reports a nonce reports one of the range whose hash the chain accepts.

Key definitions: `Passes`, `testsOf`, `dispatchTests`.
Key theorems: `testsOf_missed`, `dispatchTests_missed`, `search_predicates_agree`.
-/
import Alphanumeric.GpuSearch

namespace Alphanumeric

namespace GpuSearch

open BigEndian GpuKernel
open Blake3 (wordBytes)

/-- The check of the chain, `BigUint::from_bytes_be(&hash) <= target`, on the header with this nonce. -/
def Passes (header : List UInt8) (difficulty nonce : ℕ) : Prop :=
  value (Blake3.hash (withNonce header nonce)) ≤ powTargetFromDifficulty difficulty

theorem clears_iff_passes (header : List UInt8) {d : ℕ} (hd : d / 16 ≤ 256) (nonce : ℕ) :
    Clears header (d / 16) nonce ↔ Passes header d nonce := by
  have hlen := length_blake3 (withNonce header nonce)
  rw [Clears, Passes, le_leadingZeros_iff (by omega), hlen, le_powTarget_iff hd]

/-! ### The tests of a dispatch that reports nothing -/

/-- The nonces that the thread `gid` tests from its turn `i` on while the flag is down, in `fuel` turns. Nothing lowers
the flag, so in a dispatch that reports nothing it is down at every look. -/
def testsOf (p : Params) (gid : UInt32) : ℕ → UInt32 → List ℕ
  | 0, _ => []
  | fuel + 1, i =>
    match kernelMove p gid false i with
    | .next i' => nonceOf (tryNonce p gid i).1 (tryNonce p gid i).2 :: testsOf p gid fuel i'
    | .hit n => [nonceOf n.1 n.2]
    | .quit => []

/-- The tests of all threads, each with the turns to leave its loop. -/
def dispatchTests (p : Params) (groups : ℕ) : List ℕ :=
  (List.range (groups * workgroup)).flatMap fun gid => testsOf p (UInt32.ofNat gid) (p.iters.toNat + 1) 0

variable {header : List UInt8} {zeroBits threads iters : UInt32} {base : ℕ}

/-- A thread outside the range leaves at once. -/
theorem testsOf_outside (p : Params) {gid : UInt32} (h : p.threads ≤ gid) (fuel : ℕ) (i : UInt32) :
    testsOf p gid fuel i = [] := by
  cases fuel with
  | zero => rfl
  | succ fuel => simp only [testsOf, kernelMove, if_pos h]

/-- A thread whose tries all miss makes all of them. -/
theorem testsOf_missed (hlen : header.length = 92) (hbits : zeroBits ≠ debugHashSentinel)
    (hbound : threads.toNat * iters.toNat ≤ 2 ^ 32) {gid : UInt32} (hgid : gid < threads)
    (hmiss : Missed header zeroBits.toNat base (gid.toNat * iters.toNat) iters.toNat) :
    ∀ (n : ℕ) (i : UInt32), i.toNat + n = iters.toNat →
      testsOf (searchParams header zeroBits base threads iters) gid (n + 1) i =
        (List.range n).map fun j => (base + (gid.toNat * iters.toNat + (i.toNat + j))) % 2 ^ 64
  | 0, i, hn => by
    rcases @kernelMove_cases (searchParams header zeroBits base threads iters) gid i false _ hbits rfl with
        ⟨hmove, -⟩ | ⟨-, hi, -⟩
    · simp only [testsOf, hmove, List.range_zero, List.map_nil]
    · have hi' := UInt32.lt_iff_toNat_lt.mp hi
      simp only [searchParams] at hi'
      omega
  | n + 1, i, hn => by
    have hi : i < iters := UInt32.lt_iff_toNat_lt.mpr (by omega)
    have hnonce := (@nonceOf_tryNonce header zeroBits threads iters base hbound gid i hgid hi).2
    rcases @kernelMove_cases (searchParams header zeroBits base threads iters) gid i false _ hbits rfl with
        ⟨-, h | h | h⟩ | ⟨-, -, ⟨hclear, -⟩ | ⟨-, hmove⟩⟩
    · exact absurd hgid (UInt32.not_lt.mpr h)
    · exact absurd hi (UInt32.not_lt.mpr h)
    · cases h
    · have hpass := (kernel_clears hlen _ _).mp hclear
      rw [hnonce] at hpass
      exact absurd hpass (hmiss i.toNat (by omega))
    · have hnext : (i + 1).toNat = i.toNat + 1 := by
        have := iters.toNat_lt
        rw [UInt32.toNat_add]
        exact Nat.mod_eq_of_lt (by change i.toNat + 1 < 2 ^ 32; omega)
      have ih := testsOf_missed hlen hbits hbound hgid hmiss n (i + 1) (by omega)
      rw [testsOf, hmove]
      simp only [hnonce, ih, hnext, List.range_succ_eq_map, List.map_cons, List.map_map, Nat.add_zero]
      refine congrArg _ (List.map_congr_left fun j _ => ?_)
      simp only [Function.comp, Nat.succ_eq_add_one, Nat.add_assoc, Nat.add_comm 1 j]

/-- Rows of one length, read one after the other. -/
theorem flatMap_rows {α : Type} (f : ℕ → α) (n : ℕ) : ∀ m : ℕ,
    ((List.range m).flatMap fun g => (List.range n).map fun j => f (g * n + j)) = (List.range (m * n)).map f
  | 0 => by simp
  | m + 1 => by
    rw [List.range_succ, List.flatMap_append, flatMap_rows f n m, Nat.add_mul, one_mul, List.range_add,
      List.map_append, List.map_map]
    simp [Function.comp_def]

/-- **A dispatch whose range misses tests the range.** -/
theorem dispatchTests_missed (hlen : header.length = 92) (hbits : zeroBits ≠ debugHashSentinel)
    (hbound : threads.toNat * iters.toNat ≤ 2 ^ 32)
    (hmiss : Missed header zeroBits.toNat base 0 (threads.toNat * iters.toNat)) :
    dispatchTests (searchParams header zeroBits base threads iters) ((threads.toNat + workgroup - 1) / workgroup) =
      (List.range (threads.toNat * iters.toNat)).map fun k => (base + k) % 2 ^ 64 := by
  have hlt := threads.toNat_lt
  obtain ⟨extra, hextra⟩ : ∃ extra, (threads.toNat + workgroup - 1) / workgroup * workgroup = threads.toNat + extra :=
    Nat.exists_eq_add_of_le (by simp only [workgroup]; omega)
  have hle : threads.toNat + extra ≤ 2 ^ 32 := by
    rw [← hextra]
    simp only [workgroup]
    omega
  have hof : ∀ gid < 2 ^ 32, (UInt32.ofNat gid).toNat = gid := fun gid h => by
    rw [UInt32.toNat_ofNat']
    exact Nat.mod_eq_of_lt h
  have hinside : ((List.range threads.toNat).flatMap fun gid =>
      testsOf (searchParams header zeroBits base threads iters) (UInt32.ofNat gid) (iters.toNat + 1) 0) =
      (List.range threads.toNat).flatMap fun gid =>
        (List.range iters.toNat).map fun j => (base + (gid * iters.toNat + j)) % 2 ^ 64 := by
    refine List.flatMap_congr fun gid hgid => ?_
    rw [List.mem_range] at hgid
    have hrow : (gid + 1) * iters.toNat ≤ threads.toNat * iters.toNat := Nat.mul_le_mul_right _ hgid
    rw [Nat.add_mul, one_mul] at hrow
    have htests := @testsOf_missed header zeroBits threads iters base hlen hbits hbound (UInt32.ofNat gid)
      (by rw [UInt32.lt_iff_toNat_lt, hof gid (hgid.trans hlt)]; exact hgid)
      (fun j hj => by
        rw [hof gid (hgid.trans hlt), ← Nat.zero_add (gid * iters.toNat + j)]
        exact hmiss _ (by omega)) iters.toNat 0 (Nat.zero_add _)
    rw [htests, hof gid (hgid.trans hlt)]
    simp
  have houtside : ((List.range extra).map (threads.toNat + ·)).flatMap (fun gid =>
      testsOf (searchParams header zeroBits base threads iters) (UInt32.ofNat gid) (iters.toNat + 1) 0) = [] := by
    rw [List.flatMap_eq_nil_iff]
    intro gid hgid
    obtain ⟨k, hk, rfl⟩ := List.mem_map.mp hgid
    rw [List.mem_range] at hk
    refine testsOf_outside _ ?_ _ _
    rw [UInt32.le_iff_toNat_le, hof _ (by omega)]
    simp [searchParams]
  rw [dispatchTests, hextra, List.range_add, List.flatMap_append]
  change _ ++ List.flatMap (fun gid =>
    testsOf (searchParams header zeroBits base threads iters) (UInt32.ofNat gid) (iters.toNat + 1) 0) _ = _
  rw [houtside, List.append_nil]
  exact hinside.trans (flatMap_rows (fun k => (base + k) % 2 ^ 64) iters.toNat threads.toNat)

/-- **The miners' predicates are the chain's.** The byte test of the processor search and the bit count of the kernel
accept the hashes that the chain accepts; the kernel's hash is BLAKE3; and a dispatch searches its range exactly. -/
theorem search_predicates_agree {d : ℕ} (hd : d / 16 < 256) {header : List UInt8} (hlen : header.length = 92) :
    (∀ h : Hash, lexLe h.bytes (powTargetBytes (powTargetFromDifficulty d)) = isValidHashWithDifficulty h d) ∧
    (∀ (root : Cv) (h : Hash), root.toList.flatMap wordBytes = h.bytes →
      (UInt32.ofNat (d / 16) ≤ leadingZeroBits root ↔ isValidHashWithDifficulty h d = true)) ∧
    (∀ lo hi : UInt32, (rootOf (headerWords header) lo hi).toList.flatMap wordBytes =
      Blake3.hash (withNonce header (nonceOf lo hi))) ∧
    ∀ (base : ℕ) (threads iters : UInt32), threads.toNat * iters.toNat ≤ 2 ^ 32 →
      (∃ r, SearchBatchIters header (UInt32.ofNat (d / 16)) base threads iters r) ∧
      ∀ r, SearchBatchIters header (UInt32.ofNat (d / 16)) base threads iters r →
        (∀ n, r = some n → (∃ k < threads.toNat * iters.toNat, n = (base + k) % 2 ^ 64) ∧ Passes header d n) ∧
        (r = none →
          dispatchTests (searchParams header (UInt32.ofNat (d / 16)) base threads iters)
              ((threads.toNat + workgroup - 1) / workgroup) =
            (List.range (threads.toNat * iters.toNat)).map (fun k => (base + k) % 2 ^ 64) ∧
          ∀ k < threads.toNat * iters.toNat, ¬ Passes header d ((base + k) % 2 ^ 64)) := by
  have hbits : (UInt32.ofNat (d / 16)).toNat = d / 16 := by
    rw [UInt32.toNat_ofNat']
    omega
  have hsentinel : UInt32.ofNat (d / 16) ≠ debugHashSentinel := by
    intro heq
    have hval : debugHashSentinel.toNat = 4294967295 := rfl
    rw [heq, hval] at hbits
    omega
  refine ⟨fun h => lexLe_powTargetBytes h d, ?_, kernel_hash hlen, ?_⟩
  · intro root h hroot
    rw [UInt32.le_iff_toNat_le, leadingZeroBits_eq, hbits, hroot, le_leadingZeros_iff_valid h hd.le]
  · intro base threads iters hbound
    refine ⟨search_batch_ends hsentinel, fun r h => ⟨fun n hr => ?_, fun hr => ?_⟩⟩
    · obtain ⟨hrange, hclear⟩ := search_batch_hit hlen hsentinel hbound h n hr
      rw [hbits, clears_iff_passes header hd.le] at hclear
      exact ⟨hrange, hclear⟩
    · have hmiss := search_batch_miss hlen hsentinel hbound h hr
      refine ⟨dispatchTests_missed hlen hsentinel hbound hmiss, fun k hk hpass => ?_⟩
      have hnot := hmiss k hk
      rw [Nat.zero_add, hbits, clears_iff_passes header hd.le] at hnot
      exact hnot hpass

/-- Two threads of three nonces, nine zero bits asked for, from the last nonce but one. -/
theorem predicates_agree_zero_header :
    lexLe (Hash.bytes 5) (powTargetBytes (powTargetFromDifficulty 144)) = isValidHashWithDifficulty 5 144 ∧
    ∃ r, SearchBatchIters (List.replicate 92 0) 9 (2 ^ 64 - 2) 2 3 r ∧
      (∀ n, r = some n → (∃ k < 6, n = (2 ^ 64 - 2 + k) % 2 ^ 64) ∧ Passes (List.replicate 92 0) 144 n) ∧
      (r = none → ∀ k < 6, ¬ Passes (List.replicate 92 0) 144 ((2 ^ 64 - 2 + k) % 2 ^ 64)) := by
  obtain ⟨hbytes, -, -, hdispatch⟩ := @search_predicates_agree 144 (by decide)
    (List.replicate 92 0) rfl
  obtain ⟨⟨r, h⟩, hexact⟩ := hdispatch (2 ^ 64 - 2) 2 3 (by decide)
  exact ⟨hbytes 5, r, h, (hexact r h).1, fun hr => ((hexact r h).2 hr).2⟩

end GpuSearch

end Alphanumeric
