/-
# A dispatch of the graphics kernel searches exactly

One dispatch runs a thread for every slice of the nonces, all at once, over one result: the
atomic flag `found`, and two nonce words that the thread which swaps the flag first stores
one after the other. A thread looks at the flag every 64 nonces and leaves when it is up.
Whatever the interleaving, what the host reads back is a nonce of the range that clears the
target, or, with the flag down, no nonce of the range clears it.

Key definitions: `Params`, `kernelMove`, `kernelProgram`, `Dispatched`, `SearchBatchIters`, `Clears`.
Key theorems: `search_batch_exact`, `search_batch_ends`.
-/
import Alphanumeric.GpuKernel
import Alphanumeric.Lib.FirstHit

namespace Alphanumeric

namespace GpuSearch

open FirstHit BigEndian GpuKernel

/-- The words the host uploads. -/
structure Params where
  header : Vector UInt32 24
  nonceLo : UInt32
  nonceHi : UInt32
  zeroBits : UInt32
  threads : UInt32
  iters : UInt32

/-- `DEBUG_HASH_SENTINEL`: a dispatch with it stores one hash and searches nothing. -/
def debugHashSentinel : UInt32 := 0xFFFFFFFF

def workgroup : ℕ := 256

/-- The nonce words of the try `i` of the thread `gid`: one addition with carry to the base. -/
def tryNonce (p : Params) (gid i : UInt32) : UInt32 × UInt32 :=
  let threadBase := gid * p.iters
  let offset := threadBase + i
  let lo := p.nonceLo + offset
  (lo, if lo < p.nonceLo then p.nonceHi + 1 else p.nonceHi)

/-- One turn of the loop of `main` in the thread `gid`. -/
def kernelMove (p : Params) (gid : UInt32) (found : Bool) (i : UInt32) : Move UInt32 (UInt32 × UInt32) :=
  if p.threads ≤ gid then .quit
  else if p.zeroBits = debugHashSentinel then .quit
  else if ¬ i < p.iters then .quit
  else if i &&& 63 = 0 ∧ found then .quit
  else
    let n := tryNonce p gid i
    if p.zeroBits ≤ leadingZeroBits (rootOf p.header n.1 n.2) then .hit n else .next (i + 1)

/-- The nonce words of the result buffer. -/
structure NonceCells where
  nonceLo : UInt32
  nonceHi : UInt32

/-- The threads of `groups` workgroups. -/
def kernelProgram (p : Params)
    (groups : ℕ) : Program (Fin (groups * workgroup)) UInt32 (UInt32 × UInt32) NonceCells where
  start _ := 0
  move gid found i m := m = kernelMove p (UInt32.ofNat gid) found i
  stores n := [fun c => { c with nonceLo := n.1 }, fun c => { c with nonceHi := n.2 }]

/-- `dispatch`: the flag and the nonce words read back once every thread has returned. -/
def Dispatched (p : Params) (groups : ℕ) (found : Bool) (out : NonceCells) : Prop :=
  ∃ s, Runs (kernelProgram p groups) ((kernelProgram p groups).initial ⟨0, 0⟩) s ∧ s.Finished ∧
    s.latch = found ∧ s.payload = out

def searchParams (header : List UInt8) (zeroBits : UInt32) (baseNonce : ℕ) (threads iters : UInt32) : Params where
  header := headerWords header
  nonceLo := UInt32.ofNat baseNonce
  nonceHi := UInt32.ofNat (baseNonce / 2 ^ 32)
  zeroBits := zeroBits
  threads := threads
  iters := iters

/-- `search_batch_iters` may answer `r`. -/
def SearchBatchIters (header : List UInt8) (zeroBits : UInt32) (baseNonce : ℕ) (threads iters : UInt32)
    (r : Option ℕ) : Prop :=
  ∃ found out, Dispatched (searchParams header zeroBits baseNonce threads iters)
    ((threads.toNat + workgroup - 1) / workgroup) found out ∧
      r = if found then some (nonceOf out.nonceLo out.nonceHi) else none

/-- The header with this nonce hashes to at least so many zero bits. -/
def Clears (header : List UInt8) (zeroBits nonce : ℕ) : Prop :=
  zeroBits ≤ leadingZeros (Blake3.hash (withNonce header nonce))

theorem length_blake3 (bytes : List UInt8) : (Blake3.hash bytes).length = 32 := by
  have hword : ∀ x, (Blake3.wordBytes x).length = 4 := fun _ => rfl
  simp [Blake3.hash, List.length_flatMap, hword]

/-! ### One thread -/

/-- All a thread can do in one turn. -/
theorem kernelMove_cases {p : Params} {gid i : UInt32} {found : Bool} {m : Move UInt32 (UInt32 × UInt32)}
    (hbits : p.zeroBits ≠ debugHashSentinel) (h : m = kernelMove p gid found i) :
    (m = .quit ∧ (p.threads ≤ gid ∨ p.iters ≤ i ∨ found = true)) ∨
      gid < p.threads ∧ i < p.iters ∧
        ((p.zeroBits ≤ leadingZeroBits (rootOf p.header (tryNonce p gid i).1 (tryNonce p gid i).2) ∧
            m = .hit (tryNonce p gid i)) ∨
          (¬ p.zeroBits ≤ leadingZeroBits (rootOf p.header (tryNonce p gid i).1 (tryNonce p gid i).2) ∧
            m = .next (i + 1))) := by
  rw [kernelMove, if_neg hbits] at h
  by_cases hgid : p.threads ≤ gid
  · rw [if_pos hgid] at h
    exact .inl ⟨h, .inl hgid⟩
  by_cases hi : i < p.iters
  · rw [if_neg hgid, if_neg (not_not.mpr hi)] at h
    by_cases hlook : i &&& 63 = 0 ∧ found = true
    · rw [if_pos hlook] at h
      exact .inl ⟨h, .inr (.inr hlook.2)⟩
    · rw [if_neg hlook] at h
      refine .inr ⟨UInt32.not_le.mp hgid, hi, ?_⟩
      by_cases hclear : p.zeroBits ≤ leadingZeroBits (rootOf p.header (tryNonce p gid i).1 (tryNonce p gid i).2)
      · exact .inl ⟨hclear, by rw [h]; exact if_pos hclear⟩
      · exact .inr ⟨hclear, by rw [h]; exact if_neg hclear⟩
  · rw [if_neg hgid, if_pos hi] at h
    exact .inl ⟨h, .inr (.inl (UInt32.not_lt.mp hi))⟩

section Dispatch

variable {header : List UInt8} {zeroBits threads iters : UInt32} {base : ℕ}

theorem kernel_clears (hlen : header.length = 92) (lo hi : UInt32) :
    zeroBits ≤ leadingZeroBits (rootOf (headerWords header) lo hi) ↔
      Clears header zeroBits.toNat (nonceOf lo hi) := by
  rw [UInt32.le_iff_toNat_le, leadingZeroBits_eq, kernel_hash hlen, Clears]

/-- The carry is exact: the words are those of the base plus the offset. -/
theorem nonceOf_tryNonce (hbound : threads.toNat * iters.toNat ≤ 2 ^ 32)
    {gid i : UInt32} (hgid : gid < threads) (hi : i < iters) :
    let n := tryNonce (searchParams header zeroBits base threads iters) gid i
    gid.toNat * iters.toNat + i.toNat < threads.toNat * iters.toNat ∧
      nonceOf n.1 n.2 = (base + (gid.toNat * iters.toNat + i.toNat)) % 2 ^ 64 := by
  rw [UInt32.lt_iff_toNat_lt] at hgid hi
  have hrow : (gid.toNat + 1) * iters.toNat ≤ threads.toNat * iters.toNat := Nat.mul_le_mul_right _ hgid
  rw [Nat.add_mul, one_mul] at hrow
  have hoff : (gid * iters + i).toNat = gid.toNat * iters.toNat + i.toNat := by
    rw [UInt32.toNat_add, UInt32.toNat_mul, Nat.mod_add_mod]
    exact Nat.mod_eq_of_lt (by omega)
  refine ⟨by omega, ?_⟩
  simp only [tryNonce, searchParams, nonceOf, UInt32.lt_iff_toNat_lt, apply_ite UInt32.toNat, UInt32.toNat_add, hoff,
    UInt32.toNat_ofNat', UInt32.toNat_one]
  split <;> omega

/-- The tries of one thread, `n` of them from its first, that all miss. -/
def Missed (header : List UInt8) (zeroBits base first n : ℕ) : Prop :=
  ∀ j < n, ¬ Clears header zeroBits ((base + (first + j)) % 2 ^ 64)

theorem kernel_rules (hlen : header.length = 92) (hbits : zeroBits ≠ debugHashSentinel)
    (hbound : threads.toNat * iters.toNat ≤ 2 ^ 32) {groups : ℕ} (hgroups : groups * workgroup ≤ 2 ^ 32) :
    Rules (kernelProgram (searchParams header zeroBits base threads iters) groups)
      (fun gid i => i ≤ iters ∧ Missed header zeroBits.toNat base (gid * iters.toNat) i.toNat)
      (fun _ n => ∃ k < threads.toNat * iters.toNat, nonceOf n.1 n.2 = (base + k) % 2 ^ 64 ∧
        Clears header zeroBits.toNat (nonceOf n.1 n.2))
      (fun gid => gid < threads.toNat → Missed header zeroBits.toNat base (gid * iters.toNat) iters.toNat) := by
  have hgid : ∀ gid : Fin (groups * workgroup), (UInt32.ofNat gid).toNat = gid := fun gid => by
    rw [UInt32.toNat_ofNat']
    exact Nat.mod_eq_of_lt (gid.isLt.trans_le hgroups)
  refine ⟨fun gid => ⟨by simp [kernelProgram], fun j hj => absurd hj (Nat.not_lt_zero j)⟩, ?_, ?_, ?_⟩
  · rintro gid found i i' ⟨-, hmiss⟩ hmove
    rcases kernelMove_cases hbits hmove with ⟨h, -⟩ | ⟨hlt, hi, ⟨-, h⟩ | ⟨hmissed, h⟩⟩
    · cases h
    · cases h
    · cases h
      have hi' : i.toNat < iters.toNat := UInt32.lt_iff_toNat_lt.mp hi
      have hnext : (i + 1).toNat = i.toNat + 1 := by
        have := iters.toNat_lt
        rw [UInt32.toNat_add]
        exact Nat.mod_eq_of_lt (by change i.toNat + 1 < 2 ^ 32; omega)
      refine ⟨by rw [UInt32.le_iff_toNat_le, hnext]; exact hi', fun j hj => ?_⟩
      rcases Nat.lt_succ_iff_lt_or_eq.mp (hnext ▸ hj) with hj | rfl
      · exact hmiss j hj
      · -- the try of this turn
        have hn := (@nonceOf_tryNonce header zeroBits threads iters base hbound _ _ hlt hi).2
        rw [hgid] at hn
        rw [← hn]
        exact fun h => hmissed ((kernel_clears hlen _ _).mpr h)
  · rintro gid found i n ⟨-, -⟩ hmove
    rcases kernelMove_cases hbits hmove with ⟨h, -⟩ | ⟨hlt, hi, ⟨hclear, h⟩ | ⟨-, h⟩⟩
    · cases h
    · cases h
      have hn := @nonceOf_tryNonce header zeroBits threads iters base hbound _ _ hlt hi
      exact ⟨_, hn.1, hn.2, (kernel_clears hlen _ _).mp hclear⟩
    · cases h
  · rintro gid i ⟨hle, hmiss⟩ hmove hlt
    rcases kernelMove_cases hbits hmove with ⟨-, h | h | h⟩ | ⟨-, -, ⟨-, h⟩ | ⟨-, h⟩⟩
    · rw [UInt32.le_iff_toNat_le, hgid] at h
      exact absurd hlt (not_lt.mpr h)
    · rw [UInt32.le_antisymm hle h] at hmiss
      exact hmiss
    · cases h
    · cases h
    · cases h

theorem kernel_bounded (p : Params) (hbits : p.zeroBits ≠ debugHashSentinel) (groups : ℕ) :
    Bounded (kernelProgram p groups) (fun _ i => p.iters.toNat - i.toNat) 2 where
  next {gid found i i'} h := by
    rcases kernelMove_cases hbits h with ⟨h, -⟩ | ⟨-, hi, ⟨-, h⟩ | ⟨-, h⟩⟩
    · cases h
    · cases h
    · cases h
      have hi' := UInt32.lt_iff_toNat_lt.mp hi
      have := p.iters.toNat_lt
      have hnext : (i + 1).toNat = i.toNat + 1 := by
        rw [UInt32.toNat_add]
        exact Nat.mod_eq_of_lt (by change i.toNat + 1 < 2 ^ 32; omega)
      omega
  moves _ _ _ := ⟨_, rfl⟩
  stores _ := le_rfl

/-- What the host reads back: no nonce, and every thread ran through its tries, or a nonce of a thread that hit. -/
theorem search_batch_read (hlen : header.length = 92) (hbits : zeroBits ≠ debugHashSentinel)
    (hbound : threads.toNat * iters.toNat ≤ 2 ^ 32) {r : Option ℕ}
    (h : SearchBatchIters header zeroBits base threads iters r) :
    (r = none ∧ ∀ gid < threads.toNat, Missed header zeroBits.toNat base (gid * iters.toNat) iters.toNat) ∨
      ∃ n, r = some n ∧ (∃ k < threads.toNat * iters.toNat, n = (base + k) % 2 ^ 64) ∧
        Clears header zeroBits.toNat n := by
  obtain ⟨found, out, ⟨s, hrun, hdone, hfound, hout⟩, hr⟩ := h
  have hgroups : (threads.toNat + workgroup - 1) / workgroup * workgroup ≤ 2 ^ 32 := by
    have := threads.toNat_lt
    simp only [workgroup]
    omega
  have hall : threads.toNat ≤ (threads.toNat + workgroup - 1) / workgroup * workgroup := by
    simp only [workgroup]
    omega
  rcases (kernel_rules hlen hbits hbound hgroups).finished hrun hdone with
    ⟨hlatch, -, hover⟩ | ⟨hlatch, gid, n, ⟨k, hk, hn, hclear⟩, hpayload⟩
  · rw [hfound] at hlatch
    rw [hr, hlatch]
    exact .inl ⟨rfl, fun gid hgid => hover ⟨gid, hgid.trans_le hall⟩ hgid⟩
  · rw [hfound] at hlatch
    rw [hout] at hpayload
    have hnonce : nonceOf out.nonceLo out.nonceHi = nonceOf n.1 n.2 := by rw [hpayload]; rfl
    rw [hr, hlatch]
    exact .inr ⟨_, rfl, ⟨k, hk, hnonce.trans hn⟩, by rwa [hnonce]⟩

theorem search_batch_hit (hlen : header.length = 92) (hbits : zeroBits ≠ debugHashSentinel)
    (hbound : threads.toNat * iters.toNat ≤ 2 ^ 32) {r : Option ℕ}
    (h : SearchBatchIters header zeroBits base threads iters r) (n : ℕ) (hr : r = some n) :
    (∃ k < threads.toNat * iters.toNat, n = (base + k) % 2 ^ 64) ∧ Clears header zeroBits.toNat n := by
  rcases search_batch_read hlen hbits hbound h with ⟨hnone, -⟩ | ⟨n', hsome, hn⟩
  · rw [hr] at hnone
    cases hnone
  · obtain rfl : n = n' := by simpa [hr] using hsome
    exact hn

theorem search_batch_miss (hlen : header.length = 92) (hbits : zeroBits ≠ debugHashSentinel)
    (hbound : threads.toNat * iters.toNat ≤ 2 ^ 32) {r : Option ℕ}
    (h : SearchBatchIters header zeroBits base threads iters r) (hr : r = none) :
    Missed header zeroBits.toNat base 0 (threads.toNat * iters.toNat) := by
  rcases search_batch_read hlen hbits hbound h with ⟨-, hover⟩ | ⟨n, hsome, -⟩
  · intro j hj
    -- the thread and the turn that try this nonce
    have hpos : 0 < iters.toNat := Nat.pos_of_ne_zero fun h0 => by simp [h0] at hj
    have hgid : j / iters.toNat < threads.toNat := Nat.div_lt_of_lt_mul (by rwa [mul_comm])
    have hmiss := hover (j / iters.toNat) hgid (j % iters.toNat) (Nat.mod_lt j hpos)
    rwa [mul_comm, Nat.div_add_mod, ← Nat.zero_add j] at hmiss
  · rw [hr] at hsome
    cases hsome

/-- **What the host reads back.** A nonce is one of the range and clears the target; without
one, every nonce of the range misses. -/
theorem search_batch_exact (hlen : header.length = 92) (hbits : zeroBits ≠ debugHashSentinel)
    (hbound : threads.toNat * iters.toNat ≤ 2 ^ 32) {r : Option ℕ}
    (h : SearchBatchIters header zeroBits base threads iters r) :
    (∀ n, r = some n → (∃ k < threads.toNat * iters.toNat, n = (base + k) % 2 ^ 64) ∧
        Clears header zeroBits.toNat n) ∧
      (r = none → Missed header zeroBits.toNat base 0 (threads.toNat * iters.toNat)) :=
  ⟨search_batch_hit hlen hbits hbound h, search_batch_miss hlen hbits hbound h⟩

/-- **Every dispatch ends**, from whatever point its threads have reached, so it has an answer. -/
theorem search_batch_ends (hbits : zeroBits ≠ debugHashSentinel) :
    ∃ r, SearchBatchIters header zeroBits base threads iters r := by
  obtain ⟨s, hrun, hdone⟩ := (kernel_bounded (searchParams header zeroBits base threads iters) hbits
    ((threads.toNat + workgroup - 1) / workgroup)).finishes (Program.initial _ ⟨0, 0⟩)
  exact ⟨_, s.latch, s.payload, ⟨s, hrun, hdone, rfl, rfl⟩, rfl⟩

end Dispatch

/-- Two threads of three nonces each, from the last nonce but one: the range goes past the end. -/
theorem search_zero_header : ∃ r, SearchBatchIters (List.replicate 92 0) 9 (2 ^ 64 - 2) 2 3 r ∧
    (∀ n, r = some n → (∃ k < 6, n = (2 ^ 64 - 2 + k) % 2 ^ 64) ∧ Clears (List.replicate 92 0) 9 n) ∧
      (r = none → Missed (List.replicate 92 0) 9 (2 ^ 64 - 2) 0 6) := by
  obtain ⟨r, h⟩ : ∃ r, SearchBatchIters (List.replicate 92 0) 9 (2 ^ 64 - 2) 2 3 r := search_batch_ends (by decide)
  exact ⟨r, h, search_batch_exact rfl (by decide) (by decide) h⟩

end GpuSearch

end Alphanumeric
