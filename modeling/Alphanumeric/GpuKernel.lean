/-
# The BLAKE3 kernel of the graphics miner

The mining header is 92 bytes, so its BLAKE3 hash is two compressions. The kernel writes all
seven rounds of a compression out, with the permutations of the message folded into fixed
indices, and puts the nonce in at two of the header's words. `kernel_hash` says that what it
computes is the BLAKE3 hash of the header with that nonce, and `leadingZeroBits_eq` that the
zero bits it counts in the result words are those of the hash's bytes.

Key definitions: `kernelLines`, `kernelCompress`, `Params`, `rootOf`, `leadingZeroBits`, `headerWords`,
`withNonce`, `hashOnGpu`.
Key theorems: `kernelCompress_eq`, `kernel_hash`, `hashOnGpu_eq`, `leadingZeroBits_eq`.
-/
import Alphanumeric.PowTarget
import Alphanumeric.Lib.Blake3
import Mathlib

namespace Alphanumeric

namespace GpuKernel

open Blake3 (State Line littleEndian blockWords wordBytes)
open BigEndian

abbrev Cv : Type := Vector UInt32 8

local instance wordNeZero : NeZero 8 := ⟨by decide⟩
local instance laneNeZero : NeZero 16 := ⟨by decide⟩

def kernelIv : Cv :=
  #v[0x6A09E667, 0xBB67AE85, 0x3C6EF372, 0xA54FF53A, 0x510E527F, 0x9B05688C, 0x1F83D9AB, 0x5BE0CD19]

def kernelChunkStart : UInt32 := 1
def kernelChunkEnd : UInt32 := 2
def kernelRoot : UInt32 := 8

def rotr (x n : UInt32) : UInt32 := (x >>> n) ||| (x <<< (32 - n))

def g (a b c d mx my : UInt32) : UInt32 × UInt32 × UInt32 × UInt32 :=
  let ra := a + b + mx
  let rd := rotr (d ^^^ ra) 16
  let rc := c + rd
  let rb := rotr (b ^^^ rc) 12
  let ra := ra + rb + my
  let rd := rotr (rd ^^^ ra) 8
  let rc := rc + rd
  let rb := rotr (rb ^^^ rc) 7
  (ra, rb, rc, rd)

/-- One line of the unrolled compression: `r = g(s_a, s_b, s_c, s_d, m_x, m_y)` and the four
assignments after it. -/
def gLine (m : Vector UInt32 16) (s : State) (l : Line) : State :=
  let r := g (s.get l.a) (s.get l.b) (s.get l.c) (s.get l.d) (m.get l.x) (m.get l.y)
  (((s.set l.a r.1).set l.b r.2.1).set l.c r.2.2.1).set l.d r.2.2.2

/-- The lines of `compress`, eight for each round: the state words and the message words. -/
def kernelLines : List Line :=
  [⟨0, 4, 8, 12, 0, 1⟩, ⟨1, 5, 9, 13, 2, 3⟩, ⟨2, 6, 10, 14, 4, 5⟩, ⟨3, 7, 11, 15, 6, 7⟩,
    ⟨0, 5, 10, 15, 8, 9⟩, ⟨1, 6, 11, 12, 10, 11⟩, ⟨2, 7, 8, 13, 12, 13⟩, ⟨3, 4, 9, 14, 14, 15⟩,
    ⟨0, 4, 8, 12, 2, 6⟩, ⟨1, 5, 9, 13, 3, 10⟩, ⟨2, 6, 10, 14, 7, 0⟩, ⟨3, 7, 11, 15, 4, 13⟩,
    ⟨0, 5, 10, 15, 1, 11⟩, ⟨1, 6, 11, 12, 12, 5⟩, ⟨2, 7, 8, 13, 9, 14⟩, ⟨3, 4, 9, 14, 15, 8⟩,
    ⟨0, 4, 8, 12, 3, 4⟩, ⟨1, 5, 9, 13, 10, 12⟩, ⟨2, 6, 10, 14, 13, 2⟩, ⟨3, 7, 11, 15, 7, 14⟩,
    ⟨0, 5, 10, 15, 6, 5⟩, ⟨1, 6, 11, 12, 9, 0⟩, ⟨2, 7, 8, 13, 11, 15⟩, ⟨3, 4, 9, 14, 8, 1⟩,
    ⟨0, 4, 8, 12, 10, 7⟩, ⟨1, 5, 9, 13, 12, 9⟩, ⟨2, 6, 10, 14, 14, 3⟩, ⟨3, 7, 11, 15, 13, 15⟩,
    ⟨0, 5, 10, 15, 4, 0⟩, ⟨1, 6, 11, 12, 11, 2⟩, ⟨2, 7, 8, 13, 5, 8⟩, ⟨3, 4, 9, 14, 1, 6⟩,
    ⟨0, 4, 8, 12, 12, 13⟩, ⟨1, 5, 9, 13, 9, 11⟩, ⟨2, 6, 10, 14, 15, 10⟩, ⟨3, 7, 11, 15, 14, 8⟩,
    ⟨0, 5, 10, 15, 7, 2⟩, ⟨1, 6, 11, 12, 5, 3⟩, ⟨2, 7, 8, 13, 0, 1⟩, ⟨3, 4, 9, 14, 6, 4⟩,
    ⟨0, 4, 8, 12, 9, 14⟩, ⟨1, 5, 9, 13, 11, 5⟩, ⟨2, 6, 10, 14, 8, 12⟩, ⟨3, 7, 11, 15, 15, 1⟩,
    ⟨0, 5, 10, 15, 13, 3⟩, ⟨1, 6, 11, 12, 0, 10⟩, ⟨2, 7, 8, 13, 2, 6⟩, ⟨3, 4, 9, 14, 4, 7⟩,
    ⟨0, 4, 8, 12, 11, 15⟩, ⟨1, 5, 9, 13, 5, 0⟩, ⟨2, 6, 10, 14, 1, 9⟩, ⟨3, 7, 11, 15, 8, 6⟩,
    ⟨0, 5, 10, 15, 14, 10⟩, ⟨1, 6, 11, 12, 2, 12⟩, ⟨2, 7, 8, 13, 3, 4⟩, ⟨3, 4, 9, 14, 7, 13⟩]

def kernelCompress (cv : Cv) (block : Vector UInt32 16) (blockLen flags : UInt32) : Cv :=
  let s := kernelLines.foldl (gLine block)
    #v[cv.get 0, cv.get 1, cv.get 2, cv.get 3, cv.get 4, cv.get 5, cv.get 6, cv.get 7,
      kernelIv.get 0, kernelIv.get 1, kernelIv.get 2, kernelIv.get 3, 0, 0, blockLen, flags]
  #v[s.get 0 ^^^ s.get 8, s.get 1 ^^^ s.get 9, s.get 2 ^^^ s.get 10, s.get 3 ^^^ s.get 11,
    s.get 4 ^^^ s.get 12, s.get 5 ^^^ s.get 13, s.get 6 ^^^ s.get 14, s.get 7 ^^^ s.get 15]

/-! ### The compression is BLAKE3's -/

theorem rotr_eq (x : UInt32) {n : UInt32} (hpos : 0 < n.toNat) (hn : n.toNat < 32) :
    rotr x n = Blake3.rotateRight x n.toNat := by
  apply UInt32.toBitVec_inj.mp
  have h32 : BitVec.toNat (32 : BitVec 32) = 32 := rfl
  have hmod : n.toNat % 32 = n.toNat := Nat.mod_eq_of_lt hn
  have hmod' : (32 - n.toNat) % 32 = 32 - n.toNat := Nat.mod_eq_of_lt (by omega)
  have hsub : (32 - n).toNat = 32 - n.toNat :=
    UInt32.toNat_sub_of_le _ _ (by rw [UInt32.le_iff_toNat_le]; exact hn.le)
  simp only [rotr, Blake3.rotateRight, UInt32.toBitVec_or, UInt32.toBitVec_shiftRight,
    UInt32.toBitVec_shiftLeft, BitVec.rotateRight_def, BitVec.ushiftRight_eq', BitVec.shiftLeft_eq',
    BitVec.toNat_umod, UInt32.toNat_toBitVec, hsub, h32, hmod, hmod']

theorem g_eq (a b c d mx my : UInt32) : g a b c d mx my = Blake3.quarter a b c d mx my := by
  have h16 : ∀ x, rotr x 16 = Blake3.rotateRight x 16 := fun x => rotr_eq x (by decide) (by decide)
  have h12 : ∀ x, rotr x 12 = Blake3.rotateRight x 12 := fun x => rotr_eq x (by decide) (by decide)
  have h8 : ∀ x, rotr x 8 = Blake3.rotateRight x 8 := fun x => rotr_eq x (by decide) (by decide)
  have h7 : ∀ x, rotr x 7 = Blake3.rotateRight x 7 := fun x => rotr_eq x (by decide) (by decide)
  simp only [g, Blake3.quarter, h16, h12, h8, h7]

theorem gLine_eq (m : Vector UInt32 16) : gLine m = Line.run m := by
  funext s l
  simp only [gLine, g_eq, Line.run, Blake3.mix]
  rfl

/-- The lines are seven rounds, each with the message permuted once more. -/
theorem kernelLines_eq : kernelLines = Blake3.unrolled 0 7 := by decide

/-- **The unrolled compression is BLAKE3's**, for the first chunk. -/
theorem kernelCompress_eq (cv : Cv) (block : Vector UInt32 16) (blockLen flags : UInt32) :
    kernelCompress cv block blockLen flags = Blake3.compress cv block 0 blockLen flags := by
  have hinit : #v[cv.get 0, cv.get 1, cv.get 2, cv.get 3, cv.get 4, cv.get 5, cv.get 6, cv.get 7,
      kernelIv.get 0, kernelIv.get 1, kernelIv.get 2, kernelIv.get 3, 0, 0, blockLen, flags] =
      Blake3.initial cv 0 blockLen flags := rfl
  simp only [kernelCompress, hinit, gLine_eq, kernelLines_eq, Blake3.rounds_eq_unrolled, Blake3.compress]
  rfl

/-! ### The header and its nonce -/

/-- `header_words`: the 92 bytes as little-endian words; the last of the 24 words is zero. -/
def headerWords (header : List UInt8) : Vector UInt32 24 :=
  Vector.ofFn fun i => littleEndian (header.getD (4 * i) 0) (header.getD (4 * i + 1) 0)
    (header.getD (4 * i + 2) 0) (header.getD (4 * i + 3) 0)

/-- The first block, with the nonce in the words 11 and 12. -/
def block0 (w : Vector UInt32 24) (lo hi : UInt32) : Vector UInt32 16 :=
  #v[w[0], w[1], w[2], w[3], w[4], w[5], w[6], w[7], w[8], w[9], w[10], lo, hi, w[13], w[14], w[15]]

def block1 (w : Vector UInt32 24) : Vector UInt32 16 :=
  #v[w[16], w[17], w[18], w[19], w[20], w[21], w[22], 0, 0, 0, 0, 0, 0, 0, 0, 0]

/-- The two compressions of the kernel's `main`. -/
def rootOf (w : Vector UInt32 24) (lo hi : UInt32) : Cv :=
  let cv1 := kernelCompress kernelIv (block0 w lo hi) 64 kernelChunkStart
  kernelCompress cv1 (block1 w) 28 (kernelChunkEnd ||| kernelRoot)

/-- `((hi as u64) << 32) | lo as u64`. -/
def nonceOf (lo hi : UInt32) : ℕ := hi.toNat * 2 ^ 32 + lo.toNat

/-- A header with the nonce in its place, the bytes 44 to 51. -/
def withNonce (header : List UInt8) (nonce : ℕ) : List UInt8 :=
  header.take 44 ++ toLeBytes 8 nonce ++ header.drop 52

/-- Four little-endian bytes of a number are the number modulo `2 ^ 32`. -/
theorem littleEndian_ofNat (n : ℕ) :
    littleEndian (UInt8.ofNat (n % 256)) (UInt8.ofNat (n / 256 % 256)) (UInt8.ofNat (n / 256 / 256 % 256))
      (UInt8.ofNat (n / 256 / 256 / 256 % 256)) = UInt32.ofNat n := by
  apply UInt32.toNat_inj.mp
  simp only [littleEndian, UInt32.toNat_ofNat', UInt8.toNat_ofNat', Nat.mod_mod]
  omega

theorem ofNat_nonceOf (lo hi : UInt32) : UInt32.ofNat (nonceOf lo hi) = lo := by
  apply UInt32.toNat_inj.mp
  have := lo.toNat_lt
  rw [UInt32.toNat_ofNat', nonceOf]
  omega

theorem ofNat_nonceOf_high (lo hi : UInt32) : UInt32.ofNat (nonceOf lo hi / 256 / 256 / 256 / 256) = hi := by
  apply UInt32.toNat_inj.mp
  have := lo.toNat_lt
  have := hi.toNat_lt
  rw [UInt32.toNat_ofNat', nonceOf]
  omega

theorem getElem_blockWords (bytes : List UInt8) {i : ℕ} (hi : i < 16) :
    (blockWords bytes)[i] = littleEndian (bytes.getD (4 * i) 0) (bytes.getD (4 * i + 1) 0)
      (bytes.getD (4 * i + 2) 0) (bytes.getD (4 * i + 3) 0) := by
  simp [blockWords]

theorem getElem_headerWords (bytes : List UInt8) {i : ℕ} (hi : i < 24) :
    (headerWords bytes)[i] = littleEndian (bytes.getD (4 * i) 0) (bytes.getD (4 * i + 1) 0)
      (bytes.getD (4 * i + 2) 0) (bytes.getD (4 * i + 3) 0) := by
  simp [headerWords]

theorem getElem_block0 (w : Vector UInt32 24) (lo hi : UInt32) {i : ℕ} (h : i < 16) :
    (block0 w lo hi)[i] = if i = 11 then lo else if i = 12 then hi else w[i] := by
  interval_cases i <;> rfl

theorem getElem_block1 (w : Vector UInt32 24) {i : ℕ} (h : i < 16) :
    (block1 w)[i] = if h : i < 7 then w[16 + i] else 0 := by
  interval_cases i <;> rfl

section Header

variable {header : List UInt8} (hlen : header.length = 92)
include hlen

theorem length_withNonce (nonce : ℕ) : (withNonce header nonce).length = 92 := by
  simp [withNonce, toLeBytes_len, hlen]

/-- Outside the nonce the bytes are the header's. -/
theorem getD_withNonce (nonce : ℕ) {k : ℕ} (h : k < 44 ∨ 52 ≤ k) :
    (withNonce header nonce).getD k 0 = header.getD k 0 := by
  simp only [withNonce, List.getD_eq_getElem?_getD, List.append_assoc, List.getElem?_append, List.length_take,
    toLeBytes_len, hlen, List.getElem?_take, List.getElem?_drop]
  rcases h with h | h
  · simp [h]
  · rw [if_neg (by omega), if_neg (by omega), show 52 + (k - min 44 92 - 8) = k by omega]

theorem getD_withNonce_nonce (nonce : ℕ) {k : ℕ} (h : k < 8) :
    (withNonce header nonce).getD (44 + k) 0 = (toLeBytes 8 nonce).getD k 0 := by
  simp only [withNonce, List.getD_eq_getElem?_getD, List.append_assoc, List.getElem?_append, List.length_take,
    toLeBytes_len, hlen]
  rw [if_neg (by omega), if_pos (by omega), show 44 + k - min 44 92 = k by omega]

theorem blockWords_take (lo hi : UInt32) :
    blockWords ((withNonce header (nonceOf lo hi)).take 64) = block0 (headerWords header) lo hi := by
  have htake : ∀ k, k < 64 → ((withNonce header (nonceOf lo hi)).take 64).getD k 0 =
      (withNonce header (nonceOf lo hi)).getD k 0 := fun k hk => by
    rw [List.getD_eq_getElem?_getD, List.getElem?_take, if_pos hk, List.getD_eq_getElem?_getD]
  apply Vector.ext
  intro i hi'
  rw [getElem_blockWords _ hi', getElem_block0 _ _ _ hi', htake _ (by omega), htake _ (by omega),
    htake _ (by omega), htake _ (by omega)]
  have hnonce := fun k (hk : k < 8) => getD_withNonce_nonce hlen (nonceOf lo hi) hk
  by_cases h11 : i = 11
  · subst h11
    rw [if_pos rfl]
    change littleEndian ((withNonce header (nonceOf lo hi)).getD (44 + 0) 0) (List.getD _ (44 + 1) 0)
      (List.getD _ (44 + 2) 0) (List.getD _ (44 + 3) 0) = lo
    rw [hnonce 0 (by omega), hnonce 1 (by omega), hnonce 2 (by omega), hnonce 3 (by omega)]
    exact (littleEndian_ofNat _).trans (ofNat_nonceOf lo hi)
  · by_cases h12 : i = 12
    · subst h12
      rw [if_neg (by omega), if_pos rfl]
      change littleEndian ((withNonce header (nonceOf lo hi)).getD (44 + 4) 0) (List.getD _ (44 + 5) 0)
        (List.getD _ (44 + 6) 0) (List.getD _ (44 + 7) 0) = hi
      rw [hnonce 4 (by omega), hnonce 5 (by omega), hnonce 6 (by omega), hnonce 7 (by omega)]
      exact (littleEndian_ofNat _).trans (ofNat_nonceOf_high lo hi)
    · rw [if_neg h11, if_neg h12, getElem_headerWords _ (by omega), getD_withNonce hlen _ (by omega),
        getD_withNonce hlen _ (by omega), getD_withNonce hlen _ (by omega), getD_withNonce hlen _ (by omega)]

theorem blockWords_drop (nonce : ℕ) :
    blockWords ((withNonce header nonce).drop 64) = block1 (headerWords header) := by
  have hdrop : ∀ k, ((withNonce header nonce).drop 64).getD k 0 = (withNonce header nonce).getD (64 + k) 0 :=
    fun k => by rw [List.getD_eq_getElem?_getD, List.getElem?_drop, List.getD_eq_getElem?_getD]
  have hrest : ∀ k, 92 ≤ k → (withNonce header nonce).getD k 0 = 0 := fun k hk => by
    rw [List.getD_eq_getElem?_getD, List.getElem?_eq_none (by rw [length_withNonce hlen]; exact hk)]
    rfl
  apply Vector.ext
  intro i hi
  rw [getElem_blockWords _ hi, getElem_block1 _ hi, hdrop, hdrop, hdrop, hdrop]
  by_cases h : i < 7
  · rw [dif_pos h, getElem_headerWords _ (by omega), getD_withNonce hlen _ (by omega),
      getD_withNonce hlen _ (by omega), getD_withNonce hlen _ (by omega), getD_withNonce hlen _ (by omega)]
    rw [show 64 + 4 * i = 4 * (16 + i) by omega, show 64 + (4 * i + 1) = 4 * (16 + i) + 1 by omega,
      show 64 + (4 * i + 2) = 4 * (16 + i) + 2 by omega, show 64 + (4 * i + 3) = 4 * (16 + i) + 3 by omega]
  · rw [dif_neg h, hrest _ (by omega), hrest _ (by omega), hrest _ (by omega), hrest _ (by omega)]
    rfl

/-- **What the kernel computes is the BLAKE3 hash of the header with the nonce.** -/
theorem kernel_hash (lo hi : UInt32) :
    (rootOf (headerWords header) lo hi).toList.flatMap wordBytes =
      Blake3.hash (withNonce header (nonceOf lo hi)) := by
  have hlen' := length_withNonce hlen (nonceOf lo hi)
  have hlast : UInt32.ofNat ((withNonce header (nonceOf lo hi)).length - 64) = 28 := by rw [hlen']; rfl
  rw [Blake3.hash_two_blocks (by omega) (by omega), blockWords_take hlen, blockWords_drop hlen, hlast]
  simp only [rootOf, kernelCompress_eq]
  rfl

end Header

/-- `hash_on_gpu`: the debug branch of `main`, for the nonce itself, and the result words as bytes. -/
def hashOnGpu (header : List UInt8) (nonce : ℕ) : List UInt8 :=
  let root := rootOf (headerWords header) (UInt32.ofNat nonce) (UInt32.ofNat (nonce / 2 ^ 32))
  root.toList.flatMap fun w => toLeBytes 4 w.toNat

theorem toLeBytes_word (x : UInt32) : toLeBytes 4 x.toNat = wordBytes x := by
  simp [toLeBytes, wordBytes, Nat.div_div_eq_div_mul]

/-- **The self-check of the kernel never fails**: on every header and nonce it gives BLAKE3's bytes. -/
theorem hashOnGpu_eq {header : List UInt8} (hlen : header.length = 92) {nonce : ℕ} (hnonce : nonce < 2 ^ 64) :
    hashOnGpu header nonce = Blake3.hash (withNonce header nonce) := by
  have hwords : nonceOf (UInt32.ofNat nonce) (UInt32.ofNat (nonce / 2 ^ 32)) = nonce := by
    rw [nonceOf, UInt32.toNat_ofNat', UInt32.toNat_ofNat']
    omega
  simp only [hashOnGpu, toLeBytes_word, kernel_hash hlen, hwords]

theorem hashOnGpu_zero : hashOnGpu (List.replicate 92 0) 5 = Blake3.hash (withNonce (List.replicate 92 0) 5) :=
  hashOnGpu_eq rfl (by decide)

/-! ### The zero bits of the result -/

/-- WGSL's `countLeadingZeros`. -/
def countLeadingZeros (x : UInt32) : UInt32 := if x = 0 then 32 else 31 - x.log2

def wordLeadingZerosFrom (x : UInt32) : List UInt32 → UInt32 → UInt32 × UInt32
  | [], total => (total, 0)
  | b :: bs, total =>
    let byte := (x >>> (b * 8)) &&& 0xFF
    if byte = 0 then wordLeadingZerosFrom x bs (total + 8) else (total + (countLeadingZeros byte - 24), 1)

/-- `word_leading_zeros`: the bytes of the word from the low one, and whether one of them is not zero. -/
def wordLeadingZeros (x : UInt32) : UInt32 × UInt32 := wordLeadingZerosFrom x [0, 1, 2, 3] 0

def wordsLeadingZeros : List UInt32 → UInt32 → UInt32
  | [], total => total
  | x :: xs, total =>
    let r := wordLeadingZeros x
    if r.2 = 1 then total + r.1 else wordsLeadingZeros xs (total + r.1)

def leadingZeroBits (h : Cv) : UInt32 := wordsLeadingZeros h.toList 0

def byteAt (x b : UInt32) : UInt8 := UInt8.ofNat ((x >>> (b * 8)) &&& 0xFF).toNat

theorem toNat_and_ff (x : UInt32) : (x &&& 0xFF).toNat = x.toNat % 256 := by
  rw [UInt32.toNat_and]
  exact Nat.and_two_pow_sub_one_eq_mod x.toNat 8

theorem toNat_byteAt (x b : UInt32) : (byteAt x b).toNat = ((x >>> (b * 8)) &&& 0xFF).toNat := by
  rw [byteAt, UInt8.toNat_ofNat', toNat_and_ff, Nat.mod_mod]

/-- The zeros `countLeadingZeros` finds in a byte, less the 24 above it. -/
theorem clz_byte {x : UInt32} (hx : x ≠ 0) (hlt : x.toNat < 256) :
    (countLeadingZeros x - 24).toNat = 7 - x.toNat.log2 := by
  have hne : x.toNat ≠ 0 := fun h => hx (UInt32.toNat_inj.mp (by simpa using h))
  have hlog : x.toNat.log2 < 8 := (Nat.log2_lt hne).mpr (by omega)
  have hlog' : x.log2.toNat = x.toNat.log2 := rfl
  have h31 : (31 - x.log2).toNat = 31 - x.toNat.log2 := by
    rw [UInt32.toNat_sub_of_le _ _ (by rw [UInt32.le_iff_toNat_le, hlog']; change _ ≤ 31; omega), hlog']
    rfl
  rw [countLeadingZeros, if_neg hx,
    UInt32.toNat_sub_of_le _ _ (by rw [UInt32.le_iff_toNat_le, h31]; change 24 ≤ _; omega), h31]
  change 31 - x.toNat.log2 - 24 = _
  omega

theorem wordLeadingZerosFrom_eq (x : UInt32) : ∀ (bs : List UInt32) (total : UInt32),
    total.toNat + 8 * bs.length < 2 ^ 32 →
      (wordLeadingZerosFrom x bs total).1.toNat = total.toNat + leadingZeros (bs.map (byteAt x)) ∧
        ((wordLeadingZerosFrom x bs total).2 = 1 ↔ leadingZeros (bs.map (byteAt x)) ≠ 8 * bs.length)
  | [], total, _ => by simp [wordLeadingZerosFrom, leadingZeros]
  | b :: bs, total, h => by
    rw [List.length_cons] at h
    have hbyte : byteAt x b = 0 ↔ (x >>> (b * 8)) &&& 0xFF = 0 := by
      rw [← UInt8.toNat_inj, ← UInt32.toNat_inj, toNat_byteAt]
      rfl
    simp only [wordLeadingZerosFrom, List.map_cons, leadingZeros, hbyte, List.length_cons]
    split
    · have hadd : (total + 8).toNat = total.toNat + 8 := by
        rw [UInt32.toNat_add]
        change (total.toNat + 8) % 2 ^ 32 = _
        omega
      obtain ⟨hsum, hstop⟩ := wordLeadingZerosFrom_eq x bs (total + 8) (by omega)
      exact ⟨by omega, by rw [hstop]; omega⟩
    · rename_i hne
      have hlt : ((x >>> (b * 8)) &&& 0xFF).toNat < 256 := by
        rw [toNat_and_ff]
        exact Nat.mod_lt _ (by omega)
      have hclz := clz_byte hne hlt
      rw [UInt32.toNat_add, hclz, toNat_byteAt]
      exact ⟨Nat.mod_eq_of_lt (by omega), iff_of_true rfl (by omega)⟩

theorem wordBytes_eq (x : UInt32) : [0, 1, 2, 3].map (byteAt x) = wordBytes x := by
  have hbyte : ∀ b n : UInt32, b * 8 = n → n.toNat < 32 →
      byteAt x b = UInt8.ofNat (x.toNat / 2 ^ n.toNat % 256) := by
    intro b n hb hn
    rw [byteAt, toNat_and_ff, hb, UInt32.toNat_shiftRight, Nat.mod_eq_of_lt hn, Nat.shiftRight_eq_div_pow]
  simp only [List.map_cons, List.map_nil, wordBytes]
  rw [hbyte 0 0 rfl (by decide), hbyte 1 8 rfl (by decide), hbyte 2 16 rfl (by decide),
    hbyte 3 24 rfl (by decide)]
  simp

theorem wordsLeadingZeros_eq : ∀ (xs : List UInt32) (total : UInt32),
    total.toNat + 32 * xs.length < 2 ^ 32 →
      (wordsLeadingZeros xs total).toNat = total.toNat + leadingZeros (xs.flatMap wordBytes)
  | [], total, _ => by simp [wordsLeadingZeros, leadingZeros]
  | x :: xs, total, h => by
    rw [List.length_cons] at h
    obtain ⟨hsum, hstop⟩ := wordLeadingZerosFrom_eq x [0, 1, 2, 3] 0 (by decide)
    rw [wordBytes_eq] at hsum hstop
    have hle := leadingZeros_le (wordBytes x)
    have hlen : (wordBytes x).length = 4 := rfl
    rw [List.flatMap_cons, leadingZeros_append, wordsLeadingZeros]
    change (wordLeadingZeros x).1.toNat = 0 + leadingZeros (wordBytes x) at hsum
    change (wordLeadingZeros x).2 = 1 ↔ leadingZeros (wordBytes x) ≠ 32 at hstop
    have hadd : (total + (wordLeadingZeros x).1).toNat = total.toNat + leadingZeros (wordBytes x) := by
      rw [UInt32.toNat_add, hsum]
      omega
    by_cases hfull : leadingZeros (wordBytes x) = 32
    · rw [if_neg (by rw [hstop]; exact fun hne => hne hfull), wordsLeadingZeros_eq xs _ (by omega),
        if_pos (by omega)]
      omega
    · rw [if_pos (hstop.mpr hfull), if_neg (by omega), hadd]

/-- **The kernel counts the zero bits of the hash's bytes.** -/
theorem leadingZeroBits_eq (h : Cv) :
    (leadingZeroBits h).toNat = leadingZeros (h.toList.flatMap wordBytes) := by
  rw [leadingZeroBits, wordsLeadingZeros_eq _ _ (by rw [Vector.length_toList]; decide)]
  exact Nat.zero_add _

end GpuKernel

end Alphanumeric
