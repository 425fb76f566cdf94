/-
# BLAKE3 of one chunk

The compression function of BLAKE3 and the hash it gives an input that fits in one chunk of
1024 bytes. The seven rounds run on a state of sixteen words, and the message words are
permuted between two rounds. A compression written out in full does not move the message: it
reads it through the composed permutations. `unrolled` is that list of quarter-rounds, and
`rounds_eq_unrolled` says that it computes the rounds.

Key definitions: `mix`, `round`, `rounds`, `compress`, `hash`, `Line`, `unrolled`.
Key theorems: `rounds_eq_unrolled`, `hash_two_blocks`.
-/
import Mathlib

namespace Blake3

abbrev Word : Type := UInt32
abbrev State : Type := Vector Word 16
abbrev ChainingValue : Type := Vector Word 8

def iv : ChainingValue :=
  #v[0x6A09E667, 0xBB67AE85, 0x3C6EF372, 0xA54FF53A, 0x510E527F, 0x9B05688C, 0x1F83D9AB, 0x5BE0CD19]

def chunkStart : Word := 1
def chunkEnd : Word := 2
def root : Word := 8

/-! ### The rounds -/

def rotateRight (x : Word) (n : ℕ) : Word := ⟨x.toBitVec.rotateRight n⟩

/-- The quarter-round on four words, with the two message words it takes in. -/
def quarter (a b c d x y : Word) : Word × Word × Word × Word :=
  let a := a + b + x
  let d := rotateRight (d ^^^ a) 16
  let c := c + d
  let b := rotateRight (b ^^^ c) 12
  let a := a + b + y
  let d := rotateRight (d ^^^ a) 8
  let c := c + d
  let b := rotateRight (b ^^^ c) 7
  (a, b, c, d)

/-- The quarter-round on the words `a`, `b`, `c` and `d` of the state. -/
def mix (s : State) (a b c d : Fin 16) (x y : Word) : State :=
  let q := quarter s[a] s[b] s[c] s[d] x y
  (((s.set a q.1).set b q.2.1).set c q.2.2.1).set d q.2.2.2

/-- Where the eight quarter-rounds of a round act: the columns, then the diagonals. -/
def slots : List (Fin 16 × Fin 16 × Fin 16 × Fin 16) :=
  [(0, 4, 8, 12), (1, 5, 9, 13), (2, 6, 10, 14), (3, 7, 11, 15),
    (0, 5, 10, 15), (1, 6, 11, 12), (2, 7, 8, 13), (3, 4, 9, 14)]

/-- The message words of the quarter-rounds of a round, two each in order. -/
def wordPairs : List (Fin 16 × Fin 16) :=
  [(0, 1), (2, 3), (4, 5), (6, 7), (8, 9), (10, 11), (12, 13), (14, 15)]

def round (s : State) (m : Vector Word 16) : State :=
  (slots.zip wordPairs).foldl (fun s p => mix s p.1.1 p.1.2.1 p.1.2.2.1 p.1.2.2.2 m[p.2.1] m[p.2.2]) s

def permutation : Vector (Fin 16) 16 := #v[2, 6, 3, 10, 7, 0, 4, 13, 1, 11, 12, 5, 9, 14, 15, 8]

def permute (m : Vector Word 16) : Vector Word 16 := Vector.ofFn fun i => m[permutation[i]]

def rounds : ℕ → State → Vector Word 16 → State
  | 0, s, _ => s
  | n + 1, s, m => rounds n (round s m) (permute m)

/-! ### The compression and the hash -/

def initial (cv : ChainingValue) (counter : UInt64) (blockLen flags : Word) : State :=
  #v[cv[0], cv[1], cv[2], cv[3], cv[4], cv[5], cv[6], cv[7], iv[0], iv[1], iv[2], iv[3],
    counter.toUInt32, (counter >>> 32).toUInt32, blockLen, flags]

/-- The first eight words of the output, which are the next chaining value, or the hash when
the block is the root's last. -/
def compress (cv : ChainingValue) (block : Vector Word 16) (counter : UInt64) (blockLen flags : Word) :
    ChainingValue :=
  let s := rounds 7 (initial cv counter blockLen flags) block
  #v[s[0] ^^^ s[8], s[1] ^^^ s[9], s[2] ^^^ s[10], s[3] ^^^ s[11],
    s[4] ^^^ s[12], s[5] ^^^ s[13], s[6] ^^^ s[14], s[7] ^^^ s[15]]

/-- Four bytes as a word, the low byte first. -/
def littleEndian (b₀ b₁ b₂ b₃ : UInt8) : Word :=
  UInt32.ofNat (b₀.toNat + 256 * (b₁.toNat + 256 * (b₂.toNat + 256 * b₃.toNat)))

/-- The words of a block; a short block is padded with zeros. -/
def blockWords (bytes : List UInt8) : Vector Word 16 :=
  Vector.ofFn fun i => littleEndian (bytes.getD (4 * i) 0) (bytes.getD (4 * i + 1) 0)
    (bytes.getD (4 * i + 2) 0) (bytes.getD (4 * i + 3) 0)

def wordBytes (x : Word) : List UInt8 :=
  [UInt8.ofNat (x.toNat % 256), UInt8.ofNat (x.toNat / 256 % 256),
    UInt8.ofNat (x.toNat / 65536 % 256), UInt8.ofNat (x.toNat / 16777216 % 256)]

/-- `k` full blocks of the chunk, then its last one. `start` is the first block's flag. -/
def absorb : ℕ → ChainingValue → Word → List UInt8 → ChainingValue
  | 0, cv, start, bytes =>
    compress cv (blockWords bytes) 0 (UInt32.ofNat bytes.length) (start ||| chunkEnd ||| root)
  | k + 1, cv, start, bytes =>
    absorb k (compress cv (blockWords (bytes.take 64)) 0 64 start) 0 (bytes.drop 64)

/-- The hash of an input of at most 1024 bytes. -/
def hash (bytes : List UInt8) : List UInt8 :=
  (absorb ((bytes.length - 1) / 64) iv chunkStart bytes).toList.flatMap wordBytes

/-- The hash of the empty input starts with these bytes. -/
example : (hash []).take 8 = [0xaf, 0x13, 0x49, 0xb9, 0xf5, 0xf9, 0xa1, 0xa6] := by decide +kernel

/-- An input of more than one block and at most two. -/
theorem hash_two_blocks {bytes : List UInt8} (hlow : 64 < bytes.length) (hhigh : bytes.length ≤ 128) :
    hash bytes = (compress (compress iv (blockWords (bytes.take 64)) 0 64 chunkStart)
      (blockWords (bytes.drop 64)) 0 (UInt32.ofNat (bytes.length - 64)) (chunkEnd ||| root)).toList.flatMap
        wordBytes := by
  have hblocks : (bytes.length - 1) / 64 = 1 := by omega
  rw [hash, hblocks, absorb, absorb, List.length_drop, UInt32.zero_or]

/-! ### The rounds written out -/

/-- One quarter-round of an unrolled compression: the state words it acts on and the message
words it takes in. -/
structure Line where
  (a b c d x y : Fin 16)
  deriving DecidableEq

def Line.run (m : Vector Word 16) (s : State) (l : Line) : State := mix s l.a l.b l.c l.d m[l.x] m[l.y]

/-- Where the word `i` of the round `r` stands in the message. -/
def schedule : ℕ → Fin 16 → Fin 16
  | 0, i => i
  | r + 1, i => schedule r permutation[i]

def roundLines (place : Fin 16 → Fin 16) : List Line :=
  (slots.zip wordPairs).map fun p => ⟨p.1.1, p.1.2.1, p.1.2.2.1, p.1.2.2.2, place p.2.1, place p.2.2⟩

/-- The quarter-rounds of the rounds `r, …, r + n - 1`, each reading the message itself. -/
def unrolled (r n : ℕ) : List Line := (List.range' r n).flatMap fun r => roundLines (schedule r)

theorem roundLines_run (place : Fin 16 → Fin 16) (m : Vector Word 16) (s : State) :
    (roundLines place).foldl (Line.run m) s = round s (Vector.ofFn fun i => m[place i]) := by
  simp only [roundLines, List.foldl_map, round, Line.run, Fin.getElem_fin, Vector.getElem_ofFn, Fin.eta]

theorem permute_schedule (r : ℕ) (m : Vector Word 16) :
    permute (Vector.ofFn fun i => m[schedule r i]) = Vector.ofFn fun i => m[schedule (r + 1) i] := by
  ext i hi
  simp [permute, schedule]

theorem rounds_from (m : Vector Word 16) : ∀ (n r : ℕ) (s : State),
    (unrolled r n).foldl (Line.run m) s = rounds n s (Vector.ofFn fun i => m[schedule r i])
  | 0, _, _ => rfl
  | n + 1, r, s => by
    have ih := rounds_from m n (r + 1)
    simp only [unrolled] at ih
    rw [unrolled, List.range'_succ, List.flatMap_cons, List.foldl_append, roundLines_run, ih, rounds,
      permute_schedule]

/-- **The unrolled rounds are the rounds.** -/
theorem rounds_eq_unrolled (n : ℕ) (m : Vector Word 16) (s : State) :
    (unrolled 0 n).foldl (Line.run m) s = rounds n s m := by
  have hm : (Vector.ofFn fun i : Fin 16 => m[schedule 0 i]) = m := by
    ext i hi
    simp [schedule]
  rw [rounds_from, hm]

end Blake3
