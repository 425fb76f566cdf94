/-
# The processor search for a block

`mine_block` fixes a template on the tip and lets a thread pool search its nonces. Each worker
takes a slice, refreshes the header's timestamp, difficulty and target every 1024 nonces, and
compares hashes with the target byte by byte. The first worker with a hit publishes four
numbers one after the other, and the block is built from them. In whatever order the workers
run, the block built meets its proof of work and links to the tip it was searched on; and a
search that nobody interrupted finds nothing only if every nonce of the window was tried
and missed.

Key definitions: `Template`, `Solution`, `solvedBlock`, `Solved`, `grindTurn`, `grindProgram`, `Ground`.
Key theorems: `Solved.passes`, `grind_publishes_a_block`.
-/
import Alphanumeric.PowTarget
import Alphanumeric.Retarget
import Alphanumeric.Lib.ByteCache
import Alphanumeric.Lib.FirstHit
import Mathlib

namespace Alphanumeric

namespace MineGrind

open FirstHit BigEndian
open ByteCache (satAdd)

/-- The header fields a search works with; `number` is the height after the tip's. -/
structure Template where
  parent : Block
  merkleRoot : Hash
  transactions : List Transaction

def Template.number (t : Template) : ℕ := min (t.parent.index + 1) (2 ^ 32 - 1)

/-- What a search hands back: `result_nonce`, `result_timestamp`, `result_difficulty` and
`hash_result`. -/
structure Solution where
  nonce : ℕ
  timestamp : ℕ
  difficulty : ℕ
  hash : Hash

/-- The block `mine_block` builds from a solution. -/
def solvedBlock (t : Template) (s : Solution) : Block where
  index := t.number
  previousHash := t.parent.hash
  timestamp := s.timestamp
  transactions := t.transactions
  nonce := s.nonce
  difficulty := s.difficulty
  hash := s.hash
  merkleRoot := t.merkleRoot

def candidateTimestamp (nowSecs parentTimestamp : ℕ) : ℕ := max nowSecs parentTimestamp

/-- The difficulty a child of the tip has at this time. -/
def Template.difficultyAt (t : Template) (timestamp : ℕ) : ℕ :=
  consensusNextDifficulty t.parent.difficulty (timestamp - t.parent.timestamp) t.number

/-- The 92 bytes of the mining header. -/
def buildHeader (number : ℕ) (previousHash : Hash) (timestamp nonce difficulty : ℕ) (merkleRoot : Hash) :
    List UInt8 :=
  toLeBytes 4 number ++ previousHash.bytes ++ toLeBytes 8 timestamp ++ toLeBytes 8 nonce ++
    toLeBytes 8 difficulty ++ merkleRoot.bytes

def Template.header (t : Template) (timestamp nonce difficulty : ℕ) : List UInt8 :=
  buildHeader t.number t.parent.hash timestamp nonce difficulty t.merkleRoot

variable (E : Env)

/-- What a solution must have for its block to be accepted on the tip. -/
structure Solved (t : Template) (s : Solution) : Prop where
  timestamp : t.parent.timestamp ≤ s.timestamp
  difficulty : s.difficulty = t.difficultyAt s.timestamp
  hash : calculateHashForBlock E (solvedBlock t s) = s.hash
  pow : isValidHashWithDifficulty s.hash s.difficulty = true

variable {E}

theorem Solved.passes {t : Template} {s : Solution} (h : Solved E t s) (hheight : t.parent.index + 1 < 2 ^ 32) :
    verifyPowMeetsFloor E (solvedBlock t s) = true ∧ validateAgainstParent t.parent (solvedBlock t s) = .ok () := by
  have hnumber : t.number = t.parent.index + 1 := min_eq_left (by omega)
  have hfloor : 464 ≤ t.difficultyAt s.timestamp := (consensusNextDifficulty_bounds _ _ (by omega)).1
  have hdiff : networkMinDifficulty ≤ s.difficulty := by rw [h.difficulty]; exact hfloor
  refine ⟨?_, validateAgainstParent_eq_ok.mpr ⟨rfl, ?_, h.timestamp, h.difficulty⟩⟩
  · rw [verifyPowMeetsFloor, if_neg fun hlow => absurd hlow.2 (not_lt.mpr hdiff), verifyPow, h.hash]
    exact h.pow
  · change t.parent.index = t.number - 1
    omega

theorem hash_solvedBlock (t : Template) (nonce timestamp difficulty : ℕ) (hash : Hash) :
    calculateHashForBlock E (solvedBlock t ⟨nonce, timestamp, difficulty, hash⟩) =
      E.blake3 (t.header timestamp nonce difficulty) := rfl

/-! ### One worker -/

/-- What a worker keeps between two nonces. -/
structure Grind where
  nonce : ℕ
  untilCheck : ℕ
  cachedTimestamp : ℕ
  cachedDifficulty : ℕ
  cachedTargetBytes : List UInt8

/-- What a worker may read at a turn: the abort, shutdown and stop flags, the clock, whether the
tip counter moved, and whether the stored tip is another block. -/
structure Reading where
  halted : Bool
  now : ℕ
  tipMoved : Bool
  storedTipMoved : Bool

def Reading.Quiet (r : Reading) : Prop := r.halted = false ∧ r.tipMoved = false ∧ r.storedTipMoved = false

def hotCheckInterval : ℕ := 1024
def tipChangeCheckInterval : ℕ := 256
def dbTipConfirmInterval : ℕ := 262144

/-- The refresh of the cached header fields. -/
def Grind.refresh (t : Template) (now : ℕ) (l : Grind) : Grind :=
  let timestamp := candidateTimestamp now t.parent.timestamp
  if timestamp ≠ l.cachedTimestamp then
    { l with
      cachedTimestamp := timestamp
      cachedDifficulty := t.difficultyAt timestamp
      cachedTargetBytes := powTargetBytes (powTargetFromDifficulty (t.difficultyAt timestamp)) }
  else l

variable (E)

/-- The hash of one nonce, and what follows from it. -/
def Grind.hashTurn (t : Template) (r : Reading) (l : Grind) : Move Grind Solution :=
  let hash := E.blake3 (t.header l.cachedTimestamp l.nonce l.cachedDifficulty)
  if lexLe hash.bytes l.cachedTargetBytes then .hit ⟨l.nonce, l.cachedTimestamp, l.cachedDifficulty, hash⟩
  else if l.nonce % tipChangeCheckInterval = 0 ∧ r.tipMoved then .quit
  else if l.nonce % dbTipConfirmInterval = 0 ∧ r.storedTipMoved then .quit
  else .next { l with nonce := l.nonce + 1 }

/-- One turn of a worker's loop, up to `endNonce`. -/
def grindTurn (t : Template) (endNonce : ℕ) (r : Reading) (found : Bool) (l : Grind) : Move Grind Solution :=
  if ¬ l.nonce < endNonce then .quit
  else if l.untilCheck = 0 then
    if found || r.halted then .quit
    else ({ l.refresh t r.now with untilCheck := hotCheckInterval - 1 } : Grind).hashTurn E t r
  else ({ l with untilCheck := l.untilCheck - 1 } : Grind).hashTurn E t r

/-- The window of a search and the threads that share it. -/
structure Window where
  currentNonce : ℕ
  maxNonce : ℕ
  numThreads : ℕ

namespace Window

/-- `saturating_mul` of `u64`. -/
def satMul (a b : ℕ) : ℕ := min (a * b) (2 ^ 64 - 1)

def noncesPerThread (w : Window) : ℕ := (w.maxNonce + w.numThreads - 1) / w.numThreads
def rangeEnd (w : Window) : ℕ := satAdd w.currentNonce w.maxNonce
def startNonce (w : Window) (id : ℕ) : ℕ := satAdd w.currentNonce (satMul id w.noncesPerThread)
def endNonce (w : Window) (id : ℕ) : ℕ := min (satAdd (w.startNonce id) w.noncesPerThread) w.rangeEnd

end Window

/-- The four cells the winner fills. -/
def grindProgram (t : Template) (w : Window) (allowed : Reading → Prop) :
    Program (Fin w.numThreads) Grind Solution Solution where
  start id := ⟨w.startNonce id, 0, 0, 0, List.replicate 32 0⟩
  move id found l m := ∃ r, allowed r ∧ m = grindTurn E t (w.endNonce id) r found l
  stores s := [fun c => { c with nonce := s.nonce }, fun c => { c with timestamp := s.timestamp },
    fun c => { c with difficulty := s.difficulty }, fun c => { c with hash := s.hash }]

/-- A search over the window may end with the flag at `found` and the cells at `cells`. -/
def Ground (t : Template) (w : Window) (allowed : Reading → Prop) (found : Bool) (cells : Solution) : Prop :=
  ∃ cells₀ s, Runs (grindProgram E t w allowed) ((grindProgram E t w allowed).initial cells₀) s ∧ s.Finished ∧
    s.latch = found ∧ s.payload = cells

/-- This nonce was tried at some time the header may have, and missed. -/
def Tried (t : Template) (nonce : ℕ) : Prop :=
  ∃ timestamp, t.parent.timestamp ≤ timestamp ∧
    isValidHashWithDifficulty (E.blake3 (t.header timestamp nonce (t.difficultyAt timestamp)))
      (t.difficultyAt timestamp) = false

/-! ### What a worker keeps -/

/-- The cached fields are those of one time the header may have. -/
structure Cached (t : Template) (l : Grind) : Prop where
  timestamp : t.parent.timestamp ≤ l.cachedTimestamp
  difficulty : l.cachedDifficulty = t.difficultyAt l.cachedTimestamp
  target : l.cachedTargetBytes = powTargetBytes (powTargetFromDifficulty l.cachedDifficulty)

variable {E} {t : Template}

theorem Cached.of_eq {l l' : Grind} (h : Cached t l) (htime : l'.cachedTimestamp = l.cachedTimestamp)
    (hdiff : l'.cachedDifficulty = l.cachedDifficulty) (htarget : l'.cachedTargetBytes = l.cachedTargetBytes) :
    Cached t l' :=
  ⟨htime ▸ h.timestamp, by rw [hdiff, htime, h.difficulty], by rw [htarget, hdiff, h.target]⟩

/-- A refresh leaves the cache right, also the first one, since no time is zero. -/
theorem Cached.refresh {l : Grind} (now : ℕ) (hpos : 0 < t.parent.timestamp)
    (h : l.cachedTimestamp = 0 ∨ Cached t l) : Cached t (l.refresh t now) := by
  have hle : t.parent.timestamp ≤ candidateTimestamp now t.parent.timestamp := le_max_right ..
  unfold Grind.refresh
  by_cases hne : candidateTimestamp now t.parent.timestamp ≠ l.cachedTimestamp
  · rw [if_pos hne]
    exact ⟨hle, rfl, rfl⟩
  · rw [if_neg hne]
    rcases h with h | h
    · omega
    · exact h

@[simp] theorem refresh_nonce (now : ℕ) (l : Grind) : (l.refresh t now).nonce = l.nonce := by
  unfold Grind.refresh
  dsimp only
  split <;> rfl

/-- All that one hash leads to. -/
theorem hashTurn_cases {r : Reading} {l : Grind} {m : Move Grind Solution} (hc : Cached t l)
    (h : m = l.hashTurn E t r) :
    let hash := E.blake3 (t.header l.cachedTimestamp l.nonce l.cachedDifficulty)
    isValidHashWithDifficulty hash l.cachedDifficulty = true ∧
        m = .hit ⟨l.nonce, l.cachedTimestamp, l.cachedDifficulty, hash⟩ ∨
      isValidHashWithDifficulty hash l.cachedDifficulty = false ∧
        (m = .quit ∧ (r.tipMoved = true ∨ r.storedTipMoved = true) ∨ m = .next { l with nonce := l.nonce + 1 }) := by
  intro hash
  have hlex : lexLe hash.bytes l.cachedTargetBytes = isValidHashWithDifficulty hash l.cachedDifficulty := by
    rw [hc.target, lexLe_powTargetBytes]
  change m = if lexLe hash.bytes l.cachedTargetBytes then _ else _ at h
  rw [hlex] at h
  cases hvalid : isValidHashWithDifficulty hash l.cachedDifficulty with
  | true =>
    rw [if_pos hvalid] at h
    exact .inl ⟨rfl, h⟩
  | false =>
    rw [if_neg (by rw [hvalid]; decide)] at h
    refine .inr ⟨rfl, ?_⟩
    split at h
    · rename_i htip
      exact .inl ⟨h, .inl htip.2⟩
    · split at h
      · rename_i hstored
        exact .inl ⟨h, .inr hstored.2⟩
      · exact .inr h

/-- A turn ends the worker or hashes its nonce with a right cache. -/
theorem grindTurn_cases {endNonce : ℕ} {r : Reading} {found : Bool} {l : Grind} {m : Move Grind Solution}
    (hpos : 0 < t.parent.timestamp) (hc : l.untilCheck = 0 ∧ l.cachedTimestamp = 0 ∨ Cached t l)
    (h : m = grindTurn E t endNonce r found l) :
    m = .quit ∧ (endNonce ≤ l.nonce ∨ found = true ∨ r.halted = true) ∨
      l.nonce < endNonce ∧ ∃ l', l'.nonce = l.nonce ∧ Cached t l' ∧ m = l'.hashTurn E t r := by
  rw [grindTurn] at h
  by_cases hend : l.nonce < endNonce
  · rw [if_neg (not_not.mpr hend)] at h
    by_cases hcheck : l.untilCheck = 0
    · rw [if_pos hcheck] at h
      by_cases hstop : (found || r.halted) = true
      · rw [if_pos hstop] at h
        exact .inl ⟨h, .inr (by simpa using hstop)⟩
      · rw [if_neg hstop] at h
        have hfresh := Cached.refresh r.now hpos (hc.imp_left (·.2))
        exact .inr ⟨hend, { l.refresh t r.now with untilCheck := hotCheckInterval - 1 }, refresh_nonce r.now l,
          hfresh.of_eq rfl rfl rfl, h⟩
    · rw [if_neg hcheck] at h
      have hcached : Cached t l := hc.resolve_left fun h0 => hcheck h0.1
      exact .inr ⟨hend, { l with untilCheck := l.untilCheck - 1 }, rfl, hcached.of_eq rfl rfl rfl, h⟩
  · rw [if_pos hend] at h
    exact .inl ⟨h, .inl (not_lt.mp hend)⟩

/-- Worker `id` at `l`: its cache is right and all its nonces before `l`'s missed. -/
structure GrindInv (E : Env) (t : Template) (first : ℕ) (l : Grind) : Prop where
  low : first ≤ l.nonce
  cache : l.untilCheck = 0 ∧ l.cachedTimestamp = 0 ∨ Cached t l
  tried : ∀ n, first ≤ n → n < l.nonce → Tried E t n

theorem grind_rules (w : Window) (allowed : Reading → Prop) (hpos : 0 < t.parent.timestamp) :
    Rules (grindProgram E t w allowed) (fun id => GrindInv E t (w.startNonce id))
      (fun id s => Solved E t s ∧ w.startNonce id ≤ s.nonce ∧ s.nonce < w.endNonce id)
      (fun id => (∀ r, allowed r → r.Quiet) → ∀ n, w.startNonce id ≤ n → n < w.endNonce id → Tried E t n) := by
  refine ⟨fun id => ⟨le_rfl, .inl ⟨rfl, rfl⟩, fun n hlow hhigh => absurd hlow (not_le.mpr hhigh)⟩, ?_, ?_, ?_⟩
  · rintro id found l l' hl ⟨r, -, hmove⟩
    rcases grindTurn_cases hpos hl.cache hmove with ⟨h, -⟩ | ⟨-, l₁, hnonce, hc, h⟩
    · cases h
    · rcases hashTurn_cases hc h with ⟨-, h⟩ | ⟨hmiss, ⟨h, -⟩ | h⟩
      · cases h
      · cases h
      · cases h
        have hlow := hl.low
        refine ⟨by change _ ≤ l₁.nonce + 1; omega, .inr (hc.of_eq rfl rfl rfl), fun n hfirst hlt => ?_⟩
        rcases Nat.lt_succ_iff_lt_or_eq.mp hlt with hlt | rfl
        · exact hl.tried n hfirst (by omega)
        · exact ⟨l₁.cachedTimestamp, hc.timestamp, by rw [← hc.difficulty]; exact hmiss⟩
  · rintro id found l s hl ⟨r, -, hmove⟩
    rcases grindTurn_cases hpos hl.cache hmove with ⟨h, -⟩ | ⟨hend, l₁, hnonce, hc, h⟩
    · cases h
    · rcases hashTurn_cases hc h with ⟨hvalid, h⟩ | ⟨-, ⟨h, -⟩ | h⟩
      · cases h
        have hlow := hl.low
        refine ⟨⟨hc.timestamp, hc.difficulty, hash_solvedBlock .., hvalid⟩, ?_, ?_⟩
        · change _ ≤ l₁.nonce
          omega
        · change l₁.nonce < _
          omega
      · cases h
      · cases h
  · rintro id l hl ⟨r, hallowed, hmove⟩ hquiet n hfirst hlt
    obtain ⟨hhalt, htip, hstored⟩ := hquiet r hallowed
    rcases grindTurn_cases hpos hl.cache hmove with ⟨-, h | h | h⟩ | ⟨-, l₁, hnonce, hc, h⟩
    · exact hl.tried n hfirst (by omega)
    · cases h
    · rw [hhalt] at h
      cases h
    · rcases hashTurn_cases hc h with ⟨-, h⟩ | ⟨-, ⟨-, h | h⟩ | h⟩
      · cases h
      · rw [htip] at h
        cases h
      · rw [hstored] at h
        cases h
      · cases h

/-! ### The whole search -/

/-- The slices of the workers cover the window. -/
theorem Window.covers (w : Window) (hthreads : 0 < w.numThreads) {n : ℕ} (hlow : w.currentNonce ≤ n)
    (hhigh : n < w.rangeEnd) : ∃ id : Fin w.numThreads, w.startNonce id ≤ n ∧ n < w.endNonce id := by
  simp only [rangeEnd, satAdd, lt_min_iff] at hhigh
  have hfill : w.maxNonce ≤ w.noncesPerThread * w.numThreads := by
    have h := Nat.lt_div_mul_add hthreads (a := w.maxNonce + w.numThreads - 1)
    simp only [noncesPerThread]
    omega
  have hpos : 0 < w.noncesPerThread := Nat.pos_of_ne_zero fun h0 => by simp [h0] at hfill; omega
  have hdiv := Nat.div_add_mod (n - w.currentNonce) w.noncesPerThread
  have hmod := Nat.mod_lt (n - w.currentNonce) hpos
  have hid : (n - w.currentNonce) / w.noncesPerThread < w.numThreads :=
    Nat.div_lt_of_lt_mul (by omega)
  refine ⟨⟨_, hid⟩, ?_⟩
  rw [mul_comm] at hdiv
  simp only [endNonce, startNonce, satAdd, satMul, rangeEnd]
  generalize (n - w.currentNonce) / w.noncesPerThread * w.noncesPerThread = first at hdiv
  omega

/-- What a search hands to the rest of `mine_block`. -/
structure GroundBlock (E : Env) (t : Template) (w : Window) (allowed : Reading → Prop) (found : Bool)
    (s : Solution) : Prop where
  hit : found = true → (w.currentNonce ≤ s.nonce ∧ s.nonce < w.rangeEnd) ∧
    calculateHashForBlock E (solvedBlock t s) = (solvedBlock t s).hash ∧
    verifyPowMeetsFloor E (solvedBlock t s) = true ∧ validateAgainstParent t.parent (solvedBlock t s) = .ok ()
  miss : found = false → (∀ r, allowed r → r.Quiet) → ∀ n, w.currentNonce ≤ n → n < w.rangeEnd → Tried E t n

/-- **A search publishes a block or has tried its window**, whatever the order of the workers. -/
theorem grind_publishes_a_block {w : Window} {allowed : Reading → Prop} {found : Bool} {s : Solution}
    (hpos : 0 < t.parent.timestamp) (hheight : t.parent.index + 1 < 2 ^ 32) (hthreads : 0 < w.numThreads)
    (h : Ground E t w allowed found s) : GroundBlock E t w allowed found s := by
  obtain ⟨cells₀, st, hrun, hdone, hfound, hcells⟩ := h
  rcases (grind_rules w allowed hpos).finished hrun hdone with
    ⟨hlatch, -, hover⟩ | ⟨hlatch, id, s', ⟨hsolved, hlow, hhigh⟩, hpayload⟩
  · refine ⟨fun h => ?_, fun _ hquiet n hlow hhigh => ?_⟩
    · rw [← hfound, hlatch] at h
      cases h
    · obtain ⟨id, hfirst, hlast⟩ := w.covers hthreads hlow hhigh
      exact hover id hquiet n hfirst hlast
  · refine ⟨fun _ => ?_, fun h => ?_⟩
    · obtain rfl : s = s' := by rw [← hcells, hpayload]; rfl
      have hfirst : w.currentNonce ≤ w.startNonce id ∨ w.startNonce id = 2 ^ 64 - 1 := by
        simp only [Window.startNonce, satAdd]
        omega
      have hlast : w.endNonce id ≤ w.rangeEnd := min_le_right ..
      have hmax : w.rangeEnd ≤ 2 ^ 64 - 1 := min_le_right ..
      exact ⟨⟨by omega, by omega⟩, hsolved.hash, hsolved.passes hheight⟩
    · rw [← hfound, hlatch] at h
      cases h

theorem grind_bounded (t : Template) (w : Window) {allowed : Reading → Prop} (hsome : ∃ r, allowed r) :
    Bounded (grindProgram E t w allowed) (fun id l => w.endNonce id - l.nonce) 4 where
  next {id found l l'} h := by
    obtain ⟨r, -, h⟩ := h
    have hnext : ∀ l₁ : Grind, .next l' = l₁.hashTurn E t r → l'.nonce = l₁.nonce + 1 := by
      intro l₁ h₁
      unfold Grind.hashTurn at h₁
      dsimp only at h₁
      split at h₁
      · cases h₁
      · split at h₁
        · cases h₁
        · split at h₁
          · cases h₁
          · cases h₁
            rfl
    rw [grindTurn] at h
    split at h
    · cases h
    · rename_i hend
      split at h
      · split at h
        · cases h
        · have := hnext _ h
          simp only [refresh_nonce] at this
          omega
      · have := hnext _ h
        dsimp only at this
        omega
  moves _ _ _ := ⟨_, hsome.choose, hsome.choose_spec, rfl⟩
  stores _ := le_rfl

/-- **Every search ends.** -/
theorem grind_ends (t : Template) (w : Window) {allowed : Reading → Prop} (hsome : ∃ r, allowed r) :
    ∃ found s, Ground E t w allowed found s := by
  obtain ⟨s, hrun, hdone⟩ := (grind_bounded t w hsome).finishes (Program.initial _ ⟨0, 0, 0, 0⟩)
  exact ⟨s.latch, s.payload, ⟨0, 0, 0, 0⟩, s, hrun, hdone, rfl, rfl⟩

local instance hashNeZero : NeZero (2 ^ 256) := ⟨by decide⟩

def genesisTemplate : Template := ⟨genesisLaunchBlock toyEnv, 0, []⟩

/-- Two threads on a window of five nonces after genesis, uninterrupted. -/
theorem grind_on_genesis : ∃ found s, Ground toyEnv genesisTemplate ⟨7, 5, 2⟩ Reading.Quiet found s ∧
    GroundBlock toyEnv genesisTemplate ⟨7, 5, 2⟩ Reading.Quiet found s := by
  obtain ⟨found, s, h⟩ : ∃ found s, Ground toyEnv genesisTemplate ⟨7, 5, 2⟩ Reading.Quiet found s :=
    grind_ends _ _ ⟨⟨false, 0, false, false⟩, rfl, rfl, rfl⟩
  have hpos : 0 < genesisTemplate.parent.timestamp := by
    change 0 < genesisLaunchTimestamp
    decide
  have hheight : genesisTemplate.parent.index + 1 < 2 ^ 32 := by
    change 0 + 1 < 2 ^ 32
    decide
  exact ⟨found, s, h, grind_publishes_a_block hpos hheight (by decide) h⟩

end MineGrind

end Alphanumeric
