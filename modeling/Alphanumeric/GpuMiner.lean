/-
# The graphics miner, from the devices to the block

Every device of the pool runs its own search loop: it stamps the header with the clock, sends
one dispatch of consecutive nonces, and goes on behind them, a dispatch sized by how long the
last one took. Device `k` of `n` starts at its own stride of the nonces. The first device with a
hit ends the attempt.

A hit is a block that its network accepts on the tip (`attempt_finds_a_block`), since the
kernel's hash is BLAKE3, its bit count is the target and a dispatch searches exactly; and while
no device has gone round its stride, no two of all the nonces the attempt tried are the same
(`attempt_never_repeats`).

Key definitions: `nextDispatchIters`, `DeviceSearch`, `nonceBaseForSlot`, `Attempt`, `tries`.
Key theorems: `attempt_finds_a_block`, `attempt_never_repeats`.
-/
import Alphanumeric.GpuSearch
import Alphanumeric.MineGrind
import Mathlib

namespace Alphanumeric

namespace GpuMiner

open GpuKernel GpuSearch MineGrind BigEndian

def dispatchThreads : ℕ := 65535 * 256
def maxIters : ℕ := 256

/-- `next_dispatch_iters`. `scaled` is the rounded quotient of the floats as an integer; there is
none where the time measured is below a millisecond or the quotient is not finite. -/
def nextDispatchIters (current : ℕ) (scaled : Option ℤ) (maxIters : ℕ) : ℕ :=
  match scaled with
  | none => current
  | some x => (max 1 (min x maxIters)).toNat

/-- One dispatch of a device: the header's time, the first nonce and how many. -/
structure Sent where
  timestamp : ℕ
  base : ℕ
  count : ℕ

/-- The nonces of a dispatch, and of all a device sent. -/
def Sent.nonces (d : Sent) : List ℕ := (List.range d.count).map fun j => (d.base + j) % 2 ^ 64

def tries (sent : List Sent) : List ℕ := sent.flatMap Sent.nonces

def total (sent : List Sent) : ℕ := (sent.map Sent.count).sum

variable (E : Env)

/-- What a hit becomes: the header with the nonce is hashed again, by the processor. -/
def hitOf (t : Template) (timestamp nonce : ℕ) : Solution where
  nonce := nonce
  timestamp := timestamp
  difficulty := t.difficultyAt timestamp
  hash := E.blake3 (t.header timestamp nonce (t.difficultyAt timestamp))

/-- The dispatch of `iters` nonces a thread from `base`, at the clock `now`, may answer `r`. -/
def Answers (t : Template) (now base iters : ℕ) (r : Option ℕ) : Prop :=
  let timestamp := max now t.parent.timestamp
  let difficulty := t.difficultyAt timestamp
  SearchBatchIters (t.header timestamp 0 difficulty) (UInt32.ofNat (difficulty / 16)) base
    (UInt32.ofNat dispatchThreads) (UInt32.ofNat iters) r

def sentAt (t : Template) (now base iters : ℕ) : Sent :=
  ⟨max now t.parent.timestamp, base, dispatchThreads * iters⟩

/-- The loop of `device_search`, entered with `base` and `iters`: the dispatches it sends and
what it returns. Before each turn it may be out of time, or the tip moved, or it was stopped, or
another device was faster. -/
inductive DeviceSearch (t : Template) : ℕ → ℕ → List Sent → Option Solution → Prop
  | stopped (base iters : ℕ) : DeviceSearch t base iters [] none
  | preempted {base iters now nonce : ℕ} : Answers t now base iters (some nonce) →
    DeviceSearch t base iters [sentAt t now base iters] none
  | hit {base iters now nonce : ℕ} : Answers t now base iters (some nonce) →
    DeviceSearch t base iters [sentAt t now base iters] (some (hitOf E t (max now t.parent.timestamp) nonce))
  | next {base iters now : ℕ} {scaled : Option ℤ} {sent : List Sent} {r : Option Solution} :
    Answers t now base iters none →
    DeviceSearch t ((base + dispatchThreads * iters) % 2 ^ 64) (nextDispatchIters iters scaled maxIters) sent r →
    DeviceSearch t base iters (sentAt t now base iters :: sent) r

/-- Where device `slot` of `slots` starts. -/
def stride (slots : ℕ) : ℕ := (2 ^ 64 - 1) / max slots 1

def nonceBaseForSlot (base slot slots : ℕ) : ℕ := (base + stride slots * slot) % 2 ^ 64

/-- One device's part in an attempt. A device that panicked returns nothing. -/
structure DeviceRun where
  slot : ℕ
  sent : List Sent
  answer : Option Solution

/-- An attempt of `slots` live devices, as they came back, and what it returns: the first hit. -/
structure Attempt (t : Template) (base slots : ℕ) (runs : List DeviceRun) (r : Option Solution) : Prop where
  distinct : (runs.map (·.slot)).Nodup
  inPool : ∀ run ∈ runs, run.slot < slots
  device : ∀ run ∈ runs, ∃ lastIters, DeviceSearch E t (nonceBaseForSlot base run.slot slots)
    (max 1 (min lastIters maxIters)) run.sent run.answer
  first : r = runs.findSome? (·.answer)

/-! ### The header of a hit -/

theorem withNonce_header (t : Template) (timestamp nonce difficulty : ℕ) :
    withNonce (t.header timestamp 0 difficulty) nonce = t.header timestamp nonce difficulty := by
  have hfront : (toLeBytes 4 t.number ++ t.parent.hash.bytes ++ toLeBytes 8 timestamp).length = 44 := by
    simp [toLeBytes_len, length_hash]
  have hsplit : ∀ n, t.header timestamp n difficulty =
      (toLeBytes 4 t.number ++ t.parent.hash.bytes ++ toLeBytes 8 timestamp) ++
        (toLeBytes 8 n ++ (toLeBytes 8 difficulty ++ t.merkleRoot.bytes)) := fun n => by
    simp only [Template.header, buildHeader, List.append_assoc]
  rw [withNonce, hsplit 0, hsplit nonce, List.take_left' hfront, List.drop_append, hfront,
    List.drop_eq_nil_of_le (by omega), List.nil_append, List.drop_left' (by rw [toLeBytes_len]), List.append_assoc]

theorem length_header (t : Template) (timestamp nonce difficulty : ℕ) :
    (t.header timestamp nonce difficulty).length = 92 := by
  simp [Template.header, buildHeader, toLeBytes_len, length_hash]

/-! ### A hit is a block -/

variable {E} {t : Template}

theorem difficultyAt_bounds (t : Template) (timestamp : ℕ) :
    464 ≤ t.difficultyAt timestamp ∧ t.difficultyAt timestamp ≤ 4080 :=
  consensusNextDifficulty_bounds _ _ (by simp only [Template.number]; omega)

theorem nextDispatchIters_le {current : ℕ} (h : 1 ≤ current ∧ current ≤ maxIters) (scaled : Option ℤ) :
    1 ≤ nextDispatchIters current scaled maxIters ∧ nextDispatchIters current scaled maxIters ≤ maxIters := by
  cases scaled with
  | none => exact h
  | some x =>
    simp only [nextDispatchIters, maxIters]
    omega

/-- A dispatch's answer clears the bits its header's difficulty asks for. -/
theorem answers_clears {now base iters nonce : ℕ} (hiters : iters ≤ maxIters)
    (h : Answers t now base iters (some nonce)) :
    Clears (t.header (max now t.parent.timestamp) 0 (t.difficultyAt (max now t.parent.timestamp)))
      (t.difficultyAt (max now t.parent.timestamp) / 16) nonce := by
  have hd := difficultyAt_bounds t (max now t.parent.timestamp)
  have hbits : (UInt32.ofNat (t.difficultyAt (max now t.parent.timestamp) / 16)).toNat =
      t.difficultyAt (max now t.parent.timestamp) / 16 := by
    rw [UInt32.toNat_ofNat']
    omega
  have hsentinel : UInt32.ofNat (t.difficultyAt (max now t.parent.timestamp) / 16) ≠ debugHashSentinel := by
    intro heq
    have hval : debugHashSentinel.toNat = 4294967295 := rfl
    rw [heq, hval] at hbits
    omega
  have hbound : (UInt32.ofNat dispatchThreads).toNat * (UInt32.ofNat iters).toNat ≤ 2 ^ 32 := by
    rw [UInt32.toNat_ofNat', UInt32.toNat_ofNat']
    simp only [dispatchThreads, maxIters] at hiters ⊢
    omega
  have hclear := (search_batch_hit (length_header ..) hsentinel hbound h nonce rfl).2
  rwa [hbits] at hclear

/-- `blake3::hash` is BLAKE3, for an input of the header's length. -/
def BlakeCrate (E : Env) : Prop := ∀ bytes : List UInt8, bytes.length = 92 → (E.blake3 bytes).bytes = Blake3.hash bytes

theorem hitOf_solved (hE : BlakeCrate E) {now base iters nonce : ℕ} (hiters : iters ≤ maxIters)
    (h : Answers t now base iters (some nonce)) : Solved E t (hitOf E t (max now t.parent.timestamp) nonce) := by
  have hd := difficultyAt_bounds t (max now t.parent.timestamp)
  have hclear := answers_clears hiters h
  rw [Clears, withNonce_header, ← hE _ (length_header ..), le_leadingZeros_iff_valid _ (by omega)] at hclear
  exact ⟨le_max_right .., rfl, hash_solvedBlock .., hclear⟩

theorem device_solved (hE : BlakeCrate E) {base iters : ℕ} {sent : List Sent} {r : Option Solution}
    (hiters : 1 ≤ iters ∧ iters ≤ maxIters) (h : DeviceSearch E t base iters sent r) :
    ∀ s, r = some s → Solved E t s := by
  induction h with
  | stopped => intro s hs; cases hs
  | preempted => intro s hs; cases hs
  | hit hanswer =>
    intro s hs
    cases hs
    exact hitOf_solved hE hiters.2 hanswer
  | next _ _ ih => exact ih (nextDispatchIters_le hiters _)

/-- A device can send one dispatch and come back. -/
theorem one_dispatch (E : Env) (t : Template) (base iters : ℕ) :
    ∃ sent r, DeviceSearch E t base iters sent r ∧ total sent = dispatchThreads * iters := by
  have hd := difficultyAt_bounds t (max 0 t.parent.timestamp)
  have hsentinel : UInt32.ofNat (t.difficultyAt (max 0 t.parent.timestamp) / 16) ≠ debugHashSentinel := by
    intro heq
    have hval := congrArg UInt32.toNat heq
    rw [UInt32.toNat_ofNat', show debugHashSentinel.toNat = 4294967295 from rfl] at hval
    omega
  obtain ⟨r, h⟩ : ∃ r, Answers t 0 base iters r := search_batch_ends hsentinel
  cases r with
  | none => exact ⟨_, _, @DeviceSearch.next E t base iters 0 none _ _ h (.stopped ..), by simp [total, sentAt]⟩
  | some nonce => exact ⟨_, _, .hit h, by simp [total, sentAt]⟩

/-- Two devices that each send the first dispatch of a new pool. -/
theorem two_devices (E : Env) (t : Template) (base : ℕ) : ∃ runs r, Attempt E t base 2 runs r ∧
    runs.length = 2 ∧ ∀ run ∈ runs, total run.sent = dispatchThreads * 4 := by
  obtain ⟨sent₀, r₀, h₀, htotal₀⟩ := one_dispatch E t (nonceBaseForSlot base 0 2) 4
  obtain ⟨sent₁, r₁, h₁, htotal₁⟩ := one_dispatch E t (nonceBaseForSlot base 1 2) 4
  refine ⟨[⟨0, sent₀, r₀⟩, ⟨1, sent₁, r₁⟩], _, ⟨by simp, by simp, fun run hrun => ⟨4, ?_⟩, rfl⟩, rfl, ?_⟩
  · rcases List.mem_pair.mp hrun with rfl | rfl
    · exact h₀
    · exact h₁
  · intro run hrun
    rcases List.mem_pair.mp hrun with rfl | rfl
    · exact htotal₀
    · exact htotal₁

/-- **A hit of the pool is a block of the chain**: its hash is the block's, meets the difficulty
the tip asks for, and the block links to the tip. -/
theorem attempt_finds_a_block (hE : BlakeCrate E) (hheight : t.parent.index + 1 < 2 ^ 32) {base slots : ℕ}
    {runs : List DeviceRun} {r : Option Solution} (h : Attempt E t base slots runs r) :
    ∀ s, r = some s → calculateHashForBlock E (solvedBlock t s) = (solvedBlock t s).hash ∧
      verifyPowMeetsFloor E (solvedBlock t s) = true ∧ validateAgainstParent t.parent (solvedBlock t s) = .ok () := by
  intro s hs
  obtain ⟨run, hrun, hanswer⟩ := List.exists_of_findSome?_eq_some (h.first.symm.trans hs)
  obtain ⟨lastIters, hsearch⟩ := h.device run hrun
  have hiters : 1 ≤ max 1 (min lastIters maxIters) ∧ max 1 (min lastIters maxIters) ≤ maxIters := by
    simp only [maxIters]
    omega
  have hsolved := device_solved hE hiters hsearch s hanswer
  exact ⟨hsolved.hash, hsolved.passes hheight⟩

local instance hashNeZero : NeZero (2 ^ 256) := ⟨by decide⟩

/-- An environment whose `blake3` is BLAKE3. -/
def blakeEnv : Env :=
  { toyEnv with blake3 := fun bytes => Fin.ofNat (2 ^ 256) (value (Blake3.hash bytes)) }

theorem blakeEnv_crate : BlakeCrate blakeEnv := by
  intro bytes _
  have hlen := length_blake3 bytes
  have hlt : value (Blake3.hash bytes) < 2 ^ 256 := by
    have h := value_lt (Blake3.hash bytes)
    rw [hlen] at h
    exact h.trans_eq (by norm_num)
  refine value_inj ((length_hash _).trans hlen.symm) ?_
  rw [value_hash]
  exact Nat.mod_eq_of_lt hlt

theorem pool_on_genesis : ∃ runs r, Attempt blakeEnv genesisTemplate 5 2 runs r ∧ runs.length = 2 ∧
    ∀ s, r = some s → calculateHashForBlock blakeEnv (solvedBlock genesisTemplate s) = s.hash ∧
      verifyPowMeetsFloor blakeEnv (solvedBlock genesisTemplate s) = true ∧
      validateAgainstParent genesisTemplate.parent (solvedBlock genesisTemplate s) = .ok () := by
  obtain ⟨runs, r, h, hlen, -⟩ := two_devices blakeEnv genesisTemplate 5
  have hheight : genesisTemplate.parent.index + 1 < 2 ^ 32 := by
    change 0 + 1 < 2 ^ 32
    decide
  exact ⟨runs, r, h, hlen, attempt_finds_a_block blakeEnv_crate hheight h⟩

/-! ### No nonce is tried twice -/

/-- A device walks straight on from where it started. -/
theorem tries_eq {base iters : ℕ} {sent : List Sent} {r : Option Solution}
    (h : DeviceSearch E t base iters sent r) :
    tries sent = (List.range (total sent)).map fun j => (base + j) % 2 ^ 64 := by
  induction h with
  | stopped => rfl
  | preempted => simp [tries, total, Sent.nonces, sentAt]
  | hit => simp [tries, total, Sent.nonces, sentAt]
  | @next base iters now scaled sent r _ _ ih =>
    have htotal : total (sentAt t now base iters :: sent) = dispatchThreads * iters + total sent := by
      simp [total, sentAt]
    have htries : tries (sentAt t now base iters :: sent) = (sentAt t now base iters).nonces ++ tries sent := rfl
    rw [htries, ih, htotal, List.range_add, List.map_append, List.map_map]
    congr 1
    refine List.map_congr_left fun j _ => ?_
    simp only [Function.comp, Nat.mod_add_mod, Nat.add_assoc]

theorem add_mod_inj {base a b : ℕ} (ha : a < 2 ^ 64) (hb : b < 2 ^ 64)
    (h : (base + a) % 2 ^ 64 = (base + b) % 2 ^ 64) : a = b := by omega

theorem mem_tries {base iters : ℕ} {sent : List Sent} {r : Option Solution}
    (h : DeviceSearch E t base iters sent r) {n : ℕ} :
    n ∈ tries sent ↔ ∃ j < total sent, (base + j) % 2 ^ 64 = n := by
  rw [tries_eq h]
  simp

/-- The offset of a try from the attempt's base: its device's stride and its place in it. -/
theorem offset_lt {slots slot j : ℕ} (hslot : slot < slots) (hj : j < stride slots) :
    stride slots * slot + j < 2 ^ 64 := by
  have hfill : stride slots * slots ≤ 2 ^ 64 - 1 := by
    rw [stride, max_eq_left (by omega)]
    exact Nat.div_mul_le_self ..
  have hrow : stride slots * (slot + 1) ≤ stride slots * slots := Nat.mul_le_mul_left _ hslot
  rw [Nat.mul_add, mul_one] at hrow
  omega

/-- **No nonce is tried twice** in an attempt, by one device or by two, until some device has sent
more than its stride. -/
theorem attempt_never_repeats {base slots : ℕ} {runs : List DeviceRun} {r : Option Solution}
    (h : Attempt E t base slots runs r) (hround : ∀ run ∈ runs, total run.sent ≤ stride slots) :
    (runs.flatMap fun run => tries run.sent).Nodup := by
  have htry : ∀ run ∈ runs, ∀ n, n ∈ tries run.sent → ∃ j < total run.sent,
      stride slots * run.slot + j < 2 ^ 64 ∧ (base + (stride slots * run.slot + j)) % 2 ^ 64 = n := by
    intro run hrun n hn
    obtain ⟨_, hsearch⟩ := h.device run hrun
    obtain ⟨j, hj, rfl⟩ := (mem_tries hsearch).mp hn
    refine ⟨j, hj, offset_lt (h.inPool run hrun) (hj.trans_le (hround run hrun)), ?_⟩
    rw [nonceBaseForSlot, Nat.mod_add_mod, Nat.add_assoc]
  rw [List.nodup_flatMap]
  constructor
  · intro run hrun
    obtain ⟨_, hsearch⟩ := h.device run hrun
    rw [tries_eq hsearch]
    have hone : stride slots ≤ 2 ^ 64 - 1 := Nat.div_le_self ..
    refine List.Nodup.map_on (fun j hj j' hj' heq => ?_) List.nodup_range
    have hle := hround run hrun
    rw [List.mem_range] at hj hj'
    exact add_mod_inj (by omega) (by omega) heq
  · refine (List.pairwise_map.mp h.distinct).imp_of_mem fun {run run'} hrun hrun' hne => ?_
    intro n hn hn'
    obtain ⟨j, hj, hlt, hval⟩ := htry run hrun n hn
    obtain ⟨j', hj', hlt', hval'⟩ := htry run' hrun' n hn'
    have heq := add_mod_inj hlt hlt' (hval.trans hval'.symm)
    -- two offsets of different strides differ
    have hj₁ := hj.trans_le (hround run hrun)
    have hj₂ := hj'.trans_le (hround run' hrun')
    refine hne ?_
    have hdiv : ∀ k x, x < stride slots → (stride slots * k + x) / stride slots = k := fun k x hx => by
      rw [Nat.mul_add_div (by omega), Nat.div_eq_of_lt hx, add_zero]
    rw [← hdiv run.slot j hj₁, heq, hdiv _ _ hj₂]

theorem pool_never_repeats : ∃ runs r, Attempt toyEnv genesisTemplate 5 2 runs r ∧ runs.length = 2 ∧
    (runs.flatMap fun run => tries run.sent).Nodup := by
  obtain ⟨runs, r, h, hlen, htotal⟩ := two_devices toyEnv genesisTemplate 5
  refine ⟨runs, r, h, hlen, attempt_never_repeats h fun run hrun => ?_⟩
  rw [htotal run hrun]
  decide

end GpuMiner

end Alphanumeric
