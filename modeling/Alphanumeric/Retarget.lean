/-
# The difficulty retarget

`Block::consensus_next_difficulty` (`src/a9/blockchain.rs`) moves the parent's clamped difficulty
by a number of points that depends only on the time since the parent, and clamps the
result. The step is rounded away from zero and is zero only on time, so the difficulty
stays where it is only on time or at a bound. `consensusNextDifficultyChecked` is the computation in the
source's machine integers with every operation checked; it never fails.

Key definitions: `clampedDifficulty`, `retargetStep`, `consensusNextDifficultyChecked`.
Key theorems: `consensusNextDifficulty_eq`, `retargetStep_antitone`, `nextDifficultyChecked_eq`, `retarget_law`.
-/
import Alphanumeric.Validation

namespace Alphanumeric

/-- The parent's difficulty, clamped. -/
def clampedDifficulty (d : ℕ) : ℕ := max networkMinDifficulty (min d maxNetworkDifficulty)

theorem clampedDifficulty_mono {d d' : ℕ} (h : d ≤ d') : clampedDifficulty d ≤ clampedDifficulty d' := by
  unfold clampedDifficulty
  omega

theorem clampedDifficulty_bounds (d : ℕ) : 464 ≤ clampedDifficulty d ∧ clampedDifficulty d ≤ 4080 := by
  unfold clampedDifficulty networkMinDifficulty maxNetworkDifficulty
  omega

/-- The points by which the difficulty moves before the clamp. -/
def retargetStep (dt : ℕ) : ℤ :=
  let timingError : ℤ := (targetBlockTime : ℤ) - dt
  let rounded := divRoundAwayFromZero (timingError * difficultyPointsPerHalving) difficultyRetargetHalfLifeSecs
  if rounded = 0 ∧ timingError ≠ 0 then timingError.sign else rounded

/-! ### The step -/

theorem retargetStep_early {dt : ℕ} (h : dt < 5) : retargetStep dt = ((5 - dt) * 16 + 59) / 60 := by
  have hsign : ((5 - (dt : ℤ)) * 16).sign = 1 := Int.sign_eq_one_of_pos (by omega)
  simp only [retargetStep, divRoundAwayFromZero, targetBlockTime, difficultyPointsPerHalving,
    difficultyRetargetHalfLifeSecs, Nat.cast_ofNat, hsign]
  split_ifs <;> omega

theorem retargetStep_on_time : retargetStep 5 = 0 := by decide

theorem retargetStep_late {dt : ℕ} (h : 5 < dt) : retargetStep dt = -(((dt - 5) * 16 + 59) / 60) := by
  have hsign : ((5 - (dt : ℤ)) * 16).sign = -1 := Int.sign_eq_neg_one_of_neg (by omega)
  simp only [retargetStep, divRoundAwayFromZero, targetBlockTime, difficultyPointsPerHalving,
    difficultyRetargetHalfLifeSecs, Nat.cast_ofNat, hsign]
  split_ifs <;> omega

/-- Early blocks raise, late ones lower, by at least one point; the rise is at most two. -/
theorem retargetStep_sign (dt : ℕ) : (dt < 5 ∧ 1 ≤ retargetStep dt ∧ retargetStep dt ≤ 2) ∨
    (dt = 5 ∧ retargetStep dt = 0) ∨ (5 < dt ∧ retargetStep dt ≤ -1) := by
  rcases lt_trichotomy dt 5 with h | h | h
  · have := retargetStep_early h
    exact .inl ⟨h, by omega, by omega⟩
  · exact .inr (.inl ⟨h, h ▸ retargetStep_on_time⟩)
  · have := retargetStep_late h
    exact .inr (.inr ⟨h, by omega⟩)

theorem retargetStep_antitone : Antitone retargetStep := by
  intro dt dt' h
  rcases retargetStep_sign dt with ⟨hearly, hlow, -⟩ | ⟨rfl, hzero⟩ | ⟨hlate, -⟩
  · rcases retargetStep_sign dt' with ⟨hearly', -⟩ | ⟨rfl, hzero'⟩ | ⟨-, hneg'⟩
    · have hstep := retargetStep_early hearly
      have hstep' := retargetStep_early hearly'
      omega
    · omega
    · omega
  · rcases retargetStep_sign dt' with ⟨hearly', -⟩ | ⟨rfl, hzero'⟩ | ⟨-, hneg'⟩
    · omega
    · omega
    · omega
  · have hstep := retargetStep_late hlate
    have hstep' := retargetStep_late (hlate.trans_le h)
    omega

/-- The difficulty is the clamped parent's, moved and clamped again. -/
theorem consensusNextDifficulty_eq (d dt : ℕ) {index : ℕ} (hindex : index ≠ 0) :
    (consensusNextDifficulty d dt index : ℤ) = max 464 (min (clampedDifficulty d + retargetStep dt) 4080) := by
  have hstep : consensusNextDifficulty d dt index =
      if 0 ≤ retargetStep dt then min (clampedDifficulty d + (retargetStep dt).toNat) maxNetworkDifficulty
      else max (clampedDifficulty d - (retargetStep dt).natAbs) networkMinDifficulty := if_neg hindex
  rw [hstep]
  have hclamped := clampedDifficulty_bounds d
  unfold networkMinDifficulty maxNetworkDifficulty
  split_ifs <;> omega

/-! ### Machine integers -/

/-- The value of an `i128` operation, if it does not overflow. -/
def i128? (x : ℤ) : Option ℤ := if -2 ^ 127 ≤ x ∧ x ≤ i128Max then some x else none

/-- The value of a conversion to `u64`, if it is exact. -/
def u64? (x : ℤ) : Option ℕ := if 0 ≤ x ∧ x < 2 ^ 64 then some x.toNat else none

def divRoundAwayFromZeroChecked (numerator denominator : ℤ) : Option ℤ :=
  if numerator = 0 then some 0
  else do
    let abs ← i128? numerator.natAbs
    let sum ← i128? (abs + (denominator - 1))
    i128? (sum / denominator * numerator.sign)

/-- `consensus_next_difficulty` in `u64` and `i128`, every conversion and operation checked; the subtraction from the
difficulty saturates, as in the source. -/
def consensusNextDifficultyChecked (d dt : UInt64) (index : UInt32) : Option ℕ :=
  if index = 0 then some genesisLaunchDifficulty
  else do
    let timingError ← i128? ((targetBlockTime : ℤ) - dt.toNat)
    let numerator ← i128? (timingError * difficultyPointsPerHalving)
    let rounded ← divRoundAwayFromZeroChecked numerator difficultyRetargetHalfLifeSecs
    let delta := if rounded = 0 ∧ timingError ≠ 0 then timingError.sign else rounded
    if 0 ≤ delta then do
      let up ← u64? delta
      let sum ← u64? (clampedDifficulty d.toNat + up)
      some (min sum maxNetworkDifficulty)
    else do
      let down ← u64? delta.natAbs
      some (max (clampedDifficulty d.toNat - down) networkMinDifficulty)

theorem i128?_eq {x : ℤ} (h : -2 ^ 127 ≤ x) (h' : x ≤ 2 ^ 127 - 1) : i128? x = some x := if_pos ⟨h, h'⟩

theorem u64?_eq {x : ℤ} (h : 0 ≤ x) (h' : x < 2 ^ 64) : u64? x = some x.toNat := if_pos ⟨h, h'⟩

theorem divRoundAwayFromZeroChecked_eq {numerator : ℤ} (h : -2 ^ 70 ≤ numerator) (h' : numerator ≤ 2 ^ 70) :
    divRoundAwayFromZeroChecked numerator 60 = some (divRoundAwayFromZero numerator 60) := by
  unfold divRoundAwayFromZeroChecked divRoundAwayFromZero
  by_cases hzero : numerator = 0
  · rw [if_pos hzero, if_pos hzero]
  rw [if_neg hzero, if_neg hzero, i128?_eq (by omega) (by omega), Option.bind_eq_bind, Option.bind_some,
    i128?_eq (by omega) (by omega), Option.bind_some]
  rcases lt_or_gt_of_ne hzero with hneg | hpos
  · rw [Int.sign_eq_neg_one_of_neg hneg]
    exact i128?_eq (by omega) (by omega)
  · rw [Int.sign_eq_one_of_pos hpos]
    exact i128?_eq (by omega) (by omega)

/-- No operation of the retarget overflows and no conversion loses anything, for any timestamps. -/
theorem nextDifficultyChecked_eq (d dt : UInt64) (index : UInt32) :
    consensusNextDifficultyChecked d dt index = some (consensusNextDifficulty d.toNat dt.toNat index.toNat) := by
  have hdt := dt.toNat_lt
  unfold consensusNextDifficultyChecked
  by_cases hindex : index = 0
  · rw [if_pos hindex, hindex]
    rfl
  have hnext : consensusNextDifficulty d.toNat dt.toNat index.toNat =
      if 0 ≤ retargetStep dt.toNat then
        min (clampedDifficulty d.toNat + (retargetStep dt.toNat).toNat) maxNetworkDifficulty
      else max (clampedDifficulty d.toNat - (retargetStep dt.toNat).natAbs) networkMinDifficulty :=
    if_neg fun hzero => hindex (UInt32.toNat_inj.mp hzero)
  rw [if_neg hindex, hnext]
  simp only [targetBlockTime, difficultyPointsPerHalving, difficultyRetargetHalfLifeSecs]
  rw [i128?_eq (by omega) (by omega), Option.bind_eq_bind, Option.bind_some, i128?_eq (by omega) (by omega),
    Option.bind_some, divRoundAwayFromZeroChecked_eq (by omega) (by omega), Option.bind_some]
  change (if 0 ≤ retargetStep dt.toNat then (u64? (retargetStep dt.toNat)).bind fun up =>
      (u64? (clampedDifficulty d.toNat + up)).bind fun sum => some (min sum maxNetworkDifficulty)
    else (u64? (retargetStep dt.toNat).natAbs).bind fun down =>
      some (max (clampedDifficulty d.toNat - down) networkMinDifficulty)) = _
  have hclamped := clampedDifficulty_bounds d.toNat
  rcases retargetStep_sign dt.toNat with ⟨-, hlow, hhigh⟩ | ⟨-, hzero⟩ | ⟨hlate, hneg⟩
  · rw [if_pos (by omega), if_pos (by omega), u64?_eq (by omega) (by omega), Option.bind_some,
      u64?_eq (by omega) (by omega), Option.bind_some]
    congr 2
  · rw [if_pos (by omega), if_pos (by omega), u64?_eq (by omega) (by omega), Option.bind_some,
      u64?_eq (by omega) (by omega), Option.bind_some]
    congr 2
  · have hstep := retargetStep_late hlate
    rw [if_neg (by omega), if_neg (by omega), u64?_eq (by omega) (by omega), Option.bind_some]
    rfl

/-! ### The law -/

/-- What the retarget does for every parent and time, and along every chain. -/
structure RetargetLaw (index : UInt32) : Prop where
  bounded : ∀ d dt : UInt64, 464 ≤ consensusNextDifficulty d.toNat dt.toNat index.toNat ∧
    consensusNextDifficulty d.toNat dt.toNat index.toNat ≤ 4080
  monotone : ∀ d d' dt : UInt64, d ≤ d' → consensusNextDifficulty d.toNat dt.toNat index.toNat ≤
    consensusNextDifficulty d'.toNat dt.toNat index.toNat
  antitone : ∀ d dt dt' : UInt64, dt ≤ dt' → consensusNextDifficulty d.toNat dt'.toNat index.toNat ≤
    consensusNextDifficulty d.toNat dt.toNat index.toNat
  /-- It stays on time, and otherwise only at the bound on its side. -/
  stays : ∀ d dt : UInt64, consensusNextDifficulty d.toNat dt.toNat index.toNat = clampedDifficulty d.toNat ↔
    dt = 5 ∨ dt < 5 ∧ clampedDifficulty d.toNat = 4080 ∨ 5 < dt ∧ clampedDifficulty d.toNat = 464
  rises : ∀ d dt : UInt64, dt < 5 → clampedDifficulty d.toNat < 4080 →
    clampedDifficulty d.toNat + 1 ≤ consensusNextDifficulty d.toNat dt.toNat index.toNat
  falls : ∀ d dt : UInt64, 5 < dt → 464 < clampedDifficulty d.toNat →
    consensusNextDifficulty d.toNat dt.toNat index.toNat + 1 ≤ clampedDifficulty d.toNat
  byTwo : ∀ d dt : UInt64, consensusNextDifficulty d.toNat dt.toNat index.toNat ≤ clampedDifficulty d.toNat + 2
  exact : ∀ d dt : UInt64, consensusNextDifficultyChecked d dt index =
    some (consensusNextDifficulty d.toNat dt.toNat index.toNat)
  chain : ∀ blocks : List Block, blocks.IsChain (fun parent b => validateAgainstParent parent b = .ok ()) →
    ∀ b ∈ blocks.tail, b.index ≠ 0 → 464 ≤ b.difficulty ∧ b.difficulty ≤ 4080

theorem consensusNextDifficulty_bounds (d dt : ℕ) {index : ℕ} (hindex : index ≠ 0) :
    464 ≤ consensusNextDifficulty d dt index ∧ consensusNextDifficulty d dt index ≤ 4080 := by
  have hnext := consensusNextDifficulty_eq d dt hindex
  omega

/-- Every block of a chain after the first has a parent in it. -/
theorem difficulty_of_isChain : ∀ {blocks : List Block},
    blocks.IsChain (fun parent b => validateAgainstParent parent b = .ok ()) → ∀ b ∈ blocks.tail, b.index ≠ 0 →
      464 ≤ b.difficulty ∧ b.difficulty ≤ 4080
  | [], _, b, hb, _ => by cases hb
  | [_], _, b, hb, _ => by cases hb
  | parent :: first :: rest, hchain, b, hb, hindex => by
    obtain ⟨hlink, hrest⟩ := List.isChain_cons_cons.mp hchain
    rcases List.mem_cons.mp hb with rfl | hlater
    · rw [(validateAgainstParent_eq_ok.mp hlink).difficulty]
      exact consensusNextDifficulty_bounds _ _ hindex
    · exact difficulty_of_isChain hrest b hlater hindex

/-- **Main result.** The retarget obeys the law at every height above genesis. -/
theorem retarget_law (index : UInt32) (hindex : index ≠ 0) : RetargetLaw index := by
  have hpos : index.toNat ≠ 0 := fun hzero => hindex (UInt32.toNat_inj.mp hzero)
  have hfive : ∀ dt : UInt64, (dt = 5 ↔ dt.toNat = 5) ∧ (dt < 5 ↔ dt.toNat < 5) ∧ (5 < dt ↔ 5 < dt.toNat) :=
    fun dt => ⟨UInt64.toNat_inj.symm, UInt64.lt_iff_toNat_lt, UInt64.lt_iff_toNat_lt⟩
  refine ⟨?_, ?_, ?_, ?_, ?_, ?_, ?_, fun d dt => nextDifficultyChecked_eq d dt index, fun _ => difficulty_of_isChain⟩
  · intro d dt
    exact consensusNextDifficulty_bounds _ _ hpos
  · intro d d' dt hd
    have hclamped := clampedDifficulty_mono (UInt64.le_iff_toNat_le.mp hd)
    have hnext := consensusNextDifficulty_eq d.toNat dt.toNat hpos
    have hnext' := consensusNextDifficulty_eq d'.toNat dt.toNat hpos
    omega
  · intro d dt dt' hdt
    have hstep := retargetStep_antitone (UInt64.le_iff_toNat_le.mp hdt)
    have hnext := consensusNextDifficulty_eq d.toNat dt.toNat hpos
    have hnext' := consensusNextDifficulty_eq d.toNat dt'.toNat hpos
    omega
  · intro d dt
    have hnext := consensusNextDifficulty_eq d.toNat dt.toNat hpos
    have hclamped := clampedDifficulty_bounds d.toNat
    rw [(hfive dt).1, (hfive dt).2.1, (hfive dt).2.2]
    rcases retargetStep_sign dt.toNat with ⟨hearly, hlow, -⟩ | ⟨hon, hzero⟩ | ⟨hlate, hneg⟩
    · omega
    · omega
    · omega
  · intro d dt hdt hroom
    have hnext := consensusNextDifficulty_eq d.toNat dt.toNat hpos
    have hclamped := clampedDifficulty_bounds d.toNat
    have hearly := (hfive dt).2.1.mp hdt
    rcases retargetStep_sign dt.toNat with ⟨-, hlow, -⟩ | ⟨hon, -⟩ | ⟨hlate, -⟩
    · omega
    · omega
    · omega
  · intro d dt hdt hroom
    have hnext := consensusNextDifficulty_eq d.toNat dt.toNat hpos
    have hclamped := clampedDifficulty_bounds d.toNat
    have hlate := (hfive dt).2.2.mp hdt
    rcases retargetStep_sign dt.toNat with ⟨hearly, -⟩ | ⟨hon, -⟩ | ⟨-, hneg⟩
    · omega
    · omega
    · omega
  · intro d dt
    have hnext := consensusNextDifficulty_eq d.toNat dt.toNat hpos
    have hclamped := clampedDifficulty_bounds d.toNat
    rcases retargetStep_sign dt.toNat with ⟨-, -, hhigh⟩ | ⟨-, hzero⟩ | ⟨-, hneg⟩
    · omega
    · omega
    · omega

theorem retarget_law_first : (1 : UInt32) ≠ 0 ∧ RetargetLaw 1 := ⟨by decide, retarget_law 1 (by decide)⟩

/-- At the upper bound an early block leaves the difficulty where it is. -/
theorem early_block_at_bound : consensusNextDifficulty 4080 0 1 = clampedDifficulty 4080 ∧
    (0 : ℕ) ≠ targetBlockTime := by
  decide

end Alphanumeric
