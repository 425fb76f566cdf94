/-
# Ordinary fees stay out of the whisper band

`gui/src/tx.rs` and `src/a9/whisper.rs`: a fee at or above `amount * FEE_PERCENTAGE +
WHISPER_MIN_AMOUNT` reads as a whisper. `max_non_whisper_fee_units` is the last fee below
the band, computed by the wallet and by the node in their own ways; `clamp_fee_units` brings
a fee under it, and `smallest_sendable_units` inverts it. The formulas are read over the
rationals, amounts and fees are `i128` units.

Key definitions: `walletMaxNonWhisperFeeUnits`, `nodeMaxNonWhisperFeeUnits`, `clampFeeUnits`,
`smallestSendableUnits`.
Key theorems: `walletMax_eq`, `nodeMax_eq`, `decode_none`, `floor_le_walletMax_iff`,
`smallestSendableUnits_eq`, `ordinary_fees_silent`.
-/
import Alphanumeric.Whisper
import Alphanumeric.WalletApp

namespace Alphanumeric

namespace Whisper

/-! ### Saturating arithmetic -/

def i128Min : ℤ := -(2 ^ 127)

/-- The nearest `i128`: a cast of a float, or a saturating operation. -/
def saturate (n : ℤ) : ℤ := max i128Min (min n Gui.i128Max)

/-! ### The band -/

def relayFloorUnits : ℤ := 10000

def whisperMinUnits : ℤ := 10000

def feeSafetyLimitUnits : ℤ := 1000000

/-- The wallet's `max_non_whisper_fee_units`. -/
def walletMaxNonWhisperFeeUnits (amountUnits : ℤ) : ℤ :=
  let amount : ℚ := amountUnits / moneyScale
  let bandStart := saturate (roundAway ((amount * feePercentage) * moneyScale))
  saturate (saturate (bandStart + whisperMinUnits) - 1)

/-- `Transaction::round_amount`. -/
def roundAmount (amount : ℚ) : ℚ := roundAway (amount * moneyScale) / moneyScale

def toUnits (amount : ℚ) : ℤ := saturate (roundAway (roundAmount amount * moneyScale))

def fromUnits (units : ℤ) : ℚ := roundAmount (units / moneyScale)

/-- The node's `max_non_whisper_fee_units`. -/
def nodeMaxNonWhisperFeeUnits (amountUnits : ℤ) : ℤ :=
  let bandStart := toUnits (fromUnits amountUnits * feePercentage + whisperMinAmount)
  saturate (bandStart - 1)

/-! ### The wallet's fee -/

/-- `clamp_fee_units`. -/
def clampFeeUnits (amountUnits requestedFeeUnits : ℤ) (floorUnits : Option ℤ) : Option ℤ :=
  let floor := floorUnits.getD relayFloorUnits
  let ceiling := min (walletMaxNonWhisperFeeUnits amountUnits) feeSafetyLimitUnits
  if ceiling < floor then none else some (min (max requestedFeeUnits floor) ceiling)

/-- `for _ in 0..n`: down while the amount below would do. -/
def correctDown (floorUnits : ℤ) : ℕ → ℤ → ℤ
  | 0, candidate => candidate
  | n + 1, candidate =>
    if 1 < candidate ∧ floorUnits ≤ walletMaxNonWhisperFeeUnits (saturate (candidate - 1)) then
      correctDown floorUnits n (saturate (candidate - 1))
    else candidate

/-- `for _ in 0..n`: up while the amount does not do. -/
def correctUp (floorUnits : ℤ) : ℕ → ℤ → ℤ
  | 0, candidate => candidate
  | n + 1, candidate =>
    if walletMaxNonWhisperFeeUnits candidate < floorUnits then correctUp floorUnits n (saturate (candidate + 1))
    else candidate

def neededUnits (floorUnits : ℤ) : ℤ := saturate (saturate (floorUnits - whisperMinUnits) + 1)

/-- The closed form `smallest_sendable_units` starts from. -/
def firstCandidate (needed : ℤ) : ℤ := max (saturate ⌈((needed : ℚ) - 1 / 2) / feePercentage⌉) 1

def smallestSendableUnits (floorUnits : ℤ) : ℤ :=
  if neededUnits floorUnits ≤ 0 then 1
  else correctUp floorUnits 4 (correctDown floorUnits 4 (firstCandidate (neededUnits floorUnits)))

/-! ### In range nothing saturates -/

theorem saturate_of_mem {n : ℤ} (hlow : -(2 ^ 100) ≤ n) (hhigh : n ≤ 2 ^ 126 + 2 ^ 100) : saturate n = n := by
  unfold saturate i128Min Gui.i128Max
  omega

/-- An amount the type holds. -/
structure Amount (n : ℤ) : Prop where
  nonneg : 0 ≤ n
  fits : n ≤ Gui.i128Max

theorem amount_one : Amount 1 := ⟨by norm_num, by norm_num [Gui.i128Max]⟩

theorem band_nonneg {n : ℤ} (h : 0 ≤ n) : (0 : ℚ) ≤ n * feePercentage := by
  have hn : (0 : ℚ) ≤ n := by exact_mod_cast h
  have hp : (0 : ℚ) ≤ feePercentage := by norm_num [feePercentage]
  exact mul_nonneg hn hp

/-- The start of the band stays far below the end of the type. -/
theorem band_le {n : ℤ} (h : Amount n) : roundAway ((n : ℚ) * feePercentage) ≤ 2 ^ 126 := by
  have hn : (n : ℚ) ≤ 2 ^ 127 - 1 := by
    have hfits : n ≤ 2 ^ 127 - 1 := h.fits
    exact_mod_cast hfits
  have hround := roundAway_le (x := (n : ℚ) * feePercentage)
  have hle : (n : ℚ) * feePercentage + 1 / 2 ≤ 2 ^ 126 := by
    have hp : feePercentage ≤ 1 / 4 := by norm_num [feePercentage]
    have hmul : (n : ℚ) * feePercentage ≤ n * (1 / 4) :=
      mul_le_mul_of_nonneg_left hp (by exact_mod_cast h.nonneg)
    linarith
  exact_mod_cast hround.trans hle

theorem walletMax_eq {n : ℤ} (h : Amount n) :
    walletMaxNonWhisperFeeUnits n = roundAway ((n : ℚ) * feePercentage) + 9999 := by
  have hnonneg := roundAway_nonneg (band_nonneg h.nonneg)
  have hle := band_le h
  have hband : (n : ℚ) / moneyScale * feePercentage * moneyScale = n * feePercentage := by
    rw [div_mul_eq_mul_div, div_mul_cancel₀ _ (by norm_num [moneyScale])]
  unfold walletMaxNonWhisperFeeUnits
  simp only [hband, whisperMinUnits]
  rw [saturate_of_mem (n := roundAway _) (by omega) (by omega), saturate_of_mem (n := _ + 10000) (by omega) (by omega),
    saturate_of_mem (by omega) (by omega)]
  ring

theorem roundAmount_units (n : ℤ) : fromUnits n = n / moneyScale := by
  have hscale : (n : ℚ) / moneyScale * moneyScale = n := div_mul_cancel₀ _ (by norm_num [moneyScale])
  rw [fromUnits, roundAmount, hscale, roundAway_intCast]

theorem nodeMax_eq {n : ℤ} (h : Amount n) :
    nodeMaxNonWhisperFeeUnits n = roundAway ((n : ℚ) * feePercentage) + 9999 := by
  have hnonneg := roundAway_nonneg (band_nonneg h.nonneg)
  have hle := band_le h
  have hband : ((n : ℚ) / moneyScale * feePercentage + whisperMinAmount) * moneyScale =
      n * feePercentage + (10000 : ℕ) := by
    rw [add_mul, div_mul_eq_mul_div, div_mul_cancel₀ _ (by norm_num [moneyScale])]
    norm_num [whisperMinAmount, moneyScale]
  have hscale : ∀ m : ℤ, (m : ℚ) / moneyScale * moneyScale = m := fun m =>
    div_mul_cancel₀ _ (by norm_num [moneyScale])
  unfold nodeMaxNonWhisperFeeUnits toUnits
  rw [roundAmount_units, roundAmount, hband, hscale, roundAway_intCast, roundAway_add_natCast (band_nonneg h.nonneg)]
  rw [saturate_of_mem (n := _ + _) (by omega) (by omega), saturate_of_mem (by omega) (by omega)]
  push_cast
  ring

/-- A fee the wallet's bound allows is none of the whispers. -/
theorem decode_none {map : FrequencyMap} {n f : ℤ} (h : Amount n) (hf : f ≤ walletMaxNonWhisperFeeUnits n) :
    decodeMessageFromFee map (fromUnits f) (fromUnits n) = none := by
  rw [walletMax_eq h] at hf
  have hfq : (f : ℚ) ≤ roundAway ((n : ℚ) * feePercentage) + 9999 := by exact_mod_cast hf
  have hround := roundAway_le (x := (n : ℚ) * feePercentage)
  unfold decodeMessageFromFee
  rw [roundAmount_units, roundAmount_units]
  dsimp only
  rw [if_neg]
  rintro ⟨hpos, -⟩
  have hband : (0 : ℚ) < maxFee - whisperMinAmount := by norm_num [maxFee, whisperMinAmount]
  rw [le_div_iff₀ hband, zero_mul] at hpos
  have hunits : (f : ℚ) / moneyScale - n / moneyScale * feePercentage - whisperMinAmount =
      (f - n * feePercentage - 10000) / moneyScale := by
    norm_num [whisperMinAmount, moneyScale]
    ring
  rw [hunits] at hpos
  have hneg : ((f : ℚ) - n * feePercentage - 10000) / moneyScale < 0 := by
    refine div_neg_of_neg_of_pos ?_ (by norm_num [moneyScale])
    linarith
  exact absurd hpos (not_le.mpr hneg)

/-! ### The least amount -/

/-- The wallet's bound clears a floor from the closed form's amount on. -/
theorem floor_le_walletMax_iff {n floor : ℤ} (h : Amount n) :
    floor ≤ walletMaxNonWhisperFeeUnits n ↔ ⌈(((floor - 9999 : ℤ) : ℚ) - 1 / 2) / feePercentage⌉ ≤ n := by
  have hp : (0 : ℚ) < feePercentage := by norm_num [feePercentage]
  rw [walletMax_eq h, ← sub_le_iff_le_add, le_roundAway_iff (band_nonneg h.nonneg), Int.ceil_le,
    div_le_iff₀ hp]

theorem neededUnits_eq {floor : ℤ} (h₀ : 0 ≤ floor) (hlimit : floor ≤ feeSafetyLimitUnits) :
    neededUnits floor = floor - 9999 := by
  unfold feeSafetyLimitUnits at hlimit
  unfold neededUnits whisperMinUnits
  rw [saturate_of_mem (n := floor - 10000) (by omega) (by omega), saturate_of_mem (by omega) (by omega)]
  ring

theorem leastAmount_bounds {floor : ℤ} (hneed : 10000 ≤ floor) (hlimit : floor ≤ feeSafetyLimitUnits) :
    1 ≤ ⌈(((floor - 9999 : ℤ) : ℚ) - 1 / 2) / feePercentage⌉ ∧
      ⌈(((floor - 9999 : ℤ) : ℚ) - 1 / 2) / feePercentage⌉ ≤ 2000000000 := by
  have hp : (0 : ℚ) < feePercentage := by norm_num [feePercentage]
  have hlow : (1 : ℚ) ≤ ((floor - 9999 : ℤ) : ℚ) := by exact_mod_cast (by omega : (1 : ℤ) ≤ floor - 9999)
  have hhigh : ((floor - 9999 : ℤ) : ℚ) ≤ 990001 := by
    unfold feeSafetyLimitUnits at hlimit
    exact_mod_cast (by omega : floor - 9999 ≤ 990001)
  constructor
  · rw [Int.one_le_ceil_iff]
    exact div_pos (by linarith) hp
  · have hmul : (1000000 : ℚ) ≤ 2000000000 * feePercentage := by norm_num [feePercentage]
    rw [Int.ceil_le, div_le_iff₀ hp, Int.cast_ofNat]
    linarith

/-- The corrections have nothing to correct, however often they are tried. -/
theorem correct_eq {floor c : ℤ}
    (hc : c = ⌈(((floor - 9999 : ℤ) : ℚ) - 1 / 2) / feePercentage⌉) (hlow : 1 ≤ c) (hhigh : c ≤ 2000000000) :
    ∀ k, correctDown floor k c = c ∧ correctUp floor k c = c
  | 0 => ⟨rfl, rfl⟩
  | k + 1 => by
    have hfit : ∀ n : ℤ, 0 ≤ n → n ≤ 2000000000 → Amount n := fun n h h' =>
      ⟨h, by unfold Gui.i128Max; omega⟩
    have hdown : ¬ (1 < c ∧ floor ≤ walletMaxNonWhisperFeeUnits (saturate (c - 1))) := by
      rintro ⟨-, hle⟩
      rw [saturate_of_mem (by omega) (by omega),
        floor_le_walletMax_iff (hfit _ (by omega) (by omega)), ← hc] at hle
      omega
    have hup : ¬ walletMaxNonWhisperFeeUnits c < floor := by
      rw [not_lt, floor_le_walletMax_iff (hfit c (by omega) hhigh), ← hc]
    rw [correctDown, if_neg hdown, correctUp, if_neg hup]
    exact ⟨rfl, rfl⟩

theorem firstCandidate_eq {floor : ℤ} (hneed : 10000 ≤ floor) (hlimit : floor ≤ feeSafetyLimitUnits) :
    firstCandidate (neededUnits floor) = ⌈(((floor - 9999 : ℤ) : ℚ) - 1 / 2) / feePercentage⌉ := by
  obtain ⟨hlow, hhigh⟩ := leastAmount_bounds hneed hlimit
  rw [neededUnits_eq (by omega) hlimit, firstCandidate, saturate_of_mem (by omega) (by omega), max_eq_left hlow]

theorem smallestSendableUnits_eq {floor : ℤ} (h₀ : 0 ≤ floor) (hlimit : floor ≤ feeSafetyLimitUnits) :
    smallestSendableUnits floor =
      if floor < 10000 then 1 else ⌈(((floor - 9999 : ℤ) : ℚ) - 1 / 2) / feePercentage⌉ := by
  unfold smallestSendableUnits
  by_cases hneed : floor < 10000
  · rw [neededUnits_eq h₀ hlimit, if_pos (by omega), if_pos hneed]
  · have hneed' : 10000 ≤ floor := by omega
    obtain ⟨hlow, hhigh⟩ := leastAmount_bounds hneed' hlimit
    obtain ⟨hdown, hup⟩ := correct_eq rfl hlow hhigh 4
    rw [firstCandidate_eq hneed' hlimit, hdown, hup, if_neg hneed, neededUnits_eq h₀ hlimit, if_neg (by omega)]

theorem clampFeeUnits_isSome {amount requested : ℤ} {floorUnits : Option ℤ}
    (hlimit : floorUnits.getD relayFloorUnits ≤ feeSafetyLimitUnits) :
    (clampFeeUnits amount requested floorUnits).isSome = true ↔
      floorUnits.getD relayFloorUnits ≤ walletMaxNonWhisperFeeUnits amount := by
  unfold clampFeeUnits
  dsimp only
  split
  · rename_i h
    simp only [Option.isSome_none, Bool.false_eq_true, false_iff]
    omega
  · rename_i h
    simp only [Option.isSome_some, true_iff]
    omega

/-- The application's model of the fee, at this bound. -/
theorem clampFeeUnits_eq {E : Gui.AppEnv} (hE : E.maxNonWhisperFeeUnits = walletMaxNonWhisperFeeUnits)
    (amount requested floor : ℤ) :
    Gui.clampFeeUnits E amount requested floor = clampFeeUnits amount requested (some floor) := by
  unfold Gui.clampFeeUnits clampFeeUnits
  rw [hE]
  rfl

/-- The least amount that can carry a fee. -/
theorem smallestSendableUnits_least {floor : ℤ} (h₀ : 0 ≤ floor) (hlimit : floor ≤ feeSafetyLimitUnits) :
    IsLeast {a | 0 < a ∧ a ≤ Gui.i128Max ∧ floor ≤ walletMaxNonWhisperFeeUnits a} (smallestSendableUnits floor) := by
  rw [smallestSendableUnits_eq h₀ hlimit]
  split
  · rename_i hneed
    refine ⟨⟨by norm_num, amount_one.fits, ?_⟩, fun a ha => ha.1⟩
    have hnonneg := roundAway_nonneg (band_nonneg amount_one.nonneg)
    rw [walletMax_eq amount_one]
    omega
  · rename_i hneed
    have hneed' : 10000 ≤ floor := by omega
    obtain ⟨hlow, hhigh⟩ := leastAmount_bounds hneed' hlimit
    set c := ⌈(((floor - 9999 : ℤ) : ℚ) - 1 / 2) / feePercentage⌉ with hc
    have hfits : c ≤ Gui.i128Max := by
      unfold Gui.i128Max
      omega
    refine ⟨⟨by omega, hfits, ?_⟩, fun a ha => ?_⟩
    · exact (floor_le_walletMax_iff ⟨by omega, hfits⟩).mpr hc.ge
    · exact (floor_le_walletMax_iff ⟨ha.1.le, ha.2.1⟩).mp ha.2.2

/-- **Ordinary payments never read as whispers.** For every amount, recommendation and floor the
wallet accepts, in whatever order the node's frequency map is iterated. -/
theorem ordinary_fees_silent (map : FrequencyMap) (amount requested : ℤ) (floorUnits : Option ℤ)
    (hamount : 0 < amount) (hfits : amount ≤ Gui.i128Max) (h₀ : 0 ≤ floorUnits.getD relayFloorUnits)
    (hlimit : floorUnits.getD relayFloorUnits ≤ feeSafetyLimitUnits) :
    ((∃ f, clampFeeUnits amount requested floorUnits = some f) ↔
      ∃ fee : ℤ, floorUnits.getD relayFloorUnits ≤ fee ∧
        fee ≤ min (walletMaxNonWhisperFeeUnits amount) feeSafetyLimitUnits) ∧
    (∀ f, clampFeeUnits amount requested floorUnits = some f →
      floorUnits.getD relayFloorUnits ≤ f ∧
      f ≤ min (walletMaxNonWhisperFeeUnits amount) feeSafetyLimitUnits ∧
      (floorUnits.getD relayFloorUnits ≤ requested →
        requested ≤ min (walletMaxNonWhisperFeeUnits amount) feeSafetyLimitUnits → f = requested) ∧
      decodeMessageFromFee map (fromUnits f) (fromUnits amount) = none) ∧
    walletMaxNonWhisperFeeUnits amount = nodeMaxNonWhisperFeeUnits amount ∧
    IsLeast {a | 0 < a ∧ a ≤ Gui.i128Max ∧ (clampFeeUnits a requested floorUnits).isSome = true}
      (smallestSendableUnits (floorUnits.getD relayFloorUnits)) ∧
    (0 < neededUnits (floorUnits.getD relayFloorUnits) → ∀ k,
      correctDown (floorUnits.getD relayFloorUnits) k (firstCandidate (neededUnits (floorUnits.getD relayFloorUnits))) =
        smallestSendableUnits (floorUnits.getD relayFloorUnits) ∧
      correctUp (floorUnits.getD relayFloorUnits) k (smallestSendableUnits (floorUnits.getD relayFloorUnits)) =
        smallestSendableUnits (floorUnits.getD relayFloorUnits)) := by
  have hA : Amount amount := ⟨hamount.le, hfits⟩
  have hsome : (clampFeeUnits amount requested floorUnits).isSome = true ↔ _ := clampFeeUnits_isSome hlimit
  refine ⟨?_, fun f hf => ?_, ?_, ?_, fun hneeded k => ?_⟩
  · rw [← Option.isSome_iff_exists, hsome]
    exact ⟨fun h => ⟨_, le_min h hlimit, le_rfl⟩, fun ⟨fee, h, h'⟩ => h.trans (h'.trans (min_le_left _ _))⟩
  · have hclear := hsome.mp (Option.isSome_iff_exists.mpr ⟨f, hf⟩)
    unfold clampFeeUnits at hf
    dsimp only at hf
    rw [if_neg (not_lt.mpr (le_min hclear hlimit)), Option.some_inj] at hf
    refine ⟨by omega, by omega, fun h h' => by omega, decode_none hA (by omega)⟩
  · rw [walletMax_eq hA, nodeMax_eq hA]
  · have hset : {a : ℤ | 0 < a ∧ a ≤ Gui.i128Max ∧ (clampFeeUnits a requested floorUnits).isSome = true} =
        {a | 0 < a ∧ a ≤ Gui.i128Max ∧ floorUnits.getD relayFloorUnits ≤ walletMaxNonWhisperFeeUnits a} := by
      ext a
      simp only [Set.mem_ofPred_eq, clampFeeUnits_isSome hlimit]
    rw [hset]
    exact smallestSendableUnits_least h₀ hlimit
  · rw [neededUnits_eq h₀ hlimit] at hneeded
    have hneed : 10000 ≤ floorUnits.getD relayFloorUnits := by omega
    obtain ⟨hlow, hhigh⟩ := leastAmount_bounds hneed hlimit
    rw [firstCandidate_eq hneed hlimit, smallestSendableUnits_eq h₀ hlimit, if_neg (by omega)]
    exact correct_eq rfl hlow hhigh k

theorem ordinary_fees_silent_sample :
    walletMaxNonWhisperFeeUnits 150000000 = nodeMaxNonWhisperFeeUnits 150000000 ∧
      clampFeeUnits 150000000 20000 none = some 20000 ∧
      decodeMessageFromFee buildFrequencyMap (fromUnits 20000) (fromUnits 150000000) = none := by
  have hclamp : clampFeeUnits 150000000 20000 none = some 20000 := by decide +kernel
  obtain ⟨-, hfee, hagree, -⟩ := ordinary_fees_silent buildFrequencyMap 150000000 20000 none (by norm_num)
    (by norm_num [Gui.i128Max]) (by decide) (by decide)
  exact ⟨hagree, hclamp, (hfee 20000 hclamp).2.2.2⟩

end Whisper

end Alphanumeric
