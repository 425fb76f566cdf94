/-
# Whispers

`src/a9/whisper.rs`: a word of up to four letters is carried in the fee of a transaction, by
narrowing an interval letter by letter (`encode_message_as_fee`), and is read off the fee
again (`decode_message_from_fee`). The floating-point formulas are read over the rationals,
with the constants as their decimals; amounts and fees are in coins. The frequency map is a
hash map: any order of its entries is allowed.

Key definitions: `FrequencyMap`, `buildFrequencyMap`, `encodeMessageAsFee`,
`decodeMessageFromFee`.
Key theorems: `buildRanges_chain`, `frequencyMap_partition`, `encode_interval`,
`encode_close`, `whisper_round_trip`.
-/
import Alphanumeric.Types
import Alphanumeric.Lib.Rounding
import Alphanumeric.Lib.IntervalCode

namespace Alphanumeric

namespace Whisper

/-! ### Constants -/

def feePercentage : ℚ := 0.000563063063

def whisperMinAmount : ℚ := 0.0001

def maxFee : ℚ := 0.01

def moneyScale : ℚ := 100000000

def primeTable : List ℕ := [2, 3, 5, 7, 11, 13, 17, 19, 23, 29, 31, 37, 41, 43, 47, 53, 59, 61, 67, 71]

/-! ### The letters -/

/-- The entries of the map: a letter, its range and a prime. -/
abbrev FrequencyMap : Type := List (Char × ℚ × ℚ × ℕ)

def letterFrequencies : List (Char × ℚ) :=
  [('a', 0.040), ('b', 0.040), ('c', 0.040), ('d', 0.040), ('e', 0.040), ('f', 0.040), ('g', 0.040),
    ('h', 0.040), ('i', 0.040), ('j', 0.035), ('k', 0.035), ('l', 0.040), ('m', 0.040), ('n', 0.040),
    ('o', 0.040), ('p', 0.040), ('q', 0.035), ('r', 0.040), ('s', 0.040), ('t', 0.040), ('u', 0.040),
    ('v', 0.035), ('w', 0.040), ('x', 0.035), ('y', 0.035), ('z', 0.035)]

/-- A binary-aligned boundary. -/
def aligned (x : ℚ) : ℚ := roundAway (x * 16384) / 16384

/-- The loop of `build_frequency_map`. -/
def buildRanges (total : ℚ) : ℚ → ℕ → List (Char × ℚ) → FrequencyMap
  | _, _, [] => []
  | cumulative, i, (ch, freq) :: rest =>
    (ch, aligned cumulative, aligned (cumulative + freq / total), primeTable.getD (i % primeTable.length) 0) ::
      buildRanges total (cumulative + freq / total) (i + 1) rest

def buildFrequencyMap : FrequencyMap :=
  buildRanges (letterFrequencies.map Prod.snd).sum 0 0 letterFrequencies

/-- `HashMap::get`. -/
def lookup (map : FrequencyMap) (c : Char) : Option (ℚ × ℚ × ℕ) :=
  (map.find? fun e => e.1 == c).map Prod.snd

/-! ### The code -/

/-- One letter of `encode_message_as_fee`; a character that is not in the map is skipped. -/
def narrowBy (map : FrequencyMap) (r : ℚ × ℚ) (c : Char) : ℚ × ℚ :=
  match lookup map c with
  | some (start, stop, _) => (r.1 + (r.2 - r.1) * start, r.1 + (r.2 - r.1) * stop)
  | none => r

def encodeMessageAsFee (map : FrequencyMap) (message : Text) (baseAmount : ℚ) : ℚ :=
  let normalizedMessage := (message.map Char.toLower).take 4
  let (low, high) := normalizedMessage.foldl (narrowBy map) (0, 1)
  let mid := (low + high) / 2
  let whisperComponent := whisperMinAmount + mid * (maxFee - whisperMinAmount)
  let totalFee := whisperComponent + baseAmount * feePercentage
  roundAway (totalFee * 100000000) / 100000000

/-- The letters of `decode_message_from_fee`, at most `n`. -/
def decodeLetters (map : FrequencyMap) : ℕ → ℚ → Text
  | 0, _ => []
  | n + 1, value =>
    match map.find? fun (_, start, stop, _) => decide (start ≤ value) && decide (value < stop) with
    | some (ch, start, stop, _) => ch :: decodeLetters map n ((value - start) / (stop - start))
    | none => []

def decodeMessageFromFee (map : FrequencyMap) (totalFee amount : ℚ) : Option Text :=
  let whisperFee := totalFee - amount * feePercentage
  let normalized := (whisperFee - whisperMinAmount) / (maxFee - whisperMinAmount)
  if 0 ≤ normalized ∧ normalized ≤ 1 then
    let message := decodeLetters map 4 normalized
    if message.length = 4 then some (message.map Char.toUpper) else none
  else none

/-! ### The ranges -/

/-- An entry as a cell of the code. -/
def cellOf (e : Char × ℚ × ℚ × ℕ) : Cell Char ℚ := ⟨e.1, e.2.1, e.2.2.1⟩

def cells (map : FrequencyMap) : List (Cell Char ℚ) := map.map cellOf

theorem aligned_width {x d : ℚ} : d - 1 / 16384 ≤ aligned (x + d) - aligned x := by
  have hlow := le_roundAway (x := (x + d) * 16384)
  have hhigh := roundAway_le (x := x * 16384)
  unfold aligned
  linarith

/-- Each range is at least a thirtieth wide. -/
theorem buildRanges_chain {total : ℚ} : ∀ {letters : List (Char × ℚ)} {c : ℚ} {i : ℕ},
    (∀ l ∈ letters, 1 / 30 + 1 / 16384 ≤ l.2 / total) →
      Cells.Chain (aligned c) (aligned (c + (letters.map fun l => l.2 / total).sum))
        (cells (buildRanges total c i letters)) ∧
      ∀ cell ∈ cells (buildRanges total c i letters), 1 / 30 ≤ cell.hi - cell.lo
  | [], c, i, _ => by simp [buildRanges, cells, Cells.Chain]
  | (ch, freq) :: rest, c, i, hall => by
    have hfreq := hall (ch, freq) (List.mem_cons_self ..)
    obtain ⟨hchain, hwidth⟩ := buildRanges_chain (c := c + freq / total) (i := i + 1)
      fun l hl => hall l (List.mem_cons_of_mem _ hl)
    have hw := aligned_width (x := c) (d := freq / total)
    dsimp only at hfreq
    rw [List.map_cons, List.sum_cons, ← add_assoc]
    refine ⟨⟨rfl, ?_, hchain⟩, fun cell hcell => ?_⟩
    · change aligned c < aligned (c + freq / total)
      linarith
    · rcases List.mem_cons.mp hcell with rfl | hcell
      · change 1 / 30 ≤ aligned (c + freq / total) - aligned c
        linarith
      · exact hwidth cell hcell

theorem letters_total : (letterFrequencies.map Prod.snd).sum = 1.005 := by
  norm_num [letterFrequencies]

theorem letters_sum : (letterFrequencies.map fun l => l.2 / (1.005 : ℚ)).sum = 1 := by
  norm_num [letterFrequencies]

theorem letters_wide : ∀ l ∈ letterFrequencies, 1 / 30 + 1 / 16384 ≤ l.2 / (1.005 : ℚ) := by
  intro l hl
  have hfreq : (0.035 : ℚ) ≤ l.2 := by
    have hall : letterFrequencies.all (fun l => decide ((0.035 : ℚ) ≤ l.2)) = true := by decide +kernel
    exact of_decide_eq_true (List.all_eq_true.mp hall l hl)
  rw [le_div_iff₀ (by norm_num)]
  linarith

theorem aligned_zero : aligned 0 = 0 := by
  have h : roundAway (0 : ℚ) = 0 := by simpa using roundAway_intCast (K := ℚ) 0
  rw [aligned, zero_mul, h]
  norm_num

theorem aligned_one : aligned 1 = 1 := by
  have h : roundAway (16384 : ℚ) = 16384 := by simpa using roundAway_intCast (K := ℚ) 16384
  rw [aligned, one_mul, h]
  norm_num

theorem buildFrequencyMap_chain : Cells.Chain 0 1 (cells buildFrequencyMap) ∧
    ∀ cell ∈ cells buildFrequencyMap, 1 / 30 ≤ cell.hi - cell.lo := by
  have h : Cells.Chain _ _ (cells (buildRanges 1.005 0 0 letterFrequencies)) ∧ _ := buildRanges_chain letters_wide
  rw [letters_sum, zero_add, aligned_zero, aligned_one] at h
  rw [buildFrequencyMap, letters_total]
  exact h

variable {map : FrequencyMap} (hmap : map.Perm buildFrequencyMap)
include hmap

theorem frequencyMap_partition : Cells.Partition (cells map) :=
  buildFrequencyMap_chain.1.partition.perm (hmap.map cellOf)

theorem frequencyMap_wide : ∀ cell ∈ cells map, 1 / 30 ≤ cell.hi - cell.lo :=
  fun cell hcell => buildFrequencyMap_chain.2 cell ((hmap.map cellOf).mem_iff.mp hcell)

omit hmap in
theorem buildRanges_keys (total : ℚ) : ∀ (letters : List (Char × ℚ)) (c : ℚ) (i : ℕ),
    (buildRanges total c i letters).map Prod.fst = letters.map Prod.fst
  | [], _, _ => rfl
  | (ch, freq) :: rest, c, i => by
    rw [buildRanges, List.map_cons, List.map_cons, buildRanges_keys total rest]

theorem frequencyMap_keys {c : Char} : c ∈ map.map Prod.fst ↔ c ∈ letterFrequencies.map Prod.fst := by
  rw [(hmap.map Prod.fst).mem_iff, buildFrequencyMap, buildRanges_keys]

omit hmap in
theorem decodeLetters_eq : ∀ (n : ℕ) (v : ℚ), decodeLetters map n v = Cells.decode (cells map) n v
  | 0, _ => rfl
  | n + 1, v => by
    have hfind : Cells.find (cells map) v =
        (map.find? fun (_, start, stop, _) => decide (start ≤ v) && decide (v < stop)).map cellOf := by
      rw [Cells.find, cells, List.find?_map]
      rfl
    rw [decodeLetters, Cells.decode, hfind]
    rcases map.find? _ with _ | ⟨ch, start, stop, prime⟩
    · rfl
    · simp only [Option.map_some, cellOf, Cells.rescale, decodeLetters_eq n]

/-! ### The round trip -/

/-- The letters of a message name cells, and the message narrows by them. -/
theorem exists_word : ∀ {letters : Text}, (∀ c ∈ letters, c ∈ letterFrequencies.map Prod.fst) →
    ∃ word : List (Cell Char ℚ), word.map Cell.label = letters ∧ (∀ c ∈ word, c ∈ cells map) ∧
      ∀ r, letters.foldl (narrowBy map) r = word.foldl Cells.narrow r
  | [], _ => ⟨[], rfl, fun c hc => absurd hc List.not_mem_nil, fun _ => rfl⟩
  | c :: letters, hall => by
    obtain ⟨word, hlabel, hmem, hfold⟩ := exists_word fun d hd => hall d (List.mem_cons_of_mem _ hd)
    obtain ⟨e, he, hkey⟩ := List.mem_map.mp ((frequencyMap_keys hmap).mpr (hall c (List.mem_cons_self ..)))
    obtain ⟨⟨ch, start, stop, prime⟩, hfind⟩ := Option.isSome_iff_exists.mp
      (List.find?_isSome (p := fun e : Char × ℚ × ℚ × ℕ => e.1 == c).mpr ⟨e, he, beq_iff_eq.mpr hkey⟩)
    have hch : ch = c := beq_iff_eq.mp (List.find?_some (p := fun e : Char × ℚ × ℚ × ℕ => e.1 == c) hfind)
    have hin : cellOf (ch, start, stop, prime) ∈ cells map :=
      List.mem_map.mpr ⟨_, List.mem_of_find?_eq_some hfind, rfl⟩
    have hlookup : lookup map c = some (start, stop, prime) := by
      rw [lookup, hfind, Option.map_some]
    refine ⟨cellOf (ch, start, stop, prime) :: word, ?_, ?_, fun r => ?_⟩
    · rw [List.map_cons, hlabel]
      exact congrArg (· :: letters) hch
    · intro d hd
      rcases List.mem_cons.mp hd with rfl | hd
      · exact hin
      · exact hmem d hd
    · have hstep : narrowBy map r c = Cells.narrow r (cellOf (ch, start, stop, prime)) := by
        rw [narrowBy, hlookup]
        rfl
      rw [List.foldl_cons, List.foldl_cons, hfold, hstep]

omit hmap in
/-- What the decoder reads off a fee: the middle of the interval, up to half a unit. -/
theorem encode_close (amount : ℚ) {message : Text} {low high : ℚ}
    (hr : ((message.map Char.toLower).take 4).foldl (narrowBy map) (0, 1) = (low, high)) :
    |(encodeMessageAsFee map message amount - amount * feePercentage - whisperMinAmount) /
        (maxFee - whisperMinAmount) - (low + high) / 2| ≤ 1 / 1980000 ∧
      |encodeMessageAsFee map message amount -
        (whisperMinAmount + (low + high) / 2 * (maxFee - whisperMinAmount) + amount * feePercentage)| ≤
        1 / 200000000 := by
  simp only [encodeMessageAsFee, hr]
  set total := whisperMinAmount + (low + high) / 2 * (maxFee - whisperMinAmount) + amount * feePercentage
    with htotal
  have hround := abs_le.mp (abs_roundAway_sub_le (total * 100000000))
  have hsplit : ((roundAway (total * 100000000) : ℚ) / 100000000 - amount * feePercentage - whisperMinAmount) /
      (maxFee - whisperMinAmount) - (low + high) / 2 =
      ((roundAway (total * 100000000) : ℚ) - total * 100000000) / 990000 := by
    rw [htotal]
    norm_num [maxFee, whisperMinAmount]
    ring
  rw [hsplit, abs_le, abs_le]
  refine ⟨⟨?_, ?_⟩, ?_, ?_⟩ <;> linarith [hround.1, hround.2]

omit hmap in
/-- A letter is one of the map's in lower case, and in upper case again what it was in upper case. -/
theorem letter_cases {c : Char} (hc : c.isAlpha = true) :
    c.toLower ∈ letterFrequencies.map Prod.fst ∧ c.toLower.toUpper = c.toUpper := by
  have hall : ∀ n < 123, (Char.ofNat n).isAlpha = true →
      (Char.ofNat n).toLower ∈ letterFrequencies.map Prod.fst ∧
        (Char.ofNat n).toLower.toUpper = (Char.ofNat n).toUpper := by decide +kernel
  have hlt : c.toNat < 123 := by
    unfold Char.isAlpha Char.isUpper Char.isLower at hc
    simp only [Bool.or_eq_true, Bool.and_eq_true, decide_eq_true_eq, UInt32.le_iff_toNat_le] at hc
    have h : c.val.toNat = c.toNat := rfl
    rw [h] at hc
    rcases hc with hc | hc
    · exact lt_of_le_of_lt hc.2 (by decide)
    · exact lt_of_le_of_lt hc.2 (by decide)
  have h := hall c.toNat hlt
  rw [Char.ofNat_toNat] at h
  exact h hc

omit hmap in
theorem upper_letter {c : Char} (hc : c ∈ letterFrequencies.map Prod.fst) : 'A' ≤ c.toUpper ∧ c.toUpper ≤ 'Z' := by
  have hall : (letterFrequencies.map Prod.fst).all
      (fun c => decide ('A' ≤ c.toUpper) && decide (c.toUpper ≤ 'Z')) = true := by decide +kernel
  have h := List.all_eq_true.mp hall c hc
  rw [Bool.and_eq_true, decide_eq_true_eq, decide_eq_true_eq] at h
  exact h

/-- The fee of a message lies well inside the interval of its letters. -/
theorem decode_encode {m : Text} (hlen : m.length ≤ 4) (hletters : ∀ c ∈ m, c.isAlpha = true) (amount : ℚ) :
    ∃ rest, decodeMessageFromFee map (encodeMessageAsFee map m amount) amount =
        some (m.map Char.toUpper ++ rest) ∧ (m.map Char.toUpper ++ rest).length = 4 ∧
      (∀ c ∈ m.map Char.toUpper ++ rest, 'A' ≤ c ∧ c ≤ 'Z') ∧
      amount * feePercentage + whisperMinAmount - 1 / 200000000 ≤ encodeMessageAsFee map m amount ∧
      encodeMessageAsFee map m amount ≤ amount * feePercentage + maxFee + 1 / 200000000 := by
  have hpart := frequencyMap_partition hmap
  have hlower : ∀ c ∈ m.map Char.toLower, c ∈ letterFrequencies.map Prod.fst := by
    intro c hc
    obtain ⟨d, hd, rfl⟩ := List.mem_map.mp hc
    exact (letter_cases (hletters d hd)).1
  obtain ⟨word, hlabel, hword, hfold⟩ := exists_word hmap hlower
  have hwordLen : word.length = m.length := by
    rw [← List.length_map (f := Cell.label), hlabel, List.length_map]
  have hr : ((m.map Char.toLower).take 4).foldl (narrowBy map) (0, 1) =
      ((Cells.interval word).1, (Cells.interval word).2) := by
    rw [List.take_of_length_le (by simpa using hlen), hfold, Cells.foldl_narrow]
    simp
  obtain ⟨hclose, hfee⟩ := encode_close amount hr
  obtain ⟨h₀, hlt, h₁⟩ := Cells.interval_bounds hpart hword
  have hwidth : (1 / 30 : ℚ) ^ 4 ≤ (Cells.interval word).2 - (Cells.interval word).1 := by
    calc (1 / 30 : ℚ) ^ 4 ≤ (1 / 30) ^ word.length :=
          pow_le_pow_of_le_one (by norm_num) (by norm_num) (hwordLen ▸ hlen)
      _ ≤ _ := Cells.pow_le_width (by norm_num) fun c hc => frequencyMap_wide hmap c (hword c hc)
  rw [abs_le] at hclose hfee
  set fee := encodeMessageAsFee map m amount
  set normalized := (fee - amount * feePercentage - whisperMinAmount) / (maxFee - whisperMinAmount)
    with hnormalized
  have hlow : (Cells.interval word).1 ≤ normalized := by
    norm_num at hwidth hclose
    linarith [hclose.1]
  have hhigh : normalized < (Cells.interval word).2 := by
    norm_num at hwidth hclose
    linarith [hclose.2]
  obtain ⟨v, hv₀, hv₁, hdecode⟩ := Cells.decode_interval hpart (4 - word.length) hword hlow hhigh
  rw [Nat.add_sub_cancel' (hwordLen ▸ hlen), hlabel, ← decodeLetters_eq] at hdecode
  set rest := Cells.decode (cells map) (4 - word.length) v with hrest
  have hrestLen : rest.length = 4 - word.length := Cells.decode_length hpart _ hv₀ hv₁
  have hupper : (m.map Char.toLower).map Char.toUpper = m.map Char.toUpper := by
    rw [List.map_map]
    exact List.map_congr_left fun c hc => (letter_cases (hletters c hc)).2
  have hlength : (m.map Char.toLower ++ rest).length = 4 := by
    rw [List.length_append, List.length_map, hrestLen, hwordLen]
    omega
  refine ⟨rest.map Char.toUpper, ?_, ?_, ?_, ?_, ?_⟩
  · unfold decodeMessageFromFee
    rw [if_pos ⟨h₀.trans hlow, (hhigh.trans_le h₁).le⟩, hdecode]
    simp only [if_pos hlength, List.map_append, hupper]
  · simpa using hlength
  · intro c hc
    rw [← hupper, ← List.map_append] at hc
    obtain ⟨d, hd, rfl⟩ := List.mem_map.mp hc
    refine upper_letter ?_
    rcases List.mem_append.mp hd with hd | hd
    · exact hlower d hd
    · obtain ⟨cell, hcell, rfl⟩ := Cells.decode_label _ _ _ d hd
      obtain ⟨e, he, rfl⟩ := List.mem_map.mp hcell
      exact (frequencyMap_keys hmap).mp (List.mem_map_of_mem he)
  · have hmid : 0 ≤ (Cells.interval word).1 + (Cells.interval word).2 := by linarith
    norm_num [maxFee, whisperMinAmount] at hfee ⊢
    linarith [hfee.1]
  · have hmid : (Cells.interval word).1 + (Cells.interval word).2 ≤ 2 := by linarith
    norm_num [maxFee, whisperMinAmount] at hfee ⊢
    linarith [hfee.2]

/-- The fee decodes to the same text in whatever order the map is iterated. -/
theorem decode_order (totalFee amount : ℚ) :
    decodeMessageFromFee map totalFee amount = decodeMessageFromFee buildFrequencyMap totalFee amount := by
  have hletters : ∀ v, decodeLetters map 4 v = decodeLetters buildFrequencyMap 4 v := by
    intro v
    rw [decodeLetters_eq, decodeLetters_eq]
    exact Cells.decode_perm buildFrequencyMap_chain.1.partition (hmap.map cellOf) 4 v
  unfold decodeMessageFromFee
  simp only [hletters]

omit hmap in
/-- **The whisper code round trip.** For an amount in whole units and a message of up to four
letters, in whatever order the map is iterated. -/
theorem whisper_round_trip (map : FrequencyMap) (hmap : map.Perm buildFrequencyMap) (units : ℕ) (m : Text)
    (hlen : m.length ≤ 4) (hletters : ∀ c ∈ m, c.isAlpha = true) :
    (∃ code, decodeMessageFromFee map (encodeMessageAsFee map m (units / moneyScale)) (units / moneyScale) =
        some code ∧ code.length = 4 ∧ (∀ c ∈ code, 'A' ≤ c ∧ c ≤ 'Z') ∧ m.map Char.toUpper <+: code ∧
      (m.length = 4 → code = m.map Char.toUpper)) ∧
    (units / moneyScale * feePercentage + whisperMinAmount - 1 / 2 / moneyScale ≤
        encodeMessageAsFee map m (units / moneyScale) ∧
      encodeMessageAsFee map m (units / moneyScale) ≤
        units / moneyScale * feePercentage + maxFee + 1 / 2 / moneyScale) ∧
    Cells.Partition (cells map) ∧
    ∀ totalFee amount, decodeMessageFromFee map totalFee amount =
      decodeMessageFromFee buildFrequencyMap totalFee amount := by
  obtain ⟨rest, hdecode, hcode, hupper, hlow, hhigh⟩ := decode_encode hmap hlen hletters (units / moneyScale)
  have hunit : (1 / 2 / moneyScale : ℚ) = 1 / 200000000 := by norm_num [moneyScale]
  rw [hunit]
  refine ⟨⟨_, hdecode, hcode, hupper, List.prefix_append _ _, fun h4 => ?_⟩, ⟨hlow, hhigh⟩,
    frequencyMap_partition hmap, decode_order hmap⟩
  have hnil : rest = [] := by
    rw [List.length_append, List.length_map] at hcode
    exact List.eq_nil_of_length_eq_zero (by omega)
  rw [hnil, List.append_nil]

omit hmap in
theorem whisper_round_trip_word :
    decodeMessageFromFee buildFrequencyMap
      (encodeMessageAsFee buildFrequencyMap ['H', 'e', 'y', 'D'] ((25 : ℕ) / moneyScale)) ((25 : ℕ) / moneyScale) =
      some ['H', 'E', 'Y', 'D'] := by
  have hletters : ∀ c ∈ ['H', 'e', 'y', 'D'], c.isAlpha = true := by
    simp only [List.forall_mem_cons]
    exact ⟨rfl, rfl, rfl, rfl, nofun⟩
  obtain ⟨⟨code, hdecode, -, -, -, hfour⟩, -⟩ := whisper_round_trip buildFrequencyMap (List.Perm.refl _) 25
    ['H', 'e', 'y', 'D'] le_rfl hletters
  rw [hdecode, hfour rfl]
  rfl

end Whisper

end Alphanumeric
