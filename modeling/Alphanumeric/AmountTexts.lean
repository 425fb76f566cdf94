/-
# Amounts as texts

Two parsers and two printers of amounts: the wallet's `parse_coin_amount` (pads the fraction)
and `format_coins`, `units_to_amount_string`, which the signature is made over, and the node's
`parse_coin_units` (multiplies the fraction up). An amount text is read as a decimal number:
`Reads` says which units it stands for, and both parsers are characterised by it.

Key definitions: `parseI128`, `Amounts.parseCoinAmount`, `parseCoinUnits`, `formatCoins`,
`Reads`.
Key theorems: `parseCoinAmount_spec`, `parseCoinUnits_spec`, `unitsToAmountString_reads`,
`formatCoins_reads`, `parseCoinAmount_eq`, `amount_texts_agree`.
-/
import Alphanumeric.WalletApp
import Mathlib.Data.List.DropRight
import Mathlib.Tactic

namespace Alphanumeric

namespace Gui

namespace Amounts

/-! ### Checked integers -/

def inI128 (n : ℤ) : Option ℤ := if -(2 ^ 127) ≤ n ∧ n ≤ i128Max then some n else none

def checkedMul (a b : ℤ) : Option ℤ := inI128 (a * b)

def checkedAdd (a b : ℤ) : Option ℤ := inI128 (a + b)

/-- A subtraction that panics on overflow. -/
def usizeSub (a b : ℕ) : Option ℕ := if b ≤ a then some (a - b) else none

/-- `i128::from_str`. -/
def parseI128 (t : Text) : Option ℤ :=
  let (negative, body) := match t with
    | '-' :: body => (true, body)
    | '+' :: body => (false, body)
    | body => (false, body)
  if body ≠ [] ∧ body.all isAsciiDigit then inI128 (if negative then -(digits body : ℤ) else digits body)
  else none

def moneyScale : ℤ := 100000000

/-! ### The wallet -/

/-- `str::split_once`. -/
def splitOnce (c : Char) (t : Text) : Option (Text × Text) :=
  if t.contains c then some (t.takeWhile (· ≠ c), (t.dropWhile (· ≠ c)).drop 1) else none

/-- The end of `parse_coin_amount`, the fraction padded. -/
def combine (wholeText padded : Text) : Except AmountProblem ℤ := do
  let whole ← Guard.need (parseI128 wholeText) .tooLarge
  let fraction ← if padded.isEmpty then .ok 0 else Guard.need (parseI128 padded) .tooLarge
  Guard.need ((checkedMul whole moneyScale).bind (checkedAdd · fraction)) .tooLarge

/-- `parse_coin_amount` after the split. -/
def parseSplit (wholeText fractionText : Text) (hasPoint : Bool) : Option (Except AmountProblem ℤ) :=
  if wholeText.isEmpty || !wholeText.all isAsciiDigit || (hasPoint && fractionText.isEmpty) ||
      !fractionText.all isAsciiDigit then some (.error .notANumber)
  else do
    let scaleDigits ← usizeSub (Nat.toDigits 10 moneyScale.toNat).length 1
    if scaleDigits < textLen fractionText then return .error .tooPrecise
    return combine wholeText (fractionText ++ List.replicate (scaleDigits - textLen fractionText) '0')

/-- `parse_coin_amount`; `none` is a panic. -/
def parseCoinAmount (input : Text) : Option (Except AmountProblem ℤ) :=
  let trimmed := trim input
  if trimmed.isEmpty then some (.error .empty)
  else
    let (wholeText, fractionText) := (splitOnce '.' trimmed).getD (trimmed, [])
    parseSplit wholeText fractionText (trimmed.contains '.')

def trimEndMatches (c : Char) (t : Text) : Text := t.rdropWhile (· == c)

def formatCoins (units : ℤ) : Text :=
  let trimmed := trimEndMatches '.' (trimEndMatches '0' (unitsToAmountString units))
  if trimmed.isEmpty || trimmed == ['-'] then ['0'] else trimmed

/-! ### The node -/

/-- `for _ in fractional.len()..8`. -/
def scaleUp : ℕ → ℤ → Option ℤ
  | 0, n => some n
  | k + 1, n => (checkedMul n 10).bind (scaleUp k)

def wholeUnits (whole field : Text) : Except Text ℤ :=
  if whole.isEmpty then .ok 0
  else Guard.need ((parseI128 whole).bind (checkedMul · 100000000)) (field ++ " is too large".toList)

def fractionalUnits (fractional field : Text) : Except Text ℤ :=
  if fractional.isEmpty then .ok 0 else Guard.need (parseI128 fractional) (field ++ " is invalid".toList)

/-- `parse_coin_units` after its check of the characters. -/
def combineUnits (whole fractional field : Text) : Except Text ℤ := do
  Guard.ensure (textLen fractional ≤ 8) (field ++ " may have at most 8 decimal places".toList)
  let wholeUnits ← wholeUnits whole field
  let fractionalUnits ← fractionalUnits fractional field
  let fractionalUnits ← Guard.need (scaleUp (8 - textLen fractional) fractionalUnits)
    (field ++ " is too large".toList)
  Guard.need (checkedAdd wholeUnits fractionalUnits) (field ++ " is too large".toList)

/-- `parse_coin_units`, the command line's amounts. -/
def parseCoinUnits (value field : Text) : Except Text ℤ :=
  let components := value.splitOn '.'
  let whole := components.headD []
  let fractional := components[1]?
  if (components[2]?).isSome || (whole.isEmpty && (fractional.getD []).isEmpty) ||
      !whole.all isAsciiDigit || fractional.any fun part => !part.all isAsciiDigit then
    .error (field ++ " must be a plain non-negative decimal number".toList)
  else combineUnits whole (fractional.getD []) field

/-! ### Decimal numbers -/

/-- The digits `w`, a point and the digits `f`, in units of `10⁻⁸`. -/
def units (w f : Text) : ℕ := digits w * 10 ^ 8 + digits f * 10 ^ (8 - f.length)

/-- `w` and `f` are digits of an amount that fits: `u` units. -/
structure Reads (w f : Text) (u : ℤ) : Prop where
  whole : w.all isAsciiDigit = true
  fraction : f.all isAsciiDigit = true
  places : f.length ≤ 8
  value : (u : ℚ) = (digits w + digits f / 10 ^ f.length : ℚ) * 10 ^ 8
  fits : u < 2 ^ 127

theorem digits_append (a b : Text) : digits (a ++ b) = digits a * 10 ^ b.length + digits b := by
  change Nat.ofDigitChars 10 (a ++ b) 0 = Nat.ofDigitChars 10 a 0 * _ + Nat.ofDigitChars 10 b 0
  rw [Nat.ofDigitChars_append, Nat.ofDigitChars_eq_ofDigitChars_zero, Nat.mul_comm]

theorem digits_replicate (n : ℕ) : digits (List.replicate n '0') = 0 :=
  (Nat.ofDigitChars_replicate_zero (b := 10)).trans (Nat.mul_zero _)

theorem digits_toDigits (n : ℕ) : digits (Nat.toDigits 10 n) = n := Nat.ofDigitChars_ten_toDigits

theorem digits_lt {f : Text} (hf : f.all isAsciiDigit = true) : digits f < 10 ^ f.length := by
  induction f using List.reverseRecOn with
  | nil => simp [digits]
  | append_singleton f c ih =>
    rw [List.all_append, Bool.and_eq_true] at hf
    have hlow := ih hf.1
    have hc : c.toNat - 48 < 10 := by
      have hdigit := List.all_eq_true.mp hf.2 c (by simp)
      unfold isAsciiDigit at hdigit
      rw [Bool.and_eq_true, decide_eq_true_eq, decide_eq_true_eq] at hdigit
      have hle : c.toNat ≤ 57 := hdigit.2
      omega
    have hlast : digits [c] = c.toNat - 48 := by simp [digits]
    rw [digits_append, hlast, List.length_append, pow_add]
    simp only [List.length_singleton, pow_one]
    omega

theorem fraction_lt {f : Text} (hf : f.all isAsciiDigit = true) (hlen : f.length ≤ 8) :
    digits f * 10 ^ (8 - f.length) < 10 ^ 8 := by
  calc digits f * 10 ^ (8 - f.length) < 10 ^ f.length * 10 ^ (8 - f.length) :=
        Nat.mul_lt_mul_of_pos_right (digits_lt hf) (by positivity)
    _ = 10 ^ 8 := by rw [← pow_add, Nat.add_sub_cancel' hlen]

theorem units_cast {w f : Text} (hlen : f.length ≤ 8) :
    (units w f : ℚ) = (digits w + digits f / 10 ^ f.length : ℚ) * 10 ^ 8 := by
  have hpow : (10 : ℚ) ^ 8 = 10 ^ f.length * 10 ^ (8 - f.length) := by
    rw [← pow_add, Nat.add_sub_cancel' hlen]
  have hf : (digits f / 10 ^ f.length : ℚ) * 10 ^ 8 = digits f * 10 ^ (8 - f.length) := by
    rw [hpow]
    field_simp
  rw [add_mul, hf]
  simp only [units, Nat.cast_add, Nat.cast_mul, Nat.cast_pow, Nat.cast_ofNat]

theorem reads_iff {w f : Text} {u : ℤ} :
    Reads w f u ↔ w.all isAsciiDigit = true ∧ f.all isAsciiDigit = true ∧ f.length ≤ 8 ∧
      u = units w f ∧ u < 2 ^ 127 := by
  constructor
  · rintro ⟨hw, hf, hlen, hvalue, hfits⟩
    rw [← units_cast hlen] at hvalue
    exact ⟨hw, hf, hlen, by exact_mod_cast hvalue, hfits⟩
  · rintro ⟨hw, hf, hlen, rfl, hfits⟩
    exact ⟨hw, hf, hlen, by rw [← units_cast hlen]; rfl, hfits⟩

/-! ### What the parts parse to -/

theorem i128Max_eq : i128Max = 2 ^ 127 - 1 := rfl

theorem inI128_eq_some {n m : ℤ} (hn : 0 ≤ n) : inI128 n = some m ↔ m = n ∧ n < 2 ^ 127 := by
  unfold inI128
  rw [i128Max_eq]
  by_cases h : n < 2 ^ 127
  · rw [if_pos (by omega), Option.some_inj]
    exact ⟨fun hm => ⟨hm.symm, h⟩, fun hm => hm.1.symm⟩
  · rw [if_neg (by omega)]
    constructor
    · intro hm
      cases hm
    · rintro ⟨-, hlt⟩
      exact absurd hlt h

theorem parseI128_digits {t : Text} (hne : t ≠ []) (ht : t.all isAsciiDigit = true) :
    parseI128 t = inI128 (digits t) := by
  rcases t with _ | ⟨c, t⟩
  · exact absurd rfl hne
  · have hc : isAsciiDigit c = true := List.all_eq_true.mp ht c (by simp)
    have hminus : c ≠ '-' := by
      rintro rfl
      exact absurd hc (by decide)
    have hplus : c ≠ '+' := by
      rintro rfl
      exact absurd hc (by decide)
    unfold parseI128
    split
    rename_i negative body hparts
    split at hparts
    · rename_i heq
      exact absurd (List.cons.inj heq).1 hminus
    · rename_i heq
      exact absurd (List.cons.inj heq).1 hplus
    · cases hparts
      rw [if_pos ⟨hne, ht⟩]
      rfl

theorem units_append_zeros {w f : Text} {n : ℕ} (h : f.length + n ≤ 8) :
    units w (f ++ List.replicate n '0') = units w f := by
  unfold units
  rw [digits_append, digits_replicate, Nat.add_zero, List.length_append, List.length_replicate, Nat.mul_assoc,
    ← pow_add]
  congr 3
  omega

theorem combine_eq_ok {w padded : Text} {u : ℤ} (hne : w ≠ []) (hw : w.all isAsciiDigit = true)
    (hp : padded.all isAsciiDigit = true) (hlen : padded.length = 8) :
    combine w padded = .ok u ↔ u = units w padded ∧ u < 2 ^ 127 := by
  have hpne : padded ≠ [] := by
    rintro rfl
    cases hlen
  have hlow : digits padded < 10 ^ 8 := hlen ▸ digits_lt hp
  have hunits : (units w padded : ℤ) = digits w * 100000000 + digits padded := by
    simp [units, hlen]
  have hempty : padded.isEmpty = false := by simpa using hpne
  unfold combine
  simp only [Guard.bind_eq_ok, Guard.need_eq_ok, hempty, Bool.false_eq_true, if_false,
    parseI128_digits hne hw, parseI128_digits hpne hp, inI128_eq_some (Int.natCast_nonneg _),
    Option.bind_eq_some_iff, checkedMul, checkedAdd, moneyScale]
  have hmul₀ : (0 : ℤ) ≤ digits w * 100000000 := by omega
  have hadd₀ : (0 : ℤ) ≤ digits w * 100000000 + digits padded := by omega
  constructor
  · rintro ⟨_, ⟨rfl, -⟩, _, ⟨rfl, -⟩, m, hmul, hadd⟩
    obtain ⟨rfl, -⟩ := (inI128_eq_some hmul₀).mp hmul
    obtain ⟨rfl, hfits⟩ := (inI128_eq_some hadd₀).mp hadd
    exact ⟨hunits.symm, hfits⟩
  · rintro ⟨rfl, hfits⟩
    rw [hunits] at hfits
    refine ⟨_, ⟨rfl, by omega⟩, _, ⟨rfl, by omega⟩, digits w * 100000000, ?_, ?_⟩
    · exact (inI128_eq_some hmul₀).mpr ⟨rfl, by omega⟩
    · exact (inI128_eq_some hadd₀).mpr ⟨hunits, hfits⟩

/-- Multiplying a fraction up never overflows. -/
theorem scaleUp_eq (k n : ℕ) (h : (n : ℤ) * 10 ^ k < 2 ^ 127) : scaleUp k n = some ((n : ℤ) * 10 ^ k) := by
  induction k generalizing n with
  | zero => rw [scaleUp, pow_zero, mul_one]
  | succ k ih =>
    have hpow : (n : ℤ) * 10 ^ (k + 1) = ((n * 10 : ℕ) : ℤ) * 10 ^ k := by
      rw [pow_succ', ← mul_assoc]
      rfl
    have hone : (1 : ℤ) ≤ 10 ^ k := one_le_pow₀ (by norm_num)
    have hlow : ((n * 10 : ℕ) : ℤ) < 2 ^ 127 := by
      calc ((n * 10 : ℕ) : ℤ) = ((n * 10 : ℕ) : ℤ) * 1 := (mul_one _).symm
        _ ≤ ((n * 10 : ℕ) : ℤ) * 10 ^ k := Int.mul_le_mul_of_nonneg_left hone (Int.natCast_nonneg _)
        _ < 2 ^ 127 := hpow ▸ h
    have hmul : checkedMul n 10 = some ((n * 10 : ℕ) : ℤ) :=
      (inI128_eq_some (Int.natCast_nonneg (n * 10))).mpr ⟨rfl, hlow⟩
    rw [scaleUp, hmul, Option.bind_some, hpow]
    exact ih (n * 10) (hpow ▸ h)

/-! ### The wallet's parser -/

theorem digit_size {c : Char} (hc : isAsciiDigit c = true) : c.utf8Size = 1 := by
  unfold isAsciiDigit at hc
  rw [Bool.and_eq_true, decide_eq_true_eq, decide_eq_true_eq] at hc
  have hle : c.val ≤ 127 := UInt32.le_trans hc.2 (by decide)
  unfold Char.utf8Size
  exact if_pos hle

theorem textLen_digits : ∀ {t : Text}, t.all isAsciiDigit = true → textLen t = t.length
  | [], _ => rfl
  | c :: t, h => by
    rw [List.all_cons, Bool.and_eq_true] at h
    have hrest := textLen_digits h.2
    unfold textLen at hrest ⊢
    rw [List.map_cons, List.sum_cons, hrest, digit_size h.1, List.length_cons, Nat.add_comm]

theorem all_zeros (n : ℕ) : (List.replicate n '0').all isAsciiDigit = true := by
  rw [List.all_eq_true]
  intro c hc
  rw [List.eq_of_mem_replicate hc]
  decide

theorem parseSplit_spec (w f : Text) (point : Bool) :
    ∃ r, parseSplit w f point = some r ∧ ∀ u, r = .ok u ↔
      w ≠ [] ∧ (point = true → f ≠ []) ∧ Reads w f u := by
  have hscale : usizeSub (Nat.toDigits 10 moneyScale.toNat).length 1 = some 8 := by decide
  unfold parseSplit
  rw [hscale]
  split
  · rename_i hbad
    refine ⟨_, rfl, fun u => ⟨fun h => (by cases h), ?_⟩⟩
    rintro ⟨hw, hpoint, hreads⟩
    obtain ⟨hwd, hfd, -, -, -⟩ := reads_iff.mp hreads
    have hwe : w.isEmpty = false := by simpa using hw
    rw [hwe, hwd, hfd] at hbad
    have hboth : (point && f.isEmpty) = true := by simpa using hbad
    rw [Bool.and_eq_true, List.isEmpty_iff] at hboth
    exact absurd hboth.2 (hpoint hboth.1)
  · rename_i hgood
    simp only [Bool.or_eq_true, not_or, Bool.not_eq_true', Bool.not_eq_false, List.isEmpty_iff,
      Bool.and_eq_true, not_and] at hgood
    obtain ⟨⟨⟨hw, hwd⟩, hpoint⟩, hfd⟩ := hgood
    rw [Option.bind_eq_bind, Option.bind_some, textLen_digits hfd]
    by_cases hlen : 8 < f.length
    · rw [if_pos hlen]
      refine ⟨_, rfl, fun u => ⟨fun h => (by cases h), ?_⟩⟩
      rintro ⟨-, -, hreads⟩
      exact absurd hreads.places (by omega)
    · rw [if_neg hlen]
      refine ⟨_, rfl, fun u => ?_⟩
      have hpad : (f ++ List.replicate (8 - f.length) '0').all isAsciiDigit = true := by
        rw [List.all_append, hfd, all_zeros]
        rfl
      rw [combine_eq_ok hw hwd hpad (by simp; omega), units_append_zeros (by omega), reads_iff]
      exact ⟨fun h => ⟨hw, hpoint, hwd, hfd, by omega, h⟩, fun h => h.2.2.2.2.2⟩

theorem splitOnce_none {c : Char} {t : Text} (h : c ∉ t) : splitOnce c t = none := by
  unfold splitOnce
  rw [if_neg]
  simpa using h

theorem splitOnce_append {c : Char} {a b : Text} (h : c ∉ a) : splitOnce c (a ++ c :: b) = some (a, b) := by
  have ha : ∀ x ∈ a, decide (x ≠ c) = true := by
    intro x hx
    rw [decide_eq_true_eq]
    rintro rfl
    exact h hx
  unfold splitOnce
  rw [if_pos (by simp), List.takeWhile_append_of_pos ha, List.dropWhile_append_of_pos ha]
  simp

theorem point_notMem {t : Text} (h : t.all isAsciiDigit = true) : '.' ∉ t := by
  intro hmem
  exact absurd (List.all_eq_true.mp h '.' hmem) (by decide)

/-- A text splits at its first point in one way. -/
theorem point_split {a b c d : Text} (ha : '.' ∉ a) (hc : '.' ∉ c) (h : a ++ '.' :: b = c ++ '.' :: d) :
    a = c ∧ b = d := by
  have hsplit := congrArg (splitOnce '.') h
  rw [splitOnce_append ha, splitOnce_append hc, Option.some_inj, Prod.mk.injEq] at hsplit
  exact hsplit

/-- **What the wallet reads as an amount.** -/
theorem parseCoinAmount_spec (s : Text) :
    ∃ r, parseCoinAmount s = some r ∧ ∀ u, r = .ok u ↔
      ∃ w f, Reads w f u ∧ w ≠ [] ∧ (trim s = w ∧ f = [] ∨ trim s = w ++ '.' :: f ∧ f ≠ []) := by
  unfold parseCoinAmount
  generalize trim s = t
  by_cases hempty : t = []
  · refine ⟨.error .empty, by rw [hempty]; rfl, fun u => ⟨fun h => (by cases h), ?_⟩⟩
    rintro ⟨w, f, -, hw, ⟨rfl, -⟩ | ⟨ht, -⟩⟩
    · exact absurd hempty hw
    · rw [hempty] at ht
      exact absurd ht (by simp)
  have hne : t.isEmpty = false := by simpa using hempty
  simp only [hne, Bool.false_eq_true, if_false]
  by_cases hpoint : '.' ∈ t
  · obtain ⟨a, b, rfl, ha⟩ := List.eq_append_cons_of_mem hpoint
    have hcontains : (a ++ '.' :: b).contains '.' = true := by simp
    obtain ⟨r, hr, hspec⟩ := parseSplit_spec a b true
    rw [splitOnce_append ha, Option.getD_some, hcontains]
    refine ⟨r, hr, fun u => (hspec u).trans ⟨?_, ?_⟩⟩
    · rintro ⟨hw, hf, hreads⟩
      exact ⟨a, b, hreads, hw, .inr ⟨rfl, hf rfl⟩⟩
    · rintro ⟨w, f, hreads, hw, ⟨rfl, -⟩ | ⟨ht, hf⟩⟩
      · exact absurd hpoint (point_notMem hreads.whole)
      · obtain ⟨rfl, rfl⟩ := point_split ha (point_notMem hreads.whole) ht
        exact ⟨hw, fun _ => hf, hreads⟩
  · have hcontains : t.contains '.' = false := by simpa using hpoint
    obtain ⟨r, hr, hspec⟩ := parseSplit_spec t [] false
    rw [splitOnce_none hpoint, Option.getD_none, hcontains]
    refine ⟨r, hr, fun u => (hspec u).trans ⟨?_, ?_⟩⟩
    · rintro ⟨hw, -, hreads⟩
      exact ⟨t, [], hreads, hw, .inl ⟨rfl, rfl⟩⟩
    · rintro ⟨w, f, hreads, hw, ⟨rfl, rfl⟩ | ⟨rfl, -⟩⟩
      · exact ⟨hw, fun h => (by cases h), hreads⟩
      · exact absurd (by simp) hpoint

/-! ### The node's parser -/

theorem wholeUnits_eq_ok {w field : Text} {m : ℤ} (hw : w.all isAsciiDigit = true) :
    wholeUnits w field = .ok m ↔ m = digits w * 100000000 ∧ (digits w * 100000000 : ℤ) < 2 ^ 127 := by
  have hmul₀ : (0 : ℤ) ≤ digits w * 100000000 := by omega
  unfold wholeUnits
  rcases w with _ | ⟨c, w⟩
  · simp [digits, eq_comm]
  · rw [List.isEmpty_cons, if_neg Bool.false_ne_true, Guard.need_eq_ok,
      parseI128_digits (List.cons_ne_nil c w) hw, Option.bind_eq_some_iff]
    constructor
    · rintro ⟨n, hn, hm⟩
      obtain ⟨rfl, -⟩ := (inI128_eq_some (Int.natCast_nonneg _)).mp hn
      exact (inI128_eq_some hmul₀).mp hm
    · rintro ⟨rfl, hlt⟩
      exact ⟨_, (inI128_eq_some (Int.natCast_nonneg _)).mpr ⟨rfl, by omega⟩,
        (inI128_eq_some hmul₀).mpr ⟨rfl, hlt⟩⟩

theorem fractionalUnits_eq_ok {f field : Text} {m : ℤ} (hf : f.all isAsciiDigit = true) (hlen : f.length ≤ 8) :
    fractionalUnits f field = .ok m ↔ m = digits f := by
  unfold fractionalUnits
  rcases f with _ | ⟨c, f⟩
  · simp [digits, eq_comm]
  · have hdigits := digits_lt hf
    have hpow : 10 ^ (c :: f).length ≤ 10 ^ 8 := Nat.pow_le_pow_right (by norm_num) hlen
    rw [List.isEmpty_cons, if_neg Bool.false_ne_true, Guard.need_eq_ok,
      parseI128_digits (List.cons_ne_nil c f) hf, inI128_eq_some (Int.natCast_nonneg _)]
    exact ⟨fun h => h.1, fun h => ⟨h, by omega⟩⟩

theorem combineUnits_eq_ok {w f field : Text} {u : ℤ} (hw : w.all isAsciiDigit = true)
    (hf : f.all isAsciiDigit = true) : combineUnits w f field = .ok u ↔ Reads w f u := by
  have hunits : (units w f : ℤ) = digits w * 100000000 + digits f * 10 ^ (8 - f.length) := by
    simp [units]
  have hpos : (0 : ℤ) ≤ digits f * 10 ^ (8 - f.length) := by positivity
  have hscale : f.length ≤ 8 → scaleUp (8 - f.length) (digits f) = some ((digits f : ℤ) * 10 ^ (8 - f.length)) := by
    intro hlen
    have hlow : (digits f : ℤ) * 10 ^ (8 - f.length) < 10 ^ 8 := by exact_mod_cast fraction_lt hf hlen
    exact scaleUp_eq _ _ (hlow.trans (by norm_num))
  unfold combineUnits
  rw [reads_iff, textLen_digits hf]
  simp only [Guard.bind_eq_ok, Guard.need_eq_ok, Guard.ensure_eq_ok, wholeUnits_eq_ok hw]
  constructor
  · rintro ⟨-, hlen, _, ⟨rfl, hfits⟩, m, hm, n, hn, hadd⟩
    obtain rfl := (fractionalUnits_eq_ok hf hlen).mp hm
    obtain rfl := Option.some.inj ((hscale hlen).symm.trans hn)
    obtain ⟨rfl, hlt⟩ := (inI128_eq_some (by omega)).mp hadd
    rw [hunits]
    exact ⟨hw, hf, hlen, rfl, hlt⟩
  · rintro ⟨-, -, hlen, rfl, hlt⟩
    rw [hunits] at hlt
    refine ⟨(), hlen, _, ⟨rfl, by omega⟩, _, (fractionalUnits_eq_ok hf hlen).mpr rfl, _, hscale hlen, ?_⟩
    exact (inI128_eq_some (by omega)).mpr ⟨hunits, hlt⟩

/-- **What the node reads as an amount.** -/
theorem parseCoinUnits_spec (t field : Text) (u : ℤ) :
    parseCoinUnits t field = .ok u ↔
      ∃ w f, Reads w f u ∧ (t = w ∧ w ≠ [] ∧ f = [] ∨ t = w ++ '.' :: f ∧ (w ≠ [] ∨ f ≠ [])) := by
  unfold parseCoinUnits
  by_cases hpoint : '.' ∈ t
  · obtain ⟨a, b, rfl, ha⟩ := List.eq_append_cons_of_mem hpoint
    rw [List.splitOn_append_cons_self_of_not_mem ha]
    by_cases hagain : '.' ∈ b
    · obtain ⟨c, d, rfl, hc⟩ := List.eq_append_cons_of_mem hagain
      rw [List.splitOn_append_cons_self_of_not_mem hc]
      obtain ⟨x, xs, hxs⟩ := List.exists_cons_of_ne_nil (List.splitOn_ne_nil '.' d)
      simp only [hxs, List.getElem?_cons_succ, List.getElem?_cons_zero, Option.isSome_some, Bool.true_or,
        if_true, reduceCtorEq, false_iff]
      rintro ⟨w, f, hreads, ⟨heq, -⟩ | ⟨heq, -⟩⟩
      · exact point_notMem hreads.whole (heq ▸ hpoint)
      · obtain ⟨-, rfl⟩ := point_split ha (point_notMem hreads.whole) heq
        exact point_notMem hreads.fraction hagain
    · rw [List.splitOn_eq_singleton hagain]
      simp only [List.headD_cons, List.getElem?_cons_succ, List.getElem?_cons_zero, List.getElem?_nil,
        Option.isSome_none, Bool.false_or, Option.getD_some, Option.any_some]
      split
      · rename_i hbad
        simp only [reduceCtorEq, false_iff]
        rintro ⟨w, f, hreads, ⟨heq, -⟩ | ⟨heq, hne⟩⟩
        · exact point_notMem hreads.whole (heq ▸ hpoint)
        · obtain ⟨rfl, rfl⟩ := point_split ha (point_notMem hreads.whole) heq
          simp only [hreads.whole, hreads.fraction, Bool.not_true, Bool.or_false, Bool.and_eq_true,
            List.isEmpty_iff] at hbad
          rcases hne with hne | hne
          · exact hne hbad.1
          · exact hne hbad.2
      · rename_i hgood
        simp only [Bool.or_eq_true, not_or, Bool.and_eq_true, List.isEmpty_iff, not_and, Bool.not_eq_true',
          Bool.not_eq_false] at hgood
        obtain ⟨⟨hne, hw⟩, hf⟩ := hgood
        rw [combineUnits_eq_ok hw hf]
        constructor
        · intro hreads
          exact ⟨a, b, hreads, .inr ⟨rfl, by tauto⟩⟩
        · rintro ⟨w, f, hreads, ⟨heq, -⟩ | ⟨heq, -⟩⟩
          · exact absurd (heq ▸ hpoint) (point_notMem hreads.whole)
          · obtain ⟨rfl, rfl⟩ := point_split ha (point_notMem hreads.whole) heq
            exact hreads
  · rw [List.splitOn_eq_singleton hpoint]
    simp only [List.headD_cons, List.getElem?_cons_succ, List.getElem?_nil, Option.isSome_none,
      Bool.false_or, Option.getD_none, List.isEmpty_nil, Bool.and_true, Option.any_none, Bool.or_false]
    have hno : ∀ w f, t ≠ w ++ '.' :: f := by
      rintro w f rfl
      exact hpoint (by simp)
    split
    · rename_i hbad
      simp only [reduceCtorEq, false_iff]
      rintro ⟨w, f, hreads, ⟨rfl, hw, -⟩ | ⟨heq, -⟩⟩
      · simp [hreads.whole, hw] at hbad
      · exact hno w f heq
    · rename_i hgood
      simp only [Bool.or_eq_true, not_or, List.isEmpty_iff, Bool.not_eq_true', Bool.not_eq_false] at hgood
      obtain ⟨hne, hw⟩ := hgood
      rw [combineUnits_eq_ok hw rfl]
      constructor
      · intro hreads
        exact ⟨t, [], hreads, .inl ⟨rfl, hne, rfl⟩⟩
      · rintro ⟨w, f, hreads, ⟨rfl, -, rfl⟩ | ⟨heq, -⟩⟩
        · exact hreads
        · exact absurd heq (hno w f)

/-! ### The printers -/

theorem isAsciiDigit_of_isDigit {c : Char} (h : c.isDigit = true) : isAsciiDigit c = true := by
  unfold Char.isDigit at h
  rw [Bool.and_eq_true, decide_eq_true_eq, decide_eq_true_eq] at h
  unfold isAsciiDigit
  rw [Bool.and_eq_true, decide_eq_true_eq, decide_eq_true_eq]
  exact h

theorem all_toDigits (n : ℕ) : (Nat.toDigits 10 n).all isAsciiDigit = true := by
  rw [List.all_eq_true]
  intro c hc
  exact isAsciiDigit_of_isDigit (Nat.isDigit_of_mem_toDigits (by norm_num) (by norm_num) hc)

/-- The printed text has eight decimals. -/
theorem unitsToAmountString_reads {u : ℤ} (hu : 0 ≤ u) (hfits : u < 2 ^ 127) :
    ∃ w f, Reads w f u ∧ w ≠ [] ∧ f.length = 8 ∧ unitsToAmountString u = w ++ '.' :: f := by
  have hlen : (Nat.toDigits 10 (u.natAbs % 100000000)).length ≤ 8 :=
    (Nat.length_toDigits_le_iff (by norm_num) (by norm_num)).mpr (Nat.mod_lt _ (by norm_num))
  set tail := Nat.toDigits 10 (u.natAbs % 100000000) with htail
  have hpad : (List.replicate (8 - tail.length) '0' ++ tail).length = 8 := by simp; omega
  refine ⟨Nat.toDigits 10 (u.natAbs / 100000000), List.replicate (8 - tail.length) '0' ++ tail, ?_,
    Nat.toDigits_ne_nil, hpad, ?_⟩
  · rw [reads_iff]
    refine ⟨all_toDigits _, ?_, le_of_eq hpad, ?_, hfits⟩
    · rw [List.all_append, all_zeros, htail, all_toDigits]
      rfl
    · unfold units
      rw [hpad, digits_append, digits_replicate, htail, digits_toDigits, digits_toDigits]
      omega
  · unfold unitsToAmountString
    rw [if_neg (by omega), ← htail]
    rfl

theorem trimEndMatches_append {c : Char} {a b : Text} (hb : ∀ x ∈ b, x = c) :
    trimEndMatches c (a ++ b) = trimEndMatches c a := by
  unfold trimEndMatches List.rdropWhile
  have hall : ∀ x ∈ b.reverse, (x == c) = true := by
    intro x hx
    rw [hb x (List.mem_reverse.mp hx)]
    exact beq_self_eq_true c
  rw [List.reverse_append, List.dropWhile_append_of_pos hall]

theorem trimEndMatches_concat {c x : Char} {a : Text} (hx : x ≠ c) :
    trimEndMatches c (a ++ [x]) = a ++ [x] :=
  List.rdropWhile_concat_neg _ _ _ (by simpa using hx)

/-- Trailing zeros can be split off. -/
theorem exists_zeros (f : Text) : ∃ g n, f = g ++ List.replicate n '0' ∧ (g = [] ∨ ∃ h x, g = h ++ [x] ∧ x ≠ '0') := by
  induction f using List.reverseRecOn with
  | nil => exact ⟨[], 0, rfl, .inl rfl⟩
  | append_singleton f c ih =>
    by_cases hc : c = '0'
    · obtain ⟨g, n, rfl, hg⟩ := ih
      exact ⟨g, n + 1, by rw [hc, List.replicate_succ', List.append_assoc], hg⟩
    · exact ⟨f ++ [c], 0, by simp, .inr ⟨f, c, rfl, hc⟩⟩

theorem formatCoins_eq {u : ℤ} {t : Text} (h : trimEndMatches '.' (trimEndMatches '0' (unitsToAmountString u)) = t)
    (hne : t ≠ []) (hminus : t ≠ ['-']) : formatCoins u = t := by
  unfold formatCoins
  simp [h, hne, hminus]

/-- Trimming takes nothing but zeros off the fraction, and the point after the last one. -/
theorem formatCoins_reads {u : ℤ} (hu : 0 ≤ u) (hfits : u < 2 ^ 127) :
    ∃ w f, Reads w f u ∧ w ≠ [] ∧ (formatCoins u = w ∧ f = [] ∨ formatCoins u = w ++ '.' :: f ∧ f ≠ []) := by
  obtain ⟨w, f, hreads, hw, hlen, htext⟩ := unitsToAmountString_reads hu hfits
  obtain ⟨hwd, hfd, -, hvalue, -⟩ := reads_iff.mp hreads
  obtain ⟨g, n, rfl, hg⟩ := exists_zeros f
  rw [List.all_append, Bool.and_eq_true] at hfd
  rw [List.length_append, List.length_replicate] at hlen
  have hshort : Reads w g u := by
    rw [units_append_zeros (by omega)] at hvalue
    exact reads_iff.mpr ⟨hwd, hfd.1, by omega, hvalue, hfits⟩
  have hzeros : ∀ x ∈ List.replicate n '0', x = '0' := fun x hx => List.eq_of_mem_replicate hx
  have hminus : ∀ t, w ++ t ≠ ['-'] := by
    intro t ht
    obtain ⟨c, v, rfl⟩ := List.exists_cons_of_ne_nil hw
    have hc : isAsciiDigit c = true := List.all_eq_true.mp hwd c (by simp)
    rw [(List.cons.inj ht).1] at hc
    exact absurd hc (by decide)
  rcases hg with rfl | ⟨h, x, rfl, hx⟩
  · obtain ⟨v, y, rfl⟩ : ∃ v y, w = v ++ [y] :=
      ⟨w.dropLast, w.getLast hw, (List.dropLast_append_getLast hw).symm⟩
    have hdot : y ≠ '.' := by
      rintro rfl
      exact point_notMem hwd (by simp)
    have htrim : trimEndMatches '.' (trimEndMatches '0' (unitsToAmountString u)) = v ++ [y] := by
      rw [htext, List.nil_append, List.append_cons (v ++ [y]) '.', trimEndMatches_append hzeros,
        trimEndMatches_concat (by decide), trimEndMatches_append (b := ['.']) (by simp),
        trimEndMatches_concat hdot]
    have hformat := formatCoins_eq htrim hw (by simpa using hminus [])
    exact ⟨v ++ [y], [], hshort, hw, .inl ⟨hformat, rfl⟩⟩
  · have hdot : x ≠ '.' := by
      rintro rfl
      exact point_notMem hfd.1 (by simp)
    have hsplit : w ++ '.' :: (h ++ [x] ++ List.replicate n '0') =
        (w ++ '.' :: h ++ [x]) ++ List.replicate n '0' := by simp
    have htrim : trimEndMatches '.' (trimEndMatches '0' (unitsToAmountString u)) = w ++ '.' :: (h ++ [x]) := by
      rw [htext, hsplit, trimEndMatches_append hzeros, trimEndMatches_concat hx, trimEndMatches_concat hdot]
      simp
    have hformat := formatCoins_eq htrim (by simp) (hminus _)
    exact ⟨w, h ++ [x], hshort, hw, .inr ⟨hformat, by simp⟩⟩

/-! ### The application's parser -/

theorem combine_error {w padded : Text} {e : AmountProblem} (h : combine w padded = .error e) : e = .tooLarge := by
  have hneed : ∀ {x : Option ℤ}, Guard.need x AmountProblem.tooLarge = .error e → e = .tooLarge := by
    intro x hx
    cases x <;> cases hx
    rfl
  unfold combine at h
  rcases Guard.need_bind_eq_error h with rfl | ⟨whole, h⟩
  · rfl
  · split at h
    · exact hneed h
    · rcases Guard.need_bind_eq_error h with rfl | ⟨fraction, h⟩
      · rfl
      · exact hneed h

/-- The steps of the parser come to what the application's model says in one. -/
theorem parseCoinAmount_eq (s : Text) : parseCoinAmount s = some (Gui.parseCoinAmount s) := by
  unfold parseCoinAmount Gui.parseCoinAmount
  generalize trim s = t
  have hsplit : (splitOnce '.' t).getD (t, []) =
      (t.takeWhile (· ≠ '.'), (t.dropWhile (· ≠ '.')).drop 1) := by
    by_cases hpoint : '.' ∈ t
    · obtain ⟨a, b, rfl, ha⟩ := List.eq_append_cons_of_mem hpoint
      have ha' : ∀ x ∈ a, decide (x ≠ '.') = true := by
        intro x hx
        rw [decide_eq_true_eq]
        rintro rfl
        exact ha hx
      rw [splitOnce_append ha, Option.getD_some, List.takeWhile_append_of_pos ha', List.dropWhile_append_of_pos ha']
      simp
    · have hall : ∀ x ∈ t, decide (x ≠ '.') = true := by
        intro x hx
        rw [decide_eq_true_eq]
        rintro rfl
        exact hpoint hx
      rw [splitOnce_none hpoint, Option.getD_none, List.takeWhile_eq_self_iff.mpr hall,
        List.dropWhile_eq_nil_iff.mpr hall, List.drop_nil]
  have hscale : usizeSub (Nat.toDigits 10 moneyScale.toNat).length 1 = some 8 := by decide
  simp only [hsplit]
  generalize t.takeWhile (· ≠ '.') = w
  generalize (t.dropWhile (· ≠ '.')).drop 1 = f
  by_cases hempty : t.isEmpty = true
  · rw [if_pos hempty, if_pos hempty]
  rw [if_neg hempty, if_neg hempty]
  unfold parseSplit
  by_cases hbad : (w.isEmpty || !w.all isAsciiDigit || (t.contains '.' && f.isEmpty) || !f.all isAsciiDigit) = true
  · rw [if_pos hbad, if_pos hbad]
  rw [if_neg hbad, if_neg hbad, hscale, Option.bind_eq_bind, Option.bind_some]
  simp only [Bool.or_eq_true, not_or, Bool.not_eq_true', Bool.not_eq_false, List.isEmpty_iff] at hbad
  obtain ⟨⟨⟨hw, hwd⟩, -⟩, hfd⟩ := hbad
  rw [textLen_digits hfd]
  by_cases hlen : 8 < f.length
  · rw [if_pos hlen, if_pos hlen]
    rfl
  rw [if_neg hlen, if_neg hlen]
  have hpad : (f ++ List.replicate (8 - f.length) '0').all isAsciiDigit = true := by
    rw [List.all_append, hfd, all_zeros]
    rfl
  have hpadLen : (f ++ List.replicate (8 - f.length) '0').length = 8 := by simp; omega
  generalize f ++ List.replicate (8 - f.length) '0' = padded at hpad hpadLen
  have hunits : (units w padded : ℤ) = digits w * 100000000 + digits padded := by
    simp [units, hpadLen]
  have hok := combine_eq_ok (u := units w padded) hw hwd hpad hpadLen
  rw [hunits] at hok
  refine congrArg some ?_
  split
  · rename_i hlarge
    rcases hcombine : combine w padded with e | u
    · rw [combine_error hcombine]
    · obtain ⟨rfl, hfits⟩ := (combine_eq_ok hw hwd hpad hpadLen).mp hcombine
      rw [hunits] at hfits
      rw [i128Max_eq] at hlarge
      omega
  · rename_i hsmall
    rw [i128Max_eq] at hsmall
    exact hok.mpr ⟨rfl, by omega⟩

/-! ### The four together -/

theorem trim_eq_self {t : Text} (h : ∀ c ∈ t, isWhitespace c = false) : trim t = t := by
  have hdrop : ∀ {t : Text}, (∀ c ∈ t, isWhitespace c = false) → t.dropWhile isWhitespace = t := by
    intro t ht
    rcases t with _ | ⟨c, t⟩
    · rfl
    · exact List.dropWhile_cons_of_neg (by simp [ht c (by simp)])
  unfold trim
  rw [hdrop h, hdrop (fun c hc => h c (List.mem_reverse.mp hc)), List.reverse_reverse]

theorem digit_notWhitespace {t : Text} (ht : t.all isAsciiDigit = true) : ∀ c ∈ t, isWhitespace c = false := by
  intro c hc
  have hdigit := List.all_eq_true.mp ht c hc
  unfold isAsciiDigit at hdigit
  rw [Bool.and_eq_true, decide_eq_true_eq, decide_eq_true_eq] at hdigit
  have hlow : 48 ≤ c.toNat := hdigit.1
  have hhigh : c.toNat ≤ 57 := hdigit.2
  unfold isWhitespace
  simp only [Bool.or_eq_false_iff, Bool.and_eq_false_iff, decide_eq_false_iff_not]
  omega

/-- What is read as an amount has no spaces around it. -/
theorem Reads.trim_eq {w f t : Text} {u : ℤ} (h : Reads w f u) (ht : t = w ∨ t = w ++ '.' :: f) : trim t = t := by
  refine trim_eq_self fun c hc => ?_
  rcases ht with rfl | rfl
  · exact digit_notWhitespace h.whole c hc
  · rcases List.mem_append.mp hc with hc | hc
    · exact digit_notWhitespace h.whole c hc
    · rcases List.mem_cons.mp hc with rfl | hc
      · decide
      · exact digit_notWhitespace h.fraction c hc

theorem parseCoinAmount_ok {s : Text} {u : ℤ} :
    parseCoinAmount s = some (.ok u) ↔
      ∃ w f, Reads w f u ∧ w ≠ [] ∧ (trim s = w ∧ f = [] ∨ trim s = w ++ '.' :: f ∧ f ≠ []) := by
  obtain ⟨r, hr, hspec⟩ := parseCoinAmount_spec s
  rw [hr, Option.some_inj, hspec]

/-- The wallet reads what one of the printers wrote. -/
theorem Reads.parsed {w f t : Text} {u : ℤ} (h : Reads w f u) (hw : w ≠ [])
    (ht : t = w ∧ f = [] ∨ t = w ++ '.' :: f ∧ f ≠ []) : parseCoinAmount t = some (.ok u) := by
  have htrim : trim t = t := h.trim_eq (ht.imp And.left And.left)
  exact parseCoinAmount_ok.mpr ⟨w, f, h, hw, by rwa [htrim]⟩

theorem parseCoinUnits_iff (t field : Text) (u : ℤ) :
    parseCoinUnits t field = .ok u ↔ trim t = t ∧ parseCoinAmount t = some (.ok u) ∨
      (∃ w, w ≠ [] ∧ t = w ++ ['.'] ∧ Reads w [] u) ∨ ∃ f, f ≠ [] ∧ t = '.' :: f ∧ Reads [] f u := by
  rw [parseCoinUnits_spec]
  constructor
  · rintro ⟨w, f, hreads, ⟨rfl, hw, rfl⟩ | ⟨rfl, hne⟩⟩
    · exact .inl ⟨hreads.trim_eq (.inl rfl), hreads.parsed hw (.inl ⟨rfl, rfl⟩)⟩
    · by_cases hw : w = []
      · subst hw
        exact .inr (.inr ⟨f, by tauto, rfl, hreads⟩)
      by_cases hf : f = []
      · subst hf
        exact .inr (.inl ⟨w, hw, rfl, hreads⟩)
      · exact .inl ⟨hreads.trim_eq (.inr rfl), hreads.parsed hw (.inr ⟨rfl, hf⟩)⟩
  · rintro (⟨htrim, hparse⟩ | ⟨w, hw, rfl, hreads⟩ | ⟨f, hf, rfl, hreads⟩)
    · obtain ⟨w, f, hreads, hw, ⟨ht, hf⟩ | ⟨ht, hf⟩⟩ := parseCoinAmount_ok.mp hparse
      · exact ⟨w, f, hreads, .inl ⟨htrim ▸ ht, hw, hf⟩⟩
      · exact ⟨w, f, hreads, .inr ⟨htrim ▸ ht, .inl hw⟩⟩
    · exact ⟨w, [], hreads, .inr ⟨rfl, .inl hw⟩⟩
    · exact ⟨[], f, hreads, .inr ⟨rfl, .inr hf⟩⟩

/-- **Amount texts are read exactly and alike.** The wallet's parser never panics and accepts the
trimmed decimal numbers that fit, at their value; the node's accepts the same texts, at the same
units, and beside them those that lack the digits on one side of the point; both read the signed
form of an amount back, and the wallet its display form. -/
theorem amount_texts_agree :
    (∀ s, ∃ r, parseCoinAmount s = some r ∧ ∀ u, r = .ok u ↔
      ∃ w f, Reads w f u ∧ w ≠ [] ∧ (trim s = w ∧ f = [] ∨ trim s = w ++ '.' :: f ∧ f ≠ [])) ∧
    (∀ s field u, parseCoinAmount s = some (.ok u) → parseCoinUnits (trim s) field = .ok u) ∧
    (∀ t field u, parseCoinUnits t field = .ok u ↔ trim t = t ∧ parseCoinAmount t = some (.ok u) ∨
      (∃ w, w ≠ [] ∧ t = w ++ ['.'] ∧ Reads w [] u) ∨ ∃ f, f ≠ [] ∧ t = '.' :: f ∧ Reads [] f u) ∧
    ∀ u field, 0 ≤ u → u < 2 ^ 127 →
      parseCoinAmount (unitsToAmountString u) = some (.ok u) ∧
      parseCoinUnits (unitsToAmountString u) field = .ok u ∧
      parseCoinAmount (formatCoins u) = some (.ok u) := by
  refine ⟨parseCoinAmount_spec, fun s field u h => ?_, parseCoinUnits_iff, fun u field hu hfits => ?_⟩
  · obtain ⟨w, f, hreads, hw, ⟨ht, hf⟩ | ⟨ht, hf⟩⟩ := parseCoinAmount_ok.mp h
    · exact (parseCoinUnits_spec _ _ _).mpr ⟨w, f, hreads, .inl ⟨ht, hw, hf⟩⟩
    · exact (parseCoinUnits_spec _ _ _).mpr ⟨w, f, hreads, .inr ⟨ht, .inl hw⟩⟩
  · obtain ⟨w, f, hreads, hw, hlen, htext⟩ := unitsToAmountString_reads hu hfits
    have hf : f ≠ [] := by
      rintro rfl
      cases hlen
    obtain ⟨w', f', hreads', hw', hformat⟩ := formatCoins_reads hu hfits
    exact ⟨hreads.parsed hw (.inr ⟨htext, hf⟩),
      (parseCoinUnits_spec _ _ _).mpr ⟨w, f, hreads, .inr ⟨htext, .inl hw⟩⟩, hreads'.parsed hw' hformat⟩

theorem amount_texts_agree_sample :
    parseCoinAmount (unitsToAmountString 150000000) = some (.ok 150000000) ∧
      parseCoinUnits (unitsToAmountString 150000000) "fee".toList = .ok 150000000 ∧
      parseCoinAmount (formatCoins 150000000) = some (.ok 150000000) :=
  amount_texts_agree.2.2.2 150000000 "fee".toList (by norm_num) (by norm_num)

end Amounts

end Gui

end Alphanumeric
