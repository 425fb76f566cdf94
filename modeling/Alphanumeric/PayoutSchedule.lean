/-
# The payout rotation

`PayoutSchedule` in `src/a9/miner.rs`: a text of lines `<40-hex-address> [weight]` is read into a table of
cumulative weights, and the coinbase of height `h` goes to the owner of slot `h % total_weight`. The text is
accepted exactly when its lines have that form, there are 1 to 10,000 of them and their weights sum to at
most `u32::MAX`; over a whole cycle each address is paid as often as its lines weigh together.

Key definitions: `PayoutSchedule`, `parse`, `recipientFor`, `IsEntry`, `Lists`.
Key theorems: `parse_eq_ok`, `recipientFor_eq`, `payout_rotation_exact`.
-/
import Alphanumeric.Lib.Guard
import Alphanumeric.Lib.Rotation
import Alphanumeric.SendAnswers

namespace Alphanumeric

open Guard Rotation

/-! ### Text -/

def stripCarriageReturn (line : Text) : Text := if line.getLast? = some '\r' then line.dropLast else line

/-- `str::lines`. -/
def lines (contents : Text) : List Text :=
  let pieces := contents.splitOn '\n'
  pieces.dropLast.map stripCarriageReturn ++ pieces.getLast?.toList.filter fun line => line ≠ []

/-- `str::split_whitespace`; `word` is the one being read. -/
def splitWhitespaceLoop : Text → Text → List Text
  | [], word => if word = [] then [] else [word]
  | c :: cs, word =>
    if isWhitespace c then
      if word = [] then splitWhitespaceLoop cs [] else word :: splitWhitespaceLoop cs []
    else splitWhitespaceLoop cs (word ++ [c])

def splitWhitespace (line : Text) : List Text := splitWhitespaceLoop line []

def isAsciiHexdigit (c : Char) : Bool :=
  ('0' ≤ c && c ≤ '9') || ('a' ≤ c && c ≤ 'f') || ('A' ≤ c && c ≤ 'F')

/-- A decimal number, after a plus sign if there is one. -/
def decimal (token : Text) : Option ℕ :=
  let digits := if token.head? = some '+' then token.tail else token
  if digits ≠ [] ∧ digits.all Char.isDigit then some (Nat.ofDigitChars 10 digits 0) else none

/-- `str::parse::<u64>`. -/
def parseU64 (token : Text) : Option ℕ := (decimal token).filter (· < 2 ^ 64)

/-! ### The schedule -/

/-- (address, cumulative weight upper bound), ascending. -/
structure PayoutSchedule where
  slots : List (Text × ℕ)
  totalWeight : ℕ
deriving DecidableEq, Repr

/-- Why a schedule is refused ("line _: '_' is not a 40-hex address", "line _: weight must be an integer >= 1", "line _:
unexpected trailing token '_'", "line _: total weight overflows", "more than _ entries", "no payout entries",
"total weight _ exceeds the u32 height range — tail entries would never be paid"). -/
inductive PayoutError where
  | address (line : ℕ) (address : Text)
  | weight (line : ℕ)
  | trailing (line : ℕ) (extra : Text)
  | overflow (line : ℕ)
  | entries (most : ℕ)
  | empty
  | total (weight : ℕ)
deriving DecidableEq, Repr

namespace PayoutSchedule

def maxEntries : ℕ := 10000

def isHexAddress (address : Text) : Bool := textLen address == 40 && address.all isAsciiHexdigit

def parseWeight (lineno : ℕ) : Option Text → Except PayoutError ℕ
  | none => .ok 1
  | some w => need ((parseU64 w).filter (1 ≤ ·)) (.weight (lineno + 1))

/-- The body of the loop: one line, trimmed and not blank. -/
def parseLine (lineno : ℕ) (line : Text) (slots : List (Text × ℕ)) (cumulative : ℕ) :
    Except PayoutError (List (Text × ℕ) × ℕ) := do
  let words := splitWhitespace line
  let address := Gui.toAsciiLowercase (words.headD [])
  ensure (isHexAddress address) (.address (lineno + 1) address)
  let weight ← parseWeight lineno words[1]?
  ensure (words[2]? = none) (.trailing (lineno + 1) (words.getD 2 []))
  ensure (cumulative + weight < 2 ^ 64) (.overflow (lineno + 1))
  ensure (slots.length + 1 ≤ maxEntries) (.entries maxEntries)
  .ok (slots ++ [(address, cumulative + weight)], cumulative + weight)

/-- The line up to a comment, trimmed. -/
def content (raw : Text) : Text := Gui.trim (raw.takeWhile (· ≠ '#'))

def parseLines : ℕ → List Text → List (Text × ℕ) → ℕ → Except PayoutError (List (Text × ℕ) × ℕ)
  | _, [], slots, cumulative => .ok (slots, cumulative)
  | lineno, raw :: rest, slots, cumulative =>
    if content raw = [] then parseLines (lineno + 1) rest slots cumulative
    else
      match parseLine lineno (content raw) slots cumulative with
      | .error e => .error e
      | .ok (slots', cumulative') => parseLines (lineno + 1) rest slots' cumulative'

def parse (contents : Text) : Except PayoutError PayoutSchedule := do
  let (slots, cumulative) ← parseLines 0 (lines contents) [] 0
  ensure (slots ≠ []) .empty
  ensure (cumulative ≤ 2 ^ 32 - 1) (.total cumulative)
  .ok { totalWeight := cumulative, slots }

/-- The index that `recipient_for` finds, before it is clamped. -/
def ownerIndex (s : PayoutSchedule) (height : ℕ) : ℕ :=
  partitionPoint (fun slot => slot.2 ≤ height % s.totalWeight) s.slots

def recipientFor (s : PayoutSchedule) (height : ℕ) : Text :=
  ((s.slots[min (s.ownerIndex height) (s.slots.length - 1)]?).map Prod.fst).getD []

/-! ### What a schedule is -/

/-- A line of the form `<40-hex-address> [weight]`. -/
structure IsEntry (line : Text) (e : Text × ℕ) : Prop where
  hex : isHexAddress e.1 = true
  positive : 1 ≤ e.2
  words : ∃ word, e.1 = Gui.toAsciiLowercase word ∧ (splitWhitespace line = [word] ∧ e.2 = 1 ∨
    ∃ token, splitWhitespace line = [word, token] ∧ decimal token = some e.2)

/-- The lines that are neither blank nor comment. -/
def entryLines (raws : List Text) : List Text := (raws.map content).filter fun line => line ≠ []

/-- The text lists the entries. -/
def Lists (contents : Text) (entries : List (Text × ℕ)) : Prop :=
  List.Forall₂ IsEntry (entryLines (lines contents)) entries

/-- What the miner's operator may configure. -/
structure Accepted (contents : Text) (entries : List (Text × ℕ)) : Prop where
  lists : Lists contents entries
  some : 1 ≤ entries.length
  bounded : entries.length ≤ maxEntries
  reachable : total entries ≤ 2 ^ 32 - 1

/-! ### One line -/

theorem parseWeight_eq_ok {lineno weight : ℕ} {token : Option Text} :
    parseWeight lineno token = .ok weight ↔
      1 ≤ weight ∧ weight < 2 ^ 64 ∧ (token = none ∧ weight = 1 ∨ ∃ w, token = some w ∧ decimal w = some weight) := by
  cases token with
  | none =>
    simp only [parseWeight, Except.ok.injEq, true_and, reduceCtorEq, false_and, exists_false, or_false]
    omega
  | some w =>
    simp only [parseWeight, need_eq_ok, parseU64, Option.filter_eq_some_iff, decide_eq_true_eq, reduceCtorEq,
      false_and, Option.some.injEq, false_or, exists_eq_left']
    tauto

theorem parseLine_eq_ok {lineno cumulative cumulative' : ℕ} {line : Text} {slots slots' : List (Text × ℕ)} :
    parseLine lineno line slots cumulative = .ok (slots', cumulative') ↔
      ∃ e, IsEntry line e ∧ cumulative + e.2 < 2 ^ 64 ∧ slots.length + 1 ≤ maxEntries ∧
        slots' = slots ++ [(e.1, cumulative + e.2)] ∧ cumulative' = cumulative + e.2 := by
  unfold parseLine
  simp only [bind_eq_ok, ensure_eq_ok, exists_const, parseWeight_eq_ok, Except.ok.injEq, Prod.mk.injEq]
  constructor
  · rintro ⟨hhex, weight, ⟨hpos, -, htoken⟩, hno, hsum, hroom, rfl, rfl⟩
    refine ⟨(_, weight), ⟨hhex, hpos, (splitWhitespace line).headD [], rfl, ?_⟩, hsum, hroom, rfl, rfl⟩
    rcases hwords : splitWhitespace line with _ | ⟨word, _ | ⟨token, _ | ⟨extra, rest⟩⟩⟩
    · rw [hwords] at hhex
      exact absurd hhex (by decide)
    · rw [hwords] at htoken
      simp only [List.getElem?_cons_succ, List.getElem?_nil, reduceCtorEq, false_and, exists_false, or_false,
        true_and] at htoken
      exact Or.inl ⟨rfl, htoken⟩
    · rw [hwords] at htoken
      simp only [List.getElem?_cons_succ, List.getElem?_cons_zero, reduceCtorEq, false_and, false_or,
        Option.some.injEq, exists_eq_left'] at htoken
      exact Or.inr ⟨token, rfl, htoken⟩
    · rw [hwords] at hno
      simp at hno
  · rintro ⟨⟨address, weight⟩, ⟨hhex, hpos, word, haddress, hwords⟩, hsum, hroom, rfl, rfl⟩
    dsimp only at hhex hpos haddress hwords hsum
    have hfirst : (splitWhitespace line).headD [] = word := by
      rcases hwords with ⟨hline, -⟩ | ⟨token, hline, -⟩ <;> rw [hline] <;> rfl
    have hthird : (splitWhitespace line)[2]? = none := by
      rcases hwords with ⟨hline, -⟩ | ⟨token, hline, -⟩ <;> rw [hline] <;> rfl
    rw [hfirst, ← haddress]
    refine ⟨hhex, weight, ⟨hpos, by omega, ?_⟩, hthird, hsum, hroom, rfl, rfl⟩
    rcases hwords with ⟨hline, hone⟩ | ⟨token, hline, hweight⟩
    · exact Or.inl ⟨by rw [hline]; rfl, hone⟩
    · exact Or.inr ⟨token, by rw [hline]; rfl, hweight⟩

/-! ### The whole text -/

/-- The loop, from a table it has read so far. -/
theorem parseLines_eq_ok : ∀ {raws : List Text} {lineno cumulative cumulative' : ℕ} {slots slots' : List (Text × ℕ)},
    cumulative < 2 ^ 64 → slots.length ≤ maxEntries →
    (parseLines lineno raws slots cumulative = .ok (slots', cumulative') ↔
      ∃ entries, List.Forall₂ IsEntry (entryLines raws) entries ∧ slots' =
          slots ++ Rotation.cumulative cumulative entries ∧
        cumulative' = cumulative + total entries ∧ cumulative' < 2 ^ 64 ∧ slots'.length ≤ maxEntries)
  | [], lineno, cumulative, cumulative', slots, slots', hc, hs => by
    simp only [parseLines, entryLines, List.map_nil, List.filter_nil, List.forall₂_nil_left_iff, exists_eq_left,
      Rotation.cumulative, List.append_nil, total_nil, Nat.add_zero, Except.ok.injEq, Prod.mk.injEq]
    constructor
    · rintro ⟨rfl, rfl⟩
      exact ⟨rfl, rfl, hc, hs⟩
    · rintro ⟨rfl, rfl, -, -⟩
      exact ⟨rfl, rfl⟩
  | raw :: raws, lineno, cumulative, cumulative', slots, slots', hc, hs => by
    rw [parseLines]
    by_cases hblank : content raw = []
    · have hskip : entryLines (raw :: raws) = entryLines raws := by simp [entryLines, hblank]
      rw [if_pos hblank, hskip]
      exact parseLines_eq_ok hc hs
    · have hread : entryLines (raw :: raws) = content raw :: entryLines raws := by simp [entryLines, hblank]
      rw [if_neg hblank, hread]
      constructor
      · intro h
        cases hline : parseLine lineno (content raw) slots cumulative with
        | error e =>
          rw [hline] at h
          cases h
        | ok next =>
          obtain ⟨slots₁, cumulative₁⟩ := next
          rw [hline] at h
          obtain ⟨e, hentry, hsum, hroom, rfl, rfl⟩ := parseLine_eq_ok.mp hline
          obtain ⟨entries, hlists, htable, htotal, hfit, hlen⟩ :=
            (parseLines_eq_ok hsum (by rw [List.length_append]; exact hroom)).mp h
          refine ⟨e :: entries, .cons hentry hlists, ?_, ?_, hfit, hlen⟩
          · rw [htable, Rotation.cumulative, List.append_assoc, List.singleton_append]
          · rw [htotal, total_cons, Nat.add_assoc]
      · rintro ⟨entries, hlists, htable, htotal, hfit, hlen⟩
        cases hlists with
        | cons hentry hlists =>
          rename_i e entries
          rw [total_cons] at htotal
          rw [Rotation.cumulative] at htable
          have hlength : slots'.length = slots.length + 1 + entries.length := by
            rw [htable, List.length_append, List.length_cons, cumulative_length]
            omega
          have hline : parseLine lineno (content raw) slots cumulative =
              .ok (slots ++ [(e.1, cumulative + e.2)], cumulative + e.2) :=
            parseLine_eq_ok.mpr ⟨e, hentry, by omega, by omega, rfl, rfl⟩
          rw [hline]
          refine (parseLines_eq_ok (by omega) (by rw [List.length_append, List.length_singleton]; omega)).mpr
            ⟨entries, hlists, ?_, by omega, hfit, hlen⟩
          rw [htable, List.append_assoc, List.singleton_append]

theorem parse_eq_ok {contents : Text} {s : PayoutSchedule} :
    parse contents = .ok s ↔ ∃ entries, Accepted contents entries ∧
      s = { slots := Rotation.cumulative 0 entries, totalWeight := total entries } := by
  unfold parse
  simp only [bind_eq_ok, ensure_eq_ok, exists_const, Prod.exists, Except.ok.injEq]
  constructor
  · rintro ⟨slots, cumulative, hlines, hne, hreach, rfl⟩
    obtain ⟨entries, hlists, rfl, rfl, -, hlen⟩ := (parseLines_eq_ok (by norm_num) (Nat.zero_le _)).mp hlines
    rw [List.nil_append] at hne hlen
    rw [cumulative_length] at hlen
    rw [Nat.zero_add] at hreach
    have hsome : entries ≠ [] := by
      rintro rfl
      exact hne rfl
    refine ⟨entries, ⟨hlists, List.length_pos_iff.mpr hsome, hlen, hreach⟩, ?_⟩
    rw [List.nil_append, Nat.zero_add]
  · rintro ⟨entries, ⟨hlists, hsome, hlen, hreach⟩, rfl⟩
    refine ⟨Rotation.cumulative 0 entries, total entries, (parseLines_eq_ok (by norm_num) (Nat.zero_le _)).mpr
      ⟨entries, hlists, (List.nil_append _).symm, (Nat.zero_add _).symm, by omega, by
        rw [cumulative_length]; exact hlen⟩, ?_, hreach, rfl⟩
    intro hnil
    have hlength := congrArg List.length hnil
    rw [cumulative_length, List.length_nil] at hlength
    omega

/-! ### The rotation -/

theorem total_pos {line : List Text} {entries : List (Text × ℕ)} (h : List.Forall₂ IsEntry line entries)
    (hsome : 1 ≤ entries.length) : 0 < total entries := by
  cases h with
  | nil => simp at hsome
  | cons hentry _ =>
    have := hentry.positive
    rw [total_cons]
    omega

/-- The coinbase goes to the owner of the height's slot, and the clamp changes nothing. -/
theorem recipientFor_eq {entries : List (Text × ℕ)} (hpos : 0 < total entries) (height : ℕ) :
    let s : PayoutSchedule := { slots := Rotation.cumulative 0 entries, totalWeight := total entries }
    s.ownerIndex height < s.slots.length ∧
      (Rotation.slots entries)[height % total entries]? = some (s.recipientFor height) := by
  intro s
  have hslot : height % total entries < total entries := Nat.mod_lt _ hpos
  obtain ⟨hlt, howner⟩ := owner hslot
  have hindex : s.ownerIndex height < s.slots.length := by
    have hlen : s.slots.length = entries.length := cumulative_length 0 entries
    rw [hlen]
    exact hlt
  refine ⟨hindex, ?_⟩
  have hclamp : min (s.ownerIndex height) (s.slots.length - 1) = s.ownerIndex height := by omega
  have hsome : (Rotation.slots entries)[height % total entries]?.isSome := by
    rw [List.getElem?_eq_getElem (by rw [slots_length]; exact hslot)]
    rfl
  obtain ⟨a, ha⟩ := Option.isSome_iff_exists.mp hsome
  unfold recipientFor
  rw [hclamp]
  rw [ha] at howner ⊢
  have howner' : (s.slots[s.ownerIndex height]?).map Prod.fst = some a := howner
  rw [howner', Option.getD_some]

/-- **The rotation is exactly proportional.** The texts that are accepted are those that list 1 to 10,000 entries of
a total weight of at most `u32::MAX`. Then in every window of that many heights each address is paid as often as
its entries weigh together, the clamp is never taken, and the rotation repeats. -/
theorem payout_rotation_exact (contents : Text) :
    ((∃ s, parse contents = .ok s) ↔ ∃ entries, Accepted contents entries) ∧
      ∀ s, parse contents = .ok s → ∃ entries, Lists contents entries ∧ s.totalWeight = total entries ∧
        (∀ start address, ((Finset.Ico start (start + s.totalWeight)).filter fun height =>
          s.recipientFor height = address).card = share address entries) ∧
        ∀ height, s.ownerIndex height < s.slots.length ∧
          s.recipientFor (height + s.totalWeight) = s.recipientFor height := by
  constructor
  · constructor
    · rintro ⟨s, h⟩
      obtain ⟨entries, haccepted, -⟩ := parse_eq_ok.mp h
      exact ⟨entries, haccepted⟩
    · rintro ⟨entries, haccepted⟩
      exact ⟨_, parse_eq_ok.mpr ⟨entries, haccepted, rfl⟩⟩
  · intro s h
    obtain ⟨entries, haccepted, rfl⟩ := parse_eq_ok.mp h
    have hpos := total_pos haccepted.lists haccepted.some
    have howner := fun height => recipientFor_eq hpos height
    dsimp only at howner
    refine ⟨entries, haccepted.lists, rfl, fun start address => ?_, fun height => ⟨(howner height).1, ?_⟩⟩
    · rw [← card_window address entries start]
      congr 1
      refine Finset.filter_congr fun height _ => ?_
      rw [(howner height).2, Option.some.injEq]
    · have hnext := (howner (height + total entries)).2
      rw [Nat.add_mod_right, (howner height).2, Option.some.injEq] at hnext
      exact hnext.symm

def twoPayees : Text :=
  List.replicate 40 'a' ++ " 3 # pool\r\n\n".toList ++ List.replicate 40 'B' ++ "\n".toList

theorem payout_rotation_exact_twoPayees :
    ∃ s, parse twoPayees = .ok s ∧ s.totalWeight = 4 ∧ s.recipientFor 7 = List.replicate 40 'b' ∧
      ∃ entries, Lists twoPayees entries ∧ s.totalWeight = total entries ∧
        (∀ start address, ((Finset.Ico start (start + s.totalWeight)).filter fun height =>
          s.recipientFor height = address).card = share address entries) ∧
        ∀ height, s.ownerIndex height < s.slots.length ∧
          s.recipientFor (height + s.totalWeight) = s.recipientFor height := by
  have hparse : parse twoPayees = .ok ⟨[(List.replicate 40 'a', 3), (List.replicate 40 'b', 4)], 4⟩ := by
    decide +kernel
  exact ⟨_, hparse, rfl, by decide +kernel, (payout_rotation_exact twoPayees).2 _ hparse⟩

end PayoutSchedule

end Alphanumeric
