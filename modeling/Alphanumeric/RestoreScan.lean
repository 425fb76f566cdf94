/-
# The restore scan

`gui/src/app.rs`: a wallet restored from its seed does not know how many addresses it had.
`scan_for_next_index` asks the node for one index after the other, waits and asks again
while the node is busy, and stops after `gap` unused indexes in a row; `discover_next_index`
then walks its record. Only a scan that ended well is followed by a write. Integers are
checked: an addition that overflows ends the task.

Key definitions: `FirstGap`, `pastLast`, `discoverNextIndex`, `interpretAddressState`,
`scanForNextIndex`, `restore`.
Key theorems: `firstGap_iff`, `discoverLoop_spec`, `scanLoop_scans`, `scanForNextIndex_ok`,
`restore_finds_used`.
-/
import Alphanumeric.WalletApp
import Alphanumeric.WalletFiles
import Mathlib.Data.Finset.Lattice.Fold
import Mathlib.Data.List.GetD

namespace Alphanumeric

namespace Gui

namespace Restore

/-! ### Runs of unused indexes -/

section Runs

variable (used : ℕ → Bool)

/-- How many indexes right below `k` are unused. -/
def quiet : ℕ → ℕ
  | 0 => 0
  | k + 1 => if used k then 0 else quiet k + 1

/-- The first run of `gap` unused indexes ends right below `e`. -/
structure FirstGap (gap e : ℕ) : Prop where
  le : gap ≤ e
  unused : ∀ i, e - gap ≤ i → i < e → used i = false
  first : ∀ k < e, gap ≤ k → ∃ i, k - gap ≤ i ∧ i < k ∧ used i = true

/-- One past the largest used index below `e`, and 0 without one. -/
def pastLast (e : ℕ) : ℕ := ((Finset.range e).filter fun i => used i = true).sup (· + 1)

variable {used}

theorem le_quiet_iff {g k : ℕ} :
    g ≤ quiet used k ↔ g ≤ k ∧ ∀ i, k - g ≤ i → i < k → used i = false := by
  induction k generalizing g with
  | zero => simp [quiet]
  | succ k ih =>
    unfold quiet
    by_cases hk : used k = true
    · rw [if_pos hk]
      constructor
      · intro hg
        obtain rfl : g = 0 := by omega
        exact ⟨by omega, fun i _ _ => by omega⟩
      · rintro ⟨hg, hall⟩
        by_contra hne
        exact absurd (hall k (by omega) (by omega)) (by simp [hk])
    · rw [if_neg hk]
      rcases g with _ | g
      · exact ⟨fun _ => ⟨by omega, fun i _ _ => by omega⟩, fun _ => by omega⟩
      · rw [Nat.add_le_add_iff_right, Nat.add_le_add_iff_right, Nat.add_sub_add_right, ih]
        refine and_congr_right fun hg => ⟨fun hall i hi hik => ?_, fun hall i hi hik => hall i hi (by omega)⟩
        by_cases h : i = k
        · rw [h]
          simpa using hk
        · exact hall i hi (by omega)

theorem firstGap_iff {gap e : ℕ} :
    FirstGap used gap e ↔ gap ≤ quiet used e ∧ ∀ k < e, quiet used k < gap := by
  constructor
  · intro h
    refine ⟨le_quiet_iff.mpr ⟨h.le, h.unused⟩, fun k hk => ?_⟩
    by_contra hle
    obtain ⟨hg, hall⟩ := le_quiet_iff.mp (Nat.le_of_not_lt hle)
    obtain ⟨i, hi, hik, hu⟩ := h.first k hk hg
    simp [hall i hi hik] at hu
  · rintro ⟨he, hbefore⟩
    obtain ⟨hle, hunused⟩ := le_quiet_iff.mp he
    refine ⟨hle, hunused, fun k hk hg => ?_⟩
    by_contra hno
    have hquiet : gap ≤ quiet used k := le_quiet_iff.mpr ⟨hg, fun i hi hik => by
      by_contra hu
      exact hno ⟨i, hi, hik, by simpa using hu⟩⟩
    exact absurd (hbefore k hk) (by omega)

theorem FirstGap.unique {gap e e' : ℕ} (h : FirstGap used gap e) (h' : FirstGap used gap e') : e = e' := by
  obtain ⟨he, hbefore⟩ := firstGap_iff.mp h
  obtain ⟨he', hbefore'⟩ := firstGap_iff.mp h'
  rcases Nat.lt_trichotomy e e' with hlt | heq | hlt
  · exact absurd (hbefore' e hlt) (by omega)
  · exact heq
  · exact absurd (hbefore e' hlt) (by omega)

theorem pastLast_succ (k : ℕ) : pastLast used (k + 1) = if used k then k + 1 else pastLast used k := by
  have hle : pastLast used k ≤ k := by
    refine Finset.sup_le fun i hi => ?_
    have hik := List.mem_range.mp (Finset.mem_filter.mp hi).1
    exact hik
  unfold pastLast at hle ⊢
  rw [Finset.range_add_one, Finset.filter_insert]
  split
  · rw [Finset.sup_insert]
    exact max_eq_left (by omega)
  · rfl

theorem quiet_congr {used' : ℕ → Bool} {k : ℕ} (h : ∀ i < k, used i = used' i) :
    quiet used k = quiet used' k := by
  induction k with
  | zero => rfl
  | succ k ih =>
    unfold quiet
    rw [h k (by omega), ih fun i hi => h i (by omega)]

theorem FirstGap.congr {used' : ℕ → Bool} {gap e : ℕ} (h : ∀ i < e, used i = used' i)
    (hf : FirstGap used gap e) : FirstGap used' gap e := by
  obtain ⟨he, hbefore⟩ := firstGap_iff.mp hf
  refine firstGap_iff.mpr ⟨by rwa [← quiet_congr h], fun k hk => ?_⟩
  rw [← quiet_congr fun i hi => h i (by omega)]
  exact hbefore k hk

theorem pastLast_congr {used' : ℕ → Bool} {e : ℕ} (h : ∀ i < e, used i = used' i) :
    pastLast used e = pastLast used' e := by
  unfold pastLast
  congr 1
  refine Finset.filter_congr fun i hi => ?_
  rw [h i (Finset.mem_range.mp hi)]

end Runs

/-! ### The walk over a record -/

/-- The loop of `discover_next_index`; `left` says how often `index` can still be incremented
before it overflows. `none` is that panic. -/
def discoverLoop (used : ℕ → Bool) (gap : ℕ) : ℕ → ℕ → Option ℕ → ℕ → Option ℕ
  | left, index, lastUsed, run =>
    if run < gap then
      match left with
      | 0 => none
      | left + 1 =>
        if used index then discoverLoop used gap left (index + 1) (some index) 0
        else discoverLoop used gap left (index + 1) lastUsed (run + 1)
    -- the last used index is below `index`, so this addition does not overflow
    else some ((lastUsed.map (· + 1)).getD 0)

def discoverNextIndex (used : ℕ → Bool) (gap : ℕ) : Option ℕ := discoverLoop used gap (2 ^ 32 - 1) 0 none 0

/-- **The walk stops at the first run, past the last used index before it.** -/
theorem discoverLoop_spec {used : ℕ → Bool} {gap d : ℕ} :
    ∀ {left index : ℕ} {last : Option ℕ}, (last.map (· + 1)).getD 0 = pastLast used index →
      (discoverLoop used gap left index last (quiet used index) = some d ↔
        ∃ e, index ≤ e ∧ e ≤ index + left ∧ gap ≤ quiet used e ∧
          (∀ k, index ≤ k → k < e → quiet used k < gap) ∧ d = pastLast used e) := by
  intro left
  induction left with
  | zero =>
    intro index last hlast
    rw [discoverLoop]
    by_cases hrun : quiet used index < gap
    · simp only [if_pos hrun, reduceCtorEq, false_iff]
      rintro ⟨e, hle, hge, hgap, -, -⟩
      obtain rfl : e = index := by omega
      omega
    · rw [if_neg hrun, hlast, Option.some_inj]
      constructor
      · rintro rfl
        exact ⟨index, le_refl _, le_refl _, by omega, fun k _ _ => by omega, rfl⟩
      · rintro ⟨e, hle, hge, -, -, rfl⟩
        obtain rfl : e = index := by omega
        rfl
  | succ left ih =>
    intro index last hlast
    rw [discoverLoop]
    by_cases hrun : quiet used index < gap
    · have hstep : (if used index then discoverLoop used gap left (index + 1) (some index) 0
          else discoverLoop used gap left (index + 1) last (quiet used index + 1)) =
          discoverLoop used gap left (index + 1) (if used index then some index else last)
            (quiet used (index + 1)) := by
        rw [quiet]
        split <;> rfl
      have hlast' : ((if used index then some index else last).map (· + 1)).getD 0 =
          pastLast used (index + 1) := by
        rw [pastLast_succ]
        split
        · rfl
        · exact hlast
      simp only [if_pos hrun, hstep, ih hlast']
      constructor
      · rintro ⟨e, hle, hge, hgap, hbefore, hd⟩
        refine ⟨e, by omega, by omega, hgap, fun k hk hke => ?_, hd⟩
        by_cases h : k = index
        · rwa [h]
        · exact hbefore k (by omega) hke
      · rintro ⟨e, hle, hge, hgap, hbefore, hd⟩
        have hne : e ≠ index := by
          rintro rfl
          omega
        exact ⟨e, by omega, by omega, hgap, fun k hk hke => hbefore k (by omega) hke, hd⟩
    · rw [if_neg hrun, hlast, Option.some_inj]
      constructor
      · rintro rfl
        exact ⟨index, le_refl _, by omega, by omega, fun k _ _ => by omega, rfl⟩
      · rintro ⟨e, hle, hge, hgap, hbefore, rfl⟩
        have heq : e = index := by
          by_contra hne
          exact hrun (hbefore index (le_refl _) (by omega))
        rw [heq]

theorem discoverNextIndex_eq_some {used : ℕ → Bool} {gap d : ℕ} :
    discoverNextIndex used gap = some d ↔
      ∃ e < 2 ^ 32, FirstGap used gap e ∧ d = pastLast used e := by
  have hlast : ((none : Option ℕ).map (· + 1)).getD 0 = pastLast used 0 := rfl
  have hspec : discoverLoop used gap (2 ^ 32 - 1) 0 none (quiet used 0) = some d ↔ _ :=
    discoverLoop_spec hlast
  refine hspec.trans ⟨?_, ?_⟩
  · rintro ⟨e, -, hle, hgap, hbefore, hd⟩
    exact ⟨e, by omega, firstGap_iff.mpr ⟨hgap, fun k hk => hbefore k (Nat.zero_le _) hk⟩, hd⟩
  · rintro ⟨e, hlt, hfirst, hd⟩
    obtain ⟨hgap, hbefore⟩ := firstGap_iff.mp hfirst
    exact ⟨e, Nat.zero_le _, by omega, hgap, fun k _ hk => hbefore k hk, hd⟩

/-! ### The scan -/

inductive ProbeOutcome where
  | answered (used : Bool)
  | notReady
deriving DecidableEq

inductive RetryKind where
  | busy
  | rateLimited
deriving DecidableEq

/-- `RetryKind::of`. -/
def retryKindOf : ApiError → Option RetryKind
  | .busy => some .busy
  | .rateLimited => some .rateLimited
  | _ => none

def RetryKind.error : RetryKind → ApiError
  | .busy => .busy
  | .rateLimited => .rateLimited

theorem retryKindOf_eq_some {e : ApiError} {kind : RetryKind} (h : retryKindOf e = some kind) :
    e = kind.error := by
  unfold retryKindOf at h
  split at h
  · cases h
    rfl
  · cases h
    rfl
  · cases h

def retryAttempts : ℕ := 6

/-- Milliseconds. -/
def retryDelay (kind : RetryKind) (attempt : ℕ) : ℕ :=
  let (start, cap) := match kind with
    | .busy => (500, 8000)
    | .rateLimited => (2000, 30000)
  min (min (start * 2 ^ min attempt 20) (2 ^ 64 - 1)) cap

/-- What the scan did: it asked for an index, or waited. -/
inductive ScanCall where
  | fetch (index : ℕ) (answer : Except ApiError ProbeOutcome)
  | wait (ms : ℕ)

inductive ScanFailure where
  | api (e : ApiError)
  | indexNotReady
deriving DecidableEq

def ScanFailure.display : ScanFailure → Text
  | .api e => e.display
  | .indexNotReady => "The node's address index has not caught up to the current chain height.".toList

/-- What `fetch` answers for an index, after the calls made so far. -/
abbrev Fetch : Type := List ScanCall → ℕ → Except ApiError ProbeOutcome

section Scan

variable (fetch : Fetch) (gap : ℕ)

/-- The loop at one index; `left` is what `attempt` lacks to `RETRY_ATTEMPTS`. -/
def askIndex (index : ℕ) : ℕ → List ScanCall → Except ScanFailure Bool × List ScanCall
  | left, past =>
    let calls := past ++ [.fetch index (fetch past index)]
    match fetch past index with
    | .ok (.answered used) => (.ok used, calls)
    | .ok .notReady => (.error .indexNotReady, calls)
    | .error e =>
      match retryKindOf e with
      | none => (.error (.api e), calls)
      | some kind =>
        match left with
        | 0 => (.error (.api e), calls)
        | left + 1 => askIndex index left (calls ++ [.wait (retryDelay kind (retryAttempts - (left + 1)))])

structure Scan where
  usedFlags : List Bool
  index : ℕ
  run : ℕ
  calls : List ScanCall

/-- An index was answered. -/
def Scan.record (s : Scan) (used : Bool) (calls : List ScanCall) : Scan :=
  ⟨s.usedFlags ++ [used], WalletState.saturatingSucc s.index, if used then 0 else s.run + 1, calls ++ [.wait 200]⟩

/-- At most `fuel` indexes; `none` is a scan that goes on. -/
def scanLoop : ℕ → Scan → Option (Except ScanFailure (List Bool) × List ScanCall)
  | fuel, s =>
    if s.run < gap then
      match fuel with
      | 0 => none
      | fuel + 1 =>
        match askIndex fetch s.index retryAttempts s.calls with
        | (.error f, calls) => some (.error f, calls)
        | (.ok used, calls) => scanLoop fuel (s.record used calls)
    else some (.ok s.usedFlags, s.calls)

inductive ScanEnd where
  | ok (next : ℕ)
  | err (f : ScanFailure)
  | panicked
deriving DecidableEq

def scanForNextIndex (fuel : ℕ) : Option (ScanEnd × List ScanCall) :=
  (scanLoop fetch gap fuel ⟨[], 0, 0, []⟩).map fun (r, calls) =>
    match r with
    | .error f => (.err f, calls)
    | .ok flags =>
      match discoverNextIndex (fun i => flags.getD i false) gap with
      | none => (.panicked, calls)
      | some found => (.ok (max found 1), calls)

/-! ### What a scan that ends well did -/

/-- An index is asked for again after each failure. -/
def retries (index : ℕ) : ℕ → List RetryKind → List ScanCall
  | _, [] => []
  | attempt, kind :: kinds =>
    .fetch index (.error kind.error) :: .wait (retryDelay kind attempt) :: retries index (attempt + 1) kinds

/-- Everything that is done for one index: the failures, the one answer, the pause. -/
def session (index : ℕ) (failures : List RetryKind) (used : Bool) : List ScanCall :=
  retries index 0 failures ++ [.fetch index (.ok (.answered used)), .wait 200]

theorem askIndex_ok {index : ℕ} {used : Bool} {calls : List ScanCall} :
    ∀ {left : ℕ} {past : List ScanCall}, left ≤ retryAttempts →
      askIndex fetch index left past = (.ok used, calls) →
      ∃ failures : List RetryKind, failures.length ≤ left ∧
        calls = past ++ retries index (retryAttempts - left) failures ++
          [.fetch index (.ok (.answered used))] ∧
        ∃ before, fetch before index = .ok (.answered used) := by
  intro left
  induction left with
  | zero =>
    intro past _ h
    unfold askIndex at h
    split at h
    · rename_i used' hf
      cases h
      exact ⟨[], le_refl _, by simp [retries, hf], past, hf⟩
    · cases h
    · split at h <;> cases h
  | succ left ih =>
    intro past hleft h
    unfold askIndex at h
    split at h
    · rename_i used' hf
      cases h
      exact ⟨[], Nat.zero_le _, by simp [retries, hf], past, hf⟩
    · cases h
    · rename_i e hf
      split at h
      · cases h
      · rename_i kind hkind
        obtain ⟨failures, hlen, rfl, hbefore⟩ := ih (by omega) h
        refine ⟨kind :: failures, by simpa using hlen, ?_, hbefore⟩
        have hattempt : retryAttempts - (left + 1) + 1 = retryAttempts - left := by omega
        simp [retries, hf, retryKindOf_eq_some hkind, hattempt]

/-- The indexes a scan went through, each with its failures and its answer. -/
inductive Scans : ℕ → ℕ → List (List RetryKind × Bool) → Prop
  | stop {index run : ℕ} : gap ≤ run → Scans index run []
  | ask {index run : ℕ} {failures : List RetryKind} {used : Bool} {rest : List (List RetryKind × Bool)} :
    run < gap → failures.length ≤ retryAttempts → (∃ before, fetch before index = .ok (.answered used)) →
    Scans (WalletState.saturatingSucc index) (if used then 0 else run + 1) rest →
    Scans index run ((failures, used) :: rest)

/-- The calls of a scan from `index` on. -/
def sessions : ℕ → List (List RetryKind × Bool) → List ScanCall
  | _, [] => []
  | index, (failures, used) :: rest => session index failures used ++ sessions (WalletState.saturatingSucc index) rest

theorem scanLoop_scans {flags : List Bool} {calls : List ScanCall} :
    ∀ {fuel : ℕ} {s : Scan}, scanLoop fetch gap fuel s = some (.ok flags, calls) →
      ∃ asked, Scans fetch gap s.index s.run asked ∧ flags = s.usedFlags ++ asked.map (·.2) ∧
        calls = s.calls ++ sessions s.index asked := by
  intro fuel
  induction fuel with
  | zero =>
    intro s h
    unfold scanLoop at h
    split at h
    · cases h
    · rename_i hrun
      cases h
      exact ⟨[], .stop (by omega), by simp, by simp [sessions]⟩
  | succ fuel ih =>
    intro s h
    unfold scanLoop at h
    split at h
    · rename_i hrun
      dsimp only at h
      split at h
      · cases h
      · rename_i used calls' hask
        obtain ⟨failures, hlen, rfl, hbefore⟩ := askIndex_ok fetch (le_refl _) hask
        obtain ⟨asked, hscans, rfl, rfl⟩ := ih h
        refine ⟨(failures, used) :: asked, .ask hrun hlen hbefore hscans, ?_, ?_⟩
        · simp [Scan.record]
        · simp [Scan.record, sessions, session]
    · rename_i hrun
      cases h
      exact ⟨[], .stop (by omega), by simp, by simp [sessions]⟩

variable {fetch gap}

theorem saturatingSucc_of_lt {n m : ℕ} (h : n + 1 + m < 2 ^ 32) : WalletState.saturatingSucc n = n + 1 :=
  if_pos (by omega)

/-- The answers of a scan end with its first run of `gap` unused ones. -/
theorem Scans.runs {f : ℕ → Bool} {index run : ℕ} {asked : List (List RetryKind × Bool)}
    (h : Scans fetch gap index run asked) :
    ∀ {p : ℕ}, run = quiet f p → (∀ j (hj : j < asked.length), f (p + j) = asked[j].2) →
      gap ≤ quiet f (p + asked.length) ∧ ∀ k, p ≤ k → k < p + asked.length → quiet f k < gap := by
  induction h with
  | stop hrun =>
    intro p hp _
    exact ⟨by simpa [← hp] using hrun, fun k hk hk' => absurd hk' (by simpa using hk)⟩
  | @ask index run failures used rest hrun _ _ _ ih =>
    intro p hp hf
    have hhead : f p = used := hf 0 (by simp)
    have hnext : (if used then 0 else run + 1) = quiet f (p + 1) := by
      rw [quiet, hhead, hp]
    obtain ⟨hgap, hbefore⟩ := ih hnext fun j hj => by
      have hj' := hf (j + 1) (by simpa using hj)
      rwa [List.getElem_cons_succ, show p + (j + 1) = p + 1 + j by omega] at hj'
    rw [List.length_cons, show p + (rest.length + 1) = p + 1 + rest.length by omega]
    refine ⟨hgap, fun k hk hk' => ?_⟩
    by_cases heq : k = p
    · rw [heq, ← hp]
      exact hrun
    · exact hbefore k (by omega) (by omega)

/-- Below the last index every answer is about an index of its own. -/
theorem Scans.answered {index run : ℕ} {asked : List (List RetryKind × Bool)}
    (h : Scans fetch gap index run asked) :
    index + asked.length < 2 ^ 32 → ∀ j (hj : j < asked.length), asked[j].1.length ≤ retryAttempts ∧
      ∃ before, fetch before (index + j) = .ok (.answered asked[j].2) := by
  induction h with
  | stop _ => exact fun _ j hj => absurd hj (Nat.not_lt_zero j)
  | @ask index run failures used rest _ hlen hbefore _ ih =>
    intro hlt j hj
    rw [List.length_cons] at hlt hj
    rcases j with _ | j
    · exact ⟨hlen, hbefore⟩
    · have hsucc := saturatingSucc_of_lt (n := index) (m := rest.length) (by omega)
      rw [hsucc] at ih
      have hrest := ih (by omega) j (by omega)
      rwa [show index + 1 + j = index + (j + 1) by omega] at hrest

theorem sessions_eq {F : ℕ → List RetryKind} {U : ℕ → Bool} :
    ∀ {index : ℕ} {asked : List (List RetryKind × Bool)}, index + asked.length < 2 ^ 32 →
      (∀ j (hj : j < asked.length), asked[j] = (F (index + j), U (index + j))) →
      sessions index asked = (List.range' index asked.length).flatMap fun i => session i (F i) (U i)
  | _, [], _, _ => rfl
  | index, (failures, used) :: rest, hlt, hall => by
    rw [List.length_cons] at hlt
    have hhead : (failures, used) = (F index, U index) := hall 0 (by simp)
    obtain ⟨rfl, rfl⟩ := Prod.mk.inj hhead
    have hrest : sessions (index + 1) rest = _ := sessions_eq (by omega) fun j hj => by
      have hj' := hall (j + 1) (by simpa using hj)
      rwa [List.getElem_cons_succ, show index + (j + 1) = index + 1 + j by omega] at hj'
    rw [sessions, saturatingSucc_of_lt (m := rest.length) (by omega), hrest, List.length_cons,
      List.range'_succ, List.flatMap_cons]

/-- **What a scan that ends well did**: one index after the other, each until it was answered. -/
theorem scanForNextIndex_ok {used : ℕ → Bool} {fuel n : ℕ} {calls : List ScanCall}
    (htruth : ∀ past i b, fetch past i = .ok (.answered b) → b = used i)
    (h : scanForNextIndex fetch gap fuel = some (.ok n, calls)) :
    ∃ (e : ℕ) (failures : ℕ → List RetryKind), e < 2 ^ 32 ∧ FirstGap used gap e ∧
      n = max 1 (pastLast used e) ∧
      (∀ i < e, (failures i).length ≤ retryAttempts ∧ ∃ before, fetch before i = .ok (.answered (used i))) ∧
      calls = (List.range e).flatMap fun i => session i (failures i) (used i) := by
  unfold scanForNextIndex at h
  obtain ⟨⟨r, calls'⟩, hloop, hend⟩ := Option.map_eq_some_iff.mp h
  rcases r with f | flags
  · cases hend
  dsimp only at hend
  split at hend
  · cases hend
  rename_i found hfound
  cases hend
  obtain ⟨asked, hscans, hflags, hcalls⟩ := scanLoop_scans fetch gap hloop
  rw [List.nil_append] at hflags hcalls
  obtain ⟨e, hlt, hfirst, rfl⟩ := discoverNextIndex_eq_some.mp hfound
  -- the record and the walk over it stop at one index
  have hrecord : ∀ j (hj : j < asked.length), flags.getD (0 + j) false = asked[j].2 := by
    intro j hj
    rw [hflags, Nat.zero_add, List.getD_eq_getElem _ _ (by simpa using hj), List.getElem_map]
  obtain ⟨hgap, hbefore⟩ := hscans.runs (f := fun i => flags.getD i false) rfl hrecord
  rw [Nat.zero_add] at hgap hbefore
  obtain rfl : e = asked.length :=
    hfirst.unique (firstGap_iff.mpr ⟨hgap, fun k hk => hbefore k (Nat.zero_le _) hk⟩)
  have hanswered := hscans.answered (by simpa using hlt)
  have hused : ∀ j (hj : j < asked.length), asked[j].2 = used j := by
    intro j hj
    obtain ⟨-, before, hfetch⟩ := hanswered j hj
    rw [Nat.zero_add] at hfetch
    exact htruth before j _ hfetch
  have hagree : ∀ i < asked.length, flags.getD i false = used i := by
    intro i hi
    rw [← hused i hi, ← hrecord i hi, Nat.zero_add]
  refine ⟨asked.length, fun i => (asked.getD i ([], false)).1, hlt, hfirst.congr hagree, ?_, ?_, ?_⟩
  · rw [max_comm, pastLast_congr hagree]
  · intro i hi
    obtain ⟨hlen, before, hfetch⟩ := hanswered i hi
    rw [Nat.zero_add, hused i hi] at hfetch
    dsimp only
    rw [List.getD_eq_getElem _ _ hi]
    exact ⟨hlen, before, hfetch⟩
  · rw [hcalls, List.range_eq_range']
    refine sessions_eq (by simpa using hlt) fun j hj => ?_
    rw [Nat.zero_add, List.getD_eq_getElem _ _ hj, ← hused j hj]

/-- A scan whose indexes are all answered within the retries ends at the first run. -/
theorem scanLoop_ends {used : ℕ → Bool} {e : ℕ} (hfirst : FirstGap used gap e) (hlt : e < 2 ^ 32)
    (hask : ∀ past i, ∃ calls, askIndex fetch i retryAttempts past = (.ok (used i), calls)) :
    ∀ {fuel : ℕ} {s : Scan}, s.index + fuel = e → s.run = quiet used s.index →
      s.usedFlags = (List.range s.index).map used →
      ∃ calls, scanLoop fetch gap fuel s = some (.ok ((List.range e).map used), calls) := by
  obtain ⟨hgap, hbefore⟩ := firstGap_iff.mp hfirst
  intro fuel
  induction fuel with
  | zero =>
    intro s hs hrun hflags
    rw [Nat.add_zero] at hs
    rw [hs] at hrun hflags
    rw [scanLoop, if_neg (by omega), hflags]
    exact ⟨s.calls, rfl⟩
  | succ fuel ih =>
    intro s hs hrun hflags
    have hlow := hbefore s.index (by omega)
    obtain ⟨calls, hcalls⟩ := hask s.calls s.index
    have hsucc := saturatingSucc_of_lt (n := s.index) (m := fuel) (by omega)
    rw [scanLoop, if_pos (by omega)]
    simp only [hcalls]
    refine ih ?_ ?_ ?_
    · simp only [Scan.record, hsucc]
      omega
    · simp only [Scan.record, hsucc, quiet, hrun]
    · simp only [Scan.record, hsucc, List.range_succ, List.map_append, hflags, List.map_cons, List.map_nil]

theorem scanForNextIndex_returns {used : ℕ → Bool} {e : ℕ} (hfirst : FirstGap used gap e) (hlt : e < 2 ^ 32)
    (hask : ∀ past i, ∃ calls, askIndex fetch i retryAttempts past = (.ok (used i), calls)) :
    ∃ calls, scanForNextIndex fetch gap e = some (.ok (max (pastLast used e) 1), calls) := by
  obtain ⟨calls, hcalls⟩ := scanLoop_ends hfirst hlt hask (s := ⟨[], 0, 0, []⟩)
    (Nat.zero_add e) rfl rfl
  have hagree : ∀ i < e, used i = ((List.range e).map used).getD i false := by
    intro i hi
    rw [List.getD_eq_getElem _ _ (by simpa using hi), List.getElem_map, List.getElem_range]
  have hfound : discoverNextIndex (fun i => ((List.range e).map used).getD i false) gap =
      some (pastLast used e) :=
    discoverNextIndex_eq_some.mpr ⟨e, hlt, hfirst.congr hagree, pastLast_congr hagree⟩
  refine ⟨calls, ?_⟩
  unfold scanForNextIndex
  simp only [hcalls, Option.map_some, hfound]

end Scan

/-! ### The restore -/

/-- Whether the index has caught up to the height the scan was started for. -/
def authoritative (state : AddressState) (chainHeight : ℕ) : Bool :=
  state.page.historyAvailable && state.page.indexReady &&
    state.page.indexHeight.any fun height => decide (chainHeight ≤ height)

def everUsed (state : AddressState) : Bool :=
  decide (0 < state.balanceUnits) || state.spendableUnits.any (fun units => decide (0 < units)) ||
    state.page.transactions.any fun txs => !txs.isEmpty

def interpretAddressState (state : AddressState) (chainHeight : ℕ) : ProbeOutcome :=
  if authoritative state chainHeight then .answered (everUsed state) else .notReady

theorem interpretAddressState_answered {state : AddressState} {chainHeight : ℕ} {b : Bool} :
    interpretAddressState state chainHeight = .answered b ↔
      authoritative state chainHeight = true ∧ everUsed state = b := by
  unfold interpretAddressState
  split
  · rename_i h
    simp [h]
  · rename_i h
    simp [h]

/-- What the node answers about the address of an index, after the calls made so far. -/
abbrev Reply : Type := List ScanCall → ℕ → Except ApiError AddressState

def probeAddress (reply : Reply) (chainHeight : ℕ) : Fetch := fun past index =>
  (reply past index).map (interpretAddressState · chainHeight)

theorem probeAddress_answered {reply : Reply} {chainHeight index : ℕ} {past : List ScanCall} {b : Bool} :
    probeAddress reply chainHeight past index = .ok (.answered b) ↔
      ∃ state, reply past index = .ok state ∧ authoritative state chainHeight = true ∧ everUsed state = b := by
  unfold probeAddress
  rcases reply past index with e | state
  · simp [Except.map]
  · simp [Except.map, interpretAddressState_answered]

def discoveryGap : ℕ := 20

def discoverViaNetwork (reply : Reply) (chainHeight : ℕ) (fuel : ℕ) : Option (ScanEnd × List ScanCall) :=
  scanForNextIndex (probeAddress reply chainHeight) discoveryGap fuel

inductive SetupFailure where
  | nodeUnreachable (message : Text)
  | other (message : Text)
  | storage (e : Storage.StorageError)

/-- What the restore task meets: whether the node's URL is one, the height its status names,
its answers about addresses, the metadata to write and how it is sealed. -/
structure RestoreEnv where
  client : Bool
  status : Except ApiError (Option ℕ)
  reply : Reply
  keystorePayload : ℕ → Except Text (List UInt8)
  sealed : List UInt8 → Option (List UInt8)

/-- The restore of `ConfirmNewPassphrase`. `none`: the scan goes on, or the task has panicked. -/
def restore (E : RestoreEnv) (wallet stamp : Text) (fuel : ℕ) :
    Storage.StorageM (Option (Except SetupFailure (ℕ × Option Text))) :=
  if !E.client then
    pure (some (.error (.nodeUnreachable "The configured node address could not be used.".toList)))
  else
    match E.status with
    | .error _ =>
      pure (some (.error (.nodeUnreachable "Could not reach the node to scan for used addresses.".toList)))
    | .ok none =>
      pure (some (.error (.nodeUnreachable ("The node is still coming up and has no chain height yet. " ++
        "Try the restore again in a moment.").toList)))
    | .ok (some chainHeight) =>
      match discoverViaNetwork E.reply chainHeight fuel with
      | none => pure none
      | some (.panicked, _) => pure none
      | some (.err f, _) =>
        pure (some (.error (.nodeUnreachable
          ("Could not finish scanning for used addresses: ".toList ++ f.display))))
      | some (.ok nextIndex, _) =>
        match E.keystorePayload nextIndex with
        | .error message => pure (some (.error (.other message)))
        | .ok metadata => do
          match ← Storage.replaceArchiving wallet stamp (E.sealed metadata) with
          | .error e => return some (.error (.storage e))
          | .ok archived => return some (.ok (nextIndex, archived))

/-- A program that does nothing changes nothing, wherever it is stopped. -/
theorem stopped_pure {σ Q α : Type} {A : Q → Type} {ans : ∀ q, A q → Prop} {a : α} {s t : σ}
    (h : Proc.Stopped ans (pure a : Proc σ Q A α) s t) : t = s := by
  cases h
  rfl

/-- **A restore whose scan did not end well writes nothing.** -/
theorem restore_writes_nothing {E : RestoreEnv} {wallet stamp : Text} {fuel : ℕ}
    (hscan : ∀ chainHeight n calls, E.status = .ok (some chainHeight) →
      discoverViaNetwork E.reply chainHeight fuel ≠ some (.ok n, calls))
    {ans : ∀ q, IoAnswer q → Prop} {s t : Storage.State}
    (h : Proc.Stopped ans (restore E wallet stamp fuel) s t) : t = s := by
  unfold restore at h
  split at h
  · exact stopped_pure h
  split at h
  · exact stopped_pure h
  · exact stopped_pure h
  rename_i chainHeight hstatus
  split at h
  · exact stopped_pure h
  · exact stopped_pure h
  · exact stopped_pure h
  · rename_i n calls hok
    exact absurd hok (hscan chainHeight n calls hstatus)

/-- **A restore finds every used address.** `used` is what the authoritative answers say. A scan
that returns has gone through the indexes in order up to the end of the first run of `gap` unused
ones: at each of them nothing but retryable failures, at most `RETRY_ATTEMPTS`, and one answer of
an index that had caught up. A scan that does not return is followed by no write. -/
theorem restore_finds_used (used : ℕ → Bool) (gap chainHeight : ℕ) (reply : Reply)
    (htruth : ∀ past i state, reply past i = .ok state → authoritative state chainHeight = true →
      everUsed state = used i) :
    (∀ fuel n calls, scanForNextIndex (probeAddress reply chainHeight) gap fuel = some (.ok n, calls) →
      (∃ (e : ℕ) (failures : ℕ → List RetryKind), FirstGap used gap e ∧ n = max 1 (pastLast used e) ∧
        (∀ i < e, (failures i).length ≤ retryAttempts ∧
          ∃ past state, reply past i = .ok state ∧ authoritative state chainHeight = true) ∧
        calls = (List.range e).flatMap fun i => session i (failures i) (used i)) ∧
      ∃ d, discoverNextIndex used gap = some d ∧ n = max d 1) ∧
    ∀ (E : RestoreEnv) (wallet stamp : Text) (fuel : ℕ),
      (∀ height n calls, E.status = .ok (some height) →
        discoverViaNetwork E.reply height fuel ≠ some (.ok n, calls)) →
      ∀ (ans : ∀ q, IoAnswer q → Prop) (s t : Storage.State),
        Proc.Stopped ans (restore E wallet stamp fuel) s t → t = s := by
  refine ⟨fun fuel n calls h => ?_, fun E wallet stamp fuel hscan ans s t h => restore_writes_nothing hscan h⟩
  have hprobe : ∀ past i b, probeAddress reply chainHeight past i = .ok (.answered b) → b = used i := by
    intro past i b hb
    obtain ⟨state, hreply, hauth, rfl⟩ := probeAddress_answered.mp hb
    exact htruth past i state hreply hauth
  obtain ⟨e, failures, hlt, hfirst, hn, hall, hcalls⟩ := scanForNextIndex_ok hprobe h
  refine ⟨⟨e, failures, hfirst, hn, fun i hi => ?_, hcalls⟩, pastLast used e, ?_, ?_⟩
  · obtain ⟨hlen, past, hfetch⟩ := hall i hi
    obtain ⟨state, hreply, hauth, -⟩ := probeAddress_answered.mp hfetch
    exact ⟨hlen, past, state, hreply, hauth⟩
  · exact discoverNextIndex_eq_some.mpr ⟨e, hlt, hfirst, rfl⟩
  · rw [hn, max_comm]

/-- Index 1 is used, and the node is busy for the first two calls. -/
def sampleReply : Reply := fun past index =>
  if past.length < 4 then .error .busy
  else .ok ⟨if index = 1 then 5 else 0, none, ⟨some [], none, true, true, some 10⟩⟩

theorem restore_finds_used_sample :
    ∃ calls, scanForNextIndex (probeAddress sampleReply 10) 3 5 = some (.ok 2, calls) ∧
      calls.length = 14 ∧ discoverNextIndex (· == 1) 3 = some 2 ∧
      ∃ (e : ℕ) (failures : ℕ → List RetryKind), FirstGap (· == 1) 3 e ∧
        calls = (List.range e).flatMap fun i => session i (failures i) (i == 1) := by
  have htruth : ∀ past i state, sampleReply past i = .ok state → authoritative state 10 = true →
      everUsed state = (i == 1) := by
    intro past i state h _
    unfold sampleReply at h
    split at h
    · cases h
    · cases h
      by_cases hi : i = 1 <;> simp [everUsed, hi]
  obtain ⟨hscan, -⟩ := restore_finds_used (· == 1) 3 10 sampleReply htruth
  obtain ⟨calls, hcalls, hlen⟩ : ∃ calls, scanForNextIndex (probeAddress sampleReply 10) 3 5 =
      some (.ok 2, calls) ∧ calls.length = 14 := ⟨_, rfl, rfl⟩
  obtain ⟨⟨e, failures, hfirst, -, -, heq⟩, d, hd, -⟩ := hscan 5 2 calls hcalls
  exact ⟨calls, hcalls, hlen, rfl, e, failures, hfirst, heq⟩

end Restore

end Gui

end Alphanumeric
