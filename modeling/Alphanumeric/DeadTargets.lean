/-
# The memo of dead relay tips

The publisher follows the relay's blocks (`converge_to_relay_tip`, `src/a9/node.rs`): it picks
candidate tips out of a window of blocks and runs the converge engine on one after the other. A
candidate that failed is remembered with the time, and skipped for a while: for fifteen
seconds after a gap, for five minutes after a verdict on its whole lineage. A verdict on a
lineage also counts for the descendants of the block: a new tip over it is skipped
without a run, and is itself remembered with a verdict, and with the time of that moment.
So a verdict that is passed on from tip to tip is younger each time than the run it goes
back to. As long as none that was passed on decides (`Direct`), every skip is right.

`source` and `inherited` of a verdict are ghosts: the run it goes back to, and whether it came
down from an ancestor. The clock stands still while the memo is locked; what the relay
answers, the times and the outcomes of the runs are inputs. Times are in nanoseconds.

Key definitions: `Verdict`, `consult`, `candidateLoop`, `tipCandidates`, `convergeToRelayTip`, `looksOf`,
`Justified`, `Direct`, `Fresh`.
Key theorems: `MemoOk.consult`, `justified_of_fresh`, `candidateLoop_sound`, `dead_targets_expire`.
-/
import Alphanumeric.Converge
import Alphanumeric.Lib.Lru
import Mathlib

namespace Alphanumeric

namespace DeadTargets

def maxTipCandidates : ℕ := 8
def deadTargetRetry : ℕ := 300 * 10 ^ 9
def softTargetRetry : ℕ := 15 * 10 ^ 9
def candidatePassBudget : ℕ := 20 * 10 ^ 9
def relayDeadTargetsEntries : ℕ := 512

/-- The height and the hash of a block. -/
abbrev TipKey : Type := ℕ × Hash

/-- A run of `converge_to_canonical` on a candidate. -/
structure ConvergeRun where
  key : TipKey
  outcome : Converge
  ended : ℕ
deriving DecidableEq

structure Verdict where
  when : ℕ
  lineageDead : Bool
  source : ConvergeRun
  inherited : Bool
deriving DecidableEq

structure RelayState where
  dead : List (TipKey × Verdict)
  runs : List ConvergeRun

def RelayState.empty : RelayState := ⟨[], []⟩

/-! ### Candidates -/

def keyOf (b : Block) : TipKey := (b.index, b.hash)

/-- Height descending, then hash ascending. -/
def BestFirst (a b : TipKey) : Prop := b.1 < a.1 ∨ a.1 = b.1 ∧ a.2 ≤ b.2

instance : DecidableRel BestFirst := fun _ _ => inferInstanceAs (Decidable (_ ∨ _))

local instance : LawfulBEq Hash := inferInstance

/-- Blocks that no other block of the window names as its parent. -/
def trueTips (blocks : List Block) (localTip : ℕ) : List TipKey :=
  ((((blocks.filter fun b => localTip ≤ b.index ∧ b.hash ∉ blocks.map (·.previousHash)).map keyOf).insertionSort
    BestFirst).destutter (· ≠ ·))

/-- The keys come first, in their order. -/
def preferring (keys candidates : List TipKey) : List TipKey :=
  keys.foldr (fun key candidates => key :: candidates.filter (· ≠ key)) candidates

/-- The last height that is in the window without a gap from the local tip on. -/
def reachableTop (blocks : List Block) (localTip : ℕ) : ℕ :=
  let top := (blocks.map (·.index)).foldl max 0
  match (List.range' (localTip + 1) (top - localTip)).find? fun h => h ∉ blocks.map (·.index) with
  | some gap => gap - 1
  | none => top

def reachableTops (blocks : List Block) (localTip : ℕ) : List TipKey :=
  let top := reachableTop blocks localTip
  if localTip < top then
    ((blocks.filter fun b => b.index = top).map keyOf).insertionSort fun a b => a.2 ≤ b.2
  else []

/-- The deepest descendants found in at most `fuel` steps from parent to child. -/
def descend (blocks : List Block) : ℕ → List Hash → List TipKey → List TipKey
  | 0, _, deepest => deepest
  | fuel + 1, frontier, deepest =>
    let next := frontier.flatMap fun h => (blocks.filter fun b => b.previousHash = h).map keyOf
    if next = [] then deepest else descend blocks fuel (next.map Prod.snd) next

def ownLineage (blocks : List Block) (localHash : Option Hash) : List TipKey :=
  match localHash with
  | some hash => (descend blocks 512 [hash] []).insertionSort fun a b => a.2 ≤ b.2
  | none => []

def tipCandidates (blocks : List Block) (localTip : ℕ) (localHash : Option Hash) : List TipKey :=
  preferring (ownLineage blocks localHash)
    (preferring (reachableTops blocks localTip) (trueTips blocks localTip))

/-! ### The memo -/

/-- `wire_by_hash`: of blocks with one hash the last counts. -/
def wireByHash (blocks : List Block) (hash : Hash) : Option (ℕ × Hash) :=
  (blocks.reverse.find? fun b => b.hash = hash).map fun b => (b.index, b.previousHash)

/-- The block and its ancestors in the window, over at most `fuel` links. -/
def lineage (blocks : List Block) : ℕ → Hash → List TipKey
  | 0, _ => []
  | fuel + 1, cursor =>
    match wireByHash blocks cursor with
    | none => []
    | some (height, prev) => (height, cursor) :: lineage blocks fuel prev

/-- `ancestry_dead`, with the verdict it finds. -/
def ancestryDead (blocks : List Block) (dead : List (TipKey × Verdict)) (now : ℕ) : ℕ → Hash → Option Verdict
  | 0, _ => none
  | fuel + 1, cursor =>
    match wireByHash blocks cursor with
    | none => none
    | some (height, prev) =>
      match Lru.peek dead (height, cursor) with
      | some v =>
        if v.lineageDead = true ∧ now - v.when < deadTargetRetry then some v
        else ancestryDead blocks dead now fuel prev
      | none => ancestryDead blocks dead now fuel prev

/-- A candidate is looked at. -/
structure Turn where
  blocks : List Block
  key : TipKey
  now : ℕ

def retryTime (v : Verdict) : ℕ := if v.lineageDead then deadTargetRetry else softTargetRetry

/-- The candidate inherits the verdict on an ancestor and is remembered itself. -/
def inherit (dead : List (TipKey × Verdict)) (turn : Turn) : Bool × List (TipKey × Verdict) :=
  match ancestryDead turn.blocks dead turn.now 1024 turn.key.2 with
  | some v => (true, Lru.put relayDeadTargetsEntries dead turn.key ⟨turn.now, true, v.source, true⟩)
  | none => (false, dead)

/-- Whether the candidate is skipped, and the memo after that. -/
def consult (dead : List (TipKey × Verdict)) (turn : Turn) : Bool × List (TipKey × Verdict) :=
  match Lru.peek dead turn.key with
  | some v =>
    if turn.now - v.when < retryTime v then (true, Lru.modify dead turn.key id)
    else inherit (Lru.pop (Lru.modify dead turn.key id) turn.key) turn
  | none => inherit dead turn

def isLineageDead : Converge → Bool
  | .branchInvalid => true
  | .needsBootstrap => true
  | _ => false

/-! ### A pass -/

/-- What happens at a candidate: the time when it is looked at, and, if it is tried, the outcome (`none` is a
timeout) and the time then. -/
structure Visit where
  now : ℕ
  outcome : Option Converge
  ended : ℕ

structure RelayPass where
  localTip : ℕ
  localHash : Option Hash
  /-- The relay head. -/
  head : Option TipKey
  /-- The blocks next to the tip, where there is no relay head. -/
  probe : Option (List Block)
  window : Option (List Block)
  start : ℕ
  visits : ℕ → Visit
  /-- The drain at the end moved the tip. -/
  drained : Bool

/-- How the loop ends: at once with a result, or after the candidates. -/
inductive LoopEnd where
  | returned (result : Converge)
  | exhausted (last : Converge) (tried : ℕ) (allNeedsBootstrap : Bool)

/-- A look at a candidate, with the state before it and after it. -/
structure Look where
  before : RelayState
  turn : Turn
  after : RelayState

structure LoopResult where
  final : LoopEnd
  state : RelayState
  looks : List Look

def LoopResult.record (r : LoopResult) (look : Look) : LoopResult := { r with looks := look :: r.looks }

def RelayState.ran (s : RelayState) (run : ConvergeRun) : RelayState := { s with runs := run :: s.runs }

/-- The candidate was run and failed. -/
def RelayState.failed (s : RelayState) (run : ConvergeRun) : RelayState where
  dead := Lru.put relayDeadTargetsEntries s.dead run.key ⟨run.ended, isLineageDead run.outcome, run, false⟩
  runs := run :: s.runs

def candidateLoop (p : RelayPass) (blocks : List Block) :
    List TipKey → ℕ → ℕ → Converge → Bool → RelayState → LoopResult
  | [], _, tried, last, allNeedsBootstrap, s => ⟨.exhausted last tried allNeedsBootstrap, s, []⟩
  | key :: rest, i, tried, last, allNeedsBootstrap, s =>
    let visit := p.visits i
    if maxTipCandidates ≤ tried ∨ candidatePassBudget ≤ visit.now - p.start then
      ⟨.exhausted last tried allNeedsBootstrap, s, []⟩
    else if key.1 = p.localTip ∧ p.localHash = some key.2 then
      ⟨.returned (if tried = 0 then .converged else last), s, []⟩
    else
      let turn : Turn := ⟨blocks, key, visit.now⟩
      let consulted := consult s.dead turn
      let noted : RelayState := { s with dead := consulted.2 }
      if consulted.1 then
        (candidateLoop p blocks rest (i + 1) tried last allNeedsBootstrap noted).record ⟨s, turn, noted⟩
      else
        let run : ConvergeRun := ⟨key, visit.outcome.getD .beaconStale, visit.ended⟩
        if run.outcome = .converged ∨ run.outcome = .atTipAhead ∨ run.outcome = .progressed then
          ⟨.returned run.outcome, noted.ran run, [⟨s, turn, noted.ran run⟩]⟩
        else
          (candidateLoop p blocks rest (i + 1) (tried + 1) run.outcome
            (allNeedsBootstrap && decide (run.outcome = .needsBootstrap)) (noted.failed run)).record
            ⟨s, turn, noted.failed run⟩

/-- The result after all candidates, and after the drain. -/
def concludePass (drained : Bool) : LoopEnd → Converge
  | .returned result => result
  | .exhausted last tried allNeedsBootstrap =>
    if last ≠ .converged ∧ last ≠ .atTipAhead ∧ drained = true then .progressed
    else if 0 < tried ∧ allNeedsBootstrap = true ∧ last = .needsBootstrap then .needsBootstrap
    else if last = .needsBootstrap ∨ last = .branchInvalid then .beaconStale
    else last

/-- The node is caught up, or the relay does not say; `none` is that the window is worth a look. -/
def fastPath (p : RelayPass) : Option Converge :=
  match p.head with
  | some head => if head.1 < p.localTip ∨ head.1 = p.localTip ∧ p.localHash = some head.2 then some .converged else none
  | none =>
    match p.probe with
    | some probe =>
      if (probe.any fun b => p.localTip < b.index) = false ∧
          (probe.any fun b => b.index = p.localTip ∧ p.localHash ≠ some b.hash) = false then some .converged
      else none
    | none => some .beaconStale

def convergeToRelayTip (p : RelayPass) (s : RelayState) : Converge × RelayState × List Look :=
  match fastPath p with
  | some result => (result, s, [])
  | none =>
    match p.window with
    | none => (.beaconStale, s, [])
    | some [] => (.beaconStale, s, [])
    | some (b :: blocks) =>
      let r := candidateLoop p (b :: blocks)
          (tipCandidates (b :: blocks) p.localTip p.localHash) 0 0 .beaconStale true s
      (concludePass p.drained r.final, r.state, r.looks)

/-- The candidates looked at in one pass after the other. -/
def looksOf : RelayState → List RelayPass → List Look
  | _, [] => []
  | s, p :: ps => (convergeToRelayTip p s).2.2 ++ looksOf (convergeToRelayTip p s).2.1 ps

/-! ### When a skip is right -/

/-- The candidate is skipped. -/
def Skipped (s : RelayState) (turn : Turn) : Prop := (consult s.dead turn).1 = true

instance (s : RelayState) (turn : Turn) : Decidable (Skipped s turn) := inferInstanceAs (Decidable (_ = true))

/-- The candidate or an ancestor in the window failed with a verdict on the lineage within the last five
minutes, or the candidate itself met a gap within the last fifteen seconds. -/
def Justified (s : RelayState) (turn : Turn) : Prop :=
  ∃ run ∈ s.runs,
    (isLineageDead run.outcome = true ∧ (run.key = turn.key ∨ run.key ∈ lineage turn.blocks 1024 turn.key.2) ∧
      turn.now - run.ended < deadTargetRetry) ∨
    (run.outcome = .beaconStale ∧ run.key = turn.key ∧ turn.now - run.ended < softTargetRetry)

instance (s : RelayState) (turn : Turn) : Decidable (Justified s turn) :=
  inferInstanceAs (Decidable (∃ run ∈ s.runs, _))

/-- The candidate is run. -/
def Tried (look : Look) : Prop :=
  ∃ run : ConvergeRun, run.key = look.turn.key ∧ look.after.runs = run :: look.before.runs

/-- The verdict that the candidate is skipped for: its own, or the one on the nearest ancestor. -/
def verdictUsed (dead : List (TipKey × Verdict)) (turn : Turn) : Option Verdict :=
  match Lru.peek dead turn.key with
  | some v =>
    if turn.now - v.when < retryTime v then some v
    else ancestryDead turn.blocks (Lru.pop (Lru.modify dead turn.key id) turn.key) turn.now 1024 turn.key.2
  | none => ancestryDead turn.blocks dead turn.now 1024 turn.key.2

/-- An inherited verdict is used within its time only: it goes back to a run of the last five minutes, on the
candidate or an ancestor in the window. -/
def Fresh (s : RelayState) (turn : Turn) : Prop :=
  ∀ v ∈ verdictUsed s.dead turn, v.inherited = true →
    (v.source.key = turn.key ∨ v.source.key ∈ lineage turn.blocks 1024 turn.key.2) ∧
      turn.now - v.source.ended < deadTargetRetry

instance (s : RelayState) (turn : Turn) : Decidable (Fresh s turn) :=
  inferInstanceAs (Decidable (∀ v ∈ verdictUsed s.dead turn, _ → _ ∧ _))

/-- The verdict that the candidate is skipped for was recorded after a run, not passed on with a new time. -/
def Direct (s : RelayState) (turn : Turn) : Prop := ∀ v ∈ verdictUsed s.dead turn, v.inherited = false

instance (s : RelayState) (turn : Turn) : Decidable (Direct s turn) :=
  inferInstanceAs (Decidable (∀ v ∈ verdictUsed s.dead turn, _))

theorem Direct.fresh {s : RelayState} {turn : Turn} (h : Direct s turn) : Fresh s turn := by
  intro v hv hinherited
  rw [h v hv] at hinherited
  cases hinherited

/-! ### The verdicts in the memo -/

/-- Every verdict goes back to a run, and one that is not inherited is of the block itself and of the time of
the run. -/
structure VerdictOk (runs : List ConvergeRun) (key : TipKey) (v : Verdict) : Prop where
  run : v.source ∈ runs
  failed : v.source.outcome = .beaconStale ∨ isLineageDead v.source.outcome = true
  hard : v.lineageDead = isLineageDead v.source.outcome
  own : v.inherited = false → v.source.key = key ∧ v.source.ended = v.when
  passed : v.inherited = true → v.lineageDead = true

def MemoOk (runs : List ConvergeRun) (dead : List (TipKey × Verdict)) : Prop :=
  ∀ key v, Lru.peek dead key = some v → VerdictOk runs key v

theorem ancestryDead_eq_some {blocks : List Block} {dead : List (TipKey × Verdict)} {now : ℕ} {v : Verdict} :
    ∀ {fuel : ℕ} {cursor : Hash}, ancestryDead blocks dead now fuel cursor = some v →
      ∃ key ∈ lineage blocks fuel cursor, Lru.peek dead key = some v ∧ v.lineageDead = true ∧
        now - v.when < deadTargetRetry
  | 0, _, h => nomatch h
  | fuel + 1, cursor, h => by
    rw [ancestryDead] at h
    rw [lineage]
    cases hwire : wireByHash blocks cursor with
    | none =>
      rw [hwire] at h
      cases h
    | some link =>
      rw [hwire] at h
      dsimp only at h ⊢
      have hrest : ancestryDead blocks dead now fuel link.2 = some v →
          ∃ key ∈ (link.1, cursor) :: lineage blocks fuel link.2, Lru.peek dead key = some v ∧
            v.lineageDead = true ∧ now - v.when < deadTargetRetry := by
        intro hfound
        obtain ⟨key, hmem, hkey⟩ := ancestryDead_eq_some hfound
        exact ⟨key, List.mem_cons_of_mem _ hmem, hkey⟩
      cases hpeek : Lru.peek dead (link.1, cursor) with
      | none =>
        rw [hpeek] at h
        exact hrest h
      | some w =>
        rw [hpeek] at h
        dsimp only at h
        split_ifs at h with hlive
        · obtain rfl := Option.some.inj h
          exact ⟨_, List.mem_cons_self, hpeek, hlive⟩
        · exact hrest h

section Memo

variable {runs : List ConvergeRun} {dead : List (TipKey × Verdict)} {turn : Turn}

theorem VerdictOk.mono {key : TipKey} {v : Verdict} (h : VerdictOk runs key v) (run : ConvergeRun) :
    VerdictOk (run :: runs) key v :=
  ⟨List.mem_cons_of_mem _ h.run, h.failed, h.hard, h.own, h.passed⟩

theorem MemoOk.mono (h : MemoOk runs dead) (run : ConvergeRun) : MemoOk (run :: runs) dead :=
  fun key v hv => (h key v hv).mono run

theorem MemoOk.touch (h : MemoOk runs dead) (key : TipKey) : MemoOk runs (Lru.modify dead key id) := by
  intro key' v hv
  rw [Lru.peek_modify, Option.map_id] at hv
  split_ifs at hv with hsame
  · exact h key' v (hsame ▸ hv)
  · exact h key' v hv

theorem MemoOk.pop (h : MemoOk runs dead) (key : TipKey) : MemoOk runs (Lru.pop dead key) := by
  intro key' v hv
  rw [Lru.peek_pop] at hv
  split_ifs at hv
  exact h key' v hv

theorem MemoOk.put (h : MemoOk runs dead) {key : TipKey} {v : Verdict} (hv : VerdictOk runs key v) :
    MemoOk runs (Lru.put relayDeadTargetsEntries dead key v) := by
  intro key' w hw
  rcases Lru.peek_put hw with ⟨rfl, rfl⟩ | ⟨-, hold⟩
  · exact hv
  · exact h key' w hold

theorem MemoOk.inherit (h : MemoOk runs dead) : MemoOk runs (inherit dead turn).2 := by
  unfold DeadTargets.inherit
  cases hfound : ancestryDead turn.blocks dead turn.now 1024 turn.key.2 with
  | none => exact h
  | some v =>
    obtain ⟨key, -, hpeek, hdead, -⟩ := ancestryDead_eq_some hfound
    have hv := h key v hpeek
    exact h.put ⟨hv.run, hv.failed, hdead.symm.trans hv.hard, (nomatch ·), fun _ => rfl⟩

theorem MemoOk.consult (h : MemoOk runs dead) : MemoOk runs (consult dead turn).2 := by
  unfold DeadTargets.consult
  cases hpeek : Lru.peek dead turn.key with
  | none => exact h.inherit
  | some v =>
    dsimp only
    split_ifs
    · exact h.touch _
    · exact ((h.touch _).pop _).inherit

theorem MemoOk.failed {s : RelayState} {run : ConvergeRun} (h : MemoOk s.runs s.dead)
    (hrun : run.outcome = .beaconStale ∨ isLineageDead run.outcome = true) :
    MemoOk (s.failed run).runs (s.failed run).dead :=
  (h.mono run).put ⟨List.mem_cons_self, hrun, rfl, fun _ => ⟨rfl, rfl⟩, (nomatch ·)⟩

end Memo

/-- The state after every failure recorded. -/
def RelayState.Sound (s : RelayState) : Prop := MemoOk s.runs s.dead

theorem skipped_iff {s : RelayState} {turn : Turn} : Skipped s turn ↔ (verdictUsed s.dead turn).isSome = true := by
  have hinherit : ∀ dead, (inherit dead turn).1 = (ancestryDead turn.blocks dead turn.now 1024 turn.key.2).isSome := by
    intro dead
    rw [inherit]
    cases ancestryDead turn.blocks dead turn.now 1024 turn.key.2 <;> rfl
  unfold Skipped consult verdictUsed
  cases Lru.peek s.dead turn.key with
  | none => rw [hinherit]
  | some v =>
    dsimp only
    split_ifs
    · exact Iff.rfl
    · rw [hinherit]

/-- The verdict used is in the memo, of the candidate or, for its lineage, of an ancestor, and not expired. -/
theorem verdictUsed_eq_some {dead : List (TipKey × Verdict)} {turn : Turn} {v : Verdict}
    (h : verdictUsed dead turn = some v) :
    ∃ key, Lru.peek dead key = some v ∧ turn.now - v.when < retryTime v ∧
      (key = turn.key ∨ v.lineageDead = true ∧ key ∈ lineage turn.blocks 1024 turn.key.2) := by
  have hinherited : ∀ {held : List (TipKey × Verdict)},
      (∀ key w, Lru.peek held key = some w → Lru.peek dead key = some w) →
      ancestryDead turn.blocks held turn.now 1024 turn.key.2 = some v →
      ∃ key, Lru.peek dead key = some v ∧ turn.now - v.when < retryTime v ∧
        (key = turn.key ∨ v.lineageDead = true ∧ key ∈ lineage turn.blocks 1024 turn.key.2) := by
    intro held hsub hfound
    obtain ⟨key, hmem, hpeek, hdead, hlive⟩ := ancestryDead_eq_some hfound
    refine ⟨key, hsub key v hpeek, ?_, .inr ⟨hdead, hmem⟩⟩
    rwa [retryTime, hdead, if_pos rfl]
  unfold verdictUsed at h
  cases hpeek : Lru.peek dead turn.key with
  | none =>
    rw [hpeek] at h
    exact hinherited (fun _ _ hw => hw) h
  | some w =>
    rw [hpeek] at h
    dsimp only at h
    split_ifs at h with hlive
    · obtain rfl := Option.some.inj h
      exact ⟨turn.key, hpeek, hlive, .inl rfl⟩
    · refine hinherited (fun key w hw => ?_) h
      rw [Lru.peek_pop] at hw
      split_ifs at hw with hsame
      rw [Lru.peek_modify, if_neg hsame] at hw
      exact hw

/-- With a sound memo a skip in which no inherited verdict is used past its time is right. -/
theorem justified_of_fresh {s : RelayState} {turn : Turn} (hs : s.Sound) (hfresh : Fresh s turn)
    (hskip : Skipped s turn) : Justified s turn := by
  obtain ⟨v, hused⟩ := Option.isSome_iff_exists.mp (skipped_iff.mp hskip)
  obtain ⟨key, hpeek, hlive, hkey⟩ := verdictUsed_eq_some hused
  have hv : VerdictOk s.runs key v := hs key v hpeek
  refine ⟨v.source, hv.run, ?_⟩
  cases hinherited : v.inherited with
  | true =>
    obtain ⟨hwhere, hrecent⟩ := hfresh v hused hinherited
    exact .inl ⟨hv.hard.symm.trans (hv.passed hinherited), hwhere, hrecent⟩
  | false =>
    obtain ⟨hown, hended⟩ := hv.own hinherited
    rw [← hended] at hlive
    cases hdead : v.lineageDead with
    | true =>
      rw [retryTime, hdead, if_pos rfl] at hlive
      refine .inl ⟨hv.hard.symm.trans hdead, ?_, hlive⟩
      rw [hown]
      exact hkey.imp_right And.right
    | false =>
      rw [retryTime, hdead, if_neg Bool.false_ne_true] at hlive
      have hsoft : isLineageDead v.source.outcome ≠ true := by
        rw [← hv.hard, hdead]
        exact Bool.false_ne_true
      have hself : key = turn.key := hkey.resolve_right fun h => absurd (hdead.symm.trans h.1) Bool.false_ne_true
      exact .inr ⟨hv.failed.resolve_right hsoft, hown.trans hself, hlive⟩

/-! ### Passes -/

/-- A run that does not end the pass has failed. -/
theorem failed_of_not_done {c : Converge} (h : ¬ (c = .converged ∨ c = .atTipAhead ∨ c = .progressed)) :
    c = .beaconStale ∨ isLineageDead c = true := by
  cases c with
  | converged => exact absurd (.inl rfl) h
  | atTipAhead => exact absurd (.inr (.inl rfl)) h
  | progressed => exact absurd (.inr (.inr rfl)) h
  | needsBootstrap => exact .inr rfl
  | beaconStale => exact .inl rfl
  | branchInvalid => exact .inr rfl

/-- What holds of a look: the memo was sound, and a candidate that was not skipped was run. -/
def Look.Ok (look : Look) : Prop := look.before.Sound ∧ (¬ Skipped look.before look.turn → Tried look)

/-- One pass over the candidates, from a sound memo to a sound memo. -/
theorem candidateLoop_sound (p : RelayPass) (blocks : List Block) :
    ∀ (keys : List TipKey) (i tried : ℕ) (last : Converge) (all : Bool) {s : RelayState}, s.Sound →
      (candidateLoop p blocks keys i tried last all s).state.Sound ∧
        ∀ look ∈ (candidateLoop p blocks keys i tried last all s).looks, look.Ok
  | [], _, _, _, _, _, hs => ⟨hs, fun _ hlook => nomatch hlook⟩
  | key :: rest, i, tried, last, all, s, hs => by
    rw [candidateLoop]
    dsimp only
    set turn : Turn := ⟨blocks, key, (p.visits i).now⟩ with hturn
    set noted : RelayState := { s with dead := (consult s.dead turn).2 } with hnoted
    have hsound : noted.Sound := MemoOk.consult hs
    split_ifs with hbudget htip hfirst hskip hdone
    · exact ⟨hs, fun _ hlook => nomatch hlook⟩
    · exact ⟨hs, fun _ hlook => nomatch hlook⟩
    · exact ⟨hs, fun _ hlook => nomatch hlook⟩
    · obtain ⟨hstate, hlooks⟩ := candidateLoop_sound p blocks rest (i + 1) tried last all hsound
      refine ⟨hstate, List.forall_mem_cons.mpr ⟨⟨hs, fun hnot => absurd hskip hnot⟩, hlooks⟩⟩
    · refine ⟨hsound.mono _, fun look hlook => ?_⟩
      obtain rfl := List.mem_singleton.mp hlook
      exact ⟨hs, fun _ => ⟨_, rfl, rfl⟩⟩
    · have hfailed : (noted.failed ⟨key, (p.visits i).outcome.getD .beaconStale, (p.visits i).ended⟩).Sound :=
        hsound.failed (failed_of_not_done hdone)
      obtain ⟨hstate, hlooks⟩ := candidateLoop_sound p blocks rest (i + 1) (tried + 1) _ _ hfailed
      exact ⟨hstate, List.forall_mem_cons.mpr ⟨⟨hs, fun _ => ⟨_, rfl, rfl⟩⟩, hlooks⟩⟩

theorem convergeToRelayTip_sound (p : RelayPass) {s : RelayState} (hs : s.Sound) :
    (convergeToRelayTip p s).2.1.Sound ∧ ∀ look ∈ (convergeToRelayTip p s).2.2, look.Ok := by
  have hnothing : s.Sound ∧ ∀ look ∈ ([] : List Look), look.Ok := ⟨hs, fun _ hlook => nomatch hlook⟩
  rw [convergeToRelayTip]
  cases fastPath p with
  | some result => exact hnothing
  | none =>
    rcases p.window with _ | _ | ⟨b, blocks⟩
    · exact hnothing
    · exact hnothing
    · exact candidateLoop_sound p _ _ _ _ _ _ hs

theorem looksOf_ok : ∀ (ps : List RelayPass) {s : RelayState}, s.Sound → ∀ look ∈ looksOf s ps, look.Ok
  | [], _, _ => fun _ hlook => nomatch hlook
  | p :: ps, s, hs => by
    obtain ⟨hstate, hlooks⟩ := convergeToRelayTip_sound p hs
    intro look hlook
    rcases List.mem_append.mp hlook with hmem | hmem
    · exact hlooks look hmem
    · exact looksOf_ok ps hstate look hmem

/-- **Expiry of the memo.** As long as no verdict that was passed on decides, a candidate is skipped only for a
recent failure of its own or of its lineage, and else it is run. -/
theorem dead_targets_expire (ps : List RelayPass)
    (hdirect : ∀ look ∈ looksOf .empty ps, Direct look.before look.turn) :
    ∀ look ∈ looksOf .empty ps,
      (Skipped look.before look.turn → Justified look.before look.turn) ∧
        (¬ Skipped look.before look.turn → Tried look) := by
  intro look hlook
  have hempty : RelayState.empty.Sound := fun _ _ hv => nomatch hv
  obtain ⟨hbefore, htried⟩ := looksOf_ok ps hempty look hlook
  exact ⟨justified_of_fresh hbefore (hdirect look hlook).fresh, htried⟩

/-! ### A lineage that keeps growing -/

local instance hashNeZero : NeZero (2 ^ 256) := ⟨by decide⟩

def relayBlock (height : ℕ) (hash previousHash : Hash) : Block := ⟨height, previousHash, 0, [], 0, 0, hash, 0⟩

/-- The first blocks of a branch that forks off under the local tip. -/
def branch (length : ℕ) : List Block :=
  [relayBlock 11 1 0, relayBlock 12 2 1, relayBlock 13 3 2].take length

/-- A pass at `seconds` over the branch; a candidate that is tried is found invalid. -/
def branchPass (length seconds : ℕ) : RelayPass where
  localTip := 10
  localHash := some 99
  head := some (10 + length, Fin.ofNat _ length)
  probe := none
  window := some (branch length)
  start := seconds * 10 ^ 9
  visits := fun _ => ⟨seconds * 10 ^ 9, some .branchInvalid, seconds * 10 ^ 9⟩
  drained := false

/-- A branch that is found invalid is skipped for five minutes, its new tip with it, and both rightly; then it is
run again. -/
theorem dead_targets_expire_branch :
    ∃ look ∈ looksOf .empty [branchPass 1 0, branchPass 1 100, branchPass 2 299, branchPass 2 600],
      look.turn.key = (12, 2) ∧ Skipped look.before look.turn ∧ Justified look.before look.turn := by
  have hskip : ∃ look ∈ looksOf .empty [branchPass 1 0, branchPass 1 100, branchPass 2 299, branchPass 2 600],
      look.turn.key = (12, 2) ∧ Skipped look.before look.turn := by
    decide +kernel
  obtain ⟨look, hlook, hkey, hskipped⟩ := hskip
  have hexpire := dead_targets_expire [branchPass 1 0, branchPass 1 100, branchPass 2 299, branchPass 2 600]
    (by decide +kernel) look hlook
  exact ⟨look, hlook, hkey, hskipped, hexpire.1 hskipped⟩

/-- The branch grows by a block just before the verdict expires, and again: ten minutes after the only run its
tip is still skipped. -/
theorem dead_targets_expire_growing :
    ∃ look ∈ looksOf .empty [branchPass 1 0, branchPass 2 299, branchPass 3 598],
      Skipped look.before look.turn ∧ ¬ Justified look.before look.turn := by
  decide +kernel

end DeadTargets

end Alphanumeric
