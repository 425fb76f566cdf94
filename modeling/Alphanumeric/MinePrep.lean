/-
# Preparing to mine

`prepare_local_mining` (`src/a9/node.rs`) brings the node to the tip before it mines: each round
asks for the tip beacon and converges to it, and most arms let the miner go only after a look
at the highest beacon of the last ten minutes, which `record_beacon_observation` keeps in a
queue. The arm for a relay gap at the deadline looks at the latest beacon alone.

The clock of the state moves with every event; what the gateway and the network answer, the
local tips read and the durations are inputs. `observed` and `dropped` are ghosts: all
observations, and the ones that the length of the queue made it lose. An observation is a beacon
that is verified. The sleeps between rounds are part of the durations. Times are in nanoseconds.

Key definitions: `Beacons`, `recordBeaconObservation`, `beaconHighWaterHeight`, `fetchTipBeacon`, `prepareRound`,
`prepareLocalMining`, `Competitive`.
Key theorems: `Accounted.event`, `Accounted.prepareRound`, `guarded_ready`, `stale_tip_guard`.
-/
import Alphanumeric.Converge
import Mathlib

namespace Alphanumeric

namespace MinePrep

def beaconHighWaterWindowSecs : ℕ := 600
def beaconMemoTtl : ℕ := 1000 * 10 ^ 6
def observationsCap : ℕ := 4096
def streamWindow : ℕ := 64
def racingDistance : ℕ := 2

/-- What the gateway tells of the tip. -/
structure GatewayTip where
  height : ℕ
  hash : Hash
  verified : Bool
deriving DecidableEq

def GatewayTip.info (tip : GatewayTip) : TipBeaconInfo := ⟨tip.height % 2 ^ 32, tip.hash, tip.verified⟩

structure Observation where
  time : ℕ
  height : ℕ
deriving DecidableEq

/-- What the node keeps of the beacons it read. -/
structure Beacons where
  clock : ℕ
  window : List Observation
  lastSeen : ℕ
  memo : Option (ℕ × TipBeaconInfo)
  observed : List Observation
  dropped : List Observation
deriving DecidableEq

/-- `u32::saturating_add`. -/
def satAdd32 (a b : ℕ) : ℕ := min (a + b) (2 ^ 32 - 1)

/-- The observation is older than the window, in whole seconds. -/
def Observation.Expired (now : ℕ) (o : Observation) : Prop := beaconHighWaterWindowSecs < (now - o.time) / 10 ^ 9

instance (now : ℕ) (o : Observation) : Decidable (o.Expired now) := inferInstanceAs (Decidable (_ < _))

def staleTipMineRefused (localTip knownTip : ℕ) : Prop := satAdd32 localTip racingDistance < knownTip

instance (localTip knownTip : ℕ) : Decidable (staleTipMineRefused localTip knownTip) :=
  inferInstanceAs (Decidable (_ < _))

def windowHighWater (window : List Observation) (now : ℕ) : ℕ :=
  ((window.filter fun o => ¬ o.Expired now).map (·.height)).foldl max 0

/-! ### Reading beacons -/

namespace Beacons

/-- A node that has read no beacon. -/
def start (clock : ℕ) : Beacons := ⟨clock, [], 0, none, [], []⟩

def wait (s : Beacons) (duration : ℕ) : Beacons := { s with clock := s.clock + duration }

def prune (s : Beacons) (window : List Observation) : List Observation :=
  window.dropWhile fun o => o.Expired s.clock

def recordBeaconObservation (s : Beacons) (height : ℕ) : Beacons :=
  let obs := s.prune (s.window ++ [⟨s.clock, height⟩])
  let excess := obs.length - observationsCap
  { s with
    window := obs.drop excess
    observed := ⟨s.clock, height⟩ :: s.observed
    dropped := obs.take excess ++ s.dropped }

def pruned (s : Beacons) : Beacons := { s with window := s.prune s.window }

/-- The highest beacon of the window, with the state after. -/
def beaconHighWaterHeight (s : Beacons) : ℕ × Beacons := (windowHighWater s.pruned.window s.clock, s.pruned)

/-- An answer of the gateway is taken in. -/
def note (s : Beacons) (tip : GatewayTip) : Beacons :=
  let recorded := if tip.verified then
      { s.recordBeaconObservation tip.info.height with lastSeen := max s.lastSeen tip.height }
    else s
  { recorded with memo := some (s.clock, tip.info) }

end Beacons

/-- What other tasks do, after a while. -/
inductive Event where
  | read (wait : ℕ) (tip : GatewayTip)
  | highWater (wait : ℕ)

def Beacons.event (s : Beacons) : Event → Beacons
  | .read wait tip => (s.wait wait).note tip
  | .highWater wait => (s.wait wait).pruned

/-- The time until the next step of the preparation, and what happens meanwhile. -/
structure Meanwhile where
  events : List Event
  rest : ℕ

def Beacons.pass (s : Beacons) (m : Meanwhile) : Beacons := (m.events.foldl Beacons.event s).wait m.rest

/-- `answer` is the first answer of a gateway that counts. -/
def Beacons.fetchTipBeacon (s : Beacons) (answer : Option GatewayTip) (fetching : Meanwhile) :
    Option TipBeaconInfo × Beacons :=
  let asked : Option TipBeaconInfo × Beacons := match answer with
    | some tip => (some tip.info, (s.pass fetching).note tip)
    | none => (none, s.pass fetching)
  match s.memo with
  | some (read, memo) => if s.clock - read < beaconMemoTtl then (some memo, s) else asked
  | none => asked

/-! ### The rounds -/

/-- Why the miner has to wait, or to stop, with the figures of the message. -/
inductive MineRefusal where
  | beaconUnreachable (lastSeen behind localTip : ℕ)
  | gapNotFetched (knownTip localTip behind : ℕ)
  | caughtUpBelow (tip knownTip : ℕ)
  | recovered (blocks : ℕ)
  | peerSync
  | catchingUp (behind localTip beacon : ℕ)
  | divergedBelowFinality (scheduled : Bool)
  | stillConverging
  | peerSyncClosing (beacon behind : ℕ)
  | behindBeacon (behind localTip beacon : ℕ) (scheduled : Bool)
  | relayGap (beacon behind : ℕ)
  | candidateInvalid (knownTip localTip behind : ℕ)
deriving DecidableEq

/-- The arms that let the miner go. -/
inductive Arm where
  | unreachable
  | converged
  | healed
  | relayHoleHealed
  | relayGap
  | branchInvalid
deriving DecidableEq

/-- What a round meets. `tip` is the local tip after converging (or without a beacon), `tipAfter` the one
after the peer sync, `tipLast` the last one read. -/
structure Round where
  pause : Meanwhile
  answer : Option GatewayTip
  fetching : Meanwhile
  /-- `none` is a timeout. -/
  outcome : Option Converge
  converging : Meanwhile
  tip : ℕ
  healed : Converge
  healing : Meanwhile
  tipAfter : ℕ
  tipLast : ℕ
  scheduled : Bool

inductive RoundEnd where
  | ready (arm : Arm) (localTip : ℕ)
  | refused (refusal : MineRefusal)
  | again

/-- The guard of an arm: the miner may go if the highest beacon of the window is within racing distance. -/
def guarded (s : Beacons) (arm : Arm) (localTip : ℕ) (refusal : ℕ → MineRefusal) : RoundEnd × Beacons :=
  let known := s.beaconHighWaterHeight
  (if staleTipMineRefused localTip known.1 then .refused (refusal known.1) else .ready arm localTip, known.2)

/-- The arm of `NeedsBootstrap`. -/
def needsBootstrapArm (deadline : ℕ) (r : Round) (beacon : TipBeaconInfo) (s : Beacons) : RoundEnd × Beacons :=
  if r.healed = .converged ∨ r.healed = .atTipAhead then
    guarded s .healed r.tipAfter fun known => .caughtUpBelow r.tipAfter known
  else if r.tip < r.tipAfter then
    (if deadline ≤ s.clock then .refused (.recovered (r.tipAfter - r.tip)) else .again, s)
  else if r.healed = .progressed then
    (if deadline ≤ s.clock then .refused .peerSync else .again, s)
  else if s.clock < deadline then (.again, s)
  else if checkpointReorgMargin < beacon.height - r.tipLast then
    (.refused (.catchingUp (beacon.height - r.tipLast) r.tipLast beacon.height), s)
  else (.refused (.divergedBelowFinality r.scheduled), s)

/-- The arm of `BeaconStale`, at the deadline. -/
def beaconStaleArm (r : Round) (beacon : TipBeaconInfo) (s : Beacons) : RoundEnd × Beacons :=
  if satAdd32 r.tip streamWindow < beacon.height then
    let s := s.pass r.healing
    if r.healed = .converged ∨ r.healed = .atTipAhead then
      guarded s .relayHoleHealed r.tipAfter fun known => .caughtUpBelow r.tipAfter known
    else if r.healed = .progressed then (.refused (.peerSyncClosing beacon.height (beacon.height - r.tipAfter)), s)
    else if r.tip < r.tipAfter then (.refused (.recovered (r.tipAfter - r.tip)), s)
    else (.refused (.behindBeacon (beacon.height - r.tip) r.tip beacon.height r.scheduled), s)
  else if satAdd32 r.tip racingDistance < beacon.height then
    (.refused (.relayGap beacon.height (beacon.height - r.tip)), s)
  else (.ready .relayGap r.tip, s)

def unreachableArm (r : Round) (s : Beacons) : RoundEnd × Beacons :=
  let lastSeen := s.lastSeen % 2 ^ 32
  if satAdd32 r.tip checkpointReorgMargin < lastSeen then
    (.refused (.beaconUnreachable lastSeen (lastSeen - r.tip) r.tip), s)
  else (.ready .unreachable r.tip, s)

def prepareRound (deadline : ℕ) (r : Round) (s : Beacons) : RoundEnd × Beacons :=
  match (s.pass r.pause).fetchTipBeacon r.answer r.fetching with
  | (none, s) => unreachableArm r s
  | (some beacon, s) =>
    let s := s.pass r.converging
    match r.outcome.getD .beaconStale with
    | .converged | .atTipAhead =>
      guarded s .converged r.tip fun known => .gapNotFetched known r.tip (known - r.tip)
    | .needsBootstrap => needsBootstrapArm deadline r beacon (s.pass r.healing)
    | .progressed => (if deadline ≤ s.clock then .refused .stillConverging else .again, s)
    | .beaconStale => if deadline ≤ s.clock then beaconStaleArm r beacon s else (.again, s)
    | .branchInvalid =>
      guarded s .branchInvalid r.tip fun known => .candidateInvalid known r.tip (known - r.tip)

/-- The miner may go: through which arm, over which tip, and with what beacons at that moment. -/
structure Ready where
  arm : Arm
  localTip : ℕ
  state : Beacons
deriving DecidableEq

/-- Out of rounds the call has not returned. -/
def prepareLoop (deadline : ℕ) : List Round → Beacons → Option (Except MineRefusal Ready)
  | [], _ => none
  | r :: rounds, s =>
    match prepareRound deadline r s with
    | (.ready arm localTip, s) => some (.ok ⟨arm, localTip, s⟩)
    | (.refused refusal, _) => some (.error refusal)
    | (.again, s) => prepareLoop deadline rounds s

def prepareLocalMining (maxWait : ℕ) (rounds : List Round) (s : Beacons) : Option (Except MineRefusal Ready) :=
  prepareLoop (s.clock + maxWait) rounds s

/-- No beacon of the window is further than the racing distance above the tip. -/
def WithinRace (localTip clock : ℕ) (observations : List Observation) : Prop :=
  ∀ o ∈ observations, ¬ o.Expired clock → o.height ≤ localTip + racingDistance

/-- The miner goes only in racing distance of every beacon observed in the window. -/
def Competitive (ready : Ready) : Prop := WithinRace ready.localTip ready.state.clock ready.state.observed

/-! ### Observations are accounted for -/

/-- Every observation is in the queue, dropped or expired. -/
structure Accounted (s : Beacons) : Prop where
  kept : ∀ o ∈ s.observed, o ∈ s.window ∨ o ∈ s.dropped ∨ o.Expired s.clock
  window : ∀ o ∈ s.window, o ∈ s.observed
  dropped : ∀ o ∈ s.dropped, o ∈ s.observed
  heights : ∀ o ∈ s.observed, o.height < 2 ^ 32

theorem Observation.Expired.later {now : ℕ} {o : Observation} (h : o.Expired now) (duration : ℕ) :
    o.Expired (now + duration) :=
  Nat.lt_of_lt_of_le h (Nat.div_le_div_right (Nat.sub_le_sub_right (Nat.le_add_right now duration) _))

/-- What leaves the front of the queue is expired. -/
theorem mem_prune_or_expired {s : Beacons} {o : Observation} :
    ∀ {window : List Observation}, o ∈ window → o ∈ s.prune window ∨ o.Expired s.clock
  | first :: rest, h => by
    rw [Beacons.prune, List.dropWhile_cons]
    split_ifs with hfirst
    · rcases List.mem_cons.mp h with rfl | hrest
      · exact .inr (of_decide_eq_true hfirst)
      · exact mem_prune_or_expired hrest
    · exact .inl h

theorem mem_of_mem_prune {s : Beacons} {o : Observation} {window : List Observation} (h : o ∈ s.prune window) :
    o ∈ window :=
  (List.dropWhile_sublist _).subset h

namespace Accounted

variable {s : Beacons}

theorem start (clock : ℕ) : Accounted (.start clock) where
  kept _ h := nomatch h
  window _ h := nomatch h
  dropped _ h := nomatch h
  heights _ h := nomatch h

theorem wait (hs : Accounted s) (duration : ℕ) : Accounted (s.wait duration) where
  kept o h := (hs.kept o h).imp_right (Or.imp_right fun hold => hold.later duration)
  window := hs.window
  dropped := hs.dropped
  heights := hs.heights

theorem pruned (hs : Accounted s) : Accounted s.pruned where
  kept o h := by
    rcases hs.kept o h with hwindow | hgone
    · exact (mem_prune_or_expired hwindow).imp_right .inr
    · exact .inr hgone
  window o h := hs.window o (mem_of_mem_prune h)
  dropped := hs.dropped
  heights := hs.heights

theorem record (hs : Accounted s) {height : ℕ} (hheight : height < 2 ^ 32) :
    Accounted (s.recordBeaconObservation height) := by
  have hpushed : ∀ {o : Observation}, o ∈ s.window ++ [⟨s.clock, height⟩] →
      o ∈ (⟨s.clock, height⟩ : Observation) :: s.observed := by
    intro o h
    rcases List.mem_append.mp h with hold | hnew
    · exact List.mem_cons_of_mem _ (hs.window o hold)
    · exact List.mem_cons.mpr (.inl (List.mem_singleton.mp hnew))
  have hsplit : ∀ {o : Observation} {obs : List Observation} (excess : ℕ), o ∈ obs →
      o ∈ obs.drop excess ∨ o ∈ obs.take excess := by
    intro o obs excess h
    rw [← List.take_append_drop excess obs] at h
    exact (List.mem_append.mp h).symm
  unfold Beacons.recordBeaconObservation
  dsimp only
  set pushed := s.window ++ [⟨s.clock, height⟩]
  generalize (s.prune pushed).length - observationsCap = excess
  refine ⟨fun o h => ?_, fun o h => ?_, fun o h => ?_, fun o h => ?_⟩
  · have hplace : o ∈ pushed ∨ o ∈ s.dropped ∨ o.Expired s.clock := by
      rcases List.mem_cons.mp h with rfl | hold
      · exact .inl (List.mem_append.mpr (.inr (List.mem_singleton.mpr rfl)))
      · exact (hs.kept o hold).imp_left fun hwindow => List.mem_append.mpr (.inl hwindow)
    rcases hplace with hwindow | hdropped | hexpired
    · rcases mem_prune_or_expired hwindow with hlive | hexpired
      · exact (hsplit _ hlive).imp_right fun hgone => .inl (List.mem_append.mpr (.inl hgone))
      · exact .inr (.inr hexpired)
    · exact .inr (.inl (List.mem_append.mpr (.inr hdropped)))
    · exact .inr (.inr hexpired)
  · exact hpushed (mem_of_mem_prune (List.mem_of_mem_drop h))
  · rcases List.mem_append.mp h with hgone | hdropped
    · exact hpushed (mem_of_mem_prune (List.mem_of_mem_take hgone))
    · exact List.mem_cons_of_mem _ (hs.dropped o hdropped)
  · rcases List.mem_cons.mp h with rfl | hold
    · exact hheight
    · exact hs.heights o hold

/-- The other fields do not matter. -/
theorem noted (hs : Accounted s) (lastSeen : ℕ) (memo : Option (ℕ × TipBeaconInfo)) :
    Accounted { s with lastSeen, memo } :=
  ⟨hs.kept, hs.window, hs.dropped, hs.heights⟩

theorem note (hs : Accounted s) (tip : GatewayTip) : Accounted (s.note tip) := by
  have hrecord : Accounted (s.recordBeaconObservation tip.info.height) :=
    hs.record (Nat.mod_lt tip.height (Nat.two_pow_pos 32))
  rw [Beacons.note]
  generalize s.recordBeaconObservation tip.info.height = recorded at hrecord ⊢
  dsimp only
  split_ifs
  · exact hrecord.noted _ _
  · exact hs.noted _ _

theorem event (hs : Accounted s) : ∀ e : Event, Accounted (s.event e)
  | .read wait tip => (hs.wait wait).note tip
  | .highWater wait => (hs.wait wait).pruned

theorem events : ∀ (es : List Event) {s : Beacons}, Accounted s → Accounted (es.foldl Beacons.event s)
  | [], _, hs => hs
  | e :: es, _, hs => events es (hs.event e)

theorem pass (hs : Accounted s) (m : Meanwhile) : Accounted (s.pass m) := (events m.events hs).wait m.rest

theorem fetch (hs : Accounted s) (answer : Option GatewayTip) (fetching : Meanwhile) :
    Accounted (s.fetchTipBeacon answer fetching).2 := by
  unfold Beacons.fetchTipBeacon
  have hasked : Accounted (match answer with
      | some tip => ((some tip.info, (s.pass fetching).note tip) : Option TipBeaconInfo × Beacons)
      | none => (none, s.pass fetching)).2 := by
    cases answer with
    | some tip => exact (hs.pass fetching).note tip
    | none => exact hs.pass fetching
  cases s.memo with
  | none => exact hasked
  | some memo =>
    dsimp only
    split_ifs
    · exact hs
    · exact hasked

end Accounted

/-! ### What the arms let go -/

/-- A state in which the observations are accounted for, and, in a guarded arm, the guard has passed. -/
structure Checked (arm : Arm) (localTip : ℕ) (s : Beacons) : Prop where
  accounted : Accounted s
  guard : arm ≠ .unreachable → arm ≠ .relayGap → ¬ staleTipMineRefused localTip (windowHighWater s.window s.clock)

/-- A round leaves the observations accounted for, and lets the miner go only past the guard of its arm. -/
def Sound (result : RoundEnd × Beacons) : Prop :=
  Accounted result.2 ∧ ∀ arm localTip, result.1 = .ready arm localTip → Checked arm localTip result.2

theorem guarded_ready {s : Beacons} (hs : Accounted s) (arm : Arm) (localTip : ℕ) (refusal : ℕ → MineRefusal) :
    Sound (guarded s arm localTip refusal) := by
  refine ⟨hs.pruned, fun arm' localTip' h => ⟨hs.pruned, fun _ _ => ?_⟩⟩
  unfold guarded at h
  dsimp only at h
  split_ifs at h with hstale
  obtain ⟨-, rfl⟩ := RoundEnd.ready.inj h
  exact hstale

/-- A round that does not let the miner go. -/
theorem sound_of_not_ready {e : RoundEnd} {s : Beacons} (hs : Accounted s)
    (he : ∀ arm localTip, e ≠ .ready arm localTip) : Sound (e, s) :=
  ⟨hs, fun arm localTip h => absurd h (he arm localTip)⟩

theorem sound_refused {s : Beacons} (hs : Accounted s) (refusal : MineRefusal) : Sound (.refused refusal, s) :=
  sound_of_not_ready hs fun _ _ h => nomatch h

theorem sound_again {s : Beacons} (hs : Accounted s) : Sound (.again, s) :=
  sound_of_not_ready hs fun _ _ h => nomatch h

theorem needsBootstrapArm_sound {s : Beacons} (hs : Accounted s) (deadline : ℕ) (r : Round) (beacon : TipBeaconInfo) :
    Sound (needsBootstrapArm deadline r beacon s) := by
  unfold needsBootstrapArm
  split_ifs
  · exact guarded_ready hs _ _ _
  · exact sound_refused hs _
  · exact sound_again hs
  · exact sound_refused hs _
  · exact sound_again hs
  · exact sound_again hs
  · exact sound_refused hs _
  · exact sound_refused hs _

theorem beaconStaleArm_sound {s : Beacons} (hs : Accounted s) (r : Round) (beacon : TipBeaconInfo) :
    Sound (beaconStaleArm r beacon s) := by
  unfold beaconStaleArm
  dsimp only
  split_ifs
  · exact guarded_ready (hs.pass r.healing) _ _ _
  · exact sound_refused (hs.pass r.healing) _
  · exact sound_refused (hs.pass r.healing) _
  · exact sound_refused (hs.pass r.healing) _
  · exact sound_refused hs _
  · refine ⟨hs, fun arm localTip h => ⟨hs, fun _ hgap => ?_⟩⟩
    obtain ⟨rfl, -⟩ := RoundEnd.ready.inj h
    exact absurd rfl hgap

theorem unreachableArm_sound {s : Beacons} (hs : Accounted s) (r : Round) : Sound (unreachableArm r s) := by
  unfold unreachableArm
  dsimp only
  split_ifs
  · exact sound_refused hs _
  · refine ⟨hs, fun arm localTip h => ⟨hs, fun hreachable => ?_⟩⟩
    obtain ⟨rfl, -⟩ := RoundEnd.ready.inj h
    exact absurd rfl hreachable

theorem Accounted.prepareRound {s : Beacons} (hs : Accounted s) (deadline : ℕ) (r : Round) :
    Sound (prepareRound deadline r s) := by
  unfold MinePrep.prepareRound
  have hfetched := (hs.pass r.pause).fetch r.answer r.fetching
  generalize (s.pass r.pause).fetchTipBeacon r.answer r.fetching = fetched at hfetched ⊢
  obtain ⟨_ | beacon, read⟩ := fetched
  · exact unreachableArm_sound hfetched r
  · have hconverged : Accounted (read.pass r.converging) := Accounted.pass hfetched r.converging
    dsimp only
    cases r.outcome.getD .beaconStale with
    | converged => exact guarded_ready hconverged _ _ _
    | atTipAhead => exact guarded_ready hconverged _ _ _
    | needsBootstrap => exact needsBootstrapArm_sound (hconverged.pass r.healing) deadline r beacon
    | progressed =>
      dsimp only
      split_ifs
      · exact sound_refused hconverged _
      · exact sound_again hconverged
    | beaconStale =>
      dsimp only
      split_ifs
      · exact beaconStaleArm_sound hconverged r beacon
      · exact sound_again hconverged
    | branchInvalid => exact guarded_ready hconverged _ _ _

/-- However many rounds it took, who is let go was checked. -/
theorem prepareLoop_checked {deadline : ℕ} {ready : Ready} :
    ∀ {rounds : List Round} {s : Beacons}, Accounted s → prepareLoop deadline rounds s = some (.ok ready) →
      Checked ready.arm ready.localTip ready.state
  | [], _, _, h => nomatch h
  | r :: rounds, s, hs, h => by
    rw [prepareLoop] at h
    obtain ⟨haccounted, hready⟩ := hs.prepareRound deadline r
    cases hround : prepareRound deadline r s with
    | mk result after =>
      rw [hround] at h haccounted hready
      cases result with
      | ready arm localTip =>
        obtain rfl := Except.ok.inj (Option.some.inj h)
        exact hready arm localTip rfl
      | refused refusal => cases h
      | again => exact prepareLoop_checked haccounted h

/-! ### The guard -/

theorem foldl_max_le_iff {bound : ℕ} : ∀ {heights : List ℕ} {first : ℕ},
    heights.foldl max first ≤ bound ↔ first ≤ bound ∧ ∀ h ∈ heights, h ≤ bound
  | [], _ => ⟨fun h => ⟨h, fun _ hmem => nomatch hmem⟩, And.left⟩
  | h :: heights, first => by
    rw [List.foldl_cons, foldl_max_le_iff, max_le_iff, List.forall_mem_cons, and_assoc]

/-- The guard passes exactly if every beacon in the queue is within the race. -/
theorem guard_iff {s : Beacons} (hs : Accounted s) (localTip : ℕ) :
    ¬ staleTipMineRefused localTip (windowHighWater s.window s.clock) ↔ WithinRace localTip s.clock s.window := by
  rw [staleTipMineRefused, not_lt, windowHighWater, foldl_max_le_iff, satAdd32]
  constructor
  · rintro ⟨-, hall⟩ o ho hlive
    have hmem : o.height ∈ (s.window.filter fun o => ¬ o.Expired s.clock).map (·.height) :=
      List.mem_map_of_mem (List.mem_filter.mpr ⟨ho, decide_eq_true hlive⟩)
    exact (hall _ hmem).trans (min_le_left _ _)
  · intro hrace
    refine ⟨Nat.zero_le _, fun height hmem => ?_⟩
    obtain ⟨o, ho, rfl⟩ := List.mem_map.mp hmem
    obtain ⟨hwindow, hlive⟩ := List.mem_filter.mp ho
    exact le_min (hrace o hwindow (of_decide_eq_true hlive))
      (Nat.le_sub_one_of_lt (hs.heights o (hs.window o hwindow)))

/-- What was observed is within the race if what is in the queue and what was dropped is. -/
theorem withinRace_observed_iff {s : Beacons} (hs : Accounted s) (localTip : ℕ) :
    WithinRace localTip s.clock s.observed ↔
      WithinRace localTip s.clock s.window ∧ WithinRace localTip s.clock s.dropped := by
  constructor
  · intro hrace
    exact ⟨fun o ho => hrace o (hs.window o ho), fun o ho => hrace o (hs.dropped o ho)⟩
  · rintro ⟨hwindow, hdropped⟩ o ho hlive
    rcases hs.kept o ho with hin | hgone | hexpired
    · exact hwindow o hin hlive
    · exact hdropped o hgone hlive
    · exact absurd hexpired hlive

/-- **The stale-tip guard.** Where the beacon was reachable, the miner goes in racing distance of all beacons
of the window exactly if the arm for a relay gap, when it is the one, finds the highest of the queue in that
distance too, and the queue has not lost a higher one for its length. -/
theorem stale_tip_guard {clock maxWait : ℕ} {prior : List Event} {rounds : List Round} {ready : Ready}
    (h : prepareLocalMining maxWait rounds (prior.foldl Beacons.event (.start clock)) = some (.ok ready))
    (harm : ready.arm ≠ .unreachable) :
    Competitive ready ↔
      (ready.arm = .relayGap →
        ¬ staleTipMineRefused ready.localTip (windowHighWater ready.state.window ready.state.clock)) ∧
      WithinRace ready.localTip ready.state.clock ready.state.dropped := by
  have hchecked := prepareLoop_checked (Accounted.events prior (.start clock)) h
  rw [Competitive, withinRace_observed_iff hchecked.accounted, ← guard_iff hchecked.accounted]
  refine and_congr_left fun _ => ⟨fun hguard _ => hguard, fun hgap => ?_⟩
  by_cases hrelay : ready.arm = .relayGap
  · exact hgap hrelay
  · exact hchecked.guard harm hrelay

local instance hashNeZero : NeZero (2 ^ 256) := ⟨by decide⟩

/-- A round of five seconds: the gateway tells `height`, the local tip is `tip`. -/
def plainRound (height tip : ℕ) (outcome : Converge) : Round :=
  ⟨⟨[], 5 * 10 ^ 9⟩, some ⟨height, 0, true⟩, ⟨[], 0⟩, some outcome, ⟨[], 0⟩, tip, .beaconStale,
      ⟨[], 0⟩, tip, tip, false⟩

/-- Ready after one such round over the observations before. -/
def readyAfter (arm : Arm) (height tip : ℕ) (earlier : List Observation) (lastSeen : ℕ) : Ready :=
  let now : Observation := ⟨5 * 10 ^ 9, height⟩
  ⟨arm, tip, 5 * 10 ^ 9, earlier ++ [now], lastSeen, some (5 * 10 ^ 9, ⟨height, 0, true⟩), now :: earlier, []⟩

theorem stale_tip_guard_at_tip : Competitive (readyAfter .converged 41396 41395 [] 41396) := by
  have h : prepareLocalMining 0 [plainRound 41396 41395 .converged] ([].foldl Beacons.event (.start 0)) =
      some (.ok (readyAfter .converged 41396 41395 [] 41396)) := by decide +kernel
  exact (stale_tip_guard h (by decide)).mpr ⟨fun hgap => absurd hgap (by decide), fun o ho => nomatch ho⟩

/-- The network was seen at 41395, one stale beacon says 41370, and the relay has a gap: the node mines at
41370. -/
theorem stale_tip_guard_relay_gap :
    prepareLocalMining 0 [plainRound 41370 41370 .beaconStale]
        ([.read 0 ⟨41395, 0, true⟩].foldl Beacons.event (.start 0)) =
      some (.ok (readyAfter .relayGap 41370 41370 [⟨0, 41395⟩] 41395)) ∧
    ¬ Competitive (readyAfter .relayGap 41370 41370 [⟨0, 41395⟩] 41395) := by
  refine ⟨by decide +kernel, fun hrace => ?_⟩
  exact absurd (hrace ⟨0, 41395⟩ (by decide +kernel) (by decide +kernel)) (by decide +kernel)

end MinePrep

end Alphanumeric
