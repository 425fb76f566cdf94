/-
# The boot anchor

`src/main.rs`: a booting node asks the gateway for its history of snapshots, takes from it the
highest header that it could hold itself, `best_anchor_from_history`, and deletes its own chain
where it holds another block there, `canonical_reconcile_decision`. The newest snapshot that
states the height decides; of snapshots of one height, the first in the answer does.

Key definitions: `headerAnchor`, `linked`, `bestAnchorFromHistory`, `canonicalReconcileDecision`,
`Newest`, `OrderFree`, `Settled`.
Key theorems: `bestAnchorFromHistory_eq`, `anchor_newest`, `anchor_choice`.
-/
import Alphanumeric.SendAnswers
import Alphanumeric.Lib.FirstBest
import Mathlib

namespace Alphanumeric.Boot

open Gui (Json toAsciiLowercase trim)

/-- `COMMITTED_SPAN_MAX_BLOCKS`. -/
def peerHealWindow : ℕ := 8192

def isAsciiHexdigit (c : Char) : Bool := (hexVal c).isSome

/-! ### The anchor -/

/-- A header of a snapshot, with the snapshot's own height. -/
structure Anchor where
  height : ℕ
  snapshotHeight : ℕ
  hash : Text
deriving DecidableEq

/-- Each header names the hash of the one before it. -/
def linked (headers : List Json) : Bool :=
  (headers.zip headers.tail).all fun pair =>
    match (pair.2.get "prev_hash".toList).bind Json.asStr, (pair.1.get "hash".toList).bind Json.asStr with
    | some childPrev, some parentHash => decide (childPrev = parentHash)
    | _, _ => false

/-- A header that may serve: not above the local tip, and its hash is 64 hex digits. -/
def headerAnchor (localTip snapshotHeight : ℕ) (h : Json) : Option Anchor :=
  match ((h.get "height".toList).bind Json.asU64).filter (· < 2 ^ 32), (h.get "hash".toList).bind Json.asStr with
  | some height, some hash =>
    if localTip < height ∨ textLen hash ≠ 64 ∨ hash.all isAsciiHexdigit = false then none
    else some ⟨height, snapshotHeight, toAsciiLowercase hash⟩
  | _, _ => none

def better (best : Option Anchor) (a : Anchor) : Bool :=
  match best with
  | none => true
  | some b => decide (b.height < a.height) || decide (a.height = b.height) && decide
      (b.snapshotHeight < a.snapshotHeight)

def snapshotHeight (entry : Json) : ℕ := ((entry.get "height".toList).bind Json.asU64).getD 0

/-- One entry of the history. -/
def visitEntry (localTip : ℕ) (best : Option Anchor) (entry : Json) : Option Anchor :=
  match entry.get "headers".toList with
  | some (.array headers) =>
    if linked headers then
      headers.foldl (fun best h =>
        match headerAnchor localTip (snapshotHeight entry) h with
        | some a => if better best a then some a else best
        | none => best) best
    else best
  | _ => best

/-- The entries of an answer. -/
def historyOf (body : Json) : List Json :=
  match body.get "history".toList with
  | some (.array history) => history
  | _ => []

/-- An answer without a history has no anchor, as one with an empty history has none. -/
def bestAnchorFromHistory (body : Json) (localTip : ℕ) : Option (ℕ × Text) :=
  ((historyOf body).foldl (visitEntry localTip) none).map fun a => (a.height, a.hash)

/-! ### The verdict -/

inductive CanonicalReconcile where
  | inSyncOrUnknown
  | diverged (local_ : Text) (canonicalHeight : ℕ) (canonicalHash : Text)
deriving DecidableEq

/-- What a manifest says about the canonical tip. -/
structure BootstrapManifestPointer where
  height : Option ℕ
  tipHash : Option Text

/-- What the node finds under its own path. -/
structure LocalDb where
  marker : Bool
  blockHash : ℕ → Option Hash
  tipHeight : Option ℕ

def localBlockHashAt (db : LocalDb) (height : ℕ) : Option Text := (db.blockHash height).map fun h => hexEncode h.bytes

def eqIgnoreAsciiCase (a b : Text) : Bool := decide (toAsciiLowercase a = toAsciiLowercase b)

def canonicalReconcileDecision (db : LocalDb) (manifest : Option BootstrapManifestPointer)
    (liveBeaconHeight : Option ℕ) (canonicalAnchor : Option (ℕ × Text)) (localTipHint : Option ℕ) :
    CanonicalReconcile :=
  match manifest with
  | none => .inSyncOrUnknown
  | some m =>
    match m.height, m.tipHash with
    | some height, some tipHash =>
      let canonicalHash := toAsciiLowercase (trim tipHash)
      let canonicalHeight := height % 2 ^ 32
      if db.marker then .diverged "forced re-bootstrap (runtime divergence exit)".toList height canonicalHash
      else
        let liveHeight := max (liveBeaconHeight.getD 0) canonicalHeight
        match localBlockHashAt db canonicalHeight with
        | some localHash =>
          if eqIgnoreAsciiCase localHash canonicalHash then .inSyncOrUnknown
          else
            .diverged ("forked at ".toList ++ Nat.toDigits 10 canonicalHeight ++ " (local ".toList ++
              localHash.take 12 ++ "…)".toList) height canonicalHash
        | none =>
          let localTip := (localTipHint.or db.tipHeight).getD 0
          let forked : Option CanonicalReconcile :=
            match canonicalAnchor with
            | none => none
            | some (anchorHeight, anchorHash) =>
              if anchorHeight ≤ localTip then
                match localBlockHashAt db anchorHeight with
                | none => none
                | some localHash =>
                  if eqIgnoreAsciiCase localHash anchorHash then none
                  else
                    some (.diverged ("behind and forked: local block at ".toList ++ Nat.toDigits 10 anchorHeight ++
                      " is ".toList ++ localHash.take 12 ++ "… but canonical is ".toList ++ anchorHash.take 12 ++
                      "…".toList) height canonicalHash)
              else none
          match forked with
          | some verdict => verdict
          | none =>
            if liveHeight ≤ min (localTip + peerHealWindow) (2 ^ 32 - 1) then .inSyncOrUnknown
            else
              .diverged ("tip ".toList ++ Nat.toDigits 10 localTip ++ " (".toList ++
                Nat.toDigits 10 (liveHeight - localTip) ++ " behind live tip ".toList ++
                Nat.toDigits 10 liveHeight ++ ")".toList) height canonicalHash
    | _, _ => .inSyncOrUnknown

/-! ### The first of the best -/

/-- What an entry states: the anchors of its headers, if they chain. -/
def stated (localTip : ℕ) (entry : Json) : List Anchor :=
  match entry.get "headers".toList with
  | some (.array headers) =>
    if linked headers then headers.filterMap (headerAnchor localTip (snapshotHeight entry)) else []
  | _ => []

def Anchor.rank (a : Anchor) : ℕ ×ₗ ℕ := toLex (a.height, a.snapshotHeight)

theorem rank_lt_iff {a b : Anchor} : a.rank < b.rank ↔
    a.height < b.height ∨ a.height = b.height ∧ a.snapshotHeight < b.snapshotHeight :=
  Prod.Lex.toLex_lt_toLex

theorem rank_le_iff {a b : Anchor} : a.rank ≤ b.rank ↔
    a.height < b.height ∨ a.height = b.height ∧ a.snapshotHeight ≤ b.snapshotHeight :=
  Prod.Lex.toLex_le_toLex

theorem visitEntry_eq (localTip : ℕ) (best : Option Anchor) (entry : Json) : visitEntry localTip best entry =
    (stated localTip entry).foldl (List.argAux fun b c => Anchor.rank c < Anchor.rank b) best := by
  have hstep : ∀ (best : Option Anchor) (a : Anchor), (if better best a then some a else best) =
      List.argAux (fun b c => Anchor.rank c < Anchor.rank b) best a := by
    intro best a
    cases best with
    | none => rfl
    | some b =>
      unfold better List.argAux
      simp only [Bool.or_eq_true, Bool.and_eq_true, decide_eq_true_eq, rank_lt_iff, eq_comm (a := a.height)]
  unfold visitEntry stated
  split
  · split
    · rw [List.foldl_filterMap]
      refine congrFun (congrArg₂ List.foldl (funext fun best => funext fun h => ?_) rfl) _
      cases headerAnchor localTip (snapshotHeight entry) h with
      | none => rfl
      | some a => exact hstep best a
    · rfl
  · rfl

/-- **The nested loops find the first of the best.** -/
theorem bestAnchorFromHistory_eq (body : Json) (localTip : ℕ) : bestAnchorFromHistory body localTip =
    (FirstBest.best (stated localTip) Anchor.rank (historyOf body)).map fun a => (a.height, a.hash) := by
  unfold bestAnchorFromHistory FirstBest.best List.argmax
  rw [List.foldl_flatMap, funext fun best => funext fun entry => visitEntry_eq localTip best entry]

theorem stated_snapshotHeight {localTip : ℕ} {entry : Json} {a : Anchor} (h : a ∈ stated localTip entry) :
    a.snapshotHeight = snapshotHeight entry := by
  unfold stated at h
  split at h
  · split at h
    · obtain ⟨header, -, hheader⟩ := List.mem_filterMap.mp h
      unfold headerAnchor at hheader
      split at hheader
      · split at hheader
        · cases hheader
        · rw [← Option.some_inj.mp hheader]
      · cases hheader
    · cases h
  · cases h

/-- An entry states the highest height of all, and no newer snapshot states it; `a` is the first
header of the entry that does. -/
structure Newest (localTip : ℕ) (history : List Json) (entry : Json) (a : Anchor) : Prop where
  first : ((stated localTip entry).find? fun b => decide (b.height = a.height)) = some a
  highest : ∀ e ∈ history, ∀ b ∈ stated localTip e, b.height ≤ a.height
  newest : ∀ e ∈ history, ∀ b ∈ stated localTip e, b.height = a.height → snapshotHeight e ≤ snapshotHeight entry

section Choice

variable {localTip : ℕ} {history : List Json} {entry : Json} {a : Anchor}

theorem find?_height (hmem : a ∈ stated localTip entry) :
    ((stated localTip entry).find? fun b => decide (b.rank = a.rank)) =
      (stated localTip entry).find? fun b => decide (b.height = a.height) := by
  refine List.find?_congr fun b hb => ?_
  have hsame : b.snapshotHeight = a.snapshotHeight :=
    (stated_snapshotHeight hb).trans (stated_snapshotHeight hmem).symm
  have hiff : b.rank = a.rank ↔ b.height = a.height :=
    ⟨fun h => congrArg (fun r => (ofLex r).1) h, fun h => by rw [Anchor.rank, Anchor.rank, h, hsame]⟩
  simp only [hiff]

theorem newest_of_top (h : FirstBest.Top (stated localTip) Anchor.rank history entry a) :
    Newest localTip history entry a where
  first := by
    rw [← find?_height (List.argmax_mem h.own)]
    exact FirstBest.find?_of_argmax h.own
  highest e he b hb := by
    rcases rank_le_iff.mp (h.all e he b hb) with hlt | ⟨heq, -⟩
    · exact hlt.le
    · exact heq.le
  newest e he b hb hheight := by
    rcases rank_le_iff.mp (h.all e he b hb) with hlt | ⟨-, hle⟩
    · exact absurd hheight hlt.ne
    · rwa [stated_snapshotHeight hb, stated_snapshotHeight (List.argmax_mem h.own)] at hle

theorem top_of_newest (hentry : entry ∈ history) (h : Newest localTip history entry a) :
    FirstBest.Top (stated localTip) Anchor.rank history entry a := by
  have hmem : a ∈ stated localTip entry := List.mem_of_find?_eq_some h.first
  have hall : ∀ e ∈ history, ∀ b ∈ stated localTip e, b.rank ≤ a.rank := by
    intro e he b hb
    refine rank_le_iff.mpr ((h.highest e he b hb).lt_or_eq.imp id fun heq => ⟨heq, ?_⟩)
    rw [stated_snapshotHeight hb, stated_snapshotHeight hmem]
    exact h.newest e he b hb heq
  refine ⟨?_, hall⟩
  cases hown : (stated localTip entry).argmax Anchor.rank with
  | none =>
    rw [List.argmax_eq_none] at hown
    rw [hown] at hmem
    cases hmem
  | some m =>
    have hm := List.argmax_mem hown
    have hrank : m.rank = a.rank := le_antisymm (hall entry hentry m hm) (List.le_of_mem_argmax hmem hown)
    have hfirst := FirstBest.find?_of_argmax hown
    rw [hrank, find?_height hmem, h.first] at hfirst
    exact hfirst.symm

/-- **The anchor is one of the newest**: the highest height, from the newest snapshot that states it. -/
theorem anchor_newest {body : Json} {height : ℕ} {hash : Text}
    (h : bestAnchorFromHistory body localTip = some (height, hash)) :
    ∃ entry ∈ historyOf body, ∃ a, Newest localTip (historyOf body) entry a ∧ a.height = height ∧ a.hash = hash := by
  rw [bestAnchorFromHistory_eq] at h
  obtain ⟨a, ha, heq⟩ := Option.map_eq_some_iff.mp h
  obtain ⟨entry, hentry, htop⟩ := FirstBest.top_of_best ha
  obtain ⟨hheight, hhash⟩ := Prod.mk.inj heq
  exact ⟨entry, hentry, a, newest_of_top htop, hheight, hhash⟩

end Choice

/-- The anchor, and every verdict on it, is the same for every order of the history. -/
def OrderFree (body : Json) (localTip : ℕ) : Prop :=
  ∀ body' : Json, (historyOf body').Perm (historyOf body) →
    bestAnchorFromHistory body' localTip = bestAnchorFromHistory body localTip ∧
      ∀ (db : LocalDb) (manifest : Option BootstrapManifestPointer) (beacon hint : Option ℕ),
        canonicalReconcileDecision db manifest beacon (bestAnchorFromHistory body' localTip) hint =
          canonicalReconcileDecision db manifest beacon (bestAnchorFromHistory body localTip) hint

/-- The newest entries that state the highest height state one hash for it. -/
def Settled (body : Json) (localTip : ℕ) : Prop :=
  ∀ e ∈ historyOf body, ∀ e' ∈ historyOf body, ∀ a a', Newest localTip (historyOf body) e a →
    Newest localTip (historyOf body) e' a' → a.hash = a'.hash

/-- **The boot anchor.** It is the highest height that a chaining entry states, with the hash that the
newest such entry states first; and it does not depend on the order of the answer exactly if the
newest entries that state this height agree on its hash. -/
theorem anchor_choice (body : Json) (localTip : ℕ) :
    (∀ height hash, bestAnchorFromHistory body localTip = some (height, hash) →
      ∃ entry ∈ historyOf body, ∃ a, Newest localTip (historyOf body) entry a ∧ a.height = height ∧ a.hash = hash) ∧
    (OrderFree body localTip ↔ Settled body localTip) := by
  refine ⟨fun height hash h => anchor_newest h, ?_⟩
  have hiff := @FirstBest.order_free_iff _ _ _ _ _ Anchor.rank (stated localTip) (historyOf body)
    fun a => (a.height, a.hash)
  constructor
  · intro hfree e he e' he' a a' ha ha'
    have hsame : ∀ history' : List Json, history'.Perm (historyOf body) →
        (FirstBest.best (stated localTip) Anchor.rank history').map (fun a => (a.height, a.hash)) =
          (FirstBest.best (stated localTip) Anchor.rank (historyOf body)).map fun a => (a.height, a.hash) := by
      intro history' hperm
      have hbody : historyOf (.object [("history".toList, .array history')]) = history' := rfl
      have hbest := (hfree (.object [("history".toList, .array history')]) (hbody.symm ▸ hperm)).1
      rwa [bestAnchorFromHistory_eq, bestAnchorFromHistory_eq, hbody] at hbest
    exact congrArg Prod.snd (hiff.mp hsame e he e' he' a a' (top_of_newest he ha) (top_of_newest he' ha'))
  · intro hsettled body' hperm
    have hbest : bestAnchorFromHistory body' localTip = bestAnchorFromHistory body localTip := by
      rw [bestAnchorFromHistory_eq, bestAnchorFromHistory_eq]
      refine hiff.mpr (fun e he e' he' a a' ha ha' => ?_) _ hperm
      have hheight : a.height = a'.height := by
        refine le_antisymm ?_ ?_
        · exact (newest_of_top ha').highest e he a (List.argmax_mem ha.own)
        · exact (newest_of_top ha).highest e' he' a' (List.argmax_mem ha'.own)
      rw [hheight, hsettled e he e' he' a a' (newest_of_top ha) (newest_of_top ha')]
    exact ⟨hbest, fun db manifest beacon hint => by rw [hbest]⟩

/-! ### Two snapshots of one height -/

/-- A snapshot of height 100 that states one header, at height 90. -/
def snapshot (digit : Char) : Json :=
  .object [("height".toList, .number "100".toList (some 100)), ("headers".toList, .array [.object
    [("height".toList, .number "90".toList (some 90)), ("hash".toList, .string (List.replicate 64 digit))]])]

def answer (history : List Json) : Json := .object [("history".toList, .array history)]

local instance hashNeZero : NeZero (2 ^ 256) := ⟨by decide⟩

/-- A chain up to 95 that holds the block `aa…` at height 90. -/
def bootDb : LocalDb where
  marker := false
  blockHash height :=
    if height = 90 then some (Fin.ofNat _ 0xaaaaaaaaaaaaaaaaaaaaaaaaaaaaaaaaaaaaaaaaaaaaaaaaaaaaaaaaaaaaaaaa) else none
  tipHeight := some 95

/-- Two snapshots of one height state different hashes; which comes first decides whether the chain is
kept. -/
theorem order_decides :
    bestAnchorFromHistory (answer [snapshot 'a', snapshot 'b']) 95 ≠
        bestAnchorFromHistory (answer [snapshot 'b', snapshot 'a']) 95 ∧
      ¬ OrderFree (answer [snapshot 'a', snapshot 'b']) 95 ∧
      canonicalReconcileDecision bootDb (some ⟨some 150, some []⟩) none
          (bestAnchorFromHistory (answer [snapshot 'a', snapshot 'b']) 95) none = .inSyncOrUnknown ∧
      canonicalReconcileDecision bootDb (some ⟨some 150, some []⟩) none
          (bestAnchorFromHistory (answer [snapshot 'b', snapshot 'a']) 95) none ≠ .inSyncOrUnknown := by
  have hne : bestAnchorFromHistory (answer [snapshot 'a', snapshot 'b']) 95 ≠
      bestAnchorFromHistory (answer [snapshot 'b', snapshot 'a']) 95 := by decide +kernel
  refine ⟨hne, fun h => hne (h (answer [snapshot 'b', snapshot 'a']) ?_).1.symm, by decide +kernel, by decide +kernel⟩
  exact List.Perm.swap _ _ []

end Alphanumeric.Boot
