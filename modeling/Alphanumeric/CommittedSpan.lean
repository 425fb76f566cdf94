/-
# Catching up on a beacon-committed span

`fetch_beacon_committed_span` asks one peer for the blocks between the local tip and a
signed beacon, a window of heights a request, from the top window down. Inside a window
it walks down from the hash the block above demands. The peer answers with the loop of
`NetworkEvent::ChainRequest`, which fills a window from its bottom and stops before the
reply outgrows a frame.

What comes back is proved against the beacon whatever the peer answers. An honest peer
is not enough, though: a window whose blocks do not fit one reply comes back without its
top, the walk finds nothing to start on, and the whole span is given up.

The model reads `size` for the encoded length of a block; the request is a question to
the environment (`Node`), three times at most.

Key definitions: `chainRequest`, `requestBlocks`, `fetchBeaconCommittedSpan`, `Committed`,
`WindowsFit`.
Key theorems: `spanRounds_sound`, `spanRounds_honest`, `committed_span_exact`.
-/
import Alphanumeric.Converge
import Alphanumeric.CompactRelay

namespace Alphanumeric

open Proc

def maxGetblocksSpan : ℕ := 256
def committedSpanMaxBlocks : ℕ := 8192
def committedSpanMaxBytes : ℕ := 64 * 1024 * 1024
def chainServeChunk : ℕ := 32
def getBlocksRetries : ℕ := 3
def u32Max : ℕ := 2 ^ 32 - 1

/-- `a ..= b`. -/
def heights (a b : ℕ) : List ℕ := List.range' a (b + 1 - a)

variable (E : Env) (size : Block → ℕ)

/-! ### The server -/

/-- The blocks of one chunk, with the bytes served so far; `none` once the reply is full. -/
def serveChunk (get : ℕ → Option Block) : List ℕ → List Block × ℕ → List Block × Option ℕ
  | [], (out, bytes) => (out, some bytes)
  | h :: hs, (out, bytes) =>
    match get h with
    | none => serveChunk get hs (out, bytes)
    | some b =>
      if compactSafeAssembledBytes < bytes + size b then (out, none)
      else serveChunk get hs (out ++ [b], bytes + size b)

/-- The chunks from `idx` on; each takes at least one height, so the heights left are enough fuel. -/
def serveChunks (get : ℕ → Option Block) (stop : ℕ) : ℕ → ℕ → List Block × ℕ → List Block
  | 0, _, (out, _) => out
  | fuel + 1, idx, (out, bytes) =>
    if stop < idx then out
    else
      let chunkEnd := min (idx + (chainServeChunk - 1)) stop
      match serveChunk size get (heights idx chunkEnd) (out, bytes) with
      | (out, none) => out
      | (out, some bytes) => serveChunks get stop fuel (chunkEnd + 1) (out, bytes)

/-- The answer to `GetBlocks`, from a chain that does not change meanwhile. -/
def chainRequest (get : ℕ → Option Block) (start stop : ℕ) : List Block :=
  serveChunks size get stop (stop + 1 - start) start ([], 0)

/-! ### The client -/

/-- An error and a reply of another kind are tried again. -/
def requestBlocksBatch (start stop : ℕ) : ℕ → NodeM (Option (List Block))
  | 0 => return none
  | retries + 1 => do
    match ← peerBlocks start stop with
    | none => requestBlocksBatch start stop retries
    | some blocks => return some (blocks.filter fun b => start ≤ b.index && b.index ≤ stop && bodyOk E b)

/-- Batch after batch, each from behind the highest block the last one brought. -/
def requestBatches (stop : ℕ) : ℕ → ℕ → List Block → NodeM (Option (List Block))
  | 0, _, all => return some all
  | fuel + 1, start, all => do
    if stop < start then return some all
    match ← requestBlocksBatch E start (min (start + (maxGetblocksSpan - 1)) stop) getBlocksRetries with
    | none => return none
    | some batch =>
      match (batch.map (·.index)).max? with
      | none => return some all
      | some h =>
        if h = u32Max then return some (all ++ batch)
        else requestBatches stop fuel (h + 1) (all ++ batch)

@[irreducible] def requestBlocks (start stop : ℕ) : NodeM (Option (List Block)) := do
  if stop < start then return none
  if maxGetblocksSpan ≤ stop - start then
    let all ← requestBatches E stop (stop + 1 - start) start []
    return all.map fun blocks =>
      (blocks.insertionSort fun a b => a.index ≤ b.index).destutter fun a b => a.index ≠ b.index
  else requestBlocksBatch E start stop getBlocksRetries

/-- Where the walk stands: the blocks it has, ascending, their bytes, and the hash the next must have. -/
structure SpanState where
  expectedHash : Hash
  collected : List Block
  bufferedBytes : ℕ

inductive SpanOutcome where
  | span (blocks : List Block)
  | refused
  | spinning
deriving DecidableEq, Repr

/-- A map filled from a list holds the last entry of a key. -/
def byHeight (blocks : List Block) (h : ℕ) : Option Block := blocks.reverse.find? fun b => b.index = h

def committedLinkOk (b : Block) (demanded : Hash) : Bool :=
  b.hash = demanded && calculateHashForBlock E b = b.hash

/-- The walk through one window with `left` heights above the local tip to go; what is left after it. -/
def spanDown (window : ℕ → Option Block) (localTip : ℕ) : ℕ → SpanState → Option (ℕ × SpanState)
  | 0, w => some (0, w)
  | left + 1, w =>
    match window (localTip + (left + 1)) with
    | none => some (left + 1, w)
    | some b =>
      if !committedLinkOk E b w.expectedHash || !verifyPowMeetsFloor E b then none
      else if committedSpanMaxBytes < w.bufferedBytes + size b then none
      else spanDown window localTip left ⟨b.previousHash, b :: w.collected, w.bufferedBytes + size b⟩

/-- The first height of the window under `needed`. -/
def spanWindowStart (localTip needed : ℕ) : ℕ := max (needed - (maxGetblocksSpan - 1)) (localTip + 1)

/-- The rounds; `spinning` is out of fuel. -/
def spanRounds (localTip : ℕ) (localTipHash : Hash) : ℕ → ℕ → SpanState → NodeM SpanOutcome
  | 0, _, _ => return .spinning
  | fuel + 1, left, w => do
    if left = 0 then
      if w.expectedHash = localTipHash then return .span w.collected else return .refused
    else if ← sliceExpired then return .refused
    else
      let needed := localTip + left
      let windowStart := spanWindowStart localTip needed
      match ← requestBlocks E windowStart needed with
      | none => return .refused
      | some blocks =>
        let window := byHeight (blocks.filter fun b => windowStart ≤ b.index && b.index ≤ needed)
        match spanDown E size window localTip left w with
        | none => return .refused
        | some (left', w') =>
          if left' = left then return .refused else spanRounds localTip localTipHash fuel left' w'

def fetchBeaconCommittedSpan (fuel : ℕ) (beacon : TipBeaconInfo) (localTip : ℕ) (localTipHash : Hash) :
    NodeM SpanOutcome :=
  if beacon.height ≤ localTip then return .refused
  else if committedSpanMaxBlocks < beacon.height - localTip then return .refused
  else spanRounds E size localTip localTipHash fuel (beacon.height - localTip) ⟨beacon.hash, [], 0⟩

/-! ### What is proved against the beacon -/

/-- The block's parent is the one before it. -/
def LinksTo (a b : Block) : Prop := b.previousHash = a.hash

/-- The span from the local tip to the beacon. -/
structure Committed (beacon : TipBeaconInfo) (localTip : ℕ) (localTipHash : Hash) (span : List Block) : Prop where
  numbered : span.map (·.index) = heights (localTip + 1) beacon.height
  bodies : ∀ b ∈ span, bodyOk E b = true
  linked : span.IsChain LinksTo
  top : span.getLast?.map (·.hash) = some beacon.hash
  foot : span.head?.map (·.previousHash) = some localTipHash
  fewBlocks : span.length ≤ committedSpanMaxBlocks
  fewBytes : (span.map size).sum ≤ committedSpanMaxBytes

/-- The blocks above `needed` are there, and the next must have the hash the last of them names. -/
structure Walked (beacon : TipBeaconInfo) (needed : ℕ) (w : SpanState) : Prop where
  numbered : w.collected.map (·.index) = heights (needed + 1) beacon.height
  bodies : ∀ b ∈ w.collected, bodyOk E b = true
  linked : w.collected.IsChain LinksTo
  top : w.collected ≠ [] → w.collected.getLast?.map (·.hash) = some beacon.hash
  next : (w.collected.head?.map (·.previousHash)).getD beacon.hash = w.expectedHash
  bytes : (w.collected.map size).sum = w.bufferedBytes
  fits : w.bufferedBytes ≤ committedSpanMaxBytes

variable {E size}

theorem heights_succ {a b : ℕ} (h : a ≤ b) : heights a b = a :: heights (a + 1) b := by
  have : b + 1 - a = (b + 1 - (a + 1)) + 1 := by omega
  rw [heights, this, List.range'_succ, heights]

theorem heights_eq_nil {a b : ℕ} (h : b < a) : heights a b = [] := by
  rw [heights, Nat.sub_eq_zero_of_le (by omega), List.range'_zero]

theorem mem_heights {a b h : ℕ} : h ∈ heights a b ↔ a ≤ h ∧ h ≤ b := by
  rw [heights, List.mem_range'_1]
  omega

theorem length_heights (a b : ℕ) : (heights a b).length = b + 1 - a := by
  rw [heights, List.length_range']

theorem heights_append {a b c : ℕ} (h : a ≤ b + 1) (h' : b ≤ c) : heights a b ++ heights (b + 1) c = heights a c := by
  have h₁ : a + (b + 1 - a) = b + 1 := by omega
  have h₂ : c + 1 - a = (b + 1 - a) + (c + 1 - (b + 1)) := by omega
  rw [heights, heights, heights, h₂, ← List.range'_append_1, h₁]

theorem byHeight_index {blocks : List Block} {h : ℕ} {b : Block} (hb : byHeight blocks h = some b) :
    b ∈ blocks ∧ b.index = h := by
  have hmem := List.mem_of_find?_eq_some hb
  have hindex := List.find?_some hb
  exact ⟨List.mem_reverse.mp hmem, by simpa using hindex⟩

theorem Walked.start (beacon : TipBeaconInfo) : Walked E size beacon beacon.height ⟨beacon.hash, [], 0⟩ where
  numbered := by rw [heights_eq_nil (by omega)]; rfl
  bodies := by simp
  linked := .nil
  top h := absurd rfl h
  next := rfl
  bytes := rfl
  fits := Nat.zero_le _

/-- One link down. -/
theorem Walked.link {beacon : TipBeaconInfo} {needed : ℕ} {w : SpanState} {b : Block}
    (h : Walked E size beacon (needed + 1) w) (hle : needed + 1 ≤ beacon.height) (hindex : b.index = needed + 1)
    (hlink : committedLinkOk E b w.expectedHash = true) (hpow : verifyPowMeetsFloor E b = true)
    (hfits : w.bufferedBytes + size b ≤ committedSpanMaxBytes) :
    Walked E size beacon needed ⟨b.previousHash, b :: w.collected, w.bufferedBytes + size b⟩ := by
  simp only [committedLinkOk, Bool.and_eq_true, decide_eq_true_eq] at hlink
  obtain ⟨hhash, hself⟩ := hlink
  refine ⟨?_, ?_, ?_, ?_, rfl, ?_, hfits⟩
  · rw [heights_succ hle, List.map_cons, h.numbered, hindex]
  · intro c hc
    rcases List.mem_cons.mp hc with rfl | hold
    · simp [bodyOk, hself, hpow]
    · exact h.bodies c hold
  · rw [List.isChain_cons]
    refine ⟨?_, h.linked⟩
    intro c hc
    have hnext := h.next
    rw [Option.mem_def.mp hc] at hnext
    exact hnext.trans hhash.symm
  · intro _
    have hnext := h.next
    cases hrest : w.collected with
    | nil =>
      rw [hrest] at hnext
      simp only [List.getLast?_singleton, Option.map_some, Option.some.injEq]
      exact hhash.trans hnext.symm
    | cons c rest =>
      have htop := h.top (by simp [hrest])
      rw [hrest] at htop
      rw [List.getLast?_cons_cons]
      exact htop
  · simp only [List.map_cons, List.sum_cons, h.bytes]
    omega

/-- A walk through one window keeps what was proved and never goes up. -/
theorem spanDown_walked {beacon : TipBeaconInfo} {localTip : ℕ} {blocks : List Block} :
    ∀ {left left' : ℕ} {w w' : SpanState}, localTip + left ≤ beacon.height →
      Walked E size beacon (localTip + left) w →
      spanDown E size (byHeight blocks) localTip left w = some (left', w') →
      left' ≤ left ∧ Walked E size beacon (localTip + left') w'
  | 0, left', w, w', _, h, hdown => by
    simp only [spanDown, Option.some.injEq, Prod.mk.injEq] at hdown
    obtain ⟨rfl, rfl⟩ := hdown
    exact ⟨le_rfl, h⟩
  | left + 1, left', w, w', hle, h, hdown => by
    unfold spanDown at hdown
    split at hdown
    · simp only [Option.some.injEq, Prod.mk.injEq] at hdown
      obtain ⟨rfl, rfl⟩ := hdown
      exact ⟨le_rfl, h⟩
    · rename_i b hb
      split_ifs at hdown with hbad hbytes
      simp only [Bool.or_eq_true, Bool.not_eq_true', not_or, Bool.not_eq_false] at hbad
      have hlink := Walked.link h hle (byHeight_index hb).2 hbad.1 hbad.2 (by omega)
      obtain ⟨hle', hw'⟩ := spanDown_walked (by omega) hlink hdown
      exact ⟨by omega, hw'⟩

theorem Walked.committed {beacon : TipBeaconInfo} {localTip : ℕ} {localTipHash : Hash} {w : SpanState}
    (h : Walked E size beacon localTip w) (hlt : localTip < beacon.height)
    (hfew : beacon.height - localTip ≤ committedSpanMaxBlocks) (hfoot : w.expectedHash = localTipHash) :
    Committed E size beacon localTip localTipHash w.collected := by
  have hlength : w.collected.length = beacon.height - localTip := by
    have := congrArg List.length h.numbered
    rw [List.length_map, length_heights] at this
    omega
  have hne : w.collected ≠ [] := by
    intro hnil
    rw [hnil] at hlength
    simp only [List.length_nil] at hlength
    omega
  refine ⟨h.numbered, h.bodies, h.linked, h.top hne, ?_, by omega, by rw [h.bytes]; exact h.fits⟩
  obtain ⟨b, rest, hcons⟩ := List.exists_cons_of_ne_nil hne
  have hnext := h.next
  rw [hcons] at hnext ⊢
  simp only [List.head?_cons, Option.map_some, Option.getD_some, Option.some.injEq] at hnext ⊢
  exact hnext.trans hfoot

/-- Whatever the peer answers, the rounds end and a span is a committed one. -/
theorem spanRounds_sound {ans : ∀ q, Answer q → Prop} {beacon : TipBeaconInfo} {localTip : ℕ}
    {localTipHash : Hash} (hlt : localTip < beacon.height)
    (hfew : beacon.height - localTip ≤ committedSpanMaxBlocks) :
    ∀ {fuel left : ℕ} {w : SpanState} {s : NodeState}, left < fuel → localTip + left ≤ beacon.height →
      Walked E size beacon (localTip + left) w →
      Alone ans (spanRounds E size localTip localTipHash fuel left w)
        (fun r _ => r ≠ .spinning ∧
          ∀ span, r = .span span → Committed E size beacon localTip localTipHash span) s
  | 0, left, w, s, hfuel, _, _ => by omega
  | fuel + 1, left, w, s, hfuel, hle, h => by
    unfold spanRounds
    by_cases hzero : left = 0
    · subst hzero
      rw [if_pos rfl]
      by_cases hfoot : w.expectedHash = localTipHash
      · rw [if_pos hfoot]
        refine ⟨by simp, ?_⟩
        intro span hspan
        rw [← SpanOutcome.span.inj hspan]
        exact h.committed hlt hfew hfoot
      · rw [if_neg hfoot]
        exact ⟨by simp, by simp⟩
    · rw [if_neg hzero]
      refine holds_bind.mpr (holds_query.mpr fun expired _ => ?_)
      split
      · exact ⟨by simp, by simp⟩
      · dsimp only
        -- Any reply will do.
        refine alone_bind fun reply t => ?_
        split
        · exact ⟨by simp, by simp⟩
        · split
          · exact ⟨by simp, by simp⟩
          · rename_i left' w' hdown
            obtain ⟨hle', hw'⟩ := spanDown_walked hle h hdown
            by_cases hsame : left' = left
            · rw [if_pos hsame]
              exact ⟨by simp, by simp⟩
            · rw [if_neg hsame]
              exact spanRounds_sound hlt hfew (by omega) (by omega) hw'

/-! ### An honest peer -/

/-- The beacon's chain above the local tip. -/
structure Canonical (E : Env) (chain : ℕ → Block) (beacon : TipBeaconInfo) (localTip : ℕ)
    (localTipHash : Hash) : Prop where
  ahead : localTip < beacon.height
  numbered : ∀ h, localTip < h → h ≤ beacon.height → (chain h).index = h
  bodies : ∀ h, localTip < h → h ≤ beacon.height → bodyOk E (chain h) = true
  linked : ∀ h, localTip < h → h < beacon.height → (chain (h + 1)).previousHash = (chain h).hash
  top : (chain beacon.height).hash = beacon.hash
  foot : (chain (localTip + 1)).previousHash = localTipHash

/-- The bytes of the blocks from `a` to `b`. -/
def spanBytes (size : Block → ℕ) (chain : ℕ → Block) (a b : ℕ) : ℕ :=
  ((heights a b).map fun h => size (chain h)).sum

/-- Every window, counted down from the beacon, fits one reply. -/
def WindowsFit (size : Block → ℕ) (chain : ℕ → Block) (beacon : TipBeaconInfo) (localTip : ℕ) : Prop :=
  ∀ top, localTip < top → top ≤ beacon.height → (beacon.height - top) % maxGetblocksSpan = 0 →
    spanBytes size chain (spanWindowStart localTip top) top ≤ compactSafeAssembledBytes

/-- The peer serves `get` with the server's loop, and the slice does not expire. -/
def honest (size : Block → ℕ) (get : ℕ → Option Block) : ∀ q, Answer q → Prop
  | .peerBlocks start stop, r => r = some (chainRequest size get start stop)
  | .sliceExpired, r => r = false
  | _, _ => True

variable {get : ℕ → Option Block} {chain : ℕ → Block}

theorem serveChunk_all :
    ∀ (hs : List ℕ) (out : List Block) (bytes : ℕ), (∀ h ∈ hs, get h = some (chain h)) →
      bytes + (hs.map fun h => size (chain h)).sum ≤ compactSafeAssembledBytes →
      serveChunk size get hs (out, bytes) =
        (out ++ hs.map chain, some (bytes + (hs.map fun h => size (chain h)).sum))
  | [], out, bytes, _, _ => by simp [serveChunk]
  | h :: hs, out, bytes, hget, hfits => by
    rw [List.map_cons, List.sum_cons] at hfits
    have hhere := hget h (List.mem_cons_self ..)
    have ih := serveChunk_all hs (out ++ [chain h]) (bytes + size (chain h))
      (fun x hx => hget x (List.mem_cons_of_mem _ hx)) (by omega)
    rw [serveChunk, hhere]
    dsimp only
    rw [if_neg (by omega), ih, List.map_cons, List.map_cons, List.sum_cons, List.append_assoc,
      List.singleton_append, Nat.add_assoc]

theorem serveChunk_cut :
    ∀ (hs : List ℕ) (out : List Block) (bytes : ℕ), (∀ h ∈ hs, get h = some (chain h)) →
      bytes ≤ compactSafeAssembledBytes →
      compactSafeAssembledBytes < bytes + (hs.map fun h => size (chain h)).sum →
      ∃ k < hs.length, serveChunk size get hs (out, bytes) = (out ++ (hs.take k).map chain, none)
  | [], out, bytes, _, hle, hcut => by
    simp only [List.map_nil, List.sum_nil] at hcut
    omega
  | h :: hs, out, bytes, hget, hle, hcut => by
    rw [List.map_cons, List.sum_cons] at hcut
    have hhere := hget h (List.mem_cons_self ..)
    rw [serveChunk, hhere]
    dsimp only
    by_cases hfull : compactSafeAssembledBytes < bytes + size (chain h)
    · rw [if_pos hfull]
      exact ⟨0, by simp, by simp⟩
    · rw [if_neg hfull]
      obtain ⟨k, hk, hserve⟩ := serveChunk_cut hs (out ++ [chain h])
        (bytes + size (chain h)) (fun x hx => hget x (List.mem_cons_of_mem _ hx)) (by omega) (by omega)
      refine ⟨k + 1, by simpa using hk, ?_⟩
      rw [hserve, List.take_succ_cons, List.map_cons, List.append_assoc, List.singleton_append]

theorem spanBytes_append (size : Block → ℕ) (chain : ℕ → Block) {a b c : ℕ} (h : a ≤ b + 1) (h' : b ≤ c) :
    spanBytes size chain a b + spanBytes size chain (b + 1) c = spanBytes size chain a c := by
  rw [spanBytes, spanBytes, spanBytes, ← heights_append h h', List.map_append, List.sum_append]

theorem serveChunks_all {stop : ℕ} :
    ∀ (fuel idx : ℕ) (out : List Block) (bytes : ℕ), stop + 1 - idx ≤ fuel →
      (∀ h ∈ heights idx stop, get h = some (chain h)) →
      bytes + spanBytes size chain idx stop ≤ compactSafeAssembledBytes →
      serveChunks size get stop fuel idx (out, bytes) = out ++ (heights idx stop).map chain
  | 0, idx, out, bytes, hfuel, _, _ => by
    rw [heights_eq_nil (by omega)]
    simp [serveChunks]
  | fuel + 1, idx, out, bytes, hfuel, hget, hfits => by
    unfold serveChunks
    by_cases hpast : stop < idx
    · rw [if_pos hpast, heights_eq_nil hpast]
      simp
    · rw [if_neg hpast]
      dsimp only
      set chunkEnd := min (idx + (chainServeChunk - 1)) stop with hend
      have hbetween : idx ≤ chunkEnd ∧ chunkEnd ≤ stop := by omega
      have hsplit := heights_append (a := idx) (b := chunkEnd) (c := stop) (by omega) hbetween.2
      have hbytes := spanBytes_append size chain (a := idx) (b := chunkEnd) (c := stop) (by omega) hbetween.2
      rw [← hsplit] at hget
      rw [serveChunk_all _ _ _ (fun h hh => hget h (List.mem_append_left _ hh))
          (by unfold spanBytes at hbytes hfits; omega)]
      dsimp only
      rw [serveChunks_all _ _ _ _ (by omega) (fun h hh => hget h (List.mem_append_right _ hh))
        (by unfold spanBytes at hbytes hfits ⊢; omega), ← hsplit, List.map_append, List.append_assoc]

theorem serveChunks_cut {stop : ℕ} :
    ∀ (fuel idx : ℕ) (out : List Block) (bytes : ℕ), stop + 1 - idx ≤ fuel →
      (∀ h ∈ heights idx stop, get h = some (chain h)) → bytes ≤ compactSafeAssembledBytes →
      compactSafeAssembledBytes < bytes + spanBytes size chain idx stop →
      ∃ k < (heights idx stop).length,
        serveChunks size get stop fuel idx (out, bytes) = out ++ ((heights idx stop).take k).map chain
  | 0, idx, out, bytes, hfuel, _, hle, hcut => by
    rw [spanBytes, heights_eq_nil (by omega)] at hcut
    simp only [List.map_nil, List.sum_nil] at hcut
    omega
  | fuel + 1, idx, out, bytes, hfuel, hget, hle, hcut => by
    unfold serveChunks
    by_cases hpast : stop < idx
    · rw [spanBytes, heights_eq_nil hpast] at hcut
      simp only [List.map_nil, List.sum_nil] at hcut
      omega
    · rw [if_neg hpast]
      dsimp only
      set chunkEnd := min (idx + (chainServeChunk - 1)) stop with hend
      have hbetween : idx ≤ chunkEnd ∧ chunkEnd ≤ stop := by omega
      have hsplit := heights_append (a := idx) (b := chunkEnd) (c := stop) (by omega) hbetween.2
      have hbytes := spanBytes_append size chain (a := idx) (b := chunkEnd) (c := stop) (by omega) hbetween.2
      rw [← hsplit] at hget ⊢
      have hfirst : ∀ h ∈ heights idx chunkEnd, get h = some (chain h) :=
        fun h hh => hget h (List.mem_append_left _ hh)
      by_cases hhere : compactSafeAssembledBytes < bytes + spanBytes size chain idx chunkEnd
      · obtain ⟨k, hk, hserve⟩ := serveChunk_cut _ out _ hfirst hle hhere
        refine ⟨k, by rw [List.length_append]; omega, ?_⟩
        rw [hserve, List.take_append_of_le_length hk.le]
      · rw [serveChunk_all _ _ _ hfirst (by unfold spanBytes at hhere; omega)]
        dsimp only
        obtain ⟨k, hk, hserve⟩ := serveChunks_cut fuel (chunkEnd + 1)
          (out ++ (heights idx chunkEnd).map chain)
          (bytes + ((heights idx chunkEnd).map fun h => size (chain h)).sum) (by omega)
          (fun h hh => hget h (List.mem_append_right _ hh)) (by unfold spanBytes at hhere; omega)
          (by unfold spanBytes at hhere hbytes hcut ⊢; omega)
        refine ⟨(heights idx chunkEnd).length + k, by rw [List.length_append]; omega, ?_⟩
        rw [hserve, List.take_length_add_append, List.map_append, List.append_assoc]

variable {beacon : TipBeaconInfo} {localTip : ℕ} {localTipHash : Hash}

/-- The blocks of a request that the client keeps. -/
def keptBlocks (E : Env) (start stop : ℕ) (blocks : List Block) : List Block :=
  blocks.filter fun b => start ≤ b.index && b.index ≤ stop && bodyOk E b

theorem Canonical.kept (h : Canonical E chain beacon localTip localTipHash) {a b : ℕ} (ha : localTip < a)
    (hb : b ≤ beacon.height) {hs : List ℕ} (hin : ∀ x ∈ hs, a ≤ x ∧ x ≤ b) :
    keptBlocks E a b (hs.map chain) = hs.map chain ∧
      (hs.map chain).filter (fun c => a ≤ c.index && c.index ≤ b) = hs.map chain := by
  have hok : ∀ c ∈ hs.map chain, a ≤ c.index ∧ c.index ≤ b ∧ bodyOk E c = true := by
    intro c hc
    obtain ⟨x, hx, rfl⟩ := List.mem_map.mp hc
    have hrange := hin x hx
    rw [h.numbered x (by omega) (by omega)]
    exact ⟨hrange.1, hrange.2, h.bodies x (by omega) (by omega)⟩
  constructor
  · rw [keptBlocks, List.filter_eq_self]
    intro c hc
    simp [hok c hc]
  · rw [List.filter_eq_self]
    intro c hc
    simp [hok c hc]

theorem byHeight_some {blocks : List Block} {h : ℕ} {c : Block} (hc : c ∈ blocks) (hindex : c.index = h)
    (honly : ∀ b ∈ blocks, b.index = h → b = c) : byHeight blocks h = some c := by
  cases hfind : byHeight blocks h with
  | none =>
    have := List.find?_eq_none.mp hfind c (List.mem_reverse.mpr hc)
    simp [hindex] at this
  | some b =>
    obtain ⟨hb, hbindex⟩ := byHeight_index hfind
    rw [honly b hb hbindex]

theorem byHeight_none {blocks : List Block} {h : ℕ} (hno : ∀ b ∈ blocks, b.index ≠ h) :
    byHeight blocks h = none := by
  rw [byHeight, List.find?_eq_none]
  intro b hb
  simpa using hno b (List.mem_reverse.mp hb)

theorem Canonical.window (h : Canonical E chain beacon localTip localTipHash) {S : List ℕ}
    (hin : ∀ x ∈ S, localTip < x ∧ x ≤ beacon.height) (x : ℕ) :
    byHeight (S.map chain) x = if x ∈ S then some (chain x) else none := by
  have hindex : ∀ b ∈ S.map chain, b.index ∈ S ∧ b = chain b.index := by
    intro b hb
    obtain ⟨y, hy, rfl⟩ := List.mem_map.mp hb
    rw [h.numbered y (hin y hy).1 (hin y hy).2]
    exact ⟨hy, rfl⟩
  by_cases hx : x ∈ S
  · rw [if_pos hx]
    refine byHeight_some (List.mem_map_of_mem hx) (h.numbered x (hin x hx).1 (hin x hx).2) ?_
    intro b hb hbx
    rw [(hindex b hb).2, hbx]
  · rw [if_neg hx]
    refine byHeight_none fun b hb hbx => hx ?_
    rw [← hbx]
    exact (hindex b hb).1

/-- The walk of an honest span down to `needed`. -/
def honestState (size : Block → ℕ) (chain : ℕ → Block) (beacon : TipBeaconInfo) (needed : ℕ) : SpanState :=
  ⟨if needed = beacon.height then beacon.hash else (chain (needed + 1)).previousHash,
    (heights (needed + 1) beacon.height).map chain, spanBytes size chain (needed + 1) beacon.height⟩

theorem spanBytes_succ (size : Block → ℕ) (chain : ℕ → Block) {a b : ℕ} (h : a ≤ b) :
    spanBytes size chain a b = size (chain a) + spanBytes size chain (a + 1) b := by
  rw [spanBytes, heights_succ h, List.map_cons, List.sum_cons, spanBytes]

/-- Through a window that has the blocks from `start` up and nothing below. -/
theorem spanDown_honest (h : Canonical E chain beacon localTip localTipHash)
    (hbytes : spanBytes size chain (localTip + 1) beacon.height ≤ committedSpanMaxBytes)
    {B : ℕ → Option Block} {start n : ℕ} (hstart : localTip < start)
    (hwindow : ∀ x, start ≤ x → x ≤ n → B x = some (chain x)) (hbelow : ∀ x, x < start → B x = none) :
    ∀ left, start ≤ localTip + left + 1 → localTip + left ≤ n → localTip + left ≤ beacon.height →
      spanDown E size B localTip left (honestState size chain beacon (localTip + left)) =
        some (start - 1 - localTip, honestState size chain beacon (start - 1))
  | 0, hle, _, _ => by
    have : start - 1 = localTip := by omega
    rw [this, Nat.sub_self]
    rfl
  | left + 1, hle, htop, hb => by
    unfold spanDown
    by_cases hhere : start ≤ localTip + (left + 1)
    · rw [hwindow _ hhere htop]
      have hbody := h.bodies (localTip + (left + 1)) (by omega) hb
      simp only [bodyOk, Bool.and_eq_true, beq_iff_eq] at hbody
      have hhash : (chain (localTip + (left + 1))).hash =
          (honestState size chain beacon (localTip + (left + 1))).expectedHash := by
        unfold honestState
        dsimp only
        by_cases hlast : localTip + (left + 1) = beacon.height
        · rw [if_pos hlast, hlast]
          exact h.top
        · rw [if_neg hlast]
          exact (h.linked _ (by omega) (by omega)).symm
      have hfits : (honestState size chain beacon (localTip + (left + 1))).bufferedBytes +
          size (chain (localTip + (left + 1))) ≤ committedSpanMaxBytes := by
        have hone := spanBytes_succ size chain hb
        have hall := spanBytes_append size chain (a := localTip + 1) (b := localTip + left)
          (c := beacon.height) (by omega) (by omega)
        unfold honestState
        dsimp only
        rw [Nat.add_assoc localTip left 1] at hall
        omega
      have hnext : (⟨(chain (localTip + (left + 1))).previousHash,
          chain (localTip + (left + 1)) ::
            (honestState size chain beacon (localTip + (left + 1))).collected,
          (honestState size chain beacon (localTip + (left + 1))).bufferedBytes +
            size (chain (localTip + (left + 1)))⟩ : SpanState) =
          honestState size chain beacon (localTip + left) := by
        unfold honestState
        dsimp only
        rw [if_neg (by omega), Nat.add_assoc localTip left 1, heights_succ hb, List.map_cons,
          spanBytes_succ size chain hb, Nat.add_comm (size _)]
      dsimp only
      rw [if_neg (by simp [committedLinkOk, hhash, hbody]), if_neg (by omega), hnext]
      exact spanDown_honest h hbytes hstart hwindow hbelow left (by omega) (by omega) (by omega)
    · rw [hbelow _ (by omega)]
      have : start - 1 = localTip + (left + 1) := by omega
      dsimp only
      rw [this, Nat.add_sub_cancel_left]

/-- The first try succeeds, and a window is one batch. -/
theorem requestBlocks_honest {start stop : ℕ} {s : NodeState} (hle : start ≤ stop)
    (hspan : stop - start < maxGetblocksSpan) :
    Alone (honest size get) (requestBlocks E start stop)
      (fun r _ => r = some (keptBlocks E start stop (chainRequest size get start stop))) s := by
  unfold requestBlocks
  rw [if_neg (by omega), if_neg (by omega)]
  intro reply hreply
  have hreply : reply = some (chainRequest size get start stop) := hreply
  subst hreply
  rfl

/-- **One round after the other against an honest peer**: the span comes back if and only if every window
still to come fits a reply. -/
theorem spanRounds_honest (h : Canonical E chain beacon localTip localTipHash)
    (hbytes : spanBytes size chain (localTip + 1) beacon.height ≤ committedSpanMaxBytes)
    (hget : ∀ x, localTip < x → x ≤ beacon.height → get x = some (chain x)) :
    ∀ (fuel left : ℕ) (s : NodeState), left < fuel → localTip + left ≤ beacon.height →
      (left = 0 ∨ (beacon.height - (localTip + left)) % maxGetblocksSpan = 0) →
      Alone (honest size get)
        (spanRounds E size localTip localTipHash fuel left (honestState size chain beacon (localTip + left)))
        (fun r _ => r = .span ((heights (localTip + 1) beacon.height).map chain) ↔
          ∀ top, localTip < top → top ≤ localTip + left → (beacon.height - top) % maxGetblocksSpan = 0 →
            spanBytes size chain (spanWindowStart localTip top) top ≤ compactSafeAssembledBytes) s
  | 0, left, s, hfuel, _, _ => by omega
  | fuel + 1, left, s, hfuel, hle, haligned => by
    have hahead := h.ahead
    unfold spanRounds
    by_cases hzero : left = 0
    · subst hzero
      have hfoot : (honestState size chain beacon (localTip + 0)).expectedHash = localTipHash := by
        unfold honestState
        dsimp only
        rw [if_neg (by omega)]
        exact h.foot
      rw [if_pos rfl, if_pos hfoot]
      refine holds_pure.mpr ⟨fun _ top htop hle => by omega, fun _ => rfl⟩
    · rw [if_neg hzero]
      refine holds_bind.mpr (holds_query.mpr fun expired hexpired => ?_)
      rw [show expired = false from hexpired, if_neg (by simp)]
      dsimp only
      set top := localTip + left with htop
      set start := spanWindowStart localTip top with hstart
      have hwindow : localTip < start ∧ start ≤ top ∧ top - start < maxGetblocksSpan := by
        rw [hstart, spanWindowStart, maxGetblocksSpan]
        omega
      have hrange : ∀ x ∈ heights start top, start ≤ x ∧ x ≤ top := fun x hx => mem_heights.mp hx
      have hserved : ∀ x ∈ heights start top, get x = some (chain x) := by
        intro x hx
        have := hrange x hx
        exact hget x (by omega) (by omega)
      refine holds_bind.mpr (Holds.mono ?_ (requestBlocks_honest hwindow.2.1 hwindow.2.2))
      intro reply t hreply
      rw [hreply]
      dsimp only
      by_cases hfits : spanBytes size chain start top ≤ compactSafeAssembledBytes
      · -- The whole window is there: the walk goes through it.
        have hall : chainRequest size get start top = (heights start top).map chain := by
          rw [chainRequest, serveChunks_all _ _ _ _ le_rfl hserved (by omega), List.nil_append]
        obtain ⟨hkept, hagain⟩ := h.kept hwindow.1 hle hrange
        rw [hall, hkept, hagain]
        have hlook := h.window (S := heights start top) fun x hx => by
          have := hrange x hx
          omega
        have hdown := spanDown_honest h hbytes hwindow.1 (B := byHeight ((heights start top).map chain))
            (n := top) (fun x hx hx' => by rw [hlook, if_pos (mem_heights.mpr ⟨hx, hx'⟩)])
          (fun x hx => by rw [hlook, if_neg fun hmem => by have := mem_heights.mp hmem; omega])
          left (by omega) le_rfl hle
        rw [hdown]
        dsimp only
        rw [if_neg (by omega)]
        have hnext : start - 1 = localTip + (start - 1 - localTip) := by omega
        have hcase : start = localTip + 1 ∨ start + 255 = top := by
          rw [hstart, spanWindowStart, maxGetblocksSpan]
          omega
        have ih := spanRounds_honest h hbytes hget fuel (start - 1 - localTip) t (by omega) (by omega)
          (by rw [maxGetblocksSpan] at haligned ⊢; omega)
        rw [← hnext] at ih
        refine Holds.mono ?_ ih
        intro r _ hr
        rw [hr]
        constructor
        · intro hrest top' hlt hle' hmod
          by_cases hbelow : top' ≤ start - 1
          · exact hrest top' hlt hbelow hmod
          · have : top' = top := by
              rw [maxGetblocksSpan] at haligned hmod hwindow
              omega
            rw [this]
            exact hfits
        · intro hrest top' hlt hle' hmod
          exact hrest top' hlt (by omega) hmod
      · -- The reply ends below the top of the window, and the walk has nothing to start on.
        have hover : compactSafeAssembledBytes < 0 + spanBytes size chain start top := by omega
        obtain ⟨k, hk, hcut⟩ := serveChunks_cut (top + 1 - start) start [] 0 le_rfl hserved (Nat.zero_le _) hover
        have hreply : chainRequest size get start top = ((heights start top).take k).map chain := by
          rw [chainRequest, hcut, List.nil_append]
        have hprefix : ∀ x ∈ (heights start top).take k, start ≤ x ∧ x ≤ top :=
          fun x hx => hrange x (List.mem_of_mem_take hx)
        obtain ⟨hkept, hagain⟩ := h.kept hwindow.1 hle hprefix
        rw [hreply, hkept, hagain]
        have hmissing : top ∉ (heights start top).take k := by
          intro hmem
          rw [length_heights] at hk
          rw [heights, List.take_range'_of_length_ge hk.le, List.mem_range'_1] at hmem
          omega
        have hlook := h.window (S := (heights start top).take k) (fun x hx => by
          have := hprefix x hx
          omega) top
        rw [if_neg hmissing] at hlook
        have hdown : ∀ w, spanDown E size (byHeight (((heights start top).take k).map chain)) localTip left w =
            some (left, w) := by
          intro w
          obtain ⟨left, rfl⟩ := Nat.exists_eq_succ_of_ne_zero hzero
          rw [spanDown, ← htop, hlook]
        rw [hdown]
        dsimp only
        rw [if_pos rfl]
        refine holds_pure.mpr ⟨(fun hr => by cases hr), fun hall => ?_⟩
        refine absurd (hall top (by omega) le_rfl ?_) hfits
        rcases haligned with hz | hmod
        · exact absurd hz hzero
        · exact hmod

/-! ### The whole call -/

theorem fetch_sound (ans : ∀ q, Answer q → Prop) {fuel : ℕ} (s : NodeState)
    (hfuel : beacon.height - localTip < fuel) :
    Alone ans (fetchBeaconCommittedSpan E size fuel beacon localTip localTipHash)
      (fun r _ => r ≠ .spinning ∧
        ∀ span, r = .span span → Committed E size beacon localTip localTipHash span) s := by
  unfold fetchBeaconCommittedSpan
  by_cases hbehind : beacon.height ≤ localTip
  · rw [if_pos hbehind]
    exact ⟨by simp, by simp⟩
  · rw [if_neg hbehind]
    by_cases hmany : committedSpanMaxBlocks < beacon.height - localTip
    · rw [if_pos hmany]
      exact ⟨by simp, by simp⟩
    · rw [if_neg hmany]
      have htop : localTip + (beacon.height - localTip) = beacon.height := by omega
      refine spanRounds_sound (by omega) (by omega) hfuel htop.le ?_
      rw [htop]
      exact Walked.start beacon

theorem fetch_honest (h : Canonical E chain beacon localTip localTipHash) (size : Block → ℕ)
    (get : ℕ → Option Block) (hfew : beacon.height - localTip ≤ committedSpanMaxBlocks)
    (hbytes : spanBytes size chain (localTip + 1) beacon.height ≤ committedSpanMaxBytes)
    (hget : ∀ x, localTip < x → x ≤ beacon.height → get x = some (chain x)) {fuel : ℕ} (s : NodeState)
    (hfuel : beacon.height - localTip < fuel) :
    Alone (honest size get) (fetchBeaconCommittedSpan E size fuel beacon localTip localTipHash)
      (fun r _ => r = .span ((heights (localTip + 1) beacon.height).map chain) ↔
        WindowsFit size chain beacon localTip) s := by
  have hahead := h.ahead
  have htop : localTip + (beacon.height - localTip) = beacon.height := by omega
  have hstart : honestState size chain beacon beacon.height = ⟨beacon.hash, [], 0⟩ := by
    unfold honestState spanBytes
    rw [if_pos rfl, heights_eq_nil (by omega)]
    rfl
  have hrounds := spanRounds_honest h hbytes hget fuel (beacon.height - localTip) s hfuel htop.le
    (.inr (by rw [htop, Nat.sub_self, Nat.zero_mod]))
  rw [htop, hstart] at hrounds
  unfold fetchBeaconCommittedSpan
  rw [if_neg (by omega), if_neg (by omega)]
  exact hrounds

/-- **Main result.** Whatever a peer answers, the call ends and a span it returns is the committed one. From
an honest peer with the beacon's chain a span within the caps comes back if and only if every window of
heights, counted down from the beacon, fits one reply. -/
theorem committed_span_exact (E : Env) (size : Block → ℕ) (beacon : TipBeaconInfo) (localTip : ℕ)
    (localTipHash : Hash) :
    (∀ (ans : ∀ q, Answer q → Prop) (fuel : ℕ) (s s' : NodeState) (r : SpanOutcome),
      beacon.height - localTip < fuel →
      Exec ans (fetchBeaconCommittedSpan E size fuel beacon localTip localTipHash) s r s' →
      r ≠ .spinning ∧ ∀ span, r = .span span → Committed E size beacon localTip localTipHash span) ∧
    (∀ (chain : ℕ → Block) (get : ℕ → Option Block), Canonical E chain beacon localTip localTipHash →
      beacon.height - localTip ≤ committedSpanMaxBlocks →
      spanBytes size chain (localTip + 1) beacon.height ≤ committedSpanMaxBytes →
      (∀ x, localTip < x → x ≤ beacon.height → get x = some (chain x)) →
      ∀ (fuel : ℕ) (s s' : NodeState) (r : SpanOutcome), beacon.height - localTip < fuel →
        Exec (honest size get) (fetchBeaconCommittedSpan E size fuel beacon localTip localTipHash) s r s' →
        (r = .span ((heights (localTip + 1) beacon.height).map chain) ↔
          WindowsFit size chain beacon localTip)) := by
  constructor
  · intro ans fuel s s' r hfuel hexec
    have hend := exec_post hexec (fetch_sound ans s hfuel)
    exact hend
  · intro chain get hcanon hfew hbytes hget fuel s s' r hfuel hexec
    have hend := exec_post hexec (fetch_honest hcanon size get hfew hbytes hget s hfuel)
    exact hend

/-! ### Two busy blocks -/

def busyChain : ℕ → Block
  | 0 => genesisLaunchBlock toyEnv
  | 1 => toyBlock (genesisLaunchBlock toyEnv) 5 ['m'] []
  | _ => toyBlock (toyBlock (genesisLaunchBlock toyEnv) 5 ['m'] []) 5 ['m'] []

def busyBeacon : TipBeaconInfo := ⟨2, (busyChain 2).hash, true⟩

theorem busyChain_canonical : Canonical toyEnv busyChain busyBeacon 0 (busyChain 0).hash where
  ahead := by decide
  numbered h hlt hle := by
    have : h = 1 ∨ h = 2 := by
      change h ≤ 2 at hle
      omega
    rcases this with rfl | rfl <;> decide +kernel
  bodies h hlt hle := by
    have : h = 1 ∨ h = 2 := by
      change h ≤ 2 at hle
      omega
    rcases this with rfl | rfl <;> decide +kernel
  linked h hlt hlt' := by
    have : h = 1 := by
      change h < 2 at hlt'
      omega
    subst this
    decide +kernel
  top := rfl
  foot := by decide +kernel

/-- What a peer with this chain answers. -/
def serving (size : Block → ℕ) (get : ℕ → Option Block) : ∀ q, Answer q
  | .unixSecs => (0 : ℕ)
  | .unixMillis => (0 : ℕ)
  | .relayPages _ _ => (none : Option (List Block))
  | .relayBlock _ _ => ([] : List ExactReply)
  | .peerBlocks start stop => some (chainRequest size get start stop)
  | .txWitness _ => (none : Option Transaction)
  | .sliceExpired => false
  | .witnessDeadline => false
  | .fetchSlot => false
  | .validationPermit => false

theorem honest_serving (size : Block → ℕ) (get : ℕ → Option Block) : ∀ q, honest size get q (serving size get q) := by
  intro q
  cases q with
  | peerBlocks start stop => rfl
  | sliceExpired => rfl
  | _ => trivial

/-- Two blocks of a kilobyte each come back. -/
theorem small_span_returned :
    ∀ s : NodeState, ((fetchBeaconCommittedSpan toyEnv (fun _ => 1000) 3 busyBeacon 0 (busyChain 0).hash).run
      (serving (fun _ => 1000) fun h => some (busyChain h)) s).1 =
        .span ((heights 1 2).map busyChain) := by
  intro s
  refine ((committed_span_exact toyEnv (fun _ => 1000) busyBeacon 0 (busyChain 0).hash).2 busyChain
    (fun h => some (busyChain h)) busyChain_canonical (by decide) (by decide) (fun _ _ _ => rfl) 3 s _ _
    (by decide) (exec_run (honest_serving _ _) _ s)).mpr ?_
  intro top hlt hle hmod
  have : top = 1 ∨ top = 2 := by
    change top ≤ 2 at hle
    omega
  rcases this with rfl | rfl <;> decide

/-- Two of 2.2 MB each, far below the cap of a span, do not: the reply has room for one. -/
theorem busy_span_not_returned :
    busyBeacon.height - 0 ≤ committedSpanMaxBlocks ∧
      spanBytes (fun _ => 2200000) busyChain 1 busyBeacon.height ≤ committedSpanMaxBytes ∧
      ∀ s : NodeState, ((fetchBeaconCommittedSpan toyEnv (fun _ => 2200000) 3 busyBeacon 0 (busyChain 0).hash).run
        (serving (fun _ => 2200000) fun h => some (busyChain h)) s).1 ≠
          .span ((heights 1 2).map busyChain) := by
  refine ⟨by decide, by decide, ?_⟩
  intro s hspan
  have hcall := fetch_honest busyChain_canonical (fun _ => 2200000) (fun h => some (busyChain h)) (by decide)
    (by decide) (fun _ _ _ => rfl) s (show 2 < 3 by decide)
  have hrun := exec_post (exec_run (honest_serving (fun _ => 2200000) fun h => some (busyChain h)) _ s) hcall
  have hfits := hrun.mp hspan 2 (by decide) le_rfl rfl
  exact absurd hfits (by decide)

end Alphanumeric
