/-
# The walk to a common ancestor

What `find_common_ancestor` (`Converge`) returns. The walk follows hashes down from the
beacon; which height a body is at it reads off the body, not off its place in the walk.
So a verdict `Found` names a hash-linked list of valid bodies that ends in the beacon's
hash and starts at the first of them that the local chain has at that body's own height.
If the bodies are numbered as their links say, the list is the chain between the two heights.

It ends unless the bodies it sees have a cycle of hashes. It finds the highest common
height if the windows it asks for are not empty and every block of the beacon's chain
comes with its window or by exact fetch; a window whose top is cached is not asked for.

`P` is what anyone can show: the cache and all answers are within it. The local chain
does not change during the walk.

Key definitions: `shows`, `FoundAt`, `Numbered`, `BeaconChain`, `Supplied`, `serves`.
Key theorems: `findCommonAncestor_sound`, `FoundAt.numbered`, `findCommonAncestor_complete`,
`ancestor_walk`.
-/
import Alphanumeric.CommittedSpan

namespace Alphanumeric

open Proc ChainState

variable {E : Env} {P : Block → Prop} {beacon : TipBeaconInfo} {floor : ℕ}

/-! ### What the walk is shown -/

/-- Every block the bases serve is one of `P`. -/
def ServedWithin (P : Block → Prop) (replies : List ExactReply) : Prop := ∀ b, .served b ∈ replies → P b

/-- Every block in an answer is one of `P`. -/
def shows (P : Block → Prop) : ∀ q, Answer q → Prop
  | .relayPages _ _, reply => ∀ raw, reply = some raw → ∀ b ∈ raw, P b
  | .relayBlock _ _, replies => ServedWithin P replies
  | _, _ => True

/-- The bodies that the walk takes from the pages of a window. -/
def windowBlocks (E : Env) (start stop : ℕ) (raw : List Block) : List Block :=
  (dedupBlocks (raw.filter fun b => start ≤ b.index && b.index ≤ stop && bodyOk E b)).insertionSort
    fun a b => relayLe a b = true

theorem mem_of_mem_dedupBlocks {b : Block} : ∀ {l : List Block}, b ∈ dedupBlocks l → b ∈ l
  | [], h => by cases h
  | c :: l, h => by
    rcases List.mem_cons.mp h with rfl | hrest
    · exact List.mem_cons_self ..
    · exact List.mem_cons_of_mem _ (mem_of_mem_dedupBlocks (List.mem_of_mem_filter hrest))

theorem exists_mem_dedupBlocks {b : Block} : ∀ {l : List Block}, b ∈ l → ∃ c ∈ dedupBlocks l, c.hash = b.hash
  | c :: l, h => by
    by_cases hsame : c.hash = b.hash
    · exact ⟨c, List.mem_cons_self .., hsame⟩
    · have hl : b ∈ l := by
        rcases List.mem_cons.mp h with rfl | hl
        · exact absurd rfl hsame
        · exact hl
      obtain ⟨d, hd, hhash⟩ := exists_mem_dedupBlocks hl
      refine ⟨d, List.mem_cons_of_mem _ (List.mem_filter.mpr ⟨hd, ?_⟩), hhash⟩
      have hne : d.hash ≠ c.hash := fun heq => hsame (heq ▸ hhash)
      simp [hne]

theorem mem_windowBlocks {start stop : ℕ} {raw : List Block} {b : Block} (h : b ∈ windowBlocks E start stop raw) :
    b ∈ raw ∧ start ≤ b.index ∧ b.index ≤ stop ∧ bodyOk E b = true := by
  rw [windowBlocks, List.mem_insertionSort] at h
  have hfilter := mem_of_mem_dedupBlocks h
  simpa [and_assoc] using List.mem_filter.mp hfilter

theorem exists_mem_windowBlocks {start stop : ℕ} {raw : List Block} {b : Block} (h : b ∈ raw)
    (hstart : start ≤ b.index) (hstop : b.index ≤ stop) (hok : bodyOk E b = true) :
    ∃ c ∈ windowBlocks E start stop raw, c.hash = b.hash := by
  obtain ⟨c, hc, hhash⟩ := exists_mem_dedupBlocks
    (l := raw.filter fun b => start ≤ b.index && b.index ≤ stop && bodyOk E b)
    (List.mem_filter.mpr ⟨h, by simp [hstart, hstop, hok]⟩)
  exact ⟨c, by rwa [windowBlocks, List.mem_insertionSort], hhash⟩

theorem mem_keepBody {bodies : List Block} {b c : Block} (h : c ∈ keepBody bodies b) : c ∈ bodies ∨ c = b := by
  unfold keepBody at h
  split_ifs at h
  · exact .inl h
  · simpa using h

theorem subset_keepBody {bodies : List Block} {b c : Block} (h : c ∈ bodies) : c ∈ keepBody bodies b := by
  unfold keepBody
  split_ifs
  · exact h
  · exact List.mem_append_left _ h

theorem exists_mem_keepBody (bodies : List Block) (b : Block) : ∃ c ∈ keepBody bodies b, c.hash = b.hash := by
  unfold keepBody
  split_ifs with hheld
  · simpa using hheld
  · exact ⟨b, by simp, rfl⟩

theorem mem_foldl_keepBody {c : Block} :
    ∀ (blocks bodies : List Block), c ∈ blocks.foldl keepBody bodies → c ∈ bodies ∨ c ∈ blocks
  | [], _, h => .inl h
  | b :: blocks, bodies, h => by
    rcases mem_foldl_keepBody blocks _ h with hkept | hrest
    · rcases mem_keepBody hkept with hold | rfl
      · exact .inl hold
      · exact .inr (List.mem_cons_self ..)
    · exact .inr (List.mem_cons_of_mem _ hrest)

theorem subset_foldl_keepBody {c : Block} :
    ∀ (blocks bodies : List Block), c ∈ bodies → c ∈ blocks.foldl keepBody bodies
  | [], _, h => h
  | _ :: blocks, _, h => subset_foldl_keepBody blocks _ (subset_keepBody h)

theorem exists_mem_foldl_keepBody {b : Block} :
    ∀ (blocks bodies : List Block), b ∈ blocks → ∃ c ∈ blocks.foldl keepBody bodies, c.hash = b.hash
  | d :: blocks, bodies, h => by
    rcases List.mem_cons.mp h with rfl | hrest
    · obtain ⟨c, hc, hhash⟩ := exists_mem_keepBody bodies b
      exact ⟨c, subset_foldl_keepBody blocks _ hc, hhash⟩
    · exact exists_mem_foldl_keepBody blocks _ hrest

/-- What an exact fetch finds is the asked block. -/
theorem exactFetch_found {height : ℕ} {hash : Hash} {b : Block} :
    ∀ (replies : List ExactReply) (missed : Bool), exactFetch E height hash replies missed = .found b →
      ExactReply.served b ∈ replies ∧ b.index = height ∧ b.hash = hash ∧ bodyOk E b = true
  | [], missed, h => by
    unfold exactFetch at h
    split_ifs at h
  | .unreachable :: rest, missed, h => by
    obtain ⟨hmem, hb⟩ := exactFetch_found rest _ h
    exact ⟨List.mem_cons_of_mem _ hmem, hb⟩
  | .negative :: rest, missed, h => by
    obtain ⟨hmem, hb⟩ := exactFetch_found rest _ h
    exact ⟨List.mem_cons_of_mem _ hmem, hb⟩
  | .served c :: rest, missed, h => by
    unfold exactFetch at h
    split_ifs at h with hc
    · obtain rfl := ExactFetch.found.inj h
      refine ⟨List.mem_cons_self .., hc.1, hc.2.1, ?_⟩
      simp [bodyOk, hc.2.2.1, hc.2.1, hc.2.2.2]
    · obtain ⟨hmem, hb⟩ := exactFetch_found rest _ h
      exact ⟨List.mem_cons_of_mem _ hmem, hb⟩

theorem fetchRelayBlocks_alone {ans : ∀ q, Answer q → Prop} {start stop : ℕ} {s : NodeState}
    (hle : start ≤ stop) :
    Alone ans (fetchRelayBlocks E start stop)
      (fun r t => t = s ∧ ∃ reply : Option (List Block), ans (.relayPages start stop) reply ∧
        r = reply.map (windowBlocks E start stop)) s := by
  unfold fetchRelayBlocks
  rw [if_neg (by omega)]
  refine holds_bind.mpr (holds_query.mpr fun reply hreply => ?_)
  exact ⟨rfl, reply, hreply, rfl⟩

/-! ### What a verdict says -/

/-- The local chain has the block at the block's own height. -/
def OnLocal (c : ChainState) (b : Block) : Prop := (c.getBlock b.index).map (·.hash) = some b.hash

/-- A body that is valid and within `P`. -/
def Shown (E : Env) (P : Block → Prop) (b : Block) : Prop := bodyOk E b = true ∧ P b

/-- The blocks from the ancestor up to the beacon. -/
structure FoundAt (E : Env) (P : Block → Prop) (c : ChainState) (beacon : TipBeaconInfo) (height : ℕ)
    (canon : List Block) : Prop where
  bodies : ∀ b ∈ canon, Shown E P b
  linked : canon.IsChain LinksTo
  top : canon.getLast?.map (·.hash) = some beacon.hash
  ancestor : ∃ b rest, canon = b :: rest ∧ b.index = height ∧ OnLocal c b ∧ ∀ x ∈ rest, ¬ OnLocal c x

/-- The walk so far: linked down from the beacon, off the local chain, and what it needs next. -/
structure Descended (E : Env) (P : Block → Prop) (c : ChainState) (beacon : TipBeaconInfo) (w : WalkState) :
    Prop where
  held : ∀ b ∈ w.bodies, Shown E P b
  bodies : ∀ b ∈ w.canon, Shown E P b
  linked : w.canon.IsChain LinksTo
  top : w.canon ≠ [] → w.canon.getLast?.map (·.hash) = some beacon.hash
  next : (w.canon.head?.map (·.previousHash)).getD beacon.hash = w.expectedHash
  foreign : ∀ b ∈ w.canon, ¬ OnLocal c b

/-- `rank` goes down along the links of the blocks that are shown: they have no cycle. -/
def Ranked (E : Env) (P : Block → Prop) (rank : Hash → ℕ) : Prop :=
  ∀ b, Shown E P b → rank b.previousHash < rank b.hash

variable {c : ChainState} {w : WalkState} {b : Block} {rank : Hash → ℕ}

/-- The next body is linked to the walk. -/
theorem Descended.push (h : Descended E P c beacon w) (hb : Shown E P b) (hhash : b.hash = w.expectedHash) :
    (∀ x ∈ b :: w.canon, Shown E P x) ∧ (b :: w.canon).IsChain LinksTo ∧
      (b :: w.canon).getLast?.map (·.hash) = some beacon.hash := by
  have hnext := h.next
  refine ⟨List.forall_mem_cons.mpr ⟨hb, h.bodies⟩, ?_, ?_⟩
  · rw [List.isChain_cons]
    refine ⟨?_, h.linked⟩
    intro x hx
    rw [Option.mem_def.mp hx] at hnext
    exact hnext.trans hhash.symm
  · cases hrest : w.canon with
    | nil =>
      rw [hrest] at hnext
      simp only [List.getLast?_singleton, Option.map_some, Option.some.injEq]
      exact hhash.trans hnext.symm
    | cons x rest =>
      have htop := h.top (by simp [hrest])
      rw [hrest] at htop
      rw [List.getLast?_cons_cons]
      exact htop

theorem held_keepBody (h : Descended E P c beacon w) (hb : Shown E P b) :
    ∀ x ∈ keepBody w.bodies b, Shown E P x := by
  intro x hx
  rcases mem_keepBody hx with hold | rfl
  · exact h.held x hold
  · exact hb

/-- What one window's walk leaves behind, from the hash `e` with this fuel. -/
def WalkSound (E : Env) (P : Block → Prop) (c : ChainState) (beacon : TipBeaconInfo) (rank : Hash → ℕ) (fuel : ℕ)
    (e : Hash) : WalkEnd → Prop
  | .ended (.found height canon) bodies => FoundAt E P c beacon height canon ∧ ∀ b ∈ bodies, Shown E P b
  | .ended _ bodies => ∀ b ∈ bodies, Shown E P b
  | .nextWindow w => Descended E P c beacon w ∧ (Ranked E P rank → rank w.expectedHash < rank e)
  | .spinning => Ranked E P rank → fuel ≤ rank e

theorem walkDown_sound {ans : ∀ q, Answer q → Prop} (hans : ∀ q r, ans q r → shows P q r) (winBase : ℕ)
    (rank : Hash → ℕ) :
    ∀ (fuel : ℕ) (w : WalkState) (s : NodeState), Descended E P s.chain beacon w →
      Alone ans (walkDown E beacon floor winBase fuel w)
        (fun r t => t = s ∧ WalkSound E P s.chain beacon rank fuel w.expectedHash r) s
  | 0, w, s, _ => ⟨rfl, fun _ => Nat.zero_le _⟩
  | fuel + 1, w, s, h => by
    -- The step, once the body is there.
    have hstep : ∀ b, Shown E P b → b.hash = w.expectedHash →
        Descended E P s.chain beacon w →
        Alone ans (do
            let localHash ← readChain fun c => (c.getBlock b.index).map (·.hash)
            let bodies := keepBody w.bodies b
            if localHash = some b.hash then return WalkEnd.ended (.found b.index (b :: w.canon)) bodies
            else if b.index ≤ floor then return .ended .noneBelowFloor bodies
            else if b.index - 1 < winBase then
              return .nextWindow ⟨bodies, b :: w.canon, b.previousHash, b.index - 1⟩
            else walkDown E beacon floor winBase fuel ⟨bodies, b :: w.canon, b.previousHash, b.index - 1⟩)
          (fun r t => t = s ∧ WalkSound E P s.chain beacon rank (fuel + 1) w.expectedHash r) s := by
      intro b hb hhash h
      obtain ⟨hshown, hlinked, htop⟩ := h.push hb hhash
      have hheld := held_keepBody h hb
      refine holds_bind.mpr (holds_read.mpr fun t hts _ => ⟨trivial, ?_⟩)
      obtain rfl := hts
      dsimp only
      by_cases hlocal : (s.chain.getBlock b.index).map (·.hash) = some b.hash
      · rw [if_pos hlocal]
        exact ⟨rfl, ⟨hshown, hlinked, htop, b, w.canon, rfl, rfl, hlocal, h.foreign⟩, hheld⟩
      · rw [if_neg hlocal]
        have hnext : Descended E P s.chain beacon
            ⟨keepBody w.bodies b, b :: w.canon, b.previousHash, b.index - 1⟩ :=
          ⟨hheld, hshown, hlinked, fun _ => htop, rfl, List.forall_mem_cons.mpr ⟨hlocal, h.foreign⟩⟩
        have hrank : Ranked E P rank → rank b.previousHash < rank w.expectedHash := by
          intro hranked
          rw [← hhash]
          exact hranked b hb
        by_cases hfloor : b.index ≤ floor
        · rw [if_pos hfloor]
          exact ⟨rfl, hheld⟩
        · rw [if_neg hfloor]
          by_cases hwin : b.index - 1 < winBase
          · rw [if_pos hwin]
            exact ⟨rfl, hnext, hrank⟩
          · rw [if_neg hwin]
            refine Holds.mono ?_ (walkDown_sound hans winBase rank fuel _ s hnext)
            rintro r t ⟨rfl, hr⟩
            refine ⟨rfl, ?_⟩
            cases r with
            | ended verdict bodies =>
              cases verdict with
              | found height canon => exact hr
              | noneBelowFloor => exact hr
              | needsBootstrap => exact hr
              | transient => exact hr
            | nextWindow w' => exact ⟨hr.1, fun hranked => (hr.2 hranked).trans (hrank hranked)⟩
            | spinning =>
              intro hranked
              have hle := hr hranked
              have hlt := hrank hranked
              dsimp only at hle
              omega
    unfold walkDown
    dsimp only
    cases hfind : w.bodies.find? fun b => b.hash = w.expectedHash with
    | some b =>
      have hb := h.held b (List.mem_of_find?_eq_some hfind)
      have hhash : b.hash = w.expectedHash := by simpa using List.find?_some hfind
      exact hstep b hb hhash h
    | none =>
      refine holds_bind.mpr (holds_bind.mpr (holds_query.mpr fun replies hreplies => holds_pure.mpr ?_))
      have hwithin : ServedWithin P replies := hans _ _ hreplies
      cases hexact : exactFetch E w.expectedHeight w.expectedHash replies false with
      | found b =>
        obtain ⟨hmem, -, hhash, hok⟩ := exactFetch_found replies false hexact
        exact hstep b ⟨hok, hwithin b hmem⟩ hhash h
      | missing =>
        refine ⟨rfl, ?_⟩
        unfold gapVerdict
        split_ifs
        · exact h.held
        · exact h.held
      | transient => exact ⟨rfl, h.held⟩

theorem windowBodies_alone {ans : ∀ q, Answer q → Prop} (winBase : ℕ) (w : WalkState) (s : NodeState) :
    Alone ans (windowBodies E beacon winBase w)
      (fun r t => t = s ∧
        ((∃ b ∈ w.bodies, b.hash = w.expectedHash) ∧ r = .ok w.bodies ∨
          (∀ b ∈ w.bodies, b.hash ≠ w.expectedHash) ∧ ∃ reply : Option (List Block),
            ans (.relayPages winBase (winBase + walkWindow - 1)) reply ∧
              (reply = none ∧ r = .error .transient ∨
                ∃ raw, reply = some raw ∧
                  (windowBlocks E winBase (winBase + walkWindow - 1) raw = [] ∧
                      r = .error (gapVerdict beacon w.expectedHeight) ∨
                    windowBlocks E winBase (winBase + walkWindow - 1) raw ≠ [] ∧
                      r = .ok ((windowBlocks E winBase (winBase + walkWindow - 1) raw).foldl keepBody w.bodies)))))
      s := by
  unfold windowBodies
  by_cases hheld : (w.bodies.any fun b => b.hash = w.expectedHash) = true
  · rw [if_pos hheld]
    exact ⟨rfl, .inl ⟨by simpa using hheld, rfl⟩⟩
  · rw [if_neg hheld]
    have hnot : ∀ b ∈ w.bodies, b.hash ≠ w.expectedHash := by simpa using hheld
    have hle : winBase ≤ winBase + walkWindow - 1 := by
      rw [walkWindow]
      omega
    refine holds_bind.mpr (Holds.mono ?_ (fetchRelayBlocks_alone hle))
    rintro r t ⟨rfl, reply, hreply, rfl⟩
    cases reply with
    | none => exact ⟨rfl, .inr ⟨hnot, none, hreply, .inl ⟨rfl, rfl⟩⟩⟩
    | some raw =>
      rw [Option.map_some]
      cases hblocks : windowBlocks E winBase (winBase + walkWindow - 1) raw with
      | nil => exact ⟨rfl, .inr ⟨hnot, some raw, hreply, .inr ⟨raw, rfl, .inl ⟨hblocks, rfl⟩⟩⟩⟩
      | cons x xs =>
        exact ⟨rfl, .inr ⟨hnot, some raw, hreply, .inr ⟨raw, rfl, .inr ⟨by simp [hblocks], by rw [hblocks]⟩⟩⟩⟩

/-- The walk's verdict and cache, if it has returned. -/
def ResultSound (E : Env) (P : Block → Prop) (c : ChainState) (beacon : TipBeaconInfo) (rank : Hash → ℕ)
    (fuel : ℕ) (e : Hash) : Option (Ancestor × List Block) → Prop
  | some (.found height canon, bodies) => FoundAt E P c beacon height canon ∧ ∀ b ∈ bodies, Shown E P b
  | some (_, bodies) => ∀ b ∈ bodies, Shown E P b
  | none => Ranked E P rank → fuel ≤ rank e

theorem resultSound_gap {fuel : ℕ} {e : Hash} {needed : ℕ} {bodies : List Block}
    (h : ∀ b ∈ bodies, Shown E P b) :
    ResultSound E P c beacon rank fuel e (some (gapVerdict beacon needed, bodies)) := by
  unfold gapVerdict
  split_ifs
  · exact h
  · exact h

theorem walkWindows_sound {ans : ∀ q, Answer q → Prop} (hans : ∀ q r, ans q r → shows P q r)
    (rank : Hash → ℕ) (fuel : ℕ) :
    ∀ (rounds : ℕ) (w : WalkState) (s : NodeState), Descended E P s.chain beacon w →
      Alone ans (walkWindows E fuel beacon floor rounds w)
        (fun r _ => ResultSound E P s.chain beacon rank fuel w.expectedHash r) s
  | 0, w, s, h => resultSound_gap h.held
  | rounds + 1, w, s, h => by
    unfold walkWindows
    dsimp only
    refine holds_bind.mpr (Holds.mono ?_ (windowBodies_alone _ w s))
    rintro r t ⟨rfl, hr⟩
    -- Walk on with bodies that are all shown.
    have hwalk : ∀ bodies, (∀ b ∈ bodies, Shown E P b) →
        Descended E P t.chain beacon { w with bodies } :=
      fun bodies hbodies => ⟨hbodies, h.bodies, h.linked, h.top, h.next, h.foreign⟩
    have hgo : ∀ bodies, r = .ok bodies → (∀ b ∈ bodies, Shown E P b) → Alone ans
        (walkDown E beacon floor (w.expectedHeight - w.expectedHeight % walkWindow) fuel { w with bodies })
        (fun r t' => t' = t ∧ WalkSound E P t.chain beacon rank fuel w.expectedHash r) t :=
      fun bodies _ hbodies => walkDown_sound hans _ rank fuel _ t (hwalk bodies hbodies)
    have hok : ∀ bodies, r = .ok bodies → ∀ b ∈ bodies, Shown E P b := by
      intro bodies hbodies b hb
      rcases hr with ⟨-, rfl⟩ | ⟨-, reply, hreply, ⟨-, rfl⟩ | ⟨raw, rfl, ⟨-, rfl⟩ | ⟨-, rfl⟩⟩⟩
      · cases hbodies
        exact h.held b hb
      · cases hbodies
      · cases hbodies
      · cases hbodies
        rcases mem_foldl_keepBody _ _ hb with hold | hnew
        · exact h.held b hold
        · obtain ⟨hraw, -, -, hself⟩ := mem_windowBlocks hnew
          exact ⟨hself, hans _ _ hreply raw rfl b hraw⟩
    cases r with
    | error verdict =>
      have hverdict : verdict = .transient ∨ verdict = gapVerdict beacon w.expectedHeight := by
        rcases hr with ⟨-, hr⟩ | ⟨-, reply, -, ⟨-, hr⟩ | ⟨raw, -, ⟨-, hr⟩ | ⟨-, hr⟩⟩⟩
        · cases hr
        · exact .inl (Except.error.inj hr)
        · exact .inr (Except.error.inj hr)
        · cases hr
      rcases hverdict with rfl | rfl
      · exact h.held
      · exact resultSound_gap h.held
    | ok bodies =>
      refine holds_bind.mpr (Holds.mono ?_ (hgo bodies rfl (hok bodies rfl)))
      rintro r' t' ⟨rfl, hr'⟩
      cases r' with
      | ended verdict bodies =>
        cases verdict with
        | found height canon => exact hr'
        | noneBelowFloor => exact hr'
        | needsBootstrap => exact hr'
        | transient => exact hr'
      | spinning => exact hr'
      | nextWindow w' =>
        refine Holds.mono ?_ (walkWindows_sound hans rank fuel rounds w' t' hr'.1)
        intro r'' _ hr''
        cases r'' with
        | none => exact fun hranked => (hr'' hranked).trans (hr'.2 hranked).le
        | some result =>
          obtain ⟨verdict, bodies⟩ := result
          cases verdict with
          | found height canon => exact hr''
          | noneBelowFloor => exact hr''
          | needsBootstrap => exact hr''
          | transient => exact hr''

theorem findCommonAncestor_sound {ans : ∀ q, Answer q → Prop} (hans : ∀ q r, ans q r → shows P q r)
    (rank : Hash → ℕ) (fuel : ℕ) {cache : List Block} (hcache : ∀ b ∈ cache, Shown E P b) (s : NodeState) :
    Alone ans (findCommonAncestor E fuel beacon floor cache)
      (fun r _ => ResultSound E P s.chain beacon rank fuel beacon.hash r) s :=
  walkWindows_sound hans rank fuel _ _ s ⟨hcache, by simp, .nil, fun h => absurd rfl h, rfl, by simp⟩

/-! ### Heights -/

/-- The beacon's block is at the beacon's height, and every block one above its parent. -/
structure Numbered (E : Env) (P : Block → Prop) (beacon : TipBeaconInfo) : Prop where
  top : ∀ b, Shown E P b → b.hash = beacon.hash → b.index = beacon.height
  step : ∀ a b, Shown E P a → Shown E P b → LinksTo a b → b.index = a.index + 1

theorem numbered_chain (hstep : ∀ a b, Shown E P a → Shown E P b → LinksTo a b → b.index = a.index + 1)
    {top : ℕ} : ∀ {b : Block} {rest : List Block}, (∀ x ∈ b :: rest, Shown E P x) →
      (b :: rest).IsChain LinksTo → (∀ x ∈ (b :: rest).getLast?, x.index = top) →
      b.index ≤ top ∧ (b :: rest).map (·.index) = heights b.index top
  | b, [], _, _, hlast => by
    have : b.index = top := hlast b (by simp)
    rw [← this, heights_succ le_rfl, heights_eq_nil (by omega)]
    exact ⟨le_rfl, rfl⟩
  | b, x :: rest, hshown, hchain, hlast => by
    rw [List.isChain_cons_cons] at hchain
    rw [List.getLast?_cons_cons] at hlast
    have hx : x.index = b.index + 1 := hstep b x (hshown b (by simp)) (hshown x (by simp)) hchain.1
    obtain ⟨hle, hmap⟩ := numbered_chain hstep (fun y hy => hshown y (List.mem_cons_of_mem _ hy)) hchain.2 hlast
    rw [List.map_cons, hmap, hx]
    refine ⟨by omega, ?_⟩
    rw [← heights_succ (by omega)]

/-- Over numbered bodies the verdict names the chain between the two heights. -/
theorem FoundAt.numbered {height : ℕ} {canon : List Block} (h : FoundAt E P c beacon height canon)
    (hnum : Numbered E P beacon) : height ≤ beacon.height ∧ canon.map (·.index) = heights height beacon.height := by
  obtain ⟨b, rest, rfl, rfl, -, -⟩ := h.ancestor
  refine numbered_chain hnum.step h.bodies h.linked ?_
  intro x hx
  have htop := h.top
  rw [Option.mem_def.mp hx, Option.map_some, Option.some.injEq] at htop
  exact hnum.top x (h.bodies x (List.mem_of_mem_getLast? hx)) htop

/-! ### A relay that has the beacon's chain -/

/-- The lowest height the walk goes to. -/
def walkLow (beacon : TipBeaconInfo) (floor : ℕ) : ℕ := min floor beacon.height

/-- The beacon's chain down to `low`; a hash names one header of it. -/
structure BeaconChain (E : Env) (P : Block → Prop) (beacon : TipBeaconInfo) (low : ℕ) (chain : ℕ → Block) :
    Prop where
  linked : ∀ h, low ≤ h → h < beacon.height → (chain (h + 1)).previousHash = (chain h).hash
  top : (chain beacon.height).hash = beacon.hash
  only : ∀ b, Shown E P b → ∀ h, low ≤ h → h ≤ beacon.height → b.hash = (chain h).hash →
    b.index = h ∧ b.previousHash = (chain h).previousHash

/-- How the blocks of the chain are to be had: those of `ranged` heights with their window, the others by exact
fetch. -/
structure Supply where
  low : ℕ
  top : ℕ
  chain : ℕ → Block
  ranged : ℕ → Prop

/-- The window is not empty, and the ranged blocks in it are there. -/
def RangeServes (E : Env) (P : Block → Prop) (v : Supply) (start stop : ℕ) (reply : Option (List Block)) : Prop :=
  ∃ raw, reply = some raw ∧ (∀ b ∈ raw, P b) ∧
    (∃ b ∈ raw, start ≤ b.index ∧ b.index ≤ stop ∧ bodyOk E b = true) ∧
    ∀ h, v.ranged h → v.low ≤ h → h ≤ v.top → start ≤ h → h ≤ stop →
      ∃ b ∈ raw, b.hash = (v.chain h).hash ∧ bodyOk E b = true

def ExactServes (E : Env) (P : Block → Prop) (v : Supply) (height : ℕ) (hash : Hash)
    (replies : List ExactReply) : Prop :=
  ServedWithin P replies ∧ (¬ v.ranged height → v.low ≤ height → height ≤ v.top → hash = (v.chain height).hash →
    ∃ b, exactFetch E height hash replies false = .found b)

def serves (E : Env) (P : Block → Prop) (v : Supply) : ∀ q, Answer q → Prop
  | .relayPages start stop, reply =>
    start ≤ stop → v.low ≤ stop → start ≤ v.top → RangeServes E P v start stop reply
  | .relayBlock height hash, replies => ExactServes E P v height hash replies
  | _, _ => True

/-- The cache has nothing of the chain in a window that a ranged block is in: such a window is asked for. -/
def Cold (v : Supply) (cache : List Block) : Prop :=
  ∀ h h', v.ranged h → h / walkWindow = h' / walkWindow → v.low ≤ h' → h' ≤ v.top →
    ∀ b ∈ cache, b.hash ≠ (v.chain h').hash

/-- The local chain has the block of the beacon's chain at this height. -/
def Common (c : ChainState) (v : Supply) (h : ℕ) : Prop :=
  (c.getBlock h).map (·.hash) = some (v.chain h).hash

/-- The highest common height. -/
structure Highest (c : ChainState) (v : Supply) (height : ℕ) : Prop where
  low_le : v.low ≤ height
  le_top : height ≤ v.top
  common : Common c v height
  above : ∀ h, height < h → h ≤ v.top → ¬ Common c v h

/-- The walk has come down to `e` without a match; what it holds is cached or from `base` up. -/
structure Arriving (E : Env) (P : Block → Prop) (c : ChainState) (v : Supply) (cache : List Block) (base e : ℕ)
    (w : WalkState) : Prop where
  low_le : v.low ≤ e
  le_top : e ≤ v.top
  height : w.expectedHeight = e
  hash : w.expectedHash = (v.chain e).hash
  held : ∀ b ∈ w.bodies, Shown E P b
  origin : ∀ b ∈ w.bodies, b ∈ cache ∨ base ≤ b.index
  above : ∀ h, e < h → h ≤ v.top → ¬ Common c v h

/-- What one window's walk comes to. -/
def WalkComplete (E : Env) (P : Block → Prop) (c : ChainState) (v : Supply) (cache : List Block) (base : ℕ) :
    WalkEnd → Prop
  | .ended (.found height _) _ => Highest c v height
  | .ended .noneBelowFloor _ => ∀ h, v.low ≤ h → h ≤ v.top → ¬ Common c v h
  | .nextWindow w => 0 < base ∧ Arriving E P c v cache base (base - 1) w
  | _ => False

variable {v : Supply} {cache : List Block}

/-- One step of the walk with the body of height `e`. -/
theorem Arriving.next {base e : ℕ} (hchain : BeaconChain E P beacon v.low v.chain) (htop : v.top = beacon.height)
    (h : Arriving E P c v cache base e w) (hbase : base ≤ e) (hlt : v.low < e) (hb : Shown E P b)
    (hindex : b.index = e) (hprev : b.previousHash = (v.chain e).previousHash) (hnot : ¬ Common c v e) :
    Arriving E P c v cache base (e - 1) ⟨keepBody w.bodies b, b :: w.canon, b.previousHash, b.index - 1⟩ := by
  have hle := h.le_top
  refine ⟨by omega, by omega, by rw [hindex], ?_, ?_, ?_, ?_⟩
  · have hlink := hchain.linked (e - 1) (by omega) (by omega)
    rw [Nat.sub_add_cancel (by omega)] at hlink
    exact hprev.trans hlink
  · intro x hx
    rcases mem_keepBody hx with hold | rfl
    · exact h.held x hold
    · exact hb
  · intro x hx
    rcases mem_keepBody hx with hold | rfl
    · exact h.origin x hold
    · exact .inr (by omega)
  · intro x hx hx'
    by_cases hxe : x = e
    · rw [hxe]
      exact hnot
    · exact h.above x (by omega) hx'

theorem walkDown_complete (hchain : BeaconChain E P beacon v.low v.chain) (htop : v.top = beacon.height)
    (hlow : v.low = walkLow beacon floor) (base : ℕ) :
    ∀ (fuel e : ℕ) (w : WalkState) (s : NodeState), base ≤ e → e - base < fuel →
      Arriving E P s.chain v cache base e w →
      (∀ h, base ≤ h → h ≤ e → v.low ≤ h → v.ranged h → ∃ b ∈ w.bodies, b.hash = (v.chain h).hash) →
      Alone (serves E P v) (walkDown E beacon floor base fuel w)
        (fun r t => t = s ∧ WalkComplete E P s.chain v cache base r) s
  | 0, e, w, s, _, hfuel, _, _ => by omega
  | fuel + 1, e, w, s, hbase, hfuel, h, hready => by
    have hlow_le := h.low_le
    have hle := h.le_top
    -- The step, once the body is there.
    have hstep : ∀ b, Shown E P b → b.hash = w.expectedHash →
        Alone (serves E P v) (do
            let localHash ← readChain fun c => (c.getBlock b.index).map (·.hash)
            let bodies := keepBody w.bodies b
            if localHash = some b.hash then return WalkEnd.ended (.found b.index (b :: w.canon)) bodies
            else if b.index ≤ floor then return .ended .noneBelowFloor bodies
            else if b.index - 1 < base then
              return .nextWindow ⟨bodies, b :: w.canon, b.previousHash, b.index - 1⟩
            else walkDown E beacon floor base fuel ⟨bodies, b :: w.canon, b.previousHash, b.index - 1⟩)
          (fun r t => t = s ∧ WalkComplete E P s.chain v cache base r) s := by
      intro b hb hhash
      have hname : b.hash = (v.chain e).hash := hhash.trans h.hash
      obtain ⟨hindex, hprev⟩ := hchain.only b hb e hlow_le (htop ▸ hle) hname
      refine holds_bind.mpr (holds_read.mpr fun t hts _ => ⟨trivial, ?_⟩)
      obtain rfl := hts
      dsimp only
      rw [hindex, hname]
      by_cases hcommon : (s.chain.getBlock e).map (·.hash) = some (v.chain e).hash
      · rw [if_pos hcommon]
        exact ⟨rfl, hlow_le, hle, hcommon, h.above⟩
      · rw [if_neg hcommon]
        unfold walkLow at hlow
        by_cases hfloor : e ≤ floor
        · rw [if_pos hfloor]
          refine ⟨rfl, ?_⟩
          intro x hx hx'
          by_cases hxe : x = e
          · rw [hxe]
            exact hcommon
          · exact h.above x (by omega) hx'
        · rw [if_neg hfloor]
          have hnext := h.next hchain htop hbase (by omega) hb hindex hprev hcommon
          rw [hindex] at hnext
          by_cases hwin : e - 1 < base
          · rw [if_pos hwin]
            have : e = base := by omega
            subst this
            exact ⟨rfl, by omega, hnext⟩
          · rw [if_neg hwin]
            refine walkDown_complete hchain htop hlow base fuel (e - 1) _ s (by omega) (by omega) hnext ?_
            intro x hx hx' hx'' hranged
            obtain ⟨y, hy, hyhash⟩ := hready x hx (by omega) hx'' hranged
            exact ⟨y, subset_keepBody hy, hyhash⟩
    unfold walkDown
    dsimp only
    cases hfind : w.bodies.find? fun b => b.hash = w.expectedHash with
    | some b =>
      have hhash : b.hash = w.expectedHash := by simpa using List.find?_some hfind
      exact hstep b (h.held b (List.mem_of_find?_eq_some hfind)) hhash
    | none =>
      refine holds_bind.mpr (holds_bind.mpr (holds_query.mpr fun replies hreplies => holds_pure.mpr ?_))
      obtain ⟨hwithin, hexact⟩ : ExactServes E P v w.expectedHeight w.expectedHash replies := hreplies
      -- It is not held, so it is no ranged one.
      have hnot : ¬ v.ranged e := by
        intro hranged
        obtain ⟨y, hy, hyhash⟩ := hready e hbase le_rfl hlow_le hranged
        have := List.find?_eq_none.mp hfind y hy
        rw [h.hash, hyhash] at this
        simp at this
      rw [h.height] at hexact ⊢
      obtain ⟨b, hb⟩ := hexact hnot hlow_le hle h.hash
      rw [hb]
      obtain ⟨hmem, -, hhash, hok⟩ := exactFetch_found replies false hb
      exact hstep b ⟨hok, hwithin b hmem⟩ hhash

/-- The bodies a window is walked with are there, and enough. -/
theorem windowBodies_complete (hchain : BeaconChain E P beacon v.low v.chain) (htop : v.top = beacon.height)
    (hcold : Cold v cache) {e base : ℕ} (hbase : base = e - e % walkWindow) {s : NodeState}
    (h : Arriving E P s.chain v cache (e + 1) e w) :
    Alone (serves E P v) (windowBodies E beacon base w)
      (fun r t => t = s ∧ ∃ bodies, r = .ok bodies ∧ Arriving E P s.chain v cache base e { w with bodies } ∧
        ∀ x, base ≤ x → x ≤ e → v.low ≤ x → v.ranged x → ∃ b ∈ bodies, b.hash = (v.chain x).hash) s := by
  have hlow_le := h.low_le
  have hle := h.le_top
  have hbase_le : base ≤ e := by omega
  have hend : e ≤ base + walkWindow - 1 := by
    rw [walkWindow] at hbase ⊢
    omega
  refine Holds.mono ?_ (windowBodies_alone base w s)
  rintro r t ⟨rfl, hr⟩
  refine ⟨rfl, ?_⟩
  rcases hr with ⟨⟨b, hb, hhash⟩, rfl⟩ | ⟨-, reply, hreply, hr⟩
  · -- The body needed next is cached, so no block of this window is a ranged one.
    refine ⟨w.bodies, rfl, ⟨hlow_le, hle, h.height, h.hash, h.held, ?_, h.above⟩, ?_⟩
    · intro x hx
      rcases h.origin x hx with hold | hup
      · exact .inl hold
      · exact .inr (by omega)
    · intro x hx hx' hx'' hranged
      exfalso
      have hindex := (hchain.only b (h.held b hb) e hlow_le (htop ▸ hle) (hhash.trans h.hash)).1
      have hcached : b ∈ cache := by
        rcases h.origin b hb with hold | hup
        · exact hold
        · omega
      refine hcold x e hranged ?_ hlow_le hle b hcached (hhash.trans h.hash)
      rw [walkWindow] at hbase ⊢
      omega
  · obtain ⟨raw, rfl, hwithin, ⟨y, hy, hy₁, hy₂, hyok⟩, hranged⟩ :
      RangeServes E P v base (base + walkWindow - 1) reply := hreply (by omega) (by omega) (by omega)
    have hne : windowBlocks E base (base + walkWindow - 1) raw ≠ [] := by
      obtain ⟨z, hz, -⟩ := exists_mem_windowBlocks hy hy₁ hy₂ hyok
      exact List.ne_nil_of_mem hz
    rcases hr with ⟨hnone, -⟩ | ⟨raw', hraw', ⟨hnil, -⟩ | ⟨-, rfl⟩⟩
    · cases hnone
    · cases hraw'
      exact absurd hnil hne
    · obtain rfl := Option.some.inj hraw'
      refine ⟨_, rfl, ⟨hlow_le, hle, h.height, h.hash, ?_, ?_, h.above⟩, ?_⟩
      · intro x hx
        rcases mem_foldl_keepBody _ _ hx with hold | hnew
        · exact h.held x hold
        · obtain ⟨hraw, -, -, hok⟩ := mem_windowBlocks hnew
          exact ⟨hok, hwithin x hraw⟩
      · intro x hx
        rcases mem_foldl_keepBody _ _ hx with hold | hnew
        · rcases h.origin x hold with hcached | hup
          · exact .inl hcached
          · exact .inr (by omega)
        · exact .inr (mem_windowBlocks hnew).2.1
      · intro x hx hx' hx'' hrx
        obtain ⟨z, hz, hzhash, hzok⟩ := hranged x hrx hx'' (by omega) hx (by omega)
        have hzindex := (hchain.only z ⟨hzok, hwithin z hz⟩ x hx'' (by omega) hzhash).1
        have hin : base ≤ z.index ∧ z.index ≤ base + walkWindow - 1 := by omega
        obtain ⟨z', hz', hz'hash⟩ := exists_mem_windowBlocks hz hin.1 hin.2 hzok
        obtain ⟨z'', hz'', hz''hash⟩ := exists_mem_foldl_keepBody _ w.bodies hz'
        exact ⟨z'', hz'', hz''hash.trans (hz'hash.trans hzhash)⟩

/-- The verdict names the highest common height, or says there is none. -/
def ResultComplete (c : ChainState) (v : Supply) : Option (Ancestor × List Block) → Prop
  | some (.found height _, _) => Highest c v height
  | some (.noneBelowFloor, _) => ∀ h, v.low ≤ h → h ≤ v.top → ¬ Common c v h
  | _ => False

theorem walkWindows_complete (hchain : BeaconChain E P beacon v.low v.chain) (htop : v.top = beacon.height)
    (hlow : v.low = walkLow beacon floor) (hcold : Cold v cache) {fuel : ℕ} (hfuel : walkWindow ≤ fuel) :
    ∀ (rounds e : ℕ) (w : WalkState) (s : NodeState), e / walkWindow - v.low / walkWindow < rounds →
      Arriving E P s.chain v cache (e + 1) e w →
      Alone (serves E P v) (walkWindows E fuel beacon floor rounds w)
        (fun r _ => ResultComplete s.chain v r) s
  | 0, e, w, s, hrounds, _ => by omega
  | rounds + 1, e, w, s, hrounds, h => by
    unfold walkWindows
    dsimp only
    set base := w.expectedHeight - w.expectedHeight % walkWindow with hset
    have hbase : base = e - e % walkWindow := by rw [hset, h.height]
    refine holds_bind.mpr (Holds.mono ?_ (windowBodies_complete hchain htop hcold hbase h))
    rintro r t ⟨rfl, bodies, rfl, harriving, hready⟩
    have hspan : base ≤ e ∧ e - base < fuel := by
      rw [walkWindow] at hbase hfuel
      omega
    refine holds_bind.mpr (Holds.mono ?_
      (walkDown_complete hchain htop hlow base fuel e _ t hspan.1 hspan.2 harriving hready))
    rintro r' t' ⟨rfl, hr'⟩
    cases r' with
    | ended verdict bodies =>
      cases verdict with
      | found height canon => exact hr'
      | noneBelowFloor => exact hr'
      | needsBootstrap => exact hr'.elim
      | transient => exact hr'.elim
    | spinning => exact hr'.elim
    | nextWindow w' =>
      obtain ⟨hpos, harr⟩ := hr'
      have hlow_le := harr.low_le
      refine walkWindows_complete hchain htop hlow hcold hfuel rounds (base - 1) w' t' ?_ ?_
      · rw [walkWindow] at hbase hrounds ⊢
        omega
      · rw [Nat.sub_add_cancel hpos]
        exact harr

theorem findCommonAncestor_complete (hchain : BeaconChain E P beacon v.low v.chain)
    (htop : v.top = beacon.height) (hlow : v.low = walkLow beacon floor) (hcold : Cold v cache)
    (hcache : ∀ b ∈ cache, Shown E P b) {fuel : ℕ} (hfuel : walkWindow ≤ fuel) (s : NodeState) :
    Alone (serves E P v) (findCommonAncestor E fuel beacon floor cache)
      (fun r _ => ResultComplete s.chain v r) s := by
  unfold findCommonAncestor
  refine walkWindows_complete hchain htop hlow hcold hfuel _ beacon.height _ s ?_ ?_
  · rw [hlow, walkLow, walkWindow]
    omega
  · refine ⟨?_, htop.ge, rfl, hchain.top.symm, hcache, fun b hb => .inl hb, ?_⟩
    · rw [hlow, walkLow]
      omega
    · intro x hx hx'
      omega

/-! ### The whole call -/

/-- **Main result.** The walk ends unless what it is shown has a cycle of hashes. What it finds is linked from the
local chain up to the beacon's hash, and numbered if the bodies are. With every block to be had it names the
highest common height, or says that there is none down to the floor. -/
theorem ancestor_walk (E : Env) (P : Block → Prop) (beacon : TipBeaconInfo) (floor : ℕ) (cache : List Block)
    (s : NodeState) (hcache : ∀ b ∈ cache, Shown E P b) :
    (∀ (ans : ∀ q, Answer q → Prop), (∀ q r, ans q r → shows P q r) →
      ∀ (fuel : ℕ) (s' : NodeState) (r : Option (Ancestor × List Block)),
        Exec ans (findCommonAncestor E fuel beacon floor cache) s r s' →
        (∀ rank, Ranked E P rank → rank beacon.hash < fuel → r ≠ none) ∧
        ∀ verdict bodies, r = some (verdict, bodies) → (∀ b ∈ bodies, Shown E P b) ∧
          ∀ height canon, verdict = .found height canon → FoundAt E P s.chain beacon height canon ∧
            (Numbered E P beacon →
              height ≤ beacon.height ∧ canon.map (·.index) = heights height beacon.height)) ∧
    (∀ v : Supply, v.top = beacon.height → v.low = walkLow beacon floor →
      BeaconChain E P beacon v.low v.chain → Cold v cache →
      ∀ (fuel : ℕ) (s' : NodeState) (r : Option (Ancestor × List Block)), walkWindow ≤ fuel →
        Exec (serves E P v) (findCommonAncestor E fuel beacon floor cache) s r s' →
        (∃ height canon bodies, r = some (.found height canon, bodies) ∧ Highest s.chain v height) ∨
        (∃ bodies, r = some (.noneBelowFloor, bodies)) ∧ ∀ h, v.low ≤ h → h ≤ v.top → ¬ Common s.chain v h) := by
  constructor
  · intro ans hans fuel s' r hexec
    have hsound : ∀ rank, ResultSound E P s.chain beacon rank fuel beacon.hash r := by
      intro rank
      have hend := exec_post hexec (findCommonAncestor_sound hans rank fuel hcache s)
      exact hend
    constructor
    · intro rank hranked hfuel hnone
      have hle := hsound rank
      rw [hnone] at hle
      have := hle hranked
      omega
    · intro verdict bodies hr
      have hr' := hsound fun _ => 0
      rw [hr] at hr'
      cases verdict with
      | found height canon =>
        refine ⟨hr'.2, ?_⟩
        intro height' canon' heq
        cases heq
        exact ⟨hr'.1, hr'.1.numbered⟩
      | noneBelowFloor => exact ⟨hr', fun _ _ heq => by cases heq⟩
      | needsBootstrap => exact ⟨hr', fun _ _ heq => by cases heq⟩
      | transient => exact ⟨hr', fun _ _ heq => by cases heq⟩
  · intro v htop hlow hchain hcold fuel s' r hfuel hexec
    have hr := exec_post hexec (findCommonAncestor_complete hchain htop hlow hcold hcache hfuel s)
    cases r with
    | none => exact hr.elim
    | some result =>
      obtain ⟨verdict, bodies⟩ := result
      cases verdict with
      | found height canon => exact .inl ⟨height, canon, bodies, rfl, hr⟩
      | noneBelowFloor => exact .inr ⟨⟨bodies, rfl⟩, hr⟩
      | needsBootstrap => exact hr.elim
      | transient => exact hr.elim

/-! ### Four walks -/

/-- A node that holds these blocks. -/
def walkNode (blocks : List Block) : NodeState where
  chain := ChainState.holding toyEnv blocks []
  mempool _ := none
  witnessCache _ := none
  validationCache := []
  convergeStallTip := 0
  convergeStallCycles := 0
  convergeStallLastMs := 0
  fullSyncInFlight := false

/-- A relay with one window of pages, and one base that serves blocks by height and hash. -/
def relaying (pages served : List Block) : ∀ q, Answer q
  | .unixSecs => (0 : ℕ)
  | .unixMillis => (0 : ℕ)
  | .relayPages _ _ => some pages
  | .relayBlock height hash =>
    match served.find? fun b => b.index = height ∧ b.hash = hash with
    | some b => [ExactReply.served b]
    | none => [ExactReply.negative]
  | .peerBlocks _ _ => (none : Option (List Block))
  | .txWitness _ => (none : Option Transaction)
  | .sliceExpired => false
  | .witnessDeadline => false
  | .fetchSlot => false
  | .validationPermit => false

/-- The walk of a node with the first two blocks to a beacon with the hash of the third. -/
def walkTo (height : ℕ) (cache pages served : List Block) : Option (Ancestor × List Block) :=
  ((findCommonAncestor toyEnv 64 ⟨height, (busyChain 2).hash, true⟩ 0 cache).run (relaying pages served)
    (walkNode [busyChain 0, busyChain 1])).1

/-- The toy chain, every block of it in the pages. -/
def toySupply : Supply := ⟨0, 2, busyChain, fun _ => True⟩

def toyShown (b : Block) : Prop := b ∈ [busyChain 0, busyChain 1, busyChain 2]

theorem toySupply_chain : BeaconChain toyEnv toyShown ⟨2, (busyChain 2).hash, true⟩ 0 busyChain where
  linked h _ hlt := by
    have hcases : h = 0 ∨ h = 1 := by
      change h < 2 at hlt
      omega
    rcases hcases with rfl | rfl <;> decide +kernel
  top := rfl
  only b hb h _ hle hhash := by
    have hcases : h = 0 ∨ h = 1 ∨ h = 2 := by
      change h ≤ 2 at hle
      omega
    have hdistinct : (busyChain 0).hash ≠ (busyChain 1).hash ∧ (busyChain 0).hash ≠ (busyChain 2).hash ∧
        (busyChain 1).hash ≠ (busyChain 2).hash ∧ (busyChain 0).index = 0 ∧ (busyChain 1).index = 1 ∧
        (busyChain 2).index = 2 := by decide +kernel
    have hmem := hb.2
    simp only [toyShown, List.mem_cons, List.not_mem_nil, or_false] at hmem
    rcases hmem with rfl | rfl | rfl <;> rcases hcases with rfl | rfl | rfl <;> simp_all

theorem serves_relaying :
    ∀ q, serves toyEnv toyShown toySupply q (relaying [busyChain 0, busyChain 1, busyChain 2] [] q) := by
  have hindex : ∀ h ≤ 2, (busyChain h).index = h ∧ bodyOk toyEnv (busyChain h) = true ∧
      busyChain h ∈ [busyChain 0, busyChain 1, busyChain 2] := by decide +kernel
  intro q
  cases q with
  | relayPages start stop =>
    intro hle _ htop
    have htop : start ≤ 2 := htop
    refine ⟨_, rfl, fun b hb => hb, ?_, ?_⟩
    · obtain ⟨hi, hok, hmem⟩ := hindex start htop
      exact ⟨busyChain start, hmem, hi.ge, hi.le.trans hle, hok⟩
    · intro h _ _ hh _ _
      obtain ⟨-, hok, hmem⟩ := hindex h hh
      exact ⟨busyChain h, hmem, rfl, hok⟩
  | relayBlock height hash =>
    refine ⟨?_, fun hnot => absurd trivial hnot⟩
    intro b hb
    have hneg : ExactReply.served b ∈ [ExactReply.negative] := hb
    simp at hneg
  | _ => trivial

/-- From the pages alone the walk meets the local chain at its tip. -/
theorem walk_meets_tip :
    ∃ canon bodies, walkTo 2 [] [busyChain 0, busyChain 1, busyChain 2] [] = some (.found 1 canon, bodies) := by
  have hcold : Cold toySupply [] := fun _ _ _ _ _ _ b hb => by cases hb
  have hwalk := (ancestor_walk toyEnv toyShown ⟨2, (busyChain 2).hash, true⟩ 0 []
    (walkNode [busyChain 0, busyChain 1]) (by simp)).2 toySupply rfl rfl toySupply_chain hcold 64 _ _ le_rfl
    (exec_run serves_relaying _ _)
  have hone : Common (walkNode [busyChain 0, busyChain 1]).chain toySupply 1 := by
    unfold Common
    decide +kernel
  rcases hwalk with ⟨height, canon, bodies, hfound, hhighest⟩ | ⟨-, hnone⟩
  · have hle : height ≤ 2 := hhighest.le_top
    have hnot_zero : height ≠ 0 := by
      intro hzero
      exact hhighest.above 1 (by omega) (by decide) hone
    have hnot_two : height ≠ 2 := by
      intro htwo
      have hcommon := hhighest.common
      rw [htwo] at hcommon
      cases hcommon
    have : height = 1 := by omega
    subst this
    exact ⟨canon, bodies, hfound⟩
  · exact absurd hone (hnone 1 (by decide) (by decide))

/-- The same block with its transactions taken out: the hash is that of the header. -/
def strippedOne : Block := { busyChain 1 with transactions := [] }

/-- Found under a beacon at another height; found with another body than the local one; a gap for an empty window,
though every block is served by hash; a gap behind a cached top, though every block is in the pages. -/
theorem ancestor_walk_misses :
    walkTo 5 [] [busyChain 1, busyChain 2] [] =
      some (.found 1 [busyChain 1, busyChain 2], [busyChain 1, busyChain 2]) ∧ (busyChain 2).index ≠ 5 ∧
    walkTo 2 [] [strippedOne, busyChain 2] [] =
      some (.found 1 [strippedOne, busyChain 2], [strippedOne, busyChain 2]) ∧ strippedOne ≠ busyChain 1 ∧
    walkTo 2 [] [] [busyChain 0, busyChain 1, busyChain 2] = some (.transient, []) ∧
    walkTo 2 [busyChain 2] [busyChain 0, busyChain 1, busyChain 2] [] = some (.transient, [busyChain 2]) := by
  decide +kernel

end Alphanumeric
